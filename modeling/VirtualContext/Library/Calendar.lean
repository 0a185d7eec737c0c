import Mathlib.Order.Monotone.Basic
import VirtualContext.Library.Isoformat

/-!
# Days of the calendar

A day is moved one day at a time, and there is no day before year 1 or after year
9999.  The ordinal of a day counts the days of all months before its own, so it tells
how far two days are apart.
-/

namespace VirtualContext.Library

structure CalendarDate where
  year : Nat
  month : Nat
  day : Nat
  valid : (1 ≤ year ∧ year ≤ 9999) ∧ (1 ≤ month ∧ month ≤ 12) ∧
    1 ≤ day ∧ day ≤ daysInMonth year month
  deriving DecidableEq, Repr

theorem daysInMonth_le (year month : Nat) :
    28 ≤ daysInMonth year month ∧ daysInMonth year month ≤ 31 := by
  unfold daysInMonth
  split_ifs <;> omega

theorem daysInMonth_december (year : Nat) : daysInMonth year 12 = 31 := rfl

/-! ## One day and the next -/

namespace CalendarDate

def next (d : CalendarDate) : Option CalendarDate :=
  if hday : d.day < daysInMonth d.year d.month then
    some ⟨d.year, d.month, d.day + 1, d.valid.1, d.valid.2.1, by omega, hday⟩
  else if hmonth : d.month < 12 then
    some ⟨d.year, d.month + 1, 1, d.valid.1, by omega, Nat.le_refl 1, by
      have := daysInMonth_le d.year (d.month + 1)
      omega⟩
  else if hyear : d.year < 9999 then
    some ⟨d.year + 1, 1, 1, by omega, by omega, Nat.le_refl 1, by
      have := daysInMonth_le (d.year + 1) 1
      omega⟩
  else none

def previous (d : CalendarDate) : Option CalendarDate :=
  if hday : 1 < d.day then
    some ⟨d.year, d.month, d.day - 1, d.valid.1, d.valid.2.1, by omega,
      (Nat.sub_le _ _).trans d.valid.2.2.2⟩
  else if hmonth : 1 < d.month then
    some ⟨d.year, d.month - 1, daysInMonth d.year (d.month - 1), d.valid.1,
      by have := d.valid.2.1; omega, by
        have := daysInMonth_le d.year (d.month - 1)
        omega, Nat.le_refl _⟩
  else if hyear : 1 < d.year then
    some ⟨d.year - 1, 12, 31, by have := d.valid.1; omega, by omega, by omega,
      (daysInMonth_december _).ge⟩
  else none

/-- So many steps, unless there is no day left. -/
def stepDays (step : CalendarDate → Option CalendarDate) :
    Nat → CalendarDate → Option CalendarDate
  | 0, d => some d
  | n + 1, d => (step d).bind (stepDays step n)

/-- `date + timedelta(days=offset)`, unless it raises. -/
def addDays (d : CalendarDate) : Int → Option CalendarDate
  | .ofNat n => stepDays next n d
  | .negSucc n => stepDays previous (n + 1) d

/-! ## Ordinals -/

/-- The months from year 0 to the month of the day. -/
def monthIndex (d : CalendarDate) : Nat := 12 * d.year + (d.month - 1)

end CalendarDate

/-- The days of all months before a month. -/
def daysBefore : (index : Nat) → Nat
  | 0 => 0
  | i + 1 => daysBefore i + daysInMonth (i / 12) (i % 12 + 1)

theorem strictMono_daysBefore : StrictMono daysBefore := by
  refine strictMono_nat_of_lt_succ fun i => ?_
  have := daysInMonth_le (i / 12) (i % 12 + 1)
  rw [daysBefore]
  omega

def IsLeapYear (year : Nat) : Prop := year % 4 = 0 ∧ (year % 100 ≠ 0 ∨ year % 400 = 0)

instance (year : Nat) : Decidable (IsLeapYear year) := inferInstanceAs (Decidable (_ ∧ _))

def daysInYear (year : Nat) : Nat := if IsLeapYear year then 366 else 365

theorem daysInYear_le (year : Nat) : 365 ≤ daysInYear year ∧ daysInYear year ≤ 366 := by
  unfold daysInYear
  split_ifs <;> omega

theorem daysBefore_succ (year k k' : Nat) (hk : k < 12) (hnext : k' = k + 1) :
    daysBefore (12 * year + k') = daysBefore (12 * year + k) + daysInMonth year k' := by
  subst hnext
  have hyear : (12 * year + k) / 12 = year := by omega
  have hmonth : (12 * year + k) % 12 = k := by omega
  rw [← Nat.add_assoc, daysBefore, hyear, hmonth]

theorem daysBefore_year (year : Nat) :
    daysBefore (12 * year + 12) = daysBefore (12 * year) + daysInYear year := by
  have hyear : daysInMonth year 1 + daysInMonth year 2 + daysInMonth year 3 +
      daysInMonth year 4 + daysInMonth year 5 + daysInMonth year 6 + daysInMonth year 7 +
      daysInMonth year 8 + daysInMonth year 9 + daysInMonth year 10 + daysInMonth year 11 +
      daysInMonth year 12 = daysInYear year := by
    by_cases hleap : IsLeapYear year
    · rw [daysInYear, if_pos hleap]
      have hfebruary : daysInMonth year 2 = 29 := if_pos hleap
      rw [hfebruary]
      rfl
    · rw [daysInYear, if_neg hleap]
      have hfebruary : daysInMonth year 2 = 28 := if_neg hleap
      rw [hfebruary]
      rfl
  rw [← hyear, daysBefore_succ year 11 12 (by decide) rfl,
    daysBefore_succ year 10 11 (by decide) rfl,
    daysBefore_succ year 9 10 (by decide) rfl, daysBefore_succ year 8 9 (by decide) rfl,
    daysBefore_succ year 7 8 (by decide) rfl, daysBefore_succ year 6 7 (by decide) rfl,
    daysBefore_succ year 5 6 (by decide) rfl, daysBefore_succ year 4 5 (by decide) rfl,
    daysBefore_succ year 3 4 (by decide) rfl, daysBefore_succ year 2 3 (by decide) rfl,
    daysBefore_succ year 1 2 (by decide) rfl, daysBefore_succ year 0 1 (by decide) rfl,
    Nat.add_zero]
  omega

namespace CalendarDate

def ordinal (d : CalendarDate) : Nat := daysBefore d.monthIndex + d.day

variable {d d' : CalendarDate}

theorem daysBefore_next_month (d : CalendarDate) :
    daysBefore (d.monthIndex + 1) = daysBefore d.monthIndex + daysInMonth d.year d.month := by
  obtain ⟨-, hmonth, -⟩ := d.valid
  have hyear : (12 * d.year + (d.month - 1)) / 12 = d.year := by omega
  have hindex : (12 * d.year + (d.month - 1)) % 12 + 1 = d.month := by omega
  rw [monthIndex, daysBefore, hyear, hindex]

theorem daysBefore_lt_ordinal (d : CalendarDate) : daysBefore d.monthIndex < d.ordinal :=
  Nat.lt_add_of_pos_right d.valid.2.2.1

theorem ordinal_le_daysBefore (d : CalendarDate) : d.ordinal ≤ daysBefore (d.monthIndex + 1) := by
  rw [daysBefore_next_month]
  exact Nat.add_le_add_left d.valid.2.2.2 _

/-- The months of two days compare like the days. -/
theorem monthIndex_le_of_ordinal_le (h : d.ordinal ≤ d'.ordinal) :
    d.monthIndex ≤ d'.monthIndex := by
  by_contra hlt
  have hle : daysBefore (d'.monthIndex + 1) ≤ daysBefore d.monthIndex :=
    strictMono_daysBefore.monotone (Nat.lt_of_not_le hlt)
  have hlow := d.daysBefore_lt_ordinal
  have hhigh := d'.ordinal_le_daysBefore
  omega

theorem ordinal_injective (h : d.ordinal = d'.ordinal) : d = d' := by
  have hindex : d.monthIndex = d'.monthIndex :=
    Nat.le_antisymm (monthIndex_le_of_ordinal_le h.le) (monthIndex_le_of_ordinal_le h.ge)
  have hday : d.day = d'.day := by
    unfold ordinal at h
    rw [hindex] at h
    exact Nat.add_left_cancel h
  obtain ⟨-, hmonth, -⟩ := d.valid
  obtain ⟨-, hmonth', -⟩ := d'.valid
  obtain ⟨year, month, day, hvalid⟩ := d
  obtain ⟨year', month', day', hvalid'⟩ := d'
  simp only [monthIndex] at hindex
  dsimp only at hday hmonth hmonth'
  obtain rfl : year = year' := by omega
  obtain rfl : month = month' := by omega
  subst hday
  rfl

/-! ## Steps -/

theorem ordinal_next (h : d.next = some d') : d'.ordinal = d.ordinal + 1 := by
  obtain ⟨-, hmonth, -, hday⟩ := d.valid
  have hfull := d.daysBefore_next_month
  unfold next at h
  split_ifs at h with hinner hearly hyear
  · obtain rfl := Option.some.inj h
    exact (Nat.add_assoc _ _ _).symm
  · obtain rfl := Option.some.inj h
    have hindex : 12 * d.year + (d.month + 1 - 1) = d.monthIndex + 1 := by
      unfold monthIndex
      omega
    simp only [ordinal, monthIndex] at hfull ⊢ hindex
    rw [hindex, hfull]
    omega
  · obtain rfl := Option.some.inj h
    have hindex : 12 * (d.year + 1) + (1 - 1) = d.monthIndex + 1 := by
      unfold monthIndex
      omega
    simp only [ordinal, monthIndex] at hfull ⊢ hindex
    rw [hindex, hfull]
    omega

theorem ordinal_previous (h : d.previous = some d') : d'.ordinal + 1 = d.ordinal := by
  obtain ⟨-, hmonth, hday, -⟩ := d.valid
  have hfull := d'.daysBefore_next_month
  unfold previous at h
  split_ifs at h with hinner hlate hyear
  · obtain rfl := Option.some.inj h
    simp only [ordinal, monthIndex]
    omega
  · obtain rfl := Option.some.inj h
    have hindex : 12 * d.year + (d.month - 1 - 1) + 1 = d.monthIndex := by
      unfold monthIndex
      omega
    simp only [ordinal, monthIndex] at hfull ⊢ hindex
    rw [← hindex, hfull]
    omega
  · obtain rfl := Option.some.inj h
    have hindex : 12 * (d.year - 1) + (12 - 1) + 1 = d.monthIndex := by
      unfold monthIndex
      omega
    simp only [ordinal, monthIndex, daysInMonth_december] at hfull ⊢ hindex
    rw [← hindex, hfull]
    omega

/-- Only the last day has no next one. -/
theorem ordinal_le_of_next_eq_none (h : d.next = none) (d' : CalendarDate) :
    d'.ordinal ≤ d.ordinal := by
  obtain ⟨hyear, hmonth, -, hday⟩ := d.valid
  obtain ⟨hyear', hmonth', -⟩ := d'.valid
  have hfull := d.daysBefore_next_month
  unfold next at h
  split_ifs at h with hinner hearly hlast
  have hindex : d'.monthIndex + 1 ≤ d.monthIndex + 1 := by
    unfold monthIndex
    omega
  have hle := d'.ordinal_le_daysBefore.trans (strictMono_daysBefore.monotone hindex)
  unfold ordinal at *
  omega

theorem ordinal_le_of_previous_eq_none (h : d.previous = none) (d' : CalendarDate) :
    d.ordinal ≤ d'.ordinal := by
  obtain ⟨hyear, hmonth, hday, -⟩ := d.valid
  obtain ⟨hyear', hmonth', hday', -⟩ := d'.valid
  unfold previous at h
  split_ifs at h with hinner hlate hfirst
  have hindex : d.monthIndex ≤ d'.monthIndex := by
    unfold monthIndex
    omega
  have hle := strictMono_daysBefore.monotone hindex
  unfold ordinal
  omega

theorem stepDays_next_iff {n : Nat} :
    stepDays next n d = some d' ↔ d'.ordinal = d.ordinal + n := by
  induction n generalizing d with
  | zero =>
      rw [stepDays, Option.some_inj, Nat.add_zero]
      exact ⟨fun h => h ▸ rfl, fun h => (ordinal_injective h).symm⟩
  | succ n ih =>
      rw [stepDays]
      cases hnext : d.next with
      | none =>
          have hle := ordinal_le_of_next_eq_none hnext d'
          refine iff_of_false nofun ?_
          omega
      | some middle =>
          rw [Option.bind_some, ih, ordinal_next hnext]
          omega

theorem stepDays_previous_iff {n : Nat} :
    stepDays previous n d = some d' ↔ d'.ordinal + n = d.ordinal := by
  induction n generalizing d with
  | zero =>
      rw [stepDays, Option.some_inj, Nat.add_zero]
      exact ⟨fun h => h ▸ rfl, fun h => (ordinal_injective h).symm⟩
  | succ n ih =>
      rw [stepDays]
      cases hprevious : d.previous with
      | none =>
          have hle := ordinal_le_of_previous_eq_none hprevious d'
          refine iff_of_false nofun ?_
          omega
      | some middle =>
          rw [Option.bind_some, ih]
          have hstep := ordinal_previous hprevious
          omega

/-- Adding days adds to the ordinal. -/
theorem addDays_iff {n : Int} :
    d.addDays n = some d' ↔ (d'.ordinal : Int) = d.ordinal + n := by
  cases n with
  | ofNat n =>
      rw [addDays, stepDays_next_iff, Int.ofNat_eq_natCast]
      omega
  | negSucc n =>
      rw [addDays, stepDays_previous_iff, Int.negSucc_eq]
      omega

/-- There is a day as far as one that exists. -/
theorem stepDays_next_isSome {n : Nat} (h : d.ordinal + n ≤ d'.ordinal) :
    (stepDays next n d).isSome := by
  induction n generalizing d with
  | zero => rfl
  | succ n ih =>
      rw [stepDays]
      cases hnext : d.next with
      | none =>
          have hle := ordinal_le_of_next_eq_none hnext d'
          omega
      | some middle =>
          rw [Option.bind_some]
          refine ih ?_
          rw [ordinal_next hnext]
          omega

theorem stepDays_previous_isSome {n : Nat} (h : d'.ordinal + n ≤ d.ordinal) :
    (stepDays previous n d).isSome := by
  induction n generalizing d with
  | zero => rfl
  | succ n ih =>
      rw [stepDays]
      cases hprevious : d.previous with
      | none =>
          have hle := ordinal_le_of_previous_eq_none hprevious d'
          omega
      | some middle =>
          rw [Option.bind_some]
          refine ih ?_
          have hstep := ordinal_previous hprevious
          omega

/-! ## Years -/

/-- The ordinal tells the year. -/
theorem daysBefore_lt_ordinal_iff (year : Nat) :
    daysBefore (12 * year) < d.ordinal ↔ year ≤ d.year := by
  obtain ⟨-, hmonth, -⟩ := d.valid
  constructor
  · intro h
    by_contra hlt
    have hindex : d.monthIndex + 1 ≤ 12 * year := by
      unfold monthIndex
      omega
    have hle := d.ordinal_le_daysBefore.trans (strictMono_daysBefore.monotone hindex)
    omega
  · intro h
    have hindex : 12 * year ≤ d.monthIndex := by
      unfold monthIndex
      omega
    exact (strictMono_daysBefore.monotone hindex).trans_lt d.daysBefore_lt_ordinal

/-- The first of January. -/
theorem ordinal_eq_first_iff :
    d.ordinal = daysBefore (12 * d.year) + 1 ↔ d.month = 1 ∧ d.day = 1 := by
  obtain ⟨-, hmonth, hday, -⟩ := d.valid
  have hlow := strictMono_daysBefore.monotone (Nat.le_add_right (12 * d.year) (d.month - 1))
  constructor
  · intro h
    unfold ordinal monthIndex at h
    have hsame : daysBefore (12 * d.year) = daysBefore (12 * d.year + (d.month - 1)) := by omega
    have hindex := strictMono_daysBefore.injective hsame
    omega
  · rintro ⟨hfirst, hday⟩
    simp [ordinal, monthIndex, hfirst, hday]

/-- The last of December. -/
theorem ordinal_eq_last_iff :
    d.ordinal = daysBefore (12 * d.year + 12) ↔ d.month = 12 ∧ d.day = 31 := by
  obtain ⟨-, hmonth, -, hday⟩ := d.valid
  have hfull := d.daysBefore_next_month
  have hle := d.ordinal_le_daysBefore
  constructor
  · intro h
    have hindex : 12 * d.year + 12 ≤ d.monthIndex + 1 :=
      strictMono_daysBefore.le_iff_le.mp (h ▸ hle)
    have hlast : d.month = 12 := by
      unfold monthIndex at hindex
      omega
    have hsame : d.monthIndex + 1 = 12 * d.year + 12 := by
      unfold monthIndex
      omega
    rw [hsame, hlast, daysInMonth_december] at hfull
    unfold ordinal at h
    omega
  · rintro ⟨hlast, hday⟩
    have hsame : 12 * d.year + 12 = d.monthIndex + 1 := by
      unfold monthIndex
      omega
    rw [hsame, hfull, hlast, daysInMonth_december, ordinal, hday]

/-! ## The months around a day -/

/-- The month of the second day follows that of the first. -/
def IsNextMonth (d d' : CalendarDate) : Prop :=
  d'.year = d.year ∧ d'.month = d.month + 1 ∨
    d'.year = d.year + 1 ∧ d.month = 12 ∧ d'.month = 1

theorem isNextMonth_iff : IsNextMonth d d' ↔ d'.monthIndex = d.monthIndex + 1 := by
  obtain ⟨-, hmonth, -⟩ := d.valid
  obtain ⟨-, hmonth', -⟩ := d'.valid
  unfold IsNextMonth monthIndex
  omega

def daysInNextMonth (d : CalendarDate) : Nat :=
  if d.month = 12 then 31 else daysInMonth d.year (d.month + 1)

def daysInPreviousMonth (d : CalendarDate) : Nat :=
  if d.month = 1 then 31 else daysInMonth d.year (d.month - 1)

theorem daysInMonth_of_next (h : IsNextMonth d d') :
    daysInMonth d'.year d'.month = d.daysInNextMonth ∧
      daysInMonth d.year d.month = d'.daysInPreviousMonth := by
  obtain ⟨-, hmonth, -⟩ := d.valid
  obtain ⟨-, hmonth', -⟩ := d'.valid
  unfold daysInNextMonth daysInPreviousMonth
  rcases h with ⟨hyear, hnext⟩ | ⟨hyear, hlast, hfirst⟩
  · rw [if_neg (by omega), if_neg (by omega), hyear, hnext, Nat.add_sub_cancel]
    exact ⟨rfl, rfl⟩
  · rw [if_pos hlast, if_pos hfirst, hlast, hfirst]
    exact ⟨rfl, daysInMonth_december _⟩

/-- How far forwards the next month lies. -/
theorem addDays_next_month_iff (n : Nat) :
    (∃ d', d.addDays n = some d' ∧ IsNextMonth d d') ↔
      (d.month = 12 → d.year < 9999) ∧ daysInMonth d.year d.month < d.day + n ∧
        d.day + n ≤ daysInMonth d.year d.month + d.daysInNextMonth := by
  have hfull := d.daysBefore_next_month
  constructor
  · rintro ⟨d', hadd, hnext⟩
    obtain ⟨hyear', hmonth', hday'⟩ := d'.valid
    have hordinal := addDays_iff.mp hadd
    rw [(daysInMonth_of_next hnext).1] at hday'
    unfold ordinal at hordinal
    rw [isNextMonth_iff.mp hnext, hfull] at hordinal
    refine ⟨fun hlast => ?_, by omega, by omega⟩
    unfold IsNextMonth at hnext
    omega
  · rintro ⟨hyear, hlow, hhigh⟩
    obtain ⟨hyears, hmonth, -⟩ := d.valid
    have hexists : ∃ d', IsNextMonth d d' ∧
        d'.day = d.day + n - daysInMonth d.year d.month := by
      unfold daysInNextMonth at hhigh
      by_cases hlast : d.month = 12
      · rw [if_pos hlast] at hhigh
        refine ⟨⟨d.year + 1, 1, d.day + n - daysInMonth d.year d.month, by omega, by omega,
          by omega, ?_⟩, .inr ⟨rfl, hlast, rfl⟩, rfl⟩
        have hjanuary : daysInMonth (d.year + 1) 1 = 31 := rfl
        omega
      · rw [if_neg hlast] at hhigh
        exact ⟨⟨d.year, d.month + 1, d.day + n - daysInMonth d.year d.month, hyears, by omega,
          by omega, by omega⟩, .inl ⟨rfl, rfl⟩, rfl⟩
    obtain ⟨d', hnext, hday⟩ := hexists
    refine ⟨d', addDays_iff.mpr ?_, hnext⟩
    unfold ordinal
    rw [isNextMonth_iff.mp hnext, hfull, hday]
    omega

/-- How far back the previous month lies. -/
theorem addDays_previous_month_iff (n : Nat) :
    (∃ d', d.addDays (-n) = some d' ∧ IsNextMonth d' d) ↔
      (d.month = 1 → 1 < d.year) ∧ d.day ≤ n ∧ n < d.day + d.daysInPreviousMonth := by
  obtain ⟨hyears, hmonth, hday, -⟩ := d.valid
  constructor
  · rintro ⟨d', hadd, hnext⟩
    obtain ⟨hyear', hmonth', hday'⟩ := d'.valid
    have hfull := d'.daysBefore_next_month
    have hordinal := addDays_iff.mp hadd
    rw [(daysInMonth_of_next hnext).2] at hday' hfull
    unfold ordinal at hordinal
    rw [isNextMonth_iff.mp hnext, hfull] at hordinal
    refine ⟨fun hfirst => ?_, by omega, by omega⟩
    unfold IsNextMonth at hnext
    omega
  · rintro ⟨hyear, hlow, hhigh⟩
    have hexists : ∃ d', IsNextMonth d' d ∧ d'.day + n = d.day + d.daysInPreviousMonth := by
      unfold daysInPreviousMonth at hhigh ⊢
      by_cases hfirst : d.month = 1
      · rw [if_pos hfirst] at hhigh ⊢
        have hdecember := daysInMonth_december (d.year - 1)
        refine ⟨⟨d.year - 1, 12, d.day + 31 - n, by omega, by omega, by omega, by omega⟩,
          .inr ⟨?_, rfl, hfirst⟩, ?_⟩
        · dsimp only
          omega
        · dsimp only
          omega
      · rw [if_neg hfirst] at hhigh ⊢
        refine ⟨⟨d.year, d.month - 1, d.day + daysInMonth d.year (d.month - 1) - n, hyears,
          by omega, by omega, by omega⟩, .inl ⟨rfl, ?_⟩, ?_⟩
        · dsimp only
          omega
        · dsimp only
          omega
    obtain ⟨d', hnext, hday⟩ := hexists
    have hfull := d'.daysBefore_next_month
    refine ⟨d', addDays_iff.mpr ?_, hnext⟩
    rw [(daysInMonth_of_next hnext).2] at hfull
    unfold ordinal
    rw [isNextMonth_iff.mp hnext, hfull]
    omega

/-! ## The years around a day -/

theorem year_eq_iff (year : Nat) :
    d.year = year ↔
      daysBefore (12 * year) < d.ordinal ∧ d.ordinal ≤ daysBefore (12 * year + 12) := by
  rw [← Nat.mul_add_one, ← Nat.not_lt, daysBefore_lt_ordinal_iff, daysBefore_lt_ordinal_iff]
  omega

/-- In 365 days the year changes by one, but for the first day of a leap year. -/
theorem addDays_next_year_iff :
    (∃ d', d.addDays 365 = some d' ∧ d'.year = d.year + 1) ↔
      d.year < 9999 ∧ ¬ (IsLeapYear d.year ∧ d.month = 1 ∧ d.day = 1) := by
  obtain ⟨hlow, hhigh⟩ := (year_eq_iff d.year).mp rfl
  have hlength := daysBefore_year d.year
  have hlength' := daysBefore_year (d.year + 1)
  have hdays := daysInYear_le d.year
  have hnext := daysInYear_le (d.year + 1)
  rw [← ordinal_eq_first_iff]
  rw [Nat.mul_add_one] at hlength'
  constructor
  · rintro ⟨d', hadd, hyear⟩
    have hordinal := addDays_iff.mp hadd
    have hlow' := ((year_eq_iff _).mp hyear).1
    obtain ⟨⟨-, hlast⟩, -⟩ := d'.valid
    refine ⟨by omega, fun ⟨hleap, hfirst⟩ => ?_⟩
    rw [daysInYear, if_pos hleap] at hlength
    rw [Nat.mul_add_one] at hlow'
    omega
  · rintro ⟨hlast, hnot⟩
    let last : CalendarDate := ⟨d.year + 1, 12, 31, by omega, by omega, by omega,
      (daysInMonth_december _).ge⟩
    have hordinal : last.ordinal = daysBefore (12 * d.year + 12 + 12) :=
      ordinal_eq_last_iff.mpr ⟨rfl, rfl⟩
    obtain ⟨d', hadd⟩ := Option.isSome_iff_exists.mp
      (stepDays_next_isSome (show d.ordinal + 365 ≤ last.ordinal by omega))
    refine ⟨d', hadd, (year_eq_iff _).mpr ?_⟩
    have hsum := stepDays_next_iff.mp hadd
    have hlate : daysInYear d.year < d.ordinal - daysBefore (12 * d.year) + 365 := by
      by_cases hleap : IsLeapYear d.year
      · have hfirst : d.ordinal ≠ daysBefore (12 * d.year) + 1 := fun h => hnot ⟨hleap, h⟩
        omega
      · rw [daysInYear, if_neg hleap]
        omega
    rw [Nat.mul_add_one]
    omega

/-- In 365 days back the year changes by one, but for the last day of a leap year. -/
theorem addDays_previous_year_iff :
    (∃ d', d.addDays (-365) = some d' ∧ d'.year + 1 = d.year) ↔
      1 < d.year ∧ ¬ (IsLeapYear d.year ∧ d.month = 12 ∧ d.day = 31) := by
  obtain ⟨hlow, hhigh⟩ := (year_eq_iff d.year).mp rfl
  have hlength := daysBefore_year d.year
  have hdays := daysInYear_le d.year
  rw [← ordinal_eq_last_iff]
  constructor
  · rintro ⟨d', hadd, hyear⟩
    have hordinal := addDays_iff.mp hadd
    have hhigh' := ((year_eq_iff d'.year).mp rfl).2
    rw [← Nat.mul_add_one, hyear] at hhigh'
    obtain ⟨⟨hfirst, -⟩, -⟩ := d'.valid
    refine ⟨by omega, fun ⟨hleap, hlast⟩ => ?_⟩
    rw [daysInYear, if_pos hleap] at hlength
    omega
  · rintro ⟨hfirst, hnot⟩
    obtain ⟨year, hyear⟩ : ∃ year, d.year = year + 1 := ⟨d.year - 1, by omega⟩
    have hlength' := daysBefore_year year
    have hdays' := daysInYear_le year
    have hlast := d.valid.1.2
    let first : CalendarDate := ⟨year, 1, 1, by omega, by omega, by omega,
      (daysInMonth_le year 1).1.trans' (by omega)⟩
    have hordinal : first.ordinal = daysBefore (12 * year) + 1 :=
      ordinal_eq_first_iff.mpr ⟨rfl, rfl⟩
    have hstart : daysBefore (12 * d.year) = daysBefore (12 * year + 12) :=
      congrArg daysBefore (by omega)
    obtain ⟨d', hadd⟩ := Option.isSome_iff_exists.mp
      (stepDays_previous_isSome (show first.ordinal + 365 ≤ d.ordinal by omega))
    have hsum := stepDays_previous_iff.mp hadd
    refine ⟨d', hadd, ?_⟩
    rw [hyear, Nat.add_right_cancel_iff]
    refine (year_eq_iff year).mpr ?_
    have hearly : d.ordinal - daysBefore (12 * year + 12) ≤ 365 := by
      by_cases hleap : IsLeapYear d.year
      · have hend : d.ordinal ≠ daysBefore (12 * d.year + 12) := fun h => hnot ⟨hleap, h⟩
        omega
      · rw [daysInYear, if_neg hleap] at hlength
        omega
    omega

end CalendarDate

end VirtualContext.Library
