import Mathlib.Algebra.Group.Nat.Defs
import Mathlib.Data.Nat.Basic
import Mathlib.Data.List.Basic

/-!
# Dates and times as text

A date and time is written with fields of fixed width, and read back field by
field.  The fraction of a second and the offset from UTC are written only if
they are there, and so are the last two parts of an offset.
-/

namespace VirtualContext.Library

/-! ## Fields of fixed width -/

def digitChar (n : Nat) : Char := Char.ofNat (48 + n % 10)

/-- The last digits of a number. -/
def digits : (width n : Nat) → List Char
  | 0, _ => []
  | width + 1, n => digits width (n / 10) ++ [digitChar n]

def readDigits : (width : Nat) → List Char → Option (Nat × List Char)
  | 0, text => some (0, text)
  | width + 1, text =>
      match readDigits width text with
      | some (n, c :: rest) =>
          if c.isDigit then some (n * 10 + (c.toNat - 48), rest) else none
      | _ => none

/-- The rest of a text that starts with the character. -/
def expect (c : Char) : List Char → Option (List Char)
  | [] => none
  | first :: rest => if first = c then some rest else none

@[simp] theorem expect_cons (c : Char) (rest : List Char) :
    expect c (c :: rest) = some rest := if_pos rfl

theorem digitChar_spec (n : Nat) :
    (digitChar n).isDigit = true ∧ (digitChar n).toNat - 48 = n % 10 := by
  have h : ∀ d < 10, (Char.ofNat (48 + d)).isDigit = true ∧
      (Char.ofNat (48 + d)).toNat - 48 = d := by
    decide
  exact h (n % 10) (Nat.mod_lt n (by decide))

theorem readDigits_digits (width n : Nat) (rest : List Char) :
    readDigits width (digits width n ++ rest) = some (n % 10 ^ width, rest) := by
  induction width generalizing n rest with
  | zero => simp [digits, readDigits, Nat.mod_one]
  | succ width ih =>
      obtain ⟨hdigit, hvalue⟩ := digitChar_spec n
      have hmod : n / 10 % 10 ^ width * 10 + n % 10 = n % 10 ^ (width + 1) := by
        rw [Nat.pow_succ', Nat.mod_mul]
        omega
      rw [digits, List.append_assoc, readDigits, ih]
      simp [hdigit, hvalue, hmod]

/-- A field that fits its width is read back. -/
theorem readDigits_of_lt {width n : Nat} (h : n < 10 ^ width)
    (rest : List Char) :
    readDigits width (digits width n ++ rest) = some (n, rest) := by
  rw [readDigits_digits, Nat.mod_eq_of_lt h]

/-! ## Offsets and datetimes -/

/-- `±HH:MM[:SS[.ffffff]]` -/
structure UtcOffset where
  negative : Bool := false
  hour : Nat := 0
  minute : Nat := 0
  second : Nat := 0
  microsecond : Nat := 0
  deriving DecidableEq, Repr

structure DatetimeFields where
  year : Nat
  month : Nat
  day : Nat
  hour : Nat := 0
  minute : Nat := 0
  second : Nat := 0
  microsecond : Nat := 0
  offset : Option UtcOffset := none
  deriving DecidableEq, Repr

def daysInMonth (year month : Nat) : Nat :=
  if month = 2 then
    if year % 4 = 0 ∧ (year % 100 ≠ 0 ∨ year % 400 = 0) then 29 else 28
  else if month ∈ [4, 6, 9, 11] then 30
  else 31

def validTime (hour minute second microsecond : Nat) : Bool :=
  hour < 24 && minute < 60 && second < 60 && microsecond < 1000000

def DatetimeFields.valid (d : DatetimeFields) : Bool :=
  1 ≤ d.year && d.year ≤ 9999 && 1 ≤ d.month && d.month ≤ 12 &&
    1 ≤ d.day && d.day ≤ daysInMonth d.year d.month &&
    validTime d.hour d.minute d.second d.microsecond &&
    d.offset.all fun offset =>
      validTime offset.hour offset.minute offset.second offset.microsecond

abbrev Datetime := { d : DatetimeFields // d.valid = true }

/-- `.ffffff`, if it is not zero. -/
def fraction (microsecond : Nat) : List Char :=
  if microsecond = 0 then [] else '.' :: digits 6 microsecond

def readFraction : List Char → Option (Nat × List Char)
  | '.' :: rest => readDigits 6 rest
  | text => some (0, text)

def UtcOffset.chars (offset : UtcOffset) : List Char :=
  (if offset.negative then '-' else '+') ::
    (digits 2 offset.hour ++ ':' :: (digits 2 offset.minute ++
      if offset.second = 0 ∧ offset.microsecond = 0 then []
      else ':' :: (digits 2 offset.second ++ fraction offset.microsecond)))

def readOffset : List Char → Option (Option UtcOffset)
  | [] => some none
  | sign :: rest => do
      if sign ≠ '-' ∧ sign ≠ '+' then none
      else do
        let (hour, rest) ← readDigits 2 rest
        let rest ← expect ':' rest
        let (minute, rest) ← readDigits 2 rest
        if rest.isEmpty then some (some ⟨sign = '-', hour, minute, 0, 0⟩)
        else do
          let rest ← expect ':' rest
          let (second, rest) ← readDigits 2 rest
          let (microsecond, rest) ← readFraction rest
          if rest.isEmpty then
            some (some ⟨sign = '-', hour, minute, second, microsecond⟩)
          else none

def DatetimeFields.chars (d : DatetimeFields) : List Char :=
  digits 4 d.year ++ '-' :: (digits 2 d.month ++ '-' :: (digits 2 d.day ++
    'T' :: (digits 2 d.hour ++ ':' :: (digits 2 d.minute ++
      ':' :: (digits 2 d.second ++ (fraction d.microsecond ++
        match d.offset with
        | none => []
        | some offset => offset.chars))))))

def readDatetime (text : List Char) : Option DatetimeFields := do
  let (year, text) ← readDigits 4 text
  let text ← expect '-' text
  let (month, text) ← readDigits 2 text
  let text ← expect '-' text
  let (day, text) ← readDigits 2 text
  let text ← expect 'T' text
  let (hour, text) ← readDigits 2 text
  let text ← expect ':' text
  let (minute, text) ← readDigits 2 text
  let text ← expect ':' text
  let (second, text) ← readDigits 2 text
  let (microsecond, text) ← readFraction text
  let offset ← readOffset text
  some ⟨year, month, day, hour, minute, second, microsecond, offset⟩

/-- `datetime.isoformat` -/
def isoformat (d : Datetime) : String := String.ofList d.1.chars

/-- `datetime.fromisoformat`, for the texts that `isoformat` writes. -/
def fromisoformat (text : String) : Option Datetime :=
  match readDatetime text.toList with
  | none => none
  | some d => if h : d.valid = true then some ⟨d, h⟩ else none

/-! ## Reading back what was written -/

theorem readFraction_fraction {microsecond : Nat} (h : microsecond < 1000000)
    {rest : List Char} (hrest : rest.head? ≠ some '.') :
    readFraction (fraction microsecond ++ rest) = some (microsecond, rest) := by
  unfold fraction
  split_ifs with hzero
  · subst hzero
    cases rest with
    | nil => rfl
    | cons c rest =>
        have hc : c ≠ '.' := by simpa using hrest
        rw [List.nil_append]
        unfold readFraction
        split
        · rename_i heq
          exact absurd (List.cons.inj heq).1 hc
        · rfl
  · exact readDigits_of_lt h rest

theorem validTime_iff {hour minute second microsecond : Nat} :
    validTime hour minute second microsecond = true ↔
      hour < 24 ∧ minute < 60 ∧ second < 60 ∧ microsecond < 1000000 := by
  simp [validTime, and_assoc]

theorem readOffset_chars {offset : UtcOffset}
    (h : validTime offset.hour offset.minute offset.second
      offset.microsecond = true) :
    readOffset offset.chars = some (some offset) := by
  obtain ⟨hhour, hminute, hsecond, hmicrosecond⟩ := validTime_iff.mp h
  have hfraction : readFraction (fraction offset.microsecond) =
      some (offset.microsecond, []) := by
    have hnil : ([] : List Char).head? ≠ some '.' := by simp
    simpa using readFraction_fraction hmicrosecond hnil
  have hhour' : offset.hour < 10 ^ 2 := by omega
  have hminute' : offset.minute < 10 ^ 2 := by omega
  have hsecond' : offset.second < 10 ^ 2 := by omega
  have hlast : readDigits 2 (digits 2 offset.minute) =
      some (offset.minute, []) := by
    simpa using readDigits_of_lt hminute' []
  obtain ⟨negative, hour, minute, second, microsecond⟩ := offset
  unfold UtcOffset.chars readOffset
  dsimp only at *
  by_cases hzero : second = 0 ∧ microsecond = 0
  · obtain ⟨rfl, rfl⟩ := hzero
    cases negative <;> simp [readDigits_of_lt hhour', hlast]
  · cases negative <;>
      simp [hzero, readDigits_of_lt hhour', readDigits_of_lt hminute',
        readDigits_of_lt hsecond', hfraction]

theorem offset_head (offset : Option UtcOffset) :
    (match offset with
      | none => []
      | some offset => offset.chars).head? ≠ some '.' := by
  cases offset with
  | none => simp
  | some offset => cases h : offset.negative <;> simp [UtcOffset.chars, h]

theorem readDatetime_chars {d : DatetimeFields} (h : d.valid = true) :
    readDatetime d.chars = some d := by
  simp only [DatetimeFields.valid, Bool.and_eq_true, decide_eq_true_eq,
    validTime_iff] at h
  obtain ⟨⟨⟨⟨⟨⟨⟨-, hyear⟩, -⟩, hmonth⟩, -⟩, hday⟩, hhour, hminute, hsecond,
    hmicrosecond⟩, hoffset⟩ := h
  have hdays : d.day ≤ 31 := by
    refine Nat.le_trans hday ?_
    unfold daysInMonth
    split_ifs <;> omega
  have hread := readFraction_fraction hmicrosecond (offset_head d.offset)
  have hyear' : d.year < 10 ^ 4 := by omega
  have hmonth' : d.month < 10 ^ 2 := by omega
  have hday' : d.day < 10 ^ 2 := by omega
  have hhour' : d.hour < 10 ^ 2 := by omega
  have hminute' : d.minute < 10 ^ 2 := by omega
  have hsecond' : d.second < 10 ^ 2 := by omega
  have hlast : readOffset (match d.offset with
      | none => []
      | some offset => offset.chars) = some d.offset := by
    cases hd : d.offset with
    | none => rfl
    | some offset =>
        rw [hd] at hoffset
        exact readOffset_chars hoffset
  simp [DatetimeFields.chars, readDatetime, readDigits_of_lt hyear',
    readDigits_of_lt hmonth', readDigits_of_lt hday', readDigits_of_lt hhour',
    readDigits_of_lt hminute', readDigits_of_lt hsecond', hread, hlast]

/-- What `isoformat` writes is read back. -/
@[simp] theorem fromisoformat_isoformat (d : Datetime) :
    fromisoformat (isoformat d) = some d := by
  rw [fromisoformat, isoformat, String.toList_ofList, readDatetime_chars d.2]
  exact dif_pos d.2

end VirtualContext.Library
