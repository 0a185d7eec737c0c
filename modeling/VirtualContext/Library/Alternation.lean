import Mathlib.Data.List.Chain

/-!
# Alternating roles

A list is walked once so that no two neighbours have the same role: a later
item of a run gives way to the first, unless items are critical, and these
replace what is not.  Which items stand is a matter of their run alone.
-/

namespace VirtualContext.Library

variable {α β : Type} [DecidableEq β] (role : α → Option β) (critical : α → Bool)

/-- One turn of the walk; the items that were taken so far are in reverse. -/
def alternateStep (taken : List α) (item : α) : List α :=
  match taken with
  | [] => [item]
  | last :: rest =>
      if role item = none then item :: last :: rest
      else if role item = role last then
        if critical item then
          if critical last then item :: last :: rest else item :: rest
        else last :: rest
      else item :: last :: rest

def alternate (items : List α) : List α :=
  (items.foldl (alternateStep role critical) []).reverse

/-- An item stays if no critical one of its run follows it. -/
def keepsRun (item : α) (after : List α) : Bool :=
  role item = none || critical item ||
    !(after.takeWhile fun other => role other = role item).any critical

/-- An item stands by its role, by being critical, or as the first of a run. -/
def stands (previous : Option α) (item : α) (after : List α) : Bool :=
  role item = none || critical item ||
    previous.all (role · ≠ role item) && keepsRun role critical item after

def standing : Option α → List α → List α
  | _, [] => []
  | previous, item :: after =>
      if stands role critical previous item after then
        item :: standing (some item) after
      else standing (some item) after

variable {role critical} {item previous : α}

theorem standing_congr {other : α} (h : role previous = role other) (items : List α) :
    standing role critical (some previous) items =
      standing role critical (some other) items := by
  cases items with
  | nil => rfl
  | cons item after => simp [standing, stands, h]

theorem foldl_alternateStep (items : List α) (last : α) (rest : List α) :
    (items.foldl (alternateStep role critical) (last :: rest)).reverse =
      rest.reverse ++ (if keepsRun role critical last items then [last] else []) ++
        standing role critical (some last) items := by
  induction items generalizing last rest with
  | nil => simp [keepsRun, standing]
  | cons item after ih =>
      rw [List.foldl_cons, alternateStep]
      by_cases hnone : role item = none
      · have hkeeps : keepsRun role critical last (item :: after) = true := by
          by_cases hlast : role last = none
          · simp [keepsRun, hlast]
          · simp [keepsRun, hnone, Ne.symm hlast]
        rw [if_pos hnone, ih, hkeeps]
        simp [standing, stands, keepsRun, hnone]
      · rw [if_neg hnone]
        by_cases hsame : role item = role last
        · have hlast : role last ≠ none := hsame ▸ hnone
          rw [if_pos hsame]
          by_cases hcritical : critical item = true
          · by_cases hlastCritical : critical last = true
            · rw [if_pos hcritical, if_pos hlastCritical, ih]
              simp [standing, stands, keepsRun, hcritical, hlastCritical]
            · rw [if_pos hcritical, if_neg hlastCritical, ih]
              simp [standing, stands, keepsRun, hcritical, hlastCritical, hsame, hlast]
          · rw [if_neg hcritical, ih, standing_congr hsame.symm]
            simp [standing, stands, keepsRun, hcritical, hsame, hlast]
        · have hkeeps : keepsRun role critical last (item :: after) = true := by
            simp [keepsRun, hsame]
          have hdiff : role last ≠ role item := Ne.symm hsame
          rw [if_neg hsame, ih]
          simp only [hkeeps, if_true, standing, stands, Option.all_some, hdiff, ne_eq,
            not_false_eq_true, decide_true, Bool.true_and]
          by_cases hstay : keepsRun role critical item after = true
          · simp [hstay]
          · have hcases : (decide (role item = none) || critical item) = false := by
              simp only [keepsRun, Bool.or_eq_true, not_or] at hstay
              simp [hnone, hstay.1.2]
            simp [hstay, hcases]

/-- What the walk returns: the items that stand. -/
theorem alternate_eq_standing (items : List α) :
    alternate role critical items = standing role critical none items := by
  cases items with
  | nil => rfl
  | cons item after =>
      rw [alternate, List.foldl_cons]
      change (after.foldl (alternateStep role critical) [item]).reverse = _
      rw [foldl_alternateStep]
      by_cases hstay : keepsRun role critical item after = true
      · simp [standing, stands, hstay]
      · have hcases : (decide (role item = none) || critical item) = false := by
          simp only [keepsRun, Bool.or_eq_true, not_or] at hstay
          simpa using hstay.1
        simp [standing, stands, hstay, hcases]

theorem standing_sublist (first : Option α) (items : List α) :
    (standing role critical first items).Sublist items := by
  induction items generalizing first with
  | nil => exact List.Sublist.refl _
  | cons item after ih =>
      rw [standing]
      split_ifs
      · exact (ih _).cons_cons item
      · exact (ih _).cons item

theorem alternate_sublist (items : List α) :
    (alternate role critical items).Sublist items := by
  rw [alternate_eq_standing]
  exact standing_sublist none items

theorem getLast?_cons_or (item : α) (items : List α) (first : Option α) :
    ((item :: items).getLast?.or first) = items.getLast?.or (some item) := by
  cases items with
  | nil => rfl
  | cons second items =>
      have hsome := List.getLast?_eq_some_getLast (List.cons_ne_nil second items)
      rw [List.getLast?_cons_cons, hsome]
      rfl

/-- An item that occurs once is returned if it stands between its neighbours. -/
theorem mem_standing_iff {before after : List α} {first : Option α}
    (hnodup : (before ++ item :: after).Nodup) :
    item ∈ standing role critical first (before ++ item :: after) ↔
      stands role critical (before.getLast?.or first) item after = true := by
  induction before generalizing first with
  | nil =>
      have hafter : item ∉ standing role critical (some item) after := fun hmem =>
        (List.nodup_cons.mp hnodup).1 ((standing_sublist _ _).subset hmem)
      simp only [List.nil_append, standing, List.getLast?_nil, Option.none_or]
      split_ifs with h
      · simp [h]
      · simp [h, hafter]
  | cons other before ih =>
      obtain ⟨hother, hrest⟩ := List.nodup_cons.mp hnodup
      have hne : item ≠ other := by
        rintro rfl
        exact hother (by simp)
      rw [getLast?_cons_or, ← ih hrest, List.cons_append, standing]
      split_ifs
      · simp [hne]
      · rfl

theorem mem_alternate_iff {before after : List α}
    (hnodup : (before ++ item :: after).Nodup) :
    item ∈ alternate role critical (before ++ item :: after) ↔
      stands role critical before.getLast? item after = true := by
  rw [alternate_eq_standing, mem_standing_iff hnodup, Option.or_none]

/-- Critical items stand. -/
theorem mem_alternate_of_critical {items : List α} (hnodup : items.Nodup)
    (hmem : item ∈ items) (hcritical : critical item = true) :
    item ∈ alternate role critical items := by
  obtain ⟨before, after, rfl⟩ := List.append_of_mem hmem
  rw [mem_alternate_iff hnodup]
  simp [stands, hcritical]

/-! ## Neighbours -/

/-- Items that may stand next to each other. -/
def MayFollow (role : α → Option β) (critical : α → Bool) (a b : α) : Prop :=
  role a = role b → role a ≠ none → critical a = true ∧ critical b = true

theorem MayFollow.symm {a b : α} (h : MayFollow role critical a b) :
    MayFollow role critical b a := fun hsame hrole =>
  (h hsame.symm (hsame ▸ hrole)).symm

theorem alternateStep_isChain {taken : List α}
    (h : taken.IsChain (MayFollow role critical)) (item : α) :
    (alternateStep role critical taken item).IsChain (MayFollow role critical) := by
  cases taken with
  | nil => exact List.isChain_singleton item
  | cons last rest =>
      unfold alternateStep
      dsimp only
      split_ifs with hnone hsame hcritical hlast
      · exact h.cons_cons fun _ hrole => absurd hnone hrole
      · exact h.cons_cons fun _ _ => ⟨hcritical, hlast⟩
      · -- the last item had another role than the one before, as it is not critical
        cases rest with
        | nil => exact List.isChain_singleton item
        | cons before rest =>
            obtain ⟨hbefore, hrest⟩ := List.isChain_cons_cons.mp h
            refine hrest.cons_cons fun heq hrole => ?_
            exact absurd (hbefore (hsame ▸ heq) (hsame ▸ hrole)).1 hlast
      · exact h
      · exact h.cons_cons fun heq _ => absurd heq hsame

/-- Neighbours with the same role are both critical. -/
theorem alternate_isChain (items : List α) :
    (alternate role critical items).IsChain (MayFollow role critical) := by
  have htaken : ∀ taken : List α, taken.IsChain (MayFollow role critical) →
      (items.foldl (alternateStep role critical) taken).IsChain
        (MayFollow role critical) := by
    induction items with
    | nil => exact fun _ h => h
    | cons item items ih => exact fun taken h => ih _ (alternateStep_isChain h item)
  rw [alternate, List.isChain_reverse]
  exact (htaken [] List.isChain_nil).imp fun _ _ h => h.symm

/-! ## The first that stands -/

theorem standing_append (first : Option α) (before after : List α) :
    ∃ kept, kept.Sublist before ∧ standing role critical first (before ++ after) =
      kept ++ standing role critical (before.getLast?.or first) after := by
  induction before generalizing first with
  | nil => exact ⟨[], List.Sublist.refl _, rfl⟩
  | cons item before ih =>
      obtain ⟨kept, hkept, heq⟩ := ih (some item)
      rw [getLast?_cons_or, List.cons_append, standing]
      split_ifs
      · exact ⟨item :: kept, hkept.cons_cons item, by rw [heq, List.cons_append]⟩
      · exact ⟨kept, hkept.cons item, heq⟩

/-- Where a critical item ends a run, something of the run stands. -/
theorem head_standing_of_critical {r : Option β} {items : List α}
    (h : (items.takeWhile (role · = r)).any critical = true) (first : Option α) :
    (standing role critical first items).head?.map role = some r := by
  induction items generalizing first with
  | nil => simp at h
  | cons item items ih =>
      by_cases hrole : role item = r
      · rw [standing]
        split_ifs with hstands
        · simp [hrole]
        · have hcritical : critical item = false := by
            by_contra hcritical
            simp [stands, hcritical] at hstands
          rw [List.takeWhile_cons_of_pos (by simpa using hrole), List.any_cons,
            hcritical, Bool.false_or] at h
          exact ih h _
      · rw [List.takeWhile_cons_of_neg (by simpa using hrole)] at h
        simp at h

/-- What stands begins with the role that the items begin with. -/
theorem head_standing {first : Option α} (hfirst : first.all (role · ≠ role item))
    (after : List α) :
    (standing role critical first (item :: after)).head?.map role = some (role item) := by
  rw [standing]
  split_ifs with hstands
  · rfl
  · refine head_standing_of_critical ?_ _
    simp only [stands, hfirst, Bool.true_and, keepsRun, Bool.or_eq_true, not_or,
      Bool.not_eq_true', Bool.not_eq_false] at hstands
    exact hstands.2.2

end VirtualContext.Library
