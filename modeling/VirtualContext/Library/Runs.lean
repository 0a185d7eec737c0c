import Mathlib.Data.List.Induction
import Mathlib.Order.Lattice

/-!
# Runs of a list

A list is cut before every item of a certain kind.  Each run but the first then
begins with such an item, and runs of this form are found again when they are
put together.
-/

namespace VirtualContext.Library

variable {α β : Type} (starts : α → Bool)

/-- An item joins the last run, unless it begins one. -/
def placeItem (runs : List (List α)) (item : α) : List (List α) :=
  match runs.getLast? with
  | some run =>
      if starts item then runs ++ [[item]] else runs.dropLast ++ [run ++ [item]]
  | none => [[item]]

def groupRuns (items : List α) : List (List α) := items.foldl (placeItem starts) []

/-- Runs that begin where they should, the first of them apart. -/
structure IsRuns (runs : List (List α)) : Prop where
  inner : ∀ run ∈ runs, ∃ first rest, run = first :: rest ∧ ∀ item ∈ rest, starts item = false
  begins : ∀ run ∈ runs.tail, ∀ first ∈ run.head?, starts first = true

variable {starts}

@[simp] theorem groupRuns_nil : groupRuns starts [] = [] := rfl

theorem groupRuns_append_singleton (items : List α) (item : α) :
    groupRuns starts (items ++ [item]) = placeItem starts (groupRuns starts items) item := by
  simp [groupRuns]

theorem placeItem_append (runs : List (List α)) (run : List α) (item : α) :
    placeItem starts (runs ++ [run]) item =
      if starts item then runs ++ [run] ++ [[item]] else runs ++ [run ++ [item]] := by
  simp [placeItem]

theorem flatten_placeItem (runs : List (List α)) (item : α) :
    (placeItem starts runs item).flatten = runs.flatten ++ [item] := by
  cases runs using List.reverseRecOn with
  | nil => rfl
  | append_singleton runs run =>
      rw [placeItem_append]
      split_ifs <;> simp

/-- The runs hold every item, in order. -/
theorem flatten_groupRuns (items : List α) : (groupRuns starts items).flatten = items := by
  induction items using List.reverseRecOn with
  | nil => rfl
  | append_singleton items item ih =>
      rw [groupRuns_append_singleton, flatten_placeItem, ih]

theorem IsRuns.place {runs : List (List α)} (h : IsRuns starts runs) (item : α) :
    IsRuns starts (placeItem starts runs item) := by
  cases runs using List.reverseRecOn with
  | nil =>
      refine ⟨fun run hrun => ?_, by simp [placeItem]⟩
      obtain rfl := List.mem_singleton.mp hrun
      exact ⟨item, [], rfl, by simp⟩
  | append_singleton runs run =>
      rw [placeItem_append]
      split_ifs with hstarts
      · refine ⟨fun other hother => ?_, fun other hother => ?_⟩
        · rcases List.mem_append.mp hother with hold | hnew
          · exact h.inner other hold
          · obtain rfl := List.mem_singleton.mp hnew
            exact ⟨item, [], rfl, by simp⟩
        · rw [List.tail_append_of_ne_nil (by simp)] at hother
          rcases List.mem_append.mp hother with hold | hnew
          · exact h.begins other hold
          · obtain rfl := List.mem_singleton.mp hnew
            simp [hstarts]
      · obtain ⟨first, rest, rfl, hrest⟩ := h.inner run (by simp)
        refine ⟨fun other hother => ?_, fun other hother => ?_⟩
        · rcases List.mem_append.mp hother with hold | hnew
          · exact h.inner other (List.mem_append_left _ hold)
          · obtain rfl := List.mem_singleton.mp hnew
            refine ⟨first, rest ++ [item], rfl, fun other hother => ?_⟩
            rcases List.mem_append.mp hother with hold | hnew
            · exact hrest other hold
            · obtain rfl := List.mem_singleton.mp hnew
              simpa using hstarts
        · cases runs with
          | nil => simp at hother
          | cons head runs =>
              rcases List.mem_append.mp hother with hold | hnew
              · exact h.begins other (List.mem_append_left _ hold)
              · obtain rfl := List.mem_singleton.mp hnew
                exact h.begins (first :: rest) (by simp)

theorem groupRuns_isRuns (items : List α) : IsRuns starts (groupRuns starts items) := by
  induction items using List.reverseRecOn with
  | nil => exact ⟨by simp, by simp⟩
  | append_singleton items item ih =>
      rw [groupRuns_append_singleton]
      exact ih.place item

/-- Leaving out runs leaves runs. -/
theorem IsRuns.sublist {runs runs' : List (List α)} (h : IsRuns starts runs)
    (hsub : runs'.Sublist runs) : IsRuns starts runs' where
  inner run hrun := h.inner run (hsub.subset hrun)
  begins run hrun := h.begins run (hsub.tail.subset hrun)

theorem foldl_placeItem_inner (runs : List (List α)) (run : List α) {items : List α}
    (h : ∀ item ∈ items, starts item = false) :
    items.foldl (placeItem starts) (runs ++ [run]) = runs ++ [run ++ items] := by
  induction items generalizing run with
  | nil => simp
  | cons item items ih =>
      rw [List.foldl_cons, placeItem_append, if_neg (by simp [h item List.mem_cons_self]),
        ih _ fun other hother => h other (List.mem_cons_of_mem _ hother)]
      simp

/-- Runs are found again when they are put together. -/
theorem IsRuns.groupRuns_flatten {runs : List (List α)} (h : IsRuns starts runs) :
    groupRuns starts runs.flatten = runs := by
  induction runs using List.reverseRecOn with
  | nil => rfl
  | append_singleton runs run ih =>
      obtain ⟨first, rest, rfl, hrest⟩ := h.inner run (by simp)
      have hbefore := ih (h.sublist (List.sublist_append_left _ _))
      have hplace : placeItem starts runs first = runs ++ [[first]] := by
        cases runs using List.reverseRecOn with
        | nil => rfl
        | append_singleton runs last =>
            have hfirst : starts first = true :=
              h.begins (first :: rest) (by
                rw [List.tail_append_of_ne_nil (by simp)]
                simp) first rfl
            rw [placeItem_append, if_pos hfirst]
      rw [List.flatten_append, groupRuns, List.foldl_append]
      change List.foldl _ (groupRuns starts runs.flatten) _ = _
      rw [hbefore, List.flatten_singleton, List.foldl_cons, hplace,
        foldl_placeItem_inner _ _ hrest]
      rfl

theorem groupRuns_map (f : β → α) (items : List β) :
    groupRuns starts (items.map f) = (groupRuns (starts ∘ f) items).map (List.map f) := by
  induction items using List.reverseRecOn with
  | nil => rfl
  | append_singleton items item ih =>
      rw [List.map_append, List.map_singleton, groupRuns_append_singleton, ih,
        groupRuns_append_singleton]
      cases groupRuns (starts ∘ f) items using List.reverseRecOn with
      | nil => rfl
      | append_singleton runs run =>
          rw [List.map_append, List.map_singleton, placeItem_append, placeItem_append]
          by_cases hstarts : starts (f item) <;> simp [hstarts]

/-- A test that does not tell the items of a run apart leaves out runs. -/
theorem filter_flatten {runs : List (List α)} {keeps : List α → Bool} {test : α → Bool}
    (h : ∀ run ∈ runs, ∀ item ∈ run, test item = keeps run) :
    runs.flatten.filter test = (runs.filter keeps).flatten := by
  induction runs with
  | nil => rfl
  | cons run runs ih =>
      have hrun := h run List.mem_cons_self
      rw [List.flatten_cons, List.filter_append,
        ih fun other hother => h other (List.mem_cons_of_mem _ hother), List.filter_cons]
      cases hkeeps : keeps run with
      | true =>
          have hall : run.filter test = run :=
            List.filter_eq_self.mpr fun item hitem => (hrun item hitem).trans hkeeps
          rw [hall, if_pos rfl, List.flatten_cons]
      | false =>
          have hnone : run.filter test = [] := by
            rw [List.filter_eq_nil_iff]
            intro item hitem
            rw [hrun item hitem, hkeeps]
            exact Bool.false_ne_true
          rw [hnone, if_neg Bool.false_ne_true, List.nil_append]

/-! ## Runs in order -/

section

variable {α : Type} [LinearOrder α] {runs : List (List α)}

/-- Of two items in different runs the run of the smaller one comes first. -/
theorem same_run_or_before (horder : runs.flatten.Pairwise (· < ·)) {a b : α}
    {run run' : List α} (hrun : run ∈ runs) (hrun' : run' ∈ runs) (ha : a ∈ run) (hb : b ∈ run')
    (hlt : a < b) :
    run = run' ∨ run' ∈ runs.tail ∧ ∀ item ∈ run, ∀ later ∈ run', item < later := by
  have hpairwise := List.pairwise_iff_getElem.mp (List.pairwise_flatten.mp horder).2
  obtain ⟨i, hi, rfl⟩ := List.mem_iff_getElem.mp hrun
  obtain ⟨j, hj, rfl⟩ := List.mem_iff_getElem.mp hrun'
  rcases Nat.lt_trichotomy i j with hij | rfl | hji
  · refine .inr ⟨?_, hpairwise i j hi hj hij⟩
    cases runs with
    | nil => cases hrun
    | cons first rest =>
        obtain ⟨j, rfl⟩ := Nat.exists_eq_succ_of_ne_zero (Nat.ne_zero_of_lt hij)
        exact List.getElem_mem _
  · exact .inl rfl
  · exact absurd (hpairwise j i hj hi hji b hb a ha) (lt_asymm hlt)

/-- Two items are in one run exactly if no later item up to the second one begins a run. -/
theorem IsRuns.together_iff {starts : α → Bool} (h : IsRuns starts runs)
    (horder : runs.flatten.Pairwise (· < ·)) {a b : α} (ha : a ∈ runs.flatten)
    (hb : b ∈ runs.flatten) (hlt : a < b) :
    (∃ run ∈ runs, a ∈ run ∧ b ∈ run) ↔
      ∀ item ∈ runs.flatten, a < item → item ≤ b → starts item = false := by
  have hsorted : ∀ run ∈ runs, run.Pairwise (· < ·) := (List.pairwise_flatten.mp horder).1
  constructor
  · rintro ⟨run, hrun, ha, hb⟩ item hitem hafter hbefore
    obtain ⟨other, hother, hitem⟩ := List.mem_flatten.mp hitem
    rcases same_run_or_before horder hrun hother ha hitem hafter with rfl | ⟨-, hlater⟩
    · obtain ⟨first, rest, rfl, hrest⟩ := h.inner run hrun
      rcases List.mem_cons.mp hitem with rfl | hmem
      · have hfirst := (List.pairwise_cons.mp (hsorted _ hrun)).1
        rcases List.mem_cons.mp ha with rfl | ha
        · exact absurd hafter (lt_irrefl a)
        · exact absurd (hfirst a ha) (lt_asymm hafter)
      · exact hrest item hmem
    · exact absurd hbefore (not_le_of_gt (hlater b hb item hitem))
  · intro hnone
    obtain ⟨run, hrun, ha⟩ := List.mem_flatten.mp ha
    obtain ⟨other, hother, hb⟩ := List.mem_flatten.mp hb
    rcases same_run_or_before horder hrun hother ha hb hlt with rfl | ⟨htail, hlater⟩
    · exact ⟨run, hrun, ha, hb⟩
    · obtain ⟨first, rest, rfl, -⟩ := h.inner other hother
      have hstarts : starts first = true := h.begins _ htail first rfl
      have hle : first ≤ b := by
        rcases List.mem_cons.mp hb with rfl | hb
        · exact le_refl b
        · exact le_of_lt ((List.pairwise_cons.mp (hsorted _ hother)).1 b hb)
      have hmem : first ∈ runs.flatten :=
        List.mem_flatten.mpr ⟨_, hother, List.mem_cons_self⟩
      have hfalse := hnone first hmem (hlater a ha first List.mem_cons_self) hle
      exact absurd (hstarts.symm.trans hfalse) (by decide)

end

end VirtualContext.Library
