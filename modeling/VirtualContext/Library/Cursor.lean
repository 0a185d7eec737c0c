import Mathlib.Data.Finset.Card
import Mathlib.Data.List.Dedup
import Mathlib.Order.Interval.Finset.Nat

/-!
# Grouping a sequence and attributing by a cursor

Members of a sequence are put into groups one by one: each opens a group or
joins one.  A cursor then attributes consecutive positions to the groups, as
many to each as it has members.
-/

namespace VirtualContext.Library

variable {α : Type}

/-! ## Grouping -/

/-- Open a group with the member, or join the chosen group. -/
def place (choice : Option Nat) (a : α) (groups : List (List α)) :
    List (List α) :=
  match choice with
  | none => groups ++ [[a]]
  | some i => groups.modify i (· ++ [a])

def placeAll (groups : List (List α)) : List (α × Option Nat) → List (List α)
  | [] => groups
  | (a, choice) :: steps => placeAll (place choice a groups) steps

/-- Each chosen group exists. -/
def ValidChoices (groups : List (List α)) : List (α × Option Nat) → Prop
  | [] => True
  | (a, choice) :: steps => (∀ i ∈ choice, i < groups.length) ∧
      ValidChoices (place choice a groups) steps

/-- Each member opens a group or joins the newest one. -/
def JoinsNewest (groups : List (List α)) : List (α × Option Nat) → Prop
  | [] => True
  | (a, choice) :: steps => (∀ i ∈ choice, i + 1 = groups.length) ∧
      JoinsNewest (place choice a groups) steps

section

variable {groups : List (List α)} {steps : List (α × Option Nat)} {a : α}
  {choice : Option Nat}

theorem place_ne_nil (h : ∀ group ∈ groups, group ≠ []) :
    ∀ group ∈ place choice a groups, group ≠ [] := by
  intro group hgroup
  cases choice with
  | none =>
      rcases List.mem_append.mp hgroup with hgroup | hgroup
      · exact h group hgroup
      · simp_all
  | some i =>
      obtain ⟨k, hk, hget⟩ := List.mem_iff_getElem.mp hgroup
      simp only [place, List.getElem_modify] at hget
      split_ifs at hget
      · simp [← hget]
      · rw [← hget]
        exact h _ (List.getElem_mem _)

theorem placeAll_append (later : List (α × Option Nat)) :
    placeAll groups (steps ++ later) = placeAll (placeAll groups steps) later := by
  induction steps generalizing groups with
  | nil => rfl
  | cons step steps ih => exact ih

theorem placeAll_ne_nil (h : ∀ group ∈ groups, group ≠ []) :
    ∀ group ∈ placeAll groups steps, group ≠ [] := by
  induction steps generalizing groups with
  | nil => exact h
  | cons step steps ih => exact ih (place_ne_nil h)

/-- A group keeps its members. -/
theorem place_keeps {i : Nat} {group : List α} (h : groups[i]? = some group) :
    ∃ group', (place choice a groups)[i]? = some group' ∧ group ⊆ group' := by
  cases choice with
  | none =>
      refine ⟨group, ?_, List.Subset.refl _⟩
      rw [place, List.getElem?_append_left]
      · exact h
      · exact (List.getElem?_eq_some_iff.mp h).1
  | some k =>
      rw [place, List.getElem?_modify, h]
      split_ifs
      · exact ⟨_, rfl, List.subset_append_left _ _⟩
      · exact ⟨_, rfl, List.Subset.refl _⟩

theorem placeAll_keeps (steps : List (α × Option Nat)) {i : Nat}
    {groups : List (List α)} {group : List α}
    (h : groups[i]? = some group) :
    ∃ group', (placeAll groups steps)[i]? = some group' ∧ group ⊆ group' := by
  induction steps generalizing groups group with
  | nil => exact ⟨group, h, List.Subset.refl _⟩
  | cons step steps ih =>
      obtain ⟨middle, hmiddle, hsub⟩ := place_keeps h
      obtain ⟨group', hgroup', hsub'⟩ := ih hmiddle
      exact ⟨group', hgroup', List.Subset.trans hsub hsub'⟩

theorem mem_flatten_place {b : α} (h : b ∈ (place choice a groups).flatten) :
    b ∈ groups.flatten ∨ b = a := by
  cases choice with
  | none => simpa [place] using h
  | some i =>
      obtain ⟨group, hgroup, hb⟩ := List.mem_flatten.mp h
      obtain ⟨k, hk, rfl⟩ := List.mem_iff_getElem.mp hgroup
      simp only [place, List.getElem_modify] at hb
      split_ifs at hb
      · rcases List.mem_append.mp hb with hb | hb
        · exact .inl (List.mem_flatten.mpr ⟨_, List.getElem_mem _, hb⟩)
        · exact .inr (by simpa using hb)
      · exact .inl (List.mem_flatten.mpr ⟨_, List.getElem_mem _, hb⟩)

/-- What is grouped comes from the sequence. -/
theorem mem_flatten_placeAll {b : α}
    (h : b ∈ (placeAll groups steps).flatten) :
    b ∈ groups.flatten ∨ b ∈ steps.map Prod.fst := by
  induction steps generalizing groups with
  | nil => exact .inl h
  | cons step steps ih =>
      rcases ih h with hb | hb
      · rcases mem_flatten_place hb with hb | rfl
        · exact .inl hb
        · exact .inr (by simp)
      · exact .inr (List.mem_cons_of_mem _ hb)

theorem perm_place (h : ∀ i ∈ choice, i < groups.length) :
    (place choice a groups).flatten.Perm (groups.flatten ++ [a]) := by
  cases choice with
  | none => simp [place]
  | some i =>
      have hlt := h i rfl
      obtain ⟨front, group, back, rfl, rfl⟩ :
          ∃ front group back, groups = front ++ group :: back ∧ front.length = i := by
        refine ⟨groups.take i, groups[i], groups.drop (i + 1), ?_, ?_⟩
        · rw [← List.drop_eq_getElem_cons hlt, List.take_append_drop]
        · exact List.length_take_of_le hlt.le
      have hmodify : (front ++ group :: back).modify front.length (· ++ [a]) =
          front ++ (group ++ [a]) :: back := by
        simp [List.modify_eq_take_drop, List.modifyHead]
      rw [place, hmodify]
      simp only [List.flatten_append, List.flatten_cons, List.append_assoc]
      exact (List.perm_append_comm.append_left group).append_left _

/-- Every member is in one group. -/
theorem perm_placeAll (h : ValidChoices groups steps) :
    (placeAll groups steps).flatten.Perm (groups.flatten ++ steps.map Prod.fst) := by
  induction steps generalizing groups with
  | nil => simp [placeAll]
  | cons step steps ih =>
      obtain ⟨a, choice⟩ := step
      obtain ⟨hchoice, hrest⟩ := h
      refine (ih hrest).trans ?_
      rw [List.map_cons, ← List.singleton_append, ← List.append_assoc]
      exact (perm_place hchoice).append_right _

theorem sublist_place {xs : List α} (h : ∀ group ∈ groups, group.Sublist xs) :
    ∀ group ∈ place choice a groups, group.Sublist (xs ++ [a]) := by
  intro group hgroup
  cases choice with
  | none =>
      rcases List.mem_append.mp hgroup with hold | hnew
      · exact (h group hold).trans (List.sublist_append_left xs [a])
      · rw [List.mem_singleton.mp hnew]
        exact List.sublist_append_right xs [a]
  | some i =>
      obtain ⟨k, hk, rfl⟩ := List.mem_iff_getElem.mp hgroup
      simp only [place, List.getElem_modify]
      simp only [place, List.length_modify] at hk
      split_ifs
      · exact (h _ (List.getElem_mem hk)).append_right [a]
      · exact (h _ (List.getElem_mem hk)).trans (List.sublist_append_left xs [a])

/-- The members of a group stand in the order of the sequence. -/
theorem sublist_placeAll {xs : List α} (h : ∀ group ∈ groups, group.Sublist xs) :
    ∀ group ∈ placeAll groups steps, group.Sublist (xs ++ steps.map Prod.fst) := by
  induction steps generalizing groups xs with
  | nil => simpa [placeAll] using h
  | cons step steps ih =>
      intro group hgroup
      have hrest := ih (sublist_place h) group hgroup
      rwa [List.append_assoc, List.singleton_append, ← List.map_cons] at hrest

theorem map_place {β : Type} (f : α → β) :
    (place choice a groups).map (List.map f) = place choice (f a) (groups.map (List.map f)) := by
  cases choice with
  | none => simp [place]
  | some i =>
      simp only [place]
      apply List.ext_getElem
      · simp
      · intro k hk hk'
        simp only [List.getElem_map, List.getElem_modify]
        split_ifs
        · rw [List.map_append, List.map_singleton]
        · rfl

theorem map_placeAll {β : Type} (f : α → β) :
    (placeAll groups steps).map (List.map f) =
      placeAll (groups.map (List.map f)) (steps.map fun step => (f step.1, step.2)) := by
  induction steps generalizing groups with
  | nil => rfl
  | cons step steps ih => rw [placeAll, ih, map_place, List.map_cons, placeAll]

theorem flatten_place (h : ∀ i ∈ choice, i + 1 = groups.length) :
    (place choice a groups).flatten = groups.flatten ++ [a] := by
  cases choice with
  | none => simp [place]
  | some i =>
      have hlength := h i rfl
      obtain ⟨front, last, rfl⟩ : ∃ front last, groups = front ++ [last] :=
        ⟨_, _, (List.dropLast_append_getLast (by
          rintro rfl
          simp at hlength)).symm⟩
      obtain rfl : i = front.length := by simpa using hlength
      simp [place, List.modify_eq_take_drop, List.modifyHead]

/-- If all join the newest group the groups are runs of the sequence. -/
theorem flatten_placeAll (h : JoinsNewest groups steps) :
    (placeAll groups steps).flatten = groups.flatten ++ steps.map Prod.fst := by
  induction steps generalizing groups with
  | nil => simp [placeAll]
  | cons step steps ih =>
      rw [placeAll, ih h.2, flatten_place h.1]
      simp

/-! ## Groups in order -/

/-- All members of earlier groups come before those of later ones. -/
def InOrder (position : α → Nat) (groups : List (List α)) : Prop :=
  groups.Pairwise fun group later =>
    ∀ a ∈ group, ∀ b ∈ later, position a < position b

/-- A member that joins an older group breaks the order of the groups. -/
theorem joinsNewest_of_inOrder (position : α → Nat)
    (hvalid : ValidChoices groups steps)
    (hne : ∀ group ∈ groups, group ≠ [])
    (hfirst : ∀ a ∈ groups.flatten, ∀ step ∈ steps,
      position a ≤ position step.1)
    (hsorted : steps.Pairwise fun step later =>
      position step.1 ≤ position later.1)
    (horder : InOrder position (placeAll groups steps)) :
    JoinsNewest groups steps := by
  induction steps generalizing groups with
  | nil => trivial
  | cons step steps ih =>
      obtain ⟨a, choice⟩ := step
      obtain ⟨hhead, htail⟩ := List.pairwise_cons.mp hsorted
      refine ⟨?_, ih hvalid.2 (place_ne_nil hne) ?_ htail horder⟩
      · rintro i hi
        cases hi
        have hlt : i < groups.length := hvalid.1 i rfl
        by_contra hold
        -- the first member of the newest group came before this one
        have hnewest : groups.length - 1 < groups.length := by omega
        obtain ⟨b, hb⟩ := List.exists_mem_of_ne_nil _
          (hne _ (List.getElem_mem hnewest))
        have hjoined : (place (some i) a groups)[i]? =
            some (groups[i] ++ [a]) := by
          simp [place, hlt]
        have hother : (place (some i) a groups)[groups.length - 1]? =
            some groups[groups.length - 1] := by
          have hne' : i ≠ groups.length - 1 := by omega
          simp [place, List.getElem?_modify_ne _ _ hne']
        obtain ⟨group, hgroup, hsub⟩ := placeAll_keeps steps hjoined
        obtain ⟨later, hlater, hsub'⟩ := placeAll_keeps steps hother
        obtain ⟨hi, rfl⟩ := List.getElem?_eq_some_iff.mp hgroup
        obtain ⟨hj, rfl⟩ := List.getElem?_eq_some_iff.mp hlater
        have hbefore := List.pairwise_iff_getElem.mp horder i _ hi hj
          (by omega) a (hsub (by simp)) b (hsub' hb)
        have hafter := hfirst b
          (List.mem_flatten.mpr ⟨_, List.getElem_mem hnewest, hb⟩) (a, some i)
          (by simp)
        dsimp only at hafter
        omega
      · intro b hb later hlater
        rcases mem_flatten_place hb with hmem | rfl
        · exact hfirst b hmem later (List.mem_cons_of_mem _ hlater)
        · exact hhead later hlater

end

/-! ## Attributing positions -/

/-- Each group has the positions of its members, as the cursor finds them. -/
def AtCursor (n : Nat) : Nat → List (List Nat) → Prop
  | _, [] => True
  | start, group :: groups =>
      (∀ i < n, i ∈ group ↔ start ≤ i ∧ i < start + group.length) ∧
        AtCursor n (start + group.length) groups

section

variable {n start : Nat} {group : List Nat} {groups : List (List Nat)}

/-- Positions that are distinct, in order and without gaps. -/
theorem eq_range'_of_closed (hsorted : group.Pairwise (· < ·))
    (hstart : ∀ i ∈ group, start ≤ i)
    (hclosed : ∀ i ∈ group, ∀ j, start ≤ j → j ≤ i → j ∈ group) :
    group = List.range' start group.length := by
  induction group generalizing start with
  | nil => rfl
  | cons a group ih =>
      obtain ⟨hhead, htail⟩ := List.pairwise_cons.mp hsorted
      have hfirst : start ∈ a :: group :=
        hclosed a (by simp) start (Nat.le_refl _) (hstart a (by simp))
      obtain rfl : start = a := by
        rcases List.mem_cons.mp hfirst with hfirst | hfirst
        · exact hfirst
        · have := hhead start hfirst
          have := hstart a (by simp)
          omega
      rw [List.length_cons, List.range'_succ]
      congr 1
      refine ih htail (fun i hi => hhead i hi) ?_
      intro i hi j hj hji
      rcases List.mem_cons.mp (hclosed i (by simp [hi]) j (by omega) hji) with
        rfl | hmem
      · omega
      · exact hmem

/-- As many positions as members: none is named twice. -/
theorem eq_range'_of_mem_iff (hsorted : group.Pairwise (· ≤ ·))
    (h : ∀ i, i ∈ group ↔ start ≤ i ∧ i < start + group.length) :
    group = List.range' start group.length := by
  have hset : group.toFinset = Finset.Ico start (start + group.length) := by
    ext i
    simp [h i]
  have hnodup : group.Nodup := by
    have hcard := congrArg Finset.card hset
    rw [List.card_toFinset, Nat.card_Ico, Nat.add_sub_cancel_left] at hcard
    exact List.dedup_eq_self.mp
      ((List.dedup_sublist group).eq_of_length hcard)
  refine eq_range'_of_closed ?_ (fun i hi => ((h i).mp hi).1) ?_
  · exact (hsorted.and hnodup).imp fun hle => Nat.lt_of_le_of_ne hle.1 hle.2
  · intro i hi j hj hji
    have := (h i).mp hi
    exact (h j).mpr ⟨hj, by omega⟩

theorem AtCursor.start_le (h : AtCursor n start groups)
    (hn : ∀ i ∈ groups.flatten, i < n) : ∀ i ∈ groups.flatten, start ≤ i := by
  induction groups generalizing start with
  | nil => simp
  | cons group groups ih =>
      intro i hi
      have hlt := hn i hi
      rcases List.mem_append.mp hi with hi | hi
      · exact ((h.1 i hlt).mp hi).1
      · have := ih h.2 (fun j hj => hn j (List.mem_append_right _ hj)) i hi
        omega

theorem AtCursor.inOrder (h : AtCursor n start groups)
    (hn : ∀ i ∈ groups.flatten, i < n) : InOrder id groups := by
  induction groups generalizing start with
  | nil => exact List.Pairwise.nil
  | cons group groups ih =>
      have hn' : ∀ i ∈ groups.flatten, i < n :=
        fun j hj => hn j (List.mem_append_right _ hj)
      refine List.pairwise_cons.mpr ⟨?_, ih h.2 hn'⟩
      intro later hlater i hi j hj
      have hj' := h.2.start_le hn' j (List.mem_flatten.mpr ⟨_, hlater, hj⟩)
      have hi' := (h.1 i (hn i (List.mem_append_left _ hi))).mp hi
      simp only [id]
      omega

/-- One position for each member. -/
theorem atCursor_of_range'
    (h : groups.flatten = List.range' start groups.flatten.length) :
    AtCursor n start groups := by
  induction groups generalizing start with
  | nil => trivial
  | cons group groups ih =>
      rw [List.flatten_cons, List.length_append, ← List.range'_append_1] at h
      obtain ⟨hgroup, hrest⟩ := List.append_inj h (by simp)
      refine ⟨fun i _ => ?_, ih hrest⟩
      rw [hgroup]
      simp

theorem AtCursor.head_eq (h : AtCursor n start (group :: groups))
    (hn : ∀ i ∈ group, i < n) (hsorted : group.Pairwise (· ≤ ·))
    (hroom : start + group.length ≤ n) :
    group = List.range' start group.length := by
  refine eq_range'_of_mem_iff hsorted fun i => ⟨fun hi => ?_, fun hi => ?_⟩
  · exact (h.1 i (hn i hi)).mp hi
  · exact (h.1 i (by omega)).mpr hi

theorem range'_of_atCursor (h : AtCursor n start groups)
    (hn : ∀ i ∈ groups.flatten, i < n)
    (hsorted : groups.flatten.Pairwise (· ≤ ·))
    (hroom : start + groups.flatten.length ≤ n) :
    groups.flatten = List.range' start groups.flatten.length := by
  induction groups generalizing start with
  | nil => rfl
  | cons group groups ih =>
      simp only [List.flatten_cons, List.length_append, List.mem_append,
        List.pairwise_append] at hn hsorted hroom ⊢
      have hgroup := h.head_eq (fun i hi => hn i (.inl hi)) hsorted.1 (by omega)
      have hrest := ih h.2 (fun i hi => hn i (.inr hi)) hsorted.2.1 (by omega)
      rw [← List.range'_append_1, ← hgroup, ← hrest]

/-- All positions are taken, and only the last group has one for several. -/
structure Covers (n start : Nat) (groups : List (List Nat)) : Prop where
  all : ∀ i < n, start ≤ i → i ∈ groups.flatten
  once : ∀ group ∈ groups.dropLast, ∀ i ∈ group, groups.flatten.count i = 1

theorem Covers.tail (h : Covers n start (group :: groups))
    (hnext : groups ≠ []) (hgroup : group = List.range' start group.length)
    (hrest : ∀ i ∈ groups.flatten, start + group.length ≤ i) :
    Covers n (start + group.length) groups := by
  have hnot : ∀ i, start + group.length ≤ i → i ∉ group := by
    intro i hi hmem
    rw [hgroup, List.mem_range'_1] at hmem
    omega
  refine ⟨fun i hi hstart => ?_, fun later hlater i hi => ?_⟩
  · rcases List.mem_append.mp (h.all i hi (by omega)) with hmem | hmem
    · exact absurd hmem (hnot i hstart)
    · exact hmem
  · have hmem : i ∈ groups.flatten := List.mem_flatten.mpr
      ⟨later, List.dropLast_subset _ hlater, hi⟩
    have honce := h.once later (by
      rw [List.dropLast_cons_of_ne_nil hnext]
      exact List.mem_cons_of_mem _ hlater) i hi
    rwa [List.flatten_cons, List.count_append,
      List.count_eq_zero.mpr (hnot i (hrest i hmem)), Nat.zero_add] at honce

theorem atCursor_of_covers (h : Covers n start groups)
    (hstart : ∀ i ∈ groups.flatten, start ≤ i)
    (hn : ∀ i ∈ groups.flatten, i < n)
    (hsorted : groups.flatten.Pairwise (· ≤ ·)) : AtCursor n start groups := by
  induction groups generalizing start with
  | nil => trivial
  | cons group groups ih =>
      simp only [List.flatten_cons, List.mem_append,
        List.pairwise_append] at hstart hn hsorted
      by_cases hnext : groups = []
      · subst hnext
        refine ⟨fun i hi => ⟨fun hmem => ?_, fun hle => ?_⟩, trivial⟩
        · -- the last group has at least as many members as positions are left
          refine ⟨hstart i (.inl hmem), ?_⟩
          have hsub : Finset.Ico start n ⊆ group.toFinset := by
            intro j hj
            rw [Finset.mem_Ico] at hj
            simpa using h.all j hj.2 hj.1
          have hcard := Finset.card_le_card hsub
          rw [Nat.card_Ico] at hcard
          have := List.toFinset_card_le group
          omega
        · simpa using h.all i hi hle.1
      · have honce : ∀ i ∈ group,
            group.count i + groups.flatten.count i = 1 := by
          intro i hi
          rw [← List.count_append, ← List.flatten_cons]
          exact h.once group (by
            rw [List.dropLast_cons_of_ne_nil hnext]
            simp) i hi
        have hnot : ∀ i ∈ group, i ∉ groups.flatten := by
          intro i hi hmem
          have := honce i hi
          have := List.count_pos_iff.mpr hi
          have := List.count_pos_iff.mpr hmem
          omega
        have hnodup : group.Nodup := by
          rw [List.nodup_iff_count_le_one]
          intro i
          by_cases hi : i ∈ group
          · have := honce i hi
            omega
          · rw [List.count_eq_zero.mpr hi]
            omega
        have hgroup : group = List.range' start group.length := by
          refine eq_range'_of_closed ?_ (fun i hi => hstart i (.inl hi)) ?_
          · exact (hsorted.1.and hnodup).imp fun hle =>
              Nat.lt_of_le_of_ne hle.1 hle.2
          · intro i hi j hj hji
            have hjn : j < n := Nat.lt_of_le_of_lt hji (hn i (.inl hi))
            rcases List.mem_append.mp (h.all j hjn hj) with hmem | hmem
            · exact hmem
            · have hij := hsorted.2.2 i hi j hmem
              obtain rfl : i = j := Nat.le_antisymm hij hji
              exact hi
        have hrest : ∀ i ∈ groups.flatten, start + group.length ≤ i := by
          intro i hi
          by_contra hlt
          have hmem : i ∈ group := by
            rw [hgroup, List.mem_range'_1]
            exact ⟨hstart i (.inr hi), by omega⟩
          exact hnot i hmem hi
        refine ⟨fun i _ => ?_, ih (h.tail hnext hgroup hrest) hrest
          (fun i hi => hn i (.inr hi)) hsorted.2.1⟩
        conv_lhs => rw [hgroup]
        exact List.mem_range'_1

theorem covers_of_atCursor (h : AtCursor n start groups)
    (hne : ∀ group ∈ groups, group ≠ [])
    (hn : ∀ i ∈ groups.flatten, i < n)
    (hsorted : groups.flatten.Pairwise (· ≤ ·))
    (hroom : n < start + groups.flatten.length) : Covers n start groups := by
  induction groups generalizing start with
  | nil => exact ⟨fun i hi hle => by simp at hroom; omega, by simp⟩
  | cons group groups ih =>
      simp only [List.flatten_cons, List.mem_append, List.length_append,
        List.pairwise_append] at hn hsorted hroom
      have hafter := h.2.start_le fun i hi => hn i (.inr hi)
      cases groups with
      | nil =>
          refine ⟨fun i hi hle => ?_, by simp⟩
          simp only [List.flatten_nil, List.length_nil] at hroom
          simpa using (h.1 i hi).mpr ⟨hle, by omega⟩
      | cons next groups =>
          obtain ⟨i, hi⟩ := List.exists_mem_of_ne_nil _ (hne next (by simp))
          have hmem : i ∈ (next :: groups).flatten := by simp [hi]
          have hle := hafter i hmem
          have hlt := hn i (.inr hmem)
          have hgroup := h.head_eq (fun i hi => hn i (.inl hi)) hsorted.1
            (by omega)
          have hrest := ih h.2 (fun g hg => hne g (List.mem_cons_of_mem _ hg))
            (fun i hi => hn i (.inr hi)) hsorted.2.1 (by omega)
          refine ⟨fun i hi hle => ?_, fun g hg i hi => ?_⟩
          · rw [List.flatten_cons, List.mem_append]
            by_cases hmem : i < start + group.length
            · exact .inl ((h.1 i hi).mpr ⟨hle, hmem⟩)
            · exact .inr (hrest.all i hi (by omega))
          · rw [List.flatten_cons, List.count_append]
            rw [List.dropLast_cons_of_ne_nil (by simp)] at hg
            rcases List.mem_cons.mp hg with rfl | hg
            · have hnot : i ∉ (next :: groups).flatten := by
                intro hmem
                have := hafter i hmem
                have := (h.1 i (hn i (.inl hi))).mp hi
                omega
              rw [List.count_eq_zero.mpr hnot, Nat.add_zero]
              refine List.count_eq_one_of_mem ?_ hi
              rw [hgroup]
              exact List.nodup_range'
            · have hmem' : i ∈ (next :: groups).flatten := List.mem_flatten.mpr
                ⟨g, List.dropLast_subset _ hg, hi⟩
              have hnot : i ∉ group := by
                intro hmem
                have := hafter i hmem'
                have := (h.1 i (hn i (.inl hmem))).mp hmem
                omega
              rw [List.count_eq_zero.mpr hnot, Nat.zero_add]
              exact hrest.once g hg i hi

/-- The cursor is right if every position has one member, or all have some. -/
theorem atCursor_iff (hne : ∀ group ∈ groups, group ≠ [])
    (hn : ∀ i ∈ groups.flatten, i < n)
    (hsorted : groups.flatten.Pairwise (· ≤ ·)) :
    AtCursor n 0 groups ↔
      groups.flatten = List.range groups.flatten.length ∨ Covers n 0 groups := by
  rw [List.range_eq_range']
  constructor
  · intro h
    by_cases hroom : 0 + groups.flatten.length ≤ n
    · exact .inl (range'_of_atCursor h hn hsorted hroom)
    · exact .inr (covers_of_atCursor h hne hn hsorted (by omega))
  · rintro (hrange | hcovers)
    · exact atCursor_of_range' hrange
    · exact atCursor_of_covers hcovers (by simp) hn hsorted

end

end VirtualContext.Library
