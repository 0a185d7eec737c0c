import Mathlib.Data.List.Basic
import Mathlib.Logic.Function.Iterate

/-!
# Orphans

Items use identifiers and hold results for identifiers.  An item is orphaned in
a list if for some of its identifiers the list has nothing at the other end.
Leaving out the orphans orphans others, in rounds: an item goes in some round
just if it is loose, and what is left has no orphans just if no loose item needs
more rounds than were made.
-/

namespace VirtualContext.Library

variable {α ι : Type} [DecidableEq ι] (uses results : α → List ι)

/-- An identifier of the item has no other end in the list. -/
def orphaned (items : List α) (a : α) : Bool :=
  (uses a).any (fun id => items.all (id ∉ results ·)) ||
    (results a).any fun id => items.all (id ∉ uses ·)

/-- One round. -/
def dropOrphans (items : List α) : List α :=
  items.filter (!orphaned uses results items ·)

/-- Rounds, until there are no orphans. -/
def dropOrphansRounds : Nat → List α → List α
  | 0, items => items
  | n + 1, items =>
      if items.any (orphaned uses results items) then
        dropOrphansRounds n (dropOrphans uses results items)
      else items

/-- No item of the list is an orphan in it. -/
def Paired (items : List α) : Prop := ∀ a ∈ items, orphaned uses results items a = false

/-- For some identifier, everything at its other end is loose. -/
inductive Loose (items : List α) : α → Prop where
  | use {a : α} (id : ι) (hid : id ∈ uses a)
      (h : ∀ b ∈ items, id ∈ results b → Loose items b) : Loose items a
  | result {a : α} (id : ι) (hid : id ∈ results a)
      (h : ∀ b ∈ items, id ∈ uses b → Loose items b) : Loose items a

/-- Loose by a cascade of so many steps at most. -/
def LooseWithin (items : List α) : Nat → α → Prop
  | 0, _ => False
  | n + 1, a =>
      (∃ id ∈ uses a, ∀ b ∈ items, id ∈ results b → LooseWithin items n b) ∨
        ∃ id ∈ results a, ∀ b ∈ items, id ∈ uses b → LooseWithin items n b

variable {uses results} {items : List α} {a : α}

instance : Decidable (Paired uses results items) :=
  inferInstanceAs (Decidable (∀ a ∈ items, _))

theorem orphaned_iff : orphaned uses results items a = true ↔
    (∃ id ∈ uses a, ∀ b ∈ items, id ∉ results b) ∨
      ∃ id ∈ results a, ∀ b ∈ items, id ∉ uses b := by
  simp [orphaned]

theorem mem_dropOrphans : a ∈ dropOrphans uses results items ↔
    a ∈ items ∧ ¬orphaned uses results items a := by
  simp [dropOrphans]

theorem dropOrphans_sublist : (dropOrphans uses results items).Sublist items :=
  List.filter_sublist

theorem Paired.dropOrphans_eq (h : Paired uses results items) :
    dropOrphans uses results items = items := by
  rw [dropOrphans, List.filter_eq_self]
  intro a ha
  rw [h a ha]
  rfl

theorem any_orphaned_eq_false :
    items.any (orphaned uses results items) = false ↔ Paired uses results items := by
  simp [Paired]

/-- Nothing is left out just if there are no orphans. -/
theorem dropOrphansRounds_eq_self_iff (n : Nat) :
    dropOrphansRounds uses results (n + 1) items = items ↔ Paired uses results items := by
  have hsub : ∀ n (items : List α),
      (dropOrphansRounds uses results n items).Sublist items := by
    intro n
    induction n with
    | zero => exact fun items => List.Sublist.refl items
    | succ n ih =>
        intro items
        rw [dropOrphansRounds]
        split_ifs
        · exact (ih _).trans dropOrphans_sublist
        · exact List.Sublist.refl items
  rw [← any_orphaned_eq_false, dropOrphansRounds]
  split_ifs with hany
  · refine iff_of_false (fun heq => ?_) (by simp [hany])
    have hle := (hsub n (dropOrphans uses results items)).length_le
    rw [heq] at hle
    have hall := List.length_filter_eq_length_iff.mp
      (Nat.le_antisymm dropOrphans_sublist.length_le hle)
    obtain ⟨a, ha, horphan⟩ := List.any_eq_true.mp hany
    simpa [horphan] using hall a ha
  · simp [hany]

/-! ## The rounds -/

theorem LooseWithin.succ {n : Nat} (h : LooseWithin uses results items n a) :
    LooseWithin uses results items (n + 1) a := by
  induction n generalizing a with
  | zero => exact h.elim
  | succ n ih =>
      rcases h with ⟨id, hid, hall⟩ | ⟨id, hid, hall⟩
      · exact .inl ⟨id, hid, fun b hb hmem => ih (hall b hb hmem)⟩
      · exact .inr ⟨id, hid, fun b hb hmem => ih (hall b hb hmem)⟩

/-- An item is left after a number of rounds if it is not loose within it. -/
theorem mem_iterate_dropOrphans (n : Nat) :
    a ∈ (dropOrphans uses results)^[n] items ↔
      a ∈ items ∧ ¬LooseWithin uses results items n a := by
  induction n generalizing a with
  | zero => simp [LooseWithin]
  | succ n ih =>
      rw [Function.iterate_succ_apply', mem_dropOrphans, orphaned_iff, ih]
      -- what has no other end left is what all other ends of are loose
      have hside (ends : α → List ι) (id : ι) :
          (∀ b ∈ (dropOrphans uses results)^[n] items, id ∉ ends b) ↔
            ∀ b ∈ items, id ∈ ends b → LooseWithin uses results items n b := by
        constructor
        · intro hnone b hb hmem
          by_contra hstays
          exact hnone b (ih.mpr ⟨hb, hstays⟩) hmem
        · intro hall b hb hmem
          obtain ⟨hin, hstays⟩ := ih.mp hb
          exact hstays (hall b hin hmem)
      simp only [hside]
      constructor
      · rintro ⟨⟨ha, -⟩, hloose⟩
        exact ⟨ha, hloose⟩
      · rintro ⟨ha, hloose⟩
        exact ⟨⟨ha, fun hwithin => hloose hwithin.succ⟩, hloose⟩

theorem dropOrphansRounds_eq_iterate (n : Nat) :
    dropOrphansRounds uses results n items = (dropOrphans uses results)^[n] items := by
  induction n generalizing items with
  | zero => rfl
  | succ n ih =>
      rw [dropOrphansRounds, Function.iterate_succ_apply]
      split_ifs with hany
      · exact ih
      · have hpaired := any_orphaned_eq_false.mp (Bool.eq_false_iff.mpr hany)
        have hfixed : ∀ n, (dropOrphans uses results)^[n] items = items :=
          fun n => Function.iterate_fixed hpaired.dropOrphans_eq n
        rw [hpaired.dropOrphans_eq, hfixed]

theorem Loose.of_within {n : Nat} (h : LooseWithin uses results items n a) :
    Loose uses results items a := by
  induction n generalizing a with
  | zero => exact h.elim
  | succ n ih =>
      rcases h with ⟨id, hid, hall⟩ | ⟨id, hid, hall⟩
      · exact .use id hid fun b hb hmem => ih (hall b hb hmem)
      · exact .result id hid fun b hb hmem => ih (hall b hb hmem)

/-- After the rounds there are no orphans just if no cascade is longer. -/
theorem paired_dropOrphansRounds_iff (n : Nat) :
    Paired uses results (dropOrphansRounds uses results n items) ↔
      ∀ a ∈ items, Loose uses results items a → LooseWithin uses results items n a := by
  rw [dropOrphansRounds_eq_iterate]
  constructor
  · intro hpaired a ha hloose
    -- by induction on the cascade: its ends are gone, so the item is, too
    have hgone : ∀ b, Loose uses results items b → b ∈ items →
        b ∉ (dropOrphans uses results)^[n] items := by
      intro b hb
      induction hb with
      | use id hid _ ih =>
          intro _ hmem
          have horphan := hpaired _ hmem
          rw [Bool.eq_false_iff, ne_eq, orphaned_iff] at horphan
          refine horphan (.inl ⟨id, hid, fun c hc hresult => ?_⟩)
          exact ih c ((mem_iterate_dropOrphans n).mp hc).1 hresult
            ((mem_iterate_dropOrphans n).mp hc).1 hc
      | result id hid _ ih =>
          intro _ hmem
          have horphan := hpaired _ hmem
          rw [Bool.eq_false_iff, ne_eq, orphaned_iff] at horphan
          refine horphan (.inr ⟨id, hid, fun c hc huse => ?_⟩)
          exact ih c ((mem_iterate_dropOrphans n).mp hc).1 huse
            ((mem_iterate_dropOrphans n).mp hc).1 hc
    by_contra hstays
    exact hgone a hloose ha ((mem_iterate_dropOrphans n).mpr ⟨ha, hstays⟩)
  · intro hall a ha
    rw [Bool.eq_false_iff, ne_eq]
    intro horphan
    obtain ⟨hin, hstays⟩ := (mem_iterate_dropOrphans n).mp ha
    have hnext : a ∉ (dropOrphans uses results)^[n + 1] items := by
      rw [Function.iterate_succ_apply', mem_dropOrphans]
      exact fun h => h.2 horphan
    have hwithin : LooseWithin uses results items (n + 1) a := by
      by_contra hnot
      exact hnext ((mem_iterate_dropOrphans (n + 1)).mpr ⟨hin, hnot⟩)
    exact hstays (hall a hin (.of_within hwithin))

end VirtualContext.Library
