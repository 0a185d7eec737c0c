import Mathlib.Data.List.Nodup
import Mathlib.Data.List.Perm.Subperm

/-!
# Saturation

A set, as the list of its elements in the order in which they were added, is
passed through until a pass adds nothing.
-/

namespace VirtualContext.Library

variable {α : Type} [DecidableEq α]

def addNew (set : List α) (a : α) : List α := if a ∈ set then set else set ++ [a]

def addAll (set new : List α) : List α := new.foldl addNew set

/-- The loop that ends when a pass changes nothing. -/
def saturate (pass : List α → List α) : Nat → List α → List α
  | 0, set => set
  | fuel + 1, set =>
      let next := pass set
      if next = set then set else saturate pass fuel next

/-! ## Adding elements -/

variable {set new whole : List α} {a : α}

theorem addNew_eq_self (h : a ∈ set) : addNew set a = set := if_pos h

theorem mem_addNew {b : α} : b ∈ addNew set a ↔ b ∈ set ∨ b = a := by
  unfold addNew
  split_ifs with h
  · constructor
    · exact .inl
    · rintro (hb | rfl)
      · exact hb
      · exact h
  · simp

theorem prefix_addNew (set : List α) (a : α) : set <+: addNew set a := by
  unfold addNew
  split_ifs
  · exact List.prefix_refl set
  · exact List.prefix_append set [a]

theorem nodup_addNew (h : set.Nodup) (a : α) : (addNew set a).Nodup := by
  unfold addNew
  split_ifs with hmem
  · exact h
  · exact List.nodup_append.mpr ⟨h, List.nodup_singleton a, by
      rintro b hb c hc rfl
      exact hmem (List.mem_singleton.mp hc ▸ hb)⟩

theorem mem_addAll {b : α} : b ∈ addAll set new ↔ b ∈ set ∨ b ∈ new := by
  induction new generalizing set with
  | nil => simp [addAll]
  | cons c new ih =>
      have hrest : b ∈ addAll (addNew set c) new ↔ b ∈ addNew set c ∨ b ∈ new := ih
      rw [mem_addNew, or_assoc, ← List.mem_cons] at hrest
      exact hrest

/-! ## Passes that only add -/

/-- A pass that adds elements of a whole at the end, each once. -/
structure Adds (whole : List α) (pass : List α → List α) : Prop where
  grows : ∀ set, set <+: pass set
  nodup : ∀ set, set.Nodup → (pass set).Nodup
  within : ∀ set, set ⊆ whole → pass set ⊆ whole

namespace Adds

variable {pass pass' : List α → List α}

protected theorem id : Adds whole (id : List α → List α) :=
  ⟨fun set => List.prefix_refl set, fun _ h => h, fun _ h => h⟩

theorem addNew (h : a ∈ whole) : Adds whole (addNew · a) where
  grows set := prefix_addNew set a
  nodup _ hnodup := nodup_addNew hnodup a
  within set hset b hb := by
    rcases mem_addNew.mp hb with hb | rfl
    · exact hset hb
    · exact h

theorem comp (h : Adds whole pass) (h' : Adds whole pass') :
    Adds whole fun set => pass (pass' set) where
  grows set := (h'.grows set).trans (h.grows _)
  nodup _ hnodup := h.nodup _ (h'.nodup _ hnodup)
  within _ hset := h.within _ (h'.within _ hset)

/-- A loop of passes. -/
theorem foldl {β : Type} {step : List α → β → List α} (items : List β)
    (h : ∀ item ∈ items, Adds whole (step · item)) :
    Adds whole fun set => items.foldl step set := by
  induction items with
  | nil => exact .id
  | cons item items ih =>
      have hrest := ih fun other hother => h other (List.mem_cons_of_mem _ hother)
      exact hrest.comp (h item List.mem_cons_self)

theorem ite {pass : List α → List α} {c : List α → Prop} [DecidablePred c]
    (h : Adds whole pass) : Adds whole fun set => if c set then pass set else set where
  grows set := by
    split_ifs
    · exact h.grows set
    · exact List.prefix_refl set
  nodup set hnodup := by
    split_ifs
    · exact h.nodup set hnodup
    · exact hnodup
  within set hset := by
    split_ifs
    · exact h.within set hset
    · exact hset

/-- A loop over the set itself, as it was before. -/
theorem foldl_self {step : List α → α → List α} (h : ∀ a, Adds whole (step · a)) :
    Adds whole fun set => set.foldl step set where
  grows set := (Adds.foldl set fun a _ => h a).grows set
  nodup set := (Adds.foldl set fun a _ => h a).nodup set
  within set := (Adds.foldl set fun a _ => h a).within set

theorem addAll (h : new ⊆ whole) : Adds whole (addAll · new) :=
  .foldl new fun _ hb => .addNew (h hb)

end Adds

section

variable {pass : List α → List α}

theorem subset_saturate (h : Adds whole pass) (fuel : Nat) (set : List α) :
    set ⊆ saturate pass fuel set := by
  induction fuel generalizing set with
  | zero => exact List.Subset.refl set
  | succ fuel ih =>
      rw [saturate]
      split_ifs
      · exact List.Subset.refl set
      · exact List.Subset.trans (h.grows set).subset (ih _)

theorem saturate_within (h : Adds whole pass) (fuel : Nat) (hset : set ⊆ whole) :
    saturate pass fuel set ⊆ whole := by
  induction fuel generalizing set with
  | zero => exact hset
  | succ fuel ih =>
      rw [saturate]
      split_ifs
      · exact hset
      · exact ih (h.within set hset)

/-- With a turn for each element that may be added, the loop ends saturated. -/
theorem pass_saturate (h : Adds whole pass) {fuel : Nat} (hnodup : set.Nodup)
    (hset : set ⊆ whole) (hfuel : whole.length < set.length + fuel) :
    pass (saturate pass fuel set) = saturate pass fuel set := by
  induction fuel generalizing set with
  | zero =>
      have hle := (List.subperm_of_subset hnodup hset).length_le
      omega
  | succ fuel ih =>
      rw [saturate]
      split_ifs with hfixed
      · exact hfixed
      · obtain ⟨more, hmore⟩ := h.grows set
        have hne : more ≠ [] := by
          rintro rfl
          exact hfixed (by rw [← hmore, List.append_nil])
        have hlength : set.length < (pass set).length := by
          rw [← hmore, List.length_append]
          have := List.length_pos_of_ne_nil hne
          omega
        exact ih (h.nodup set hnodup) (h.within set hset) (by omega)

theorem nodup_saturate (h : Adds whole pass) (fuel : Nat) (hnodup : set.Nodup) :
    (saturate pass fuel set).Nodup := by
  induction fuel generalizing set with
  | zero => exact hnodup
  | succ fuel ih =>
      rw [saturate]
      split_ifs
      · exact hnodup
      · exact ih (h.nodup set hnodup)

/-- Where a loop of passes changes nothing, none of its turns does. -/
theorem step_eq_of_foldl_eq {β : Type} {step : List α → β → List α} {items : List β}
    (h : ∀ item ∈ items, Adds whole (step · item))
    (hfixed : items.foldl step set = set) {item : β} (hitem : item ∈ items) :
    step set item = set := by
  induction items with
  | nil => cases hitem
  | cons first items ih =>
      rw [List.foldl_cons] at hfixed
      have hfirst : step set first = set := by
        have hgrow := ((h first List.mem_cons_self).grows set)
        have hrest := (Adds.foldl items fun other hother =>
          h other (List.mem_cons_of_mem _ hother)).grows (step set first)
        rw [hfixed] at hrest
        exact (List.IsPrefix.eq_of_length hgrow
          (Nat.le_antisymm hgrow.length_le hrest.length_le)).symm
      rcases List.mem_cons.mp hitem with rfl | hmem
      · exact hfirst
      · rw [hfirst] at hfixed
        exact ih (fun other hother => h other (List.mem_cons_of_mem _ hother)) hfixed hmem

end

end VirtualContext.Library
