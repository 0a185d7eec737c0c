import Mathlib.Algebra.GroupWithZero.Nat
import Mathlib.Data.List.Forall2
import Mathlib.Data.List.Infix

/-!
# Flattened lists

The parts of a list that was made of lists: where an element comes from, which
infix a part is, and when the parts can be told from what they make up.
-/

namespace VirtualContext.Library

/-! ## Parts -/

/-- Where an element of a flattened list comes from. -/
theorem getElem?_flatten_iff {α : Type} {xss : List (List α)} {i : Nat} {x : α} :
    xss.flatten[i]? = some x ↔ ∃ r k, ∃ xs ∈ xss[r]?, xs[k]? = some x ∧
      i = ((xss.take r).map List.length).sum + k := by
  induction xss generalizing i with
  | nil => simp
  | cons xs xss ih =>
      rw [List.flatten_cons]
      constructor
      · intro h
        by_cases hi : i < xs.length
        · rw [List.getElem?_append_left hi] at h
          exact ⟨0, i, xs, rfl, h, by simp⟩
        · rw [List.getElem?_append_right (Nat.not_lt.mp hi)] at h
          obtain ⟨r, k, ys, hys, hx, hk⟩ := ih.mp h
          refine ⟨r + 1, k, ys, hys, hx, ?_⟩
          rw [List.take_succ_cons, List.map_cons, List.sum_cons]
          omega
      · rintro ⟨r, k, ys, hys, hx, rfl⟩
        cases r with
        | zero =>
            obtain rfl := Option.some.inj hys
            have hk := (List.getElem?_eq_some_iff.mp hx).1
            simpa [List.getElem?_append_left hk] using hx
        | succ r =>
            rw [List.take_succ_cons, List.map_cons, List.sum_cons, Nat.add_assoc,
              List.getElem?_append_right (Nat.le_add_right _ _), Nat.add_sub_cancel_left]
            exact ih.mpr ⟨r, k, ys, hys, hx, rfl⟩

theorem infix_flatten_of_mem {α : Type} {groups : List (List α)} {group : List α}
    (h : group ∈ groups) : group <:+: groups.flatten := by
  obtain ⟨before, after, rfl⟩ := List.append_of_mem h
  exact ⟨before.flatten, after.flatten, by simp⟩

/-- Lists that make up a mapped list are mapped themselves. -/
theorem exists_map_of_flatten_eq {α β : Type} {f : α → β} {groups : List (List β)} {xs : List α}
    (h : groups.flatten = xs.map f) :
    ∃ parts : List (List α), groups = parts.map (List.map f) ∧ parts.flatten = xs := by
  induction groups generalizing xs with
  | nil => exact ⟨[], rfl, by simpa using h⟩
  | cons group groups ih =>
      rw [List.flatten_cons, eq_comm, List.map_eq_append_iff] at h
      obtain ⟨part, rest, rfl, rfl, hrest⟩ := h
      obtain ⟨parts, rfl, rfl⟩ := ih hrest.symm
      exact ⟨part :: parts, rfl, rfl⟩

/-- Parts are told apart by what they make up. -/
theorem eq_of_flatMap_eq {α β : Type} {f : α → List β} {xs ys : List (List α)}
    (hne : ∀ a ∈ xs.flatten, f a ≠ []) (hflatten : xs.flatten = ys.flatten)
    (h : List.Forall₂ (fun x y => x.flatMap f = y.flatMap f) xs ys) : xs = ys := by
  have hnil : ∀ zs : List α, (∀ a ∈ zs, f a ≠ []) → zs.flatMap f = [] → zs = [] := by
    intro zs hzs hempty
    by_contra hcons
    obtain ⟨a, ha⟩ := List.exists_mem_of_ne_nil _ hcons
    exact hzs a ha (List.flatMap_eq_nil_iff.mp hempty a ha)
  induction h with
  | nil => rfl
  | @cons x y xs ys hxy _ ih =>
      rw [List.flatten_cons] at hne
      rw [List.flatten_cons, List.flatten_cons] at hflatten
      have hsame : x = y ∧ xs.flatten = ys.flatten := by
        rcases List.append_eq_append_iff.mp hflatten with ⟨more, rfl, hrest⟩ | ⟨more, rfl, hrest⟩
        · have hmore : more = [] := by
            refine hnil more (fun a ha => hne a ?_) ?_
            · rw [hrest]
              exact List.mem_append_right _ (List.mem_append_left _ ha)
            · simpa using hxy
          subst hmore
          exact ⟨(List.append_nil x).symm, by simpa using hrest⟩
        · have hmore : more = [] := by
            refine hnil more (fun a ha => hne a ?_) ?_
            · exact List.mem_append_left _ (List.mem_append_right _ ha)
            · simpa using hxy
          subst hmore
          exact ⟨List.append_nil y, by simpa using hrest.symm⟩
      rw [hsame.1, ih (fun a ha => hne a (List.mem_append_right _ ha)) hsame.2]

/-! ## Joined texts -/

theorem mem_intersperse_of_mem {α : Type} {sep x : α} {xs : List α} (h : x ∈ xs) :
    x ∈ xs.intersperse sep := by
  induction xs with
  | nil => cases h
  | cons y xs ih =>
      cases xs with
      | nil => exact h
      | cons z xs =>
          rw [List.intersperse_cons₂]
          rcases List.mem_cons.mp h with rfl | h
          · exact List.mem_cons_self
          · exact List.mem_cons_of_mem _ (List.mem_cons_of_mem _ (ih h))

theorem infix_intercalate {α : Type} {sep x : List α} {xs : List (List α)} (h : x ∈ xs) :
    x <:+: sep.intercalate xs :=
  infix_flatten_of_mem (mem_intersperse_of_mem h)

end VirtualContext.Library
