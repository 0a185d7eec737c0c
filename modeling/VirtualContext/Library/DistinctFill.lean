import Mathlib.Data.List.Basic
import Mathlib.Data.List.Dedup
import Mathlib.Data.List.Perm.Subperm
import Mathlib.Order.Lattice

/-!
# Filling a list with distinct keys

Elements are added to a list unless their key is there, until the list is full.
However they are chosen, the list ends as long as the limit or as the number of keys.
-/

namespace VirtualContext.Library

variable {α κ : Type} [DecidableEq κ] (key : α → κ) (limit : Nat)

/-- The list with elements that have new keys, up to the limit. -/
def addDistinct : (chosen : List α) → List α → List α
  | chosen, [] => chosen
  | chosen, x :: xs =>
      if key x ∈ chosen.map key then addDistinct chosen xs
      else if limit ≤ chosen.length + 1 then chosen ++ [x]
      else addDistinct (chosen ++ [x]) xs

/-- The chosen elements come first, and nothing is left unless the list is full. -/
structure Fills (chosen items result : List α) : Prop where
  keeps : chosen <+: result
  distinct : (result.map key).Nodup
  length_le : result.length ≤ limit
  full : result.length = limit ∨ ∀ x ∈ items, key x ∈ result.map key

variable {key limit} {chosen items result : List α}

theorem nodup_map_concat {x : α} (h : (chosen.map key).Nodup) (hx : key x ∉ chosen.map key) :
    ((chosen ++ [x]).map key).Nodup := by
  rw [List.map_append, List.map_singleton, ← List.concat_eq_append]
  exact h.concat hx

theorem isPrefix_addDistinct (chosen items : List α) : chosen <+: addDistinct key limit chosen items := by
  induction items generalizing chosen with
  | nil => exact List.prefix_rfl
  | cons x xs ih =>
      rw [addDistinct]
      split_ifs
      · exact ih chosen
      · exact List.prefix_append chosen [x]
      · exact (List.prefix_append chosen [x]).trans (ih _)

theorem mem_addDistinct {x : α} (h : x ∈ addDistinct key limit chosen items) :
    x ∈ chosen ∨ x ∈ items := by
  induction items generalizing chosen with
  | nil => exact .inl h
  | cons y ys ih =>
      have hconcat : x ∈ chosen ++ [y] → x ∈ chosen ∨ x ∈ y :: ys := by
        intro hmem
        rcases List.mem_append.mp hmem with hmem | hmem
        · exact .inl hmem
        · exact .inr (List.mem_singleton.mp hmem ▸ List.mem_cons_self)
      rw [addDistinct] at h
      split_ifs at h
      · exact (ih h).imp_right (List.mem_cons_of_mem y)
      · exact hconcat h
      · exact (ih h).elim hconcat fun hmem => .inr (List.mem_cons_of_mem y hmem)

theorem addDistinct_fills (hroom : chosen.length < limit) (hdistinct : (chosen.map key).Nodup)
    (items : List α) : Fills key limit chosen items (addDistinct key limit chosen items) := by
  induction items generalizing chosen with
  | nil => exact ⟨List.prefix_rfl, hdistinct, hroom.le, .inr (by simp)⟩
  | cons x xs ih =>
      have hlength : (chosen ++ [x]).length = chosen.length + 1 := List.length_append
      rw [addDistinct]
      split_ifs with hold hfull
      · have h := ih hroom hdistinct
        refine ⟨h.keeps, h.distinct, h.length_le, h.full.imp_right fun hall y hy => ?_⟩
        rcases List.mem_cons.mp hy with rfl | hy
        · exact (h.keeps.map key).subset hold
        · exact hall y hy
      · exact ⟨List.prefix_append chosen [x], nodup_map_concat hdistinct hold, by omega,
          .inl (by omega)⟩
      · have h := ih (by omega) (nodup_map_concat hdistinct hold)
        refine ⟨(List.prefix_append chosen [x]).trans h.keeps, h.distinct, h.length_le,
          h.full.imp_right fun hall y hy => ?_⟩
        rcases List.mem_cons.mp hy with rfl | hy
        · refine (h.keeps.map key).subset (List.mem_map_of_mem ?_)
          exact List.mem_append_right _ (List.mem_singleton.mpr rfl)
        · exact hall y hy

theorem Fills.of_concat {x : α} (h : Fills key limit (chosen ++ [x]) items result) :
    Fills key limit chosen items result :=
  ⟨(List.prefix_append chosen [x]).trans h.keeps, h.distinct, h.length_le, h.full⟩

/-- Elements with distinct keys that fit are all taken. -/
theorem append_isPrefix_addDistinct {xs : List α} (hdistinct : ((chosen ++ xs).map key).Nodup)
    (hfits : (chosen ++ xs).length ≤ limit) (ys : List α) :
    chosen ++ xs <+: addDistinct key limit chosen (xs ++ ys) := by
  induction xs generalizing chosen with
  | nil =>
      rw [List.append_nil, List.nil_append]
      exact isPrefix_addDistinct chosen ys
  | cons x xs ih =>
      rw [List.append_cons] at hdistinct hfits ⊢
      have hnew : key x ∉ chosen.map key := by
        have h := hdistinct.sublist ((List.sublist_append_left (chosen ++ [x]) xs).map key)
        rw [List.map_append, List.map_singleton] at h
        exact fun hmem => (List.nodup_append.mp h).2.2 _ hmem _ (List.mem_singleton.mpr rfl) rfl
      rw [List.cons_append, addDistinct, if_neg hnew]
      split_ifs with hfull
      · obtain rfl : xs = [] := by
          simp only [List.length_append, List.length_singleton] at hfits
          exact List.eq_nil_of_length_eq_zero (by omega)
        exact ⟨[], by simp⟩
      · exact ih hdistinct hfits

theorem isPrefix_addDistinct_nil {xs : List α} (hdistinct : (xs.map key).Nodup)
    (hfits : xs.length ≤ limit) (ys : List α) :
    xs <+: addDistinct key limit [] (xs ++ ys) := by
  have h := append_isPrefix_addDistinct (List.nil_append xs ▸ hdistinct)
    (List.nil_append xs ▸ hfits) ys
  rwa [List.nil_append] at h

/-- The length is the limit or the number of different keys, whichever is less. -/
theorem Fills.length_eq (h : Fills key limit chosen items result)
    (hmem : ∀ x ∈ result, x ∈ items) :
    result.length = min limit (items.map key).dedup.length := by
  have hsubset : result.map key ⊆ (items.map key).dedup := by
    intro k hk
    obtain ⟨x, hx, rfl⟩ := List.mem_map.mp hk
    exact List.mem_dedup.mpr (List.mem_map_of_mem (hmem x hx))
  have hle := (List.subperm_of_subset h.distinct hsubset).length_le
  rw [List.length_map] at hle
  rcases h.full with hfull | hall
  · rw [← hfull, min_eq_left hle]
  · have hback : (items.map key).dedup ⊆ result.map key := by
      intro k hk
      obtain ⟨x, hx, rfl⟩ := List.mem_map.mp (List.mem_dedup.mp hk)
      exact hall x hx
    have hge := (List.subperm_of_subset (List.nodup_dedup _) hback).length_le
    rw [List.length_map] at hge
    rw [Nat.le_antisymm hge hle, min_eq_right h.length_le]

end VirtualContext.Library
