import Mathlib.Algebra.Ring.Int.Defs
import Mathlib.Data.List.Basic
import Mathlib.Data.List.Nodup

/-!
# Choices within a budget

Elements with costs are chosen one by one while they fit.  What was refused once
costs more than what is left, and less is left later, so it is never chosen.
-/

namespace VirtualContext.Library

variable {α κ : Type} (key : α → κ) (cost : α → Int) (budget : Int)

/-- What was chosen, what was refused, and the cost of what was chosen. -/
structure BudgetedChoice (chosen refused : List α) (total : Int) : Prop where
  total_eq : total = (chosen.map cost).sum
  total_le : total ≤ budget
  distinct : (chosen.map key).Nodup
  refused_over : ∀ x ∈ refused, budget < total + cost x
  apart : ∀ x ∈ refused, key x ∉ chosen.map key

variable {key cost budget} {chosen refused : List α} {total : Int} {x : α}

namespace BudgetedChoice

theorem nil (hbudget : 0 ≤ budget) : BudgetedChoice key cost budget [] [] 0 where
  total_eq := rfl
  total_le := hbudget
  distinct := List.nodup_nil
  refused_over := by simp
  apart := by simp

/-- An element that fits is none that was refused. -/
theorem choose (h : BudgetedChoice key cost budget chosen refused total)
    (hnew : key x ∉ chosen.map key) (hfits : total + cost x ≤ budget) (hcost : 0 ≤ cost x)
    (hsame : ∀ y ∈ refused, key y = key x → cost y = cost x) :
    BudgetedChoice key cost budget (chosen ++ [x]) refused (total + cost x) where
  total_eq := by
    rw [List.map_append, List.sum_append, ← h.total_eq]
    simp
  total_le := hfits
  distinct := by
    rw [List.map_append, List.map_singleton, ← List.concat_eq_append]
    exact h.distinct.concat hnew
  refused_over := by
    intro y hy
    have hover := h.refused_over y hy
    omega
  apart := by
    intro y hy hmem
    rw [List.map_append, List.map_singleton, List.mem_append, List.mem_singleton] at hmem
    rcases hmem with hmem | hkey
    · exact h.apart y hy hmem
    · have hover := h.refused_over y hy
      rw [hsame y hy hkey] at hover
      omega

theorem refuse (h : BudgetedChoice key cost budget chosen refused total)
    (hnew : key x ∉ chosen.map key) (hover : budget < total + cost x) :
    BudgetedChoice key cost budget chosen (refused ++ [x]) total where
  total_eq := h.total_eq
  total_le := h.total_le
  distinct := h.distinct
  refused_over := by
    intro y hy
    rcases List.mem_append.mp hy with hy | hy
    · exact h.refused_over y hy
    · rwa [List.mem_singleton.mp hy]
  apart := by
    intro y hy
    rcases List.mem_append.mp hy with hy | hy
    · exact h.apart y hy
    · rwa [List.mem_singleton.mp hy]

end BudgetedChoice

/-! ## Taking while it fits -/

variable (cost budget)

/-- The elements up to the first that does not fit, and the total with them. -/
def takeFitting : (total : Int) → List α → List α × Int
  | total, [] => ([], total)
  | total, x :: xs =>
      if budget < total + cost x then ([], total)
      else
        let taken := takeFitting (total + cost x) xs
        (x :: taken.1, taken.2)

variable {cost budget}

theorem takeFitting_sublist (total : Int) (xs : List α) :
    (takeFitting cost budget total xs).1.Sublist xs := by
  induction xs generalizing total with
  | nil => exact List.Sublist.slnil
  | cons x xs ih =>
      rw [takeFitting]
      split_ifs
      · exact List.nil_sublist _
      · exact (ih _).cons_cons x

/-- What is taken costs no more than what was left. -/
theorem le_of_mem_takeFitting {xs : List α} (hcost : ∀ y ∈ xs, 0 ≤ cost y)
    (h : x ∈ (takeFitting cost budget total xs).1) : total + cost x ≤ budget := by
  induction xs generalizing total with
  | nil => cases h
  | cons y xs ih =>
      rw [takeFitting] at h
      split_ifs at h with hover
      · cases h
      · rcases List.mem_cons.mp h with rfl | h
        · omega
        · have hle := ih (fun z hz => hcost z (List.mem_cons_of_mem y hz)) h
          have hy := hcost y List.mem_cons_self
          omega

theorem BudgetedChoice.takeFitting {xs : List α} (h : BudgetedChoice key cost budget chosen refused total)
    (hcost : ∀ y ∈ xs, 0 ≤ cost y) (hkeys : (xs.map key).Nodup)
    (hnew : ∀ y ∈ xs, key y ∉ chosen.map key)
    (hsame : ∀ y ∈ refused, ∀ z ∈ xs, key y = key z → cost y = cost z) :
    BudgetedChoice key cost budget (chosen ++ (takeFitting cost budget total xs).1) refused
      (takeFitting cost budget total xs).2 := by
  induction xs generalizing chosen total with
  | nil =>
      rw [Library.takeFitting, List.append_nil]
      exact h
  | cons x xs ih =>
      rw [Library.takeFitting]
      split_ifs with hover
      · rw [List.append_nil]
        exact h
      · obtain ⟨hx, hkeys⟩ := List.nodup_cons.mp hkeys
        have hchoose := h.choose (hnew x List.mem_cons_self) (Int.not_lt.mp hover)
          (hcost x List.mem_cons_self) fun y hy => hsame y hy x List.mem_cons_self
        have hrest := ih hchoose (fun y hy => hcost y (List.mem_cons_of_mem x hy)) hkeys ?_
          fun y hy z hz => hsame y hy z (List.mem_cons_of_mem x hz)
        · rwa [List.append_assoc] at hrest
        · intro y hy hmem
          rw [List.map_append, List.map_singleton, List.mem_append, List.mem_singleton] at hmem
          rcases hmem with hmem | hkey
          · exact hnew y (List.mem_cons_of_mem x hy) hmem
          · exact hx (hkey ▸ List.mem_map_of_mem hy)

end VirtualContext.Library
