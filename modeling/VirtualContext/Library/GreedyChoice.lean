import Mathlib.Data.List.Basic
import Mathlib.Order.Basic

/-!
# Greedy choices under a budget

Candidates are taken in order, each if it is eligible and the budget that is left
holds it.
-/

namespace VirtualContext.Library

variable {α : Type} {eligible : α → Prop} {cost : α → Int}

inductive GreedyChoice (eligible : α → Prop) (cost : α → Int) :
    (budget : Int) → (candidates chosen : List α) → Prop where
  | nil {budget : Int} : GreedyChoice eligible cost budget [] []
  | take {budget : Int} {x : α} {xs chosen : List α} :
      eligible x → cost x ≤ budget → GreedyChoice eligible cost (budget - cost x) xs chosen →
        GreedyChoice eligible cost budget (x :: xs) (x :: chosen)
  | pass {budget : Int} {x : α} {xs chosen : List α} :
      ¬ (eligible x ∧ cost x ≤ budget) → GreedyChoice eligible cost budget xs chosen →
        GreedyChoice eligible cost budget (x :: xs) chosen

namespace GreedyChoice

variable {budget : Int} {candidates chosen chosen' : List α}

theorem sublist (h : GreedyChoice eligible cost budget candidates chosen) :
    chosen.Sublist candidates := by
  induction h with
  | nil => exact .slnil
  | take _ _ _ ih => exact ih.cons_cons _
  | pass _ _ ih => exact ih.cons _

theorem eligible_of_mem (h : GreedyChoice eligible cost budget candidates chosen) :
    ∀ x ∈ chosen, eligible x := by
  induction h with
  | nil => nofun
  | take hx _ _ ih => exact List.forall_mem_cons.mpr ⟨hx, ih⟩
  | pass _ _ ih => exact ih

theorem unique (h : GreedyChoice eligible cost budget candidates chosen)
    (h' : GreedyChoice eligible cost budget candidates chosen') : chosen = chosen' := by
  induction h generalizing chosen' with
  | nil =>
      cases h'
      rfl
  | take hx hfits _ ih =>
      cases h' with
      | take _ _ h' => rw [ih h']
      | pass hpass _ => exact absurd ⟨hx, hfits⟩ hpass
  | pass hpass _ ih =>
      cases h' with
      | take hx hfits _ => exact absurd ⟨hx, hfits⟩ hpass
      | pass _ h' => exact ih h'

end GreedyChoice

end VirtualContext.Library
