import Mathlib.Data.Nat.Basic
import Mathlib.Order.Basic

/-!
# Layers of a graph

Paths from seeds over points that let pass, and how far a point is from the seeds.
What is one step farther than a layer is adjacent to it and was not reached before.
-/

namespace VirtualContext.Library

variable {α : Type}

section

variable (adj : α → α → Prop) (passes seeds : α → Prop)

/-- A path of so many steps leads from a seed to the point. -/
inductive PathTo : Nat → α → Prop where
  | seed {x : α} : seeds x → PathTo 0 x
  | step {n : Nat} {x y : α} : PathTo n x → passes x → adj x y → PathTo (n + 1) y

/-- No shorter path leads to the point. -/
def AtDistance (n : Nat) (x : α) : Prop :=
  PathTo adj passes seeds n x ∧ ∀ m < n, ¬ PathTo adj passes seeds m x

end

variable {adj : α → α → Prop} {passes seeds : α → Prop} {n : Nat} {x y : α}

theorem pathTo_zero_iff : PathTo adj passes seeds 0 x ↔ seeds x :=
  ⟨fun h => by cases h; assumption, .seed⟩

theorem atDistance_zero_iff : AtDistance adj passes seeds 0 x ↔ seeds x :=
  ⟨fun h => pathTo_zero_iff.mp h.1, fun h => ⟨.seed h, fun m hm => absurd hm m.not_lt_zero⟩⟩

/-- The next layer: what is adjacent to this one and not reached so far. -/
theorem atDistance_succ_iff : AtDistance adj passes seeds (n + 1) y ↔
    (∃ x, AtDistance adj passes seeds n x ∧ passes x ∧ adj x y) ∧
      ∀ m ≤ n, ¬ PathTo adj passes seeds m y := by
  constructor
  · rintro ⟨hpath, hleast⟩
    refine ⟨?_, fun m hm => hleast m (Nat.lt_succ_of_le hm)⟩
    cases hpath with
    | step hpath hpasses hadj =>
        refine ⟨_, ⟨hpath, fun m hm hshort => ?_⟩, hpasses, hadj⟩
        exact hleast (m + 1) (Nat.succ_lt_succ hm) (.step hshort hpasses hadj)
  · rintro ⟨⟨x, hx, hpasses, hadj⟩, hnew⟩
    exact ⟨.step hx.1 hpasses hadj, fun m hm => hnew m (Nat.le_of_lt_succ hm)⟩

/-- A path to a point is no shorter than its distance. -/
theorem exists_pathTo_le_succ {k : Nat} : (∃ n ≤ k + 1, PathTo adj passes seeds n x) ↔
    (∃ n ≤ k, PathTo adj passes seeds n x) ∨ AtDistance adj passes seeds (k + 1) x := by
  constructor
  · rintro ⟨n, hle, hpath⟩
    by_cases hshort : ∃ m ≤ k, PathTo adj passes seeds m x
    · exact .inl hshort
    · rcases Nat.lt_or_eq_of_le hle with hlt | rfl
      · exact .inl ⟨n, Nat.le_of_lt_succ hlt, hpath⟩
      · exact .inr ⟨hpath, fun m hm hpath => hshort ⟨m, Nat.le_of_lt_succ hm, hpath⟩⟩
  · rintro (⟨n, hle, hpath⟩ | hdistance)
    · exact ⟨n, hle.trans (Nat.le_succ k), hpath⟩
    · exact ⟨k + 1, Nat.le_refl _, hdistance.1⟩

end VirtualContext.Library
