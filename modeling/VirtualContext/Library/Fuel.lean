import Mathlib.Data.List.Forall2
import Mathlib.Order.Lattice

/-!
# Loops with fuel

A loop that may run on is a function of the steps it is given, with no result when
they run out.  It ends if some number of steps is enough, and so does what is
composed of loops that end.
-/

namespace VirtualContext.Library

variable {α β σ : Type}

/-- From some number of steps on the result is `a`. -/
def Ends (run : Nat → Option α) (a : α) : Prop :=
  ∃ enough, ∀ steps, enough ≤ steps → run steps = some a

namespace Ends

theorem pure (a : α) : Ends (fun _ => some a) a := ⟨0, fun _ _ => rfl⟩

theorem bind {run : Nat → Option α} {next : Nat → α → Option β} {a : α} {b : β}
    (h : Ends run a) (hnext : Ends (fun steps => next steps a) b) :
    Ends (fun steps => (run steps).bind (next steps)) b := by
  obtain ⟨enough, hrun⟩ := h
  obtain ⟨enough', hnext⟩ := hnext
  refine ⟨max enough enough', fun steps hsteps => ?_⟩
  dsimp only
  rw [hrun steps ((Nat.le_max_left _ _).trans hsteps), Option.bind_some]
  exact hnext steps ((Nat.le_max_right _ _).trans hsteps)

theorem map {run : Nat → Option α} {a : α} (h : Ends run a) (f : α → β) :
    Ends (fun steps => (run steps).map f) (f a) := by
  obtain ⟨enough, hrun⟩ := h
  refine ⟨enough, fun steps hsteps => ?_⟩
  dsimp only
  rw [hrun steps hsteps, Option.map_some]

/-- A walk ends if each of its steps does, from the states that an invariant allows. -/
theorem foldlM {I : σ → Prop} {step : Nat → σ → α → Option σ} {result : σ → α → σ}
    (hstep : ∀ s, I s → ∀ x, Ends (fun steps => step steps s x) (result s x))
    (hkeeps : ∀ s, I s → ∀ x, I (result s x)) (xs : List α) {s : σ}
    (hs : I s) :
    Ends (fun steps => xs.foldlM (step steps) s) (xs.foldl result s) := by
  induction xs generalizing s with
  | nil => exact .pure s
  | cons x xs ih => exact (hstep s hs x).bind (ih (hkeeps s hs x))

theorem mapM {f : Nat → α → Option β} {r : α → β → Prop} {xs : List α}
    (h : ∀ x ∈ xs, ∃ y, Ends (fun steps => f steps x) y ∧ r x y) :
    ∃ ys, Ends (fun steps => xs.mapM (f steps)) ys ∧ List.Forall₂ r xs ys := by
  induction xs with
  | nil => exact ⟨[], .pure [], .nil⟩
  | cons x xs ih =>
      obtain ⟨hx, hxs⟩ := List.forall_mem_cons.mp h
      obtain ⟨y, hy, hr⟩ := hx
      obtain ⟨ys, hys, hrs⟩ := ih hxs
      refine ⟨y :: ys, ?_, .cons hr hrs⟩
      simp only [List.mapM_cons]
      exact hy.bind (hys.bind (.pure (y :: ys)))

end Ends

/-- What every step keeps is kept by a loop that does not fail. -/
theorem foldlM_keeps {step : σ → α → Option σ} {P : σ → Prop}
    (hstep : ∀ s a s', P s → step s a = some s' → P s') {xs : List α} {s s' : σ} (h : P s)
    (hrun : xs.foldlM step s = some s') : P s' := by
  induction xs generalizing s with
  | nil =>
      obtain rfl := Option.some.inj hrun
      exact h
  | cons x xs ih =>
      rw [List.foldlM_cons] at hrun
      obtain ⟨middle, hmiddle, hrest⟩ := Option.bind_eq_some_iff.mp hrun
      exact ih (hstep s x middle h hmiddle) hrest

/-- A loop whose steps do not fail does not fail. -/
theorem foldlM_completes {step : σ → α → Option σ} {xs : List α}
    (hstep : ∀ s, ∀ a ∈ xs, ∃ s', step s a = some s') (s : σ) :
    ∃ s', xs.foldlM step s = some s' := by
  induction xs generalizing s with
  | nil => exact ⟨s, rfl⟩
  | cons x xs ih =>
      obtain ⟨middle, hmiddle⟩ := hstep s x List.mem_cons_self
      obtain ⟨s', hs'⟩ := ih (fun s a ha => hstep s a (List.mem_cons_of_mem _ ha)) middle
      exact ⟨s', by rw [List.foldlM_cons, hmiddle, Option.bind_eq_bind, Option.bind_some, hs']⟩

end VirtualContext.Library
