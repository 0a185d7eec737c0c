import Mathlib.Init

/-!
# Chains of a partial function

Following a partial function from a point either ends after some number of
hops at a point without a successor, or comes back to a point, or both fail
within a given number of hops.
-/

namespace VirtualContext.Library

variable {α : Type} (next : α → Option α)

/-- The point that is reached after the given number of hops. -/
def hop : Nat → α → Option α
  | 0, x => some x
  | k + 1, x => (next x).bind (hop k)

/-- The chain from `x` ends at `y`, after `k` hops. -/
def EndsAt (x : α) (k : Nat) (y : α) : Prop :=
  hop next k x = some y ∧ next y = none

/-- The chain from `x` comes back to a point within `n` hops. -/
def Revisits (x : α) (n : Nat) : Prop :=
  ∃ i j, i < j ∧ j ≤ n ∧ ∃ y, hop next i x = some y ∧ hop next j x = some y

variable {next} {x y : α} {j k n : Nat}

@[simp] theorem hop_zero : hop next 0 x = some x := rfl

theorem hop_add (j k : Nat) (x : α) :
    hop next (j + k) x = (hop next j x).bind (hop next k) := by
  induction j generalizing x with
  | zero => simp
  | succ j ih =>
      rw [Nat.succ_add, hop, hop]
      cases next x with
      | none => rfl
      | some y => exact ih y

/-- One hop more at the end. -/
theorem hop_succ (k : Nat) (x : α) :
    hop next (k + 1) x = (hop next k x).bind next := by
  rw [hop_add]
  congr 1
  funext y
  simp [hop]

theorem hop_of_add (h : hop next (j + k) x = some y) :
    ∃ z, hop next j x = some z ∧ hop next k z = some y := by
  rw [hop_add] at h
  exact Option.bind_eq_some_iff.mp h

/-- Behind the end of a chain there is nothing. -/
theorem EndsAt.hop_eq_none (h : EndsAt next x k y) (hlt : k < n) :
    hop next n x = none := by
  obtain ⟨d, rfl⟩ := Nat.exists_eq_add_of_lt hlt
  rw [Nat.add_assoc, Nat.add_comm d 1, ← Nat.add_assoc, hop_add, hop_succ, h.1]
  simp [h.2]

theorem EndsAt.le (h : EndsAt next x k y) (hn : hop next n x ≠ none) : n ≤ k :=
  Nat.le_of_not_lt fun hlt => hn (h.hop_eq_none hlt)

/-- A chain ends at one point, after one number of hops. -/
theorem EndsAt.unique {k' : Nat} {y' : α} (h : EndsAt next x k y)
    (h' : EndsAt next x k' y') : k = k' ∧ y = y' := by
  obtain rfl : k = k' :=
    Nat.le_antisymm (h'.le (by simp [h.1])) (h.le (by simp [h'.1]))
  exact ⟨rfl, Option.some.inj (h.1.symm.trans h'.1)⟩

/-- A chain that ends never comes back to a point. -/
theorem EndsAt.not_revisits (h : EndsAt next x k y) (n : Nat) :
    ¬ Revisits next x n := by
  rintro ⟨i, j, hij, -, z, hi, hj⟩
  have hjk : j ≤ k := h.le (by simp [hj])
  obtain ⟨d, rfl⟩ := Nat.exists_eq_add_of_le hjk
  -- what follows the second visit also follows the first one
  have hearly : EndsAt next x (i + d) y := by
    refine ⟨?_, h.2⟩
    rw [hop_add, hi, ← hj, ← hop_add]
    exact h.1
  have := (h.unique hearly).1
  omega

theorem Revisits.mono {n' : Nat} (h : Revisits next x n) (hle : n ≤ n') :
    Revisits next x n' := by
  obtain ⟨i, j, hij, hj, hsame⟩ := h
  exact ⟨i, j, hij, Nat.le_trans hj hle, hsame⟩

/-- A chain does not come back at the next point if that point is new. -/
theorem not_revisits_succ (h : ¬ Revisits next x n)
    (hnew : ∀ i ≤ n, ∀ z, hop next i x = some z → hop next (n + 1) x ≠ some z) :
    ¬ Revisits next x (n + 1) := by
  rintro ⟨i, j, hij, hj, z, hi, hj'⟩
  rcases Nat.lt_or_eq_of_le hj with hlt | rfl
  · exact h ⟨i, j, hij, Nat.le_of_lt_succ hlt, z, hi, hj'⟩
  · exact hnew i (Nat.le_of_lt_succ hij) z hi hj'

/-! ## Chains that end inside a set -/

variable {p : α → Prop}

/-- Two functions that agree along a chain take the same hops. -/
theorem hop_congr {next' : α → Option α}
    (h : ∀ i < n, ∀ y, hop next i x = some y → next' y = next y) :
    hop next' n x = hop next n x := by
  induction n with
  | zero => rfl
  | succ n ih =>
      rw [hop_succ, hop_succ, ih fun i hi => h i (Nat.lt_succ_of_lt hi)]
      cases hy : hop next n x with
      | none => rfl
      | some y => exact h n (Nat.lt_succ_self n) y hy

theorem EndsAt.cons {z : α} (hx : next x = some z) (h : EndsAt next z k y) :
    EndsAt next x (k + 1) y := by
  refine ⟨?_, h.2⟩
  rw [hop, hx]
  exact h.1

/--
A chain comes to a point where two functions differ, the same way for both, or
never, and then it ends the same way for both.
-/
theorem EndsAt.visits_or {next' : α → Option α} {a : α} (h : EndsAt next x k y)
    (hoff : ∀ z, z ≠ a → next' z = next z) :
    (∃ j ≤ k, hop next j x = some a ∧ hop next' j x = some a) ∨
      (∀ j, hop next j x ≠ some a) ∧ EndsAt next' x k y := by
  by_cases hvisit : ∃ j, hop next j x = some a
  · obtain ⟨j, hj⟩ := hvisit
    refine .inl ⟨j, h.le (by simp [hj]), hj, ?_⟩
    rw [← hj]
    refine hop_congr fun i hi z hz => hoff z ?_
    rintro rfl
    exact h.not_revisits j ⟨i, j, hi, Nat.le_refl j, z, hz, hj⟩
  · have hnever : ∀ j, hop next j x ≠ some a := fun j hj => hvisit ⟨j, hj⟩
    have hagree (i : Nat) (z : α) (hz : hop next i x = some z) : next' z = next z := by
      apply hoff
      rintro rfl
      exact hnever i hz
    refine .inr ⟨hnever, ?_, ?_⟩
    · exact (hop_congr fun i _ => hagree i).trans h.1
    · rw [hagree k y h.1]
      exact h.2

/-- A chain that ended at a point goes one hop further, if the point gets a successor. -/
theorem EndsAt.link {next' : α → Option α} {a b : α} (h : EndsAt next x k y)
    (hoff : ∀ z, z ≠ a → next' z = next z) (ha : next' a = some b) (hb : next' b = none)
    (hend : next a = none) :
    (y = a ∧ EndsAt next' x (k + 1) b) ∨ (y ≠ a ∧ EndsAt next' x k y) := by
  rcases h.visits_or hoff with ⟨j, -, hvisit, hvisit'⟩ | ⟨hnever, hsame⟩
  · obtain ⟨rfl, rfl⟩ := h.unique ⟨hvisit, hend⟩
    refine .inl ⟨rfl, ?_, hb⟩
    rw [hop_succ, hvisit']
    exact ha
  · refine .inr ⟨?_, hsame⟩
    rintro rfl
    exact hnever k h.1

/-- What follows a point of a chain ends where the chain ends. -/
theorem EndsAt.after {z : α} (h : EndsAt next x k y) (hz : hop next j x = some z) :
    j ≤ k ∧ EndsAt next z (k - j) y := by
  have hj : j ≤ k := h.le (by simp [hz])
  refine ⟨hj, ?_, h.2⟩
  have hsplit : hop next (j + (k - j)) x = (hop next j x).bind (hop next (k - j)) :=
    hop_add j (k - j) x
  rw [Nat.add_sub_cancel' hj, h.1, hz] at hsplit
  exact hsplit.symm

/-- A point that gets a later point as its successor makes chains no longer. -/
theorem EndsAt.shortcut {next' : α → Option α} {a c : α} {m : Nat}
    (h : EndsAt next x k y) (hoff : ∀ z, z ≠ a → next' z = next z)
    (ha : next' a = some c) (hc : hop next (m + 1) a = some c) :
    ∃ k' ≤ k, EndsAt next' x k' y := by
  rcases h.visits_or hoff with ⟨j, hj, hvisit, hvisit'⟩ | ⟨-, hsame⟩
  · have hafter := (h.after hvisit).2
    obtain ⟨hm, hrest⟩ := hafter.after hc
    rcases hrest.visits_or hoff with ⟨i, -, hback, -⟩ | ⟨-, hrest'⟩
    · -- the chain would come back to the point
      refine absurd ?_ (hafter.not_revisits (m + 1 + i))
      refine ⟨0, m + 1 + i, by omega, Nat.le_refl _, a, rfl, ?_⟩
      rw [hop_add, hc]
      exact hback
    · refine ⟨j + 1 + (k - j - (m + 1)), by omega, ?_, hrest'.2⟩
      rw [hop_add, hop_succ, hvisit']
      simp only [Option.bind_some, ha]
      exact hrest'.1
  · exact ⟨k, Nat.le_refl k, hsame⟩

variable (next p) in
/-- The chain from every point of the set ends, and inside the set. -/
def Grounded : Prop := ∀ x, p x → ∃ k y, EndsAt next x k y ∧ p y

/-- No chain from the set comes back to where it started. -/
theorem Grounded.acyclic (h : Grounded next p) (hx : p x) (n : Nat) :
    hop next (n + 1) x ≠ some x := by
  intro hback
  obtain ⟨k, y, hend, -⟩ := h x hx
  exact hend.not_revisits (n + 1)
    ⟨0, n + 1, Nat.succ_pos n, Nat.le_refl _, x, rfl, hback⟩

/--
One point, perhaps a new one, gets another successor: its chains still end if
the chain from that successor does not lead back to the point.
-/
theorem Grounded.update {next' : α → Option α} {p' : α → Prop} {a : α}
    (h : Grounded next p) (hoff : ∀ x, x ≠ a → next' x = next x)
    (hp : ∀ x, p' x ↔ p x ∨ x = a)
    (ha : ∀ b, next' a = some b → p b ∧ ∀ i, hop next i b ≠ some a) :
    Grounded next' p' := by
  -- the chain from the changed point itself
  have hchanged : ∃ k y, EndsAt next' a k y ∧ p' y := by
    cases hb : next' a with
    | none => exact ⟨0, a, ⟨rfl, hb⟩, (hp a).mpr (.inr rfl)⟩
    | some b =>
        obtain ⟨hpb, havoid⟩ := ha b hb
        obtain ⟨k, y, hend, hpy⟩ := h b hpb
        have hagree (i : Nat) (z : α) (hz : hop next i b = some z) :
            next' z = next z := by
          apply hoff
          rintro rfl
          exact havoid i hz
        have hend' : EndsAt next' b k y := by
          refine ⟨(hop_congr fun i _ => hagree i).trans hend.1, ?_⟩
          rw [hagree k y hend.1]
          exact hend.2
        exact ⟨k + 1, y, hend'.cons hb, (hp y).mpr (.inl hpy)⟩
  have hold (k : Nat) : ∀ x y, p y → EndsAt next x k y →
      ∃ k' y', EndsAt next' x k' y' ∧ p' y' := by
    induction k with
    | zero =>
        intro x y hpy hend
        obtain rfl : x = y := Option.some.inj hend.1
        by_cases hxa : x = a
        · rw [hxa]
          exact hchanged
        · refine ⟨0, x, ⟨rfl, ?_⟩, (hp x).mpr (.inl hpy)⟩
          rw [hoff x hxa]
          exact hend.2
    | succ k ih =>
        intro x y hpy hend
        by_cases hxa : x = a
        · rw [hxa]
          exact hchanged
        · obtain ⟨z, hz, hrest⟩ := Option.bind_eq_some_iff.mp hend.1
          obtain ⟨k', y', hend', hpy'⟩ := ih z y hpy ⟨hrest, hend.2⟩
          refine ⟨k' + 1, y', hend'.cons ?_, hpy'⟩
          rw [hoff x hxa]
          exact hz
  intro x hx
  rcases (hp x).mp hx with hx | rfl
  · obtain ⟨k, y, hend, hpy⟩ := h x hx
    exact hold k x y hpy hend
  · exact hchanged

end VirtualContext.Library
