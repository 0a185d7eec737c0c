import Mathlib.Algebra.BigOperators.Field
import Mathlib.Algebra.Order.BigOperators.Group.Finset
import Mathlib.Algebra.Order.Field.Rat
import Mathlib.NumberTheory.Harmonic.Defs
import Mathlib.Tactic.FieldSimp
import Mathlib.Tactic.Linarith
import Mathlib.Tactic.Positivity

/-!
# Greedy covers

Choosing again and again what covers most of the elements that are left.  The
cover is longer than any other by at most a harmonic factor: what the sets of
another cover have left to cover is weighted by harmonic numbers, and every
choice lowers the sum of the weights by one or more.
-/

namespace VirtualContext.Library

/-! ## Harmonic numbers -/

theorem harmonic_mono : Monotone harmonic := by
  apply monotone_nat_of_le_succ
  intro n
  rw [harmonic_succ]
  exact le_add_of_nonneg_right (by positivity)

theorem div_le_harmonic_sub (k b : ℕ) :
    (b : ℚ) / ((k + b : ℕ) : ℚ) ≤ harmonic (k + b) - harmonic k := by
  induction b with
  | zero => simp
  | succ b ih =>
      have hless : (b : ℚ) / ((k + (b + 1) : ℕ) : ℚ) ≤ (b : ℚ) / ((k + b : ℕ) : ℚ) := by
        rcases Nat.eq_zero_or_pos b with rfl | hb
        · simp
        · exact div_le_div_of_nonneg_left (by positivity)
            (by exact_mod_cast Nat.add_pos_right k hb) (by exact_mod_cast Nat.le_succ _)
      have hlast : harmonic (k + (b + 1)) =
          harmonic (k + b) + 1 / ((k + (b + 1) : ℕ) : ℚ) := by
        rw [← Nat.add_assoc, harmonic_succ, one_div]
      rw [hlast, Nat.cast_succ, add_div]
      linarith

/-! ## Greedy choices -/

section Greedy

variable {α τ : Type} [DecidableEq α] (covers : τ → Finset α)

/-- What a choice covers that no earlier one covers. -/
def newlyCovered (earlier : List τ) (t : τ) : Finset α :=
  (covers t).filter fun x => ∀ s ∈ earlier, x ∉ covers s

/-- The numbers of elements that one choice after the other newly covers. -/
def newCounts (earlier : List τ) : List τ → List ℕ
  | [] => []
  | t :: rest => (newlyCovered covers earlier t).card :: newCounts (earlier ++ [t]) rest

/-- Choices of which each covers as much as possible, and something, of what is left. -/
inductive Greedy : Finset α → List τ → Prop where
  | done {uncovered : Finset α} (h : ∀ t, covers t ∩ uncovered = ∅) :
      Greedy uncovered []
  | choose {uncovered : Finset α} {t : τ} {rest : List τ}
      (hnew : (covers t ∩ uncovered).Nonempty)
      (hbest : ∀ s, (covers s ∩ uncovered).card ≤ (covers t ∩ uncovered).card)
      (h : Greedy (uncovered \ covers t) rest) : Greedy uncovered (t :: rest)

namespace Greedy

variable {covers} {uncovered : Finset α} {choices : List τ}

theorem mem_covered (h : Greedy covers uncovered choices) {x : α} {s : τ}
    (hx : x ∈ uncovered) (hs : x ∈ covers s) : ∃ t ∈ choices, x ∈ covers t := by
  induction h with
  | done hnone =>
      have hmem := Finset.mem_inter.mpr ⟨hs, hx⟩
      rw [hnone s] at hmem
      exact absurd hmem (Finset.notMem_empty x)
  | @choose uncovered t rest _ _ _ ih =>
      by_cases ht : x ∈ covers t
      · exact ⟨t, List.mem_cons_self, ht⟩
      · obtain ⟨t', ht', hx'⟩ := ih (Finset.mem_sdiff.mpr ⟨hx, ht⟩)
        exact ⟨t', List.mem_cons_of_mem _ ht', hx'⟩

theorem inter_nonempty (h : Greedy covers uncovered choices) :
    ∀ t ∈ choices, (covers t ∩ uncovered).Nonempty := by
  induction h with
  | done => simp
  | @choose uncovered t rest hnew _ _ ih =>
      intro s hs
      rcases List.mem_cons.mp hs with rfl | hs
      · exact hnew
      · exact (ih s hs).mono (Finset.inter_subset_inter_left Finset.sdiff_subset)

theorem nodup (h : Greedy covers uncovered choices) : choices.Nodup := by
  induction h with
  | done => exact List.nodup_nil
  | @choose uncovered t rest _ _ hrest ih =>
      refine List.nodup_cons.mpr ⟨fun hmem => ?_, ih⟩
      obtain ⟨x, hx⟩ := hrest.inter_nonempty t hmem
      rw [Finset.mem_inter, Finset.mem_sdiff] at hx
      exact hx.2.2 hx.1

/-- The counts are those of the elements left, positive and not increasing. -/
theorem newCounts_spec (h : Greedy covers uncovered choices) (earlier : List τ)
    (hleft : ∀ t, newlyCovered covers earlier t = covers t ∩ uncovered) :
    (∀ n ∈ newCounts covers earlier choices,
        0 < n ∧ ∃ s, n ≤ (covers s ∩ uncovered).card) ∧
      (newCounts covers earlier choices).Pairwise (· ≥ ·) := by
  induction h generalizing earlier with
  | done => simp [newCounts]
  | @choose uncovered t rest hnew hbest _ ih =>
      have hnext : ∀ s, newlyCovered covers (earlier ++ [t]) s =
          covers s ∩ (uncovered \ covers t) := by
        intro s
        ext x
        have hx := Finset.ext_iff.mp (hleft s) x
        simp only [newlyCovered, Finset.mem_filter, Finset.mem_inter] at hx
        simp only [newlyCovered, Finset.mem_filter, Finset.mem_inter, Finset.mem_sdiff,
          List.forall_mem_append, List.forall_mem_singleton]
        rw [← and_assoc, hx, and_assoc]
      obtain ⟨hcounts, hsorted⟩ := ih _ hnext
      have hless : ∀ n ∈ newCounts covers (earlier ++ [t]) rest,
          0 < n ∧ ∃ s, n ≤ (covers s ∩ uncovered).card := by
        intro n hn
        obtain ⟨hpos, s, hs⟩ := hcounts n hn
        exact ⟨hpos, s, hs.trans (Finset.card_le_card
          (Finset.inter_subset_inter_left Finset.sdiff_subset))⟩
      rw [newCounts, hleft t]
      constructor
      · rw [List.forall_mem_cons]
        exact ⟨⟨hnew.card_pos, t, le_rfl⟩, hless⟩
      · refine List.pairwise_cons.mpr ⟨fun n hn => ?_, hsorted⟩
        obtain ⟨-, s, hs⟩ := hless n hn
        exact hs.trans (hbest s)

/-! ## The harmonic bound -/

/-- What the sets of a cover have left, weighted by harmonic numbers. -/
def potential (covers : τ → Finset α) (cover : Finset τ) (uncovered : Finset α) : ℚ :=
  ∑ s ∈ cover, harmonic (covers s ∩ uncovered).card

/-- A best choice lowers the potential of every cover by one or more. -/
theorem one_le_potential_sub {cover : Finset τ} {t : τ}
    (hnew : (covers t ∩ uncovered).Nonempty)
    (hbest : ∀ s, (covers s ∩ uncovered).card ≤ (covers t ∩ uncovered).card)
    (hcover : ∀ x ∈ covers t ∩ uncovered, ∃ s ∈ cover, x ∈ covers s) :
    1 ≤ potential covers cover uncovered - potential covers cover (uncovered \ covers t) := by
  have hpos : (0 : ℚ) < (covers t ∩ uncovered).card := by exact_mod_cast hnew.card_pos
  have hall : (covers t ∩ uncovered).card ≤
      ∑ s ∈ cover, ((covers s ∩ uncovered) ∩ covers t).card := by
    refine le_trans (Finset.card_le_card fun x hx => ?_) Finset.card_biUnion_le
    obtain ⟨s, hs, hxs⟩ := hcover x hx
    rw [Finset.mem_inter] at hx
    exact Finset.mem_biUnion.mpr ⟨s, hs, by simp [hxs, hx.1, hx.2]⟩
  have hshare : ∀ s ∈ cover,
      (((covers s ∩ uncovered) ∩ covers t).card : ℚ) / (covers t ∩ uncovered).card ≤
        harmonic (covers s ∩ uncovered).card -
          harmonic (covers s ∩ (uncovered \ covers t)).card := by
    intro s _
    have hsplit : (covers s ∩ (uncovered \ covers t)).card +
        ((covers s ∩ uncovered) ∩ covers t).card = (covers s ∩ uncovered).card := by
      rw [← Finset.inter_sdiff_assoc, add_comm]
      exact Finset.card_inter_add_card_sdiff _ _
    have hle := div_le_harmonic_sub (covers s ∩ (uncovered \ covers t)).card
      ((covers s ∩ uncovered) ∩ covers t).card
    rw [hsplit] at hle
    refine le_trans ?_ hle
    rcases Nat.eq_zero_or_pos (covers s ∩ uncovered).card with hzero | hsome
    · have hnone : ((covers s ∩ uncovered) ∩ covers t).card = 0 := by omega
      rw [hnone, Nat.cast_zero, zero_div, zero_div]
    · exact div_le_div_of_nonneg_left (by positivity) (by exact_mod_cast hsome)
        (by exact_mod_cast hbest s)
  calc (1 : ℚ)
      ≤ (∑ s ∈ cover, ((covers s ∩ uncovered) ∩ covers t).card : ℕ) /
          (covers t ∩ uncovered).card := by
        rw [le_div_iff₀ hpos, one_mul]
        exact_mod_cast hall
    _ = ∑ s ∈ cover, (((covers s ∩ uncovered) ∩ covers t).card : ℚ) /
          (covers t ∩ uncovered).card := by
        rw [Nat.cast_sum, Finset.sum_div]
    _ ≤ _ := by
        rw [potential, potential, ← Finset.sum_sub_distrib]
        exact Finset.sum_le_sum hshare

theorem length_le_potential (h : Greedy covers uncovered choices) {cover : Finset τ}
    (hcover : ∀ t, ∀ x ∈ covers t ∩ uncovered, ∃ s ∈ cover, x ∈ covers s) :
    (choices.length : ℚ) ≤ potential covers cover uncovered := by
  induction h with
  | done hnone => simp [potential, hnone]
  | @choose uncovered t rest hnew hbest _ ih =>
      have hstep := one_le_potential_sub hnew hbest (hcover t)
      have hrest := ih fun t' x hx => hcover t' x
        (Finset.inter_subset_inter_left Finset.sdiff_subset hx)
      rw [List.length_cons, Nat.cast_succ]
      linarith

/-- A greedy cover is at most harmonically longer than any other. -/
theorem length_le (h : Greedy covers uncovered choices) {cover : Finset τ} {m : ℕ}
    (hcover : ∀ t, ∀ x ∈ covers t ∩ uncovered, ∃ s ∈ cover, x ∈ covers s)
    (hm : ∀ t, (covers t).card ≤ m) :
    (choices.length : ℚ) ≤ harmonic m * cover.card := by
  refine (h.length_le_potential hcover).trans ?_
  calc potential covers cover uncovered
      ≤ ∑ _s ∈ cover, harmonic m := by
        refine Finset.sum_le_sum fun s _ => harmonic_mono ?_
        exact (Finset.card_le_card Finset.inter_subset_left).trans (hm s)
    _ = harmonic m * cover.card := by
        rw [Finset.sum_const, nsmul_eq_mul, mul_comm]

end Greedy

end Greedy

end VirtualContext.Library
