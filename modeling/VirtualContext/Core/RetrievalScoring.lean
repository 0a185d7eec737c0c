import Mathlib.Algebra.Order.Field.Rat
import Mathlib.Data.List.Dedup
import Mathlib.Tactic.GCongr
import Mathlib.Tactic.Positivity
import VirtualContext.Library.Entries
import VirtualContext.Library.Ordered

/-!
# Fusing the signals of retrieval

Each signal ranks the tags that it finds.  A tag scores by its rank in every
signal, and where it is not ranked by a fixed penalty rank.
-/

namespace VirtualContext

open VirtualContext.Library

/-- The positions of tags, from 0 on. -/
abbrev Ranking := Entries String Nat

abbrev SignalRankings := Entries String Ranking

/-- `_to_ranking` -/
def toRanking (scores : Entries String ℚ) : Ranking :=
  (orderByDesc (fun tag => (scores.get tag).getD 0) scores.keys).zipIdx

section

variable (rankings : SignalRankings) (weights : Entries String ℚ) (k : Nat)

/-- The rank of a tag, which is the penalty rank if the signal does not find it. -/
def rankOf (ranking : Ranking) (tag : String) : Nat := (ranking.get tag).getD (k * 2)

def weightOf (signal : String) : ℚ := (weights.get signal).getD 0

/-- What one signal adds to the score of a tag. -/
def contribution (tag : String) (signal : String × Ranking) : ℚ :=
  weightOf weights signal.1 * (1 / (k + rankOf k signal.2 tag + 1))

def rrfScore (tag : String) : ℚ :=
  rankings.foldl (fun score signal => score + contribution weights k tag signal) 0

def rankedTags : List String := (rankings.flatMap (·.2.keys)).dedup

/-- `rrf_fuse` -/
def rrfFuse : Entries String ℚ :=
  (rankedTags rankings).map fun tag => (tag, rrfScore rankings weights k tag)

/-- The weights of `score_candidates`, and its `rrf_k`. -/
structure ScoringConfig where
  idfWeight : ℚ
  bm25Weight : ℚ
  embeddingWeight : ℚ
  rrfK : Nat := 60

/-- The fusion in `score_candidates`. -/
def fuseSignals (config : ScoringConfig) (idfScores bm25Scores embedScores : Entries String ℚ) :
    Entries String ℚ :=
  rrfFuse
    [("idf", toRanking idfScores), ("bm25", toRanking bm25Scores),
      ("embedding", toRanking embedScores)]
    [("idf", config.idfWeight), ("bm25", config.bm25Weight),
      ("embedding", config.embeddingWeight)]
    config.rrfK

end

/-- One tag is ranked no worse than another, or only the other one is not ranked. -/
def RanksAbove (ranking : Ranking) (a b : String) : Prop :=
  match ranking.get a, ranking.get b with
  | some rankA, some rankB => rankA ≤ rankB
  | some _, none => True
  | none, none => True
  | none, some _ => False

/-! ## Scores of tags that are ranked above others -/

section

variable {rankings : SignalRankings} {weights : Entries String ℚ} {k : Nat} {a b : String}

theorem get_rrfFuse {tag : String} {score : ℚ}
    (h : (rrfFuse rankings weights k).get tag = some score) :
    score = rrfScore rankings weights k tag := by
  obtain ⟨other, -, heq⟩ := List.mem_map.mp (Entries.mem_of_get h)
  obtain ⟨rfl, rfl⟩ := Prod.mk.inj heq
  rfl

theorem weightOf_nonneg (hweights : ∀ signal weight, weights.get signal = some weight →
    0 ≤ weight) (signal : String) : 0 ≤ weightOf weights signal := by
  rw [weightOf]
  cases hget : weights.get signal with
  | none => exact le_refl 0
  | some weight => exact hweights signal weight hget

/-- Up to the penalty rank, being ranked is no worse than being missed. -/
theorem rankOf_le {ranking : Ranking} (habove : RanksAbove ranking a b)
    (hpenalty : ∀ rank, ranking.get a = some rank → ranking.get b = none → rank ≤ k * 2) :
    rankOf k ranking a ≤ rankOf k ranking b := by
  rw [RanksAbove] at habove
  rw [rankOf, rankOf]
  cases ha : ranking.get a with
  | none =>
      cases hb : ranking.get b with
      | none => exact le_refl _
      | some rankB => simp [ha, hb] at habove
  | some rankA =>
      cases hb : ranking.get b with
      | none => exact hpenalty rankA ha hb
      | some rankB => simpa [ha, hb] using habove

theorem contribution_le {signal : String × Ranking} (hweight : 0 ≤ weightOf weights signal.1)
    (hrank : weightOf weights signal.1 ≠ 0 → rankOf k signal.2 a ≤ rankOf k signal.2 b) :
    contribution weights k b signal ≤ contribution weights k a signal := by
  rw [contribution, contribution]
  rcases eq_or_ne (weightOf weights signal.1) 0 with hzero | hne
  · rw [hzero, zero_mul, zero_mul]
  · have hcast : (rankOf k signal.2 a : ℚ) ≤ rankOf k signal.2 b := by
      exact_mod_cast hrank hne
    gcongr

theorem foldl_add_le {α : Type} {f g : α → ℚ} {xs : List α} (h : ∀ x ∈ xs, f x ≤ g x)
    {start start' : ℚ} (hstart : start ≤ start') :
    xs.foldl (fun sum x => sum + f x) start ≤ xs.foldl (fun sum x => sum + g x) start' := by
  induction xs generalizing start start' with
  | nil => exact hstart
  | cons x xs ih =>
      refine ih (fun y hy => h y (List.mem_cons_of_mem x hy)) ?_
      exact add_le_add hstart (h x List.mem_cons_self)

/-- A tag that every signal ranks above another, and none that counts below the penalty
rank where the other is missed, scores no less. -/
theorem rrf_fuse_monotone
    (hweights : ∀ signal weight, weights.get signal = some weight → 0 ≤ weight)
    (habove : ∀ signal ∈ rankings, RanksAbove signal.2 a b)
    (hpenalty : ∀ signal ∈ rankings, weightOf weights signal.1 ≠ 0 →
      ∀ rank, signal.2.get a = some rank → signal.2.get b = none → rank ≤ k * 2)
    {scoreA scoreB : ℚ} (ha : (rrfFuse rankings weights k).get a = some scoreA)
    (hb : (rrfFuse rankings weights k).get b = some scoreB) : scoreB ≤ scoreA := by
  rw [get_rrfFuse ha, get_rrfFuse hb, rrfScore, rrfScore]
  refine foldl_add_le (fun signal hsignal => ?_) (le_refl 0)
  refine contribution_le (weightOf_nonneg hweights signal.1) fun hne => ?_
  exact rankOf_le (habove signal hsignal) (hpenalty signal hsignal hne)

end

/-! ## A long ranking -/

/-- Two signals, of which only the first finds `late`. -/
def longRanking : SignalRankings :=
  [("idf", [("first", 0), ("second", 1), ("third", 2), ("late", 3)]),
    ("bm25", [("late", 0), ("missed", 1)])]

theorem weights_nonneg : ∀ (signal : String) (weight : ℚ),
    Entries.get [("idf", (1 : ℚ)), ("bm25", 1)] signal = some weight → 0 ≤ weight := by
  intro signal weight h
  have hmem := Entries.mem_of_get h
  simp only [List.mem_cons, Prod.mk.injEq, List.not_mem_nil, or_false] at hmem
  rcases hmem with ⟨-, rfl⟩ | ⟨-, rfl⟩ <;> decide

theorem late_ranksAbove : ∀ signal ∈ longRanking, RanksAbove signal.2 "late" "missed" := by
  intro signal hsignal
  simp only [longRanking, List.mem_cons, List.not_mem_nil, or_false] at hsignal
  rcases hsignal with rfl | rfl
  · exact True.intro
  · exact Nat.zero_le 1

theorem late_within_penalty : ∀ signal ∈ longRanking, ∀ rank,
    signal.2.get "late" = some rank → rank ≤ 2 * 2 := by
  intro signal hsignal rank h
  simp only [longRanking, List.mem_cons, List.not_mem_nil, or_false] at hsignal
  rcases hsignal with rfl | rfl
  · cases (show some 3 = some rank from h)
    decide
  · cases (show some 0 = some rank from h)
    decide

/-- With a penalty rank of four the tag that is found late still wins. -/
theorem rrf_fuse_monotone_longRanking :
    rrfScore longRanking [("idf", 1), ("bm25", 1)] 2 "missed" ≤
      rrfScore longRanking [("idf", 1), ("bm25", 1)] 2 "late" := by
  have hlate : (rrfFuse longRanking [("idf", 1), ("bm25", 1)] 2).get "late" =
      some (rrfScore longRanking [("idf", 1), ("bm25", 1)] 2 "late") := by
    decide +kernel
  have hmissed : (rrfFuse longRanking [("idf", 1), ("bm25", 1)] 2).get "missed" =
      some (rrfScore longRanking [("idf", 1), ("bm25", 1)] 2 "missed") := by
    decide +kernel
  exact rrf_fuse_monotone weights_nonneg late_ranksAbove
    (fun signal hsignal _ rank h _ => late_within_penalty signal hsignal rank h) hlate hmissed

/-- The penalty rank is better than the rank of a tag that is found late. -/
theorem late_below_missed :
    ¬ ∀ (rankings : SignalRankings) (weights : Entries String ℚ) (k : Nat) (a b : String)
      (scoreA scoreB : ℚ),
      (∀ signal weight, weights.get signal = some weight → 0 ≤ weight) →
      (∀ signal ∈ rankings, (signal.2.map (·.2)).Nodup) →
      (∀ signal ∈ rankings, RanksAbove signal.2 a b) →
      (rrfFuse rankings weights k).get a = some scoreA →
      (rrfFuse rankings weights k).get b = some scoreB → scoreB ≤ scoreA := by
  intro h
  have hlate : (rrfFuse longRanking [("idf", 1)] 1).get "late" = some (1 / 5) := by
    decide +kernel
  have hmissed : (rrfFuse longRanking [("idf", 1)] 1).get "missed" = some (1 / 4) := by
    decide +kernel
  have hweights : ∀ signal weight,
      Entries.get [("idf", (1 : ℚ))] signal = some weight → 0 ≤ weight := by
    intro signal weight hget
    have hmem := Entries.mem_of_get hget
    simp only [List.mem_singleton, Prod.mk.injEq] at hmem
    exact hmem.2 ▸ zero_le_one
  have hle := h longRanking [("idf", 1)] 1 "late" "missed" (1 / 5) (1 / 4) hweights
    (by decide) late_ranksAbove hlate hmissed
  exact absurd hle (by decide +kernel)

end VirtualContext
