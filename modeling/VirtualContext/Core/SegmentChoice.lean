import Mathlib.Data.List.MinMax
import VirtualContext.Core.SegmentTurns

/-!
# The segment that a turn joins

Of the segments that admit a turn with a score at the threshold, it joins the
one with the greatest score, the first one of several.
-/

namespace VirtualContext

/-- In a sorted list the positions are in the order of the elements. -/
theorem idxOf_le_iff_of_sorted {α : Type} [DecidableEq α] {f : α → Nat} {xs : List α} {a b : α}
    (h : xs.Pairwise (f · < f ·)) (ha : a ∈ xs) (hb : b ∈ xs) :
    xs.idxOf a ≤ xs.idxOf b ↔ f a ≤ f b := by
  have hlt : ∀ {a b : α}, a ∈ xs → b ∈ xs → xs.idxOf a < xs.idxOf b → f a < f b := by
    intro a b ha hb hidx
    have hget := List.pairwise_iff_getElem.mp h _ _ (List.idxOf_lt_length_of_mem ha)
      (List.idxOf_lt_length_of_mem hb) hidx
    rwa [List.getElem_idxOf, List.getElem_idxOf] at hget
  rcases Nat.lt_trichotomy (xs.idxOf a) (xs.idxOf b) with hidx | hidx | hidx
  · exact iff_of_true hidx.le (hlt ha hb hidx).le
  · obtain rfl := (List.idxOf_inj ha).mp hidx
    exact iff_of_true le_rfl le_rfl
  · exact iff_of_false hidx.not_ge (hlt hb ha hidx).not_ge

namespace TopicSegmenter

variable (segmenter : TopicSegmenter)

/-- The turn may join this segment, with this score. -/
def ScoredAt (library : List SegmentGroup) (turn : TaggedTurn) (i : Nat) (score : ℚ) : Prop :=
  ∃ group, library[i]? = some group ∧ segmenter.score group turn = some score ∧
    segmenter.config.tagOverlapThreshold ≤ score

/-- The segments that the turn may join, with their scores. -/
def scores (library : List SegmentGroup) (turn : TaggedTurn) : List (Nat × ℚ) :=
  library.zipIdx.filterMap fun (group, i) =>
    ((segmenter.score group turn).filter (segmenter.config.tagOverlapThreshold ≤ ·)).map (i, ·)

variable {segmenter} {library : List SegmentGroup} {turn : TaggedTurn} {i : Nat} {score : ℚ}

theorem mem_scores : (i, score) ∈ segmenter.scores library turn ↔
    segmenter.ScoredAt library turn i score := by
  simp only [scores, List.mem_filterMap, Prod.exists, Option.map_eq_some_iff,
    Option.filter_eq_some_iff, decide_eq_true_eq, Prod.mk.injEq, List.mk_mem_zipIdx_iff_getElem?,
    ScoredAt]
  constructor
  · rintro ⟨group, k, hget, s, ⟨hscore, hle⟩, rfl, rfl⟩
    exact ⟨group, hget, hscore, hle⟩
  · rintro ⟨group, hget, hscore, hle⟩
    exact ⟨group, i, hget, score, ⟨hscore, hle⟩, rfl, rfl⟩

theorem pairwise_scores : (segmenter.scores library turn).Pairwise (·.1 < ·.1) := by
  have hindices : library.zipIdx.Pairwise (·.2 < ·.2) := by
    rw [← List.pairwise_map (f := Prod.snd), List.zipIdx_map_snd]
    exact List.pairwise_lt_range'
  refine List.Pairwise.filterMap _ ?_ hindices
  rintro ⟨group, i⟩ ⟨group', j⟩ hlt ⟨i', s⟩ hi ⟨j', s'⟩ hj
  obtain ⟨_, _, heq⟩ := Option.map_eq_some_iff.mp hi
  obtain ⟨_, _, heq'⟩ := Option.map_eq_some_iff.mp hj
  obtain ⟨rfl, -⟩ := Prod.mk.inj heq
  obtain ⟨rfl, -⟩ := Prod.mk.inj heq'
  exact hlt

/-- Of the greatest scores the first one is taken. -/
theorem bestSegment_eq_argmax :
    segmenter.bestSegment library turn =
      ((segmenter.scores library turn).argmax Prod.snd).map Prod.fst := by
  rw [bestSegment, List.argmax, scores, List.foldl_filterMap]
  congr 2
  funext best entry
  obtain ⟨group, i⟩ := entry
  dsimp only
  cases segmenter.score group turn with
  | none => rfl
  | some s =>
      by_cases hle : segmenter.config.tagOverlapThreshold ≤ s
      · cases best with
        | none => simp [hle, Option.filter, List.argAux]
        | some best =>
            by_cases hlt : best.2 < s
            · simp [hle, hlt, Option.filter, List.argAux]
            · simp [hle, hlt, Option.filter, List.argAux]
      · simp [hle, Option.filter]

theorem bestSegment_eq_some_iff :
    segmenter.bestSegment library turn = some i ↔
      ∃ score, segmenter.ScoredAt library turn i score ∧
        ∀ j other, segmenter.ScoredAt library turn j other →
          other ≤ score ∧ (j < i → other < score) := by
  have hsorted := @pairwise_scores segmenter library turn
  rw [bestSegment_eq_argmax, Option.map_eq_some_iff]
  constructor
  · rintro ⟨⟨i, score⟩, hmax, rfl⟩
    obtain ⟨hmem, hle, hfirst⟩ := List.argmax_eq_some_iff.mp hmax
    refine ⟨score, mem_scores.mp hmem, fun j other hother => ?_⟩
    have hother := mem_scores.mpr hother
    refine ⟨hle _ hother, fun hlt => lt_of_le_of_ne (hle _ hother) ?_⟩
    rintro rfl
    have hindex := (idxOf_le_iff_of_sorted hsorted hmem hother).mp
      (hfirst _ hother (le_refl _))
    exact absurd hlt (Nat.not_lt.mpr hindex)
  · rintro ⟨score, hscored, hbest⟩
    refine ⟨(i, score), List.argmax_eq_some_iff.mpr ⟨mem_scores.mpr hscored, ?_, ?_⟩, rfl⟩
    · rintro ⟨j, other⟩ hother
      exact (hbest j other (mem_scores.mp hother)).1
    · rintro ⟨j, other⟩ hother hle
      refine (idxOf_le_iff_of_sorted hsorted (mem_scores.mpr hscored) hother).mpr ?_
      by_contra hlt
      exact absurd ((hbest j other (mem_scores.mp hother)).2 (Nat.not_le.mp hlt)) hle.not_gt

theorem bestSegment_eq_none_iff :
    segmenter.bestSegment library turn = none ↔
      ∀ i score, ¬ segmenter.ScoredAt library turn i score := by
  rw [bestSegment_eq_argmax, Option.map_eq_none_iff, List.argmax_eq_none]
  constructor
  · intro h i score hscored
    have hmem := mem_scores.mpr hscored
    rw [h] at hmem
    cases hmem
  · intro h
    refine List.eq_nil_iff_forall_not_mem.mpr ?_
    rintro ⟨i, score⟩ hmem
    exact h i score (mem_scores.mp hmem)

end TopicSegmenter

end VirtualContext
