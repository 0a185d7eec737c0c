import Mathlib.Data.List.Lex
import Mathlib.Data.Prod.Lex
import VirtualContext.Core.CompactionPipeline
import VirtualContext.Library.Ordered
import VirtualContext.Proxy.FillPass

/-!
# Queries for summaries

The queries read one conversation, or all of them if none is given.  They list
every segment once, with the columns of its row.
-/

namespace VirtualContext

open VirtualContext.Library

/-- A summary with its counts and times. -/
structure CountedSummary extends StoredSummary where
  summaryTokens : Int := 0
  fullTokens : Int := 0
  createdAt : String := ""
  startTimestamp : String := ""
  endTimestamp : String := ""
  deriving DecidableEq, Repr

/-- `_row_to_summary` -/
def StoredSegment.toSummary (row : StoredSegment) : CountedSummary where
  ref := row.ref
  primaryTag := row.primaryTag
  tags := row.tags
  summary := row.summary
  sessionDate := row.metadata.sessionDate
  codeRefs := row.metadata.codeRefs
  summaryTokens := row.summaryTokens
  fullTokens := row.fullTokens
  createdAt := row.createdAt
  startTimestamp := row.startTimestamp
  endTimestamp := row.endTimestamp

/-- The conversations that are read. -/
def inScope (scope : Option ConversationId) (owner : ConversationId) : Bool :=
  scope.all fun conversationId => owner = conversationId

namespace Tables

/-- `get_summaries_by_tags` -/
def summariesByTags (t : Tables) (tags : List String) (minOverlap limit : Nat)
    (scope : Option ConversationId) : List CountedSummary :=
  if tags.isEmpty then []
  else
    let matching := t.segments.filter fun segment =>
      inScope scope segment.conversationId && decide (0 < overlapCount tags segment) &&
        decide (minOverlap ≤ overlapCount tags segment)
    -- the groups of `GROUP BY s.ref` come in the order of their references
    ((orderByDesc (fun segment => toLex (overlapCount tags segment, segment.createdAt.toList))
      (orderBy (·.ref.toList) matching)).take limit).map (·.toSummary)

/-- `search`, for the references that the full-text index ranks. -/
def searchSummaries (t : Tables) (ranked : List String) (limit : Nat)
    (scope : Option ConversationId) : List CountedSummary :=
  ((ranked.filterMap fun ref => t.segments.find? fun segment =>
    segment.ref = ref && inScope scope segment.conversationId).take limit).map (·.toSummary)

/-- `get_segment` -/
def getSegment (t : Tables) (ref : String) (scope : Option ConversationId) :
    Option StoredSegment :=
  (t.segments.find? fun segment =>
    segment.ref = ref && inScope scope segment.conversationId).map (·.toStoredSegment)

/-- `get_all_tag_summaries` -/
def allTagSummaries (t : Tables) (scope : Option ConversationId) : List TagSummaryRecord :=
  orderByDesc (·.updatedAt.toList) (t.tagSummaries.filter (inScope scope ·.conversationId))

end Tables

/-! ## What the queries list -/

section

variable {t : Tables} {scope : Option ConversationId} {tags : List String}
  {minOverlap limit : Nat}

theorem refs_toSummary (rows : List SegmentRecord) :
    (rows.map (·.toSummary)).map (·.ref) = rows.map (·.ref) := by
  rw [List.map_map]
  rfl

theorem mem_summariesByTags {summary : CountedSummary}
    (h : summary ∈ t.summariesByTags tags minOverlap limit scope) :
    ∃ row ∈ t.segments, summary = row.toSummary ∧ inScope scope row.conversationId = true ∧
      0 < overlapCount tags row := by
  unfold Tables.summariesByTags at h
  split_ifs at h
  · cases h
  · obtain ⟨row, hrow, rfl⟩ := List.mem_map.mp h
    have hfilter := (mem_orderBy _).mp
      ((orderByDesc_perm _).mem_iff.mp (List.mem_of_mem_take hrow))
    obtain ⟨hmem, hmatch⟩ := List.mem_filter.mp hfilter
    simp only [Bool.and_eq_true, decide_eq_true_eq] at hmatch
    exact ⟨row, hmem, rfl, hmatch.1.1, hmatch.1.2⟩

theorem nodup_summariesByTags (hrefs : (t.segments.map (·.ref)).Nodup) :
    ((t.summariesByTags tags minOverlap limit scope).map (·.ref)).Nodup := by
  unfold Tables.summariesByTags
  split_ifs
  · exact List.nodup_nil
  · dsimp only
    rw [refs_toSummary]
    refine List.Nodup.sublist ((List.take_sublist _ _).map _) ?_
    rw [((orderByDesc_perm _).map _).nodup_iff, ((orderBy_perm _ _).map _).nodup_iff]
    exact hrefs.sublist (List.filter_sublist.map _)

theorem mem_searchSummaries {ranked : List String} {summary : CountedSummary}
    (h : summary ∈ t.searchSummaries ranked limit scope) :
    ∃ row ∈ t.segments, summary = row.toSummary := by
  obtain ⟨row, hrow, rfl⟩ := List.mem_map.mp h
  obtain ⟨ref, -, hfind⟩ := List.mem_filterMap.mp (List.mem_of_mem_take hrow)
  exact ⟨row, List.mem_of_find?_eq_some hfind, rfl⟩

theorem nodup_searchSummaries {ranked : List String} (hranked : ranked.Nodup) :
    ((t.searchSummaries ranked limit scope).map (·.ref)).Nodup := by
  rw [Tables.searchSummaries, refs_toSummary]
  refine List.Nodup.sublist ((List.take_sublist _ _).map _) ?_
  refine List.pairwise_map.mpr (List.Pairwise.filterMap _ ?_ hranked)
  intro ref ref' hne row hrow row' hrow' heq
  have href := List.find?_some hrow
  have href' := List.find?_some hrow'
  simp only [Bool.and_eq_true, decide_eq_true_eq] at href href'
  exact hne (href.1.symm.trans (heq.trans href'.1))

/-- The key of `tag_summaries` tells the tags of one conversation apart. -/
theorem nodup_allTagSummaries {conversationId : ConversationId}
    (hkeys : (t.tagSummaries.map fun row => (row.tag, row.conversationId)).Nodup) :
    ((t.allTagSummaries (some conversationId)).map (·.tag)).Nodup := by
  rw [Tables.allTagSummaries, ((orderByDesc_perm _).map _).nodup_iff]
  refine List.pairwise_map.mpr ?_
  refine ((List.pairwise_map.mp hkeys).sublist List.filter_sublist).imp_of_mem ?_
  intro row row' hrow hrow' hne htag
  have howner := (List.mem_filter.mp hrow).2
  have howner' := (List.mem_filter.mp hrow').2
  simp only [inScope, Option.all_some, decide_eq_true_eq] at howner howner'
  exact hne (Prod.ext htag (howner.trans howner'.symm))

end

end VirtualContext
