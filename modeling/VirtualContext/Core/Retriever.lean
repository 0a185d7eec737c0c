import Mathlib.Algebra.Order.Floor.Defs
import Mathlib.Algebra.Order.Ring.Unbundled.Rat
import VirtualContext.Core.TagConsolidator
import VirtualContext.Core.TaggingPipeline
import VirtualContext.Library.BudgetedChoice
import VirtualContext.Storage.SummaryQueries

/-!
# Retrieving summaries

The tags of a message are looked up in the store.  Summaries are selected within a
budget, with those of aliases, or from a text search or the tag summaries if
nothing else was found.  What does not fit at first is never selected later.
-/

namespace VirtualContext

open VirtualContext.Library

/-! ## The retriever -/

structure StrategyConfig where
  maxResults : Nat := 10
  maxBudgetFraction : ℚ := 1 / 4
  fraction_pos : 0 < maxBudgetFraction := by decide +kernel

structure RetrieverConfig where
  skipActiveTags : Bool := true
  tagContextMaxTokens : Nat := 30000
  strategy : StrategyConfig := {}
  anchorlessLookback : Nat := 6
  prefetchFacts : Bool := true

/-- The tags of the inbound message. -/
structure InboundTags where
  tags : List String
  source : String := "llm"
  temporal : Bool := false
  relatedTags : List String := []

/-- What a retriever reads; every query lists a segment or a tag only once. -/
structure QueriedStore (scope : Option ConversationId) where
  tables : Tables
  aliases : Entries String String := []
  /-- The references that the full-text index finds, best first. -/
  fullTextRank : String → List String
  queryFacts : Option (List String) → List Fact
  refs_nodup : (tables.segments.map (·.ref)).Nodup
  rank_nodup : ∀ query, (fullTextRank query).Nodup
  tags_nodup : ((tables.allTagSummaries scope).map (·.tag)).Nodup
  tokens_nonneg : ∀ row ∈ tables.segments, 0 ≤ row.summaryTokens
  tagTokens_nonneg : ∀ row ∈ tables.tagSummaries, 0 ≤ row.summaryTokens

/-- The retriever of a conversation, with the scores of tags from all signals. -/
structure ContextRetriever where
  config : RetrieverConfig := {}
  scope : Option ConversationId
  store : QueriedStore scope
  index : Option TurnTagIndex := none
  setOrder : SetOrder
  idfWeights : Entries String ℚ
  scoreCandidates : List String → List String → Entries String ℚ

structure RetrievalMetadata where
  temporalHint : Bool := false
  workingSetFallback : Bool := false
  generalFallback : Bool := false
  ftsFallback : Bool := false
  summaryFloor : Bool := false
  tagsQueried : List String := []
  tagsSkippedActive : List String := []
  relatedTagsUsed : List String := []
  candidatesFound : Nat := 0

structure Retrieved where
  tagsMatched : List String := []
  summaries : List CountedSummary := []
  fullDetail : List StoredSegment := []
  totalTokens : Int := 0
  facts : List Fact := []
  overflowSummaries : List CountedSummary := []
  metadata : RetrievalMetadata
  retrievalScores : Entries String ℚ := []

/-- What is selected so far, and what did not fit. -/
structure Selection where
  selected : List CountedSummary := []
  overflow : List CountedSummary := []
  totalTokens : Int := 0
  ftsFallback : Bool := false
  summaryFloor : Bool := false

/-- `get_active_tags`, each tag once. -/
def TurnTagIndex.getActiveTags (index : TurnTagIndex) (lookback : Nat) : List String :=
  let recent :=
    if lookback ≤ index.entries.length ∧ lookback ≠ 0 then
      index.entries.drop (index.entries.length - lookback)
    else index.entries
  ((recent.flatMap (·.tags)).filter fun tag => tag ≠ "_general" && tag ≠ "_stub").dedup

/-! ## Selecting -/

def overflowCap : Nat := 50

/-- One turn of the loop over the ranked summaries. -/
def Selection.consider (budget : Int) (s : Selection) (summary : CountedSummary) :
    Selection :=
  if summary.ref ∈ s.selected.map (·.ref) then s
  else if budget < s.totalTokens + summary.summaryTokens then
    if s.overflow.length < overflowCap then { s with overflow := s.overflow ++ [summary] }
    else s
  else
    { s with
      selected := s.selected ++ [summary]
      totalTokens := s.totalTokens + summary.summaryTokens }

/-- The tags in the alias groups of the given tags. -/
def aliasGroup (aliases : Entries String String) (tags : List String) : List String :=
  tags.flatMap fun tag =>
    (match aliases.get tag with
      | some canon => canon :: (aliases.filter (·.2 = canon)).map (·.1)
      | none => []) ++ (aliases.filter (·.2 = tag)).map (·.1)

/-- The summaries that are not selected and fit into what remains. -/
def addExtras : (selectedRefs : List String) → (remaining : Int) → List CountedSummary →
    List CountedSummary
  | _, _, [] => []
  | selectedRefs, remaining, summary :: summaries =>
      if summary.ref ∈ selectedRefs then addExtras selectedRefs remaining summaries
      else if remaining < summary.summaryTokens then
        addExtras selectedRefs remaining summaries
      else
        summary :: addExtras (selectedRefs ++ [summary.ref])
          (remaining - summary.summaryTokens) summaries

/-- The summary of a tag in the place of one of a segment. -/
def TagSummary.toSummary (ts : TagSummary) : CountedSummary where
  ref := "tag-summary-" ++ ts.tag
  primaryTag := ts.tag
  tags := [ts.tag]
  summary := ts.summary
  summaryTokens := ts.summaryTokens
  codeRefs := ts.codeRefs
  createdAt := ts.updatedAt
  startTimestamp := ts.createdAt
  endTimestamp := ts.updatedAt

/-- `'"' + tag.replace("-", " ") + '"'` -/
def ftsTerm (tag : String) : String :=
  "\"" ++ String.ofList (tag.toList.map fun c => if c = '-' then ' ' else c) ++ "\""

namespace ContextRetriever

variable (retriever : ContextRetriever)

/-- `_load_all_tag_summaries` -/
def loadAllTagSummaries (budget : Int) : List CountedSummary × Int :=
  takeFitting (·.summaryTokens) budget 0
    ((retriever.store.tables.allTagSummaries retriever.scope).map (·.toSummary))

/-- `_alias_ride_along` -/
def aliasRideAlong (queryTags : List String) (selected : List CountedSummary)
    (budget tokensUsed : Int) : List CountedSummary :=
  let qualified := ((selected.flatMap (·.tags)).filter (· ∈ queryTags)).dedup
  let aliasTags := ((aliasGroup retriever.store.aliases qualified).filter
    (· ∉ queryTags)).dedup
  addExtras (selected.map (·.ref)) (budget - tokensUsed)
    (retriever.store.tables.summariesByTags aliasTags 1 50 retriever.scope)

def rideAlong (queryTags : List String) (budget : Int) (s : Selection) : Selection :=
  if s.selected = [] then s
  else
    let extras := retriever.aliasRideAlong queryTags s.selected budget s.totalTokens
    { s with
      selected := s.selected ++ extras
      totalTokens := s.totalTokens + (extras.map (·.summaryTokens)).sum }

def fullTextFallback (expandedTags : List String) (budget : Int) (s : Selection) :
    Selection :=
  if s.selected ≠ [] ∨ expandedTags = [] then s
  else
    let query := " OR ".intercalate (expandedTags.map ftsTerm)
    let results := retriever.store.tables.searchSummaries
      (retriever.store.fullTextRank query) retriever.config.strategy.maxResults
      retriever.scope
    let taken := takeFitting (·.summaryTokens) budget s.totalTokens results
    { s with
      selected := s.selected ++ taken.1
      totalTokens := taken.2
      ftsFallback := !results.isEmpty }

def summaryFloor (budget : Int) (postCompaction : Bool) (s : Selection) : Selection :=
  if s.selected = [] ∧ postCompaction = true then
    let floor := retriever.loadAllTagSummaries budget
    { s with
      selected := floor.1
      totalTokens := floor.2
      summaryFloor := !floor.1.isEmpty }
  else s

/-! ## Retrieving -/

/-- The tags of the message to look up, and whether they are the working set. -/
def messageTags (tagResult : InboundTags) (activeTags : List String) :
    List String × Bool :=
  if tagResult.source = "fallback" then
    match retriever.index with
    | some index =>
        ((retriever.setOrder.order
          (index.getActiveTags retriever.config.anchorlessLookback)).filter
            (· ≠ "_general"), true)
    | none => (tagResult.tags.filter (· ≠ "_general"), false)
  else
    (tagResult.tags.filter fun tag =>
      !(retriever.config.skipActiveTags && activeTags.contains tag) && tag ≠ "_general",
      false)

/-- The tags of the last turn that has any. -/
def previousTags : List String :=
  match retriever.index.bind (·.latestMeaningfulTags) with
  | some previous => previous.tags.filter fun tag => tag ≠ "_general" && tag ≠ "_stub"
  | none => []

def queryTags (tagResult : InboundTags) (activeTags : List String) : List String :=
  let tags := (retriever.messageTags tagResult activeTags).1
  if tags = [] then retriever.previousTags else tags

/-- `int(tag_context_max_tokens * budget_fraction)` -/
def tokenBudget (utilization : ℚ) : Int :=
  let fraction := retriever.config.strategy.maxBudgetFraction
  let scaled :=
    if 1 / 2 < utilization then fraction * max (1 / 10) (1 - utilization) else fraction
  (retriever.config.tagContextMaxTokens * scaled).floor

/-- The best score of a tag of the summary, and the weights of its query tags. -/
def summarySortKey (scores : Entries String ℚ) (queryTags : List String)
    (summary : CountedSummary) : ℚ × ℚ :=
  ((match summary.tags.map fun tag => (scores.get tag).getD 0 with
    | [] => 0
    | score :: rest => rest.foldl max score),
    ((summary.tags.filter (· ∈ queryTags)).map fun tag =>
      (retriever.idfWeights.get tag).getD 1).sum)

def rankedSummaries (scores : Entries String ℚ) (queryTags : List String) :
    List CountedSummary :=
  let maxResults := retriever.config.strategy.maxResults
  let topTags := (orderByDesc (fun tag => (scores.get tag).getD 0) scores.keys).take maxResults
  orderByDesc (fun summary => toLex (retriever.summarySortKey scores queryTags summary))
    (retriever.store.tables.summariesByTags topTags 1 (maxResults * 3) retriever.scope)

/-- Without tags to look up only the tag summaries may be given. -/
def retrieveWithoutTags (tagsSkipped : List String) (postCompaction : Bool) : Retrieved :=
  let floor := retriever.loadAllTagSummaries retriever.config.tagContextMaxTokens
  if postCompaction = true ∧ floor.1 ≠ [] then
    { summaries := floor.1
      totalTokens := floor.2
      facts := retriever.store.queryFacts none
      metadata := { tagsSkippedActive := tagsSkipped, summaryFloor := true } }
  else
    { facts := retriever.store.queryFacts none
      metadata := { tagsSkippedActive := tagsSkipped } }

/-- All phases of the selection. -/
def select (scores : Entries String ℚ) (queryTags expandedTags : List String)
    (budget : Int) (postCompaction : Bool) : Selection :=
  let ranked := (retriever.rankedSummaries scores queryTags).foldl
    (Selection.consider budget) {}
  retriever.summaryFloor budget postCompaction
    (retriever.fullTextFallback expandedTags budget
      (retriever.rideAlong queryTags budget ranked))

/-- `retrieve`, for the tags that the tagger gave the message. -/
def retrieve (tagResult : InboundTags) (activeTags : List String) (utilization : ℚ)
    (postCompaction : Bool) : Retrieved :=
  let messageTags := retriever.messageTags tagResult activeTags
  let queryTags := retriever.queryTags tagResult activeTags
  let tagsSkipped := tagResult.tags.filter (· ∈ activeTags)
  if queryTags = [] then retriever.retrieveWithoutTags tagsSkipped postCompaction
  else
    let relatedTags := tagResult.relatedTags.filter fun tag =>
      !queryTags.contains tag && tag ≠ "_general"
    let expandedTags := retriever.setOrder.order (queryTags ++ relatedTags).dedup
    let scores := retriever.scoreCandidates queryTags relatedTags
    let selection := retriever.select scores queryTags expandedTags
      (retriever.tokenBudget utilization) postCompaction
    { tagsMatched := retriever.setOrder.order
        ((selection.selected.flatMap (·.tags)).filter (· ∈ expandedTags)).dedup
      summaries := selection.selected
      fullDetail := (selection.selected.take 3).filterMap fun summary =>
        retriever.store.tables.getSegment summary.ref retriever.scope
      totalTokens := selection.totalTokens
      facts := retriever.store.queryFacts
        (if retriever.config.prefetchFacts then some expandedTags else none)
      overflowSummaries := selection.overflow
      metadata :=
        { temporalHint := tagResult.temporal
          workingSetFallback := messageTags.2
          generalFallback := messageTags.1.isEmpty
          ftsFallback := selection.ftsFallback
          summaryFloor := selection.summaryFloor
          tagsQueried := queryTags
          tagsSkippedActive := tagsSkipped
          relatedTagsUsed := relatedTags
          candidatesFound := (retriever.rankedSummaries scores queryTags).length }
      retrievalScores := scores }

/-! ## One phase after the other -/

section

variable {retriever : ContextRetriever} {budget : Int} {s : Selection}

theorem tokenBudget_nonneg (utilization : ℚ) : 0 ≤ retriever.tokenBudget utilization := by
  have hfraction := retriever.config.strategy.fraction_pos.le
  rw [tokenBudget, Rat.le_floor_iff]
  refine mul_nonneg (Nat.cast_nonneg _) ?_
  split_ifs
  · refine mul_nonneg hfraction (le_max_of_le_left ?_)
    decide +kernel
  · exact hfraction

/-- A phase chose among summaries of segments. -/
structure Chosen (retriever : ContextRetriever) (budget : Int) (s : Selection) : Prop where
  choice : BudgetedChoice (fun summary : CountedSummary => summary.ref)
    (fun summary => summary.summaryTokens) budget s.selected s.overflow s.totalTokens
  stored : ∀ summary ∈ s.selected ++ s.overflow,
    ∃ row ∈ retriever.store.tables.segments, summary = row.toSummary

/-- Summaries of segments with one reference are one summary. -/
theorem eq_of_ref {summary other : CountedSummary}
    (h : ∃ row ∈ retriever.store.tables.segments, summary = row.toSummary)
    (hother : ∃ row ∈ retriever.store.tables.segments, other = row.toSummary)
    (href : summary.ref = other.ref) : summary = other := by
  obtain ⟨row, hrow, rfl⟩ := h
  obtain ⟨row', hrow', rfl⟩ := hother
  rw [List.inj_on_of_nodup_map retriever.store.refs_nodup hrow hrow' href]

theorem tokens_of_stored {summary : CountedSummary}
    (h : ∃ row ∈ retriever.store.tables.segments, summary = row.toSummary) :
    0 ≤ summary.summaryTokens := by
  obtain ⟨row, hrow, rfl⟩ := h
  exact retriever.store.tokens_nonneg row hrow

theorem Chosen.consider (h : Chosen retriever budget s) {summary : CountedSummary}
    (hstored : ∃ row ∈ retriever.store.tables.segments, summary = row.toSummary) :
    Chosen retriever budget (s.consider budget summary) := by
  unfold Selection.consider
  split_ifs with hmem hover hcap
  · exact h
  · refine ⟨h.choice.refuse hmem hover, fun other hother => ?_⟩
    rcases List.mem_append.mp hother with hother | hother
    · exact h.stored other (List.mem_append_left _ hother)
    · rcases List.mem_append.mp hother with hother | hother
      · exact h.stored other (List.mem_append_right _ hother)
      · rwa [List.mem_singleton.mp hother]
  · exact h
  · refine ⟨h.choice.choose hmem (Int.not_lt.mp hover) (tokens_of_stored hstored)
      fun other hother href => ?_, fun other hother => ?_⟩
    · rw [eq_of_ref (h.stored other (List.mem_append_right _ hother)) hstored href]
    · rcases List.mem_append.mp hother with hother | hother
      · rcases List.mem_append.mp hother with hother | hother
        · exact h.stored other (List.mem_append_left _ hother)
        · rwa [List.mem_singleton.mp hother]
      · exact h.stored other (List.mem_append_right _ hother)

theorem Chosen.foldl {summaries : List CountedSummary} (h : Chosen retriever budget s)
    (hstored : ∀ summary ∈ summaries,
      ∃ row ∈ retriever.store.tables.segments, summary = row.toSummary) :
    Chosen retriever budget (summaries.foldl (Selection.consider budget) s) := by
  induction summaries generalizing s with
  | nil => exact h
  | cons summary summaries ih =>
      exact ih (h.consider (hstored summary List.mem_cons_self)) fun other hother =>
        hstored other (List.mem_cons_of_mem summary hother)

theorem mem_addExtras {refs : List String} {remaining : Int} {summary : CountedSummary}
    {summaries : List CountedSummary} (h : summary ∈ addExtras refs remaining summaries) :
    summary ∈ summaries := by
  induction summaries generalizing refs remaining with
  | nil => cases h
  | cons first summaries ih =>
      rw [addExtras] at h
      split_ifs at h
      · exact List.mem_cons_of_mem first (ih h)
      · exact List.mem_cons_of_mem first (ih h)
      · rcases List.mem_cons.mp h with rfl | h
        · exact List.mem_cons_self
        · exact List.mem_cons_of_mem first (ih h)

/-- The extras are chosen within what remains of the budget. -/
theorem Chosen.addExtras {summaries : List CountedSummary} (h : Chosen retriever budget s)
    (hstored : ∀ summary ∈ summaries,
      ∃ row ∈ retriever.store.tables.segments, summary = row.toSummary) :
    Chosen retriever budget
      { s with
        selected := s.selected ++
          addExtras (s.selected.map (·.ref)) (budget - s.totalTokens) summaries
        totalTokens := s.totalTokens +
          ((addExtras (s.selected.map (·.ref)) (budget - s.totalTokens) summaries).map
            (·.summaryTokens)).sum } := by
  induction summaries generalizing s with
  | nil => simpa [VirtualContext.addExtras] using h
  | cons summary summaries ih =>
      have hrest := fun other hother => hstored other (List.mem_cons_of_mem summary hother)
      rw [VirtualContext.addExtras]
      split_ifs with hmem hover
      · exact ih h hrest
      · exact ih h hrest
      · have hnext := h.consider (hstored summary List.mem_cons_self)
        rw [Selection.consider, if_neg hmem, if_neg (by omega)] at hnext
        have hextras := ih hnext hrest
        simpa [List.map_append, Int.add_assoc, Int.sub_sub] using hextras

theorem Chosen.rideAlong (h : Chosen retriever budget s) (queryTags : List String) :
    Chosen retriever budget (retriever.rideAlong queryTags budget s) := by
  unfold ContextRetriever.rideAlong
  split_ifs
  · exact h
  · refine h.addExtras fun summary hsummary => ?_
    obtain ⟨row, hrow, heq, -⟩ := mem_summariesByTags hsummary
    exact ⟨row, hrow, heq⟩

theorem Chosen.fullTextFallback (h : Chosen retriever budget s) (expandedTags : List String) :
    Chosen retriever budget (retriever.fullTextFallback expandedTags budget s) := by
  unfold ContextRetriever.fullTextFallback
  split_ifs with hskip
  · exact h
  · have hnone : s.selected = [] := by
      by_contra hne
      exact hskip (.inl hne)
    have hstored : ∀ summary ∈ retriever.store.tables.searchSummaries
        (retriever.store.fullTextRank (" OR ".intercalate (expandedTags.map ftsTerm)))
        retriever.config.strategy.maxResults retriever.scope,
        ∃ row ∈ retriever.store.tables.segments, summary = row.toSummary :=
      fun _ => mem_searchSummaries
    refine ⟨h.choice.takeFitting (fun summary hsummary => tokens_of_stored (hstored _ hsummary))
      (nodup_searchSummaries (retriever.store.rank_nodup _)) (by simp [hnone])
      fun other hother summary hsummary href => ?_, fun summary hsummary => ?_⟩
    · rw [eq_of_ref (h.stored other (List.mem_append_right _ hother))
        (hstored summary hsummary) href]
    · rcases List.mem_append.mp hsummary with hsummary | hsummary
      · rcases List.mem_append.mp hsummary with hsummary | hsummary
        · exact h.stored summary (List.mem_append_left _ hsummary)
        · exact hstored summary ((takeFitting_sublist _ _).subset hsummary)
      · exact h.stored summary (List.mem_append_right _ hsummary)

/-- The tag summaries that are given are within the budget, each of them too. -/
theorem loadAllTagSummaries_choice (retriever : ContextRetriever) (hbudget : 0 ≤ budget) :
    BudgetedChoice (fun summary : CountedSummary => summary.ref)
      (fun summary => summary.summaryTokens) budget
      (retriever.loadAllTagSummaries budget).1 [] (retriever.loadAllTagSummaries budget).2 ∧
    ∀ summary ∈ (retriever.loadAllTagSummaries budget).1, summary.summaryTokens ≤ budget := by
  have htokens : ∀ summary ∈ (retriever.store.tables.allTagSummaries retriever.scope).map
      (·.toSummary), 0 ≤ summary.summaryTokens := by
    intro summary hsummary
    obtain ⟨ts, hts, rfl⟩ := List.mem_map.mp hsummary
    have hmem := (orderByDesc_perm _).mem_iff.mp hts
    exact retriever.store.tagTokens_nonneg ts (List.mem_filter.mp hmem).1
  have hrefs : (((retriever.store.tables.allTagSummaries retriever.scope).map
      (·.toSummary)).map (·.ref)).Nodup := by
    have hprefix : Function.Injective ("tag-summary-" ++ · : String → String) :=
      fun tag tag' heq => String.append_right_inj _ |>.mp heq
    have htags := retriever.store.tags_nodup.map hprefix
    rwa [List.map_map] at htags ⊢
  constructor
  · exact (BudgetedChoice.nil hbudget).takeFitting htokens hrefs (by simp) (by simp)
  · intro summary hsummary
    have hle := le_of_mem_takeFitting htokens hsummary
    omega

/-- After all phases; only tag summaries may share references with what did not fit. -/
theorem select_within_budget (hbudget : 0 ≤ budget) (scores : Entries String ℚ)
    (queryTags expandedTags : List String) (postCompaction : Bool) :
    let s := retriever.select scores queryTags expandedTags budget postCompaction
    s.totalTokens = (s.selected.map (·.summaryTokens)).sum ∧ s.totalTokens ≤ budget ∧
      (s.selected.map (·.ref)).Nodup ∧ (∀ summary ∈ s.selected, summary ∉ s.overflow) ∧
      (s.summaryFloor = false →
        ∀ summary ∈ s.selected, ∀ other ∈ s.overflow, summary.ref ≠ other.ref) := by
  have hstart : Chosen retriever budget {} :=
    ⟨BudgetedChoice.nil hbudget, by simp⟩
  have hranked := hstart.foldl
    fun summary (hsummary : summary ∈ retriever.rankedSummaries scores queryTags) => by
      obtain ⟨row, hrow, heq, -⟩ :=
        mem_summariesByTags ((orderByDesc_perm _).mem_iff.mp hsummary)
      exact ⟨row, hrow, heq⟩
  have hchosen := (hranked.rideAlong queryTags).fullTextFallback expandedTags
  rw [select, summaryFloor]
  generalize retriever.fullTextFallback expandedTags budget _ = s at hchosen ⊢
  dsimp only
  obtain ⟨htotal, hle, hrefs, hover, hapart⟩ := hchosen.choice
  split_ifs with hfloor
  · obtain ⟨⟨hsum, hwithin, hdistinct, -, -⟩, hsmall⟩ :=
      retriever.loadAllTagSummaries_choice hbudget
    refine ⟨hsum, hwithin, hdistinct, fun summary hsummary hmem => ?_, fun hnone => ?_⟩
    · have hlarge := hover summary hmem
      rw [htotal, hfloor.1] at hlarge
      have := hsmall summary hsummary
      simp only [List.map_nil, List.sum_nil] at hlarge
      omega
    · have hempty : (retriever.loadAllTagSummaries budget).1 = [] := by simpa using hnone
      simp [hempty]
  · refine ⟨htotal, hle, hrefs, fun summary hsummary hmem => ?_,
      fun _ summary hsummary other hother href => ?_⟩
    · exact hapart summary hmem (List.mem_map_of_mem hsummary)
    · exact hapart other hother (href ▸ List.mem_map_of_mem hsummary)

end

/-- The budget of the branch that is taken. -/
def branchBudget (tagResult : InboundTags) (activeTags : List String) (utilization : ℚ) : Int :=
  if retriever.queryTags tagResult activeTags = [] then retriever.config.tagContextMaxTokens
  else retriever.tokenBudget utilization

theorem retrieve_within_budget (tagResult : InboundTags) (activeTags : List String)
    (utilization : ℚ) (postCompaction : Bool) :
    let result := retriever.retrieve tagResult activeTags utilization postCompaction
    result.totalTokens = (result.summaries.map (·.summaryTokens)).sum ∧
      result.totalTokens ≤ retriever.branchBudget tagResult activeTags utilization ∧
      (result.summaries.map (·.ref)).Nodup ∧
      (∀ summary ∈ result.summaries, summary ∉ result.overflowSummaries) ∧
      (result.metadata.summaryFloor = false → ∀ summary ∈ result.summaries,
        ∀ other ∈ result.overflowSummaries, summary.ref ≠ other.ref) := by
  dsimp only
  rw [retrieve, branchBudget]
  dsimp only
  by_cases hquery : retriever.queryTags tagResult activeTags = []
  · have hbudget : (0 : Int) ≤ retriever.config.tagContextMaxTokens := Int.natCast_nonneg _
    rw [if_pos hquery, if_pos hquery, retrieveWithoutTags]
    split_ifs
    · obtain ⟨⟨hsum, hwithin, hdistinct, -, -⟩, -⟩ :=
        retriever.loadAllTagSummaries_choice hbudget
      exact ⟨hsum, hwithin, hdistinct, by simp, by simp⟩
    · exact ⟨rfl, hbudget, List.nodup_nil, by simp, by simp⟩
  · rw [if_neg hquery, if_neg hquery]
    exact select_within_budget (tokenBudget_nonneg utilization) _ _ _ _

/-- Two segments of a tag, of which one is too large for the budget. -/
def tripRetriever : ContextRetriever where
  config := { tagContextMaxTokens := 100 }
  scope := some "trip"
  store :=
    { tables :=
        { segments :=
            [{ ref := "a", conversationId := "trip", tags := ["rome"], summaryTokens := 20 },
              { ref := "b", conversationId := "trip", tags := ["rome"], summaryTokens := 30 }] }
      fullTextRank := fun _ => []
      queryFacts := fun _ => []
      refs_nodup := by decide
      rank_nodup := fun _ => List.nodup_nil
      tags_nodup := by decide
      tokens_nonneg := by decide
      tagTokens_nonneg := by decide }
  setOrder := ⟨id, List.Perm.refl⟩
  idfWeights := []
  scoreCandidates := fun tags _ => tags.map fun tag => (tag, 1)

example :
    let result := tripRetriever.retrieve { tags := ["rome"] } [] 0 false
    (result.summaries.map (·.ref), result.overflowSummaries.map (·.ref)) =
      (["a"], ["b"]) := by
  decide +kernel

end ContextRetriever

end VirtualContext
