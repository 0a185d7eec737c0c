import VirtualContext.Core.SegmentMerges
import VirtualContext.Core.TurnTagIndex

/-!
# The tag summaries of a compaction

After a pass the summaries of the tags of its segments are built again, but
only those that cover fewer turns than the index has.  A summary that reached
the end of the index before is not built, and does not name the new segments.
-/

namespace VirtualContext

open VirtualContext.Library
open VirtualContext.Library.Program

/-! ## Building the summaries -/

/-- What the model makes of the segments of a tag. -/
structure TagRollup where
  summary : String
  description : String := ""
  summaryTokens : Int := 0
  codeRefs : List CodeRef := []
  deriving DecidableEq, Repr

/-- `get_tag_summary` -/
def Tables.getTagSummary (t : Tables) (tag : String)
    (conversationId : ConversationId) : Option TagSummaryRecord :=
  t.tagSummaries.find? (·.key = (tag, conversationId))

/-- `get_summaries_by_tags`, the query of `get_segments_by_tags`. -/
def Tables.getSummariesByTags (t : Tables) (tags : List String)
    (minOverlap limit : Nat) (conversationId : ConversationId) :
    List StoredSegment :=
  t.getSegmentsByTags tags minOverlap limit conversationId

/-- The turns and canonical turns of the tags, and the last turn of all. -/
structure TurnData where
  tagToTurns : Dictionary String Int
  tagToCanonicalTurnIds : Dictionary String Uuid
  maxTurn : Int
  deriving DecidableEq, Repr

/-- What a pass wrote, and the report on its tag summaries. -/
structure PassReport where
  written : List SegmentWrite
  results : List CompactionResult
  tagSummariesBuilt : Nat
  coverTags : List String

/-- `max_turn`, from the index if it has entries, else from the rows. -/
def lastTurn (index : TurnTagIndex) (compactRows : List CanonicalTurnRow) :
    Int :=
  if !index.entries.isEmpty then maxOf 0 (index.entries.map (·.turnNumber))
  else maxOf 0 (compactRows.map (·.turnNumber))

/-- A turn with its tags, filed under the cover tags among them. -/
def turnDataOf (maxTurn : Int) (coverTags : List String)
    (turns : List (List String × Int × Uuid)) : TurnData :=
  let filed := turns.flatMap fun turn =>
    (turn.1.filter (· ∈ coverTags)).map fun tag => (tag, turn.2)
  { tagToTurns := .ofPairs (filed.map fun entry => (entry.1, entry.2.1))
    tagToCanonicalTurnIds := .ofPairs
      ((filed.filter (·.2.2 ≠ 0)).map fun entry => (entry.1, entry.2.2))
    maxTurn := maxTurn }

def turnData (index : TurnTagIndex) (compactRows : List CanonicalTurnRow)
    (coverTags : List String) : TurnData :=
  turnDataOf (lastTurn index compactRows) coverTags
    (if !index.entries.isEmpty then
      index.entries.map fun entry =>
        (entry.tags, entry.turnNumber, entry.canonicalTurnId)
    else
      compactRows.map fun row =>
        ((if row.primaryTag ≠ "" then row.primaryTag :: row.tags
          else row.tags).dedup, row.turnNumber, row.canonicalTurnId))

namespace CompactionPipeline

variable (pipeline : CompactionPipeline)
  (rollup : String → List StoredSegment → TagRollup)

/-- The cover set among the compacted tags, and every primary tag. -/
def coverTags (index : TurnTagIndex) (results : List CompactionResult) :
    List String :=
  let compactedTags := results.flatMap (·.tags)
  appendMissing (index.computeCoverSet.filter (· ∈ compactedTags))
    ((results.map (·.primaryTag)).filter (· ≠ ""))

def buildOneTagSummary (tag : String) (summaries : List StoredSegment)
    (data : TurnData) : TagSummary :=
  let canonicalTurnIds := appendMissing [] (data.tagToCanonicalTurnIds.get tag)
  let parsed := rollup tag summaries
  { tag := tag
    summary := parsed.summary
    description := parsed.description
    summaryTokens := parsed.summaryTokens
    sourceSegmentRefs := summaries.map (·.ref)
    sourceTurnNumbers :=
      (data.tagToTurns.get tag).dedup.mergeSort fun turn turn' => turn ≤ turn'
    sourceCanonicalTurnIds := canonicalTurnIds
    codeRefs := parsed.codeRefs
    coversThroughTurn := data.maxTurn
    coversThroughCanonicalTurnId := canonicalTurnIds.getLast?.getD 0
    generatedByTurnId := pipeline.generatedByTurnId
    createdAt := pipeline.now
    updatedAt := pipeline.now }

/-- There is no summary yet, or it covers fewer turns. -/
def stale (existing : Option TagSummaryRecord) (maxTurn : Int) : Bool :=
  existing.all (·.coversThroughTurn < maxTurn)

/-- Each cover tag comes with its segments and its summary, if there are any. -/
def compactTagSummaries
    (tags : List (String × List StoredSegment × Option TagSummaryRecord))
    (data : TurnData) : List TagSummary :=
  (tags.filter fun entry =>
    stale entry.2.2 data.maxTurn && !entry.2.1.isEmpty).map fun entry =>
      pipeline.buildOneTagSummary rollup entry.1 entry.2.1 data

/-- The loops that load the segments and the summaries of the cover tags. -/
def loadSummaries : List String → StoreProgram (List (List StoredSegment))
  | [] => pure []
  | tag :: tags => do
      let summaries ← read .summariesByTags fun tables =>
        tables.getSummariesByTags [tag] 1 50 pipeline.conversationId
      let rest ← loadSummaries tags
      pure (summaries :: rest)

def loadExisting : List String → StoreProgram (List (Option TagSummaryRecord))
  | [] => pure []
  | tag :: tags => do
      let existing ← read .getTagSummary fun tables =>
        tables.getTagSummary tag pipeline.conversationId
      let rest ← loadExisting tags
      pure (existing :: rest)

def saveTagSummaries : List TagSummary → StoreProgram Unit
  | [] => pure ()
  | summary :: summaries => do
      saveTagSummary summary pipeline.conversationId pipeline.guard
      saveTagSummaries summaries

/-- `_build_tag_summaries` -/
def buildTagSummaries (index : TurnTagIndex) (results : List CompactionResult)
    (compactRows : List CanonicalTurnRow) :
    StoreProgram (Nat × List String) :=
  if results.isEmpty then pure (0, [])
  else
    let coverTags := coverTags index results
    if coverTags.isEmpty then pure (0, [])
    else do
      let summaries ← pipeline.loadSummaries coverTags
      let existing ← pipeline.loadExisting coverTags
      let newTagSummaries := pipeline.compactTagSummaries rollup
        (coverTags.zip (summaries.zip existing))
        (turnData index compactRows coverTags)
      pipeline.saveTagSummaries newTagSummaries
      pure (newTagSummaries.length, coverTags)

/-! ## A pass -/

/-- The result that a stub stands for. -/
def stubResult (stored : StoredSegment) : CompactionResult where
  segmentId := stored.ref
  primaryTag := stored.primaryTag
  tags := stored.tags
  summary := stored.summary
  summaryTokens := stored.summaryTokens
  originalTokens := stored.fullTokens
  compressionRatio := stored.compressionRatio
  metadata := stored.metadata
  fullText := stored.fullText
  messages := stored.messages
  timestamp := stored.startTimestamp

/-- The result of the compactor with what the loop over the results sets. -/
def storedResult (prepared : PreparedSegment) (result : CompactionResult) :
    CompactionResult :=
  { result with
    segmentId := (pipeline.compacted prepared result).ref
    metadata := (pipeline.compacted prepared result).metadata }

/-- `_compact_and_store`, with the results that it returns. -/
def compactAndStoreResults (segments : List TaggedSegment)
    (compactRows : List CanonicalTurnRow) :
    StoreProgram (List SegmentWrite × List CompactionResult) := do
  let (stubs, prepared) ← pipeline.prepare
    (pipeline.attributeRows compactRows 0 segments)
  let results := pipeline.compact
    (prepared.map fun prepared => (prepared.segment, prepared.attribution))
  let written ← pipeline.storeResults (prepared.zip results)
  pure (stubs ++ written, stubs.map (fun w => stubResult w.stored) ++
    (prepared.zip results).map fun entry =>
      pipeline.storedResult entry.1 entry.2)

/-- `_run_compaction` from the segments on. -/
def compactionPass (index : TurnTagIndex) (segments : List TaggedSegment)
    (compactRows : List CanonicalTurnRow) : StoreProgram PassReport := do
  let (written, results) ← pipeline.compactAndStoreResults segments compactRows
  let compactedTurnIds :=
    (compactRows.map (·.canonicalTurnId)).filter (· ≠ 0)
  let _ ← markCanonicalTurnsCompacted 0 pipeline.now pipeline.conversationId
    compactedTurnIds none pipeline.guard
  let (tagSummariesBuilt, coverTags) ← pipeline.buildTagSummaries rollup index
    results compactRows
  pure ⟨written, results, tagSummariesBuilt, coverTags⟩

end CompactionPipeline

/-! ## The property and its condition -/

/-- The summary of the tag exists and names the segment. -/
def SummaryNames (t : Tables) (conversationId : ConversationId)
    (tag ref : String) : Prop :=
  Found TagSummaryRecord.key (tag, conversationId)
    (ref ∈ ·.sourceSegmentRefs) t.tagSummaries

/-- The segments of the conversation that have the tag. -/
def Tables.tagged (t : Tables) (conversationId : ConversationId)
    (tag : String) : List SegmentRecord :=
  t.segments.filter fun segment =>
    segment.conversationId = conversationId ∧ tag ∈ segment.tags

/-- The segment was stored or merged by one of the writes. -/
def WrittenBy (written : List SegmentWrite) (segment : SegmentRecord) : Prop :=
  ∃ w ∈ written, w.stored.ref = segment.ref

/-- What was written is named by the summary of its primary tag. -/
def SummariesNameSegments (conversationId : ConversationId) (after : Tables)
    (written : List SegmentWrite) : Prop :=
  ∀ segment ∈ after.segments, WrittenBy written segment →
    SummaryNames after conversationId segment.primaryTag segment.ref

namespace CompactionPipeline

variable (pipeline : CompactionPipeline)

/--
The summary of a primary tag is built: the tag is to be covered, some segment
has it, and no summary of it covers the last turn already.
-/
def Rebuilds (before after : Tables) (index : TurnTagIndex)
    (results : List CompactionResult) (compactRows : List CanonicalTurnRow)
    (tag : String) : Prop :=
  (tag ≠ "" ∨
      tag ∈ index.computeCoverSet ∧ ∃ result ∈ results, tag ∈ result.tags) ∧
    after.tagged pipeline.conversationId tag ≠ [] ∧
    stale (before.getTagSummary tag pipeline.conversationId)
      (lastTurn index compactRows) = true

/--
Each segment of the pass has its primary tag among its tags if the summary of
that is built, and is named by the stored summary if not.
-/
def ReachSummaries (before after : Tables) (index : TurnTagIndex)
    (compactRows : List CanonicalTurnRow) (report : PassReport) : Prop :=
  ∀ segment ∈ after.segments, WrittenBy report.written segment →
    let rebuilds := pipeline.Rebuilds before after index report.results
      compactRows segment.primaryTag
    (rebuilds → segment.primaryTag ∈ segment.tags) ∧
      (¬ rebuilds → SummaryNames before pipeline.conversationId
        segment.primaryTag segment.ref)

end CompactionPipeline

/-! ## What the first part of a pass stores -/

section Stored

variable {pipeline : CompactionPipeline} {t : Tables} {n : Nat}
  {c : Conn Tables}

/-- The writes are in the table of the segments, and nothing else changed. -/
structure Stores (pipeline : CompactionPipeline) (t : Tables)
    (written : List SegmentWrite) (t' : Tables) : Prop where
  segments : t'.segments =
    (written.map fun w => w.stored.record pipeline.guard).foldl
      (fun rows w => replaceBy (·.ref) w rows) t.segments
  tagSummaries : t'.tagSummaries = t.tagSummaries
  conversation : ∀ w ∈ written,
    w.stored.conversationId = pipeline.conversationId

theorem Stores.nil (pipeline : CompactionPipeline) (t : Tables) :
    Stores pipeline t [] t := ⟨rfl, rfl, by simp⟩

theorem Stores.cons {w : SegmentWrite} {written : List SegmentWrite}
    {t' : Tables} (hconversation :
      w.stored.conversationId = pipeline.conversationId)
    (h : Stores pipeline
      (t.replaceSegment (w.stored.record pipeline.guard)) written t') :
    Stores pipeline t (w :: written) t' where
  segments := h.segments
  tagSummaries := h.tagSummaries
  conversation := List.forall_mem_cons.mpr ⟨hconversation, h.conversation⟩

theorem Stores.append {written written' : List SegmentWrite} {t' t'' : Tables}
    (h : Stores pipeline t written t') (h' : Stores pipeline t' written' t'') :
    Stores pipeline t (written ++ written') t'' where
  segments := by
    rw [h'.segments, h.segments, List.map_append, List.foldl_append]
  tagSummaries := h'.tagSummaries.trans h.tagSummaries
  conversation w hw := (List.mem_append.mp hw).elim (h.conversation w)
    (h'.conversation w)

theorem prepare_stores {attributed : List (TaggedSegment × Attribution)}
    {stubs : List SegmentWrite} {prepared : List PreparedSegment}
    (hrun : (pipeline.prepare attributed).run .quiet (.idle t n) =
      (.ok (stubs, prepared), c)) :
    ∃ t', c = .idle t' n ∧ Stores pipeline t stubs t' := by
  induction attributed generalizing t c stubs prepared with
  | nil =>
      cases hrun
      exact ⟨t, rfl, .nil pipeline t⟩
  | cons first rest ih =>
      obtain ⟨seg, attribution⟩ := first
      rw [CompactionPipeline.prepare] at hrun
      by_cases hstub : pipeline.isStubContent (joinContents seg.messages)
      · rw [if_pos hstub, Program.run_bind] at hrun
        obtain ⟨ref, between, hstore, hrun⟩ := Program.andThen_eq_ok hrun
        rw [Program.run_bind] at hrun
        obtain ⟨⟨written, prepared'⟩, last, hrest, hrun⟩ :=
          Program.andThen_eq_ok hrun
        cases hrun
        rw [eq_idle_of_storeSegment hstore] at hrest
        obtain ⟨t', rfl, hstores⟩ := ih hrest
        exact ⟨t', rfl, .cons rfl hstores⟩
      · rw [if_neg hstub, Program.run_bind, Program.run_read_quiet,
          Program.andThen_ok, Program.run_bind] at hrun
        obtain ⟨⟨written, prepared'⟩, last, hrest, hrun⟩ :=
          Program.andThen_eq_ok hrun
        cases hrun
        exact ih hrest

theorem storeResults_stores
    {entries : List (PreparedSegment × CompactionResult)}
    {written : List SegmentWrite}
    (hrun : (pipeline.storeResults entries).run .quiet (.idle t n) =
      (.ok written, c)) :
    ∃ t', c = .idle t' n ∧ Stores pipeline t written t' ∧
      written.map (·.stored.primaryTag) = entries.map (·.2.primaryTag) := by
  induction entries generalizing t c written with
  | nil =>
      cases hrun
      exact ⟨t, rfl, .nil pipeline t, rfl⟩
  | cons first rest ih =>
      obtain ⟨prepared, result⟩ := first
      rw [CompactionPipeline.storeResults, Program.run_bind] at hrun
      obtain ⟨ref, between, hstore, hrun⟩ := Program.andThen_eq_ok hrun
      rw [Program.run_bind] at hrun
      obtain ⟨written', last, hrest, hrun⟩ := Program.andThen_eq_ok hrun
      cases hrun
      rw [eq_idle_of_storeSegment hstore] at hrest
      obtain ⟨t', rfl, hstores, htags⟩ := ih hrest
      refine ⟨t', rfl, .cons rfl hstores, ?_⟩
      rw [List.map_cons, List.map_cons, htags]
      rfl

theorem compactAndStoreResults_stores {segments : List TaggedSegment}
    {compactRows : List CanonicalTurnRow} {written : List SegmentWrite}
    {results : List CompactionResult}
    (hrun : (pipeline.compactAndStoreResults segments compactRows).run .quiet
      (.idle t n) = (.ok (written, results), c)) :
    ∃ t', c = .idle t' n ∧ Stores pipeline t written t' ∧
      written.map (·.stored.primaryTag) = results.map (·.primaryTag) := by
  rw [CompactionPipeline.compactAndStoreResults, Program.run_bind] at hrun
  obtain ⟨⟨stubs, prepared⟩, between, hprepare, hrun⟩ :=
    Program.andThen_eq_ok hrun
  rw [Program.run_bind] at hrun
  obtain ⟨rest, last, hstore, hrun⟩ := Program.andThen_eq_ok hrun
  cases hrun
  obtain ⟨t', rfl, hstubs⟩ := prepare_stores hprepare
  obtain ⟨t'', rfl, hrest, htags⟩ := storeResults_stores hstore
  refine ⟨t'', rfl, hstubs.append hrest, ?_⟩
  rw [List.map_append, List.map_append, List.map_map, List.map_map, htags]
  rfl

/-- The first part of the pass is the one without the results. -/
theorem compactAndStoreResults_fst (segments : List TaggedSegment)
    (compactRows : List CanonicalTurnRow) (c : Conn Tables) :
    ((pipeline.compactAndStoreResults segments compactRows).run .quiet c).1.map
        (·.1) =
      ((pipeline.compactAndStore segments compactRows).run .quiet c).1 := by
  simp only [CompactionPipeline.compactAndStoreResults,
    CompactionPipeline.compactAndStore, Program.run_bind]
  rcases (pipeline.prepare (pipeline.attributeRows compactRows 0
    segments)).run .quiet c with ⟨raised | ⟨stubs, prepared⟩, between⟩
  · rfl
  · simp only [Program.andThen_ok, Program.run_bind]
    generalize pipeline.compact _ = results
    generalize (pipeline.storeResults (prepared.zip results)).run .quiet
      between = outcome
    rcases outcome with ⟨raised | rest, last⟩
    · rfl
    · rfl

theorem markCanonicalTurnsCompacted_keeps {now : String}
    {conversationId : ConversationId} {ids : List Uuid}
    {guard : Option CompactionGuard} {rowcount : Nat}
    (hrun : (markCanonicalTurnsCompacted 0 now conversationId ids none
      guard).run .quiet (.idle t n) = (.ok rowcount, c)) :
    ∃ t', c = .idle t' n ∧ t'.segments = t.segments ∧
      t'.tagSummaries = t.tagSummaries := by
  cases guard with
  | none =>
      rw [markCanonicalTurnsCompacted] at hrun
      split_ifs at hrun with hempty
      · cases hrun
        exact ⟨t, rfl, rfl, rfl⟩
      · cases hrun
        exact ⟨_, rfl, rfl, rfl⟩
  | some guard =>
      have hcall : (CompactionWrite.markCanonicalTurnsCompacted now
          conversationId ids none guard).call.run .quiet (.idle t n) =
            (.ok (), c) := by
        rw [CompactionWrite.call, Program.run_bind, hrun]
        rfl
      rcases run_call (.markCanonicalTurnsCompacted now conversationId ids none
        guard) t n with ⟨-, hok⟩ | ⟨-, raised, herror⟩
      · cases hok.symm.trans hcall
        exact ⟨_, rfl, rfl, rfl⟩
      · cases herror.symm.trans hcall

/-! ## The summaries that are saved -/

/-- The summary as it is saved. -/
def Tables.saveSummary (t : Tables) (conversationId : ConversationId)
    (guard : Option CompactionGuard) (summary : TagSummary) : Tables :=
  let row : TagSummaryRecord :=
    { summary with
      conversationId := conversationId
      operationId := guard.map (·.operationId) }
  match guard with
  | none => t.replaceTagSummary row
  | some _ => t.upsertTagSummary row

theorem eq_idle_of_saveTagSummary {summary : TagSummary}
    {conversationId : ConversationId} {guard : Option CompactionGuard}
    (hrun : (saveTagSummary summary conversationId guard).run .quiet
      (.idle t n) = (.ok (), c)) :
    c = .idle (t.saveSummary conversationId guard summary) n := by
  cases guard with
  | none =>
      rw [saveTagSummary, run_immediately] at hrun
      simp only [guardedWrite, Program.run_bind, Program.run_update_open,
        Program.andThen_ok] at hrun
      cases hrun
      rfl
  | some guard =>
      rcases run_call (.saveTagSummary summary conversationId guard) t n with
        ⟨-, hok⟩ | ⟨-, raised, herror⟩
      · cases hok.symm.trans hrun
        rfl
      · cases herror.symm.trans hrun

/-- The summary of its tag is the saved one, whatever was there before. -/
theorem summaryNames_saveSummary_self (t : Tables)
    (conversationId : ConversationId) (guard : Option CompactionGuard)
    (summary : TagSummary) (ref : String) :
    SummaryNames (t.saveSummary conversationId guard summary) conversationId
      summary.tag ref ↔ ref ∈ summary.sourceSegmentRefs := by
  cases guard with
  | none => exact found_replaceBy_self
  | some guard => exact found_upsertBy_self (fun _ => rfl) fun _ => .rfl

theorem summaryNames_saveSummary_of_ne {summary : TagSummary} {tag : String}
    (h : summary.tag ≠ tag) (t : Tables) (conversationId : ConversationId)
    (guard : Option CompactionGuard) (ref : String) :
    SummaryNames (t.saveSummary conversationId guard summary) conversationId
      tag ref ↔ SummaryNames t conversationId tag ref := by
  have hne (row : TagSummaryRecord) (hrow : row.tag = summary.tag) :
      (tag, conversationId) ≠ row.key := by
    intro heq
    exact h (hrow.symm.trans (congrArg Prod.fst heq).symm)
  cases guard with
  | none => exact found_replaceBy_of_ne (hne _ rfl)
  | some guard => exact found_upsertBy_of_ne (fun _ => rfl) (hne _ rfl)

/-- The summary of a tag is the last one saved, or the one there was. -/
theorem saveTagSummaries_saves {summaries : List TagSummary}
    (hrun : (pipeline.saveTagSummaries summaries).run .quiet (.idle t n) =
      (.ok (), c)) :
    ∃ t', c = .idle t' n ∧ t'.segments = t.segments ∧ ∀ tag ref,
      SummaryNames t' pipeline.conversationId tag ref ↔
        match (summaries.filter (·.tag = tag)).getLast? with
        | none => SummaryNames t pipeline.conversationId tag ref
        | some summary => ref ∈ summary.sourceSegmentRefs := by
  have hsaved : ∃ t', c = .idle t' n ∧ t'.segments = t.segments ∧
      t' = summaries.foldl (fun t summary =>
        t.saveSummary pipeline.conversationId pipeline.guard summary) t := by
    induction summaries generalizing t with
    | nil =>
        cases hrun
        exact ⟨t, rfl, rfl, rfl⟩
    | cons summary summaries ih =>
        rw [CompactionPipeline.saveTagSummaries, Program.run_bind] at hrun
        obtain ⟨_, between, hsave, hrun⟩ := Program.andThen_eq_ok hrun
        rw [eq_idle_of_saveTagSummary hsave] at hrun
        obtain ⟨t', rfl, hsegments, hfold⟩ := ih hrun
        refine ⟨t', rfl, hsegments.trans ?_, hfold⟩
        unfold Tables.saveSummary
        cases pipeline.guard <;> rfl
  obtain ⟨t', rfl, hsegments, rfl⟩ := hsaved
  refine ⟨_, rfl, hsegments, fun tag ref => ?_⟩
  have hself (t : Tables) (summary : TagSummary)
      (htag : decide (summary.tag = tag) = true) :
      SummaryNames (t.saveSummary pipeline.conversationId pipeline.guard summary)
        pipeline.conversationId tag ref ↔ ref ∈ summary.sourceSegmentRefs := by
    rw [← of_decide_eq_true htag]
    exact summaryNames_saveSummary_self t _ _ summary ref
  have hother (t : Tables) (summary : TagSummary)
      (htag : decide (summary.tag = tag) = false) :
      SummaryNames (t.saveSummary pipeline.conversationId pipeline.guard summary)
        pipeline.conversationId tag ref ↔
          SummaryNames t pipeline.conversationId tag ref :=
    summaryNames_saveSummary_of_ne (of_decide_eq_false htag) t _ _ ref
  rw [foldl_last_iff (SummaryNames · pipeline.conversationId tag ref)
    (fun summary : TagSummary => decide (summary.tag = tag)) _ hself hother]
  cases (summaries.filter (·.tag = tag)).getLast? <;> rfl

theorem run_loadSummaries (tags : List String) :
    (pipeline.loadSummaries tags).run .quiet (.idle t n) =
      (.ok (tags.map fun tag =>
        t.getSummariesByTags [tag] 1 50 pipeline.conversationId),
        .idle t n) := by
  induction tags with
  | nil => rfl
  | cons tag tags ih => simp [CompactionPipeline.loadSummaries, ih]

theorem run_loadExisting (tags : List String) :
    (pipeline.loadExisting tags).run .quiet (.idle t n) =
      (.ok (tags.map (t.getTagSummary · pipeline.conversationId)),
        .idle t n) := by
  induction tags with
  | nil => rfl
  | cons tag tags ih => simp [CompactionPipeline.loadExisting, ih]

section Built

variable {rollup : String → List StoredSegment → TagRollup}
  {tags : List String} {summariesOf : String → List StoredSegment}
  {existingOf : String → Option TagSummaryRecord} {data : TurnData}

/-- A summary is built for each cover tag with segments that is stale. -/
theorem mem_compactTagSummaries {summary : TagSummary} :
    summary ∈ pipeline.compactTagSummaries rollup
        (tags.map fun tag => (tag, summariesOf tag, existingOf tag)) data ↔
      ∃ tag ∈ tags, summariesOf tag ≠ [] ∧
        CompactionPipeline.stale (existingOf tag) data.maxTurn = true ∧
        pipeline.buildOneTagSummary rollup tag (summariesOf tag) data =
          summary := by
  simp [CompactionPipeline.compactTagSummaries, and_assoc, and_left_comm]

variable (summariesOf existingOf data) in
theorem lastBuilt_of_stale {tag : String} (htag : tag ∈ tags)
    (hsummaries : summariesOf tag ≠ [])
    (hstale : CompactionPipeline.stale (existingOf tag) data.maxTurn = true) :
    ∃ summary, ((pipeline.compactTagSummaries rollup
        (tags.map fun tag => (tag, summariesOf tag, existingOf tag))
          data).filter (·.tag = tag)).getLast? = some summary ∧
      summary.sourceSegmentRefs = (summariesOf tag).map (·.ref) := by
  cases hlast : ((pipeline.compactTagSummaries rollup
      (tags.map fun tag => (tag, summariesOf tag, existingOf tag))
        data).filter (·.tag = tag)).getLast? with
  | none =>
      rw [List.getLast?_eq_none_iff, List.filter_eq_nil_iff] at hlast
      refine absurd (decide_eq_true rfl) (hlast (pipeline.buildOneTagSummary
        rollup tag (summariesOf tag) data) (mem_compactTagSummaries.mpr ?_))
      exact ⟨tag, htag, hsummaries, hstale, rfl⟩
  | some summary =>
      obtain ⟨hbuilt, heq⟩ := List.mem_filter.mp (List.mem_of_getLast? hlast)
      obtain ⟨tag', -, -, -, rfl⟩ := mem_compactTagSummaries.mp hbuilt
      cases of_decide_eq_true heq
      exact ⟨_, rfl, rfl⟩

theorem lastBuilt_eq_none {tag : String}
    (hnot : ¬ (tag ∈ tags ∧ summariesOf tag ≠ [] ∧
      CompactionPipeline.stale (existingOf tag) data.maxTurn = true)) :
    ((pipeline.compactTagSummaries rollup
      (tags.map fun tag => (tag, summariesOf tag, existingOf tag))
        data).filter (·.tag = tag)).getLast? = none := by
  rw [List.getLast?_eq_none_iff, List.filter_eq_nil_iff]
  intro summary hsummary heq
  obtain ⟨tag', htag, hsummaries, hstale, rfl⟩ :=
    mem_compactTagSummaries.mp hsummary
  cases of_decide_eq_true heq
  exact hnot ⟨htag, hsummaries, hstale⟩

end Built

/-- What a build that returns leaves under a tag. -/
theorem buildTagSummaries_saves {rollup : String → List StoredSegment → TagRollup}
    {index : TurnTagIndex} {results : List CompactionResult}
    {compactRows : List CanonicalTurnRow} {report : Nat × List String}
    (hrun : (pipeline.buildTagSummaries rollup index results compactRows).run
      .quiet (.idle t n) = (.ok report, c)) :
    ∃ t', c = .idle t' n ∧ t'.segments = t.segments ∧ ∀ tag ref,
      let summaries :=
        t.getSummariesByTags [tag] 1 50 pipeline.conversationId
      let builds := tag ∈ CompactionPipeline.coverTags index results ∧
        summaries ≠ [] ∧ CompactionPipeline.stale
          (t.getTagSummary tag pipeline.conversationId)
          (lastTurn index compactRows) = true
      (builds → (SummaryNames t' pipeline.conversationId tag ref ↔
        ref ∈ summaries.map (·.ref))) ∧
      (¬ builds → (SummaryNames t' pipeline.conversationId tag ref ↔
        SummaryNames t pipeline.conversationId tag ref)) := by
  rw [CompactionPipeline.buildTagSummaries] at hrun
  by_cases hempty : results.isEmpty
  · rw [if_pos hempty] at hrun
    cases hrun
    rw [List.isEmpty_iff] at hempty
    subst hempty
    refine ⟨t, rfl, rfl, fun tag ref => ⟨fun h => ?_, fun _ => .rfl⟩⟩
    simpa [CompactionPipeline.coverTags, appendMissing] using h.1
  rw [if_neg hempty] at hrun
  dsimp only at hrun
  generalize htags : CompactionPipeline.coverTags index results = tags at hrun ⊢
  by_cases hcover : tags.isEmpty
  · rw [if_pos hcover] at hrun
    cases hrun
    rw [List.isEmpty_iff] at hcover
    subst hcover
    exact ⟨t, rfl, rfl, fun tag ref =>
      ⟨fun h => absurd h.1 List.not_mem_nil, fun _ => .rfl⟩⟩
  rw [if_neg hcover, Program.run_bind, run_loadSummaries, Program.andThen_ok,
    Program.run_bind, run_loadExisting, Program.andThen_ok, Program.run_bind]
    at hrun
  obtain ⟨_, between, hsave, hrun⟩ := Program.andThen_eq_ok hrun
  cases hrun
  obtain ⟨t', rfl, hsegments, hnames⟩ := saveTagSummaries_saves hsave
  refine ⟨t', rfl, hsegments, fun tag ref => ?_⟩
  have hzip : tags.zip ((tags.map fun tag =>
      t.getSummariesByTags [tag] 1 50 pipeline.conversationId).zip
        (tags.map (t.getTagSummary · pipeline.conversationId))) =
      tags.map fun tag =>
        (tag, t.getSummariesByTags [tag] 1 50 pipeline.conversationId,
          t.getTagSummary tag pipeline.conversationId) := by
    conv_lhs => rw [← List.map_id tags]
    simp only [List.map_map, List.zip_map', Function.comp_id]
    rfl
  rw [hzip] at hnames
  rw [hnames tag ref]
  constructor
  · rintro ⟨htag, hsummaries, hstale⟩
    obtain ⟨summary, hlast, hrefs⟩ := lastBuilt_of_stale
      (fun tag => t.getSummariesByTags [tag] 1 50 pipeline.conversationId)
      (t.getTagSummary · pipeline.conversationId)
      (turnData index compactRows tags) htag hsummaries hstale
    rw [hlast, ← hrefs]
  · intro hnot
    rw [lastBuilt_eq_none hnot]

end Stored

/-! ## The segments of a tag -/

/-- All segments of a tag are found if there are not more than the limit. -/
theorem mem_getSummariesByTags {t : Tables} {conversationId : ConversationId}
    {tag : String} (hlimit : (t.tagged conversationId tag).length ≤ 50)
    {stored : StoredSegment} :
    stored ∈ t.getSummariesByTags [tag] 1 50 conversationId ↔
      ∃ segment ∈ t.tagged conversationId tag,
        segment.toStoredSegment = stored := by
  have hoverlap (segment : SegmentRecord) :
      0 < overlapCount [tag] segment ↔ tag ∈ segment.tags := by
    simp [overlapCount, List.length_pos_iff, List.filter_eq_nil_iff]
  have hfilter : (t.segments.filter fun segment =>
      segment.conversationId = conversationId ∧
        0 < overlapCount [tag] segment ∧ 1 ≤ overlapCount [tag] segment) =
      t.tagged conversationId tag := by
    refine List.filter_congr fun segment _ => ?_
    simp [Nat.one_le_iff_ne_zero, ← Nat.pos_iff_ne_zero, hoverlap]
  rw [Tables.getSummariesByTags, Tables.getSegmentsByTags, if_neg (by simp)]
  dsimp only
  rw [hfilter, List.take_of_length_le (by simpa using hlimit), List.mem_map]
  simp

theorem getSummariesByTags_ne_nil {t : Tables}
    {conversationId : ConversationId} {tag : String}
    (hlimit : (t.tagged conversationId tag).length ≤ 50) :
    t.getSummariesByTags [tag] 1 50 conversationId ≠ [] ↔
      t.tagged conversationId tag ≠ [] := by
  constructor
  · intro h
    obtain ⟨stored, hstored⟩ := List.exists_mem_of_ne_nil _ h
    obtain ⟨segment, hsegment, -⟩ := (mem_getSummariesByTags hlimit).mp hstored
    exact List.ne_nil_of_mem hsegment
  · intro h
    obtain ⟨segment, hsegment⟩ := List.exists_mem_of_ne_nil _ h
    exact List.ne_nil_of_mem
      ((mem_getSummariesByTags hlimit).mpr ⟨segment, hsegment, rfl⟩)

/-! ## The claim -/

section Pass

variable {pipeline : CompactionPipeline}
  {rollup : String → List StoredSegment → TagRollup} {index : TurnTagIndex}
  {segments : List TaggedSegment} {compactRows : List CanonicalTurnRow}
  {t : Tables} {n : Nat} {report : PassReport} {c : Conn Tables}

/-- A primary tag of a result is a cover tag, if it is not empty. -/
theorem mem_coverTags {results : List CompactionResult} {tag : String}
    (hprimary : tag ∈ results.map (·.primaryTag)) :
    tag ∈ CompactionPipeline.coverTags index results ↔
      tag ≠ "" ∨ tag ∈ index.computeCoverSet ∧
        ∃ result ∈ results, tag ∈ result.tags := by
  rw [CompactionPipeline.coverTags, mem_appendMissing, List.mem_filter,
    List.mem_filter, or_comm]
  simp [hprimary]

/-- A segment that was written is the record of a write. -/
theorem Stores.record {t' : Tables} {written : List SegmentWrite}
    (h : Stores pipeline t written t') {segment : SegmentRecord}
    (hsegment : segment ∈ t'.segments) (hwritten : WrittenBy written segment) :
    ∃ w ∈ written, w.stored.record pipeline.guard = segment := by
  rw [h.segments, mem_foldl_replaceBy] at hsegment
  rcases hsegment with hlast | ⟨-, hkept⟩
  · obtain ⟨w, hw, heq⟩ := List.mem_map.mp hlast.mem
    exact ⟨w, hw, heq⟩
  · obtain ⟨w, hw, href⟩ := hwritten
    exact absurd href.symm (hkept _ (List.mem_map_of_mem hw))

/--
A pass that returns leaves every segment that it wrote in the summary of its
primary tag exactly if each of them reaches its summary.
-/
theorem summariesNameSegments_iff
    (hkeyed : (t.segments.map (·.ref)).Nodup)
    (hrun : (pipeline.compactionPass rollup index segments compactRows).run
      .quiet (.idle t n) = (.ok report, c))
    (hlimit : ∀ tag,
      (c.durable.tagged pipeline.conversationId tag).length ≤ 50) :
    SummariesNameSegments pipeline.conversationId c.durable report.written ↔
      pipeline.ReachSummaries t c.durable index compactRows report := by
  rw [CompactionPipeline.compactionPass, Program.run_bind] at hrun
  obtain ⟨⟨written, results⟩, between, hstore, hrun⟩ :=
    Program.andThen_eq_ok hrun
  rw [Program.run_bind] at hrun
  obtain ⟨rowcount, marked, hmark, hrun⟩ := Program.andThen_eq_ok hrun
  rw [Program.run_bind] at hrun
  obtain ⟨counted, last, hbuild, hrun⟩ := Program.andThen_eq_ok hrun
  cases hrun
  obtain ⟨t₁, rfl, hstores, hprimary⟩ := compactAndStoreResults_stores hstore
  obtain ⟨t₂, rfl, hsegments₂, hsummaries₂⟩ :=
    markCanonicalTurnsCompacted_keeps hmark
  obtain ⟨t₃, rfl, hsegments₃, hnames⟩ := buildTagSummaries_saves hbuild
  have hsegments : t₃.segments = t₁.segments := hsegments₃.trans hsegments₂
  have htagged (tag : String) : t₂.tagged pipeline.conversationId tag =
      t₃.tagged pipeline.conversationId tag := by
    rw [Tables.tagged, Tables.tagged, hsegments₃]
  have hexisting : t₂.tagSummaries = t.tagSummaries :=
    hsummaries₂.trans hstores.tagSummaries
  have hnodup : (t₃.segments.map (·.ref)).Nodup := by
    rw [hsegments, hstores.segments]
    exact nodup_foldl_replaceBy hkeyed
  refine forall₃_congr fun segment hsegment hwritten => ?_
  dsimp only [Conn.durable_idle] at hlimit hsegment ⊢
  obtain ⟨w, hw, hrecord⟩ := hstores.record (hsegments ▸ hsegment) hwritten
  have hprimary' : segment.primaryTag ∈ results.map (·.primaryTag) := by
    rw [← hprimary, ← hrecord]
    exact List.mem_map_of_mem hw
  have hlimit₂ : (t₂.tagged pipeline.conversationId
      segment.primaryTag).length ≤ 50 := htagged _ ▸ hlimit _
  obtain ⟨hbuilt, hkept⟩ := hnames segment.primaryTag segment.ref
  rw [mem_coverTags hprimary', getSummariesByTags_ne_nil hlimit₂, htagged,
    Tables.getTagSummary, hexisting] at hbuilt hkept
  constructor
  · intro hnamed
    refine ⟨fun hrebuilds => ?_, fun hnot => ?_⟩
    · obtain ⟨stored, hstored, href⟩ :=
        List.mem_map.mp ((hbuilt hrebuilds).mp hnamed)
      obtain ⟨other, hother, rfl⟩ :=
        (mem_getSummariesByTags hlimit₂).mp hstored
      rw [htagged, Tables.tagged, List.mem_filter] at hother
      cases List.inj_on_of_nodup_map hnodup hother.1 hsegment href
      exact (of_decide_eq_true hother.2).2
    · rw [SummaryNames, ← hexisting]
      exact (hkept hnot).mp hnamed
  · rintro ⟨htag, hbefore⟩
    by_cases hrebuilds : pipeline.Rebuilds t t₃ index results compactRows
      segment.primaryTag
    · refine (hbuilt hrebuilds).mpr (List.mem_map.mpr ⟨_,
        (mem_getSummariesByTags hlimit₂).mpr ⟨segment, ?_, rfl⟩, rfl⟩)
      rw [htagged, Tables.tagged, List.mem_filter]
      refine ⟨hsegment, decide_eq_true ⟨?_, htag hrebuilds⟩⟩
      rw [← hrecord]
      exact hstores.conversation w hw
    · refine (hkept hrebuilds).mpr ?_
      rw [SummaryNames, hexisting]
      exact hbefore hrebuilds

end Pass

/-- Two turns on food, the rows of a chat. -/
def foodRows : CanonicalTurns where
  rows := [
    { conversationId := "chat", canonicalTurnId := 1, sortKey := 1000,
      userContent := "q0", assistantContent := "a0", tags := ["food"] },
    { conversationId := "chat", canonicalTurnId := 2, sortKey := 2000,
      userContent := "q1", assistantContent := "a1", tags := ["food"] }]
  primaryKey := by decide
  uniqueSortKey := by decide

def foodIndex : TurnTagIndex where
  entries := [
    { turnNumber := 0, canonicalTurnId := 1, tags := ["food"],
      timestamp := newYear },
    { turnNumber := 1, canonicalTurnId := 2, tags := ["food"],
      timestamp := newYear }]
  distinct := by decide

/-- Segments are not merged and keep their tags. -/
def taggingPipeline : CompactionPipeline :=
  { twoTopics with
    compact := List.map fun prepared =>
      { segmentId := prepared.1.id, primaryTag := prepared.1.primaryTag,
        tags := prepared.1.tags, messages := prepared.1.storedMessages } }

/-- The pass over one of the two rows, with the index of both turns. -/
def foodPass (k : Nat) (seg : TaggedSegment) : StoreProgram PassReport :=
  taggingPipeline.compactionPass (fun _ _ => { summary := "food" }) foodIndex
    [seg] ((Tables.loadRows { canonicalTurns := foodRows } "chat").drop k |>.take 1)

/-- The first pass of a conversation. -/
theorem summariesNameSegments_iff_first :
    ∃ (report : PassReport) (c : Conn Tables),
      SummariesNameSegments "chat" c.durable report.written ↔
      taggingPipeline.ReachSummaries { canonicalTurns := foodRows } c.durable
        foodIndex ((Tables.loadRows { canonicalTurns := foodRows } "chat").drop
          0 |>.take 1) report := by
  have hrun : ((foodPass 0 (foodSegment "s0" "first")).run .quiet
      (.idle { canonicalTurns := foodRows } 2)).1.toBool = true ∧
      ((foodPass 0 (foodSegment "s0" "first")).run .quiet
        (.idle { canonicalTurns := foodRows } 2)).2.durable.segments.length ≤
          50 := by
    decide +kernel
  generalize hresult : (foodPass 0 (foodSegment "s0" "first")).run .quiet
    (.idle { canonicalTurns := foodRows } 2) = result at hrun
  obtain ⟨outcome | report, c⟩ := result
  · cases hrun.1
  · exact ⟨report, c, summariesNameSegments_iff (by decide) hresult fun _ =>
      (List.length_filter_le _ _).trans hrun.2⟩

/-- The index did not grow, so the second segment is in no summary. -/
theorem second_pass_not_summarized :
    ∃ report c report' c',
      (foodPass 0 (foodSegment "s0" "first")).run .quiet
        (.idle { canonicalTurns := foodRows } 2) = (.ok report, c) ∧
      (foodPass 1 (foodSegment "s1" "second")).run .quiet c =
        (.ok report', c') ∧
      (∀ tag, (c'.durable.tagged "chat" tag).length ≤ 50) ∧
      ¬ SummariesNameSegments "chat" c'.durable report'.written := by
  have hshape :
      let first := (foodPass 0 (foodSegment "s0" "first")).run .quiet
        (.idle { canonicalTurns := foodRows } 2)
      let second := (foodPass 1 (foodSegment "s1" "second")).run .quiet first.2
      first.1.toBool = true ∧
        second.1.toOption.map (fun report =>
          report.written.map (·.stored.ref)) = some ["s1"] ∧
        second.2.durable.segments.map (fun segment =>
          (segment.ref, segment.primaryTag)) =
            [("s0", "food"), ("s1", "food")] ∧
        second.2.durable.tagSummaries.map (fun summary =>
          (summary.key, summary.sourceSegmentRefs)) =
            [(("food", "chat"), ["s0"])] := by
    decide +kernel
  generalize (foodPass 0 (foodSegment "s0" "first")).run .quiet
    (.idle { canonicalTurns := foodRows } 2) = first at hshape ⊢
  obtain ⟨outcome | report, c⟩ := first
  · cases hshape.1
  dsimp only at hshape
  generalize hrun : (foodPass 1 (foodSegment "s1" "second")).run .quiet c =
    second at hshape
  obtain ⟨outcome | report', c'⟩ := second
  · cases hshape.2.1
  obtain ⟨-, hwritten, hsegments, hsummaries⟩ := hshape
  refine ⟨report, c, report', c', rfl, hrun, fun tag => ?_, fun h => ?_⟩
  · have hlength := congrArg List.length hsegments
    rw [List.length_map] at hlength
    exact (List.length_filter_le _ _).trans (by simp [hlength])
  · have hsecond : ("s1", "food") ∈ c'.durable.segments.map
        fun segment => (segment.ref, segment.primaryTag) := by
      rw [hsegments]
      decide
    obtain ⟨segment, hsegment, heq⟩ := List.mem_map.mp hsecond
    obtain ⟨href, htag⟩ := Prod.mk.inj heq
    have hrefs : report'.written.map (·.stored.ref) = ["s1"] :=
      Option.some.inj hwritten
    obtain ⟨w, hw, hwref⟩ : ∃ w ∈ report'.written, w.stored.ref = "s1" := by
      rw [← List.mem_map, hrefs]
      decide
    obtain ⟨summary, hsummary, hkey, hnamed⟩ :=
      h segment hsegment ⟨w, hw, hwref.trans href.symm⟩
    have hmem := List.mem_map_of_mem (f := fun summary : TagSummaryRecord =>
      (summary.key, summary.sourceSegmentRefs)) hsummary
    rw [hsummaries, List.mem_singleton] at hmem
    rw [(Prod.mk.inj hmem).2, href] at hnamed
    revert hnamed
    decide

end VirtualContext
