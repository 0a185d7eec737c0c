import VirtualContext.Core.Segmenter
import VirtualContext.Core.TurnTagIndex
import VirtualContext.Storage.CompactionWrites

/-!
# The compaction pipeline

The rows to compact are segmented as messages.  A cursor over the rows then
attributes to each segment as many rows as it has turns, stubs are stored as
they are, and the other segments are stored with the results of the compactor,
in a segment of their own or in a stored one that they are merged into.
-/

namespace VirtualContext

open VirtualContext.Library
open VirtualContext.Library.Program

/-! ## Data -/

/-- The entries of a segment in the dictionaries keyed by its identifier. -/
structure Attribution where
  turnRange : Int × Int
  canonicalTurnIds : List Uuid
  signals : List FactSignal
  codeRefs : List CodeRef
  deriving DecidableEq, Repr

structure CompactionResult where
  segmentId : String
  primaryTag : String
  tags : List String := []
  summary : String := ""
  summaryTokens : Int := 0
  originalTokens : Int := 0
  compressionRatio : ℚ := 0
  metadata : SegmentMetadata := {}
  fullText : String := ""
  messages : List SegmentMessage := []
  timestamp : String := ""
  deriving DecidableEq, Repr

/--
The pipeline and what it calls: the stub test, the lookup in the turn tag
index, the relatedness of a segment with a stored one and the recency of that,
and the compactor.
-/
structure CompactionPipeline where
  conversationId : ConversationId
  mergeLookback : Nat
  maxSegmentTokens : Int
  mergeOverlapThreshold : ℚ
  segmenter : TopicSegmenter
  supply : SegmentSupply
  closerToPrevious : TaggedSegment → TaggedSegment → TaggedSegment → Bool
  isStubContent : String → Bool
  entryOfTurn : CanonicalTurnRow → Option TurnTagEntry
  computeRelatedness : TaggedSegment → StoredSegment → ℚ
  recency : StoredSegment → ℚ
  compact : List (TaggedSegment × Attribution) → List CompactionResult
  modelName : String
  generatedByTurnId : String
  now : String
  guard : Option CompactionGuard

/-- A segment to compact, with the range of the stored one if it is merged. -/
structure PreparedSegment where
  segment : TaggedSegment
  attribution : Attribution
  existingRange : Option (Int × Int) := none
  deriving DecidableEq, Repr

/-- A segment as it was handed to the store. -/
structure SegmentWrite where
  segment : TaggedSegment
  stored : StoredSegment
  deriving DecidableEq, Repr

/-! ## Attribution -/

/-- The messages of a row, numbered by its place. -/
def messagesOfRow (i : Nat) (row : CanonicalTurnRow) : List RowMessage :=
  [{ role := "user", content := row.userContent, row := some i },
   { role := "assistant", content := row.assistantContent, row := some i }]

/-- The messages of `_load_compactable_rows`. -/
def messagesOfRows (rows : List CanonicalTurnRow) : List RowMessage :=
  (rows.mapIdx messagesOfRow).flatten

namespace CompactionPipeline

variable (pipeline : CompactionPipeline)

def attribution (segCursor segTurnCount : Nat)
    (segRows : List CanonicalTurnRow) : Attribution :=
  let entries := segRows.filterMap pipeline.entryOfTurn
  { turnRange :=
      match segRows.head?, segRows.getLast? with
      | some first, some last => (first.turnNumber, last.turnNumber + 1)
      | _, _ => (segCursor, (segCursor + segTurnCount : Nat))
    canonicalTurnIds := (segRows.map (·.canonicalTurnId)).filter (· ≠ 0)
    signals := entries.flatMap (·.factSignals)
    codeRefs := entries.flatMap (·.codeRefs) }

/-- The loop over the segments that moves the cursor over the rows. -/
def attributeRows (compactRows : List CanonicalTurnRow) :
    Nat → List TaggedSegment → List (TaggedSegment × Attribution)
  | _, [] => []
  | segCursor, seg :: segments =>
      let segTurnCount :=
        if seg.turnCount ≠ 0 then seg.turnCount else seg.messages.length / 2
      let segRows := (compactRows.drop segCursor).take segTurnCount
      (seg, pipeline.attribution segCursor segTurnCount segRows) ::
          attributeRows compactRows (segCursor + segTurnCount) segments

end CompactionPipeline

/-! ## Preparing the segments -/

def RowMessage.stored (msg : RowMessage) : SegmentMessage :=
  ⟨msg.role, msg.content⟩

/-- The number of the tags that a stored segment shares with the given ones. -/
def overlapCount (tags : List String) (segment : SegmentRecord) : Nat :=
  (segment.tags.filter (· ∈ tags)).length

/-- `get_segments_by_tags` -/
def Tables.getSegmentsByTags (t : Tables) (tags : List String)
    (minOverlap limit : Nat) (conversationId : ConversationId) :
    List StoredSegment :=
  if tags.isEmpty then []
  else
    let matching := t.segments.filter fun segment =>
      segment.conversationId = conversationId ∧
        0 < overlapCount tags segment ∧ minOverlap ≤ overlapCount tags segment
    ((matching.mergeSort fun segment segment' =>
      overlapCount tags segment' < overlapCount tags segment ||
        (overlapCount tags segment' = overlapCount tags segment &&
          segment'.createdAt ≤ segment.createdAt)).take limit).map
      (·.toStoredSegment)

namespace CompactionPipeline

variable (pipeline : CompactionPipeline)

/-- The candidate with the best combined score, the first one of several. -/
def bestCandidate (seg : TaggedSegment) (candidates : List StoredSegment) :
    Option StoredSegment :=
  (candidates.foldl (fun (best : Option StoredSegment × ℚ) candidate =>
    if pipeline.maxSegmentTokens < candidate.fullTokens + seg.tokenCount then
      best
    else if pipeline.computeRelatedness seg candidate <
        pipeline.mergeOverlapThreshold then best
    else
      let combinedScore :=
        pipeline.computeRelatedness seg candidate * pipeline.recency candidate
      if best.2 < combinedScore then (some candidate, combinedScore)
      else best) (none, 0)).1

/-- The turns of the stored segment come first. -/
def mergeInto (seg : TaggedSegment) (candidate : StoredSegment) :
    TaggedSegment :=
  { seg with
    messages := candidate.messages.map (fun msg =>
      { role := msg.role, content := msg.content }) ++ seg.messages
    mergeRef := candidate.ref
    tokenCount := seg.tokenCount + candidate.fullTokens.toNat
    startTimestamp := candidate.startTimestamp
    turnCount := seg.turnCount + candidate.metadata.turnCount.toNat
    tags := appendMissing (appendMissing [] candidate.tags) seg.tags }

def existingRange (candidate : StoredSegment) : Option (Int × Int) :=
  let oldStart := candidate.metadata.startTurnNumber
  let oldEnd := candidate.metadata.endTurnNumber
  if 0 ≤ oldStart ∧ oldStart ≤ oldEnd then some (oldStart, oldEnd) else none

/-- A stub is stored as it is. -/
def passthrough (seg : TaggedSegment) (attribution : Attribution) :
    StoredSegment :=
  let text := pyStrip (joinContents seg.messages)
  let turnRange := attribution.turnRange
  { ref := seg.id
    conversationId := pipeline.conversationId
    primaryTag := seg.primaryTag
    tags := seg.tags
    summary :=
      if text ≠ "" then text else "[empty turn: " ++ seg.primaryTag ++ "]"
    summaryTokens := seg.tokenCount
    fullText := text
    fullTokens := seg.tokenCount
    messages := seg.messages.map (·.stored)
    metadata :=
      { codeRefs := attribution.codeRefs
        turnCount := seg.turnCount
        canonicalTurnIds := attribution.canonicalTurnIds
        startTurnNumber := turnRange.1
        endTurnNumber := if turnRange.1 < turnRange.2 then turnRange.2 - 1 else -1
        generatedByTurnId := pipeline.generatedByTurnId
        sessionDate := seg.sessionDate }
    createdAt := pipeline.now
    compactionModel := "passthrough"
    compressionRatio := 1
    startTimestamp := seg.startTimestamp
    endTimestamp := seg.startTimestamp }

/-- The first pass: what is stored at once, and what is to be compacted. -/
def prepare : List (TaggedSegment × Attribution) →
    StoreProgram (List SegmentWrite × List PreparedSegment)
  | [] => pure ([], [])
  | (seg, attribution) :: rest =>
      if pipeline.isStubContent (joinContents seg.messages) then do
        let stored := pipeline.passthrough seg attribution
        let _ ← storeSegment stored pipeline.guard
        let (written, prepared) ← prepare rest
        pure (⟨seg, stored⟩ :: written, prepared)
      else do
        let candidates ← read .segmentsByTags fun tables =>
          if 0 < pipeline.mergeLookback then
            tables.getSegmentsByTags seg.tags 1 pipeline.mergeLookback
              pipeline.conversationId
          else []
        let (written, prepared) ← prepare rest
        pure (written,
          match pipeline.bestCandidate seg candidates with
          | some candidate =>
              ⟨mergeInto seg candidate, attribution,
                existingRange candidate⟩ :: prepared
          | none => ⟨seg, attribution, none⟩ :: prepared)

/-! ## Storing the results -/

/-- The exact range of the turns of a segment, if it is known. -/
def exactRange (prepared : PreparedSegment) : Int × Int :=
  let newTurnRange := prepared.attribution.turnRange
  if newTurnRange.1 < newTurnRange.2 then
    let newStart := newTurnRange.1
    let newEnd := newTurnRange.2 - 1
    if prepared.segment.mergeRef ≠ "" then
      match prepared.existingRange with
      | some range => (min range.1 newStart, max range.2 newEnd)
      | none => (-1, -1)
    else (newStart, newEnd)
  else (-1, -1)

/-- The segment that is stored with the result of the compactor. -/
def compacted (prepared : PreparedSegment) (result : CompactionResult) :
    StoredSegment :=
  let seg := prepared.segment
  { ref := if seg.mergeRef ≠ "" then seg.mergeRef else result.segmentId
    conversationId := pipeline.conversationId
    primaryTag := result.primaryTag
    tags := if seg.mergeRef ≠ "" then seg.tags else result.tags
    summary := result.summary
    summaryTokens := result.summaryTokens
    fullText := result.fullText
    fullTokens := result.originalTokens
    messages := result.messages
    metadata :=
      { result.metadata with
        startTurnNumber := (exactRange prepared).1
        endTurnNumber := (exactRange prepared).2
        generatedByTurnId := pipeline.generatedByTurnId
        canonicalTurnIds := prepared.attribution.canonicalTurnIds }
    createdAt := pipeline.now
    compactionModel := pipeline.modelName
    compressionRatio := result.compressionRatio
    startTimestamp :=
      if seg.mergeRef ≠ "" then seg.startTimestamp else result.timestamp
    endTimestamp := result.timestamp }

/-- The loop over the results, one for each prepared segment. -/
def storeResults : List (PreparedSegment × CompactionResult) →
    StoreProgram (List SegmentWrite)
  | [] => pure []
  | (prepared, result) :: rest => do
      let stored := pipeline.compacted prepared result
      -- update_segment hands the segment on to store_segment
      let _ ← storeSegment stored pipeline.guard
      let written ← storeResults rest
      pure (⟨prepared.segment, stored⟩ :: written)

/-- `_compact_and_store` -/
def compactAndStore (segments : List TaggedSegment)
    (compactRows : List CanonicalTurnRow) :
    StoreProgram (List SegmentWrite) := do
  let (stubs, prepared) ← pipeline.prepare
    (pipeline.attributeRows compactRows 0 segments)
  let results := pipeline.compact
    (prepared.map fun prepared => (prepared.segment, prepared.attribution))
  let written ← pipeline.storeResults (prepared.zip results)
  pure (stubs ++ written)

/-- The segments of the rows; the first turn number is that of the first row. -/
def segmentRows (compactRows : List CanonicalTurnRow) : List TaggedSegment :=
  let turnOffset := (compactRows.head?.map (·.turnNumber)).getD 0
  pipeline.segmenter.segment pipeline.supply pipeline.closerToPrevious
    (messagesOfRows compactRows) turnOffset

/-- `_run_compaction` up to the tag summaries. -/
def runCompaction (compactRows : List CanonicalTurnRow) :
    StoreProgram (List SegmentWrite) := do
  let written ← pipeline.compactAndStore (pipeline.segmentRows compactRows)
    compactRows
  let compactedTurnIds :=
    (compactRows.map (·.canonicalTurnId)).filter (· ≠ 0)
  let _ ← markCanonicalTurnsCompacted 0 pipeline.now pipeline.conversationId
    compactedTurnIds none pipeline.guard
  pure written

end CompactionPipeline

end VirtualContext
