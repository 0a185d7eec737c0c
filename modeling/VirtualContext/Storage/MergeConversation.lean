import VirtualContext.Storage.Store

/-!
# Merging one conversation into another

`merge_conversation_data` in one explicit transaction.  The canonical rows are
shifted behind those of the target; rows that refer to a turn by its number are
moved with the number that they have.
-/

namespace VirtualContext

open VirtualContext.Library
open VirtualContext.Library.Program

/-- The arguments; the engine refuses to merge a conversation into itself. -/
structure MergeArgs where
  mergeId : String
  tenantId : String
  sourceConversationId : ConversationId
  targetConversationId : ConversationId
  sortKeyOffset : ℚ := 0
  expectedTargetLifecycleEpoch : Int
  expectedSourceLifecycleEpoch : Option Int := none
  distinct : sourceConversationId ≠ targetConversationId

structure MergeStats where
  sortKeyOffset : ℚ
  turnsMoved : Nat
  deriving DecidableEq, Repr

/-- The phases in which a conversation takes part in no merge. -/
def Phase.refusesMerge : Phase → Bool
  | .ingesting | .compacting | .deleted | .merged => true
  | .init | .active => false

/-! ## The checks under the write lock -/

def checkReservation (args : MergeArgs) (tables : Tables) : Except Exc Unit :=
  if tables.mergeAudit.any fun audit =>
      audit.tenantId = args.tenantId ∧ audit.mergeId = args.mergeId ∧
        audit.status = .inProgress
  then .ok ()
  else .error (.mergeAuditMissing args.tenantId args.mergeId)

def checkSource (args : MergeArgs) (tables : Tables) : Except Exc Unit :=
  match tables.conversation? args.sourceConversationId with
  | none => .error (.crossTenantMergeError args.sourceConversationId)
  | some source =>
      if source.tenantId ≠ args.tenantId then
        .error (.crossTenantMergeError args.sourceConversationId)
      else if args.expectedSourceLifecycleEpoch.any
          (· ≠ source.lifecycleEpoch) then
        .error (.mergeEpochMismatch args.sourceConversationId
          (some source.lifecycleEpoch))
      else if source.phase.refusesMerge then
        .error (.mergeBusy "merge_busy_phase")
      else .ok ()

def checkTarget (args : MergeArgs) (tables : Tables) : Except Exc Unit :=
  match tables.conversations.find? fun row =>
      row.tenantId = args.tenantId ∧
        row.conversationId = args.targetConversationId with
  | none => .error (.mergeEpochMismatch args.targetConversationId none)
  | some target =>
      if target.lifecycleEpoch ≠ args.expectedTargetLifecycleEpoch then
        .error (.mergeEpochMismatch args.targetConversationId
          (some target.lifecycleEpoch))
      else if target.phase.refusesMerge then
        .error (.mergeBusy "merge_busy_phase")
      else .ok ()

def checkCompaction (args : MergeArgs) (tables : Tables) : Except Exc Unit :=
  if tables.compactionOperation.any fun operation =>
      (operation.conversationId = args.sourceConversationId ∨
        operation.conversationId = args.targetConversationId) ∧
      (operation.status = .queued ∨ operation.status = .running)
  then .error (.mergeBusy "merge_busy_compact")
  else .ok ()

def checkIngestion (args : MergeArgs) (tables : Tables) : Except Exc Unit :=
  if tables.ingestionEpisode.any fun episode =>
      (episode.conversationId = args.sourceConversationId ∨
        episode.conversationId = args.targetConversationId) ∧
      episode.status = .running
  then .error (.mergeBusy "merge_busy_ingest")
  else .ok ()

/-- The checks in the order of the source. -/
def mergeChecks : List (MergeArgs → Tables → Except Exc Unit) :=
  [checkReservation, checkSource, checkTarget, checkCompaction, checkIngestion]

def runChecks (args : MergeArgs) :
    List (MergeArgs → Tables → Except Exc Unit) → StoreProgram Unit
  | [] => pure ()
  | check :: checks => do
      let outcome ← read .mergeConversation (check args)
      ofExcept .mergeConversation outcome
      runChecks args checks

/-! ## The moves -/

/-- The offset recomputed under the lock, with the caller's value as a floor. -/
def Tables.mergeOffset (t : Tables) (args : MergeArgs) : ℚ :=
  max args.sortKeyOffset (t.maxSortKey args.targetConversationId + 1000)

/-- `COALESCE(NULLIF(origin_conversation_id, ''), ?)` -/
def MergeArgs.origin (args : MergeArgs) (originConversationId : String) :
    String :=
  if originConversationId = "" then args.sourceConversationId
  else originConversationId

/-- The UPDATE of one row of the source. -/
def moveTurn (args : MergeArgs) (offset : ℚ) (row : CanonicalTurnRecord) :
    CanonicalTurnRecord :=
  if row.conversationId = args.sourceConversationId then
    { row with
      conversationId := args.targetConversationId
      originConversationId := args.origin row.originConversationId
      sortKey := row.sortKey + offset
      compactedAt := none }
  else row

def moveSegment (args : MergeArgs) (row : SegmentRecord) : SegmentRecord :=
  if row.conversationId = args.sourceConversationId then
    { row with
      conversationId := args.targetConversationId
      originConversationId := args.origin row.originConversationId }
  else row

def moveFact (args : MergeArgs) (row : FactRecord) : FactRecord :=
  if row.conversationId = args.sourceConversationId then
    { row with
      conversationId := args.targetConversationId
      originConversationId := args.origin row.originConversationId }
  else row

def moveTurnToolOutput (args : MergeArgs) (row : TurnToolOutputRecord) :
    TurnToolOutputRecord :=
  if row.conversationId = args.sourceConversationId then
    { row with
      conversationId := args.targetConversationId
      originConversationId := args.origin row.originConversationId }
  else row

def moveChainSnapshot (args : MergeArgs) (row : ChainSnapshotRecord) :
    ChainSnapshotRecord :=
  if row.conversationId = args.sourceConversationId then
    { row with
      conversationId := args.targetConversationId
      originConversationId := args.origin row.originConversationId }
  else row

def moveTagSummary (args : MergeArgs) (row : TagSummaryRecord) :
    TagSummaryRecord :=
  if row.conversationId = args.sourceConversationId then
    { row with
      conversationId := args.targetConversationId
      originConversationId := args.origin row.originConversationId }
  else row

def moveTagSummaryEmbedding (args : MergeArgs)
    (row : TagSummaryEmbeddingRecord) : TagSummaryEmbeddingRecord :=
  if row.conversationId = args.sourceConversationId then
    { row with
      conversationId := args.targetConversationId
      originConversationId := args.origin row.originConversationId }
  else row

/-- The target has the same output linked to a turn of the same number. -/
def Tables.linkConflict (t : Tables) (args : MergeArgs) : Bool :=
  t.turnToolOutputs.any fun row =>
    row.conversationId = args.sourceConversationId &&
      t.turnToolOutputs.any fun other =>
        other.conversationId = args.targetConversationId &&
          other.turnNumber = row.turnNumber &&
          other.toolOutputRef = row.toolOutputRef

def moveAnchor (args : MergeArgs) (anchor : CanonicalTurnAnchor) :
    CanonicalTurnAnchor :=
  if anchor.conversationId = args.sourceConversationId then
    { anchor with conversationId := args.targetConversationId }
  else anchor

def moveBatch (args : MergeArgs) (batch : IngestBatchRecord) :
    IngestBatchRecord :=
  if batch.conversationId = args.sourceConversationId then
    { batch with conversationId := args.targetConversationId }
  else batch

/-- The source conversation ends in phase `merged`. -/
def flipPhase (args : MergeArgs) (row : ConversationRecord) :
    ConversationRecord :=
  if row.tenantId = args.tenantId ∧
      row.conversationId = args.sourceConversationId then
    { row with phase := .merged }
  else row

def finalizeAudit (args : MergeArgs) (audit : MergeAuditRecord) :
    MergeAuditRecord :=
  if audit.tenantId = args.tenantId ∧ audit.mergeId = args.mergeId ∧
      audit.status = .inProgress then
    { audit with status := .committed }
  else audit

def moveTurnToolOutputs (args : MergeArgs) (tables : Tables) :
    Except Exc (Unit × Tables) :=
  if tables.linkConflict args then .error .integrityError
  else .ok ((), { tables with
    turnToolOutputs := tables.turnToolOutputs.map (moveTurnToolOutput args) })

/-- The tables of which every row of the source is moved as it is. -/
def moveSimpleTables (args : MergeArgs) : StoreProgram Unit := do
  Program.update .mergeConversation fun tables =>
    { tables with segments := tables.segments.map (moveSegment args) }
  Program.update .mergeConversation fun tables =>
    { tables with
      canonicalTurnAnchors := tables.canonicalTurnAnchors.map (moveAnchor args) }
  Program.update .mergeConversation fun tables =>
    { tables with ingestBatches := tables.ingestBatches.map (moveBatch args) }
  Program.update .mergeConversation fun tables =>
    { tables with facts := tables.facts.map (moveFact args) }
  write .mergeConversation (moveTurnToolOutputs args)
  Program.update .mergeConversation fun tables =>
    { tables with
      chainSnapshots := tables.chainSnapshots.map (moveChainSnapshot args) }

def moveCanonicalTurns (args : MergeArgs) (offset : ℚ) (tables : Tables) :
    Except Exc (Nat × Tables) := do
  let canonicalTurns ← CanonicalTurns.ofRows
    (tables.canonicalTurns.rows.map (moveTurn args offset))
  pure ((tables.canonicalTurns.ordered args.sourceConversationId).length,
    { tables with canonicalTurns })

/-- Of two summaries of one tag, that of the target stays. -/
def resolveTagSummaries (args : MergeArgs) (rows : List TagSummaryRecord) :
    List TagSummaryRecord :=
  (rows.filter fun row =>
    !(row.conversationId = args.sourceConversationId &&
      rows.any fun other =>
        other.conversationId = args.targetConversationId &&
          other.tag = row.tag)).map (moveTagSummary args)

def resolveTagSummaryEmbeddings (args : MergeArgs)
    (rows : List TagSummaryEmbeddingRecord) : List TagSummaryEmbeddingRecord :=
  (rows.filter fun row =>
    !(row.conversationId = args.sourceConversationId &&
      rows.any fun other =>
        other.conversationId = args.targetConversationId &&
          other.tag = row.tag)).map (moveTagSummaryEmbedding args)

def mergeMoves (args : MergeArgs) (offset : ℚ) : StoreProgram Nat := do
  moveSimpleTables args
  let moved ← write .mergeConversation (moveCanonicalTurns args offset)
  Program.update .mergeConversation fun tables =>
    { tables with
      tagSummaries := resolveTagSummaries args tables.tagSummaries }
  Program.update .mergeConversation fun tables =>
    { tables with
      tagSummaryEmbeddings :=
        resolveTagSummaryEmbeddings args tables.tagSummaryEmbeddings }
  Program.update .mergeConversation fun tables =>
    { tables with conversations := tables.conversations.map (flipPhase args) }
  Program.update .mergeConversation fun tables =>
    { tables with mergeAudit := tables.mergeAudit.map (finalizeAudit args) }
  pure moved

def mergeConversationData (args : MergeArgs) : StoreProgram MergeStats := do
  beginImmediate .mergeConversation .operationalError
  let body : StoreProgram MergeStats := do
    runChecks args mergeChecks
    let offset ← read .mergeConversation fun tables => tables.mergeOffset args
    let moved ← mergeMoves args offset
    commit .mergeConversation
    pure ⟨offset, moved⟩
  body.tryCatch fun raised => do
    rollback .mergeConversation
    .fail raised

end VirtualContext
