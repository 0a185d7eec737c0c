import VirtualContext.Library.Keyed
import VirtualContext.Storage.Lifecycle

/-!
# The writes of a compaction

Every write of a compaction names its operation.  A guarded statement repeats
the check that the operation still runs, and the call raises when the check
fails; `cleanup_abandoned_compaction` removes what a dead operation wrote.
-/

namespace VirtualContext

open VirtualContext.Library
open VirtualContext.Library.Program

/-! ## Guarded statements -/

/--
`INSERT ... SELECT ... FROM compaction_operation WHERE ...`: no row is written
if the operation is lost, and the call raises.
-/
def guardedWrite (site : Site) (writeSite : String)
    (conversationId : ConversationId) (guard : Option CompactionGuard)
    (change : Tables → Tables) : StoreProgram Unit :=
  match guard with
  | none => update site change
  | some guard => do
      let rowcount ← write site fun tables =>
        .ok (if tables.ownsCompaction conversationId guard then (1, change tables)
          else (0, tables))
      if rowcount = 0 then
        raise site (.compactionLeaseLost guard.operationId writeSite)
      else pure ()

/-- The tag rows of a segment or fact; their key takes each tag once. -/
def insertTags (site : Site) (tags : List String) : StoreProgram Unit :=
  write site fun tables =>
    if tags.Nodup then .ok ((), tables) else .error .integrityError

/-! ## Segments -/

/-- `INSERT OR REPLACE INTO segments` -/
def Tables.replaceSegment (segment : SegmentRecord) (t : Tables) : Tables :=
  { t with segments := replaceBy (·.ref) segment t.segments }

def StoredSegment.record (segment : StoredSegment)
    (guard : Option CompactionGuard) : SegmentRecord :=
  { segment with operationId := guard.map (·.operationId) }

def storeSegment (segment : StoredSegment) (guard : Option CompactionGuard) :
    StoreProgram String :=
  immediately .storeSegment do
    guardedWrite .storeSegment "store_segment" segment.conversationId guard
      (Tables.replaceSegment (segment.record guard))
    insertTags .storeSegment segment.tags
    commit .storeSegment
    pure segment.ref

/-! ## Facts -/

/-- `INSERT OR REPLACE INTO facts`, which does not set `operation_id`. -/
def Tables.replaceFact (fact : Fact) (t : Tables) : Tables :=
  { t with facts := replaceBy (·.id) { fact with } t.facts }

def insertFacts (site : Site) (writeSite : String)
    (guard : Option CompactionGuard) : List Fact → StoreProgram Unit
  | [] => pure ()
  | fact :: facts => do
      guardedWrite site writeSite fact.conversationId guard
        (Tables.replaceFact fact)
      insertTags site fact.tags
      insertFacts site writeSite guard facts

def storeFacts (facts : List Fact) (guard : Option CompactionGuard) :
    StoreProgram Nat :=
  if facts.isEmpty then pure 0
  else
    immediately .storeFacts do
      insertFacts .storeFacts "store_facts" guard facts
      commit .storeFacts
      pure facts.length

/-- `DELETE FROM facts WHERE conversation_id = ? AND segment_ref = ?` -/
def Tables.clearFacts (conversationId : ConversationId) (segmentRef : String)
    (t : Tables) : Tables :=
  { t with
    facts := t.facts.filter fun fact =>
      !(fact.conversationId = conversationId &&
        fact.segmentRef = segmentRef) }

def replaceFactsForSegment (conversationId : ConversationId)
    (segmentRef : String) (facts : List Fact)
    (guard : Option CompactionGuard) : StoreProgram (Nat × Nat) :=
  immediately .replaceFacts do
    let owned ← read .replaceFacts fun tables =>
      guard.all fun guard => tables.ownsCompaction conversationId guard
    match guard, owned with
    | some guard, false =>
        raise .replaceFacts
          (.compactionLeaseLost guard.operationId "replace_facts_for_segment")
    | _, _ =>
        let deleted ← write .replaceFacts fun tables =>
          let kept := tables.clearFacts conversationId segmentRef
          .ok (tables.facts.length - kept.facts.length, kept)
        insertFacts .replaceFacts "replace_facts_for_segment" guard facts
        commit .replaceFacts
        pure (deleted, facts.length)

/-! ## Tag summaries -/

/-- `ON CONFLICT (tag, conversation_id) DO UPDATE SET` -/
def TagSummaryRecord.overwrite (stored new : TagSummaryRecord) :
    TagSummaryRecord :=
  { new with
    createdAt := stored.createdAt
    originConversationId := stored.originConversationId }

def TagSummaryRecord.key (row : TagSummaryRecord) : String × ConversationId :=
  (row.tag, row.conversationId)

def Tables.upsertTagSummary (new : TagSummaryRecord) (t : Tables) : Tables :=
  { t with
    tagSummaries := upsertBy TagSummaryRecord.key TagSummaryRecord.overwrite new
      t.tagSummaries }

/-- `INSERT OR REPLACE INTO tag_summaries` -/
def Tables.replaceTagSummary (new : TagSummaryRecord) (t : Tables) : Tables :=
  { t with
    tagSummaries := replaceBy TagSummaryRecord.key new t.tagSummaries }

def saveTagSummary (summary : TagSummary) (conversationId : ConversationId)
    (guard : Option CompactionGuard) : StoreProgram Unit :=
  immediately .saveTagSummary do
    let row : TagSummaryRecord :=
      { summary with
        conversationId := conversationId
        operationId := guard.map (·.operationId) }
    guardedWrite .saveTagSummary "save_tag_summary" conversationId guard
      (match guard with
      | none => Tables.replaceTagSummary row
      | some _ => Tables.upsertTagSummary row)
    commit .saveTagSummary

/-! ## The cleanup after a takeover -/

/-- The keyword arguments of `cleanup_abandoned_compaction`, and its clock. -/
structure CleanupArgs where
  now : String
  conversationId : ConversationId
  deadOperationId : String
  newOperationId : String
  lifecycleEpoch : Int
  workerId : String
  phaseCount : Int
  deriving DecidableEq, Repr

def abandonOperation (args : CleanupArgs) : StoreProgram Bool := do
  let rowcount ← updateOperations
    (fun _ row => row.operationId = args.deadOperationId &&
      row.conversationId = args.conversationId &&
      row.lifecycleEpoch = args.lifecycleEpoch && row.status = .running)
    fun row =>
      { row with status := .abandoned, completedAt := some args.now }
  pure (0 < rowcount)

/-- The statements after the first, each of which is durable at once. -/
inductive CleanupStatement where
  | deleteSegments
  | deleteFacts
  | deleteTagSummaries
  | deleteTagSummaryEmbeddings
  | resetCanonicalTurns
  | insertOperation
  deriving DecidableEq, Repr

/-- `SET compacted_at = NULL, compaction_operation_id = NULL` -/
def resetCompaction (args : CleanupArgs) : CanonicalTurns.ColumnUpdate where
  apply row :=
    if row.conversationId = args.conversationId ∧
        row.compactionOperationId = some args.deadOperationId
    then
      { row with
        compactedAt := none
        compactionOperationId := none
        updatedAt := args.now }
    else row
  id_eq row := by split <;> rfl
  conversation_eq row := by split <;> rfl
  sortKey_eq row := by split <;> rfl

namespace CleanupArgs

/-- `WHERE operation_id = ? AND conversation_id = ?` -/
def ofDeadOperation (args : CleanupArgs) (operationId : Option String)
    (conversationId : ConversationId) : Bool :=
  operationId = some args.deadOperationId &&
    conversationId = args.conversationId

def newOperation (args : CleanupArgs) : CompactionOperationRecord where
  operationId := args.newOperationId
  conversationId := args.conversationId
  lifecycleEpoch := args.lifecycleEpoch
  phaseCount := args.phaseCount
  phaseName := "starting"
  status := .running
  startedAt := args.now
  heartbeatTs := args.now
  ownerWorkerId := args.workerId
  createdAt := args.now

end CleanupArgs

def CleanupStatement.change (args : CleanupArgs) :
    CleanupStatement → Tables → Tables
  | deleteSegments, t =>
      { t with
        segments := t.segments.filter fun row =>
          !args.ofDeadOperation row.operationId row.conversationId }
  | deleteFacts, t =>
      { t with
        facts := t.facts.filter fun row =>
          !args.ofDeadOperation row.operationId row.conversationId }
  | deleteTagSummaries, t =>
      { t with
        tagSummaries := t.tagSummaries.filter fun row =>
          !args.ofDeadOperation row.operationId row.conversationId }
  | deleteTagSummaryEmbeddings, t =>
      { t with
        tagSummaryEmbeddings := t.tagSummaryEmbeddings.filter fun row =>
          !args.ofDeadOperation row.operationId row.conversationId }
  | resetCanonicalTurns, t =>
      { t with canonicalTurns := t.canonicalTurns.update (resetCompaction args) }
  | insertOperation, t =>
      { t with compactionOperation := t.compactionOperation ++ [args.newOperation] }

def CleanupStatement.program (args : CleanupArgs)
    (statement : CleanupStatement) : StoreProgram Unit :=
  match statement with
  | insertOperation => VirtualContext.insertOperation args.newOperation
  | statement => update .cleanupCompaction (statement.change args)

/-- The new operation is started only if the dead one was still running. -/
def cleanupStatements (freshTakeover : Bool) : List CleanupStatement :=
  [.deleteSegments, .deleteFacts, .deleteTagSummaries,
    .deleteTagSummaryEmbeddings, .resetCanonicalTurns] ++
    if freshTakeover then [.insertOperation] else []

def runCleanupStatements (args : CleanupArgs) :
    List CleanupStatement → StoreProgram Unit
  | [] => pure ()
  | statement :: statements => do
      statement.program args
      runCleanupStatements args statements

def cleanupAbandonedCompaction (depth : Nat) (args : CleanupArgs) :
    StoreProgram Bool :=
  withConn .cleanupCompaction do
    let freshTakeover ← abandonOperation args
    runCleanupStatements args (cleanupStatements freshTakeover)
    commitIfUnlocked depth .cleanupCompaction
    pure freshTakeover

end VirtualContext
