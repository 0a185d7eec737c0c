import VirtualContext.Storage.Store

/-!
# The lifecycle of a conversation

The statements on `conversations`, `ingestion_episode` and
`compaction_operation`.  Most of them carry the lifecycle epoch that the caller
has in memory and repeat the check against it in their own WHERE clause.
-/

namespace VirtualContext

open VirtualContext.Library
open VirtualContext.Library.Program

/-! ## Statements on the three tables -/

/-- `UPDATE conversations SET ... WHERE ...`, with the number of rows. -/
def updateConversations (p : ConversationRecord → Bool)
    (f : ConversationRecord → ConversationRecord) : StoreProgram Nat :=
  write .conversations fun tables =>
    .ok ((tables.conversations.filter p).length,
      { tables with
        conversations := tables.conversations.map fun row =>
          if p row then f row else row })

/-- `UPDATE ingestion_episode SET ... WHERE ...` -/
def updateEpisodes (p : Tables → IngestionEpisodeRecord → Bool)
    (f : IngestionEpisodeRecord → IngestionEpisodeRecord) : StoreProgram Nat :=
  write .ingestionEpisode fun tables =>
    .ok ((tables.ingestionEpisode.filter (p tables)).length,
      { tables with
        ingestionEpisode := tables.ingestionEpisode.map fun row =>
          if p tables row then f row else row })

/-- `UPDATE compaction_operation SET ... WHERE ...` -/
def updateOperations (p : Tables → CompactionOperationRecord → Bool)
    (f : CompactionOperationRecord → CompactionOperationRecord) :
    StoreProgram Nat :=
  write .compactionOperation fun tables =>
    .ok ((tables.compactionOperation.filter (p tables)).length,
      { tables with
        compactionOperation := tables.compactionOperation.map fun row =>
          if p tables row then f row else row })

/-- `lifecycle_epoch = (SELECT lifecycle_epoch FROM conversations ...)` -/
def Tables.currentEpoch (t : Tables) (conversationId : ConversationId)
    (epoch : Int) : Bool :=
  (t.conversation? conversationId).any (·.lifecycleEpoch = epoch)

def IngestionEpisodeRecord.runsAt (row : IngestionEpisodeRecord)
    (conversationId : ConversationId) (lifecycleEpoch : Int) : Bool :=
  row.conversationId = conversationId && row.status = .running &&
    row.lifecycleEpoch = lifecycleEpoch

/-- The row violates the foreign key or the index of running episodes. -/
def Tables.rejectsEpisode (t : Tables) (episode : IngestionEpisodeRecord) :
    Bool :=
  (t.conversation? episode.conversationId).isNone ||
    t.ingestionEpisode.any fun row =>
      row.episodeId = episode.episodeId ||
        row.runsAt episode.conversationId episode.lifecycleEpoch

def insertEpisode (episode : IngestionEpisodeRecord) : StoreProgram Unit :=
  write .ingestionEpisode fun tables =>
    if tables.rejectsEpisode episode then .error .integrityError
    else .ok ((),
      { tables with ingestionEpisode := tables.ingestionEpisode ++ [episode] })

def CompactionOperationRecord.activeAt (row : CompactionOperationRecord)
    (conversationId : ConversationId) (lifecycleEpoch : Int) : Bool :=
  row.conversationId = conversationId && row.active &&
    row.lifecycleEpoch = lifecycleEpoch

/-- The row violates the key or the index of active operations. -/
def Tables.rejectsOperation (t : Tables)
    (operation : CompactionOperationRecord) : Bool :=
  (t.conversation? operation.conversationId).isNone ||
    t.compactionOperation.any fun row =>
      row.operationId = operation.operationId ||
        row.activeAt operation.conversationId operation.lifecycleEpoch

def insertOperation (operation : CompactionOperationRecord) :
    StoreProgram Unit :=
  write .compactionOperation fun tables =>
    if tables.rejectsOperation operation then .error .integrityError
    else .ok ((),
      { tables with
        compactionOperation := tables.compactionOperation ++ [operation] })

/-- `BEGIN IMMEDIATE` ... `conn.commit()`, rolled back by an exception. -/
def immediately {α : Type} (site : Site) (body : StoreProgram α) :
    StoreProgram α := do
  beginImmediate site .operationalError
  body.tryCatch fun raised => do
    rollback site
    .fail raised

/-! ## Creation, deletion and resurrection -/

def Tables.upsertConversation (now tenantId : String)
    (conversationId : ConversationId) (t : Tables) : Tables :=
  { t with
    conversations :=
      if (t.conversation? conversationId).isSome then
        t.conversations.map fun row =>
          if row.conversationId = conversationId then
            { row with updatedAt := now }
          else row
      else
        t.conversations ++
          [{ conversationId := conversationId
             tenantId := tenantId
             createdAt := now
             updatedAt := now }] }

def upsertConversation (now tenantId : String)
    (conversationId : ConversationId) : StoreProgram Unit :=
  withConn .conversations
    (update .conversations
      (Tables.upsertConversation now tenantId conversationId))

def abandonEpisode (now : String) (episode : IngestionEpisodeRecord) :
    IngestionEpisodeRecord :=
  { episode with
    status := .abandoned
    completedAt := episode.completedAt.or (some now) }

def cancelOperation (now : String) (operation : CompactionOperationRecord) :
    CompactionOperationRecord :=
  { operation with
    status := .cancelled
    completedAt := operation.completedAt.or (some now) }

/-- Episodes and operations of the chosen epochs end without completion. -/
def endActiveWork (now : String) (conversationId : ConversationId)
    (epochs : Int → Bool) : StoreProgram Unit := do
  let _ ← updateEpisodes
    (fun _ row => row.conversationId = conversationId &&
      epochs row.lifecycleEpoch && row.status = .running)
    (abandonEpisode now)
  let _ ← updateOperations
    (fun _ row => row.conversationId = conversationId &&
      epochs row.lifecycleEpoch && row.active)
    (cancelOperation now)
  pure ()

def ConversationRecord.markDeleted (now : String) (row : ConversationRecord) :
    ConversationRecord :=
  { row with
    phase := .deleted
    deletedAt := some now
    updatedAt := now }

def markConversationDeleted (now : String) (conversationId : ConversationId) :
    StoreProgram Unit :=
  withConn .conversations do
    let rowcount ← updateConversations (·.conversationId = conversationId)
      (·.markDeleted now)
    if rowcount = 0 then
      raise .conversations (.keyError conversationId)
    else endActiveWork now conversationId fun _ => true

def ConversationRecord.resurrect (now : String) (row : ConversationRecord) :
    ConversationRecord :=
  { row with
    lifecycleEpoch := row.lifecycleEpoch + 1
    phase := .init
    deletedAt := none
    updatedAt := now }

def incrementLifecycleEpochOnResurrect (now : String)
    (conversationId : ConversationId) : StoreProgram Int := do
  let row ← immediately .conversations do
    let _ ← updateConversations
      (fun row => row.conversationId = conversationId && row.phase = .deleted)
      (·.resurrect now)
    let row ← read .conversations fun tables =>
      tables.conversation? conversationId
    match row with
    | none => pure ()
    | some row =>
        endActiveWork now conversationId (decide <| · < row.lifecycleEpoch)
    commit .conversations
    pure row
  match row with
  | none => raise .conversations (.keyError conversationId)
  | some row => pure row.lifecycleEpoch

/-- `DELETE FROM ... WHERE conversation_id = ?`, one statement for each table. -/
def deleteConversation (conversationId : ConversationId) : StoreProgram Nat := do
  let delete (change : Tables → Tables) : StoreProgram Unit :=
    update .deleteConversation change
  let deleted ← write .deleteConversation fun tables =>
    .ok ((tables.segments.filter (·.conversationId = conversationId)).length,
      { tables with
        segments := tables.segments.filter (·.conversationId ≠ conversationId) })
  delete fun tables =>
    { tables with
      facts := tables.facts.filter (·.conversationId ≠ conversationId) }
  delete fun tables =>
    { tables with
      canonicalTurns := tables.canonicalTurns.deleteWhere
        (·.conversationId = conversationId) }
  delete fun tables =>
    { tables with
      canonicalTurnAnchors := tables.canonicalTurnAnchors.filter
        (·.conversationId ≠ conversationId) }
  delete fun tables =>
    { tables with
      ingestBatches := tables.ingestBatches.filter
        (·.conversationId ≠ conversationId) }
  delete fun tables =>
    { tables with
      tagSummaries := tables.tagSummaries.filter
        (·.conversationId ≠ conversationId) }
  delete fun tables =>
    { tables with
      tagSummaryEmbeddings := tables.tagSummaryEmbeddings.filter
        (·.conversationId ≠ conversationId) }
  delete fun tables =>
    { tables with
      turnToolOutputs := tables.turnToolOutputs.filter
        (·.conversationId ≠ conversationId) }
  delete fun tables =>
    { tables with
      chainSnapshots := tables.chainSnapshots.filter
        (·.conversationId ≠ conversationId) }
  delete fun tables =>
    { tables with
      ingestionEpisode := tables.ingestionEpisode.filter
        (·.conversationId ≠ conversationId) }
  delete fun tables =>
    { tables with
      compactionOperation := tables.compactionOperation.filter
        (·.conversationId ≠ conversationId) }
  delete fun tables =>
    { tables with
      conversations := tables.conversations.filter
        (·.conversationId ≠ conversationId) }
  commit .deleteConversation
  pure deleted

/-! ## Epoch-guarded writes to the conversation -/

/-- The WHERE clause that the epoch-guarded writes share. -/
def ConversationRecord.isAt (row : ConversationRecord)
    (conversationId : ConversationId) (lifecycleEpoch : Int) : Bool :=
  row.conversationId = conversationId && row.lifecycleEpoch = lifecycleEpoch

def updateRequestMetadata (now : String) (conversationId : ConversationId)
    (lifecycleEpoch lastRaw lastIngestible : Int) : StoreProgram Bool :=
  withConn .conversations do
    let rowcount ← updateConversations (·.isAt conversationId lifecycleEpoch)
      fun row =>
        { row with
          lastRawPayloadEntries := lastRaw
          lastIngestiblePayloadEntries := lastIngestible
          updatedAt := now }
    pure (rowcount = 1)

def widenPendingRawPayloadEntries (conversationId : ConversationId)
    (lifecycleEpoch value : Int) : StoreProgram Bool :=
  withConn .conversations do
    let rowcount ← updateConversations (·.isAt conversationId lifecycleEpoch)
      fun row =>
        { row with
          pendingRawPayloadEntries := max row.pendingRawPayloadEntries value }
    pure (rowcount = 1)

def setPhase (now : String) (conversationId : ConversationId)
    (lifecycleEpoch : Int) (phase : Phase) : StoreProgram Bool :=
  withConn .conversations do
    let rowcount ← updateConversations (·.isAt conversationId lifecycleEpoch)
      fun row => { row with phase := phase, updatedAt := now }
    pure (rowcount = 1)

/-- The UPDATE that leaves a phase and takes what is pending. -/
def drainInto (now : String) (phase : Phase) (row : ConversationRecord) :
    ConversationRecord :=
  { row with
    phase := phase
    pendingRawPayloadEntries := 0
    updatedAt := now }

def setPhaseAndDrainPendingRaw (now : String) (conversationId : ConversationId)
    (lifecycleEpoch : Int) (newPhase : Phase) : StoreProgram (Option Int) :=
  immediately .conversations do
    let row ← read .conversations fun tables =>
      tables.conversation? conversationId
    match row.filter (·.lifecycleEpoch = lifecycleEpoch) with
    | none =>
        rollback .conversations
        pure none
    | some row =>
        let _ ← updateConversations (·.isAt conversationId lifecycleEpoch)
          (drainInto now newPhase)
        commit .conversations
        pure (some row.pendingRawPayloadEntries)

/-- `EXISTS (SELECT 1 FROM canonical_turns WHERE ... tagged_at IS NULL)` -/
def Tables.hasUntagged (t : Tables) (conversationId : ConversationId) : Bool :=
  t.canonicalTurns.rows.any fun row =>
    row.conversationId = conversationId && row.taggedAt = none

/-- `episodeId` is the identifier that `uuid4` returns. -/
def drainCompactionExit (now episodeId : String)
    (conversationId : ConversationId) (lifecycleEpoch : Int)
    (workerId : String) : StoreProgram (Option Phase) :=
  immediately .conversations do
    let row ← read .conversations fun tables =>
      (tables.conversation? conversationId).map fun row =>
        (row, tables.hasUntagged conversationId)
    match row.filter (·.1.lifecycleEpoch = lifecycleEpoch) with
    | none =>
        rollback .conversations
        pure none
    | some (row, true) =>
        let _ ← updateConversations (·.isAt conversationId lifecycleEpoch)
          (drainInto now .ingesting)
        insertEpisode
          { episodeId := episodeId
            conversationId := conversationId
            lifecycleEpoch := lifecycleEpoch
            rawPayloadEntries := row.pendingRawPayloadEntries
            startedAt := now
            status := .running
            ownerWorkerId := workerId
            heartbeatTs := now }
        commit .conversations
        pure (some .ingesting)
    | some (_, false) =>
        let _ ← updateConversations (·.isAt conversationId lifecycleEpoch)
          (drainInto now .active)
        commit .conversations
        pure (some .active)

/-! ## Ingestion episodes -/

def upsertIngestionEpisode (now episodeId : String)
    (conversationId : ConversationId) (lifecycleEpoch : Int)
    (workerId : String) (rawPayloadEntries : Int) : StoreProgram Unit :=
  withConn .ingestionEpisode do
    let conflict ← read .ingestionEpisode fun tables =>
      tables.ingestionEpisode.any (·.runsAt conversationId lifecycleEpoch)
    if conflict then
      let _ ← updateEpisodes (fun _ row => row.runsAt conversationId lifecycleEpoch)
        fun row =>
          { row with
            rawPayloadEntries := max row.rawPayloadEntries rawPayloadEntries }
      pure ()
    else
      insertEpisode
        { episodeId := episodeId
          conversationId := conversationId
          lifecycleEpoch := lifecycleEpoch
          rawPayloadEntries := rawPayloadEntries
          startedAt := now
          status := .running
          ownerWorkerId := workerId
          heartbeatTs := now }

def claimIngestionLease (now cutoff : String) (conversationId : ConversationId)
    (lifecycleEpoch : Int) (workerId : String) : StoreProgram Bool :=
  withConn .ingestionEpisode do
    let rowcount ← updateEpisodes
      (fun _ row => row.runsAt conversationId lifecycleEpoch &&
        (row.ownerWorkerId = workerId || decide (row.heartbeatTs < cutoff)))
      fun row => { row with ownerWorkerId := workerId, heartbeatTs := now }
    pure (rowcount = 1)

def completeIngestionEpisode (now : String) (conversationId : ConversationId)
    (lifecycleEpoch : Int) (workerId : String) : StoreProgram Bool :=
  withConn .ingestionEpisode do
    let rowcount ← updateEpisodes
      (fun tables row => row.runsAt conversationId lifecycleEpoch &&
        row.ownerWorkerId = workerId &&
        tables.currentEpoch conversationId lifecycleEpoch &&
        !tables.hasUntagged conversationId)
      fun row => { row with status := .completed, completedAt := some now }
    pure (rowcount = 1)

/-! ## Compaction operations -/

def startCompactionOperation (now operationId : String)
    (conversationId : ConversationId) (lifecycleEpoch : Int)
    (workerId : String) (phaseCount : Int) (phaseName : String) :
    StoreProgram String :=
  withConn .compactionOperation do
    insertOperation
      { operationId := operationId
        conversationId := conversationId
        lifecycleEpoch := lifecycleEpoch
        phaseCount := phaseCount
        phaseName := phaseName
        status := .queued
        startedAt := now
        ownerWorkerId := workerId
        heartbeatTs := now }
    pure operationId

/-- The WHERE clause that the owner's writes to an active operation share. -/
def ownsActive (conversationId : ConversationId) (lifecycleEpoch : Int)
    (workerId : String) (tables : Tables) (row : CompactionOperationRecord) :
    Bool :=
  row.activeAt conversationId lifecycleEpoch &&
    tables.currentEpoch conversationId lifecycleEpoch &&
    row.ownerWorkerId = workerId

def advanceCompactionPhase (now : String) (conversationId : ConversationId)
    (lifecycleEpoch : Int) (workerId : String) (phaseIndex : Int)
    (phaseName : String) : StoreProgram Bool :=
  withConn .compactionOperation do
    let rowcount ← updateOperations
      (ownsActive conversationId lifecycleEpoch workerId)
      fun row =>
        { row with
          phaseIndex := phaseIndex
          phaseName := phaseName
          heartbeatTs := now
          status := .running }
    pure (rowcount = 1)

def completeCompactionOperation (now : String)
    (conversationId : ConversationId) (lifecycleEpoch : Int)
    (workerId : String) : StoreProgram Bool :=
  withConn .compactionOperation do
    let rowcount ← updateOperations
      (ownsActive conversationId lifecycleEpoch workerId)
      fun row => { row with status := .completed, completedAt := some now }
    pure (rowcount = 1)

def failCompactionOperation (now : String) (conversationId : ConversationId)
    (lifecycleEpoch : Int) (workerId errorMessage : String) :
    StoreProgram Bool :=
  withConn .compactionOperation do
    let rowcount ← updateOperations
      (ownsActive conversationId lifecycleEpoch workerId)
      fun row =>
        { row with
          status := .failed
          completedAt := some now
          errorMessage := some errorMessage }
    pure (rowcount = 1)

def refreshCompactionHeartbeat (depth : Nat) (now : String)
    (conversationId : ConversationId) (lifecycleEpoch : Int)
    (workerId operationId : String) : StoreProgram Bool :=
  withConn .compactionOperation do
    let rowcount ← updateOperations
      (fun _ row => row.operationId = operationId &&
        row.conversationId = conversationId &&
        row.lifecycleEpoch = lifecycleEpoch &&
        row.ownerWorkerId = workerId && row.status = .running)
      fun row => { row with heartbeatTs := now }
    commitIfUnlocked depth .compactionOperation
    pure (0 < rowcount)

structure CompactionLeaseClaim where
  claimed : Bool
  prevOperationId : Option String
  prevOwnerWorkerId : Option String
  deriving DecidableEq, Repr

/-- `ORDER BY started_at DESC LIMIT 1`; ties keep the first row. -/
def latestStarted : List CompactionOperationRecord →
    Option CompactionOperationRecord
  | [] => none
  | row :: rows =>
      match latestStarted rows with
      | none => some row
      | some other => if row.startedAt < other.startedAt then some other else some row

def claimCompactionLease (depth : Nat) (now cutoff : String)
    (conversationId : ConversationId) (lifecycleEpoch : Int)
    (workerId : String) : StoreProgram CompactionLeaseClaim :=
  withConn .compactionOperation do
    let pre ← read .compactionOperation fun tables =>
      latestStarted (tables.compactionOperation.filter
        (·.activeAt conversationId lifecycleEpoch))
    let rowcount ← updateOperations
      (fun _ row => row.activeAt conversationId lifecycleEpoch &&
        (row.ownerWorkerId = workerId || decide (row.heartbeatTs < cutoff)))
      fun row => { row with ownerWorkerId := workerId, heartbeatTs := now }
    commitIfUnlocked depth .compactionOperation
    pure ⟨0 < rowcount, pre.map (·.operationId), pre.map (·.ownerWorkerId)⟩

end VirtualContext
