import VirtualContext.Storage.Grouping

/-!
# The methods of `SQLiteStore`

Each method is the program of its SQL statements.  `depth` is the thread's
`reconcile_lock_depth`, which a method consults before it commits; some methods
commit without consulting it, and the programs do so where the source does.
-/

namespace VirtualContext

open VirtualContext.Library

/-- The places that statements are issued from. -/
inductive Site where
  | getLifecycleEpoch
  | beginReconcile
  | commitReconcile
  | rollbackReconcile
  | loadRows
  | backfill
  | recomputeGroups
  | saveTurn
  | saveBatch
  | deleteTurns
  | deleteBatchTurns
  | replaceAnchors
  | anchorPositions
  | lookupOrdinal
  | markCompacted
  | mergeConversation
  | conversations
  | ingestionEpisode
  | compactionOperation
  | deleteConversation
  | cleanupCompaction
  | storeSegment
  | storeFacts
  | replaceFacts
  | saveTagSummary
  | segmentsByTags
  | summariesByTags
  | getTagSummary
  -- the statements of one ingestion
  | entryEpoch
  | lockedEpoch
  | alignment
  | writeRow (index : Nat)
  | rowOrdinal (index : Nat)
  | commitEpoch
  | refreshAnchors
  deriving DecidableEq, Repr

abbrev StoreProgram := Program Site Tables Exc

open Program

/-! ## Transactions -/

def commitIfUnlocked (depth : Nat) (site : Site) : StoreProgram Unit :=
  if depth = 0 then commit site else pure ()

/-- `with self._get_conn() as conn`, which ends by a commit or a rollback. -/
def withConn {α : Type} (site : Site) (body : StoreProgram α) :
    StoreProgram α := do
  let value ← body.tryCatch fun raised => do
    rollback site
    .fail raised
  commit site
  pure value

/-- `conversation_reconcile`; the body runs with the lock depth raised. -/
def conversationReconcile {α : Type} (depth : Nat)
    (body : Nat → StoreProgram α) : StoreProgram α := do
  beginImmediate .beginReconcile .operationalError
  let locked : StoreProgram α := do
    let value ← body (depth + 1)
    commit .commitReconcile
    pure value
  locked.tryCatch fun raised => do
    rollback .rollbackReconcile
    .fail raised

/-! ## Lifecycle -/

def getLifecycleEpoch (conversationId : ConversationId) : StoreProgram Int := do
  let row ← withConn .getLifecycleEpoch
    (read .getLifecycleEpoch fun tables => tables.conversation? conversationId)
  match row with
  | none => raise .getLifecycleEpoch (.keyError conversationId)
  | some row => pure row.lifecycleEpoch

/-! ## Groups -/

/--
`UPDATE canonical_turns SET turn_group_number = ?` of one row, unless it has
that number already.
-/
def setTurnGroup (conversationId : ConversationId) (group : Int)
    (canonicalTurnId : Uuid) : CanonicalTurns.ColumnUpdate where
  apply row :=
    if row.conversationId = conversationId ∧
        row.canonicalTurnId = canonicalTurnId ∧ row.turnGroupNumber ≠ group
    then { row with turnGroupNumber := group } else row
  id_eq row := by split <;> rfl
  conversation_eq row := by split <;> rfl
  sortKey_eq row := by split <;> rfl

def updateTurnGroups (conversationId : ConversationId) :
    List (Int × Uuid) → StoreProgram Unit
  | [] => pure ()
  | (group, canonicalTurnId) :: assignments => do
      Program.update .recomputeGroups fun tables =>
        { tables with
          canonicalTurns := tables.canonicalTurns.update
            (setTurnGroup conversationId group canonicalTurnId) }
      updateTurnGroups conversationId assignments

def loadCanonicalTurnRowsRaw (conversationId : ConversationId) :
    StoreProgram (List CanonicalTurnRow) :=
  read .loadRows fun tables => tables.loadRows conversationId

/-- The commit at the end does not consult the lock depth. -/
def recomputeCanonicalTurnGroups (conversationId : ConversationId) :
    StoreProgram Unit := do
  let rows ← loadCanonicalTurnRowsRaw conversationId
  if rows.isEmpty then pure ()
  else
    updateTurnGroups conversationId
      ((turnGroups rows).zip (rows.map (·.canonicalTurnId)))
    commit .recomputeGroups

/-- Every row is from before group numbers were introduced. -/
def allLegacy (rows : List CanonicalTurnRow) : Bool :=
  !rows.isEmpty && rows.all fun row => decide (row.turnGroupNumber < 0)

/-- Loading an all-legacy conversation numbers its turns first. -/
def loadCanonicalTurnRows (conversationId : ConversationId) :
    StoreProgram (List CanonicalTurnRow) := do
  let rows ← loadCanonicalTurnRowsRaw conversationId
  if allLegacy rows then
    let backfill : StoreProgram (List CanonicalTurnRow) := do
      recomputeCanonicalTurnGroups conversationId
      loadCanonicalTurnRowsRaw conversationId
    (backfill.located .backfill).tryCatch fun _ => pure rows
  else pure rows

def getAllCanonicalTurns (conversationId : ConversationId) :
    StoreProgram (List CanonicalTurnRow) :=
  loadCanonicalTurnRows conversationId

/-- The selection of `get_uncompacted_canonical_turns` among loaded rows. -/
def uncompactedTurns (protectedRecentTurns : Nat)
    (rows : List CanonicalTurnRow) : List (Int × CanonicalTurnRow) :=
  let uncompacted := (mergeCanonicalTurnRows rows).filter fun turn =>
    (orNone turn.2.compactedAt).isNone
  if 0 < protectedRecentTurns then
    if protectedRecentTurns < uncompacted.length then
      uncompacted.take (uncompacted.length - protectedRecentTurns)
    else []
  else uncompacted

def getUncompactedCanonicalTurns (conversationId : ConversationId)
    (protectedRecentTurns : Nat) :
    StoreProgram (List (Int × CanonicalTurnRow)) := do
  let rows ← loadCanonicalTurnRows conversationId
  pure (uncompactedTurns protectedRecentTurns rows)

/-! ## Writing rows -/

/-- The keyword arguments of `save_canonical_turn`. -/
structure SaveTurnArgs where
  conversationId : ConversationId
  turnNumber : Int
  userContent : String
  assistantContent : String
  userRawContent : Option String := none
  assistantRawContent : Option String := none
  primaryTag : String := "_general"
  tags : List String := []
  sessionDate : String := ""
  sender : String := ""
  factSignals : List FactSignal := []
  codeRefs : List CodeRef := []
  createdAt : Option String := none
  updatedAt : Option String := none
  canonicalTurnId : Option Uuid := none
  sortKey : Option ℚ := none
  turnHash : HexDigest := []
  hashVersion : Nat := 0
  normalizedUserText : String := ""
  normalizedAssistantText : String := ""
  taggedAt : Option String := none
  compactedAt : Option String := none
  firstSeenAt : Option String := none
  lastSeenAt : Option String := none
  sourceBatchId : Option Uuid := none
  turnGroupNumber : Int := -1

/-- The row that the INSERT of `save_canonical_turn` binds. -/
def SaveTurnArgs.record (sha : Sha256) (now : String) (args : SaveTurnArgs)
    (canonicalTurnId : Uuid) (sortKey : ℚ) : CanonicalTurnRecord :=
  let created := orText args.createdAt now
  let updated := orText args.updatedAt now
  let version := if args.hashVersion = 0 then HASH_VERSION else args.hashVersion
  let hashed := computeTurnHashFromRaw sha args.userContent
    args.assistantContent version
  let hashes := if args.turnHash = [] then hashed
    else (args.turnHash, args.normalizedUserText, args.normalizedAssistantText)
  { conversationId := args.conversationId
    canonicalTurnId := canonicalTurnId
    turnGroupNumber := args.turnGroupNumber
    sortKey := sortKey
    turnHash := hashes.1
    hashVersion := version
    normalizedUserText := hashes.2.1
    normalizedAssistantText := hashes.2.2
    userContent := args.userContent
    assistantContent := args.assistantContent
    userRawContent := args.userRawContent
    assistantRawContent := args.assistantRawContent
    primaryTag := orText (some args.primaryTag) "_general"
    tags := args.tags
    sessionDate := args.sessionDate
    sender := args.sender
    factSignals := args.factSignals
    codeRefs := args.codeRefs
    taggedAt := args.taggedAt
    compactedAt := args.compactedAt
    firstSeenAt := some (orText args.firstSeenAt created)
    lastSeenAt := some (orText args.lastSeenAt updated)
    sourceBatchId := args.sourceBatchId
    createdAt := created
    updatedAt := updated }

/-- `ON CONFLICT(canonical_turn_id) DO UPDATE SET`: the columns that stay. -/
def CanonicalTurnRecord.overwrite (stored new : CanonicalTurnRecord) :
    CanonicalTurnRecord :=
  { new with
    conversationId := stored.conversationId
    turnNumber := stored.turnNumber
    firstSeenAt := stored.firstSeenAt
    createdAt := stored.createdAt
    coveredIngestibleEntries := stored.coveredIngestibleEntries
    originConversationId := stored.originConversationId
    compactionOperationId := stored.compactionOperationId }

namespace CanonicalTurns

/-- `INSERT INTO canonical_turns ... ON CONFLICT(canonical_turn_id) DO UPDATE` -/
def upsert (t : CanonicalTurns) (new : CanonicalTurnRecord) :
    Except Exc CanonicalTurns :=
  if t.rows.any (·.canonicalTurnId = new.canonicalTurnId) then
    ofRows (t.rows.map fun row =>
      if row.canonicalTurnId = new.canonicalTurnId then row.overwrite new
      else row)
  else ofRows (t.rows ++ [new])

end CanonicalTurns

/-- `COALESCE(MAX(sort_key), 0)` over one conversation. -/
def Tables.maxSortKey (t : Tables) (conversationId : ConversationId) : ℚ :=
  match (t.canonicalTurns.ordered conversationId).getLast? with
  | none => 0
  | some row => row.sortKey

def saveCanonicalTurn (sha : Sha256) (now : String) (args : SaveTurnArgs) :
    StoreProgram Unit := do
  let slotId ←
    if args.canonicalTurnId.isNone ∧ 0 ≤ args.turnNumber then
      read .saveTurn fun tables =>
        (tables.canonicalTurns.rows.find? fun row =>
          row.conversationId = args.conversationId ∧
            row.sortKey = ((args.turnNumber : ℚ) + 1) * 1000).map
              (·.canonicalTurnId)
    else pure args.canonicalTurnId
  let existingSortKey ←
    match slotId with
    | none | some 0 => pure none
    | some canonicalTurnId =>
        read .saveTurn fun tables =>
          (tables.canonicalTurns.rows.find? fun row =>
            row.conversationId = args.conversationId ∧
              row.canonicalTurnId = canonicalTurnId).map (·.sortKey)
  let canonicalTurnId ←
    match slotId with
    | some canonicalTurnId => pure canonicalTurnId
    | none => fresh
  let sortKey ←
    match args.sortKey, existingSortKey with
    | some sortKey, _ => pure sortKey
    | none, some sortKey => pure sortKey
    | none, none =>
        if 0 ≤ args.turnNumber then pure (((args.turnNumber : ℚ) + 1) * 1000)
        else
          read .saveTurn fun tables =>
            tables.maxSortKey args.conversationId + 1000
  write .saveTurn fun tables => do
    let canonicalTurns ←
      tables.canonicalTurns.upsert (args.record sha now canonicalTurnId sortKey)
    pure ((), { tables with canonicalTurns })

def lookupOrdinalForCanonicalTurnId (conversationId : ConversationId)
    (canonicalTurnId : Uuid) : StoreProgram Int :=
  read .lookupOrdinal fun tables =>
    match (tables.loadRows conversationId).findIdx?
        (·.canonicalTurnId = canonicalTurnId) with
    | some ordinal => ordinal
    | none => -1

/-! ## Marking and deleting rows -/

/-- The operation that a guarded compaction write belongs to. -/
structure CompactionGuard where
  operationId : String
  ownerWorkerId : String
  lifecycleEpoch : Int

def Tables.ownsCompaction (t : Tables) (conversationId : ConversationId)
    (guard : CompactionGuard) : Bool :=
  t.compactionOperation.any fun operation =>
    operation.operationId = guard.operationId ∧
      operation.conversationId = conversationId ∧
      operation.status = .running ∧
      operation.ownerWorkerId = guard.ownerWorkerId ∧
      operation.lifecycleEpoch = guard.lifecycleEpoch

/-- The rows of the ids and of every turn group that one of the ids is in. -/
def CanonicalTurns.inMarkedGroup (t : CanonicalTurns)
    (conversationId : ConversationId) (ids : List Uuid)
    (row : CanonicalTurnRecord) : Bool :=
  row.conversationId = conversationId &&
    (row.canonicalTurnId ∈ ids ||
      t.rows.any fun other =>
        other.conversationId = conversationId && other.canonicalTurnId ∈ ids &&
          decide (0 ≤ other.turnGroupNumber) &&
          other.turnGroupNumber = row.turnGroupNumber)

def markCompacted (t : CanonicalTurns) (conversationId : ConversationId)
    (ids : List Uuid) (timestamp : String) (guard : Option CompactionGuard) :
    CanonicalTurns.ColumnUpdate where
  apply row :=
    if t.inMarkedGroup conversationId ids row then
      { row with
        compactedAt := some timestamp
        updatedAt := timestamp
        compactionOperationId :=
          match guard with
          | none => row.compactionOperationId
          | some guard => some guard.operationId }
    else row
  id_eq row := by split <;> rfl
  conversation_eq row := by split <;> rfl
  sortKey_eq row := by split <;> rfl

def markCanonicalTurnsCompacted (depth : Nat) (now : String)
    (conversationId : ConversationId) (canonicalTurnIds : List Uuid)
    (compactedAt : Option String) (guard : Option CompactionGuard) :
    StoreProgram Nat := do
  if canonicalTurnIds.isEmpty then pure 0
  else
    let timestamp := orText compactedAt now
    let rowcount ← write .markCompacted fun tables =>
      let t := tables.canonicalTurns
      if guard.all fun guard => tables.ownsCompaction conversationId guard then
        .ok ((t.rows.filter (t.inMarkedGroup conversationId canonicalTurnIds)).length,
          { tables with
            canonicalTurns := t.update
              (markCompacted t conversationId canonicalTurnIds timestamp guard) })
      else .ok (0, tables)
    commitIfUnlocked depth .markCompacted
    match guard with
    | none => pure rowcount
    | some guard =>
        if rowcount = 0 then
          raise .markCompacted (.compactionLeaseLost guard.operationId
            "mark_canonical_turns_compacted")
        else pure rowcount

/-- `DELETE FROM canonical_turns WHERE conversation_id = ? AND ...` -/
def deleteRowsWhere (site : Site) (conversationId : ConversationId)
    (p : CanonicalTurnRecord → Bool) : StoreProgram Unit :=
  Program.update site fun tables =>
    { tables with
      canonicalTurns := tables.canonicalTurns.deleteWhere fun row =>
        row.conversationId = conversationId && p row }

def deleteCanonicalTurns (conversationId : ConversationId) :
    (turnNumber : Option Int) → StoreProgram Unit
  | none => do
      deleteRowsWhere .deleteTurns conversationId fun _ => true
      commit .deleteTurns
  | some turnNumber => do
      let canonicalTurnId ← read .deleteTurns fun tables =>
        if turnNumber < 0 then none
        else (tables.loadRows conversationId)[turnNumber.toNat]?.map
          (·.canonicalTurnId)
      match canonicalTurnId with
      | none => pure ()
      | some canonicalTurnId =>
          deleteRowsWhere .deleteTurns conversationId
            (·.canonicalTurnId = canonicalTurnId)
          commit .deleteTurns

def deleteCanonicalTurnsByBatchId (depth : Nat)
    (conversationId : ConversationId) (batchId : Uuid) : StoreProgram Unit := do
  deleteRowsWhere .deleteBatchTurns conversationId
    (·.sourceBatchId = some batchId)
  commitIfUnlocked depth .deleteBatchTurns

/-! ## Anchors and batches -/

def insertAnchors : List CanonicalTurnAnchor → StoreProgram Unit
  | [] => pure ()
  | anchor :: anchors => do
      Program.update .replaceAnchors fun tables =>
        { tables with
          canonicalTurnAnchors := tables.canonicalTurnAnchors ++ [anchor] }
      insertAnchors anchors

def replaceCanonicalTurnAnchors (depth : Nat)
    (conversationId : ConversationId) (anchors : List CanonicalTurnAnchor) :
    StoreProgram Unit := do
  Program.update .replaceAnchors fun tables =>
    { tables with
      canonicalTurnAnchors := tables.canonicalTurnAnchors.filter
        fun anchor => anchor.conversationId ≠ conversationId }
  insertAnchors (anchors.filter fun anchor =>
    anchor.anchorHash ≠ [] ∧ anchor.startTurnId ≠ 0)
  commitIfUnlocked depth .replaceAnchors

/-- The persisted anchors of one window size, joined to the current ordinals. -/
def Tables.anchorPositions (t : Tables) (conversationId : ConversationId)
    (windowSize : Nat) : List (HexDigest × Nat) :=
  (t.loadRows conversationId).zipIdx.flatMap fun (row, turnNumber) =>
    (t.canonicalTurnAnchors.filter fun anchor =>
      anchor.conversationId = conversationId ∧
        anchor.windowSize = windowSize ∧
        anchor.startTurnId = row.canonicalTurnId ∧
        anchor.anchorHash ≠ []).map fun anchor => (anchor.anchorHash, turnNumber)

def getCanonicalTurnAnchorPositions (conversationId : ConversationId)
    (windowSize : Nat) : StoreProgram AnchorIndex :=
  read .anchorPositions fun tables =>
    Dictionary.ofPairs (tables.anchorPositions conversationId windowSize)

/-- `INSERT OR REPLACE INTO ingest_batches` -/
def saveIngestBatch (depth : Nat) (batch : IngestBatchRecord) :
    StoreProgram Unit := do
  Program.update .saveBatch fun tables =>
    { tables with
      ingestBatches :=
        tables.ingestBatches.filter (fun other => other.batchId ≠ batch.batchId)
          ++ [batch] }
  commitIfUnlocked depth .saveBatch

end VirtualContext
