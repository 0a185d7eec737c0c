import VirtualContext.Core.Alignment
import VirtualContext.Storage.Store

/-!
# The ingest reconciler

Merges inbound turns into canonical turn storage.  The programs follow
`IngestReconciler` statement by statement; embeddings are left out, since the
chunk table is read by nothing here and their exceptions are swallowed.
-/

namespace VirtualContext

open VirtualContext.Library
open VirtualContext.Library.Program

/-! ## Alignment -/

def loadExistingAnchorIndex (sha : Sha256) (conversationId : ConversationId)
    (existing : List CanonicalTurnRow) (windowSize : Nat) :
    StoreProgram AnchorIndex := do
  let anchors ← getCanonicalTurnAnchorPositions conversationId windowSize
  if anchors.isEmpty then pure (buildAnchorIndex sha existing windowSize)
  else pure anchors

/-- The window search, loading each index when its size is reached. -/
def findSharedWindow (sha : Sha256) (conversationId : ConversationId)
    (existing incoming : List CanonicalTurnRow) :
    List Nat → StoreProgram (Option Alignment)
  | [] => pure none
  | windowSize :: sizes => do
      let existingIndex ←
        loadExistingAnchorIndex sha conversationId existing windowSize
      if existingIndex.isEmpty then
        findSharedWindow sha conversationId existing incoming sizes
      else
        let best ← ofExcept .alignment <|
          bestWindow (existing.map (·.turnHash)) (incoming.map (·.turnHash))
            windowSize (sharedWindows existingIndex
              (buildAnchorIndex sha incoming windowSize))
        match best with
        | some best => pure (some best)
        | none => findSharedWindow sha conversationId existing incoming sizes

def findAlignment (sha : Sha256) (conversationId : ConversationId)
    (existing incoming : List CanonicalTurnRow) (allowShortOverlap : Bool) :
    StoreProgram (Option Alignment) :=
  if existing.isEmpty || incoming.isEmpty then pure none
  else
    match anchorFreeAlignment existing incoming allowShortOverlap with
    | some alignment => pure (some alignment)
    | none => findSharedWindow sha conversationId existing incoming [5, 4, 3]

/-! ## Sort keys -/

def allocateSortKeys (leftKey rightKey : Option ℚ) (count : Nat) : List ℚ :=
  match leftKey, rightKey with
  | none, none => (List.range count).map fun idx : Nat => ((idx : ℚ) + 1) * 1000
  | none, some rightKey =>
      let start := rightKey - 1000 * count
      (List.range count).map fun idx : Nat => start + 1000 * (idx : ℚ)
  | some leftKey, none =>
      (List.range count).map fun idx : Nat => leftKey + 1000 * ((idx : ℚ) + 1)
  | some leftKey, some rightKey =>
      let step := (rightKey - leftKey) / (count + 1)
      let step := if step ≤ 1 / 1000 then 1 / 1000 else step
      (List.range count).map fun idx : Nat => leftKey + step * ((idx : ℚ) + 1)

/-! ## Rows -/

def preserveExistingEnrichment (row existingRow : CanonicalTurnRow) :
    CanonicalTurnRow :=
  let row :=
    if pyStrip row.sessionDate = "" ∧ pyStrip existingRow.sessionDate ≠ "" then
      { row with sessionDate := existingRow.sessionDate }
    else row
  if row.turnGroupNumber < 0 ∧ 0 ≤ existingRow.turnGroupNumber then
    { row with turnGroupNumber := existingRow.turnGroupNumber }
  else row

inductive Role where
  | user | assistant
  deriving DecidableEq, Repr

/-- The metadata arguments of `ingest_single`. -/
structure TurnMetadata where
  primaryTag : String := "_general"
  tags : List String := []
  sessionDate : String := ""
  sender : String := ""
  factSignals : List FactSignal := []
  codeRefs : List CodeRef := []

def prepareMessageRow (sha : Sha256) (now : String)
    (conversationId : ConversationId) (role : Role) (content : String)
    (rawContent : Option String) (metadata : TurnMetadata) : CanonicalTurnRow :=
  let userContent := match role with | .user => content | .assistant => ""
  let assistantContent := match role with | .user => "" | .assistant => content
  let hashed :=
    computeTurnHashFromRaw sha userContent assistantContent HASH_VERSION
  { conversationId := conversationId
    turnNumber := -1
    turnGroupNumber := -1
    sortKey := 0
    turnHash := hashed.1
    hashVersion := HASH_VERSION
    normalizedUserText := hashed.2.1
    normalizedAssistantText := hashed.2.2
    userContent := userContent
    assistantContent := assistantContent
    userRawContent := match role with | .user => rawContent | .assistant => none
    assistantRawContent :=
      match role with | .user => none | .assistant => rawContent
    primaryTag := orText (some metadata.primaryTag) "_general"
    tags := metadata.tags
    sessionDate := metadata.sessionDate
    sender := metadata.sender
    factSignals := metadata.factSignals
    codeRefs := metadata.codeRefs
    taggedAt := none
    coveredIngestibleEntries := 1
    firstSeenAt := some now
    lastSeenAt := some now
    createdAt := now
    updatedAt := now }

/-- The arguments `_write_turn` passes on; the identifier of no row is `None`. -/
def writeTurnArgs (now : String) (row : CanonicalTurnRow) (turnNumber : Int)
    (firstSeenAt lastSeenAt : Option String) : SaveTurnArgs :=
  { conversationId := row.conversationId
    turnNumber := turnNumber
    userContent := row.userContent
    assistantContent := row.assistantContent
    userRawContent := row.userRawContent
    assistantRawContent := row.assistantRawContent
    primaryTag := row.primaryTag
    tags := row.tags
    sessionDate := row.sessionDate
    sender := row.sender
    factSignals := row.factSignals
    codeRefs := row.codeRefs
    createdAt := some (orText (some row.createdAt) (orText firstSeenAt now))
    updatedAt := some now
    canonicalTurnId :=
      if row.canonicalTurnId = 0 then none else some row.canonicalTurnId
    sortKey := some row.sortKey
    turnHash := row.turnHash
    hashVersion := if row.hashVersion = 0 then HASH_VERSION else row.hashVersion
    normalizedUserText := row.normalizedUserText
    normalizedAssistantText := row.normalizedAssistantText
    taggedAt := row.taggedAt
    compactedAt := row.compactedAt
    firstSeenAt := (orNone firstSeenAt).or row.firstSeenAt
    lastSeenAt := (orNone lastSeenAt).or row.lastSeenAt
    sourceBatchId := row.sourceBatchId.filter (· != 0)
    turnGroupNumber := row.turnGroupNumber }

/-- `_write_turn` of the `index`-th row that a call writes. -/
def writeTurn (sha : Sha256) (now : String) (index : Nat)
    (row : CanonicalTurnRow) (turnNumber : Int)
    (firstSeenAt lastSeenAt : Option String) : StoreProgram Unit := do
  (saveCanonicalTurn sha now
    (writeTurnArgs now row turnNumber firstSeenAt lastSeenAt)).located
      (.writeRow index)
  if turnNumber < 0 ∧ row.canonicalTurnId ≠ 0 then
    let _ ← (lookupOrdinalForCanonicalTurnId row.conversationId
      row.canonicalTurnId).located (.rowOrdinal index)
    pure ()
  else pure ()

def seenRecently (ageMinutes : String → Option ℚ) (lastSeenAt : String) : Bool :=
  match ageMinutes lastSeenAt with
  | none => false
  | some age => decide (age ≤ 10)

/-! ## Batches and persisted anchors -/

/-- The counters and rows of a call, as they stand when its batch is saved. -/
structure IngestCounts where
  written : Nat
  matched : Nat
  appended : Nat
  prepended : Nat
  inserted : Nat
  rows : List CanonicalTurnRow

def batchRecord (now : String) (conversationId : ConversationId)
    (rawTurnCount : Nat) (mergeMode : MergeMode)
    (prepared : List CanonicalTurnRow) (counts : IngestCounts) (batchId : Uuid) :
    IngestBatchRecord where
  batchId := batchId
  conversationId := conversationId
  receivedAt := now
  rawTurnCount := rawTurnCount
  mergeMode := mergeMode
  turnsMatched := counts.matched
  turnsAppended := counts.appended
  turnsPrepended := counts.prepended
  turnsInserted := counts.inserted
  firstTurnHash := (prepared.head?.map (·.turnHash)).getD []
  lastTurnHash := (prepared.getLast?.map (·.turnHash)).getD []

def saveBatch (depth : Nat) (now : String) (conversationId : ConversationId)
    (rawTurnCount : Nat) (mergeMode : MergeMode)
    (prepared : List CanonicalTurnRow) (counts : IngestCounts)
    (batchId : Option Uuid) : StoreProgram IngestBatchRecord := do
  let batchId ←
    match batchId with
    | some batchId => pure batchId
    | none => fresh
  let batch := batchRecord now conversationId rawTurnCount mergeMode prepared
    counts batchId
  saveIngestBatch depth batch
  pure batch

/-- The anchors of every window of three, four and five rows. -/
def anchorsOf (sha : Sha256) (conversationId : ConversationId)
    (rows : List CanonicalTurnRow) : List CanonicalTurnAnchor :=
  [3, 4, 5].flatMap fun windowSize =>
    (List.range (rows.length + 1 - windowSize)).filterMap fun start =>
      match rows[start]? with
      | none => none
      | some row =>
          if row.canonicalTurnId = 0 then none
          else some
            { conversationId := conversationId
              anchorHash := computeAnchorHash sha rows start windowSize
              startTurnId := row.canonicalTurnId
              windowSize := windowSize }

def refreshPersistedAnchors (depth : Nat) (sha : Sha256)
    (conversationId : ConversationId) : StoreProgram Unit := do
  let rows ← getAllCanonicalTurns conversationId
  replaceCanonicalTurnAnchors depth conversationId
    (anchorsOf sha conversationId rows)

/-! ## Ingestion under the lock -/

/--
What stays the same during one call.  The rows are those of
`_prepare_message_row`: of the conversation, with their turn hash computed.
-/
structure IngestContext where
  now : String
  conversationId : ConversationId
  rawTurnCount : Nat
  prepared : List CanonicalTurnRow
  ownConversation : ∀ row ∈ prepared, row.conversationId = conversationId
  hashed : ∀ row ∈ prepared, row.turnHash ≠ []

/-- A message that `extract_ingestible_messages` found in a request body. -/
structure IngestibleMessage where
  role : Role
  content : String
  rawContent : Option String := none

/-- What `ingest_batch` passes on: one row for each message. -/
def IngestContext.ofMessages (sha : Sha256) (now : String)
    (conversationId : ConversationId) (messages : List IngestibleMessage) :
    IngestContext where
  now := now
  conversationId := conversationId
  rawTurnCount := messages.length
  prepared := messages.map fun message =>
    prepareMessageRow sha now conversationId message.role message.content
      message.rawContent {}
  ownConversation row hrow := by
    obtain ⟨message, -, rfl⟩ := List.mem_map.mp hrow
    rfl
  hashed row hrow := by
    obtain ⟨message, -, rfl⟩ := List.mem_map.mp hrow
    exact sha.nonempty _

/-- A fresh row of this batch, ready to be written. -/
def stampRow (now : String) (canonicalTurnId batchId : Uuid) (sortKey : ℚ)
    (row : CanonicalTurnRow) : CanonicalTurnRow :=
  { row with
    canonicalTurnId := canonicalTurnId
    sortKey := sortKey
    sourceBatchId := some batchId
    lastSeenAt := some now }

/--
Write fresh rows under the given keys; `turnNumber` gives the number passed for
each index, and `index` counts the rows the call has written so far.
-/
def writeFreshRows (sha : Sha256) (ctx : IngestContext) (batchId : Uuid)
    (turnNumber : Nat → Int) :
    (index : Nat) → List (CanonicalTurnRow × ℚ) →
      StoreProgram (List CanonicalTurnRow)
  | _, [] => pure []
  | index, (row, sortKey) :: rows => do
      let canonicalTurnId ← fresh
      let row := stampRow ctx.now canonicalTurnId batchId sortKey row
      writeTurn sha ctx.now index row (turnNumber index) none none
      let written ← writeFreshRows sha ctx batchId turnNumber (index + 1) rows
      pure (row :: written)

/-- An overlap row takes over the identity of the row that is stored. -/
def mirrorRow (row existingRow : CanonicalTurnRow) : CanonicalTurnRow :=
  preserveExistingEnrichment
    { row with
      canonicalTurnId := existingRow.canonicalTurnId
      sortKey := existingRow.sortKey
      sourceBatchId := existingRow.sourceBatchId
      firstSeenAt := (orNone existingRow.firstSeenAt).or row.firstSeenAt
      lastSeenAt := (orNone existingRow.lastSeenAt).or row.lastSeenAt }
    existingRow

/-- Pair every overlapping incoming row with the stored row at its offset. -/
def mirrorOverlap (overlapExisting : List CanonicalTurnRow) :
    (offset : Nat) → List CanonicalTurnRow → Except Exc (List CanonicalTurnRow)
  | _, [] => .ok []
  | offset, row :: rows => do
      let existingRow ← pyGet overlapExisting offset
      let mirrored ← mirrorOverlap overlapExisting (offset + 1) rows
      pure (mirrorRow row existingRow :: mirrored)

/-- `existing[index].sort_key`, if the index is wanted at all. -/
def keyAt (existing : List CanonicalTurnRow) (index : Nat) (wanted : Bool) :
    Except Exc (Option ℚ) := do
  if wanted then
    let row ← pyGet existing index
    pure (some row.sortKey)
  else pure none

/-- Rows that start a conversation or follow everything stored. -/
def appendAll (sha : Sha256) (ctx : IngestContext) (batchId : Uuid) (startKey : ℚ)
    (firstTurn : Nat) : StoreProgram IngestCounts := do
  let keyed := ctx.prepared.zipIdx.map fun (row, idx) =>
    (row, startKey + 1000 * idx)
  let rows ← writeFreshRows sha ctx batchId (fun index => firstTurn + index) 0 keyed
  pure ⟨rows.length, 0, rows.length, 0, 0, rows⟩

/-- Fresh rows between two neighbours, whose keys only rows make necessary. -/
def writeBetween (sha : Sha256) (ctx : IngestContext) (batchId : Uuid)
    (index : Nat) (rows : List CanonicalTurnRow)
    (leftKey rightKey : Except Exc (Option ℚ)) :
    StoreProgram (List CanonicalTurnRow) :=
  if rows.isEmpty then pure []
  else do
    let leftKey ← ofExcept .alignment leftKey
    let rightKey ← ofExcept .alignment rightKey
    writeFreshRows sha ctx batchId (fun _ => -1) index
      (rows.zip (allocateSortKeys leftKey rightKey rows.length))

/-- The counters of a call that found an overlap, as its mode names the rows. -/
def summarize (mergeMode : MergeMode)
    (mirrored beforeRows afterRows : List CanonicalTurnRow) : IngestCounts :=
  let prepended := if mergeMode = .prefixWidening then beforeRows.length else 0
  let appended := if mergeMode = .tailAppend then afterRows.length else 0
  { written := beforeRows.length + afterRows.length
    matched := mirrored.length
    appended := appended
    prepended := prepended
    inserted := beforeRows.length - prepended + (afterRows.length - appended)
    rows := mirrored ++ beforeRows ++ afterRows }

/-- Rows before and after an overlap with the stored rows. -/
def mergeAround (sha : Sha256) (ctx : IngestContext) (batchId : Uuid)
    (existing : List CanonicalTurnRow) (alignment : Alignment) :
    StoreProgram IngestCounts := do
  let overlapExisting :=
    slice existing alignment.existingStart alignment.overlapLen
  let overlapIncoming :=
    slice ctx.prepared alignment.incomingStart alignment.overlapLen
  let mirrored ← ofExcept .alignment
    (mirrorOverlap overlapExisting 0 overlapIncoming)
  let beforeRows ← writeBetween sha ctx batchId 0
    (ctx.prepared.take alignment.incomingStart)
    (keyAt existing (alignment.existingStart - 1)
      (decide (0 < alignment.existingStart)))
    (keyAt existing alignment.existingStart true)
  let next := alignment.existingStart + alignment.overlapLen
  let afterRows ← writeBetween sha ctx batchId beforeRows.length
    (ctx.prepared.drop (alignment.incomingStart + alignment.overlapLen))
    (keyAt existing (next - 1) (decide (0 < next)))
    (keyAt existing next (decide (next < existing.length)))
  pure (summarize alignment.mergeMode mirrored beforeRows afterRows)

/-- Some row has user text and some row has assistant text. -/
def hasCompletePair (prepared : List CanonicalTurnRow) : Bool :=
  (prepared.any fun row => pyStrip row.userContent != "") &&
    prepared.any fun row => pyStrip row.assistantContent != ""

def IngestCounts.result (counts : IngestCounts) (mergeMode : MergeMode)
    (batch : IngestBatchRecord) : CanonicalIngestResult where
  mergeMode := mergeMode
  turnsWritten := counts.written
  turnsMatched := counts.matched
  turnsAppended := counts.appended
  turnsPrepended := counts.prepended
  turnsInserted := counts.inserted
  batch := some batch
  rows := counts.rows

/-- The batch record, the group numbers and the anchors, after the rows. -/
def finishIngest (depth : Nat) (sha : Sha256) (ctx : IngestContext)
    (mergeMode : MergeMode) (batchId : Uuid) (counts : IngestCounts) :
    StoreProgram CanonicalIngestResult := do
  let batch ← saveBatch depth ctx.now ctx.conversationId ctx.rawTurnCount
    mergeMode ctx.prepared counts (some batchId)
  ((recomputeCanonicalTurnGroups ctx.conversationId).located
    .recomputeGroups).tryCatch fun _ => pure ()
  ((refreshPersistedAnchors depth sha ctx.conversationId).located
    .refreshAnchors).tryCatch fun _ => pure ()
  pure (counts.result mergeMode batch)

/-- A call that writes no row: an empty payload or a rejected fragment. -/
def skipIngest (depth : Nat) (ctx : IngestContext) (mergeMode : MergeMode)
    (rawTurnCount : Nat) (batchId : Option Uuid) :
    StoreProgram CanonicalIngestResult := do
  let counts : IngestCounts := ⟨0, 0, 0, 0, 0, []⟩
  let batch ← saveBatch depth ctx.now ctx.conversationId rawTurnCount mergeMode
    ctx.prepared counts batchId
  pure (counts.result mergeMode batch)

/-- The rows of a call whose alignment is known, under the batch it drew. -/
def ingestAligned (depth : Nat) (sha : Sha256) (ctx : IngestContext)
    (existing : List CanonicalTurnRow) (alignment : Option Alignment)
    (batchId : Uuid) : StoreProgram CanonicalIngestResult :=
  if existing.isEmpty then do
    let counts ← appendAll sha ctx batchId 1000 0
    finishIngest depth sha ctx .noOverlapAppend batchId counts
  else
    match alignment with
    | none =>
        if hasCompletePair ctx.prepared then do
          let counts ← appendAll sha ctx batchId (defaultSortKey existing)
            existing.length
          finishIngest depth sha ctx .noOverlapAppend batchId counts
        else
          skipIngest depth ctx .fragmentRejected ctx.rawTurnCount (some batchId)
    | some alignment => do
        let counts ← mergeAround sha ctx batchId existing alignment
        finishIngest depth sha ctx alignment.mergeMode batchId counts

def ingestPreparedTurnsLocked (depth : Nat) (sha : Sha256) (ctx : IngestContext)
    (existing : List CanonicalTurnRow) (allowShortOverlap : Bool) :
    StoreProgram CanonicalIngestResult := do
  if ctx.prepared.isEmpty then
    skipIngest depth ctx .emptyPayload 0 none
  else
    let alignment ← findAlignment sha ctx.conversationId existing
      ctx.prepared allowShortOverlap
    let batchId ← fresh
    ingestAligned depth sha ctx existing alignment batchId

/-! ## The entry points -/

def verifyEpoch (site : Site) (conversationId : ConversationId)
    (expected observed : Int) : StoreProgram Unit :=
  if expected = observed then pure ()
  else raise site (.lifecycleEpochMismatch conversationId expected observed)

/-- The epoch check made once the rows of the call are written. -/
def verifyCommitEpoch (depth : Nat) (ctx : IngestContext)
    (expectedLifecycleEpoch : Int) (result : CanonicalIngestResult) :
    StoreProgram CanonicalIngestResult := do
  let observed ← (getLifecycleEpoch ctx.conversationId).located .commitEpoch
  if observed ≠ expectedLifecycleEpoch then
    match result.batch with
    | some batch =>
        deleteCanonicalTurnsByBatchId depth ctx.conversationId batch.batchId
    | none => pure ()
    raise .commitEpoch (.lifecycleEpochMismatch ctx.conversationId
      expectedLifecycleEpoch observed)
  else pure result

def ingestPreparedTurns (sha : Sha256) (ctx : IngestContext) (expectedLifecycleEpoch : Int)
    (allowShortOverlap : Bool) : StoreProgram CanonicalIngestResult := do
  let observed ← (getLifecycleEpoch ctx.conversationId).located .entryEpoch
  verifyEpoch .entryEpoch ctx.conversationId expectedLifecycleEpoch observed
  conversationReconcile 0 fun depth => do
    let observed ← (getLifecycleEpoch ctx.conversationId).located .lockedEpoch
    verifyEpoch .lockedEpoch ctx.conversationId expectedLifecycleEpoch observed
    let existing ← getAllCanonicalTurns ctx.conversationId
    let result ←
      ingestPreparedTurnsLocked depth sha ctx existing allowShortOverlap
    verifyCommitEpoch depth ctx expectedLifecycleEpoch result

/-- The arguments of `ingest_single`. -/
structure IngestSingleArgs where
  conversationId : ConversationId
  userContent : String
  assistantContent : String
  userRawContent : Option String := none
  assistantRawContent : Option String := none
  metadata : TurnMetadata := {}

def IngestSingleArgs.prepared (args : IngestSingleArgs) (sha : Sha256)
    (now : String) : List CanonicalTurnRow :=
  [prepareMessageRow sha now args.conversationId .user args.userContent
      args.userRawContent args.metadata,
    prepareMessageRow sha now args.conversationId .assistant
      args.assistantContent args.assistantRawContent args.metadata]

theorem IngestSingleArgs.prepared_conversation (args : IngestSingleArgs)
    (sha : Sha256) (now : String) :
    ∀ row ∈ args.prepared sha now, row.conversationId = args.conversationId := by
  simp [prepared, prepareMessageRow]

theorem IngestSingleArgs.prepared_hashed (args : IngestSingleArgs)
    (sha : Sha256) (now : String) :
    ∀ row ∈ args.prepared sha now, row.turnHash ≠ [] := by
  simp [prepared, prepareMessageRow, computeTurnHashFromRaw, computeTurnHash,
    sha.nonempty]

/-- The context in which `ingest_single` falls through to the merge. -/
def IngestSingleArgs.context (args : IngestSingleArgs) (sha : Sha256)
    (now : String) : IngestContext where
  now := now
  conversationId := args.conversationId
  rawTurnCount := (args.prepared sha now).length
  prepared := args.prepared sha now
  ownConversation := args.prepared_conversation sha now
  hashed := args.prepared_hashed sha now

/-- The first pair among the last five rows that the call would resend. -/
def findResend (seen : String → Bool) (existing prepared : List CanonicalTurnRow) :
    Option (List CanonicalTurnRow) :=
  if existing.length < prepared.length then none
  else
    let recentWindow := existing.drop (existing.length - min 5 existing.length)
    (List.range (recentWindow.length - prepared.length + 1)).findSome? fun start =>
      let recent := slice recentWindow start prepared.length
      if recent.map (·.turnHash) = prepared.map (·.turnHash) ∧
          recent.all (fun row => seen (orText row.lastSeenAt "")) then
        some recent
      else none

/-- The row that an exact resend writes over the stored one. -/
def resendRow (now : String) (row existingRow : CanonicalTurnRow) :
    CanonicalTurnRow :=
  preserveExistingEnrichment
    { row with
      canonicalTurnId := existingRow.canonicalTurnId
      sortKey := existingRow.sortKey
      firstSeenAt := (orNone existingRow.firstSeenAt).or row.firstSeenAt
      lastSeenAt := some now }
    existingRow

def ordinalForRow (rows : List CanonicalTurnRow) (canonicalTurnId : Uuid) : Int :=
  match rows.findIdx? (·.canonicalTurnId = canonicalTurnId) with
  | some index => index
  | none => -1

def writeResend (sha : Sha256) (now : String)
    (existing : List CanonicalTurnRow) :
    Nat → List (CanonicalTurnRow × CanonicalTurnRow) → StoreProgram Unit
  | _, [] => pure ()
  | index, (row, existingRow) :: rows => do
      let row := resendRow now row existingRow
      writeTurn sha now index row
        (ordinalForRow existing existingRow.canonicalTurnId)
        row.firstSeenAt row.lastSeenAt
      writeResend sha now existing (index + 1) rows

def ingestSingle (sha : Sha256) (now : String) (seen : String → Bool)
    (args : IngestSingleArgs) : StoreProgram CanonicalIngestResult :=
  conversationReconcile 0 fun depth => do
    let existing ← getAllCanonicalTurns args.conversationId
    let prepared := args.prepared sha now
    match findResend seen existing prepared with
    | some recent =>
        writeResend sha now existing 0 (prepared.zip recent)
        refreshPersistedAnchors depth sha args.conversationId
        pure
          { mergeMode := .exactResend
            turnsWritten := 0
            turnsMatched := prepared.length
            turnsAppended := 0
            turnsPrepended := 0
            turnsInserted := 0
            rows := recent }
    | none =>
        ingestPreparedTurnsLocked depth sha (args.context sha now) existing false

end VirtualContext
