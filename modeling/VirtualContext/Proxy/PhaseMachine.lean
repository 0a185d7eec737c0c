import Mathlib.Algebra.GroupWithZero.Nat
import VirtualContext.Library.Reach
import VirtualContext.Storage.CompactionWrites

/-!
# The phases of a conversation

Workers enter and leave compactions, take over those of dead workers, start and
finish ingestions, all on one conversation at one lifecycle epoch.  A call
issues its statements one by one, and the statements of other calls come between
them.  `verify_epoch` raises at another epoch only, and is left out.
-/

namespace VirtualContext

open VirtualContext.Library
open VirtualContext.Library.Program

/-! ## Statements -/

structure ProgressSnapshot where
  phase : Phase
  totalIngestible : Nat
  doneIngestible : Nat
  activeCompaction : Option CompactionOperationRecord

/-- `SUM(covered_ingestible_entries)` of the turns that `p` selects. -/
def Tables.coveredEntries (t : Tables) (conversationId : ConversationId)
    (p : CanonicalTurnRecord → Bool) : Nat :=
  ((t.canonicalTurns.rows.filter fun row =>
    row.conversationId = conversationId && p row).map
      (·.coveredIngestibleEntries)).sum

/-- At most one operation is active at an epoch, by the index. -/
def readProgressSnapshot (conversationId : ConversationId) :
    StoreProgram ProgressSnapshot := do
  let row ← read .conversations fun tables =>
    (tables.conversation? conversationId).map fun row =>
      { phase := row.phase
        totalIngestible := tables.coveredEntries conversationId fun _ => true
        doneIngestible := tables.coveredEntries conversationId (·.taggedAt.isSome)
        activeCompaction := tables.compactionOperation.find?
          (·.activeAt conversationId row.lifecycleEpoch) }
  match row with
  | none => raise .conversations (.keyError conversationId)
  | some snapshot => pure snapshot

def getConversationPhase (conversationId : ConversationId) :
    StoreProgram Phase := do
  let row ← read .conversations (·.conversation? conversationId)
  match row with
  | none => raise .conversations (.keyError conversationId)
  | some row => pure row.phase

/-! The two statements of `claim_compaction_lease`. -/

def readCompactionLease (conversationId : ConversationId)
    (lifecycleEpoch : Int) : StoreProgram (Option CompactionOperationRecord) :=
  read .compactionOperation fun tables =>
    latestStarted (tables.compactionOperation.filter
      (·.activeAt conversationId lifecycleEpoch))

def updateCompactionLease (now cutoff : String)
    (conversationId : ConversationId) (lifecycleEpoch : Int)
    (workerId : String) : StoreProgram Nat :=
  updateOperations
    (fun _ row => row.activeAt conversationId lifecycleEpoch &&
      (row.ownerWorkerId = workerId || decide (row.heartbeatTs < cutoff)))
    fun row => { row with ownerWorkerId := workerId, heartbeatTs := now }

theorem claimCompactionLease_eq (depth : Nat) (now cutoff : String)
    (conversationId : ConversationId) (lifecycleEpoch : Int)
    (workerId : String) :
    claimCompactionLease depth now cutoff conversationId lifecycleEpoch workerId =
      (withConn .compactionOperation do
        let pre ← readCompactionLease conversationId lifecycleEpoch
        let rowcount ← updateCompactionLease now cutoff conversationId
          lifecycleEpoch workerId
        commitIfUnlocked depth .compactionOperation
        pure ⟨0 < rowcount, pre.map (·.operationId), pre.map (·.ownerWorkerId)⟩) :=
  rfl

/-! ## Calls -/

/--
What a statement takes besides the store: the clock and the cutoff of leases, an
identifier of `uuid4`, and `_active_compaction_op`.
-/
structure StatementInput where
  now : String := ""
  cutoff : String := ""
  uuid : String := ""
  activeCompactionOp : Option String := none
  deriving DecidableEq, Repr

/-- A call of a worker, by the statement that it issues next. -/
inductive PhaseCall where
  -- `enter_compaction`
  | setCompacting (phaseCount : Int) (phaseName : String)
  | startOperation (phaseCount : Int) (phaseName : String)
  -- `exit_compaction`
  | endOperation (success : Bool) (errorMessage : Option String)
  | drain
  -- `handle_prepare_payload`
  | updateMetadata (newRaw newIngestible : Int)
  | phaseGate (newRaw : Int)
  | orphanCheck (newRaw : Int)
  | orphanRepair (newRaw : Int)
  | readLease (newRaw : Int)
  | claimLease (newRaw : Int) (prevOperationId : Option String)
  | abandon (newRaw : Int) (deadOperationId : String)
  -- with what the first statement took
  | cleanup (newRaw : Int) (deadOperationId : String) (begun : StatementInput)
      (statements : List CleanupStatement)
  | widenPending (newRaw : Int)
  | deriveProgress (newRaw : Int) (phase : Phase)
  | setActive
  | setIngesting (newRaw : Int)
  | upsertEpisode (newRaw : Int)
  | claimIngestion
  -- `_finalize_ingestion_if_complete`
  | finalizePhase
  | finalizeProgress
  | finalizeClaim
  | completeEpisode
  deriving DecidableEq, Repr

structure WorkerCall where
  worker : String
  call : PhaseCall
  deriving DecidableEq, Repr

structure PhaseMachine where
  conversationId : ConversationId
  epoch : Int
  tables : Tables
  calls : List WorkerCall := []
  deriving DecidableEq

namespace PhaseMachine

variable (s : PhaseMachine)

/-- A statement and what the call does next; an exception ends the call. -/
def issue {α : Type} (program : StoreProgram α)
    (next : α → Option PhaseCall) : Tables × Option PhaseCall :=
  match program.run .quiet (.idle s.tables 0) with
  | (.ok value, c) => (c.durable, next value)
  | (.error _, c) => (c.durable, none)

/-- The decision of step 5.5 of `handle_prepare_payload`. -/
def afterProgress (newRaw : Int) (phase : Phase) (snapshot : ProgressSnapshot) :
    Option PhaseCall :=
  if snapshot.totalIngestible = snapshot.doneIngestible then
    match phase with
    | .init => some .setActive
    | .ingesting => some .finalizePhase
    | _ => none
  else if phase = .init ∨ phase = .active then some (.setIngesting newRaw)
  else some (.upsertEpisode newRaw)

/-- What follows the UPDATE of a claim. -/
def afterClaim (newRaw : Int) (prevOperationId activeCompactionOp : Option String)
    (rowcount : Nat) : PhaseCall :=
  if rowcount = 0 ∨ activeCompactionOp = prevOperationId then .widenPending newRaw
  else
    match prevOperationId with
    -- `operation_id = NULL` holds of no row: nothing is cleaned up
    | none => .widenPending newRaw
    | some deadOperationId => .abandon newRaw deadOperationId

def cleanupArgs (worker deadOperationId : String) (input : StatementInput) :
    CleanupArgs where
  now := input.now
  conversationId := s.conversationId
  deadOperationId := deadOperationId
  newOperationId := input.uuid
  lifecycleEpoch := s.epoch
  workerId := worker
  phaseCount := 7

/-- The tables after the next statement of a call, and what is left of the call. -/
def advance (worker : String) (input : StatementInput) :
    PhaseCall → Tables × Option PhaseCall
  | .setCompacting phaseCount phaseName =>
      s.issue (setPhase input.now s.conversationId s.epoch .compacting) fun ok =>
        if ok then some (.startOperation phaseCount phaseName) else none
  | .startOperation phaseCount phaseName =>
      s.issue (startCompactionOperation input.now input.uuid s.conversationId
        s.epoch worker phaseCount phaseName) fun _ => none
  | .endOperation true _ =>
      s.issue (completeCompactionOperation input.now s.conversationId s.epoch
        worker) fun _ => some .drain
  | .endOperation false errorMessage =>
      s.issue (failCompactionOperation input.now s.conversationId s.epoch worker
        (orText errorMessage "unknown")) fun _ => some .drain
  | .drain =>
      s.issue (drainCompactionExit input.now input.uuid s.conversationId s.epoch
        worker) fun _ => none
  | .updateMetadata newRaw newIngestible =>
      s.issue (updateRequestMetadata input.now s.conversationId s.epoch newRaw
        newIngestible) fun ok => if ok then some (.phaseGate newRaw) else none
  | .phaseGate newRaw =>
      s.issue (getConversationPhase s.conversationId) fun phase =>
        match phase with
        | .compacting => some (.orphanCheck newRaw)
        -- a resurrection leaves the lifecycle epoch
        | .deleted => none
        | phase => some (.deriveProgress newRaw phase)
  | .orphanCheck newRaw =>
      s.issue (readProgressSnapshot s.conversationId) fun snapshot =>
        if snapshot.activeCompaction.isNone then some (.orphanRepair newRaw)
        else some (.readLease newRaw)
  | .orphanRepair newRaw =>
      s.issue (setPhase input.now s.conversationId s.epoch .active) fun ok =>
        if ok then some (.deriveProgress newRaw .active)
        else some (.readLease newRaw)
  | .readLease newRaw =>
      s.issue (readCompactionLease s.conversationId s.epoch) fun pre =>
        some (.claimLease newRaw (pre.map (·.operationId)))
  | .claimLease newRaw prevOperationId =>
      s.issue (updateCompactionLease input.now input.cutoff s.conversationId
        s.epoch worker) fun rowcount =>
          some (afterClaim newRaw prevOperationId input.activeCompactionOp rowcount)
  | .abandon newRaw deadOperationId =>
      s.issue (abandonOperation (s.cleanupArgs worker deadOperationId input))
        fun freshTakeover =>
          some (.cleanup newRaw deadOperationId input
            (cleanupStatements freshTakeover))
  | .cleanup newRaw _ _ [] => (s.tables, some (.widenPending newRaw))
  | .cleanup newRaw deadOperationId begun (statement :: statements) =>
      s.issue (statement.program (s.cleanupArgs worker deadOperationId begun))
        fun _ => some (.cleanup newRaw deadOperationId begun statements)
  | .widenPending newRaw =>
      s.issue (widenPendingRawPayloadEntries s.conversationId s.epoch newRaw)
        fun _ => none
  | .deriveProgress newRaw phase =>
      s.issue (readProgressSnapshot s.conversationId) (afterProgress newRaw phase)
  | .setActive =>
      s.issue (setPhase input.now s.conversationId s.epoch .active) fun _ => none
  | .setIngesting newRaw =>
      s.issue (setPhase input.now s.conversationId s.epoch .ingesting) fun ok =>
        if ok then some (.upsertEpisode newRaw) else none
  | .upsertEpisode newRaw =>
      s.issue (upsertIngestionEpisode input.now input.uuid s.conversationId
        s.epoch worker newRaw) fun _ => some .claimIngestion
  | .claimIngestion =>
      s.issue (claimIngestionLease input.now input.cutoff s.conversationId s.epoch
        worker) fun _ => none
  | .finalizePhase =>
      s.issue (getConversationPhase s.conversationId) fun phase =>
        if phase = .ingesting then some .finalizeProgress else none
  | .finalizeProgress =>
      s.issue (readProgressSnapshot s.conversationId) fun snapshot =>
        if snapshot.totalIngestible = snapshot.doneIngestible then
          some .finalizeClaim
        else none
  | .finalizeClaim =>
      s.issue (claimIngestionLease input.now input.cutoff s.conversationId s.epoch
        worker) fun claimed => if claimed then some .completeEpisode else none
  | .completeEpisode =>
      s.issue (completeIngestionEpisode input.now s.conversationId s.epoch worker)
        fun completed => if completed then some .setActive else none

/-! ## Steps -/

inductive Action where
  | enterCompaction (phaseCount : Int) (phaseName : String)
  | exitCompaction (success : Bool) (errorMessage : Option String)
  | handlePreparePayload (newRaw newIngestible : Int)
  | finalizeIngestionIfComplete
  -- also the end of `_tagger_run`
  | finalizeLegacyIngestion
  /-- The next statement of one of the worker's calls. -/
  | proceed (call : Nat)
  | advanceCompactionPhase (phaseIndex : Int) (phaseName : String)
  | refreshCompactionHeartbeat (operationId : String)
  /-- What reconcilers and taggers write. -/
  | writeTurns (turns : CanonicalTurns)

structure Step where
  worker : String
  action : Action
  input : StatementInput := {}

/-- The call of `handle_prepare_payload` and the others, before a statement. -/
def Action.call : Action → Option PhaseCall
  | enterCompaction phaseCount phaseName =>
      some (.setCompacting phaseCount phaseName)
  | exitCompaction success errorMessage =>
      some (.endOperation success errorMessage)
  | handlePreparePayload newRaw newIngestible =>
      some (.updateMetadata newRaw newIngestible)
  | finalizeIngestionIfComplete => some .finalizePhase
  | finalizeLegacyIngestion => some .completeEpisode
  | _ => none

/-- The identifier that the statement stores. -/
def newId (input : StatementInput) : PhaseCall → Option String
  | .startOperation .. | .drain | .upsertEpisode _ => some input.uuid
  | .cleanup _ _ begun (.insertOperation :: _) => some begun.uuid
  | _ => none

/-- `uuid4` returns no identifier that a row has. -/
def isNew (id : String) : Bool :=
  !(s.tables.compactionOperation.any (·.operationId = id) ||
    s.tables.ingestionEpisode.any (·.episodeId = id))

/-- The state after a step, if the step can be made. -/
def step (a : Step) : Option PhaseMachine :=
  match a.action with
  | .proceed i =>
      (s.calls[i]?.filter fun call =>
        call.worker = a.worker && (newId a.input call.call).all s.isNew).map
          fun call =>
            let (tables, rest) := s.advance a.worker a.input call.call
            { s with
              tables := tables
              calls := s.calls.take i ++
                (rest.map (WorkerCall.mk a.worker)).toList ++ s.calls.drop (i + 1) }
  | .advanceCompactionPhase phaseIndex phaseName =>
      some { s with
        tables := (s.issue (VirtualContext.advanceCompactionPhase a.input.now
          s.conversationId s.epoch a.worker phaseIndex phaseName) fun _ => none).1 }
  | .refreshCompactionHeartbeat operationId =>
      some { s with
        tables := (s.issue (VirtualContext.refreshCompactionHeartbeat 0
          a.input.now s.conversationId s.epoch a.worker operationId)
            fun _ => none).1 }
  | .writeTurns turns =>
      some { s with tables := { s.tables with canonicalTurns := turns } }
  | action =>
      some { s with
        calls := s.calls ++ (action.call.map (WorkerCall.mk a.worker)).toList }

end PhaseMachine

end VirtualContext
