import VirtualContext.Proxy.PhaseMachine
import VirtualContext.Storage.CleanupStops

/-!
# Takeovers and completed compactions

Claims, the takeovers that follow them, and what the operations do in between,
statement by statement.  A claim reads the active operation in one statement and
updates it in another, and the cleanup names the operation that was read.
-/

namespace VirtualContext

open VirtualContext.Library
open VirtualContext.Library.Program

/-! ## Steps -/

/-- A claim after its first statement, with the operation that it has read. -/
structure PendingClaim where
  conversationId : ConversationId
  lifecycleEpoch : Int
  workerId : String
  prevOperationId : Option String
  deriving DecidableEq, Repr

/-- A takeover before the first statement of its cleanup. -/
structure PendingTakeover where
  conversationId : ConversationId
  lifecycleEpoch : Int
  workerId : String
  deadOperationId : String
  deriving DecidableEq, Repr

structure LeaseMachine where
  tables : Tables
  claims : List PendingClaim := []
  takeovers : List PendingTakeover := []
  cleanups : List PendingCleanup := []

inductive LeaseStep where
  -- the two statements of `claim_compaction_lease`
  | readLease (conversationId : ConversationId) (lifecycleEpoch : Int) (workerId : String)
  | claimLease (claim : Nat) (now cutoff : String) (activeCompactionOp : Option String)
  -- the first statement of `cleanup_abandoned_compaction`, and the next one
  | abandon (takeover : Nat) (now newOperationId : String) (phaseCount : Int)
  | continueCleanup (cleanup : Nat)
  | startOperation (now operationId : String) (conversationId : ConversationId)
      (lifecycleEpoch : Int) (workerId : String) (phaseCount : Int) (phaseName : String)
  | advancePhase (now : String) (conversationId : ConversationId) (lifecycleEpoch : Int)
      (workerId : String) (phaseIndex : Int) (phaseName : String)
  | completeOperation (now : String) (conversationId : ConversationId)
      (lifecycleEpoch : Int) (workerId : String)
  | write (write : CompactionWrite)

namespace LeaseMachine

variable (s : LeaseMachine)

/-- The value of a program, if it does not raise, and the tables that it leaves. -/
def issue {α : Type} (program : StoreProgram α) : Option α × Tables :=
  match program.run .quiet (.idle s.tables 0) with
  | (.ok value, c) => (some value, c.durable)
  | (.error _, c) => (none, c.durable)

def leaving {α : Type} (program : StoreProgram α) : LeaseMachine :=
  { s with tables := (s.issue program).2 }

/-- `handle_prepare_payload` takes over what the claim has read, unless it is its own. -/
def takeover (claim : PendingClaim) (rowcount : Nat) (activeCompactionOp : Option String) :
    Option PendingTakeover :=
  if rowcount = 0 ∨ activeCompactionOp = claim.prevOperationId then none
  -- `operation_id = NULL` holds of no row: such a cleanup finds nothing
  else claim.prevOperationId.map fun deadOperationId =>
    { conversationId := claim.conversationId
      lifecycleEpoch := claim.lifecycleEpoch
      workerId := claim.workerId
      deadOperationId := deadOperationId }

def cleanupArgs (dead : PendingTakeover) (now newOperationId : String) (phaseCount : Int) :
    CleanupArgs where
  now := now
  conversationId := dead.conversationId
  deadOperationId := dead.deadOperationId
  newOperationId := newOperationId
  lifecycleEpoch := dead.lifecycleEpoch
  workerId := dead.workerId
  phaseCount := phaseCount

def continueCleanup (i : Nat) (cleanup : PendingCleanup) : LeaseMachine :=
  match cleanup.statements with
  | [] => { s with cleanups := s.cleanups.eraseIdx i }
  | statement :: statements =>
      match s.issue (statement.program cleanup.args) with
      | (some _, tables) =>
          { s with
            tables := tables
            cleanups := s.cleanups.set i ⟨cleanup.args, statements⟩ }
      | (none, tables) => { s with tables := tables, cleanups := s.cleanups.eraseIdx i }

/-- The state after a statement, if there is a call that issues it. -/
def step : LeaseStep → Option LeaseMachine
  | .readLease conversationId lifecycleEpoch workerId =>
      let (pre, tables) := s.issue (readCompactionLease conversationId lifecycleEpoch)
      some { s with
        tables := tables
        claims := s.claims ++
          [⟨conversationId, lifecycleEpoch, workerId, pre.join.map (·.operationId)⟩] }
  | .claimLease i now cutoff activeCompactionOp =>
      s.claims[i]?.map fun claim =>
        let (rowcount, tables) := s.issue (updateCompactionLease now cutoff
          claim.conversationId claim.lifecycleEpoch claim.workerId)
        { s with
          tables := tables
          claims := s.claims.eraseIdx i
          takeovers := s.takeovers ++
            (takeover claim (rowcount.getD 0) activeCompactionOp).toList }
  | .abandon i now newOperationId phaseCount =>
      s.takeovers[i]?.map fun dead =>
        let args := cleanupArgs dead now newOperationId phaseCount
        let (freshTakeover, tables) := s.issue (abandonOperation args)
        { s with
          tables := tables
          takeovers := s.takeovers.eraseIdx i
          cleanups := s.cleanups ++ [⟨args, cleanupStatements (freshTakeover.getD false)⟩] }
  | .continueCleanup i => s.cleanups[i]?.map (s.continueCleanup i)
  | .startOperation now operationId conversationId lifecycleEpoch workerId phaseCount
      phaseName =>
      some (s.leaving (startCompactionOperation now operationId conversationId
        lifecycleEpoch workerId phaseCount phaseName))
  | .advancePhase now conversationId lifecycleEpoch workerId phaseIndex phaseName =>
      some (s.leaving (advanceCompactionPhase now conversationId lifecycleEpoch workerId
        phaseIndex phaseName))
  | .completeOperation now conversationId lifecycleEpoch workerId =>
      some (s.leaving (completeCompactionOperation now conversationId lifecycleEpoch
        workerId))
  | .write write => some (s.leaving write.call)

end LeaseMachine

/-! ## Completed operations -/

/-- The rows of completed operations are kept, with their stamps. -/
def KeepsCompleted (t t' : Tables) : Prop :=
  ∀ operation ∈ t.compactionOperation, operation.status = .completed →
    (∀ row ∈ t.segments, row.operationId = some operation.operationId → row ∈ t'.segments) ∧
    (∀ row ∈ t.facts, row.operationId = some operation.operationId → row ∈ t'.facts) ∧
    (∀ row ∈ t.tagSummaries, row.operationId = some operation.operationId →
      row ∈ t'.tagSummaries) ∧
    ∀ row ∈ t.canonicalTurns.rows,
      row.compactionOperationId = some operation.operationId → row ∈ t'.canonicalTurns.rows

instance (t t' : Tables) : Decidable (KeepsCompleted t t') :=
  inferInstanceAs (Decidable (∀ operation ∈ t.compactionOperation, _))

namespace LeaseStep

/-- A statement of a cleanup. -/
def isCleanup : LeaseStep → Bool
  | abandon .. | continueCleanup _ => true
  | _ => false

/-- A cleanup leaves what completed operations wrote. -/
def SparesCompleted (s : LeaseMachine) (a : LeaseStep) : Prop :=
  a.isCleanup = true → ∀ s' ∈ s.step a, KeepsCompleted s.tables s'.tables

instance (s : LeaseMachine) (a : LeaseStep) : Decidable (SparesCompleted s a) :=
  inferInstanceAs (Decidable (_ → ∀ s' ∈ s.step a, _))

end LeaseStep

/-- The statement undoes what an operation has written. -/
def CleanupStatement.undoes : CleanupStatement → Bool
  | deleteSegments | deleteFacts | deleteTagSummaries | resetCanonicalTurns => true
  | deleteTagSummaryEmbeddings | insertOperation => false

def Tables.HasCompleted (t : Tables) (operationId : String) : Prop :=
  ∃ operation ∈ t.compactionOperation,
    operation.operationId = operationId ∧ operation.status = .completed

instance (t : Tables) (operationId : String) : Decidable (t.HasCompleted operationId) :=
  inferInstanceAs (Decidable (∃ operation ∈ t.compactionOperation, _))

/-- The statements would undo nothing of the dead operation. -/
def UndoesNothing (t : Tables) (args : CleanupArgs) (statements : List CleanupStatement) :
    Prop :=
  ∀ statement ∈ statements, statement.undoes = true → statement.finds args t = false

instance (t : Tables) (args : CleanupArgs) (statements : List CleanupStatement) :
    Decidable (UndoesNothing t args statements) :=
  inferInstanceAs (Decidable (∀ statement ∈ statements, _))

/-- The operation is completed by its owner. -/
def Tables.completes (t : Tables) (conversationId : ConversationId) (lifecycleEpoch : Int)
    (workerId operationId : String) : Bool :=
  t.compactionOperation.any fun row =>
    row.operationId = operationId && ownsActive conversationId lifecycleEpoch workerId t row

namespace LeaseStep

/--
A cleanup begins on an operation that has not completed, or that has left nothing;
and an operation completes only when no cleanup that is under way would still find
something of it.
-/
def InTime (s : LeaseMachine) : LeaseStep → Prop
  | abandon i now newOperationId phaseCount =>
      ∀ dead ∈ s.takeovers[i]?, s.tables.HasCompleted dead.deadOperationId →
        UndoesNothing s.tables (LeaseMachine.cleanupArgs dead now newOperationId phaseCount)
          (cleanupStatements false)
  | completeOperation _ conversationId lifecycleEpoch workerId =>
      ∀ cleanup ∈ s.cleanups,
        s.tables.completes conversationId lifecycleEpoch workerId
          cleanup.args.deadOperationId →
        UndoesNothing s.tables cleanup.args cleanup.statements
  | _ => True

instance (s : LeaseMachine) (a : LeaseStep) : Decidable (InTime s a) :=
  match a with
  | .abandon .. => inferInstanceAs (Decidable (∀ dead ∈ _, _ → _))
  | .completeOperation .. => inferInstanceAs (Decidable (∀ cleanup ∈ _, _))
  | .readLease .. | .claimLease .. | .continueCleanup _ | .startOperation ..
  | .advancePhase .. | .write _ => inferInstanceAs (Decidable True)

end LeaseStep

/-! ## What the statements find -/

section

variable {t t' : Tables}

theorem any_of_any_filter {α : Type} {p q : α → Bool} {rows : List α}
    (h : (rows.filter q).any p = true) : rows.any p = true := by
  obtain ⟨row, hrow, hp⟩ := List.any_eq_true.mp h
  exact List.any_eq_true.mpr ⟨row, (List.mem_filter.mp hrow).1, hp⟩

/-- After a statement of a cleanup, no other finds more. -/
theorem finds_of_finds_change {args args' : CleanupArgs}
    {statement other : CleanupStatement} (h : other.finds args' (statement.change args t) = true) :
    other.finds args' t = true := by
  cases statement with
  | resetCanonicalTurns =>
      cases other with
      | resetCanonicalTurns =>
          obtain ⟨row', hrow', hfound⟩ := List.any_eq_true.mp h
          obtain ⟨row, hrow, rfl⟩ := List.mem_map.mp hrow'
          refine List.any_eq_true.mpr ⟨row, hrow, ?_⟩
          by_cases hdead : row.conversationId = args.conversationId ∧
              row.compactionOperationId = some args.deadOperationId
          · rw [show (resetCompaction args).apply row = _ from if_pos hdead] at hfound
            cases hfound
          · rwa [show (resetCompaction args).apply row = row from if_neg hdead] at hfound
      | _ => exact h
  | insertOperation => cases other <;> exact h
  | deleteSegments =>
      cases other with
      | deleteSegments => exact any_of_any_filter h
      | _ => exact h
  | deleteFacts =>
      cases other with
      | deleteFacts => exact any_of_any_filter h
      | _ => exact h
  | deleteTagSummaries =>
      cases other with
      | deleteTagSummaries => exact any_of_any_filter h
      | _ => exact h
  | deleteTagSummaryEmbeddings =>
      cases other with
      | deleteTagSummaryEmbeddings => exact any_of_any_filter h
      | _ => exact h

/-- A completed operation writes no more. -/
theorem not_owns_completed (hids : (t.compactionOperation.map (·.operationId)).Nodup)
    {conversationId : ConversationId} {guard : CompactionGuard}
    (hcompleted : t.HasCompleted guard.operationId) :
    ¬t.ownsCompaction conversationId guard = true := by
  intro howns
  obtain ⟨running, hrunning, hid, -, hruns⟩ := runs_of_ownsCompaction howns
  obtain ⟨row, hrow, hrowId, hstatus⟩ := hcompleted
  obtain rfl := List.inj_on_of_nodup_map hids hrow hrunning (hrowId.trans hid.symm)
  rw [hstatus] at hruns
  cases hruns

theorem finds_replaceFacts {args : CleanupArgs} {statement : CleanupStatement}
    (facts : List Fact) (t : Tables)
    (h : statement.finds args (CompactionWrite.replaceFacts facts t) = true) :
    statement.finds args t = true := by
  induction facts generalizing t with
  | nil => exact h
  | cons fact facts ih =>
      have hrest := ih (t.replaceFact fact) h
      cases statement with
      | deleteFacts =>
          obtain ⟨row, hrow, hfound⟩ := List.any_eq_true.mp hrest
          rcases mem_replaceBy.mp hrow with rfl | ⟨hrow, -⟩
          -- a fact is stored without an operation
          · cases hfound
          · exact List.any_eq_true.mpr ⟨row, hrow, hfound⟩
      | _ => exact hrest

/-- A write stamps its rows with its own operation. -/
theorem finds_of_finds_after {args : CleanupArgs} {statement : CleanupStatement}
    {write : CompactionWrite} (happlies : write.applies t = true)
    (hdead : ∀ conversationId, t.ownsCompaction conversationId write.guard = true →
      write.operationId ≠ args.deadOperationId)
    (h : statement.finds args (write.after t) = true) : statement.finds args t = true := by
  have hstamped {conversationId rowConversation : ConversationId}
      (howns : t.ownsCompaction conversationId write.guard = true) :
      ¬args.ofDeadOperation (some write.operationId) rowConversation = true := by
    intro hfound
    simp only [CleanupArgs.ofDeadOperation, Bool.and_eq_true, decide_eq_true_eq,
      Option.some.injEq] at hfound
    exact hdead conversationId howns hfound.1
  cases write with
  | storeSegment segment guard =>
      simp only [CompactionWrite.applies, Bool.and_eq_true] at happlies
      cases statement with
      | deleteSegments =>
          obtain ⟨row, hrow, hfound⟩ := List.any_eq_true.mp h
          rcases mem_replaceBy.mp hrow with rfl | ⟨hrow, -⟩
          · exact absurd hfound (hstamped happlies.1)
          · exact List.any_eq_true.mpr ⟨row, hrow, hfound⟩
      | _ => exact h
  | storeFacts facts guard => exact finds_replaceFacts facts t h
  | replaceFactsForSegment conversationId segmentRef facts guard =>
      have hcleared := finds_replaceFacts facts _ h
      cases statement with
      | deleteFacts => exact any_of_any_filter hcleared
      | _ => exact hcleared
  | saveTagSummary summary conversationId guard =>
      cases statement with
      | deleteTagSummaries =>
          obtain ⟨row, hrow, hfound⟩ := List.any_eq_true.mp h
          rcases mem_upsertBy hrow with rfl | ⟨stored, -, rfl⟩ | ⟨hrow, -⟩
          · exact absurd hfound (hstamped happlies)
          · exact absurd hfound (hstamped happlies)
          · exact List.any_eq_true.mpr ⟨row, hrow, hfound⟩
      | _ => exact h
  | markCanonicalTurnsCompacted now conversationId ids compactedAt guard =>
      cases statement with
      | resetCanonicalTurns =>
          obtain ⟨row', hrow', hfound⟩ := List.any_eq_true.mp h
          obtain ⟨row, hrow, rfl⟩ := List.mem_map.mp hrow'
          by_cases hmarked : t.canonicalTurns.inMarkedGroup conversationId ids row = true
          · have howns := owns_of_marked happlies (List.mem_filter.mpr ⟨hrow, hmarked⟩)
            rw [show (markCompacted t.canonicalTurns conversationId ids
              (orText compactedAt now) (some guard)).apply row = _ from if_pos hmarked]
              at hfound
            exact absurd hfound (hstamped howns)
          · rw [show (markCompacted t.canonicalTurns conversationId ids
              (orText compactedAt now) (some guard)).apply row = row from if_neg hmarked]
              at hfound
            exact List.any_eq_true.mpr ⟨row, hrow, hfound⟩
      | _ => exact h

/--
The identifiers stay unique, what has completed had completed before, and no more
is found of it.
-/
structure Settles (t t' : Tables) : Prop where
  ids : (t.compactionOperation.map (·.operationId)).Nodup →
    (t'.compactionOperation.map (·.operationId)).Nodup
  completed : ∀ operationId, t'.HasCompleted operationId → t.HasCompleted operationId
  finds : (t.compactionOperation.map (·.operationId)).Nodup →
    ∀ (args : CleanupArgs) (statement : CleanupStatement),
      t.HasCompleted args.deadOperationId → statement.finds args t' = true →
        statement.finds args t = true

/-- An UPDATE of the operations leaves their identifiers. -/
theorem operationIds_update (p : CompactionOperationRecord → Bool)
    (f : CompactionOperationRecord → CompactionOperationRecord)
    (hid : ∀ row, (f row).operationId = row.operationId)
    (hids : (t.compactionOperation.map (·.operationId)).Nodup) :
    ((t.compactionOperation.map fun row => if p row then f row else row).map
      (·.operationId)).Nodup := by
  rw [List.map_map]
  convert hids using 2
  funext row
  dsimp only [Function.comp_apply]
  split_ifs
  · exact hid row
  · rfl

namespace Settles

theorem refl (t : Tables) : Settles t t :=
  ⟨id, fun _ h => h, fun _ _ _ _ h => h⟩

/-- New operations, over the same rows. -/
theorem with_operations {operations : List CompactionOperationRecord}
    (hids : (t.compactionOperation.map (·.operationId)).Nodup →
      (operations.map (·.operationId)).Nodup)
    (hcompleted : ∀ row ∈ operations, row.status = .completed →
      t.HasCompleted row.operationId) :
    Settles t { t with compactionOperation := operations } := by
  refine ⟨hids, ?_, fun _ args statement _ hfinds => ?_⟩
  · rintro operationId ⟨row, hrow, rfl, hstatus⟩
    exact hcompleted row hrow hstatus
  · cases statement <;> exact hfinds

theorem with_update (p : CompactionOperationRecord → Bool)
    (f : CompactionOperationRecord → CompactionOperationRecord)
    (hid : ∀ row, (f row).operationId = row.operationId)
    (hstatus : ∀ row, (f row).status = .completed → row.status = .completed) :
    Settles t { t with
      compactionOperation := t.compactionOperation.map fun row =>
        if p row then f row else row } := by
  refine with_operations (operationIds_update p f hid) fun row hrow hcompleted => ?_
  obtain ⟨stored, hstored, rfl⟩ := List.mem_map.mp hrow
  split_ifs at hcompleted ⊢
  · exact ⟨stored, hstored, (hid stored).symm, hstatus stored hcompleted⟩
  · exact ⟨stored, hstored, rfl, hcompleted⟩

theorem with_new {operation : CompactionOperationRecord}
    (hstatus : operation.status ≠ .completed)
    (haccepted : ¬t.rejectsOperation operation = true) :
    Settles t { t with
      compactionOperation := t.compactionOperation ++ [operation] } := by
  refine with_operations (fun hnodup => ?_) fun row hrow hcompleted => ?_
  · rw [List.map_append, List.map_singleton, List.nodup_append]
    refine ⟨hnodup, List.nodup_singleton _, ?_⟩
    rintro id hid id' hid' rfl
    obtain ⟨row, hrow, rfl⟩ := List.mem_map.mp hid
    refine haccepted ?_
    rw [Tables.rejectsOperation, Bool.or_eq_true, List.any_eq_true]
    refine .inr ⟨row, hrow, ?_⟩
    rw [Bool.or_eq_true, decide_eq_true_eq]
    exact .inl (List.mem_singleton.mp hid')
  · rcases List.mem_append.mp hrow with hrow | hrow
    · exact ⟨row, hrow, rfl, hcompleted⟩
    · obtain rfl := List.mem_singleton.mp hrow
      exact absurd hcompleted hstatus

/-- A statement of a cleanup takes rows away. -/
theorem with_change (args : CleanupArgs) {statement : CleanupStatement}
    (h : statement ≠ .insertOperation) : Settles t (statement.change args t) := by
  have hoperations : (statement.change args t).compactionOperation =
      t.compactionOperation := by
    cases statement <;> first | rfl | exact absurd rfl h
  refine ⟨fun hnodup => by rwa [hoperations], ?_, ?_⟩
  · rintro operationId ⟨row, hrow, hrest⟩
    rw [hoperations] at hrow
    exact ⟨row, hrow, hrest⟩
  · exact fun _ _ _ _ hfinds => finds_of_finds_change hfinds

theorem with_write {write : CompactionWrite} (happlies : write.applies t = true) :
    Settles t (write.after t) := by
  have hoperations := TakeoverInv.after_compactionOperation write t
  refine ⟨fun hnodup => by rwa [hoperations], ?_, ?_⟩
  · rintro operationId ⟨row, hrow, hrest⟩
    rw [hoperations] at hrow
    exact ⟨row, hrow, hrest⟩
  · intro hids args statement hcompleted hfinds
    refine finds_of_finds_after happlies (fun conversationId howns hdead => ?_) hfinds
    rw [← hdead] at hcompleted
    exact not_owns_completed hids hcompleted howns

end Settles

theorem UndoesNothing.of_settles (hsettles : Settles t t')
    (hids : (t.compactionOperation.map (·.operationId)).Nodup) {args : CleanupArgs}
    {statements : List CleanupStatement} (hcompleted : t.HasCompleted args.deadOperationId)
    (h : UndoesNothing t args statements) : UndoesNothing t' args statements := by
  intro statement hmem hundoes
  refine Bool.eq_false_iff.mpr fun hfinds => ?_
  have hbefore := hsettles.finds hids args statement hcompleted hfinds
  exact absurd hbefore (Bool.eq_false_iff.mp (h statement hmem hundoes))

end

/-! ## The invariant of the runs -/

namespace LeaseMachine

variable {s s' : LeaseMachine}

theorem tables_leaving_update {α : Type}
    (p : Tables → CompactionOperationRecord → Bool)
    (f : CompactionOperationRecord → CompactionOperationRecord) (answer : Nat → α) :
    (s.leaving (withConn .compactionOperation do
      let rowcount ← updateOperations p f
      pure (answer rowcount))).tables =
      { s.tables with
        compactionOperation := s.tables.compactionOperation.map fun row =>
          if p s.tables row then f row else row } := by
  simp only [leaving, issue, updateOperations, run_withConn, run_bind, run_write_quiet,
    andThen_ok, run_pure, Conn.view_idle, Conn.store_idle, Conn.commit_idle,
    Conn.durable_idle]
  rfl

theorem issue_statement (args : CleanupArgs) (statement : CleanupStatement) :
    s.issue (statement.program args) = (some (), statement.change args s.tables) ∧
        (statement = .insertOperation →
          ¬s.tables.rejectsOperation args.newOperation = true) ∨
      s.issue (statement.program args) = (none, s.tables) := by
  cases statement with
  | insertOperation =>
      unfold issue CleanupStatement.program
      rw [run_insertOperation]
      split_ifs with hrejected
      · exact .inr rfl
      · exact .inl ⟨rfl, fun _ => hrejected⟩
  | _ =>
      refine .inl ⟨?_, nofun⟩
      unfold issue CleanupStatement.program
      rw [run_update_quiet]
      rfl

/-- What holds after steps that meet the condition. -/
structure Final (s : LeaseMachine) : Prop where
  ids : (s.tables.compactionOperation.map (·.operationId)).Nodup
  cleanups : ∀ cleanup ∈ s.cleanups, s.tables.HasCompleted cleanup.args.deadOperationId →
    UndoesNothing s.tables cleanup.args cleanup.statements

namespace Final

/-- A step after which no more is found, and the cleanups that it leaves under way. -/
theorem of_settles (h : s.Final) (hsettles : Settles s.tables s'.tables)
    (hcleanups : ∀ cleanup ∈ s'.cleanups,
      s.tables.HasCompleted cleanup.args.deadOperationId →
        UndoesNothing s.tables cleanup.args cleanup.statements) : s'.Final := by
  refine ⟨hsettles.ids h.ids, fun cleanup hmem hcompleted => ?_⟩
  have hbefore := hsettles.completed _ hcompleted
  exact (hcleanups cleanup hmem hbefore).of_settles hsettles h.ids hbefore

theorem of_start (t : Tables) (h : (t.compactionOperation.map (·.operationId)).Nodup) :
    Final { tables := t } :=
  ⟨h, by simp⟩

theorem after_claimLease (h : s.Final) {i : Nat} {now cutoff : String}
    {activeCompactionOp : Option String}
    (hstep : s.step (.claimLease i now cutoff activeCompactionOp) = some s') : s'.Final := by
  obtain ⟨claim, -, rfl⟩ := Option.map_eq_some_iff.mp hstep
  refine h.of_settles ?_ h.cleanups
  exact Settles.with_update _ _ (fun _ => rfl) fun _ hstatus => hstatus

theorem after_abandon (h : s.Final) {i : Nat} {now newOperationId : String}
    {phaseCount : Int}
    (htime : LeaseStep.InTime s (.abandon i now newOperationId phaseCount))
    (hstep : s.step (.abandon i now newOperationId phaseCount) = some s') : s'.Final := by
  obtain ⟨dead, hdead, rfl⟩ := Option.map_eq_some_iff.mp hstep
  have hrun := run_abandonOperation_isFresh (cleanupArgs dead now newOperationId phaseCount)
    s.tables 0
  refine h.of_settles ?_ fun cleanup hmem hcompleted => ?_
  · simp only [issue, hrun, Conn.durable_idle]
    exact Settles.with_update _ _ (fun _ => rfl) fun _ hstatus => nomatch hstatus
  · rcases List.mem_append.mp hmem with hmem | hmem
    · exact h.cleanups cleanup hmem hcompleted
    · obtain rfl := List.mem_singleton.mp hmem
      intro statement hstatement hundoes
      refine htime dead hdead hcompleted statement ?_ hundoes
      rcases List.mem_append.mp hstatement with hstatement | hstatement
      · exact List.mem_append_left _ hstatement
      · split_ifs at hstatement
        · obtain rfl := List.mem_singleton.mp hstatement
          cases hundoes
        · cases hstatement

theorem after_continueCleanup (h : s.Final) {i : Nat}
    (hstep : s.step (.continueCleanup i) = some s') : s'.Final := by
  obtain ⟨⟨args, statements⟩, hcleanup, rfl⟩ := Option.map_eq_some_iff.mp hstep
  have herased {cleanup : PendingCleanup} (hmem : cleanup ∈ s.cleanups.eraseIdx i) :=
    h.cleanups cleanup (List.mem_of_mem_eraseIdx hmem)
  unfold continueCleanup
  cases statements with
  | nil => exact h.of_settles (.refl _) fun _ => herased
  | cons statement statements =>
      dsimp only
      rcases s.issue_statement args statement with ⟨hissue, haccepted⟩ | hissue
      · rw [hissue]
        refine h.of_settles ?_ fun cleanup hmem hcompleted => ?_
        · by_cases hinsert : statement = .insertOperation
          · subst hinsert
            exact Settles.with_new nofun (haccepted rfl)
          · exact Settles.with_change args hinsert
        · rcases List.mem_or_eq_of_mem_set hmem with hmem | rfl
          · exact h.cleanups cleanup hmem hcompleted
          · have hall := h.cleanups _ (List.mem_of_getElem? hcleanup) hcompleted
            exact fun other hother => hall other (List.mem_cons_of_mem _ hother)
      · rw [hissue]
        exact h.of_settles (.refl _) fun _ => herased

theorem after_startOperation (h : s.Final) {now operationId : String}
    {conversationId : ConversationId} {lifecycleEpoch : Int} {workerId : String}
    {phaseCount : Int} {phaseName : String}
    (hstep : s.step (.startOperation now operationId conversationId lifecycleEpoch workerId
      phaseCount phaseName) = some s') : s'.Final := by
  obtain rfl := Option.some.inj hstep
  refine h.of_settles ?_ h.cleanups
  unfold leaving issue startCompactionOperation
  rw [run_withConn, run_bind, run_insertOperation]
  split_ifs with hrejected
  · exact .refl _
  · exact Settles.with_new nofun hrejected

theorem after_advancePhase (h : s.Final) {now : String}
    {conversationId : ConversationId} {lifecycleEpoch : Int} {workerId : String}
    {phaseIndex : Int} {phaseName : String}
    (hstep : s.step (.advancePhase now conversationId lifecycleEpoch workerId phaseIndex
      phaseName) = some s') : s'.Final := by
  obtain rfl := Option.some.inj hstep
  refine h.of_settles ?_ h.cleanups
  unfold advanceCompactionPhase
  rw [tables_leaving_update]
  exact Settles.with_update _ _ (fun _ => rfl) fun _ hstatus => nomatch hstatus

theorem after_completeOperation (h : s.Final) {now : String}
    {conversationId : ConversationId} {lifecycleEpoch : Int} {workerId : String}
    (htime : LeaseStep.InTime s (.completeOperation now conversationId lifecycleEpoch workerId))
    (hstep : s.step (.completeOperation now conversationId lifecycleEpoch workerId) = some s') :
    s'.Final := by
  obtain rfl := Option.some.inj hstep
  have htables := s.tables_leaving_update (ownsActive conversationId lifecycleEpoch workerId)
    (fun row => { row with status := .completed, completedAt := some now }) (decide <| · = 1)
  rw [← completeCompactionOperation] at htables
  refine ⟨?_, fun cleanup hmem hcompleted => ?_⟩
  · rw [htables]
    exact operationIds_update _ _ (fun _ => rfl) h.ids
  · have hnothing : UndoesNothing s.tables cleanup.args cleanup.statements := by
      obtain ⟨row, hrow, hid, hstatus⟩ := hcompleted
      rw [htables] at hrow
      obtain ⟨stored, hstored, rfl⟩ := List.mem_map.mp hrow
      split_ifs at hid hstatus with howns
      · refine htime cleanup hmem (List.any_eq_true.mpr ⟨stored, hstored, ?_⟩)
        rw [Bool.and_eq_true, decide_eq_true_eq]
        exact ⟨hid, howns⟩
      · exact h.cleanups cleanup hmem ⟨stored, hstored, hid, hstatus⟩
    intro statement hstatement hundoes
    rw [htables]
    have hfinds := hnothing statement hstatement hundoes
    cases statement <;> exact hfinds

theorem after_write (h : s.Final) {write : CompactionWrite}
    (hstep : s.step (.write write) = some s') : s'.Final := by
  obtain rfl := Option.some.inj hstep
  refine h.of_settles ?_ h.cleanups
  rcases run_call write s.tables 0 with ⟨happlies, hrun⟩ | ⟨-, raised, hrun⟩
  · simp only [leaving, issue, hrun, Conn.durable_idle]
    exact Settles.with_write happlies
  · simp only [leaving, issue, hrun, Conn.durable_idle]
    exact .refl _

theorem of_step (h : s.Final) {a : LeaseStep} (htime : a.InTime s)
    (hstep : s.step a = some s') : s'.Final := by
  cases a with
  | readLease conversationId lifecycleEpoch workerId =>
      obtain rfl := Option.some.inj hstep
      exact h.of_settles (.refl _) h.cleanups
  | claimLease => exact h.after_claimLease hstep
  | abandon => exact h.after_abandon htime hstep
  | continueCleanup => exact h.after_continueCleanup hstep
  | startOperation => exact h.after_startOperation hstep
  | advancePhase => exact h.after_advancePhase hstep
  | completeOperation => exact h.after_completeOperation htime hstep
  | write => exact h.after_write hstep

end Final

/-! ## What a cleanup spares -/

end LeaseMachine

/-- A statement that finds nothing of what has completed keeps the rows of it. -/
theorem keepsCompleted_change {t : Tables} {args : CleanupArgs} {statement : CleanupStatement}
    (h : t.HasCompleted args.deadOperationId → statement.undoes = true →
      statement.finds args t = false) : KeepsCompleted t (statement.change args t) := by
  intro operation hoperation hstatus
  have hspared {conversationId : ConversationId} (hundoes : statement.undoes = true)
      (hfinds : args.ofDeadOperation (some operation.operationId) conversationId = true →
        statement.finds args t = true) :
      args.ofDeadOperation (some operation.operationId) conversationId = false := by
    refine Bool.eq_false_iff.mpr fun hdead => ?_
    have hid : operation.operationId = args.deadOperationId := by
      simp only [CleanupArgs.ofDeadOperation, Bool.and_eq_true, decide_eq_true_eq,
        Option.some.injEq] at hdead
      exact hdead.1
    have hnone := h ⟨operation, hoperation, hid, hstatus⟩ hundoes
    rw [hfinds hdead] at hnone
    cases hnone
  refine ⟨fun row hrow hstamp => ?_, fun row hrow hstamp => ?_, fun row hrow hstamp => ?_,
    fun row hrow hstamp => ?_⟩
  · cases statement with
    | deleteSegments =>
        refine List.mem_filter.mpr ⟨hrow, ?_⟩
        rw [hstamp, hspared rfl fun hdead =>
          List.any_eq_true.mpr ⟨row, hrow, by rwa [hstamp]⟩]
        rfl
    | _ => exact hrow
  · cases statement with
    | deleteFacts =>
        refine List.mem_filter.mpr ⟨hrow, ?_⟩
        rw [hstamp, hspared rfl fun hdead =>
          List.any_eq_true.mpr ⟨row, hrow, by rwa [hstamp]⟩]
        rfl
    | _ => exact hrow
  · cases statement with
    | deleteTagSummaries =>
        refine List.mem_filter.mpr ⟨hrow, ?_⟩
        rw [hstamp, hspared rfl fun hdead =>
          List.any_eq_true.mpr ⟨row, hrow, by rwa [hstamp]⟩]
        rfl
    | _ => exact hrow
  · cases statement with
    | resetCanonicalTurns =>
        have hkept : (resetCompaction args).apply row = row := by
          rw [resetCompaction_eq_self_iff, hstamp]
          exact hspared rfl fun hdead =>
            List.any_eq_true.mpr ⟨row, hrow, by rwa [hstamp]⟩
        exact List.mem_map.mpr ⟨row, hrow, hkept⟩
    | _ => exact hrow

theorem KeepsCompleted.of_same {t t' : Tables} (hsegments : t'.segments = t.segments)
    (hfacts : t'.facts = t.facts) (htagSummaries : t'.tagSummaries = t.tagSummaries)
    (hturns : t'.canonicalTurns = t.canonicalTurns) : KeepsCompleted t t' := by
  intro operation _ _
  rw [hsegments, hfacts, htagSummaries, hturns]
  exact ⟨fun _ hrow _ => hrow, fun _ hrow _ => hrow, fun _ hrow _ => hrow,
    fun _ hrow _ => hrow⟩

namespace LeaseMachine

variable {s : LeaseMachine}

theorem Final.sparesCompleted (h : s.Final) (a : LeaseStep) : a.SparesCompleted s := by
  intro hcleanup s' hstep
  cases a with
  | abandon i now newOperationId phaseCount =>
      obtain ⟨dead, -, rfl⟩ := Option.map_eq_some_iff.mp hstep
      have hrun := run_abandonOperation_isFresh
        (cleanupArgs dead now newOperationId phaseCount) s.tables 0
      simp only [issue, hrun, Conn.durable_idle]
      exact .of_same rfl rfl rfl rfl
  | continueCleanup i =>
      obtain ⟨⟨args, statements⟩, hpending, rfl⟩ := Option.map_eq_some_iff.mp hstep
      unfold continueCleanup
      cases statements with
      | nil => exact .of_same rfl rfl rfl rfl
      | cons statement statements =>
          dsimp only
          rcases s.issue_statement args statement with ⟨hissue, -⟩ | hissue
          · rw [hissue]
            refine keepsCompleted_change fun hcompleted hundoes => ?_
            exact h.cleanups _ (List.mem_of_getElem? hpending) hcompleted statement
              List.mem_cons_self hundoes
          · rw [hissue]
            exact .of_same rfl rfl rfl rfl
  | _ => cases hcleanup

end LeaseMachine

/-- In a run whose steps are in time, cleanups leave what completed operations wrote. -/
theorem completed_compactions_final (t : Tables)
    (hids : (t.compactionOperation.map (·.operationId)).Nodup) (steps : List LeaseStep)
    (h : Meets LeaseMachine.step LeaseStep.InTime { tables := t } steps) :
    Meets LeaseMachine.step LeaseStep.SparesCompleted { tables := t } steps := by
  have hfinal := LeaseMachine.Final.of_start t hids
  generalize LeaseMachine.mk t [] [] [] = s at h hfinal
  induction steps generalizing s with
  | nil => trivial
  | cons a steps ih =>
      refine ⟨hfinal.sparesCompleted a, fun s' hstep => ?_⟩
      exact ih s' (h.2 s' hstep) (hfinal.of_step h.1 hstep)

/-! ## An operation that ends between the read and the update -/

/-- Operation `x` runs and has stored a segment. -/
def beforeCompletion : Tables where
  conversations := [{ conversationId := "c", tenantId := "t" }]
  compactionOperation :=
    [{ operationId := "x"
       conversationId := "c"
       lifecycleEpoch := 1
       status := .running
       ownerWorkerId := "w1" }]
  segments := [{ ref := "s", conversationId := "c", operationId := some "x" }]

/-- Completed before the read: only the operation after it is cleaned up. -/
theorem completed_compactions_final_takeover :
    Meets LeaseMachine.step LeaseStep.SparesCompleted { tables := beforeCompletion }
      ([.completeOperation "12:00" "c" 1 "w1",
        .startOperation "12:01" "y" "c" 1 "w1" 7 "starting",
        .advancePhase "12:02" "c" 1 "w1" 1 "segmenting", .readLease "c" 1 "w2",
        .claimLease 0 "12:40" "12:30" none, .abandon 0 "12:41" "z" 7] ++
        List.replicate 7 (.continueCleanup 0)) :=
  completed_compactions_final beforeCompletion (by decide) _ (by decide +kernel)

/-- Completed after the read: its segment is deleted. -/
theorem completed_segment_deleted :
    ¬Meets LeaseMachine.step LeaseStep.SparesCompleted { tables := beforeCompletion }
      [.readLease "c" 1 "w1", .completeOperation "12:00" "c" 1 "w1",
        .startOperation "12:01" "y" "c" 1 "w1" 7 "starting",
        .claimLease 0 "12:02" "11:00" (some "y"), .abandon 0 "12:03" "z" 7,
        .continueCleanup 0] := by
  decide +kernel

end VirtualContext
