import VirtualContext.Library.Reach
import VirtualContext.Storage.CompactionRuns

/-!
# The takeover of a compaction

A cleanup runs its statements one by one, each durable at once, while other
workers go on writing.  It finds what the dead operation wrote by the operation
identifier that the rows carry, and facts carry none.
-/

namespace VirtualContext

open VirtualContext.Library

/-! ## What a write leaves behind -/

/-- A stored row, or the compaction stamp of a turn. -/
inductive WriteKey where
  | segment (ref : String)
  | fact (id : String)
  | tagSummary (tag : String) (conversationId : ConversationId)
  | stamp (canonicalTurnId : Uuid)
  deriving DecidableEq

namespace WriteKey

def isFact : WriteKey → Bool
  | fact _ => true
  | _ => false

/-- The operations and conversations that the stored rows of the key carry. -/
def marks (t : Tables) : WriteKey → List (Option String × ConversationId)
  | segment ref =>
      (t.segments.filter (·.ref = ref)).map fun row =>
        (row.operationId, row.conversationId)
  | fact id =>
      (t.facts.filter (·.id = id)).map fun row =>
        (row.operationId, row.conversationId)
  | tagSummary tag conversationId =>
      (t.tagSummaries.filter (·.key = (tag, conversationId))).map fun row =>
        (row.operationId, row.conversationId)
  | stamp canonicalTurnId =>
      (t.canonicalTurns.rows.filter fun row =>
        row.canonicalTurnId = canonicalTurnId && row.compactedAt.isSome).map
          fun row => (row.compactionOperationId, row.conversationId)

end WriteKey

/-- The rows that the call inserts or stamps. -/
def CompactionWrite.keys (t : Tables) : CompactionWrite → List WriteKey
  | storeSegment segment _ => [.segment segment.ref]
  | storeFacts facts _ | replaceFactsForSegment _ _ facts _ =>
      facts.map fun fact => .fact fact.id
  | saveTagSummary summary conversationId _ =>
      [.tagSummary summary.tag conversationId]
  | markCanonicalTurnsCompacted _ conversationId ids _ _ =>
      (t.canonicalTurns.rows.filter
        (t.canonicalTurns.inMarkedGroup conversationId ids)).map
          fun row => .stamp row.canonicalTurnId

/-! ## Interleaved calls -/

inductive TakeoverStep where
  | write (write : CompactionWrite)
  | claimCompactionLease (now cutoff : String)
      (conversationId : ConversationId) (lifecycleEpoch : Int)
      (workerId : String)
  -- a cleanup's first statement, and the next one of a cleanup under way
  | beginCleanup (args : CleanupArgs)
  | continueCleanup (index : Nat)

structure PendingCleanup where
  args : CleanupArgs
  statements : List CleanupStatement

/-- A store, with the operation that each key was last written under. -/
structure TakeoverLog where
  conn : Conn Tables
  writtenUnder : WriteKey → Option String := fun _ => none
  begun : List CleanupArgs := []
  pending : List PendingCleanup := []
  returned : List CleanupArgs := []

namespace TakeoverLog

def tables (log : TakeoverLog) : Tables := log.conn.durable

def afterWrite (log : TakeoverLog) (write : CompactionWrite) : TakeoverLog :=
  match write.call.run .quiet log.conn with
  | (.ok _, conn) =>
      { log with
        conn := conn
        writtenUnder := fun key =>
          if key ∈ write.keys log.tables then some write.operationId
          else log.writtenUnder key }
  | (.error _, conn) => { log with conn := conn }

def afterContinue (log : TakeoverLog) (index : Nat) : TakeoverLog :=
  match log.pending[index]? with
  | none => log
  | some ⟨args, []⟩ =>
      { log with
        pending := log.pending.eraseIdx index
        returned := args :: log.returned }
  | some ⟨args, statement :: statements⟩ =>
      match (statement.program args).run .quiet log.conn with
      | (.ok _, conn) =>
          { log with
            conn := conn
            pending := log.pending.set index ⟨args, statements⟩ }
      | (.error _, conn) =>
          { log with
            conn := conn
            pending := log.pending.eraseIdx index }

def after (log : TakeoverLog) : TakeoverStep → TakeoverLog
  | .write write => log.afterWrite write
  | .claimCompactionLease now cutoff conversationId lifecycleEpoch workerId =>
      { log with
        conn := ((claimCompactionLease 0 now cutoff conversationId lifecycleEpoch
          workerId).run .quiet log.conn).2 }
  | .beginCleanup args =>
      match (abandonOperation args).run .quiet log.conn with
      | (.ok freshTakeover, conn) =>
          { log with
            conn := conn
            begun := args :: log.begun
            pending := log.pending ++ [⟨args, cleanupStatements freshTakeover⟩] }
      | (.error _, conn) => { log with conn := conn }
  | .continueCleanup index => log.afterContinue index

/-- Nothing is left that was written under an operation cleaned up after. -/
def NothingLeft (log : TakeoverLog) : Prop :=
  ∀ args ∈ log.returned, ∀ key,
    log.writtenUnder key = some args.deadOperationId → key.marks log.tables = []

end TakeoverLog

/--
A cleanup names the conversation of the dead operation, and its epoch if it
still runs; it starts no operation that was cleaned up after; and no fact that
was written under the dead operation is stored when it returns.
-/
def TakeoverStep.Meets (log : TakeoverLog) : TakeoverStep → Prop
  | write _ | claimCompactionLease .. => True
  | beginCleanup args =>
      ∀ operation ∈ log.tables.compactionOperation,
        operation.operationId = args.deadOperationId →
          operation.conversationId = args.conversationId ∧
          (operation.status = .running →
            operation.lifecycleEpoch = args.lifecycleEpoch)
  | continueCleanup index =>
      ∀ cleanup ∈ log.pending[index]?,
        (cleanup.statements = [] →
          ∀ fact ∈ log.tables.facts, log.writtenUnder (.fact fact.id) ≠
            some cleanup.args.deadOperationId) ∧
        (cleanup.statements.head? = some .insertOperation →
          ∀ args ∈ log.begun,
            args.deadOperationId ≠ cleanup.args.newOperationId)

instance (log : TakeoverLog) (step : TakeoverStep) :
    Decidable (step.Meets log) :=
  match step with
  | .write _ | .claimCompactionLease .. => inferInstanceAs (Decidable True)
  | .beginCleanup _ => inferInstanceAs (Decidable (∀ operation ∈ _, _))
  | .continueCleanup _ => inferInstanceAs (Decidable (∀ cleanup ∈ _, _))

/-- A store at rest, before the first call. -/
def TakeoverStarts (log : TakeoverLog) : Prop :=
  ∃ t n, log = { conn := .idle t n }

def MeetingStep (log log' : TakeoverLog) : Prop :=
  ∃ step : TakeoverStep, step.Meets log ∧ log' = log.after step

/-! ## What the writes do to the keys -/

section Keys

variable {t : Tables}

theorem marks_replaceSegment_of_ne (segment : SegmentRecord) {key : WriteKey}
    (h : key ≠ .segment segment.ref) :
    key.marks (t.replaceSegment segment) = key.marks t := by
  cases key with
  | segment ref =>
      have hne : ref ≠ segment.ref := fun href => h (href ▸ rfl)
      exact congrArg _ (filter_replaceBy_of_ne (·.ref) hne t.segments)
  | _ => rfl

theorem marks_replaceSegment_self (segment : SegmentRecord) :
    (WriteKey.segment segment.ref).marks (t.replaceSegment segment) =
      [(segment.operationId, segment.conversationId)] :=
  congrArg _ (filter_replaceBy_self (·.ref) segment t.segments)

theorem marks_replaceFact_of_ne {fact : Fact} {key : WriteKey}
    (h : key ≠ .fact fact.id) :
    key.marks (t.replaceFact fact) = key.marks t := by
  cases key with
  | fact id =>
      have hne : id ≠ fact.id := fun hid => h (hid ▸ rfl)
      exact congrArg _ (filter_replaceBy_of_ne (·.id)
        (show id ≠ (fun row : FactRecord => row.id) { fact with } from hne)
        t.facts)
  | _ => rfl

theorem marks_replaceFacts_of_not_mem {facts : List Fact} {key : WriteKey}
    (h : ∀ fact ∈ facts, key ≠ .fact fact.id) :
    key.marks (CompactionWrite.replaceFacts facts t) = key.marks t := by
  induction facts generalizing t with
  | nil => rfl
  | cons fact facts ih =>
      obtain ⟨hfact, hfacts⟩ := List.forall_mem_cons.mp h
      exact (ih hfacts).trans (marks_replaceFact_of_ne hfact)

theorem marks_clearFacts_subset (conversationId : ConversationId)
    (segmentRef : String) (key : WriteKey) :
    key.marks (t.clearFacts conversationId segmentRef) ⊆ key.marks t := by
  cases key with
  | fact id =>
      exact List.map_subset _ (List.Sublist.subset
        (List.Sublist.filter _ List.filter_sublist))
  | _ => exact List.Subset.refl _

theorem marks_upsertTagSummary_of_ne {new : TagSummaryRecord} {key : WriteKey}
    (h : key ≠ .tagSummary new.tag new.conversationId) :
    key.marks (t.upsertTagSummary new) = key.marks t := by
  cases key with
  | tagSummary tag conversationId =>
      have hne : (tag, conversationId) ≠ new.key := fun hkey => h (by cases hkey; rfl)
      exact congrArg _ (filter_upsertBy_of_ne (fun _ => rfl) hne)
  | _ => rfl

theorem marks_upsertTagSummary_self (new : TagSummaryRecord)
    {mark : Option String × ConversationId}
    (h : mark ∈ (WriteKey.tagSummary new.tag new.conversationId).marks
      (t.upsertTagSummary new)) :
    mark = (new.operationId, new.conversationId) := by
  obtain ⟨row, hrow, rfl⟩ := List.mem_map.mp h
  obtain ⟨hrow, hkey⟩ := List.mem_filter.mp hrow
  rcases mem_upsertBy hrow with rfl | ⟨stored, -, rfl⟩ | ⟨-, hne⟩
  · rfl
  · rfl
  · exact absurd (of_decide_eq_true hkey) hne

theorem mem_marks_stamp {canonicalTurnId : Uuid}
    {mark : Option String × ConversationId} :
    mark ∈ (WriteKey.stamp canonicalTurnId).marks t ↔
      ∃ row ∈ t.canonicalTurns.rows, row.canonicalTurnId = canonicalTurnId ∧
        row.compactedAt.isSome ∧
        (row.compactionOperationId, row.conversationId) = mark := by
  simp [WriteKey.marks, and_assoc]

/-- A key that the call does not write gets no mark. -/
theorem marks_after_subset {write : CompactionWrite} {key : WriteKey}
    (h : key ∉ write.keys t) : key.marks (write.after t) ⊆ key.marks t := by
  cases write with
  | storeSegment segment guard =>
      rw [CompactionWrite.after, marks_replaceSegment_of_ne (segment.record guard)
        fun hkey => h (List.mem_singleton.mpr hkey)]
      exact List.Subset.refl _
  | storeFacts facts guard =>
      rw [CompactionWrite.after, marks_replaceFacts_of_not_mem
        (by simpa [CompactionWrite.keys, eq_comm] using h)]
      exact List.Subset.refl _
  | replaceFactsForSegment conversationId segmentRef facts guard =>
      intro mark hmark
      refine marks_clearFacts_subset conversationId segmentRef key ?_
      rwa [CompactionWrite.after, marks_replaceFacts_of_not_mem
        (by simpa [CompactionWrite.keys, eq_comm] using h)] at hmark
  | saveTagSummary summary conversationId guard =>
      rw [CompactionWrite.after, marks_upsertTagSummary_of_ne
        (by simpa [CompactionWrite.keys] using h)]
      exact List.Subset.refl _
  | markCanonicalTurnsCompacted now conversationId ids compactedAt guard =>
      cases key with
      | stamp canonicalTurnId =>
          intro mark hmark
          obtain ⟨row', hrow', hid, hstamped, hmark⟩ := mem_marks_stamp.mp hmark
          obtain ⟨row, hrow, rfl⟩ := List.mem_map.mp hrow'
          rw [CanonicalTurns.ColumnUpdate.id_eq] at hid
          have hunmarked : ¬ t.canonicalTurns.inMarkedGroup conversationId ids
              row = true := by
            intro hmarked
            refine h (List.mem_map.mpr
              ⟨row, List.mem_filter.mpr ⟨hrow, hmarked⟩, ?_⟩)
            rw [hid]
          have hsame : (markCompacted t.canonicalTurns conversationId ids
              (orText compactedAt now) (some guard)).apply row = row :=
            if_neg hunmarked
          rw [hsame] at hstamped hmark
          exact mem_marks_stamp.mpr ⟨row, hrow, hid, hstamped, hmark⟩
      | _ => exact List.Subset.refl _

/-- The operation is that of some running operation. -/
def Tables.RunsOperation (t : Tables) (operationId : String)
    (conversationId : ConversationId) : Prop :=
  ∃ operation ∈ t.compactionOperation, operation.operationId = operationId ∧
    operation.conversationId = conversationId ∧ operation.status = .running

theorem runs_of_ownsCompaction {conversationId : ConversationId}
    {guard : CompactionGuard}
    (h : t.ownsCompaction conversationId guard = true) :
    t.RunsOperation guard.operationId conversationId := by
  obtain ⟨operation, hmem, howned⟩ := List.any_eq_true.mp h
  have hfields := of_decide_eq_true howned
  exact ⟨operation, hmem, hfields.1, hfields.2.1, hfields.2.2.1⟩

theorem owns_of_marked {now : String} {conversationId : ConversationId}
    {ids : List Uuid} {compactedAt : Option String} {guard : CompactionGuard}
    (happlies : (CompactionWrite.markCanonicalTurnsCompacted now conversationId
      ids compactedAt guard).applies t = true) {row : CanonicalTurnRecord}
    (hrow : row ∈ t.canonicalTurns.rows.filter
      (t.canonicalTurns.inMarkedGroup conversationId ids)) :
    t.ownsCompaction conversationId guard = true := by
  simp only [CompactionWrite.applies, Bool.or_eq_true, Bool.and_eq_true]
    at happlies
  rcases happlies with hempty | ⟨howned, -⟩
  · rw [List.isEmpty_iff] at hempty
    subst hempty
    simp [CanonicalTurns.inMarkedGroup] at hrow
  · exact howned

/-- A key is written under a running operation. -/
theorem runs_of_mem_keys {write : CompactionWrite} {key : WriteKey}
    (happlies : write.applies t = true) (h : key ∈ write.keys t) :
    ∃ conversationId, t.RunsOperation write.operationId conversationId := by
  cases write with
  | storeSegment segment guard =>
      simp only [CompactionWrite.applies, Bool.and_eq_true] at happlies
      exact ⟨_, runs_of_ownsCompaction happlies.1⟩
  | storeFacts facts guard =>
      obtain ⟨fact, hfact, -⟩ := List.mem_map.mp h
      have haccepted := List.all_eq_true.mp happlies fact hfact
      simp only [Bool.and_eq_true] at haccepted
      exact ⟨_, runs_of_ownsCompaction haccepted.1⟩
  | replaceFactsForSegment conversationId segmentRef facts guard =>
      simp only [CompactionWrite.applies, Bool.and_eq_true] at happlies
      exact ⟨_, runs_of_ownsCompaction happlies.1⟩
  | saveTagSummary summary conversationId guard =>
      exact ⟨_, runs_of_ownsCompaction happlies⟩
  | markCanonicalTurnsCompacted now conversationId ids compactedAt guard =>
      obtain ⟨row, hrow, -⟩ := List.mem_map.mp h
      exact ⟨_, runs_of_ownsCompaction (owns_of_marked happlies hrow)⟩

/-- Rows other than facts carry the operation they were written under. -/
theorem marks_after_self {write : CompactionWrite} {key : WriteKey}
    (happlies : write.applies t = true) (h : key ∈ write.keys t)
    (hfact : key.isFact = false) {mark : Option String × ConversationId}
    (hmark : mark ∈ key.marks (write.after t)) :
    mark.1 = some write.operationId ∧
      t.RunsOperation write.operationId mark.2 := by
  cases write with
  | storeSegment segment guard =>
      simp only [CompactionWrite.applies, Bool.and_eq_true] at happlies
      obtain rfl := List.mem_singleton.mp h
      have hself := marks_replaceSegment_self (t := t) (segment.record guard)
      obtain rfl := List.mem_singleton.mp (hself ▸ hmark)
      exact ⟨rfl, runs_of_ownsCompaction happlies.1⟩
  | storeFacts facts guard =>
      obtain ⟨fact, -, rfl⟩ := List.mem_map.mp h
      cases hfact
  | replaceFactsForSegment conversationId segmentRef facts guard =>
      obtain ⟨fact, -, rfl⟩ := List.mem_map.mp h
      cases hfact
  | saveTagSummary summary conversationId guard =>
      obtain rfl := List.mem_singleton.mp h
      obtain rfl := marks_upsertTagSummary_self _ hmark
      exact ⟨rfl, runs_of_ownsCompaction happlies⟩
  | markCanonicalTurnsCompacted now conversationId ids compactedAt guard =>
      obtain ⟨row, hrow, rfl⟩ := List.mem_map.mp h
      have howned := owns_of_marked happlies hrow
      obtain ⟨hrow, hmarked⟩ := List.mem_filter.mp hrow
      obtain ⟨row', hrow', hid, -, rfl⟩ := mem_marks_stamp.mp hmark
      obtain ⟨other, hother, rfl⟩ := List.mem_map.mp hrow'
      rw [CanonicalTurns.ColumnUpdate.id_eq] at hid
      obtain rfl := List.inj_on_of_nodup_map t.canonicalTurns.primaryKey hother
        hrow hid
      have happly : (markCompacted t.canonicalTurns conversationId ids
          (orText compactedAt now) (some guard)).apply other = _ :=
        if_pos hmarked
      have hconversation : other.conversationId = conversationId := by
        simp only [CanonicalTurns.inMarkedGroup, Bool.and_eq_true,
          decide_eq_true_eq] at hmarked
        exact hmarked.1
      subst hconversation
      rw [happly]
      exact ⟨rfl, runs_of_ownsCompaction howned⟩

/-! ## What a cleanup does to the keys -/

/-- The rows that the statement goes through. -/
def CleanupStatement.handles : CleanupStatement → WriteKey → Bool
  | deleteSegments, .segment _ | deleteFacts, .fact _
  | deleteTagSummaries, .tagSummary _ _ | resetCanonicalTurns, .stamp _ => true
  | _, _ => false

theorem run_cleanupStatement (args : CleanupArgs)
    (statement : CleanupStatement) (t : Tables) (n : Nat) :
    (statement.program args).run .quiet (.idle t n) =
        (.ok (), .idle (statement.change args t) n) ∨
      ∃ raised, (statement.program args).run .quiet (.idle t n) =
        (.error raised, .idle t n) := by
  cases statement with
  | insertOperation =>
      unfold CleanupStatement.program
      rw [run_insertOperation]
      split_ifs
      · exact .inr ⟨_, rfl⟩
      · exact .inl rfl
  | _ => exact .inl (Program.run_update_quiet _ _ _)

theorem marks_change_subset (args : CleanupArgs)
    (statement : CleanupStatement) (key : WriteKey) :
    key.marks (statement.change args t) ⊆ key.marks t := by
  have hkept {α : Type} (p q : α → Bool) (rows : List α)
      (f : α → Option String × ConversationId) :
      ((rows.filter p).filter q).map f ⊆ (rows.filter q).map f :=
    List.map_subset _ (List.Sublist.subset
      (List.Sublist.filter _ List.filter_sublist))
  cases statement with
  | deleteSegments =>
      cases key with
      | segment ref => exact hkept _ _ _ _
      | _ => exact List.Subset.refl _
  | deleteFacts =>
      cases key with
      | fact id => exact hkept _ _ _ _
      | _ => exact List.Subset.refl _
  | deleteTagSummaries =>
      cases key with
      | tagSummary tag conversationId => exact hkept _ _ _ _
      | _ => exact List.Subset.refl _
  | resetCanonicalTurns =>
      cases key with
      | stamp canonicalTurnId =>
          intro mark hmark
          obtain ⟨row', hrow', hid, hstamped, hmark⟩ := mem_marks_stamp.mp hmark
          obtain ⟨row, hrow, rfl⟩ := List.mem_map.mp hrow'
          rw [CanonicalTurns.ColumnUpdate.id_eq] at hid
          by_cases hdead : row.conversationId = args.conversationId ∧
              row.compactionOperationId = some args.deadOperationId
          · rw [show (resetCompaction args).apply row = _ from if_pos hdead]
              at hstamped
            cases hstamped
          · rw [show (resetCompaction args).apply row = row from if_neg hdead]
              at hstamped hmark
            exact mem_marks_stamp.mpr ⟨row, hrow, hid, hstamped, hmark⟩
      | _ => exact List.Subset.refl _
  | _ => exact List.Subset.refl _

/-- Afterwards no row that the statement goes through is of the dead operation. -/
theorem not_mem_marks_change {args : CleanupArgs}
    {statement : CleanupStatement} {key : WriteKey}
    (h : statement.handles key = true) :
    (some args.deadOperationId, args.conversationId) ∉
      key.marks (statement.change args t) := by
  have hgone {α : Type} (operationId : α → Option String)
      (conversationId : α → ConversationId) (q : α → Bool) (rows : List α) :
      (some args.deadOperationId, args.conversationId) ∉
        ((rows.filter fun row =>
          !args.ofDeadOperation (operationId row) (conversationId row)).filter
            q).map fun row => (operationId row, conversationId row) := by
    intro hmem
    obtain ⟨row, hrow, heq⟩ := List.mem_map.mp hmem
    have hkept := (List.mem_filter.mp (List.mem_filter.mp hrow).1).2
    rw [Prod.mk.injEq] at heq
    simp [CleanupArgs.ofDeadOperation, heq] at hkept
  have hreset (canonicalTurnId : Uuid) :
      (some args.deadOperationId, args.conversationId) ∉
        (WriteKey.stamp canonicalTurnId).marks
          (CleanupStatement.resetCanonicalTurns.change args t) := by
    intro hmem
    obtain ⟨row', hrow', -, hstamped, heq⟩ := mem_marks_stamp.mp hmem
    obtain ⟨row, hrow, rfl⟩ := List.mem_map.mp hrow'
    by_cases hdead : row.conversationId = args.conversationId ∧
        row.compactionOperationId = some args.deadOperationId
    · rw [show (resetCompaction args).apply row = _ from if_pos hdead]
        at hstamped
      cases hstamped
    · rw [show (resetCompaction args).apply row = row from if_neg hdead] at heq
      rw [Prod.mk.injEq] at heq
      exact hdead heq.symm
  cases key with
  | segment ref =>
      cases statement <;> first
        | exact hgone (·.operationId) (·.conversationId) _ t.segments
        | cases h
  | fact id =>
      cases statement <;> first
        | exact hgone (·.operationId) (·.conversationId) _ t.facts
        | cases h
  | tagSummary tag conversationId =>
      cases statement <;> first
        | exact hgone (·.operationId) (·.conversationId) _ t.tagSummaries
        | cases h
  | stamp canonicalTurnId =>
      cases statement <;> first | exact hreset canonicalTurnId | cases h

end Keys

/-- A claim sets the owner of an operation and its heartbeat. -/
theorem run_claimCompactionLease (now cutoff : String)
    (conversationId : ConversationId) (lifecycleEpoch : Int)
    (workerId : String) (t : Tables) (n : Nat) :
    ((claimCompactionLease 0 now cutoff conversationId lifecycleEpoch
      workerId).run .quiet (.idle t n)).2 =
      .idle { t with
        compactionOperation := t.compactionOperation.map fun row =>
          if row.activeAt conversationId lifecycleEpoch &&
              (row.ownerWorkerId = workerId || decide (row.heartbeatTs < cutoff))
          then { row with ownerWorkerId := workerId, heartbeatTs := now }
          else row } n := by
  simp only [claimCompactionLease, updateOperations, run_withConn,
    Program.run_bind, Program.run_read_quiet, Program.run_write_quiet,
    Program.andThen_ok, commitIfUnlocked, if_true, Program.run_commit_quiet,
    Program.run_pure, Conn.view_idle, Conn.store_idle, Conn.commit_idle]

theorem run_abandonOperation (args : CleanupArgs) (t : Tables) (n : Nat) :
    ∃ freshTakeover, (abandonOperation args).run .quiet (.idle t n) =
      (.ok freshTakeover, .idle { t with
        compactionOperation := t.compactionOperation.map fun row =>
          if row.operationId = args.deadOperationId &&
              row.conversationId = args.conversationId &&
              row.lifecycleEpoch = args.lifecycleEpoch && row.status = .running
          then { row with status := .abandoned, completedAt := some args.now }
          else row } n) := by
  simp only [abandonOperation, updateOperations, Program.run_bind,
    Program.run_write_quiet, Program.andThen_ok, Program.run_pure,
    Conn.view_idle, Conn.store_idle]
  exact ⟨_, rfl⟩

/-! ## An undisturbed cleanup -/

theorem conn_continueCleanup_none {log : TakeoverLog} (h : log.pending = [])
    (k : Nat) :
    ((List.replicate k (TakeoverStep.continueCleanup 0)).foldl
      TakeoverLog.after log).conn = log.conn := by
  induction k with
  | zero => rfl
  | succ k ih =>
      have hsame : log.after (.continueCleanup 0) = log := by
        simp [TakeoverLog.after, TakeoverLog.afterContinue, h]
      rw [List.replicate_succ, List.foldl_cons, hsame, ih]

theorem conn_continueCleanup {log : TakeoverLog} {args : CleanupArgs}
    {statements : List CleanupStatement}
    (hpending : log.pending = [⟨args, statements⟩])
    (hidle : ∃ t n, log.conn = .idle t n) :
    ((List.replicate (statements.length + 1)
      (TakeoverStep.continueCleanup 0)).foldl TakeoverLog.after log).conn =
      ((runCleanupStatements args statements).run .quiet log.conn).2 := by
  obtain ⟨t, n, hconn⟩ := hidle
  induction statements generalizing log t with
  | nil => simp [TakeoverLog.after, TakeoverLog.afterContinue, hpending,
      runCleanupStatements]
  | cons statement statements ih =>
      rw [List.length_cons, List.replicate_succ, List.foldl_cons,
        runCleanupStatements, Program.run_bind, hconn]
      rcases run_cleanupStatement args statement t n with
        hrun | ⟨raised, hrun⟩
      · have hafter : log.after (.continueCleanup 0) =
            { log with
              conn := .idle (statement.change args t) n
              pending := [⟨args, statements⟩] } := by
          simp [TakeoverLog.after, TakeoverLog.afterContinue, hpending, hconn,
            hrun]
        rw [hafter, hrun, ih rfl _ rfl]
        rfl
      · have hafter : log.after (.continueCleanup 0) =
            { log with conn := .idle t n, pending := [] } := by
          simp [TakeoverLog.after, TakeoverLog.afterContinue, hpending, hconn,
            hrun]
        rw [hafter, hrun, conn_continueCleanup_none rfl]
        rfl

theorem runCleanupStatements_idle (args : CleanupArgs)
    (statements : List CleanupStatement) (t : Tables) (n : Nat) :
    ∃ outcome t', (runCleanupStatements args statements).run .quiet (.idle t n) =
      (outcome, .idle t' n) := by
  induction statements generalizing t with
  | nil => exact ⟨_, t, rfl⟩
  | cons statement statements ih =>
      rw [runCleanupStatements, Program.run_bind]
      rcases run_cleanupStatement args statement t n with
        hrun | ⟨raised, hrun⟩
      · rw [hrun]
        exact ih _
      · rw [hrun]
        exact ⟨_, t, rfl⟩

/-- The steps of a cleanup one after the other are the whole call. -/
theorem conn_cleanup_steps (log : TakeoverLog) (args : CleanupArgs)
    (hpending : log.pending = []) (hidle : ∃ t n, log.conn = .idle t n) :
    ∃ k, ((TakeoverStep.beginCleanup args ::
        List.replicate k (.continueCleanup 0)).foldl TakeoverLog.after log).conn =
      ((cleanupAbandonedCompaction 0 args).run .quiet log.conn).2 := by
  obtain ⟨t, n, hconn⟩ := hidle
  obtain ⟨freshTakeover, habandon⟩ := run_abandonOperation args t n
  generalize List.map _ t.compactionOperation = operations at habandon
  refine ⟨(cleanupStatements freshTakeover).length + 1, ?_⟩
  have hafter : log.after (.beginCleanup args) =
      { log with
        conn := .idle { t with compactionOperation := operations } n
        begun := args :: log.begun
        pending := [⟨args, cleanupStatements freshTakeover⟩] } := by
    simp [TakeoverLog.after, hconn, habandon, hpending]
  rw [List.foldl_cons, hafter, conn_continueCleanup rfl ⟨_, n, rfl⟩]
  simp only [hconn, cleanupAbandonedCompaction, run_withConn, Program.run_bind,
    habandon, Program.andThen_ok]
  obtain ⟨outcome, t', hrun⟩ := runCleanupStatements_idle args
    (cleanupStatements freshTakeover) { t with compactionOperation := operations }
    n
  rw [hrun]
  cases outcome <;> rfl

/-! ## The invariant of the runs -/

/-- What holds of a log after calls that meet the condition. -/
structure TakeoverInv (log : TakeoverLog) : Prop where
  idle : ∃ t n, log.conn = .idle t n
  -- what was written under an operation carries it, unless it is a fact
  carried : ∀ key operationId, log.writtenUnder key = some operationId →
    key.isFact = false → ∀ mark ∈ key.marks log.tables,
      mark.1 = some operationId ∧
        ∃ operation ∈ log.tables.compactionOperation,
          operation.operationId = operationId ∧
            operation.conversationId = mark.2
  stopped : ∀ args ∈ log.begun,
    ∀ operation ∈ log.tables.compactionOperation,
      operation.operationId = args.deadOperationId →
        operation.conversationId = args.conversationId ∧
          operation.status ≠ .running
  pending : ∀ cleanup ∈ log.pending, cleanup.args ∈ log.begun ∧
    ∀ key, log.writtenUnder key = some cleanup.args.deadOperationId →
      key.isFact = false →
        (∃ statement ∈ cleanup.statements, statement.handles key = true) ∨
          key.marks log.tables = []
  returned : ∀ args ∈ log.returned, args ∈ log.begun ∧
    ∀ key, log.writtenUnder key = some args.deadOperationId →
      key.marks log.tables = []

namespace TakeoverInv

variable {log : TakeoverLog}

theorem of_starts (h : TakeoverStarts log) : TakeoverInv log := by
  obtain ⟨t, n, rfl⟩ := h
  refine ⟨⟨t, n, rfl⟩, ?_, ?_, ?_, ?_⟩
  · rintro key operationId ⟨⟩
  all_goals simp

theorem conn_eq (h : TakeoverInv log) :
    ∃ n, log.conn = .idle log.tables n := by
  obtain ⟨t, n, hconn⟩ := h.idle
  exact ⟨n, by simp [TakeoverLog.tables, hconn]⟩

/-- New tables in which the keys have no other marks than before. -/
theorem with_tables (h : TakeoverInv log) {t : Tables} {n : Nat}
    (hmarks : ∀ key : WriteKey, key.marks t ⊆ key.marks log.tables)
    (hoperations : ∀ operation ∈ log.tables.compactionOperation,
      ∃ operation' ∈ t.compactionOperation,
        operation'.operationId = operation.operationId ∧
          operation'.conversationId = operation.conversationId)
    (hstopped : ∀ args ∈ log.begun, ∀ operation ∈ t.compactionOperation,
      operation.operationId = args.deadOperationId →
        operation.conversationId = args.conversationId ∧
          operation.status ≠ .running) :
    TakeoverInv { log with conn := .idle t n } := by
  have hempty {key : WriteKey} (hnone : key.marks log.tables = []) :
      key.marks t = [] :=
    List.eq_nil_of_subset_nil (hnone ▸ hmarks key)
  refine ⟨⟨t, n, rfl⟩, ?_, hstopped, ?_, ?_⟩
  · intro key operationId hwritten hfact mark hmark
    obtain ⟨hcarried, operation, hmem, hid, hconversation⟩ :=
      h.carried key operationId hwritten hfact mark (hmarks key hmark)
    obtain ⟨operation', hmem', hid', hconversation'⟩ :=
      hoperations operation hmem
    exact ⟨hcarried, operation', hmem', hid'.trans hid,
      hconversation'.trans hconversation⟩
  · intro cleanup hcleanup
    obtain ⟨hbegun, hkeys⟩ := h.pending cleanup hcleanup
    exact ⟨hbegun, fun key hwritten hfact =>
      (hkeys key hwritten hfact).imp_right hempty⟩
  · intro args hargs
    obtain ⟨hbegun, hkeys⟩ := h.returned args hargs
    exact ⟨hbegun, fun key hwritten => hempty (hkeys key hwritten)⟩

/-- New columns for some operations, which keeps what they are of. -/
theorem with_operations (h : TakeoverInv log) (n : Nat)
    {f : CompactionOperationRecord → CompactionOperationRecord}
    (hid : ∀ row, (f row).operationId = row.operationId)
    (hconversation : ∀ row, (f row).conversationId = row.conversationId)
    (hstatus : ∀ row, (f row).status = .running → row.status = .running) :
    TakeoverInv { log with conn := .idle { log.tables with
      compactionOperation := log.tables.compactionOperation.map f } n } := by
  refine h.with_tables ?_ ?_ ?_
  · intro key
    cases key <;> exact List.Subset.refl _
  · intro operation hmem
    exact ⟨f operation, List.mem_map_of_mem hmem, hid operation,
      hconversation operation⟩
  · intro args hargs operation' hmem' hdead
    obtain ⟨operation, hmem, rfl⟩ := List.mem_map.mp hmem'
    rw [hid] at hdead
    obtain ⟨hargsConversation, hstopped⟩ := h.stopped args hargs operation hmem
      hdead
    exact ⟨(hconversation operation).trans hargsConversation,
      fun hrunning => hstopped (hstatus operation hrunning)⟩

theorem after_compactionOperation (write : CompactionWrite) (t : Tables) :
    (write.after t).compactionOperation = t.compactionOperation := by
  cases write with
  | storeFacts facts guard => rw [CompactionWrite.after, replaceFacts_eq]
  | replaceFactsForSegment conversationId segmentRef facts guard =>
      rw [CompactionWrite.after, replaceFacts_eq]
      rfl
  | _ => rfl

theorem afterWrite (h : TakeoverInv log) (write : CompactionWrite) :
    TakeoverInv (log.afterWrite write) := by
  obtain ⟨n, hconn⟩ := h.conn_eq
  rcases run_call write log.tables n with ⟨happlies, hrun⟩ | ⟨-, raised, hrun⟩
  · have hafter : log.afterWrite write = { log with
        conn := .idle (write.after log.tables) n
        writtenUnder := fun key =>
          if key ∈ write.keys log.tables then some write.operationId
          else log.writtenUnder key } := by
      rw [TakeoverLog.afterWrite, hconn, hrun]
    rw [hafter]
    -- no operation that was cleaned up after writes any more
    have hold {args : CleanupArgs} (hargs : args ∈ log.begun) {key : WriteKey}
        (hwritten : (if key ∈ write.keys log.tables then
          some write.operationId else log.writtenUnder key) =
            some args.deadOperationId) :
        log.writtenUnder key = some args.deadOperationId ∧
          key.marks (write.after log.tables) ⊆ key.marks log.tables := by
      by_cases hkey : key ∈ write.keys log.tables
      · rw [if_pos hkey, Option.some.injEq] at hwritten
        obtain ⟨conversationId, operation, hmem, hid, -, hrunning⟩ :=
          runs_of_mem_keys happlies hkey
        exact absurd hrunning
          (h.stopped args hargs operation hmem (hid.trans hwritten)).2
      · rw [if_neg hkey] at hwritten
        exact ⟨hwritten, marks_after_subset hkey⟩
    refine ⟨⟨_, n, rfl⟩, ?_, ?_, ?_, ?_⟩
    · intro key operationId hwritten hfact mark hmark
      dsimp only [TakeoverLog.tables, Conn.durable_idle] at hmark ⊢
      rw [after_compactionOperation]
      dsimp only at hwritten
      by_cases hkey : key ∈ write.keys log.tables
      · rw [if_pos hkey, Option.some.injEq] at hwritten
        subst hwritten
        obtain ⟨hcarried, operation, hmem, hid, hconversation, -⟩ :=
          marks_after_self happlies hkey hfact hmark
        exact ⟨hcarried, operation, hmem, hid, hconversation⟩
      · rw [if_neg hkey] at hwritten
        exact h.carried key operationId hwritten hfact mark
          (marks_after_subset hkey hmark)
    · intro args hargs operation hmem
      dsimp only [TakeoverLog.tables, Conn.durable_idle] at hmem
      rw [after_compactionOperation] at hmem
      exact h.stopped args hargs operation hmem
    · intro cleanup hcleanup
      obtain ⟨hbegun, hkeys⟩ := h.pending cleanup hcleanup
      refine ⟨hbegun, fun key hwritten hfact => ?_⟩
      obtain ⟨hwritten, hmarks⟩ := hold hbegun hwritten
      refine (hkeys key hwritten hfact).imp_right fun hnone => ?_
      rw [hnone] at hmarks
      exact List.eq_nil_of_subset_nil hmarks
    · intro args hargs
      obtain ⟨hbegun, hkeys⟩ := h.returned args hargs
      refine ⟨hbegun, fun key hwritten => ?_⟩
      obtain ⟨hwritten, hmarks⟩ := hold hbegun hwritten
      exact List.eq_nil_of_subset_nil (hkeys key hwritten ▸ hmarks)
  · have hafter : log.afterWrite write = log := by
      rw [TakeoverLog.afterWrite, hconn, hrun, ← hconn]
    rwa [hafter]

theorem afterClaim (h : TakeoverInv log) (now cutoff : String)
    (conversationId : ConversationId) (lifecycleEpoch : Int)
    (workerId : String) :
    TakeoverInv (log.after (.claimCompactionLease now cutoff conversationId
      lifecycleEpoch workerId)) := by
  obtain ⟨n, hconn⟩ := h.conn_eq
  change TakeoverInv { log with conn := _ }
  rw [hconn, run_claimCompactionLease]
  exact h.with_operations n (fun row => by split <;> rfl)
    (fun row => by split <;> rfl)
    fun row hrunning => by split at hrunning <;> exact hrunning

theorem exists_handles (freshTakeover : Bool) {key : WriteKey}
    (hfact : key.isFact = false) :
    ∃ statement ∈ cleanupStatements freshTakeover,
      statement.handles key = true := by
  cases key with
  | segment ref => exact ⟨.deleteSegments, by simp [cleanupStatements], rfl⟩
  | fact id => cases hfact
  | tagSummary tag conversationId =>
      exact ⟨.deleteTagSummaries, by simp [cleanupStatements], rfl⟩
  | stamp canonicalTurnId =>
      exact ⟨.resetCanonicalTurns, by simp [cleanupStatements], rfl⟩

theorem afterBegin (h : TakeoverInv log) {args : CleanupArgs}
    (hmeets : (TakeoverStep.beginCleanup args).Meets log) :
    TakeoverInv (log.after (.beginCleanup args)) := by
  obtain ⟨n, hconn⟩ := h.conn_eq
  obtain ⟨freshTakeover, hrun⟩ := run_abandonOperation args log.tables n
  have hinv := h.with_operations n
    (f := fun row =>
      if row.operationId = args.deadOperationId &&
          row.conversationId = args.conversationId &&
          row.lifecycleEpoch = args.lifecycleEpoch && row.status = .running
      then { row with status := .abandoned, completedAt := some args.now }
      else row)
    (fun row => by split <;> rfl) (fun row => by split <;> rfl)
    (fun row hrunning => by split at hrunning <;> first | cases hrunning | exact hrunning)
  simp only [TakeoverLog.after, hconn, hrun]
  refine ⟨hinv.idle, hinv.carried, ?_, ?_, ?_⟩
  · intro other hother operation hmem hdead
    rcases List.mem_cons.mp hother with rfl | hother
    · obtain ⟨before, hbefore, rfl⟩ := List.mem_map.mp hmem
      have hid : before.operationId = other.deadOperationId := by
        split at hdead <;> exact hdead
      obtain ⟨hconversation, hepoch⟩ := hmeets before hbefore hid
      split
      · exact ⟨hconversation, nofun⟩
      · rename_i hrunning
        refine ⟨hconversation, fun hstatus => hrunning ?_⟩
        simp [hid, hconversation, hepoch hstatus, hstatus]
    · exact hinv.stopped other hother operation hmem hdead
  · intro cleanup hcleanup
    rcases List.mem_append.mp hcleanup with hcleanup | hcleanup
    · obtain ⟨hbegun, hkeys⟩ := hinv.pending cleanup hcleanup
      exact ⟨List.mem_cons_of_mem _ hbegun, hkeys⟩
    · obtain rfl := List.mem_singleton.mp hcleanup
      refine ⟨List.mem_cons_self, fun key _ hfact => .inl ?_⟩
      exact exists_handles freshTakeover hfact
  · intro other hother
    obtain ⟨hbegun, hkeys⟩ := hinv.returned other hother
    exact ⟨List.mem_cons_of_mem _ hbegun, hkeys⟩

/-- A statement of a cleanup, whether or not the cleanup is listed. -/
theorem with_statement (h : TakeoverInv log) (n : Nat) (args : CleanupArgs)
    (statement : CleanupStatement)
    (hnew : statement = .insertOperation → ∀ other ∈ log.begun,
      other.deadOperationId ≠ args.newOperationId) :
    TakeoverInv { log with
      conn := .idle (statement.change args log.tables) n } := by
  refine h.with_tables (marks_change_subset args statement) ?_ ?_
  · intro operation hmem
    cases statement with
    | insertOperation => exact ⟨operation, List.mem_append_left _ hmem, rfl, rfl⟩
    | _ => exact ⟨operation, hmem, rfl, rfl⟩
  · intro other hother operation hmem hdead
    cases statement with
    | insertOperation =>
        rcases List.mem_append.mp hmem with hmem | hmem
        · exact h.stopped other hother operation hmem hdead
        · obtain rfl := List.mem_singleton.mp hmem
          exact absurd hdead.symm (hnew rfl other hother)
    | _ => exact h.stopped other hother operation hmem hdead

/-- A key that the statement goes through has no mark of the dead operation. -/
theorem marks_eq_nil_of_handles (h : TakeoverInv log) {args : CleanupArgs}
    (hbegun : args ∈ log.begun) {statement : CleanupStatement} {key : WriteKey}
    (hwritten : log.writtenUnder key = some args.deadOperationId)
    (hfact : key.isFact = false) (hhandles : statement.handles key = true) :
    key.marks (statement.change args log.tables) = [] := by
  refine List.eq_nil_iff_forall_not_mem.mpr fun mark hmark => ?_
  obtain ⟨hcarried, operation, hmem, hid, hconversation⟩ :=
    h.carried key _ hwritten hfact mark
      (marks_change_subset args statement key hmark)
  have hstopped := (h.stopped args hbegun operation hmem hid).1
  have hself : mark = (some args.deadOperationId, args.conversationId) :=
    Prod.ext hcarried (hconversation.symm.trans hstopped)
  exact not_mem_marks_change hhandles (hself ▸ hmark)

theorem afterContinue (h : TakeoverInv log) {index : Nat}
    (hmeets : (TakeoverStep.continueCleanup index).Meets log) :
    TakeoverInv (log.afterContinue index) := by
  unfold TakeoverLog.afterContinue
  split
  · exact h
  · -- the cleanup returns
    rename_i args hcleanup
    have hmem := List.mem_of_getElem? hcleanup
    obtain ⟨hbegun, hkeys⟩ := h.pending _ hmem
    have hfacts := (hmeets _ hcleanup).1 rfl
    refine ⟨h.idle, h.carried, h.stopped,
      fun cleanup hother => h.pending cleanup (List.mem_of_mem_eraseIdx hother),
      fun other hother => ?_⟩
    rcases List.mem_cons.mp hother with rfl | hother
    · refine ⟨hbegun, fun key hwritten => ?_⟩
      cases hfact : key.isFact with
      | false =>
          change key.marks log.tables = []
          simpa using hkeys key hwritten hfact
      | true =>
          cases key with
          | fact id =>
              rw [WriteKey.marks, List.map_eq_nil_iff, List.filter_eq_nil_iff]
              intro fact hmem hid
              rw [decide_eq_true_eq] at hid
              exact hfacts fact hmem (hid ▸ hwritten)
          | _ => cases hfact
    · exact h.returned other hother
  · rename_i args statement statements hcleanup
    have hmem := List.mem_of_getElem? hcleanup
    obtain ⟨hbegun, hkeys⟩ := h.pending _ hmem
    obtain ⟨n, hconn⟩ := h.conn_eq
    rcases run_cleanupStatement args statement log.tables n with
      hrun | ⟨raised, hrun⟩
    · have hinv := h.with_statement n args statement
        fun hinsert => (hmeets _ hcleanup).2 (by rw [hinsert]; rfl)
      simp only [hconn, hrun]
      refine ⟨hinv.idle, hinv.carried, hinv.stopped, fun cleanup hother => ?_,
        hinv.returned⟩
      rcases List.mem_or_eq_of_mem_set hother with hother | rfl
      · exact hinv.pending cleanup hother
      · refine ⟨hbegun, fun key hwritten hfact => ?_⟩
        rcases hkeys key hwritten hfact with ⟨other, hother, hhandles⟩ | hnone
        · rcases List.mem_cons.mp hother with rfl | hother
          · exact .inr (h.marks_eq_nil_of_handles hbegun hwritten hfact hhandles)
          · exact .inl ⟨other, hother, hhandles⟩
        · exact .inr (List.eq_nil_of_subset_nil
            (hnone ▸ marks_change_subset args statement key))
    · simp only [hconn, hrun]
      rw [← hconn]
      exact ⟨h.idle, h.carried, h.stopped,
        fun cleanup hother => h.pending cleanup (List.mem_of_mem_eraseIdx hother),
        h.returned⟩

theorem of_step {log' : TakeoverLog} (h : TakeoverInv log)
    (hstep : MeetingStep log log') : TakeoverInv log' := by
  obtain ⟨step, hmeets, rfl⟩ := hstep
  cases step with
  | write write => exact h.afterWrite write
  | claimCompactionLease now cutoff conversationId lifecycleEpoch workerId =>
      exact h.afterClaim now cutoff conversationId lifecycleEpoch workerId
  | beginCleanup args => exact h.afterBegin hmeets
  | continueCleanup index => exact h.afterContinue hmeets

end TakeoverInv

/-! ## The fence -/

def takeoverArgs : CleanupArgs where
  now := "12:00"
  conversationId := "c"
  deadOperationId := "dead"
  newOperationId := "new"
  lifecycleEpoch := 1
  workerId := "w2"
  phaseCount := 7

/-- One write under an operation, and then the cleanup after it. -/
def takeoverSteps (write : CompactionWrite) : List TakeoverStep :=
  [.write write, .beginCleanup takeoverArgs] ++
    List.replicate 7 (.continueCleanup 0)

/-- A conversation whose compaction runs, and nothing stored yet. -/
def compacting : TakeoverLog where
  conn := .idle
    { conversations := [{ conversationId := "c", tenantId := "t" }]
      compactionOperation :=
        [{ operationId := "dead"
           conversationId := "c"
           lifecycleEpoch := 1
           status := .running
           ownerWorkerId := "w1" }] } 0

theorem reach_of_meets {log : TakeoverLog}
    (reach : Reach TakeoverStarts MeetingStep log) (steps : List TakeoverStep)
    (h : ∀ i (hi : i < steps.length),
      (steps[i]).Meets ((steps.take i).foldl TakeoverLog.after log)) :
    Reach TakeoverStarts MeetingStep (steps.foldl TakeoverLog.after log) := by
  induction steps generalizing log with
  | nil => exact reach
  | cons step steps ih =>
      refine ih (reach.step ⟨step, h 0 (by simp), rfl⟩) fun i hi => ?_
      exact h (i + 1) (by simpa using hi)

end VirtualContext
