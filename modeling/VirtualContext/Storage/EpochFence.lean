import VirtualContext.Storage.Lifecycle

/-!
# The epoch fence

A deletion leaves the lifecycle epoch as it is.  A write that carries the epoch
of a deleted conversation therefore still finds its row, and a conversation that
is created anew starts at epoch 1 again.
-/

namespace VirtualContext

open VirtualContext.Library

/-! ## Calls and what they leave -/

/-- A call of one of the lifecycle operations. -/
inductive LifecycleOp where
  | upsertConversation (now tenantId : String) (conversationId : ConversationId)
  | markConversationDeleted (now : String) (conversationId : ConversationId)
  | deleteConversation (conversationId : ConversationId)
  | incrementLifecycleEpochOnResurrect (now : String)
      (conversationId : ConversationId)
  | updateRequestMetadata (now : String) (conversationId : ConversationId)
      (lifecycleEpoch lastRaw lastIngestible : Int)
  | widenPendingRawPayloadEntries (conversationId : ConversationId)
      (lifecycleEpoch value : Int)
  | setPhase (now : String) (conversationId : ConversationId)
      (lifecycleEpoch : Int) (phase : Phase)
  | setPhaseAndDrainPendingRaw (now : String) (conversationId : ConversationId)
      (lifecycleEpoch : Int) (newPhase : Phase)
  | drainCompactionExit (now episodeId : String)
      (conversationId : ConversationId) (lifecycleEpoch : Int)
      (workerId : String)
  | upsertIngestionEpisode (now episodeId : String)
      (conversationId : ConversationId) (lifecycleEpoch : Int)
      (workerId : String) (rawPayloadEntries : Int)
  | claimIngestionLease (now cutoff : String) (conversationId : ConversationId)
      (lifecycleEpoch : Int) (workerId : String)
  | completeIngestionEpisode (now : String) (conversationId : ConversationId)
      (lifecycleEpoch : Int) (workerId : String)
  | startCompactionOperation (now operationId : String)
      (conversationId : ConversationId) (lifecycleEpoch : Int)
      (workerId : String) (phaseCount : Int) (phaseName : String)
  | claimCompactionLease (now cutoff : String)
      (conversationId : ConversationId) (lifecycleEpoch : Int)
      (workerId : String)
  | advanceCompactionPhase (now : String) (conversationId : ConversationId)
      (lifecycleEpoch : Int) (workerId : String) (phaseIndex : Int)
      (phaseName : String)
  | completeCompactionOperation (now : String)
      (conversationId : ConversationId) (lifecycleEpoch : Int)
      (workerId : String)
  -- whatever else a worker writes, to other tables only
  | elsewhere (change : Tables → Tables)

namespace LifecycleOp

/-- The call on a connection that nothing interferes with. -/
def run (op : LifecycleOp) (c : Conn Tables) : Conn Tables :=
  match op with
  | upsertConversation now tenantId conversationId =>
      ((VirtualContext.upsertConversation now tenantId conversationId).run
        .quiet c).2
  | markConversationDeleted now conversationId =>
      ((VirtualContext.markConversationDeleted now conversationId).run
        .quiet c).2
  | deleteConversation conversationId =>
      ((VirtualContext.deleteConversation conversationId).run .quiet c).2
  | incrementLifecycleEpochOnResurrect now conversationId =>
      ((VirtualContext.incrementLifecycleEpochOnResurrect now
        conversationId).run .quiet c).2
  | updateRequestMetadata now conversationId epoch lastRaw lastIngestible =>
      ((VirtualContext.updateRequestMetadata now conversationId epoch lastRaw
        lastIngestible).run .quiet c).2
  | widenPendingRawPayloadEntries conversationId epoch value =>
      ((VirtualContext.widenPendingRawPayloadEntries conversationId epoch
        value).run .quiet c).2
  | setPhase now conversationId epoch phase =>
      ((VirtualContext.setPhase now conversationId epoch phase).run .quiet c).2
  | setPhaseAndDrainPendingRaw now conversationId epoch newPhase =>
      ((VirtualContext.setPhaseAndDrainPendingRaw now conversationId epoch
        newPhase).run .quiet c).2
  | drainCompactionExit now episodeId conversationId epoch workerId =>
      ((VirtualContext.drainCompactionExit now episodeId conversationId epoch
        workerId).run .quiet c).2
  | upsertIngestionEpisode now episodeId conversationId epoch workerId entries =>
      ((VirtualContext.upsertIngestionEpisode now episodeId conversationId epoch
        workerId entries).run .quiet c).2
  | claimIngestionLease now cutoff conversationId epoch workerId =>
      ((VirtualContext.claimIngestionLease now cutoff conversationId epoch
        workerId).run .quiet c).2
  | completeIngestionEpisode now conversationId epoch workerId =>
      ((VirtualContext.completeIngestionEpisode now conversationId epoch
        workerId).run .quiet c).2
  | startCompactionOperation now operationId conversationId epoch workerId
      phaseCount phaseName =>
      ((VirtualContext.startCompactionOperation now operationId conversationId
        epoch workerId phaseCount phaseName).run .quiet c).2
  | claimCompactionLease now cutoff conversationId epoch workerId =>
      ((VirtualContext.claimCompactionLease 0 now cutoff conversationId epoch
        workerId).run .quiet c).2
  | advanceCompactionPhase now conversationId epoch workerId phaseIndex
      phaseName =>
      ((VirtualContext.advanceCompactionPhase now conversationId epoch workerId
        phaseIndex phaseName).run .quiet c).2
  | completeCompactionOperation now conversationId epoch workerId =>
      ((VirtualContext.completeCompactionOperation now conversationId epoch
        workerId).run .quiet c).2
  | elsewhere change =>
      c.store { change c.view with conversations := c.view.conversations }

/-- The conversation and the epoch that an epoch-guarded call carries. -/
def carries : LifecycleOp → Option (ConversationId × Int)
  | upsertConversation .. | markConversationDeleted .. | deleteConversation ..
  | incrementLifecycleEpochOnResurrect .. | elsewhere _ => none
  | updateRequestMetadata _ conversationId epoch _ _
  | widenPendingRawPayloadEntries conversationId epoch _
  | setPhase _ conversationId epoch _
  | setPhaseAndDrainPendingRaw _ conversationId epoch _
  | drainCompactionExit _ _ conversationId epoch _
  | upsertIngestionEpisode _ _ conversationId epoch _ _
  | claimIngestionLease _ _ conversationId epoch _
  | completeIngestionEpisode _ conversationId epoch _
  | startCompactionOperation _ _ conversationId epoch _ _ _
  | claimCompactionLease _ _ conversationId epoch _
  | advanceCompactionPhase _ conversationId epoch _ _ _
  | completeCompactionOperation _ conversationId epoch _ =>
      some (conversationId, epoch)

/-- The conversation that the call deletes, with the epoch it has by then. -/
def deletes (op : LifecycleOp) (t : Tables) : List (ConversationId × Int) :=
  match op with
  | markConversationDeleted _ conversationId
  | deleteConversation conversationId =>
      ((t.conversation? conversationId).map fun row =>
        (conversationId, row.lifecycleEpoch)).toList
  | _ => []

end LifecycleOp

/-- A store together with the deletions that have happened so far. -/
structure DeletionLog where
  conn : Conn Tables
  deletions : List (ConversationId × Int) := []

namespace DeletionLog

def row (log : DeletionLog) (conversationId : ConversationId) :
    Option ConversationRecord :=
  log.conn.durable.conversation? conversationId

def after (log : DeletionLog) (op : LifecycleOp) : DeletionLog where
  conn := op.run log.conn
  deletions := log.deletions ++ op.deletes log.conn.durable

end DeletionLog

/-! ## The property and its condition -/

/--
The call does not touch a conversation that was deleted under its epoch, and
every deleted conversation stays deleted or has a later epoch.
-/
structure Fenced (log : DeletionLog) (op : LifecycleOp) : Prop where
  stale : ∀ deletion ∈ log.deletions, op.carries = some deletion →
    (log.after op).row deletion.1 = log.row deletion.1
  later : ∀ deletion ∈ (log.after op).deletions,
    ∀ row, (log.after op).row deletion.1 = some row →
      row.phase = .deleted ∨ deletion.2 < row.lifecycleEpoch

def FencedRun (log : DeletionLog) : List LifecycleOp → Prop
  | [] => True
  | op :: ops => Fenced log op ∧ FencedRun (log.after op) ops

/-- The write finds in the row what it would put there. -/
def LifecycleOp.WritesSame (op : LifecycleOp) (t : Tables)
    (row : ConversationRecord) : Prop :=
  match op with
  | updateRequestMetadata now _ _ lastRaw lastIngestible =>
      row.lastRawPayloadEntries = lastRaw ∧
        row.lastIngestiblePayloadEntries = lastIngestible ∧ row.updatedAt = now
  | widenPendingRawPayloadEntries _ _ value =>
      value ≤ row.pendingRawPayloadEntries
  | setPhase now _ _ phase => row.phase = phase ∧ row.updatedAt = now
  | setPhaseAndDrainPendingRaw now _ _ newPhase =>
      row.phase = newPhase ∧ row.pendingRawPayloadEntries = 0 ∧
        row.updatedAt = now
  -- the INSERT of the episode fails and takes the UPDATE back
  | drainCompactionExit _ episodeId conversationId epoch _ =>
      t.hasUntagged conversationId = true ∧
        t.ingestionEpisode.any (fun episode =>
          episode.episodeId = episodeId ||
            episode.runsAt conversationId epoch) = true
  | _ => True

/--
A call that carries the epoch of a deletion comes when the row is gone, has a
later epoch or would not be changed; a removed conversation is not created anew.
-/
def RespectsFence (log : DeletionLog) (op : LifecycleOp) : Prop :=
  (∀ deletion ∈ log.deletions, op.carries = some deletion →
    ∀ row, log.row deletion.1 = some row → row.lifecycleEpoch = deletion.2 →
      op.WritesSame log.conn.durable row) ∧
  ∀ now tenantId conversationId,
    op = .upsertConversation now tenantId conversationId →
    log.row conversationId = none →
    ∀ deletion ∈ log.deletions, deletion.1 = conversationId → deletion.2 < 1

def RespectsFenceRun (log : DeletionLog) : List LifecycleOp → Prop
  | [] => True
  | op :: ops => RespectsFence log op ∧ RespectsFenceRun (log.after op) ops

/-! ## What a call does to the conversations -/

/-- The UPDATE of one row, where the WHERE clause holds. -/
def rewriteWhere (p : ConversationRecord → Bool)
    (f : ConversationRecord → ConversationRecord) (row : ConversationRecord) :
    ConversationRecord :=
  if p row then f row else row

/-- The columns that an epoch-guarded call sets. -/
def LifecycleOp.assignment (op : LifecycleOp) (t : Tables)
    (row : ConversationRecord) : ConversationRecord :=
  match op with
  | updateRequestMetadata now _ _ lastRaw lastIngestible =>
      { row with
        lastRawPayloadEntries := lastRaw
        lastIngestiblePayloadEntries := lastIngestible
        updatedAt := now }
  | widenPendingRawPayloadEntries _ _ value =>
      { row with
        pendingRawPayloadEntries := max row.pendingRawPayloadEntries value }
  | setPhase now _ _ phase => { row with phase := phase, updatedAt := now }
  | setPhaseAndDrainPendingRaw now _ _ newPhase => drainInto now newPhase row
  | drainCompactionExit now episodeId conversationId epoch _ =>
      if t.hasUntagged conversationId then
        if t.ingestionEpisode.any (fun episode =>
            episode.episodeId = episodeId ||
              episode.runsAt conversationId epoch) then row
        else drainInto now .ingesting row
      else drainInto now .active row
  | _ => row

/-- The row of a conversation after the call. -/
def LifecycleOp.rowAfter (op : LifecycleOp) (t : Tables)
    (other : ConversationId) : Option ConversationRecord :=
  match op with
  | upsertConversation now tenantId conversationId =>
      (t.upsertConversation now tenantId conversationId).conversation? other
  | markConversationDeleted now conversationId =>
      (t.conversation? other).map (rewriteWhere
        (·.conversationId = conversationId) (·.markDeleted now))
  | deleteConversation conversationId =>
      if other = conversationId then none else t.conversation? other
  | incrementLifecycleEpochOnResurrect now conversationId =>
      (t.conversation? other).map (rewriteWhere
        (fun row => row.conversationId = conversationId && row.phase = .deleted)
        (·.resurrect now))
  | elsewhere _ => t.conversation? other
  | op =>
      (t.conversation? other).map (rewriteWhere
        (fun row => op.carries = some (row.conversationId, row.lifecycleEpoch))
        (op.assignment t))

/-- The row of a conversation after an UPDATE of rows. -/
theorem conversation_update (t : Tables) (p : ConversationRecord → Bool)
    (f : ConversationRecord → ConversationRecord)
    (hf : ∀ row, (f row).conversationId = row.conversationId)
    (conversationId : ConversationId) :
    ({ t with
      conversations := t.conversations.map (rewriteWhere p f) } : Tables
      ).conversation? conversationId =
      (t.conversation? conversationId).map (rewriteWhere p f) := by
  unfold Tables.conversation?
  dsimp only
  rw [List.find?_map]
  congr 2
  funext row
  simp only [Function.comp_apply, rewriteWhere]
  split_ifs
  · rw [hf]
  · rfl

theorem map_rewriteWhere_congr (found : Option ConversationRecord)
    {p p' : ConversationRecord → Bool}
    {f f' : ConversationRecord → ConversationRecord}
    (hp : ∀ row, p row = p' row)
    (hf : ∀ row ∈ found, p' row = true → f row = f' row) :
    found.map (rewriteWhere p f) = found.map (rewriteWhere p' f') := by
  cases found with
  | none => rfl
  | some row =>
      simp only [Option.map_some, rewriteWhere, hp]
      split_ifs with h
      · rw [hf row rfl h]
      · rfl

theorem map_rewriteWhere_id (found : Option ConversationRecord)
    {p : ConversationRecord → Bool}
    {f : ConversationRecord → ConversationRecord}
    (h : ∀ row ∈ found, p row = true → f row = row) :
    found.map (rewriteWhere p f) = found := by
  cases found with
  | none => rfl
  | some row =>
      simp only [Option.map_some, rewriteWhere]
      split_ifs with hp
      · rw [h row rfl hp]
      · rfl

theorem carries_eq_isAt {op : LifecycleOp} {conversationId : ConversationId}
    {epoch : Int} (h : op.carries = some (conversationId, epoch))
    (row : ConversationRecord) :
    decide (op.carries = some (row.conversationId, row.lifecycleEpoch)) =
      row.isAt conversationId epoch := by
  rw [h, ConversationRecord.isAt, ← Bool.decide_and]
  apply decide_eq_decide.mpr
  rw [Option.some.injEq, Prod.mk.injEq, eq_comm, @eq_comm Int]

section Run

variable {t : Tables} {n : Nat} {α : Type}

theorem run_withConn (site : Site) (body : StoreProgram α) :
    (withConn site body).run .quiet (.idle t n) =
      match body.run .quiet (.idle t n) with
      | (.ok value, c) => (.ok value, c.commit)
      | (.error raised, c) => (.error raised, c.rollback) := by
  simp only [withConn, Program.run_bind, Program.run_tryCatch]
  rcases body.run .quiet (.idle t n) with ⟨outcome | outcome, c⟩ <;> simp

theorem run_immediately (site : Site) (body : StoreProgram α) :
    (immediately site body).run .quiet (.idle t n) =
      match body.run .quiet ⟨t, some t, n⟩ with
      | (.ok value, c) => (.ok value, c)
      | (.error raised, c) => (.error raised, c.rollback) := by
  simp only [immediately, Program.run_bind, Program.run_beginImmediate_quiet,
    Program.andThen_ok, Program.run_tryCatch]
  rcases body.run .quiet ⟨t, some t, n⟩ with ⟨outcome | outcome, c⟩ <;> simp

theorem run_updateConversations (p : ConversationRecord → Bool)
    (f : ConversationRecord → ConversationRecord) (c : Conn Tables) :
    (updateConversations p f).run .quiet c =
      (.ok (c.view.conversations.filter p).length, c.store { c.view with
        conversations := c.view.conversations.map (rewriteWhere p f) }) := by
  simp only [updateConversations, Program.run_write_quiet]
  rfl

theorem run_updateEpisodes (p : Tables → IngestionEpisodeRecord → Bool)
    (f : IngestionEpisodeRecord → IngestionEpisodeRecord) (c : Conn Tables) :
    ∃ episodes rowcount, (updateEpisodes p f).run .quiet c =
      (.ok rowcount, c.store { c.view with ingestionEpisode := episodes }) := by
  simp only [updateEpisodes, Program.run_write_quiet]
  exact ⟨_, _, rfl⟩

theorem run_updateOperations (p : Tables → CompactionOperationRecord → Bool)
    (f : CompactionOperationRecord → CompactionOperationRecord)
    (c : Conn Tables) :
    ∃ operations rowcount, (updateOperations p f).run .quiet c =
      (.ok rowcount,
        c.store { c.view with compactionOperation := operations }) := by
  simp only [updateOperations, Program.run_write_quiet]
  exact ⟨_, _, rfl⟩

theorem run_insertEpisode (episode : IngestionEpisodeRecord)
    (c : Conn Tables) :
    (insertEpisode episode).run .quiet c =
      if c.view.rejectsEpisode episode then
        (.error ⟨.ingestionEpisode, .integrityError⟩, c)
      else (.ok (), c.store { c.view with
        ingestionEpisode := c.view.ingestionEpisode ++ [episode] }) := by
  simp only [insertEpisode, Program.run_write_quiet]
  by_cases h : c.view.rejectsEpisode episode <;> simp [h]

theorem run_insertOperation (operation : CompactionOperationRecord)
    (c : Conn Tables) :
    (insertOperation operation).run .quiet c =
      if c.view.rejectsOperation operation then
        (.error ⟨.compactionOperation, .integrityError⟩, c)
      else (.ok (), c.store { c.view with
        compactionOperation := c.view.compactionOperation ++ [operation] }) := by
  simp only [insertOperation, Program.run_write_quiet]
  by_cases h : c.view.rejectsOperation operation <;> simp [h]

/-- The call returns the connection idle and has its effect. -/
def LifecycleOp.Effect (op : LifecycleOp) (t : Tables) (n : Nat) : Prop :=
  ∃ t', op.run (.idle t n) = .idle t' n ∧
    ∀ other, t'.conversation? other = op.rowAfter t other

theorem conversation_congr {t t' : Tables}
    (h : t'.conversations = t.conversations) (other : ConversationId) :
    t'.conversation? other = t.conversation? other := by
  rw [Tables.conversation?, h]
  rfl

/-- A call whose UPDATE of the conversations uses the shared WHERE clause. -/
theorem effect_of_update {op : LifecycleOp} {conversationId : ConversationId}
    {epoch : Int} (hcarries : op.carries = some (conversationId, epoch))
    (hid : ∀ row, (op.assignment t row).conversationId = row.conversationId)
    (hrun : ∃ t', op.run (.idle t n) = .idle t' n ∧
      t'.conversations = t.conversations.map (rewriteWhere
        (·.isAt conversationId epoch) (op.assignment t))) :
    op.Effect t n := by
  obtain ⟨t', hrun, hupdated⟩ := hrun
  refine ⟨t', hrun, fun other => ?_⟩
  let updated : Tables := { t with
    conversations := t.conversations.map (rewriteWhere
      (·.isAt conversationId epoch) (op.assignment t)) }
  have hrow : t'.conversation? other = updated.conversation? other :=
    conversation_congr (t := updated) hupdated other
  rw [hrow, conversation_update t (·.isAt conversationId epoch)
    (op.assignment t) hid]
  have hcongr := map_rewriteWhere_congr (t.conversation? other)
    (fun row => (carries_eq_isAt hcarries row).symm)
    fun row _ _ => rfl (a := op.assignment t row)
  cases op <;> first | exact hcongr | cases hcarries

/-- A call that leaves the conversations alone. -/
theorem effect_of_leaves {op : LifecycleOp}
    (hassigns : ∀ row, op.assignment t row = row) (hcarries : op.carries ≠ none)
    (hrun : ∃ t', op.run (.idle t n) = .idle t' n ∧
      t'.conversations = t.conversations) : op.Effect t n := by
  obtain ⟨t', hrun, hsame⟩ := hrun
  refine ⟨t', hrun, fun other => ?_⟩
  rw [conversation_congr hsame]
  have hid := map_rewriteWhere_id (t.conversation? other)
    (p := fun row => op.carries = some (row.conversationId, row.lifecycleEpoch))
    fun row _ _ => hassigns row
  cases op <;> first | exact hid.symm | exact absurd rfl hcarries

theorem run_guarded (p : ConversationRecord → Bool)
    (f : ConversationRecord → ConversationRecord) (answer : Nat → Bool) :
    ((withConn .conversations do
        let rowcount ← updateConversations p f
        pure (answer rowcount) : StoreProgram Bool).run .quiet (.idle t n)).2 =
      .idle { t with conversations := t.conversations.map (rewriteWhere p f) }
        n := by
  simp [run_withConn, run_updateConversations]

/-- What a call on one of the other two tables leaves. -/
def LeavesConversations (t : Tables) (n : Nat)
    (outcome : Except (Raised Site Exc) α × Conn Tables) : Prop :=
  ∃ t', outcome.2 = .idle t' n ∧ t'.conversations = t.conversations

theorem episodes_leave (p : Tables → IngestionEpisodeRecord → Bool)
    (f : IngestionEpisodeRecord → IngestionEpisodeRecord)
    (answer : Nat → α) :
    LeavesConversations t n ((withConn .ingestionEpisode do
      let rowcount ← updateEpisodes p f
      pure (answer rowcount) : StoreProgram α).run .quiet (.idle t n)) := by
  obtain ⟨episodes, rowcount, hrun⟩ := run_updateEpisodes p f (.idle t n)
  refine ⟨{ t with ingestionEpisode := episodes }, ?_, rfl⟩
  simp [run_withConn, hrun]

theorem operations_leave (p : Tables → CompactionOperationRecord → Bool)
    (f : CompactionOperationRecord → CompactionOperationRecord)
    (answer : Nat → α) :
    LeavesConversations t n ((withConn .compactionOperation do
      let rowcount ← updateOperations p f
      pure (answer rowcount) : StoreProgram α).run .quiet (.idle t n)) := by
  obtain ⟨operations, rowcount, hrun⟩ := run_updateOperations p f (.idle t n)
  refine ⟨{ t with compactionOperation := operations }, ?_, rfl⟩
  simp [run_withConn, hrun]

theorem upsertIngestionEpisode_leaves (now episodeId : String)
    (conversationId : ConversationId) (epoch : Int) (workerId : String)
    (entries : Int) :
    LeavesConversations t n ((upsertIngestionEpisode now episodeId
      conversationId epoch workerId entries).run .quiet (.idle t n)) := by
  unfold upsertIngestionEpisode
  rw [run_withConn]
  simp only [Program.run_bind, Program.run_read_quiet, Program.andThen_ok]
  split_ifs
  · obtain ⟨episodes, rowcount, hrun⟩ := run_updateEpisodes
      (fun _ row => row.runsAt conversationId epoch)
      (fun row => { row with
        rawPayloadEntries := max row.rawPayloadEntries entries }) (.idle t n)
    refine ⟨{ t with ingestionEpisode := episodes }, ?_, rfl⟩
    simp [hrun]
  · rw [run_insertEpisode]
    split_ifs
    · exact ⟨t, rfl, rfl⟩
    · exact ⟨_, rfl, rfl⟩

theorem startCompactionOperation_leaves (now operationId : String)
    (conversationId : ConversationId) (epoch : Int) (workerId : String)
    (phaseCount : Int) (phaseName : String) :
    LeavesConversations t n ((startCompactionOperation now operationId
      conversationId epoch workerId phaseCount phaseName).run .quiet
        (.idle t n)) := by
  unfold startCompactionOperation
  rw [run_withConn, Program.run_bind, run_insertOperation]
  split_ifs
  · exact ⟨t, rfl, rfl⟩
  · exact ⟨_, rfl, rfl⟩

theorem claimCompactionLease_leaves (now cutoff : String)
    (conversationId : ConversationId) (epoch : Int) (workerId : String) :
    LeavesConversations t n ((claimCompactionLease 0 now cutoff conversationId
      epoch workerId).run .quiet (.idle t n)) := by
  obtain ⟨operations, rowcount, hrun⟩ := run_updateOperations
    (fun _ row => row.activeAt conversationId epoch &&
      (row.ownerWorkerId = workerId || decide (row.heartbeatTs < cutoff)))
    (fun row => { row with ownerWorkerId := workerId, heartbeatTs := now })
    (.idle t n)
  refine ⟨{ t with compactionOperation := operations }, ?_, rfl⟩
  simp only [claimCompactionLease, run_withConn, Program.run_bind,
    Program.run_read_quiet, Program.andThen_ok]
  rw [hrun]
  rfl

theorem run_endActiveWork (now : String) (conversationId : ConversationId)
    (epochs : Int → Bool) (c : Conn Tables) :
    ∃ t', (endActiveWork now conversationId epochs).run .quiet c =
        (.ok (), c.store t') ∧
      t'.conversations = c.view.conversations := by
  obtain ⟨episodes, rowcount, hepisodes⟩ := run_updateEpisodes
    (fun _ row => row.conversationId = conversationId &&
      epochs row.lifecycleEpoch && row.status = .running)
    (abandonEpisode now) c
  obtain ⟨operations, rowcount', hoperations⟩ := run_updateOperations
    (fun _ row => row.conversationId = conversationId &&
      epochs row.lifecycleEpoch && row.active)
    (cancelOperation now)
    (c.store { c.view with ingestionEpisode := episodes })
  refine ⟨{ c.view with
    ingestionEpisode := episodes
    compactionOperation := operations }, ?_, rfl⟩
  simp only [endActiveWork, Program.run_bind, hepisodes, Program.andThen_ok,
    hoperations, Program.run_pure, Conn.view_store]
  rcases c with ⟨durable, txn | working, supply⟩ <;> rfl

theorem markConversationDeleted_effect (now : String)
    (conversationId : ConversationId) (t : Tables) (n : Nat) :
    (LifecycleOp.markConversationDeleted now conversationId).Effect t n := by
  let marked : Tables := { t with
    conversations := t.conversations.map (rewriteWhere
      (·.conversationId = conversationId) (·.markDeleted now)) }
  have hmarked (other : ConversationId) : marked.conversation? other =
      (LifecycleOp.markConversationDeleted now conversationId).rowAfter t
        other :=
    conversation_update t (·.conversationId = conversationId)
      (·.markDeleted now) (fun _ => rfl) other
  unfold LifecycleOp.Effect LifecycleOp.run
  simp only [markConversationDeleted, run_withConn, Program.run_bind,
    run_updateConversations, Conn.view_idle, Conn.store_idle,
    Program.andThen_ok]
  split_ifs
  · exact ⟨marked, rfl, hmarked⟩
  · obtain ⟨t', hrun, hconversations⟩ := run_endActiveWork now conversationId
      (fun _ => true) (.idle marked n)
    rw [hrun]
    exact ⟨t', rfl, fun other =>
      (conversation_congr hconversations other).trans (hmarked other)⟩

theorem deleteConversation_effect (conversationId : ConversationId) (t : Tables)
    (n : Nat) :
    (LifecycleOp.deleteConversation conversationId).Effect t n := by
  unfold LifecycleOp.Effect LifecycleOp.run
  simp only [deleteConversation, Program.run_bind, Program.run_write_quiet,
    Program.run_update_quiet, Conn.view_idle, Conn.store_idle,
    Program.andThen_ok, Program.run_commit_quiet, Conn.commit_idle,
    Program.run_pure]
  refine ⟨_, rfl, fun other => ?_⟩
  unfold Tables.conversation? LifecycleOp.rowAfter
  dsimp only
  rw [List.find?_filter]
  by_cases hother : other = conversationId
  · rw [if_pos hother, List.find?_eq_none]
    simp [hother]
  · rw [if_neg hother]
    unfold Tables.conversation?
    congr 1
    funext row
    by_cases hrow : row.conversationId = other
    · simp [hrow, hother]
    · simp [hrow]

theorem incrementLifecycleEpochOnResurrect_effect (now : String)
    (conversationId : ConversationId) (t : Tables) (n : Nat) :
    (LifecycleOp.incrementLifecycleEpochOnResurrect now
      conversationId).Effect t n := by
  let bumped : Tables := { t with
    conversations := t.conversations.map (rewriteWhere
      (fun row => row.conversationId = conversationId && row.phase = .deleted)
      (·.resurrect now)) }
  have hbumped (other : ConversationId) : bumped.conversation? other =
      (LifecycleOp.incrementLifecycleEpochOnResurrect now
        conversationId).rowAfter t other :=
    conversation_update t
      (fun row => row.conversationId = conversationId && row.phase = .deleted)
      (·.resurrect now) (fun _ => rfl) other
  have hupdate := run_updateConversations
    (fun row => row.conversationId = conversationId && row.phase = .deleted)
    (·.resurrect now) ⟨t, some t, n⟩
  change _ = (_, (⟨t, some bumped, n⟩ : Conn Tables)) at hupdate
  unfold LifecycleOp.Effect LifecycleOp.run
  simp only [incrementLifecycleEpochOnResurrect, Program.run_bind,
    run_immediately, hupdate, Program.andThen_ok, Program.run_read_quiet,
    Conn.view, Option.getD_some]
  cases hrow : bumped.conversation? conversationId with
  | none => exact ⟨bumped, rfl, hbumped⟩
  | some row =>
      obtain ⟨t', hrun, hconversations⟩ := run_endActiveWork now conversationId
        (decide <| · < row.lifecycleEpoch) ⟨t, some bumped, n⟩
      simp only [Program.run_bind, hrun, Program.andThen_ok]
      exact ⟨t', rfl, fun other =>
        (conversation_congr hconversations other).trans (hbumped other)⟩

theorem conversation_found {t : Tables} {other : ConversationId}
    {row : ConversationRecord} (h : t.conversation? other = some row) :
    row.conversationId = other := by
  have := List.find?_some h
  simpa using this

/-- A guarded call that finds no row under its epoch and rolls back. -/
theorem effect_of_absent {op : LifecycleOp} {conversationId : ConversationId}
    {epoch : Int} (hcarries : op.carries = some (conversationId, epoch))
    (habsent : ∀ row, t.conversation? conversationId = some row →
      row.lifecycleEpoch ≠ epoch)
    (hrun : op.run (.idle t n) = .idle t n) : op.Effect t n := by
  refine ⟨t, hrun, fun other => ?_⟩
  have hid := map_rewriteWhere_id (t.conversation? other)
    (p := fun row => op.carries = some (row.conversationId, row.lifecycleEpoch))
    (f := op.assignment t) (by
      intro row hrow hp
      rw [carries_eq_isAt hcarries] at hp
      simp only [ConversationRecord.isAt, Bool.and_eq_true,
        decide_eq_true_eq] at hp
      rw [← hp.1, conversation_found hrow] at habsent
      exact absurd hp.2 (habsent row hrow))
  cases op <;> first | exact hid.symm | cases hcarries

theorem epoch_cases (t : Tables) (conversationId : ConversationId)
    (epoch : Int) :
    (∃ row, t.conversation? conversationId = some row ∧
      row.lifecycleEpoch = epoch) ∨
    ∀ row, t.conversation? conversationId = some row →
      row.lifecycleEpoch ≠ epoch := by
  by_cases h : ∃ row, t.conversation? conversationId = some row ∧
      row.lifecycleEpoch = epoch
  · exact .inl h
  · exact .inr fun row hrow hepoch => h ⟨row, hrow, hepoch⟩

theorem setPhaseAndDrainPendingRaw_effect (now : String)
    (conversationId : ConversationId) (epoch : Int) (newPhase : Phase)
    (t : Tables) (n : Nat) :
    (LifecycleOp.setPhaseAndDrainPendingRaw now conversationId epoch
      newPhase).Effect t n := by
  rcases epoch_cases t conversationId epoch with ⟨row, hrow, hepoch⟩ | habsent
  · refine effect_of_update rfl (fun _ => rfl) ⟨{ t with
      conversations := t.conversations.map (rewriteWhere
        (·.isAt conversationId epoch) (drainInto now newPhase)) }, ?_, rfl⟩
    simp only [LifecycleOp.run, setPhaseAndDrainPendingRaw, run_immediately,
      Program.run_bind, Program.run_read_quiet, Program.andThen_ok, Conn.view,
      Option.getD_some, hrow, Option.filter_some, hepoch, decide_true, if_true,
      run_updateConversations, Program.run_commit_quiet, Program.run_pure]
    rfl
  · refine effect_of_absent rfl habsent ?_
    have hnone : (t.conversation? conversationId).filter
        (fun row => decide (row.lifecycleEpoch = epoch)) = none := by
      simpa [Option.filter_eq_none_iff] using habsent
    simp only [LifecycleOp.run, setPhaseAndDrainPendingRaw, run_immediately,
      Program.run_bind, Program.run_read_quiet, Program.andThen_ok, Conn.view,
      Option.getD_some, hnone, Program.run_rollback_quiet, Program.run_pure]
    rfl

theorem drained_rejects {p : ConversationRecord → Bool}
    {f : ConversationRecord → ConversationRecord}
    (hf : ∀ row, (f row).conversationId = row.conversationId)
    {conversationId : ConversationId} {row : ConversationRecord}
    (hrow : t.conversation? conversationId = some row)
    (episode : IngestionEpisodeRecord)
    (hepisode : episode.conversationId = conversationId) :
    ({ t with conversations := t.conversations.map (rewriteWhere p f) } :
      Tables).rejectsEpisode episode =
      t.ingestionEpisode.any fun row =>
        row.episodeId = episode.episodeId ||
          row.runsAt conversationId episode.lifecycleEpoch := by
  unfold Tables.rejectsEpisode
  rw [conversation_update t p f hf, hepisode, hrow]
  simp

theorem drainCompactionExit_effect (now episodeId : String)
    (conversationId : ConversationId) (epoch : Int) (workerId : String)
    (t : Tables) (n : Nat) :
    (LifecycleOp.drainCompactionExit now episodeId conversationId epoch
      workerId).Effect t n := by
  have hid (row : ConversationRecord) :
      ((LifecycleOp.drainCompactionExit now episodeId conversationId epoch
        workerId).assignment t row).conversationId = row.conversationId := by
    simp only [LifecycleOp.assignment]
    split_ifs <;> rfl
  rcases epoch_cases t conversationId epoch with ⟨row, hrow, hepoch⟩ | habsent
  · refine effect_of_update rfl hid ?_
    have hfound : ((t.conversation? conversationId).map fun row =>
        (row, t.hasUntagged conversationId)).filter
          (fun pair => decide (pair.1.lifecycleEpoch = epoch)) =
        some (row, t.hasUntagged conversationId) := by
      simp [hrow, hepoch]
    simp only [LifecycleOp.run, drainCompactionExit, run_immediately,
      Program.run_bind, Program.run_read_quiet, Program.andThen_ok, Conn.view,
      Option.getD_some, hfound]
    cases huntagged : t.hasUntagged conversationId with
    | false =>
        have hassign : (LifecycleOp.drainCompactionExit now episodeId
            conversationId epoch workerId).assignment t =
              drainInto now .active := by
          funext row
          simp [LifecycleOp.assignment, huntagged]
        refine ⟨{ t with conversations := t.conversations.map (rewriteWhere
          (·.isAt conversationId epoch) (drainInto now .active)) }, ?_, ?_⟩
        · simp only [Program.run_bind, run_updateConversations,
            Program.andThen_ok, Program.run_commit_quiet, Program.run_pure]
          rfl
        · rw [hassign]
    | true =>
        let episode : IngestionEpisodeRecord :=
          { episodeId := episodeId
            conversationId := conversationId
            lifecycleEpoch := epoch
            rawPayloadEntries := row.pendingRawPayloadEntries
            startedAt := now
            status := .running
            ownerWorkerId := workerId
            heartbeatTs := now }
        let drained : Tables := { t with
          conversations := t.conversations.map (rewriteWhere
            (·.isAt conversationId epoch) (drainInto now .ingesting)) }
        have hrejects : drained.rejectsEpisode episode =
            t.ingestionEpisode.any fun row =>
              row.episodeId = episodeId || row.runsAt conversationId epoch :=
          drained_rejects (p := (·.isAt conversationId epoch))
            (f := drainInto now .ingesting) (fun _ => rfl) hrow episode rfl
        have hassign (row : ConversationRecord) :
            (LifecycleOp.drainCompactionExit now episodeId conversationId epoch
              workerId).assignment t row =
              if t.ingestionEpisode.any (fun episode =>
                episode.episodeId = episodeId ||
                  episode.runsAt conversationId epoch) then row
              else drainInto now .ingesting row := by
          simp [LifecycleOp.assignment, huntagged]
        have hupdate := run_updateConversations (·.isAt conversationId epoch)
          (drainInto now .ingesting) ⟨t, some t, n⟩
        change _ = (_, (⟨t, some drained, n⟩ : Conn Tables)) at hupdate
        simp only [Program.run_bind, hupdate, Program.andThen_ok]
        by_cases hany : t.ingestionEpisode.any (fun row =>
            row.episodeId = episodeId || row.runsAt conversationId epoch)
        · have hinsert := (run_insertEpisode episode ⟨t, some drained, n⟩).trans
            (if_pos (hrejects.trans hany))
          have hsame : (LifecycleOp.drainCompactionExit now episodeId
              conversationId epoch workerId).assignment t = id := by
            funext row
            rw [hassign, if_pos hany]
            rfl
          refine ⟨t, ?_, ?_⟩
          · rw [hinsert]
            rfl
          · rw [hsame]
            refine (List.map_id'' (fun row => ?_) t.conversations).symm
            simp [rewriteWhere]
        · have hinsert := (run_insertEpisode episode ⟨t, some drained, n⟩).trans
            (if_neg ((Bool.eq_iff_iff.mp hrejects).not.mpr hany))
          have hsame : (LifecycleOp.drainCompactionExit now episodeId
              conversationId epoch workerId).assignment t =
                drainInto now .ingesting := by
            funext row
            rw [hassign, if_neg hany]
          refine ⟨{ drained with
            ingestionEpisode := t.ingestionEpisode ++ [episode] }, ?_, ?_⟩
          · rw [hinsert]
            rfl
          · rw [hsame]
  · refine effect_of_absent rfl habsent ?_
    have hnone : ((t.conversation? conversationId).map fun row =>
        (row, t.hasUntagged conversationId)).filter
          (fun pair => decide (pair.1.lifecycleEpoch = epoch)) = none := by
      simpa [Option.filter_eq_none_iff] using habsent
    simp only [LifecycleOp.run, drainCompactionExit, run_immediately,
      Program.run_bind, Program.run_read_quiet, Program.andThen_ok, Conn.view,
      Option.getD_some, hnone, Program.run_rollback_quiet, Program.run_pure]
    rfl

theorem run_effect (op : LifecycleOp) (t : Tables) (n : Nat) :
    op.Effect t n := by
  cases op with
  | upsertConversation now tenantId conversationId =>
      refine ⟨t.upsertConversation now tenantId conversationId, ?_,
        fun _ => rfl⟩
      simp [LifecycleOp.run, upsertConversation, run_withConn]
  | markConversationDeleted now conversationId =>
      exact markConversationDeleted_effect now conversationId t n
  | deleteConversation conversationId =>
      exact deleteConversation_effect conversationId t n
  | incrementLifecycleEpochOnResurrect now conversationId =>
      exact incrementLifecycleEpochOnResurrect_effect now conversationId t n
  | updateRequestMetadata now conversationId epoch lastRaw lastIngestible =>
      exact effect_of_update rfl (fun _ => rfl) ⟨_, run_guarded _ _ _, rfl⟩
  | widenPendingRawPayloadEntries conversationId epoch value =>
      exact effect_of_update rfl (fun _ => rfl) ⟨_, run_guarded _ _ _, rfl⟩
  | setPhase now conversationId epoch phase =>
      exact effect_of_update rfl (fun _ => rfl) ⟨_, run_guarded _ _ _, rfl⟩
  | setPhaseAndDrainPendingRaw now conversationId epoch newPhase =>
      exact setPhaseAndDrainPendingRaw_effect now conversationId epoch newPhase
        t n
  | drainCompactionExit now episodeId conversationId epoch workerId =>
      exact drainCompactionExit_effect now episodeId conversationId epoch
        workerId t n
  | upsertIngestionEpisode now episodeId conversationId epoch workerId entries =>
      exact effect_of_leaves (fun _ => rfl) nofun
        (upsertIngestionEpisode_leaves now episodeId conversationId epoch
          workerId entries)
  | claimIngestionLease now cutoff conversationId epoch workerId =>
      exact effect_of_leaves (fun _ => rfl) nofun (episodes_leave _ _ _)
  | completeIngestionEpisode now conversationId epoch workerId =>
      exact effect_of_leaves (fun _ => rfl) nofun (episodes_leave _ _ _)
  | startCompactionOperation now operationId conversationId epoch workerId
      phaseCount phaseName =>
      exact effect_of_leaves (fun _ => rfl) nofun
        (startCompactionOperation_leaves now operationId conversationId epoch
          workerId phaseCount phaseName)
  | claimCompactionLease now cutoff conversationId epoch workerId =>
      exact effect_of_leaves (fun _ => rfl) nofun
        (claimCompactionLease_leaves now cutoff conversationId epoch workerId)
  | advanceCompactionPhase now conversationId epoch workerId phaseIndex
      phaseName =>
      exact effect_of_leaves (fun _ => rfl) nofun (operations_leave _ _ _)
  | completeCompactionOperation now conversationId epoch workerId =>
      exact effect_of_leaves (fun _ => rfl) nofun (operations_leave _ _ _)
  | elsewhere change => exact ⟨_, rfl, fun _ => rfl⟩

end Run

/-! ## The fence -/

theorem assignment_lifecycleEpoch (op : LifecycleOp) (t : Tables)
    (row : ConversationRecord) :
    (op.assignment t row).lifecycleEpoch = row.lifecycleEpoch := by
  cases op with
  | drainCompactionExit =>
      simp only [LifecycleOp.assignment]
      split_ifs <;> rfl
  | _ => rfl

/-- How a call changes the epoch and the phase of a row. -/
def LifecycleOp.Moves (op : LifecycleOp) (t : Tables)
    (row row' : ConversationRecord) : Prop :=
  row'.lifecycleEpoch = row.lifecycleEpoch ∧
      (row'.phase = row.phase ∨ row'.phase = .deleted) ∨
    row.lifecycleEpoch < row'.lifecycleEpoch ∨
    op.carries = some (row.conversationId, row.lifecycleEpoch) ∧
      row' = op.assignment t row

theorem exists_moves {op : LifecycleOp} {t : Tables}
    {found : Option ConversationRecord} {row' : ConversationRecord}
    {p : ConversationRecord → Bool}
    {f : ConversationRecord → ConversationRecord}
    (h : found.map (rewriteWhere p f) = some row')
    (hf : ∀ row, p row = true → op.Moves t row (f row)) :
    ∃ row, found = some row ∧ op.Moves t row row' := by
  obtain ⟨row, hrow, rfl⟩ := Option.map_eq_some_iff.mp h
  refine ⟨row, hrow, ?_⟩
  unfold rewriteWhere
  split_ifs with hp
  · exact hf row hp
  · exact .inl ⟨rfl, .inl rfl⟩

theorem upsertConversation_existing {t : Tables} (now tenantId : String)
    {conversationId : ConversationId}
    (h : (t.conversation? conversationId).isSome) (other : ConversationId) :
    (LifecycleOp.upsertConversation now tenantId conversationId).rowAfter t
        other =
      (t.conversation? other).map (rewriteWhere
        (·.conversationId = conversationId) ({ · with updatedAt := now })) := by
  simp only [LifecycleOp.rowAfter, Tables.upsertConversation, if_pos h]
  rw [← conversation_update t (·.conversationId = conversationId)
    ({ · with updatedAt := now }) (fun _ => rfl)]
  congr 2
  refine List.map_congr_left fun row _ => ?_
  simp only [rewriteWhere, decide_eq_true_eq]

theorem upsertConversation_missing {t : Tables} (now tenantId : String)
    {conversationId : ConversationId}
    (h : ¬ (t.conversation? conversationId).isSome) (other : ConversationId) :
    (LifecycleOp.upsertConversation now tenantId conversationId).rowAfter t
        other =
      (t.conversation? other).or (if conversationId = other then
        some { conversationId := conversationId
               tenantId := tenantId
               createdAt := now
               updatedAt := now } else none) := by
  simp only [LifecycleOp.rowAfter, Tables.upsertConversation, if_neg h]
  simp only [Tables.conversation?, List.find?_append]
  congr 1
  by_cases hother : conversationId = other <;> simp [hother]

/-- What one call does to the fence of a conversation. -/
theorem rowAfter_cases {op : LifecycleOp} {t : Tables} {other : ConversationId}
    {row' : ConversationRecord} (h : op.rowAfter t other = some row') :
    (t.conversation? other = none ∧
      (∃ now tenantId, op = .upsertConversation now tenantId other) ∧
      row'.lifecycleEpoch = 1 ∧ row'.phase = .init) ∨
    ∃ row, t.conversation? other = some row ∧ op.Moves t row row' := by
  have hguarded (hrowAfter : op.rowAfter t other =
      (t.conversation? other).map (rewriteWhere
        (fun row => op.carries = some (row.conversationId, row.lifecycleEpoch))
        (op.assignment t))) :
      ∃ row, t.conversation? other = some row ∧ op.Moves t row row' := by
    refine exists_moves (hrowAfter ▸ h) fun row hcarries => ?_
    exact .inr (.inr ⟨by simpa using hcarries, rfl⟩)
  cases op with
  | upsertConversation now tenantId conversationId =>
      by_cases hexists : (t.conversation? conversationId).isSome
      · rw [upsertConversation_existing now tenantId hexists other] at h
        exact .inr (exists_moves h fun row _ => .inl ⟨rfl, .inl rfl⟩)
      · rw [upsertConversation_missing now tenantId hexists other] at h
        cases hrow : t.conversation? other with
        | some row =>
            rw [hrow, Option.some_or] at h
            cases h
            exact .inr ⟨row', rfl, .inl ⟨rfl, .inl rfl⟩⟩
        | none =>
            rw [hrow, Option.none_or] at h
            split_ifs at h with hother
            cases h
            cases hother
            exact .inl ⟨rfl, ⟨now, tenantId, rfl⟩, rfl, rfl⟩
  | markConversationDeleted now conversationId =>
      exact .inr (exists_moves h fun row _ => .inl ⟨rfl, .inr rfl⟩)
  | deleteConversation conversationId =>
      change (if other = conversationId then none
        else t.conversation? other) = some row' at h
      split_ifs at h
      exact .inr ⟨row', h, .inl ⟨rfl, .inl rfl⟩⟩
  | incrementLifecycleEpochOnResurrect now conversationId =>
      refine .inr (exists_moves h fun row _ => .inr (.inl ?_))
      exact Int.lt_succ row.lifecycleEpoch
  | elsewhere change => exact .inr ⟨row', h, .inl ⟨rfl, .inl rfl⟩⟩
  | _ => exact .inr (hguarded rfl)

/--
A conversation keeps the epoch that it was deleted under as long as it stays
deleted, and has a later one otherwise.
-/
structure FenceInv (log : DeletionLog) : Prop where
  idle : ∃ t n, log.conn = .idle t n
  fenced : ∀ deletion ∈ log.deletions,
    ∀ row, log.row deletion.1 = some row →
      row.lifecycleEpoch = deletion.2 ∧ row.phase = .deleted ∨
        deletion.2 < row.lifecycleEpoch

theorem after_row {log : DeletionLog} (h : ∃ t n, log.conn = .idle t n)
    (op : LifecycleOp) (other : ConversationId) :
    (log.after op).row other = op.rowAfter log.conn.durable other := by
  obtain ⟨t, n, hconn⟩ := h
  obtain ⟨t', hrun, hrows⟩ := run_effect op t n
  simp only [DeletionLog.row, DeletionLog.after, hconn, hrun, Conn.durable_idle]
  exact hrows other

theorem after_idle {log : DeletionLog} (h : ∃ t n, log.conn = .idle t n)
    (op : LifecycleOp) : ∃ t n, (log.after op).conn = .idle t n := by
  obtain ⟨t, n, hconn⟩ := h
  obtain ⟨t', hrun, -⟩ := run_effect op t n
  exact ⟨t', n, by simp only [DeletionLog.after, hconn, hrun]⟩

/-- A deletion is recorded with the epoch the row has, and leaves it deleted. -/
theorem deletes_row {op : LifecycleOp} {t : Tables}
    {deletion : ConversationId × Int} (h : deletion ∈ op.deletes t)
    {row' : ConversationRecord} (hrow' : op.rowAfter t deletion.1 = some row') :
    row'.lifecycleEpoch = deletion.2 ∧ row'.phase = .deleted := by
  cases op with
  | markConversationDeleted now conversationId =>
      obtain ⟨deletion', hdeletion, rfl⟩ : ∃ row,
          t.conversation? conversationId = some row ∧
            (conversationId, row.lifecycleEpoch) = deletion := by
        simpa [LifecycleOp.deletes] using h
      change Option.map _ (t.conversation? conversationId) = _ at hrow'
      rw [hdeletion, Option.map_some, rewriteWhere,
        if_pos (by simp [conversation_found hdeletion])] at hrow'
      cases hrow'
      exact ⟨rfl, rfl⟩
  | deleteConversation conversationId =>
      obtain ⟨row, -, rfl⟩ : ∃ row,
          t.conversation? conversationId = some row ∧
            (conversationId, row.lifecycleEpoch) = deletion := by
        simpa [LifecycleOp.deletes] using h
      simp [LifecycleOp.rowAfter] at hrow'
  | _ => exact absurd h List.not_mem_nil

/-- On a deleted row, an assignment is idle exactly if its values are there. -/
theorem writesSame_iff {op : LifecycleOp} {t : Tables}
    {row : ConversationRecord} (hdeleted : row.phase = .deleted) :
    op.WritesSame t row ↔ op.assignment t row = row := by
  cases row
  simp only at hdeleted
  subst hdeleted
  cases op with
  | drainCompactionExit now episodeId conversationId epoch workerId =>
      simp only [LifecycleOp.WritesSame, LifecycleOp.assignment]
      split_ifs <;> simp_all [drainInto]
  | _ =>
      simp [LifecycleOp.WritesSame, LifecycleOp.assignment, drainInto, eq_comm]

theorem rowAfter_of_carries {op : LifecycleOp} {t : Tables}
    (h : op.carries ≠ none) (other : ConversationId) :
    op.rowAfter t other = (t.conversation? other).map (rewriteWhere
      (fun row => op.carries = some (row.conversationId, row.lifecycleEpoch))
      (op.assignment t)) := by
  cases op <;> first | rfl | exact absurd rfl h

theorem moves_lifecycleEpoch {op : LifecycleOp} {t : Tables}
    {row row' : ConversationRecord} (h : op.Moves t row row') :
    row.lifecycleEpoch ≤ row'.lifecycleEpoch := by
  rcases h with ⟨hepoch, -⟩ | hlater | ⟨-, rfl⟩
  · exact hepoch.ge
  · exact hlater.le
  · exact (assignment_lifecycleEpoch op t row).ge

/-- Under the invariant, a fenced call meets the condition. -/
theorem respectsFence_of_fenced {log : DeletionLog} (hinv : FenceInv log)
    {op : LifecycleOp} (h : Fenced log op) : RespectsFence log op := by
  have hrow := after_row hinv.idle op
  constructor
  · intro deletion hmem hcarries row hfound hepoch
    have hdeleted : row.phase = .deleted := by
      rcases hinv.fenced deletion hmem row hfound with ⟨-, hphase⟩ | hlater
      · exact hphase
      · omega
    have hstale := h.stale deletion hmem hcarries
    rw [hrow, rowAfter_of_carries (by simp [hcarries]), ← DeletionLog.row,
      hfound, Option.map_some, Option.some.injEq, rewriteWhere,
      if_pos (by simp [hcarries, conversation_found hfound, hepoch])] at hstale
    exact (writesSame_iff hdeleted).mpr hstale
  · rintro now tenantId conversationId rfl hmissing deletion hmem rfl
    have hcreated := upsertConversation_missing (t := log.conn.durable) now
      tenantId (by simpa [DeletionLog.row] using hmissing) deletion.1
    rw [← hrow, ← DeletionLog.row, hmissing, Option.none_or, if_pos rfl]
      at hcreated
    rcases h.later deletion (List.mem_append_left _ hmem) _ hcreated with
      hphase | hlater
    · cases hphase
    · exact hlater

/-- Under the invariant, a call that meets the condition is fenced. -/
theorem fenced_of_respectsFence {log : DeletionLog} (hinv : FenceInv log)
    {op : LifecycleOp} (h : RespectsFence log op) : Fenced log op := by
  have hrow := after_row hinv.idle op
  have hidle (deletion) (hmem : deletion ∈ log.deletions)
      (hcarries : op.carries = some deletion) (row)
      (hfound : log.row deletion.1 = some row)
      (hepoch : row.lifecycleEpoch = deletion.2) :
      op.assignment log.conn.durable row = row := by
    rcases hinv.fenced deletion hmem row hfound with ⟨-, hphase⟩ | hlater
    · exact (writesSame_iff hphase).mp
        (h.1 deletion hmem hcarries row hfound hepoch)
    · omega
  constructor
  · intro deletion hmem hcarries
    rw [hrow, rowAfter_of_carries (by simp [hcarries])]
    refine map_rewriteWhere_id _ fun row hfound hp => ?_
    rw [carries_eq_isAt hcarries] at hp
    exact hidle deletion hmem hcarries row hfound (by
      simpa [ConversationRecord.isAt, conversation_found hfound] using hp)
  · intro deletion hmem row' hrow'
    rw [hrow] at hrow'
    rcases List.mem_append.mp hmem with hmem | hmem
    · rcases rowAfter_cases hrow' with
        ⟨hmissing, ⟨now, tenantId, hop⟩, hepoch, -⟩ | ⟨row, hfound, hmoves⟩
      · right
        rw [hepoch]
        exact h.2 now tenantId deletion.1 hop hmissing deletion hmem rfl
      · have hle := moves_lifecycleEpoch hmoves
        rcases hinv.fenced deletion hmem row hfound with
          ⟨hepoch, hphase⟩ | hlater
        · rcases hmoves with ⟨-, hsame | hdeleted⟩ | hlater | ⟨hcarries, rfl⟩
          · exact .inl (hsame.trans hphase)
          · exact .inl hdeleted
          · exact .inr (hepoch ▸ hlater)
          · rw [conversation_found hfound, hepoch] at hcarries
            rw [hidle deletion hmem hcarries row hfound hepoch]
            exact .inl hphase
        · exact .inr (by omega)
    · exact .inl (deletes_row hmem hrow').2

/-- A fenced call keeps the invariant. -/
theorem fenceInv_after {log : DeletionLog} (hinv : FenceInv log)
    {op : LifecycleOp} (h : Fenced log op) : FenceInv (log.after op) := by
  refine ⟨after_idle hinv.idle op, fun deletion hmem row' hrow' => ?_⟩
  rcases h.later deletion hmem row' hrow' with hdeleted | hlater
  · rw [after_row hinv.idle] at hrow'
    rcases List.mem_append.mp hmem with hmem | hmem
    · rcases rowAfter_cases hrow' with ⟨-, -, -, hinit⟩ | ⟨row, hfound, hmoves⟩
      · cases hinit.symm.trans hdeleted
      · have hle := moves_lifecycleEpoch hmoves
        rcases hinv.fenced deletion hmem row hfound with
          ⟨hepoch, -⟩ | hlater
        · rcases (hepoch ▸ hle).eq_or_lt with heq | hlt
          · exact .inl ⟨heq.symm, hdeleted⟩
          · exact .inr hlt
        · exact .inr (by omega)
    · exact .inl (deletes_row hmem hrow')
  · exact .inr hlater

theorem fencedRun_iff_of_inv {log : DeletionLog} (hinv : FenceInv log)
    (ops : List LifecycleOp) : FencedRun log ops ↔ RespectsFenceRun log ops := by
  induction ops generalizing log with
  | nil => exact Iff.rfl
  | cons op ops ih =>
      unfold FencedRun RespectsFenceRun
      constructor
      · rintro ⟨hop, hops⟩
        exact ⟨respectsFence_of_fenced hinv hop,
          (ih (fenceInv_after hinv hop)).mp hops⟩
      · rintro ⟨hop, hops⟩
        have hfenced := fenced_of_respectsFence hinv hop
        exact ⟨hfenced, (ih (fenceInv_after hinv hfenced)).mpr hops⟩

/-- A run is fenced exactly if each of its calls meets the condition. -/
theorem fencedRun_iff (t : Tables) (n : Nat) (ops : List LifecycleOp) :
    FencedRun ⟨.idle t n, []⟩ ops ↔ RespectsFenceRun ⟨.idle t n, []⟩ ops :=
  fencedRun_iff_of_inv ⟨⟨t, n, rfl⟩, fun _ hmem => absurd hmem List.not_mem_nil⟩
    ops

/--
A worker of the deleted conversation still sets its phase, and a conversation
that is removed and created anew has the epoch of the removed one.
-/
theorem not_fencedRun :
    ¬ FencedRun ⟨.idle {} 0, []⟩
      [.upsertConversation "10:00" "t" "c", .markConversationDeleted "11:00" "c",
        .setPhase "12:00" "c" 1 .active] ∧
    ¬ FencedRun ⟨.idle {} 0, []⟩
      [.upsertConversation "10:00" "t" "c", .deleteConversation "c",
        .upsertConversation "12:00" "t" "c"] := by
  constructor
  · rintro ⟨-, -, hfenced, -⟩
    have hstale := hfenced.stale ("c", 1) (by decide) (by decide)
    exact absurd hstale (by decide)
  · rintro ⟨-, -, hfenced, -⟩
    have hlater := hfenced.later ("c", 1) (by decide)
    exact absurd (hlater { conversationId := "c"
                           tenantId := "t"
                           createdAt := "12:00"
                           updatedAt := "12:00" } (by decide)) (by decide)

end VirtualContext
