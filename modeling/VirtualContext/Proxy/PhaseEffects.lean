import VirtualContext.Proxy.PhaseMachine
import VirtualContext.Storage.EpochFence

/-!
# What the steps of the phase machine do

One case for each kind of statement: what it writes, and what is left of the
call that issued it.
-/

namespace VirtualContext

open VirtualContext.Library
open VirtualContext.Library.Program

/-! ## Statements with a guard -/

section Run

variable {t : Tables} {n : Nat} {α : Type}

theorem any_congr_of_mem {β : Type} {l : List β} {p q : β → Bool}
    (h : ∀ b ∈ l, p b = q b) : l.any p = l.any q := by
  induction l with
  | nil => rfl
  | cons b l ih =>
      obtain ⟨hb, hl⟩ := List.forall_mem_cons.mp h
      rw [List.any_cons, List.any_cons, hb, ih hl]

theorem run_conversationUpdate (p : ConversationRecord → Bool)
    (f : ConversationRecord → ConversationRecord) (answer : Nat → α) :
    (withConn .conversations do
        let rowcount ← updateConversations p f
        pure (answer rowcount) : StoreProgram α).run .quiet (.idle t n) =
      (.ok (answer (t.conversations.filter p).length),
        .idle { t with conversations := t.conversations.map (rewriteWhere p f) }
          n) := by
  simp [run_withConn, run_updateConversations]

theorem run_operationUpdate (p : Tables → CompactionOperationRecord → Bool)
    (f : CompactionOperationRecord → CompactionOperationRecord)
    (c : Conn Tables) :
    (updateOperations p f).run .quiet c =
      (.ok (c.view.compactionOperation.filter (p c.view)).length,
        c.store { c.view with
          compactionOperation := c.view.compactionOperation.map fun row =>
            if p c.view row then f row else row }) := by
  simp only [updateOperations, Program.run_write_quiet]

theorem run_ownerUpdate (p : Tables → CompactionOperationRecord → Bool)
    (f : CompactionOperationRecord → CompactionOperationRecord)
    (answer : Nat → α) :
    (withConn .compactionOperation do
        let rowcount ← updateOperations p f
        pure (answer rowcount) : StoreProgram α).run .quiet (.idle t n) =
      (.ok (answer (t.compactionOperation.filter (p t)).length),
        .idle { t with
          compactionOperation := t.compactionOperation.map fun row =>
            if p t row then f row else row } n) := by
  simp only [run_withConn, Program.run_bind, run_operationUpdate,
    Program.andThen_ok, Program.run_pure]
  rfl

end Run

namespace PhaseMachine

variable {s s' : PhaseMachine}

/-! ## The conversation -/

def row (s : PhaseMachine) : Option ConversationRecord :=
  s.tables.conversation? s.conversationId

def phase (s : PhaseMachine) : Option Phase := s.row.map (·.phase)

def pendingRaw (s : PhaseMachine) : Int :=
  (s.row.map (·.pendingRawPayloadEntries)).getD 0

def hasUntagged (s : PhaseMachine) : Bool :=
  s.tables.hasUntagged s.conversationId

/-- A running ingestion episode. -/
def ingests (s : PhaseMachine) : Bool :=
  s.tables.ingestionEpisode.any (·.runsAt s.conversationId s.epoch)

/-- An active compaction operation. -/
def compacts (s : PhaseMachine) : Bool :=
  s.tables.compactionOperation.any (·.activeAt s.conversationId s.epoch)

/-- The keys of the tables, and the epoch that all calls carry. -/
structure Wf (s : PhaseMachine) : Prop where
  row : ∃ row, s.tables.conversations.filter
    (·.conversationId = s.conversationId) = [row] ∧ row.lifecycleEpoch = s.epoch
  operationIds : (s.tables.compactionOperation.map (·.operationId)).Nodup

/-- The UPDATE of the conversation that the guarded writes share. -/
def rewrite (s : PhaseMachine) (f : ConversationRecord → ConversationRecord) :
    Tables :=
  { s.tables with
    conversations := s.tables.conversations.map
      (rewriteWhere (·.isAt s.conversationId s.epoch) f) }

/-- Columns of the key are not assigned. -/
def KeepsKey (f : ConversationRecord → ConversationRecord) : Prop :=
  ∀ row, (f row).conversationId = row.conversationId ∧
    (f row).lifecycleEpoch = row.lifecycleEpoch

theorem keepsKey_setPhase (now : String) (phase : Phase) :
    KeepsKey fun row => { row with phase := phase, updatedAt := now } :=
  fun _ => ⟨rfl, rfl⟩

theorem keepsKey_drainInto (now : String) (phase : Phase) :
    KeepsKey (drainInto now phase) :=
  fun _ => ⟨rfl, rfl⟩

theorem Wf.row_eq (h : s.Wf) :
    ∃ row, s.row = some row ∧ row.conversationId = s.conversationId ∧
      row.lifecycleEpoch = s.epoch := by
  obtain ⟨row, hrow, hepoch⟩ := h.row
  have hmem : row ∈ s.tables.conversations.filter
      (·.conversationId = s.conversationId) := by simp [hrow]
  refine ⟨row, ?_, by simpa using (List.mem_filter.mp hmem).2, hepoch⟩
  rw [PhaseMachine.row, Tables.conversation?, ← List.head?_filter, hrow]
  rfl

/-- The guard of the epoch finds the row. -/
theorem Wf.filter_isAt (h : s.Wf) :
    (s.tables.conversations.filter
      (·.isAt s.conversationId s.epoch)).length = 1 := by
  obtain ⟨row, hrow, hepoch⟩ := h.row
  have hfilter : s.tables.conversations.filter
      (·.isAt s.conversationId s.epoch) =
      (s.tables.conversations.filter (·.conversationId = s.conversationId)).filter
        (·.lifecycleEpoch = s.epoch) := by
    rw [List.filter_filter]
    refine List.filter_congr fun row _ => ?_
    rw [ConversationRecord.isAt, Bool.and_comm]
  rw [hfilter, hrow]
  simp [hepoch]

theorem row_rewrite (h : s.Wf) {f : ConversationRecord → ConversationRecord}
    (hf : KeepsKey f) :
    (s.rewrite f).conversation? s.conversationId = s.row.map f := by
  rw [rewrite, conversation_update _ _ _ fun row => (hf row).1]
  obtain ⟨row, hrow, hid, hepoch⟩ := h.row_eq
  have hat : row.isAt s.conversationId s.epoch = true := by
    simp [ConversationRecord.isAt, hid, hepoch]
  change s.row.map _ = s.row.map f
  rw [hrow]
  simp [rewriteWhere, hat]

theorem Wf.rewrite_row (h : s.Wf) {f : ConversationRecord → ConversationRecord}
    (hf : KeepsKey f) :
    ∃ row, (s.rewrite f).conversations.filter
      (·.conversationId = s.conversationId) = [row] ∧
        row.lifecycleEpoch = s.epoch := by
  obtain ⟨row, hrow, hepoch⟩ := h.row
  refine ⟨rewriteWhere (·.isAt s.conversationId s.epoch) f row, ?_, ?_⟩
  · rw [rewrite, List.filter_map]
    have hkeep : ((fun row : ConversationRecord =>
        decide (row.conversationId = s.conversationId)) ∘
          rewriteWhere (·.isAt s.conversationId s.epoch) f) =
        fun row => decide (row.conversationId = s.conversationId) := by
      funext row
      simp only [Function.comp_apply, rewriteWhere]
      split_ifs
      · rw [(hf row).1]
      · rfl
    rw [hkeep, hrow]
    rfl
  · unfold rewriteWhere
    split_ifs
    · rw [(hf row).2, hepoch]
    · exact hepoch

/-! ## What a statement leaves -/

section Issue

variable {α : Type} {program : StoreProgram α} {next : α → Option PhaseCall}

theorem issue_ok {value : α} {c : Conn Tables}
    (h : program.run .quiet (.idle s.tables 0) = (.ok value, c)) :
    s.issue program next = (c.durable, next value) := by
  rw [issue, h]

theorem issue_error {raised : Raised Site Exc} {c : Conn Tables}
    (h : program.run .quiet (.idle s.tables 0) = (.error raised, c)) :
    s.issue program next = (c.durable, none) := by
  rw [issue, h]

theorem issue_tables (program : StoreProgram α)
    (next : α → Option PhaseCall) :
    (s.issue program next).1 =
      (program.run .quiet (.idle s.tables 0)).2.durable := by
  unfold issue
  split <;> simp [*]

end Issue

/-- The statement writes a phase other than `compacting`. -/
def movesPhase : PhaseCall → Bool
  | .orphanRepair _ | .setActive | .setIngesting _ | .drain => true
  | _ => false

/-- A write was made, and the one that belongs to it is still to come. -/
def betweenWrites : PhaseCall → Bool
  | .startOperation .. | .drain => true
  | .cleanup _ _ _ statements =>
      decide (CleanupStatement.insertOperation ∈ statements)
  | _ => false

/-- A terminal status other than those of takeovers and resurrections. -/
def isEnded (row : CompactionOperationRecord) : Bool :=
  row.status = .completed || row.status = .failed

/-- What the next statement of a call leaves, and what is left of the call. -/
inductive Advanced (s : PhaseMachine) (worker : String) :
    PhaseCall → Tables → Option PhaseCall → Prop where
  /-- Nothing is written. -/
  | read {call rest} (hmoves : movesPhase call = false)
      (hbetween : betweenWrites call = false) :
      Advanced s worker call s.tables rest
  | setPhase {call rest} (now : String) (phase : Phase)
      (hmoves : movesPhase call = decide (phase ≠ .compacting))
      (hdrain : call ≠ .drain) (hbetween : betweenWrites call = false)
      (hrest : phase = .compacting → ∃ next ∈ rest, betweenWrites next = true) :
      Advanced s worker call
        (s.rewrite fun row => { row with phase := phase, updatedAt := now }) rest
  /-- Columns of the conversation other than its phase, which only grow. -/
  | conversation {call rest} (f : ConversationRecord → ConversationRecord)
      (hkey : KeepsKey f) (hphase : ∀ row, (f row).phase = row.phase)
      (hpending : ∀ row : ConversationRecord,
        row.pendingRawPayloadEntries ≤ (f row).pendingRawPayloadEntries)
      (hmoves : movesPhase call = false) (hbetween : betweenWrites call = false) :
      Advanced s worker call (s.rewrite f) rest
  /-- No operation ends but one of the worker's own. -/
  | operations {call rest}
      (f : CompactionOperationRecord → CompactionOperationRecord)
      (hid : ∀ row, (f row).operationId = row.operationId)
      (hended : ∀ row, isEnded (f row) = true →
        isEnded row = true ∨ row.ownerWorkerId = worker)
      (hactive : s.compacts = true →
        (s.tables.compactionOperation.map f).any
          (·.activeAt s.conversationId s.epoch) = true ∨
        ∃ next ∈ rest, betweenWrites next = true)
      (hmoves : movesPhase call = false) (hbetween : betweenWrites call = false) :
      Advanced s worker call
        { s.tables with
          compactionOperation := s.tables.compactionOperation.map f } rest
  | started {call rest} (operation : CompactionOperationRecord)
      (hactive : operation.activeAt s.conversationId s.epoch = true)
      (hnew : operation.operationId ∉
        s.tables.compactionOperation.map (·.operationId))
      (hmoves : movesPhase call = false) :
      Advanced s worker call
        { s.tables with
          compactionOperation := s.tables.compactionOperation ++ [operation] } rest
  /-- The INSERT of an operation raises at the index. -/
  | rejected {call} (hactive : s.compacts = true)
      (hmoves : movesPhase call = false) :
      Advanced s worker call s.tables none
  /-- Neither the conversation nor the operations are written. -/
  | elsewhere {call rest} (tables : Tables)
      (hconversations : tables.conversations = s.tables.conversations)
      (hoperations : tables.compactionOperation = s.tables.compactionOperation)
      (hmoves : movesPhase call = false)
      (hbetween : betweenWrites call = true →
        ∃ next ∈ rest, betweenWrites next = true) :
      Advanced s worker call tables rest
  | drained (now : String) (hsettled : s.hasUntagged = false) :
      Advanced s worker .drain (s.rewrite (drainInto now .active)) none
  | drainedInto (now : String) (episode : IngestionEpisodeRecord)
      (huntagged : s.hasUntagged = true) (halone : s.ingests = false)
      (hruns : episode.runsAt s.conversationId s.epoch = true) :
      Advanced s worker .drain
        { s.rewrite (drainInto now .ingesting) with
          ingestionEpisode := s.tables.ingestionEpisode ++ [episode] } none
  /-- The INSERT of the episode raises at the index. -/
  | drainRaised (huntagged : s.hasUntagged = true) (hruns : s.ingests = true) :
      Advanced s worker .drain s.tables none

/-! ## The statements one by one -/

section Statements

variable {worker : String}

theorem isNew_iff {id : String} : s.isNew id = true ↔
    (∀ row ∈ s.tables.compactionOperation, row.operationId ≠ id) ∧
      ∀ row ∈ s.tables.ingestionEpisode, row.episodeId ≠ id := by
  simp [isNew]

theorem issue_guarded (h : s.Wf) (f : ConversationRecord → ConversationRecord)
    (next : Bool → Option PhaseCall) :
    s.issue (withConn .conversations do
        let rowcount ← updateConversations (·.isAt s.conversationId s.epoch) f
        pure (decide (rowcount = 1))) next = (s.rewrite f, next true) := by
  have hrun := run_conversationUpdate (t := s.tables) (n := 0)
    (·.isAt s.conversationId s.epoch) f fun rowcount => decide (rowcount = 1)
  rw [h.filter_isAt] at hrun
  exact issue_ok hrun

theorem issue_setPhase (h : s.Wf) (now : String) (phase : Phase)
    (next : Bool → Option PhaseCall) :
    s.issue (setPhase now s.conversationId s.epoch phase) next =
      (s.rewrite fun row => { row with phase := phase, updatedAt := now },
        next true) :=
  issue_guarded h _ next

/-- The three ways in which a drain ends. -/
theorem run_drain (h : s.Wf) (worker now : String) {episodeId : String}
    (hnew : s.isNew episodeId) :
    (s.hasUntagged = false ∧
      (drainCompactionExit now episodeId s.conversationId s.epoch worker).run
          .quiet (.idle s.tables 0) =
        (.ok (some .active), .idle (s.rewrite (drainInto now .active)) 0)) ∨
    (s.hasUntagged = true ∧ s.ingests = false ∧
      ∃ episode, episode.runsAt s.conversationId s.epoch = true ∧
        (drainCompactionExit now episodeId s.conversationId s.epoch worker).run
            .quiet (.idle s.tables 0) =
          (.ok (some .ingesting), .idle { s.rewrite (drainInto now .ingesting) with
            ingestionEpisode := s.tables.ingestionEpisode ++ [episode] } 0)) ∨
    (s.hasUntagged = true ∧ s.ingests = true ∧
      (drainCompactionExit now episodeId s.conversationId s.epoch worker).run
          .quiet (.idle s.tables 0) =
        (.error ⟨.ingestionEpisode, .integrityError⟩, .idle s.tables 0)) := by
  obtain ⟨row, hrow, -, hepoch⟩ := h.row_eq
  have hfound : ((s.tables.conversation? s.conversationId).map fun row =>
      (row, s.tables.hasUntagged s.conversationId)).filter
        (fun pair => decide (pair.1.lifecycleEpoch = s.epoch)) =
      some (row, s.hasUntagged) := by
    rw [show s.tables.conversation? s.conversationId = some row from hrow]
    simp [hepoch, hasUntagged]
  simp only [drainCompactionExit, run_immediately, Program.run_bind,
    Program.run_read_quiet, Program.andThen_ok, Conn.view, Option.getD_some, hfound]
  cases huntagged : s.hasUntagged with
  | false =>
      refine .inl ⟨rfl, ?_⟩
      simp only [Program.run_bind, run_updateConversations, Program.andThen_ok,
        Program.run_commit_quiet, Program.run_pure]
      rfl
  | true =>
      refine .inr ?_
      let episode : IngestionEpisodeRecord :=
        { episodeId := episodeId
          conversationId := s.conversationId
          lifecycleEpoch := s.epoch
          rawPayloadEntries := row.pendingRawPayloadEntries
          startedAt := now
          status := .running
          ownerWorkerId := worker
          heartbeatTs := now }
      have hupdate := run_updateConversations (·.isAt s.conversationId s.epoch)
        (drainInto now .ingesting) ⟨s.tables, some s.tables, 0⟩
      change _ = (_, (⟨s.tables, some (s.rewrite (drainInto now .ingesting)), 0⟩ :
        Conn Tables)) at hupdate
      have hrejects : (s.rewrite (drainInto now .ingesting)).rejectsEpisode episode =
          s.ingests := by
        have hdrained := drained_rejects (p := (·.isAt s.conversationId s.epoch))
          (f := drainInto now .ingesting) (fun _ => rfl) hrow episode rfl
        rw [rewrite, hdrained, ingests]
        refine any_congr_of_mem fun other hother => ?_
        simp [episode, (isNew_iff.1 hnew).2 other hother]
      simp only [Program.run_bind, hupdate, Program.andThen_ok]
      cases hruns : s.ingests with
      | false =>
          have hinsert := (run_insertEpisode episode
            ⟨s.tables, some (s.rewrite (drainInto now .ingesting)), 0⟩).trans
              (if_neg (Bool.not_eq_true _ ▸ hrejects.trans hruns))
          refine .inl ⟨trivial, rfl, episode, ?_, ?_⟩
          · simp [episode, IngestionEpisodeRecord.runsAt]
          · rw [hinsert]
            rfl
      | true =>
          have hinsert := (run_insertEpisode episode
            ⟨s.tables, some (s.rewrite (drainInto now .ingesting)), 0⟩).trans
              (if_pos (hrejects.trans hruns))
          refine .inr ⟨trivial, rfl, ?_⟩
          rw [hinsert]
          rfl

/-- The INSERT of an operation with a new identifier. -/
theorem insertOperation_cases (h : s.Wf) {operation : CompactionOperationRecord}
    (hactive : operation.activeAt s.conversationId s.epoch = true)
    (hnew : s.isNew operation.operationId = true) :
    (s.compacts = true ∧
      (insertOperation operation).run .quiet (.idle s.tables 0) =
        (.error ⟨.compactionOperation, .integrityError⟩, .idle s.tables 0)) ∨
    (insertOperation operation).run .quiet (.idle s.tables 0) =
      (.ok (), .idle { s.tables with
        compactionOperation := s.tables.compactionOperation ++ [operation] } 0) := by
  obtain ⟨row, hrow, -⟩ := h.row_eq
  have hat : operation.conversationId = s.conversationId ∧
      operation.lifecycleEpoch = s.epoch := by
    simp only [CompactionOperationRecord.activeAt, Bool.and_eq_true,
      decide_eq_true_eq] at hactive
    exact ⟨hactive.1.1, hactive.2⟩
  have hrejects : s.tables.rejectsOperation operation = s.compacts := by
    rw [Tables.rejectsOperation, hat.1, hat.2,
      show s.tables.conversation? s.conversationId = some row from hrow, compacts]
    refine (Bool.false_or _).trans (any_congr_of_mem fun other hother => ?_)
    simp [(isNew_iff.1 hnew).1 other hother]
  cases hcompacts : s.compacts with
  | true =>
      exact .inl ⟨rfl, (run_insertOperation operation _).trans
        (if_pos (hrejects.trans hcompacts))⟩
  | false =>
      exact .inr ((run_insertOperation operation _).trans
        (if_neg (Bool.not_eq_true _ ▸ hrejects.trans hcompacts)))

theorem not_mem_operationIds {id : String} (h : s.isNew id = true) :
    id ∉ s.tables.compactionOperation.map (·.operationId) := by
  intro hmem
  obtain ⟨row, hrow, hid⟩ := List.mem_map.mp hmem
  exact (isNew_iff.1 h).1 row hrow hid

/-- The operations after an UPDATE that leaves them active, or ends the owner's. -/
theorem any_activeAt_map {ops : List CompactionOperationRecord}
    {conversationId : ConversationId} {epoch : Int}
    {f : CompactionOperationRecord → CompactionOperationRecord}
    (hf : ∀ row, row.activeAt conversationId epoch = true →
      (f row).activeAt conversationId epoch = true)
    (h : ops.any (·.activeAt conversationId epoch) = true) :
    (ops.map f).any (·.activeAt conversationId epoch) = true := by
  obtain ⟨row, hrow, hactive⟩ := List.any_eq_true.mp h
  exact List.any_eq_true.mpr ⟨f row, List.mem_map_of_mem hrow, hf row hactive⟩

theorem upsertEpisode_tables (worker now episodeId : String) (entries : Int)
    (next : Unit → Option PhaseCall) :
    ∃ episodes, (s.issue (upsertIngestionEpisode now episodeId s.conversationId
      s.epoch worker entries) next).1 =
        { s.tables with ingestionEpisode := episodes } := by
  rw [issue_tables, upsertIngestionEpisode, run_withConn]
  simp only [Program.run_bind, Program.run_read_quiet, Program.andThen_ok]
  split_ifs
  · obtain ⟨episodes, rowcount, hrun⟩ := run_updateEpisodes
      (fun _ row => row.runsAt s.conversationId s.epoch)
      (fun row => { row with
        rawPayloadEntries := max row.rawPayloadEntries entries })
      (.idle s.tables 0)
    exact ⟨episodes, by simp [hrun]⟩
  · rw [run_insertEpisode]
    split_ifs
    · exact ⟨_, rfl⟩
    · exact ⟨_, rfl⟩

theorem updateEpisodes_tables (p : Tables → IngestionEpisodeRecord → Bool)
    (f : IngestionEpisodeRecord → IngestionEpisodeRecord)
    (next : Bool → Option PhaseCall) :
    ∃ episodes, (s.issue (withConn .ingestionEpisode do
      let rowcount ← updateEpisodes p f
      pure (decide (rowcount = 1))) next).1 =
        { s.tables with ingestionEpisode := episodes } := by
  obtain ⟨episodes, rowcount, hrun⟩ := run_updateEpisodes p f (.idle s.tables 0)
  refine ⟨episodes, ?_⟩
  rw [issue_tables]
  simp [run_withConn, hrun]

theorem getConversationPhase_tables (next : Phase → Option PhaseCall) :
    (s.issue (getConversationPhase s.conversationId) next).1 = s.tables := by
  rw [issue_tables, getConversationPhase]
  simp only [Program.run_bind, Program.run_read_quiet, Program.andThen_ok]
  cases (Conn.idle s.tables 0).view.conversation? s.conversationId <;> rfl

theorem readProgressSnapshot_tables (next : ProgressSnapshot → Option PhaseCall) :
    (s.issue (readProgressSnapshot s.conversationId) next).1 = s.tables := by
  rw [issue_tables, readProgressSnapshot]
  simp only [Program.run_bind, Program.run_read_quiet, Program.andThen_ok]
  cases (Conn.idle s.tables 0).view.conversation? s.conversationId <;> rfl

/-! The statements that change operations. -/

theorem ownsActive_owner {conversationId : ConversationId} {epoch : Int}
    {t : Tables} {row : CompactionOperationRecord}
    (h : ownsActive conversationId epoch worker t row = true) :
    row.ownerWorkerId = worker := by
  simp only [ownsActive, Bool.and_eq_true, decide_eq_true_eq] at h
  exact h.2

theorem advanced_endOperation (success : Bool) (errorMessage : Option String)
    (input : StatementInput) :
    Advanced s worker (.endOperation success errorMessage)
      (s.advance worker input (.endOperation success errorMessage)).1
      (s.advance worker input (.endOperation success errorMessage)).2 := by
  -- both terminal writes set columns of the operations that the worker owns
  suffices hends : ∀ g : CompactionOperationRecord → CompactionOperationRecord,
      (∀ row, (g row).operationId = row.operationId) →
      Advanced s worker (.endOperation success errorMessage)
        { s.tables with
          compactionOperation := s.tables.compactionOperation.map fun row =>
            if ownsActive s.conversationId s.epoch worker s.tables row then g row
            else row } (some .drain) by
    cases success with
    | true =>
        simp only [advance, completeCompactionOperation]
        rw [issue_ok (run_ownerUpdate _ _ _)]
        exact hends _ fun _ => rfl
    | false =>
        simp only [advance, failCompactionOperation]
        rw [issue_ok (run_ownerUpdate _ _ _)]
        exact hends _ fun _ => rfl
  intro g hg
  refine .operations _ (fun row => ?_) (fun row hended => ?_)
    (fun _ => .inr ⟨.drain, rfl, rfl⟩) rfl rfl
  · split_ifs
    · exact hg row
    · rfl
  · split_ifs at hended with howns
    · exact .inr (ownsActive_owner howns)
    · exact .inl hended

theorem advanced_startOperation (h : s.Wf) (phaseCount : Int) (phaseName : String)
    (input : StatementInput) (hnew : s.isNew input.uuid = true) :
    Advanced s worker (.startOperation phaseCount phaseName)
      (s.advance worker input (.startOperation phaseCount phaseName)).1
      (s.advance worker input (.startOperation phaseCount phaseName)).2 := by
  simp only [advance, startCompactionOperation]
  let operation : CompactionOperationRecord :=
    { operationId := input.uuid
      conversationId := s.conversationId
      lifecycleEpoch := s.epoch
      phaseCount := phaseCount
      phaseName := phaseName
      status := .queued
      startedAt := input.now
      ownerWorkerId := worker
      heartbeatTs := input.now }
  have hactive : operation.activeAt s.conversationId s.epoch = true := by
    simp [CompactionOperationRecord.activeAt, CompactionOperationRecord.active, operation]
  have hid : operation.operationId = input.uuid := rfl
  rcases insertOperation_cases h hactive (hid ▸ hnew) with ⟨hcompacts, hrun⟩ | hrun
  · rw [issue_error (by rw [run_withConn, Program.run_bind, hrun]; rfl)]
    exact .rejected hcompacts rfl
  · rw [issue_ok (by rw [run_withConn, Program.run_bind, hrun]; rfl)]
    exact .started operation hactive (not_mem_operationIds hnew) rfl

theorem advanced_claimLease (newRaw : Int) (prevOperationId : Option String)
    (input : StatementInput) :
    Advanced s worker (.claimLease newRaw prevOperationId)
      (s.advance worker input (.claimLease newRaw prevOperationId)).1
      (s.advance worker input (.claimLease newRaw prevOperationId)).2 := by
  simp only [advance, updateCompactionLease]
  rw [issue_ok (run_operationUpdate _ _ _)]
  refine .operations _ (fun row => ?_) (fun row hended => ?_) (fun h => ?_) rfl rfl
  · split_ifs <;> rfl
  · split_ifs at hended <;> exact .inl hended
  · refine .inl (any_activeAt_map (fun row hrow => ?_) h)
    split_ifs
    · exact hrow
    · exact hrow

/-- The WHERE clause by which a takeover ends an operation. -/
def isDead (s : PhaseMachine) (worker deadOperationId : String)
    (input : StatementInput) (row : CompactionOperationRecord) : Bool :=
  let args := s.cleanupArgs worker deadOperationId input
  row.operationId = args.deadOperationId &&
    row.conversationId = args.conversationId &&
    row.lifecycleEpoch = args.lifecycleEpoch && row.status = .running

theorem mem_cleanupStatements {freshTakeover : Bool} :
    CleanupStatement.insertOperation ∈ cleanupStatements freshTakeover ↔
      freshTakeover = true := by
  cases freshTakeover <;> decide

theorem advanced_abandon (newRaw : Int) (deadOperationId : String)
    (input : StatementInput) :
    Advanced s worker (.abandon newRaw deadOperationId)
      (s.advance worker input (.abandon newRaw deadOperationId)).1
      (s.advance worker input (.abandon newRaw deadOperationId)).2 := by
  simp only [advance, abandonOperation]
  rw [issue_ok (by
    rw [Program.run_bind, run_operationUpdate, Program.andThen_ok,
      Program.run_pure])]
  refine .operations _ (fun row => ?_) (fun row hended => ?_) (fun h => ?_) rfl rfl
  · split_ifs <;> rfl
  · split_ifs at hended with hdead
    · simp [isEnded] at hended
    · exact .inl hended
  · -- nothing is abandoned, or the INSERT is still to come
    by_cases hfresh : 0 < (s.tables.compactionOperation.filter
        (s.isDead worker deadOperationId input)).length
    · refine .inr ⟨_, rfl, ?_⟩
      simp only [betweenWrites, decide_eq_true_eq, mem_cleanupStatements]
      exact hfresh
    · have hnone := List.filter_eq_nil_iff.mp
        (List.eq_nil_of_length_eq_zero (Nat.eq_zero_of_not_pos hfresh))
      obtain ⟨row, hrow, hactive⟩ := List.any_eq_true.mp h
      refine .inl (List.any_eq_true.mpr ⟨row, List.mem_map.mpr
        ⟨row, hrow, if_neg (hnone row hrow)⟩, hactive⟩)

theorem advanced_cleanup (h : s.Wf) (newRaw : Int) (deadOperationId : String)
    (begun : StatementInput) (statement : CleanupStatement)
    (statements : List CleanupStatement) (input : StatementInput)
    (hnew : (newId input (.cleanup newRaw deadOperationId begun
      (statement :: statements))).all s.isNew = true) :
    Advanced s worker (.cleanup newRaw deadOperationId begun
        (statement :: statements))
      (s.advance worker input (.cleanup newRaw deadOperationId begun
        (statement :: statements))).1
      (s.advance worker input (.cleanup newRaw deadOperationId begun
        (statement :: statements))).2 := by
  have helsewhere : ∀ tables : Tables, tables.conversations = s.tables.conversations →
      tables.compactionOperation = s.tables.compactionOperation →
      statement ≠ .insertOperation →
      Advanced s worker (.cleanup newRaw deadOperationId begun
        (statement :: statements)) tables
          (some (.cleanup newRaw deadOperationId begun statements)) := by
    intro tables hconversations hoperations hne
    refine .elsewhere tables hconversations hoperations rfl fun hbetween =>
      ⟨_, rfl, ?_⟩
    simp only [betweenWrites, decide_eq_true_eq, List.mem_cons] at hbetween ⊢
    exact hbetween.resolve_left (Ne.symm hne)
  simp only [advance]
  cases statement with
  | insertOperation =>
      have hactive : (s.cleanupArgs worker deadOperationId begun).newOperation.activeAt
          s.conversationId s.epoch = true := by
        simp [CompactionOperationRecord.activeAt, CompactionOperationRecord.active,
          CleanupArgs.newOperation, cleanupArgs]
      rcases insertOperation_cases h hactive hnew with ⟨hcompacts, hrun⟩ | hrun
      · rw [CleanupStatement.program, issue_error hrun]
        exact .rejected hcompacts rfl
      · rw [CleanupStatement.program, issue_ok hrun]
        exact .started _ hactive (not_mem_operationIds hnew) rfl
  | _ =>
      rw [issue_ok (by
        rw [CleanupStatement.program, Program.run_update_quiet]
        all_goals nofun)]
      exact helsewhere _ rfl rfl nofun

theorem advanced (h : s.Wf) {input : StatementInput} {call : PhaseCall}
    (hnew : (newId input call).all s.isNew = true) :
    Advanced s worker call (s.advance worker input call).1
      (s.advance worker input call).2 := by
  cases call with
  | setCompacting phaseCount phaseName =>
      simp only [advance]
      rw [issue_setPhase h]
      exact .setPhase _ .compacting rfl nofun rfl fun _ => ⟨_, rfl, rfl⟩
  | startOperation phaseCount phaseName =>
      exact advanced_startOperation h phaseCount phaseName input hnew
  | endOperation success errorMessage =>
      exact advanced_endOperation success errorMessage input
  | drain =>
      simp only [advance]
      rcases run_drain h worker input.now hnew with
        ⟨hsettled, hrun⟩ | ⟨huntagged, halone, episode, hruns, hrun⟩ |
          ⟨huntagged, hruns, hrun⟩
      · rw [issue_ok hrun]
        exact .drained _ hsettled
      · rw [issue_ok hrun]
        exact .drainedInto _ episode huntagged halone hruns
      · rw [issue_error hrun]
        exact .drainRaised huntagged hruns
  | updateMetadata newRaw newIngestible =>
      simp only [advance, updateRequestMetadata]
      rw [issue_guarded h]
      exact .conversation _ (fun _ => ⟨rfl, rfl⟩) (fun _ => rfl)
        (fun _ => le_refl _) rfl rfl
  | widenPending newRaw =>
      simp only [advance, widenPendingRawPayloadEntries]
      rw [issue_guarded h]
      exact .conversation _ (fun _ => ⟨rfl, rfl⟩) (fun _ => rfl)
        (fun _ => le_max_left _ _) rfl rfl
  | phaseGate newRaw =>
      simp only [advance]
      rw [getConversationPhase_tables]
      exact .read rfl rfl
  | finalizePhase =>
      simp only [advance]
      rw [getConversationPhase_tables]
      exact .read rfl rfl
  | orphanCheck newRaw =>
      simp only [advance]
      rw [readProgressSnapshot_tables]
      exact .read rfl rfl
  | deriveProgress newRaw phase =>
      simp only [advance]
      rw [readProgressSnapshot_tables]
      exact .read rfl rfl
  | finalizeProgress =>
      simp only [advance]
      rw [readProgressSnapshot_tables]
      exact .read rfl rfl
  | orphanRepair newRaw =>
      simp only [advance]
      rw [issue_setPhase h]
      exact .setPhase _ .active rfl nofun rfl nofun
  | setActive =>
      simp only [advance]
      rw [issue_setPhase h]
      exact .setPhase _ .active rfl nofun rfl nofun
  | setIngesting newRaw =>
      simp only [advance]
      rw [issue_setPhase h]
      exact .setPhase _ .ingesting rfl nofun rfl nofun
  | readLease newRaw =>
      simp only [advance, readCompactionLease]
      rw [issue_ok (Program.run_read_quiet _ _ _)]
      exact .read rfl rfl
  | claimLease newRaw prevOperationId =>
      exact advanced_claimLease newRaw prevOperationId input
  | abandon newRaw deadOperationId =>
      exact advanced_abandon newRaw deadOperationId input
  | cleanup newRaw deadOperationId begun statements =>
      cases statements with
      | nil => exact .read rfl (by simp [betweenWrites])
      | cons statement statements =>
          exact advanced_cleanup h newRaw deadOperationId begun statement
            statements input hnew
  | upsertEpisode newRaw =>
      simp only [advance]
      obtain ⟨episodes, htables⟩ := upsertEpisode_tables (s := s) worker
        input.now input.uuid newRaw fun _ => some .claimIngestion
      rw [htables]
      exact .elsewhere _ rfl rfl rfl nofun
  | claimIngestion =>
      simp only [advance, claimIngestionLease]
      obtain ⟨episodes, htables⟩ := updateEpisodes_tables (s := s) _ _ _
      rw [htables]
      exact .elsewhere _ rfl rfl rfl nofun
  | finalizeClaim =>
      simp only [advance, claimIngestionLease]
      obtain ⟨episodes, htables⟩ := updateEpisodes_tables (s := s) _ _ _
      rw [htables]
      exact .elsewhere _ rfl rfl rfl nofun
  | completeEpisode =>
      simp only [advance, completeIngestionEpisode]
      obtain ⟨episodes, htables⟩ := updateEpisodes_tables (s := s) _ _ _
      rw [htables]
      exact .elsewhere _ rfl rfl rfl nofun

end Statements

/-! ## The steps -/

/-- What a step leaves. -/
inductive Stepped (s : PhaseMachine) (a : Step) : PhaseMachine → Prop where
  | began (calls : List WorkerCall) (haction : ∀ i, a.action ≠ .proceed i) :
      Stepped s a { s with calls := s.calls ++ calls }
  | advanced {i : Nat} {call : PhaseCall} {before after : List WorkerCall}
      {tables : Tables} {rest : Option PhaseCall} (haction : a.action = .proceed i)
      (hcall : s.calls[i]? = some ⟨a.worker, call⟩)
      (hcalls : s.calls = before ++ ⟨a.worker, call⟩ :: after)
      (hadvanced : Advanced s a.worker call tables rest) :
      Stepped s a { s with
        tables := tables
        calls := before ++ (rest.map (WorkerCall.mk a.worker)).toList ++ after }
  /-- Progress and heartbeats of operations. -/
  | refreshed (f : CompactionOperationRecord → CompactionOperationRecord)
      (haction : ∀ i, a.action ≠ .proceed i)
      (hid : ∀ row, (f row).operationId = row.operationId)
      (hended : ∀ row, isEnded (f row) = true → isEnded row = true)
      (hactive : ∀ row, row.activeAt s.conversationId s.epoch = true →
        (f row).activeAt s.conversationId s.epoch = true) :
      Stepped s a { s with
        tables := { s.tables with
          compactionOperation := s.tables.compactionOperation.map f } }
  | wrote (turns : CanonicalTurns) (haction : ∀ i, a.action ≠ .proceed i) :
      Stepped s a { s with tables := { s.tables with canonicalTurns := turns } }

theorem step_proceed (hwf : s.Wf) {worker : String} {i : Nat}
    {input : StatementInput} (h : s.step ⟨worker, .proceed i, input⟩ = some s') :
    Stepped s ⟨worker, .proceed i, input⟩ s' := by
  simp only [step, Option.map_eq_some_iff, Option.filter_eq_some_iff] at h
  obtain ⟨⟨owner, call⟩, ⟨hcall, hguard⟩, rfl⟩ := h
  simp only [Bool.and_eq_true, decide_eq_true_eq] at hguard
  obtain ⟨rfl, hnew⟩ := hguard
  obtain ⟨hlt, hget⟩ := List.getElem?_eq_some_iff.1 hcall
  have hsplit : s.calls =
      s.calls.take i ++ ⟨owner, call⟩ :: s.calls.drop (i + 1) := by
    rw [← hget, List.getElem_cons_drop, List.take_append_drop]
  exact .advanced rfl hcall hsplit (advanced hwf hnew)

theorem step_cases (hwf : s.Wf) {a : Step} (h : s.step a = some s') :
    Stepped s a s' := by
  obtain ⟨worker, action, input⟩ := a
  cases action with
  | proceed i => exact step_proceed hwf h
  | advanceCompactionPhase phaseIndex phaseName =>
      obtain rfl := Option.some.inj h
      simp only [VirtualContext.advanceCompactionPhase]
      rw [issue_ok (run_ownerUpdate _ _ _)]
      refine .refreshed _ nofun (fun row => ?_) (fun row hended => ?_)
        fun row hactive => ?_
      · split_ifs <;> rfl
      · split_ifs at hended
        · simp [isEnded] at hended
        · exact hended
      · split_ifs
        · simp_all [CompactionOperationRecord.activeAt, CompactionOperationRecord.active]
        · exact hactive
  | refreshCompactionHeartbeat operationId =>
      obtain rfl := Option.some.inj h
      simp only [VirtualContext.refreshCompactionHeartbeat]
      rw [issue_ok (by
        rw [run_withConn, Program.run_bind, run_operationUpdate, Program.andThen_ok]
        rfl)]
      refine .refreshed _ nofun (fun row => ?_) (fun row hended => ?_)
        fun row hactive => ?_
      · split_ifs <;> rfl
      · split_ifs at hended <;> exact hended
      · split_ifs <;> exact hactive
  | writeTurns turns =>
      obtain rfl := Option.some.inj h
      exact .wrote turns nofun
  | _ =>
      obtain rfl := Option.some.inj h
      exact .began _ nofun

/-! ## The invariant of the keys -/

theorem Wf.of_same (h : s.Wf) {tables : Tables}
    (hconversations : tables.conversations = s.tables.conversations)
    (hoperations : tables.compactionOperation = s.tables.compactionOperation)
    (calls : List WorkerCall) :
    Wf { s with tables := tables, calls := calls } where
  row := by
    dsimp only
    rw [hconversations]
    exact h.row
  operationIds := by
    dsimp only
    rw [hoperations]
    exact h.operationIds

theorem Wf.of_rewrite (h : s.Wf) {f : ConversationRecord → ConversationRecord}
    (hf : KeepsKey f) (calls : List WorkerCall) :
    Wf { s with tables := s.rewrite f, calls := calls } where
  row := h.rewrite_row hf
  operationIds := h.operationIds

theorem Wf.of_operations (h : s.Wf)
    {f : CompactionOperationRecord → CompactionOperationRecord}
    (hid : ∀ row, (f row).operationId = row.operationId) (calls : List WorkerCall) :
    Wf { s with
      tables := { s.tables with
        compactionOperation := s.tables.compactionOperation.map f }
      calls := calls } where
  row := h.row
  operationIds := by
    simpa [List.map_map, Function.comp_def, hid] using h.operationIds

theorem Wf.advanced (h : s.Wf) {worker : String} {call : PhaseCall} {tables : Tables}
    {rest : Option PhaseCall} (hadvanced : Advanced s worker call tables rest)
    (calls : List WorkerCall) : Wf { s with tables := tables, calls := calls } := by
  cases hadvanced with
  | read hmoves hbetween => exact h.of_same rfl rfl calls
  | setPhase now phase => exact h.of_rewrite (keepsKey_setPhase now phase) calls
  | conversation f hkey => exact h.of_rewrite hkey calls
  | operations f hid => exact h.of_operations hid calls
  | started operation hactive hnew =>
      refine ⟨h.row, ?_⟩
      rw [List.map_append, List.map_singleton, ← List.concat_eq_append]
      exact h.operationIds.concat hnew
  | rejected => exact h.of_same rfl rfl calls
  | elsewhere tables hconversations hoperations =>
      exact h.of_same hconversations hoperations calls
  | drained now => exact h.of_rewrite (keepsKey_drainInto now .active) calls
  | drainedInto now episode =>
      exact ⟨h.rewrite_row (keepsKey_drainInto now .ingesting), h.operationIds⟩
  | drainRaised => exact h.of_same rfl rfl calls

theorem Wf.stepped (h : s.Wf) {a : Step} (hstep : Stepped s a s') : s'.Wf := by
  cases hstep with
  | began calls => exact h.of_same rfl rfl _
  | advanced haction hcall hcalls hadvanced => exact h.advanced hadvanced _
  | refreshed f haction hid => exact h.of_operations hid _
  | wrote turns => exact ⟨h.row, h.operationIds⟩

end PhaseMachine

end VirtualContext
