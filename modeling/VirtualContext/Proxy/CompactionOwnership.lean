import VirtualContext.Proxy.PhaseEffects

/-!
# Who ends a compaction

A worker that lost its operation to another one still drains: the terminal
UPDATE names the owner, and the drain that follows it does not.
-/

namespace VirtualContext

open VirtualContext.Library

namespace PhaseMachine

variable {s s' : PhaseMachine}

/-! ## The property and its condition -/

/-- A store with one row of the conversation, and no call under way. -/
def Starts (s : PhaseMachine) : Prop := s.Wf ∧ s.calls = []

/-- The operation runs, and another worker owns it. -/
def runsUnderOther (s : PhaseMachine) (worker : String)
    (row : CompactionOperationRecord) : Bool :=
  row.conversationId = s.conversationId && row.lifecycleEpoch = s.epoch &&
    row.status = .running && row.ownerWorkerId ≠ worker

/--
While an operation runs under another worker the step neither moves the phase
away from `compacting`, nor drains what is pending, nor ends the operation.
-/
def OnlyOwnerEnds (s : PhaseMachine) (a : Step) (s' : PhaseMachine) : Prop :=
  ∀ row ∈ s.tables.compactionOperation, s.runsUnderOther a.worker row = true →
    (s.phase = some .compacting → s'.phase = some .compacting) ∧
    s.pendingRaw ≤ s'.pendingRaw ∧
    ∀ row' ∈ s'.tables.compactionOperation,
      row'.operationId = row.operationId → isEnded row' = false

/-- The statement writes another phase; a drain that raises does not. -/
def leavesPhase (s : PhaseMachine) (call : PhaseCall) : Bool :=
  movesPhase call && !(call = .drain && s.hasUntagged && s.ingests)

/--
A worker writes another phase only while no operation runs under another
worker, or the phase is not `compacting`; and drains only so, or while nothing
is pending.
-/
def KeepsToOwn (s : PhaseMachine) (a : Step) : Prop :=
  match a.action with
  | .proceed i =>
      ∀ call ∈ s.calls[i]?, s.leavesPhase call.call = true →
        s.tables.compactionOperation.any (s.runsUnderOther a.worker) = true →
          s.phase ≠ some .compacting ∧
            (call.call = .drain → s.pendingRaw ≤ 0)
  | _ => True

instance (s : PhaseMachine) : ∀ a, Decidable (KeepsToOwn s a)
  | ⟨_, .proceed _, _⟩ => inferInstanceAs (Decidable (∀ _ ∈ _, _))
  | ⟨_, .enterCompaction .., _⟩ | ⟨_, .exitCompaction .., _⟩
  | ⟨_, .handlePreparePayload .., _⟩ | ⟨_, .finalizeIngestionIfComplete, _⟩
  | ⟨_, .finalizeLegacyIngestion, _⟩ | ⟨_, .advanceCompactionPhase .., _⟩
  | ⟨_, .refreshCompactionHeartbeat _, _⟩ | ⟨_, .writeTurns _, _⟩ => isTrue trivial

/-! ## What is left of an operation -/

section Ended

variable {worker : String} {row : CompactionOperationRecord}

theorem not_isEnded (h : s.runsUnderOther worker row = true) :
    isEnded row = false := by
  simp only [runsUnderOther, Bool.and_eq_true, decide_eq_true_eq] at h
  simp [isEnded, h.1.2]

theorem owner_ne (h : s.runsUnderOther worker row = true) :
    row.ownerWorkerId ≠ worker := by
  simp only [runsUnderOther, Bool.and_eq_true, decide_eq_true_eq] at h
  exact h.2

theorem Wf.eq_of_operationId (h : s.Wf) (hrow : row ∈ s.tables.compactionOperation)
    {row' : CompactionOperationRecord} (hrow' : row' ∈ s.tables.compactionOperation)
    (hid : row'.operationId = row.operationId) : row' = row :=
  List.inj_on_of_nodup_map h.operationIds hrow' hrow hid

/-- An UPDATE that ends only operations of the worker. -/
theorem map_not_isEnded (h : s.Wf) (hrow : row ∈ s.tables.compactionOperation)
    (hruns : s.runsUnderOther worker row = true)
    {f : CompactionOperationRecord → CompactionOperationRecord}
    (hid : ∀ row, (f row).operationId = row.operationId)
    (hended : ∀ row, isEnded (f row) = true →
      isEnded row = true ∨ row.ownerWorkerId = worker)
    {row' : CompactionOperationRecord}
    (hrow' : row' ∈ s.tables.compactionOperation.map f)
    (hsame : row'.operationId = row.operationId) : isEnded row' = false := by
  obtain ⟨old, hold, rfl⟩ := List.mem_map.mp hrow'
  obtain rfl := h.eq_of_operationId hrow hold ((hid old).symm.trans hsame)
  rw [Bool.eq_false_iff]
  intro hmust
  rcases hended old hmust with hwas | howns
  · exact Bool.false_ne_true ((not_isEnded hruns).symm.trans hwas)
  · exact owner_ne hruns howns

theorem same_not_isEnded (h : s.Wf) (hrow : row ∈ s.tables.compactionOperation)
    (hruns : s.runsUnderOther worker row = true)
    {row' : CompactionOperationRecord} (hrow' : row' ∈ s.tables.compactionOperation)
    (hsame : row'.operationId = row.operationId) : isEnded row' = false := by
  obtain rfl := h.eq_of_operationId hrow hrow' hsame
  exact not_isEnded hruns

theorem Advanced.not_isEnded (h : s.Wf) {call : PhaseCall} {tables : Tables}
    {rest : Option PhaseCall} (hadvanced : Advanced s worker call tables rest)
    (hrow : row ∈ s.tables.compactionOperation)
    (hruns : s.runsUnderOther worker row = true)
    {row' : CompactionOperationRecord} (hrow' : row' ∈ tables.compactionOperation)
    (hsame : row'.operationId = row.operationId) : isEnded row' = false := by
  cases hadvanced with
  | operations f hid hended =>
      exact map_not_isEnded h hrow hruns hid hended hrow' hsame
  | started operation hactive hnew =>
      rcases List.mem_append.mp hrow' with hrow' | hrow'
      · exact same_not_isEnded h hrow hruns hrow' hsame
      · obtain rfl := List.mem_singleton.mp hrow'
        exact absurd (hsame ▸ List.mem_map_of_mem hrow) hnew
  | elsewhere tables hconversations hoperations =>
      exact same_not_isEnded h hrow hruns (hoperations ▸ hrow') hsame
  | _ => exact same_not_isEnded h hrow hruns hrow' hsame

end Ended

/-! ## The phase after a statement -/

section Phase

variable {worker : String} {call : PhaseCall} {tables : Tables}
  {rest : Option PhaseCall} (calls : List WorkerCall)

theorem phase_rewrite (h : s.Wf) {f : ConversationRecord → ConversationRecord}
    (hf : KeepsKey f) {row : ConversationRecord} (hrow : s.row = some row) :
    phase { s with tables := s.rewrite f, calls := calls } = some (f row).phase := by
  have hafter := row_rewrite h hf
  rw [hrow] at hafter
  simp only [phase, PhaseMachine.row, hafter, Option.map_some]

theorem pendingRaw_rewrite (h : s.Wf) {f : ConversationRecord → ConversationRecord}
    (hf : KeepsKey f) {row : ConversationRecord} (hrow : s.row = some row) :
    pendingRaw { s with tables := s.rewrite f, calls := calls } =
      (f row).pendingRawPayloadEntries := by
  have hafter := row_rewrite h hf
  rw [hrow] at hafter
  simp only [pendingRaw, PhaseMachine.row, hafter, Option.map_some, Option.getD_some]

theorem phase_of_same (h : tables.conversations = s.tables.conversations) :
    phase { s with tables := tables, calls := calls } = s.phase := by
  rw [phase, phase, PhaseMachine.row, PhaseMachine.row]
  exact congrArg (Option.map _) (conversation_congr h s.conversationId)

theorem pendingRaw_of_same (h : tables.conversations = s.tables.conversations) :
    pendingRaw { s with tables := tables, calls := calls } = s.pendingRaw := by
  rw [pendingRaw, pendingRaw, PhaseMachine.row, PhaseMachine.row]
  exact congrArg (fun row : Option ConversationRecord =>
    (row.map (·.pendingRawPayloadEntries)).getD 0)
      (conversation_congr h s.conversationId)

/-- What every other statement does to the conversation. -/
theorem Advanced.keeps (h : s.Wf) (hadvanced : Advanced s worker call tables rest)
    (hleaves : s.leavesPhase call = false) :
    (s.phase = some .compacting →
      phase { s with tables := tables, calls := calls } = some .compacting) ∧
    s.pendingRaw ≤ pendingRaw { s with tables := tables, calls := calls } := by
  obtain ⟨row, hrow, -⟩ := h.row_eq
  have hphase : s.phase = some row.phase := by rw [phase, hrow]; rfl
  have hpending : s.pendingRaw = row.pendingRawPayloadEntries := by
    rw [pendingRaw, hrow]; rfl
  have hsame (tables : Tables) (hc : tables.conversations = s.tables.conversations) :
      (s.phase = some .compacting →
        phase { s with tables := tables, calls := calls } = some .compacting) ∧
      s.pendingRaw ≤ pendingRaw { s with tables := tables, calls := calls } :=
    ⟨fun hcompacting => (phase_of_same calls hc).trans hcompacting,
      (pendingRaw_of_same calls hc).ge⟩
  cases hadvanced with
  | read => exact hsame _ rfl
  | operations f => exact hsame _ rfl
  | started operation => exact hsame _ rfl
  | rejected => exact hsame _ rfl
  | elsewhere tables hconversations => exact hsame _ hconversations
  | drainRaised => exact hsame _ rfl
  | setPhase now phase hmoves hdrain =>
      rw [phase_rewrite calls h (keepsKey_setPhase now phase) hrow,
        pendingRaw_rewrite calls h (keepsKey_setPhase now phase) hrow]
      refine ⟨fun _ => ?_, hpending.le⟩
      simpa [leavesPhase, hmoves, hdrain] using hleaves
  | conversation f hkey hsamePhase hgrows =>
      rw [phase_rewrite calls h hkey hrow, pendingRaw_rewrite calls h hkey hrow, hsamePhase]
      exact ⟨fun hcompacting => hphase ▸ hcompacting, hpending.le.trans (hgrows row)⟩
  | drained now hsettled => simp [leavesPhase, movesPhase, hsettled] at hleaves
  | drainedInto now episode huntagged halone =>
      simp [leavesPhase, movesPhase, halone] at hleaves

/-- What a statement does that writes another phase. -/
theorem Advanced.leaves (h : s.Wf) (hadvanced : Advanced s worker call tables rest)
    (hleaves : s.leavesPhase call = true) :
    phase { s with tables := tables, calls := calls } ≠ some .compacting ∧
    pendingRaw { s with tables := tables, calls := calls } =
      if call = .drain then 0 else s.pendingRaw := by
  obtain ⟨row, hrow, -⟩ := h.row_eq
  have hpending : s.pendingRaw = row.pendingRawPayloadEntries := by
    rw [pendingRaw, hrow]; rfl
  cases hadvanced with
  | setPhase now phase hmoves hdrain =>
      rw [phase_rewrite calls h (keepsKey_setPhase now phase) hrow,
        pendingRaw_rewrite calls h (keepsKey_setPhase now phase) hrow, if_neg hdrain]
      refine ⟨?_, hpending.symm⟩
      simpa [leavesPhase, hmoves, hdrain] using hleaves
  | drained now =>
      rw [phase_rewrite calls h (keepsKey_drainInto now .active) hrow,
        pendingRaw_rewrite calls h (keepsKey_drainInto now .active) hrow]
      exact ⟨(nofun), rfl⟩
  | drainedInto now episode =>
      have hphase := phase_rewrite calls h
        (keepsKey_drainInto now .ingesting) hrow
      have hdrained := pendingRaw_rewrite calls h
        (keepsKey_drainInto now .ingesting) hrow
      exact ⟨fun hcompacting => (nomatch hphase.symm.trans hcompacting), hdrained⟩
  | drainRaised huntagged hruns => simp [leavesPhase, huntagged, hruns] at hleaves
  | read hmoves => simp [leavesPhase, hmoves] at hleaves
  | conversation f hkey hsame hgrows hmoves => simp [leavesPhase, hmoves] at hleaves
  | operations f hid hended hactive hmoves => simp [leavesPhase, hmoves] at hleaves
  | started operation hactive hnew hmoves => simp [leavesPhase, hmoves] at hleaves
  | rejected hactive hmoves => simp [leavesPhase, hmoves] at hleaves
  | elsewhere tables hc ho hmoves => simp [leavesPhase, hmoves] at hleaves

end Phase

/-! ## Runs -/

theorem keepsToOwn_of_other {a : Step} (h : ∀ i, a.action ≠ .proceed i) :
    KeepsToOwn s a := by
  obtain ⟨worker, action, input⟩ := a
  cases action with
  | proceed i => exact absurd rfl (h i)
  | _ => trivial

theorem onlyOwnerEnds_step_iff (h : s.Wf) {a : Step} (hstep : s.step a = some s') :
    OnlyOwnerEnds s a s' ↔ KeepsToOwn s a := by
  have hstepped := step_cases h hstep
  cases hstepped with
  | began calls haction =>
      refine iff_of_true (fun row hrow hruns => ⟨id, le_refl _, ?_⟩)
        (keepsToOwn_of_other haction)
      exact fun row' hrow' hsame => same_not_isEnded h hrow hruns hrow' hsame
  | wrote turns haction =>
      refine iff_of_true (fun row hrow hruns => ⟨id, le_refl _, ?_⟩)
        (keepsToOwn_of_other haction)
      exact fun row' hrow' hsame => same_not_isEnded h hrow hruns hrow' hsame
  | refreshed f haction hid hended =>
      refine iff_of_true (fun row hrow hruns => ⟨id, le_refl _, ?_⟩)
        (keepsToOwn_of_other haction)
      exact fun row' hrow' hsame => map_not_isEnded h hrow hruns hid
        (fun row hmust => .inl (hended row hmust)) hrow' hsame
  | @advanced i call before after tables rest haction hcall hcalls hadvanced =>
      constructor
      · intro honly
        unfold KeepsToOwn
        rw [haction]
        intro other hother hleaves hruns
        obtain rfl := Option.some.inj (hcall.symm.trans hother)
        obtain ⟨row, hrow, hruns⟩ := List.any_eq_true.mp hruns
        obtain ⟨hphase, hpending, -⟩ := honly row hrow hruns
        obtain ⟨hleft, hdrained⟩ := hadvanced.leaves _ h hleaves
        refine ⟨fun hcompacting => hleft (hphase hcompacting), fun hdrain => ?_⟩
        rwa [hdrained, if_pos hdrain] at hpending
      · intro hkeeps row hrow hruns
        refine and_assoc.mp ⟨?_, fun row' hrow' hsame =>
          hadvanced.not_isEnded h hrow hruns hrow' hsame⟩
        cases hleaves : s.leavesPhase call with
        | false => exact hadvanced.keeps _ h hleaves
        | true =>
            unfold KeepsToOwn at hkeeps
            rw [haction] at hkeeps
            obtain ⟨hphase, hpending⟩ := hkeeps _ hcall hleaves
              (List.any_eq_true.mpr ⟨row, hrow, hruns⟩)
            refine ⟨fun hcompacting => absurd hcompacting hphase, ?_⟩
            rw [(hadvanced.leaves _ h hleaves).2]
            split_ifs with hdrain
            · exact hpending hdrain
            · exact le_refl _

theorem Wf.step (h : s.Wf) {a : Step} (hstep : s.step a = some s') : s'.Wf :=
  h.stepped (step_cases h hstep)

/--
Over every interleaving, only owners end their compactions exactly if every
worker keeps to its own operation where it writes a phase or drains.
-/
theorem onlyOwnerEnds_iff (hstarts : Starts s) {steps : List Step}
    (hruns : runSteps step s steps = some s') :
    Meets step (fun s a => ∀ s' ∈ s.step a, OnlyOwnerEnds s a s') s steps ↔
      Meets step KeepsToOwn s steps := by
  refine Meets.iff_of_invariant Wf (fun s a s' h hstep => ?_)
    (fun s a s' h _ hstep => h.step hstep) hstarts.1 hruns
  rw [hstep]
  simp only [Option.mem_some, forall_eq']
  exact onlyOwnerEnds_step_iff h hstep

/-! ## A lost lease -/

instance (s : PhaseMachine) (a : Step) (s' : PhaseMachine) :
    Decidable (OnlyOwnerEnds s a s') :=
  inferInstanceAs (Decidable (∀ row ∈ _, _ → _))

/-- A conversation at rest. -/
def atRest : PhaseMachine where
  conversationId := "c"
  epoch := 1
  tables :=
    { conversations := [{ conversationId := "c", tenantId := "t", phase := .active }] }

theorem starts_atRest : Starts atRest :=
  ⟨⟨⟨_, rfl, rfl⟩, List.nodup_nil⟩, rfl⟩

/-- The second worker takes over the operation of the first one. -/
def takeover : List Step :=
  [⟨"w1", .enterCompaction 7 "starting", {}⟩,
   ⟨"w1", .proceed 0, {}⟩,
   ⟨"w1", .proceed 0, { uuid := "op1" }⟩,
   ⟨"w1", .advanceCompactionPhase 1 "segment_tagging", { now := "1" }⟩,
   ⟨"w2", .handlePreparePayload 3 3, {}⟩,
   -- metadata, phase, active operation, lease
   ⟨"w2", .proceed 0, {}⟩,
   ⟨"w2", .proceed 0, {}⟩,
   ⟨"w2", .proceed 0, {}⟩,
   ⟨"w2", .proceed 0, {}⟩,
   ⟨"w2", .proceed 0, { now := "3", cutoff := "2" }⟩,
   -- the cleanup
   ⟨"w2", .proceed 0, { now := "3", uuid := "op2" }⟩] ++
    List.replicate 8 ⟨"w2", .proceed 0, {}⟩

/-- The first worker finds its lease lost, and leaves its compaction. -/
def lostLease : List Step :=
  takeover ++
    [⟨"w1", .exitCompaction false (some "lease lost"), {}⟩,
     ⟨"w1", .proceed 0, {}⟩,
     ⟨"w1", .proceed 0, { uuid := "ep1" }⟩]

theorem runs_takeover :
    ∃ s', runSteps step atRest takeover = some s' ∧
      Meets step (fun s a => ∀ s' ∈ s.step a, OnlyOwnerEnds s a s') atRest takeover := by
  have hruns : (runSteps step atRest takeover).isSome = true := by decide +kernel
  obtain ⟨s', hruns⟩ := Option.isSome_iff_exists.mp hruns
  exact ⟨s', hruns, (onlyOwnerEnds_iff starts_atRest hruns).2 (by decide +kernel)⟩

theorem lostLease_drained :
    ∃ s s' steps, Starts s ∧ runSteps step s steps = some s' ∧
      ¬ Meets step (fun s a => ∀ s' ∈ s.step a, OnlyOwnerEnds s a s') s steps := by
  have hruns : (runSteps step atRest lostLease).isSome = true := by decide +kernel
  obtain ⟨s', hruns⟩ := Option.isSome_iff_exists.mp hruns
  exact ⟨atRest, s', lostLease, starts_atRest, hruns, by decide +kernel⟩

end PhaseMachine

end VirtualContext
