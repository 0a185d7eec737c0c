import VirtualContext.Proxy.CompactionOwnership

/-!
# The drain at the end of a compaction

A compaction may be entered while an ingestion episode runs.  The drain inserts
another running episode if an untagged turn is left, and the index rejects it:
the drain raises after the operation has ended, and the phase stays `compacting`
without an active operation.
-/

namespace VirtualContext

open VirtualContext.Library

namespace PhaseMachine

variable {s s' : PhaseMachine}

/-! ## The property and its condition -/

/-- While no call is between two writes, `compacting` has an active operation. -/
def Accounted (s : PhaseMachine) : Prop :=
  (∀ call ∈ s.calls, betweenWrites call.call = false) →
    s.phase = some .compacting → s.compacts = true

/-- The running ingestion episodes. -/
def runningEpisodes (s : PhaseMachine) : List IngestionEpisodeRecord :=
  s.tables.ingestionEpisode.filter (·.runsAt s.conversationId s.epoch)

/--
A drain does not raise, and it leaves the phase `ingesting` with one running
episode if a turn is untagged, and another phase if none is.
-/
def Settles (s : PhaseMachine) (a : Step) (s' : PhaseMachine) : Prop :=
  match a.action with
  | .proceed i =>
      ∀ call ∈ s.calls[i]?, call.call = .drain →
        ((drainCompactionExit a.input.now a.input.uuid s.conversationId s.epoch
          a.worker).run .quiet (.idle s.tables 0)).1.isOk = true ∧
        (s'.phase = some .ingesting ↔ s'.hasUntagged = true) ∧
        (s'.hasUntagged = true → s'.runningEpisodes.length = 1)
  | _ => True

/-- No turn is untagged at a drain while an ingestion episode runs. -/
def DrainsAlone (s : PhaseMachine) (a : Step) : Prop :=
  match a.action with
  | .proceed i =>
      ∀ call ∈ s.calls[i]?, call.call = .drain →
        s.hasUntagged = true → s.ingests = false
  | _ => True

instance (s : PhaseMachine) : ∀ a, Decidable (DrainsAlone s a)
  | ⟨_, .proceed _, _⟩ => inferInstanceAs (Decidable (∀ _ ∈ _, _))
  | ⟨_, .enterCompaction .., _⟩ | ⟨_, .exitCompaction .., _⟩
  | ⟨_, .handlePreparePayload .., _⟩ | ⟨_, .finalizeIngestionIfComplete, _⟩
  | ⟨_, .finalizeLegacyIngestion, _⟩ | ⟨_, .advanceCompactionPhase .., _⟩
  | ⟨_, .refreshCompactionHeartbeat _, _⟩ | ⟨_, .writeTurns _, _⟩ => isTrue trivial

/-! ## The invariant -/

/-- A statement that raises no drain keeps the phase accounted for. -/
theorem Accounted.advanced (h : s.Wf) (haccounted : Accounted s) {worker : String}
    {call : PhaseCall} {before after : List WorkerCall}
    (hcalls : s.calls = before ++ ⟨worker, call⟩ :: after) {tables : Tables}
    {rest : Option PhaseCall} (hadvanced : Advanced s worker call tables rest)
    (halone : call = .drain → s.hasUntagged = true → s.ingests = false) :
    Accounted { s with
      tables := tables
      calls := before ++ (rest.map (WorkerCall.mk worker)).toList ++ after } := by
  intro hsettled hcompacting
  dsimp only at hsettled
  have hrest : ¬ ∃ next ∈ rest, betweenWrites next = true := by
    rintro ⟨next, hnext, hbetween⟩
    obtain rfl := Option.mem_def.mp hnext
    have := hsettled ⟨worker, next⟩ (by simp)
    simp [hbetween] at this
  -- if this call is not between two writes then none was, before the statement
  have hbefore (hbetween : betweenWrites call = false) (hphase : s.phase = some .compacting) :
      s.compacts = true := by
    refine haccounted (fun other hother => ?_) hphase
    rw [hcalls, List.mem_append, List.mem_cons] at hother
    rcases hother with hother | rfl | hother
    · exact hsettled other (by simp [hother])
    · exact hbetween
    · exact hsettled other (by simp [hother])
  obtain ⟨row, hrow, -⟩ := h.row_eq
  cases hadvanced with
  | read hmoves hbetween => exact hbefore hbetween hcompacting
  | setPhase now phase hmoves hdrain hbetween hstarts =>
      rw [phase_rewrite _ h (keepsKey_setPhase now phase) hrow] at hcompacting
      exact absurd (hstarts (Option.some.inj hcompacting)) hrest
  | conversation f hkey hphase hpending hmoves hbetween =>
      rw [phase_rewrite _ h hkey hrow, hphase] at hcompacting
      refine hbefore hbetween ?_
      rw [phase, hrow]
      exact hcompacting
  | operations f hid hended hactive hmoves hbetween =>
      exact (hactive (hbefore hbetween hcompacting)).resolve_right hrest
  | started operation hactive => simp [compacts, hactive]
  | rejected hactive => exact hactive
  | elsewhere tables hconversations hoperations hmoves hbetween =>
      rw [phase_of_same _ hconversations] at hcompacting
      have hidle : betweenWrites call = false :=
        Bool.eq_false_iff.mpr fun hmust => hrest (hbetween hmust)
      rw [compacts, hoperations]
      exact hbefore hidle hcompacting
  | drained now hsettled =>
      rw [phase_rewrite _ h (keepsKey_drainInto now .active) hrow] at hcompacting
      cases hcompacting
  | drainedInto now episode =>
      have hphase := phase_rewrite (before ++ after) h
        (keepsKey_drainInto now .ingesting) hrow
      have hphases := hphase.symm.trans hcompacting
      cases hphases
  | drainRaised huntagged hruns =>
      exact absurd hruns (by simp [halone rfl huntagged])

theorem drainsAlone_of_other {a : Step} (h : ∀ i, a.action ≠ .proceed i) :
    DrainsAlone s a := by
  obtain ⟨worker, action, input⟩ := a
  cases action with
  | proceed i => exact absurd rfl (h i)
  | _ => trivial

theorem Accounted.step (h : s.Wf) (haccounted : Accounted s) {a : Step}
    (halone : DrainsAlone s a) (hstep : s.step a = some s') : Accounted s' := by
  have hstepped := step_cases h hstep
  cases hstepped with
  | began calls haction =>
      exact fun hsettled hcompacting => haccounted
        (fun call hcall => hsettled call (List.mem_append_left _ hcall)) hcompacting
  | wrote turns haction => exact haccounted
  | refreshed f haction hid hended hactive =>
      exact fun hsettled hcompacting =>
        any_activeAt_map hactive (haccounted hsettled hcompacting)
  | advanced haction hcall hcalls hadvanced =>
      refine haccounted.advanced h hcalls hadvanced fun hdrain huntagged => ?_
      unfold DrainsAlone at halone
      rw [haction] at halone
      exact halone _ hcall hdrain huntagged

/-! ## The drain -/

theorem step_drain {worker : String} {i : Nat} {input : StatementInput}
    (hstep : s.step ⟨worker, .proceed i, input⟩ = some s') {call : WorkerCall}
    (hcall : s.calls[i]? = some call) (hdrain : call.call = .drain) :
    s.isNew input.uuid = true ∧ ∃ calls, s' = { s with
      tables := ((drainCompactionExit input.now input.uuid s.conversationId s.epoch
        worker).run .quiet (.idle s.tables 0)).2.durable
      calls := calls } := by
  obtain ⟨owner, call⟩ := call
  obtain rfl : call = .drain := hdrain
  simp only [step, hcall, Option.map_eq_some_iff, Option.filter_eq_some_iff] at hstep
  obtain ⟨found, ⟨hfound, hguard⟩, rfl⟩ := hstep
  obtain rfl := Option.some.inj hfound
  simp only [newId, Bool.and_eq_true] at hguard
  refine ⟨by simpa using hguard.2, s.calls.take i ++
    ((s.advance worker input .drain).2.map (WorkerCall.mk worker)).toList ++
      s.calls.drop (i + 1), ?_⟩
  rw [advance, issue_tables]

theorem settles_drain_iff (h : s.Wf) {worker : String} {i : Nat}
    {input : StatementInput}
    (hstep : s.step ⟨worker, .proceed i, input⟩ = some s') :
    Settles s ⟨worker, .proceed i, input⟩ s' ↔
      DrainsAlone s ⟨worker, .proceed i, input⟩ := by
  refine forall_congr' fun call => forall_congr' fun hcall =>
    forall_congr' fun hdrain => ?_
  obtain ⟨hnew, calls, rfl⟩ := step_drain hstep hcall hdrain
  obtain ⟨row, hrow, -⟩ := h.row_eq
  dsimp only
  rcases run_drain h worker input.now hnew with
    ⟨hsettled, hrun⟩ | ⟨huntagged, halone, episode, hruns, hrun⟩ |
      ⟨huntagged, hruns, hrun⟩
  · rw [hrun, hsettled]
    refine iff_of_true ⟨rfl, ?_, ?_⟩ (absurd · Bool.false_ne_true)
    · rw [Conn.durable_idle, phase_rewrite _ h (keepsKey_drainInto _ .active) hrow]
      change _ ↔ s.hasUntagged = true
      simp [hsettled, drainInto]
    · change s.hasUntagged = true → _
      simp [hsettled]
  · rw [hrun]
    refine iff_of_true ⟨rfl, ?_, fun _ => ?_⟩ fun _ => halone
    · have hphase := phase_rewrite calls h
        (keepsKey_drainInto input.now .ingesting) hrow
      change phase { s with tables := s.rewrite _, calls := calls } = _ ↔
        s.hasUntagged = true
      rw [hphase, huntagged]
      simp [drainInto]
    · have hnone : s.runningEpisodes = [] := by
        rw [runningEpisodes, List.filter_eq_nil_iff]
        exact fun other hother => by
          simpa using List.any_eq_false.mp halone other hother
      change (List.filter _ (s.tables.ingestionEpisode ++ [episode])).length = 1
      rw [List.filter_append]
      change (s.runningEpisodes ++ _).length = 1
      simp [hnone, hruns]
  · rw [hrun]
    exact iff_of_false (fun hsettles => Bool.false_ne_true hsettles.1)
      fun halone => by simp [halone huntagged] at hruns

theorem settles_of_other {a : Step} (h : ∀ i, a.action ≠ .proceed i) :
    Settles s a s' := by
  obtain ⟨worker, action, input⟩ := a
  cases action with
  | proceed i => exact absurd rfl (h i)
  | _ => trivial

theorem settles_step_iff (h : s.Wf) {a : Step} (hstep : s.step a = some s') :
    Settles s a s' ↔ DrainsAlone s a := by
  by_cases hproceeds : ∃ i, a.action = .proceed i
  · obtain ⟨worker, action, input⟩ := a
    obtain ⟨i, rfl⟩ := hproceeds
    exact settles_drain_iff h hstep
  · have hother := not_exists.mp hproceeds
    exact iff_of_true (settles_of_other hother) (drainsAlone_of_other hother)

/-! ## Runs -/

instance (s s' : PhaseMachine) : ∀ a, Decidable (Settles s a s')
  | ⟨_, .proceed _, _⟩ => inferInstanceAs (Decidable (∀ _ ∈ _, _))
  | ⟨_, .enterCompaction .., _⟩ | ⟨_, .exitCompaction .., _⟩
  | ⟨_, .handlePreparePayload .., _⟩ | ⟨_, .finalizeIngestionIfComplete, _⟩
  | ⟨_, .finalizeLegacyIngestion, _⟩ | ⟨_, .advanceCompactionPhase .., _⟩
  | ⟨_, .refreshCompactionHeartbeat _, _⟩ | ⟨_, .writeTurns _, _⟩ => isTrue trivial

instance (s : PhaseMachine) : Decidable (Accounted s) :=
  inferInstanceAs (Decidable (_ → _))

def untaggedTurn : CanonicalTurns where
  rows := [{ conversationId := "c", canonicalTurnId := 1 }]
  primaryKey := List.nodup_singleton _
  uniqueSortKey := List.nodup_singleton _

/-- A compaction, with a turn that comes in before it ends. -/
def compaction : List Step :=
  [⟨"w1", .enterCompaction 7 "starting", {}⟩,
   ⟨"w1", .proceed 0, {}⟩,
   ⟨"w1", .proceed 0, { uuid := "op1" }⟩,
   ⟨"w1", .writeTurns untaggedTurn, {}⟩,
   ⟨"w1", .exitCompaction true none, {}⟩,
   ⟨"w1", .proceed 0, {}⟩,
   ⟨"w1", .proceed 0, { uuid := "ep2" }⟩]

/-- A request that comes in before the compaction starts an ingestion. -/
def ingestion : List Step :=
  [⟨"w1", .writeTurns untaggedTurn, {}⟩,
   ⟨"w1", .handlePreparePayload 1 1, {}⟩,
   -- metadata, phase, progress, the phase of the ingestion
   ⟨"w1", .proceed 0, {}⟩,
   ⟨"w1", .proceed 0, {}⟩,
   ⟨"w1", .proceed 0, {}⟩,
   ⟨"w1", .proceed 0, {}⟩,
   ⟨"w1", .proceed 0, { uuid := "ep1" }⟩,
   ⟨"w1", .proceed 0, {}⟩]

end PhaseMachine

end VirtualContext
