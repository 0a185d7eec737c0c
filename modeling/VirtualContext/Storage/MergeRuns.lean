import VirtualContext.Storage.MergeConversation
import VirtualContext.Storage.StoreRuns

/-!
# What a merge computes

A merge that raises leaves no trace.  One that commits gives the rows of the
source to the target, each shifted by the same offset.
-/

namespace VirtualContext

open VirtualContext.Library

variable {args : MergeArgs} {t : Tables} {n : Nat}

/-! ## The run -/

/-- A check changes nothing, whether it passes or not. -/
theorem runChecks_run (args : MergeArgs)
    (checks : List (MergeArgs → Tables → Except Exc Unit)) (c : Conn Tables) :
    (∃ raised, (runChecks args checks).run .quiet c = (.error raised, c)) ∨
      (runChecks args checks).run .quiet c = (.ok (), c) := by
  induction checks with
  | nil => exact .inr rfl
  | cons check checks ih =>
      simp only [runChecks, Program.run_bind, Program.run_read_quiet,
        Program.andThen_ok]
      cases check args c.view with
      | error exc => exact .inl ⟨_, rfl⟩
      | ok value => exact ih

/-- The tables after a merge that commits. -/
def Tables.mergedInto (args : MergeArgs) (turns : CanonicalTurns) (t : Tables) :
    Tables :=
  { t with
    canonicalTurns := turns
    segments := t.segments.map (moveSegment args)
    canonicalTurnAnchors := t.canonicalTurnAnchors.map (moveAnchor args)
    ingestBatches := t.ingestBatches.map (moveBatch args)
    facts := t.facts.map (moveFact args)
    turnToolOutputs := t.turnToolOutputs.map (moveTurnToolOutput args)
    chainSnapshots := t.chainSnapshots.map (moveChainSnapshot args)
    tagSummaries := resolveTagSummaries args t.tagSummaries
    tagSummaryEmbeddings :=
      resolveTagSummaryEmbeddings args t.tagSummaryEmbeddings
    conversations := t.conversations.map (flipPhase args)
    mergeAudit := t.mergeAudit.map (finalizeAudit args) }

/-- The moved tables, unless two links of an output would fall together. -/
theorem moveSimpleTables_run (args : MergeArgs) (t w : Tables) (n : Nat) :
    (moveSimpleTables args).run .quiet ⟨t, some w, n⟩ =
        (.ok (), ⟨t, some { w with
          segments := w.segments.map (moveSegment args)
          canonicalTurnAnchors := w.canonicalTurnAnchors.map (moveAnchor args)
          ingestBatches := w.ingestBatches.map (moveBatch args)
          facts := w.facts.map (moveFact args)
          turnToolOutputs := w.turnToolOutputs.map (moveTurnToolOutput args)
          chainSnapshots := w.chainSnapshots.map (moveChainSnapshot args) },
          n⟩) ∨
      ∃ raised w', (moveSimpleTables args).run .quiet ⟨t, some w, n⟩ =
        (.error raised, ⟨t, some w', n⟩) := by
  simp only [moveSimpleTables, Program.run_bind, Program.run_update_open,
    Program.andThen_ok]
  generalize hw : ({ w with
    segments := w.segments.map (moveSegment args)
    canonicalTurnAnchors := w.canonicalTurnAnchors.map (moveAnchor args)
    ingestBatches := w.ingestBatches.map (moveBatch args)
    facts := w.facts.map (moveFact args) } : Tables) = w'
  by_cases hconflict : w'.linkConflict args
  · have hlinks : moveTurnToolOutputs args w' = .error .integrityError :=
      if_pos hconflict
    right
    rw [Program.run_write_open_error _ _ hlinks]
    exact ⟨_, _, rfl⟩
  · have hlinks : moveTurnToolOutputs args w' = .ok ((), { w' with
        turnToolOutputs :=
          w'.turnToolOutputs.map (moveTurnToolOutput args) }) :=
      if_neg hconflict
    left
    rw [Program.run_write_open_ok _ _ hlinks, Program.andThen_ok,
      Program.run_update_open, ← hw]

/-- A merge raises and leaves everything as it was, or moves the rows. -/
theorem mergeConversationData_run_cases (args : MergeArgs) (t : Tables)
    (n : Nat) :
    (∃ raised, (mergeConversationData args).run .quiet (.idle t n) =
        (.error raised, .idle t n)) ∨
      ∃ stats turns, (mergeConversationData args).run .quiet (.idle t n) =
          (.ok stats, .idle (t.mergedInto args turns) n) ∧
        turns.rows =
          t.canonicalTurns.rows.map (moveTurn args (t.mergeOffset args)) := by
  simp only [mergeConversationData, Program.run_bind,
    Program.run_beginImmediate_quiet, Program.andThen_ok, Program.run_tryCatch]
  rcases runChecks_run args mergeChecks ⟨t, some t, n⟩ with
    ⟨raised, hchecks⟩ | hchecks
  · rw [hchecks]
    exact .inl ⟨raised, by simp [Conn.rollback, Conn.idle]⟩
  simp only [hchecks, mergeMoves, Program.run_bind, Program.andThen_ok,
    Program.run_read_quiet, Conn.view, Option.getD_some]
  rcases moveSimpleTables_run args t t n with hsimple | ⟨raised, w, hsimple⟩
  · rw [hsimple, Program.andThen_ok]
    generalize hw : ({ t with
      segments := t.segments.map (moveSegment args)
      canonicalTurnAnchors := t.canonicalTurnAnchors.map (moveAnchor args)
      ingestBatches := t.ingestBatches.map (moveBatch args)
      facts := t.facts.map (moveFact args)
      turnToolOutputs := t.turnToolOutputs.map (moveTurnToolOutput args)
      chainSnapshots := t.chainSnapshots.map (moveChainSnapshot args) } :
        Tables) = w
    have hturns : w.canonicalTurns = t.canonicalTurns := by rw [← hw]
    cases hmoved : CanonicalTurns.ofRows
        (t.canonicalTurns.rows.map (moveTurn args (t.mergeOffset args))) with
    | error exc =>
        have hwrite : moveCanonicalTurns args (t.mergeOffset args) w =
            .error exc := by
          rw [moveCanonicalTurns, hturns, hmoved]
          rfl
        left
        rw [Program.run_write_open_error _ _ hwrite]
        exact ⟨_, rfl⟩
    | ok turns =>
        have hwrite : moveCanonicalTurns args (t.mergeOffset args) w =
            .ok ((t.canonicalTurns.ordered args.sourceConversationId).length,
              { w with canonicalTurns := turns }) := by
          rw [moveCanonicalTurns, hturns, hmoved]
          rfl
        right
        refine ⟨⟨t.mergeOffset args, (t.canonicalTurns.ordered
          args.sourceConversationId).length⟩, turns, ?_,
          CanonicalTurns.ofRows_eq_ok_iff.mp hmoved⟩
        rw [Program.run_write_open_ok _ _ hwrite]
        simp only [Program.andThen_ok, Program.run_update_open,
          Program.run_pure, Program.run_commit_quiet, ← hw]
        rfl
  · rw [hsimple]
    exact .inl ⟨raised, by simp [Conn.rollback, Conn.idle]⟩

theorem merged_of_run {stats : MergeStats} {c : Conn Tables}
    (hrun : (mergeConversationData args).run .quiet (.idle t n) =
      (.ok stats, c)) :
    ∃ turns, c = .idle (t.mergedInto args turns) n ∧
      turns.rows =
        t.canonicalTurns.rows.map (moveTurn args (t.mergeOffset args)) := by
  rcases mergeConversationData_run_cases args t n with
    ⟨raised, herror⟩ | ⟨stats', turns, hok, hmoved⟩
  · cases herror.symm.trans hrun
  · refine ⟨turns, ?_, hmoved⟩
    exact ((congrArg Prod.snd hok).symm.trans (congrArg Prod.snd hrun)).symm

end VirtualContext
