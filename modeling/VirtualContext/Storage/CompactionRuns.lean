import VirtualContext.Storage.CompactionWrites
import VirtualContext.Storage.EpochFence

/-!
# Runs of the compaction writes

A guarded write either finds its operation running and has its whole effect, or
raises and leaves the tables as they are.
-/

namespace VirtualContext

open VirtualContext.Library

/-- A guarded write of a compaction. -/
inductive CompactionWrite where
  | storeSegment (segment : StoredSegment) (guard : CompactionGuard)
  | storeFacts (facts : List Fact) (guard : CompactionGuard)
  | replaceFactsForSegment (conversationId : ConversationId)
      (segmentRef : String) (facts : List Fact) (guard : CompactionGuard)
  | saveTagSummary (summary : TagSummary) (conversationId : ConversationId)
      (guard : CompactionGuard)
  | markCanonicalTurnsCompacted (now : String)
      (conversationId : ConversationId) (canonicalTurnIds : List Uuid)
      (compactedAt : Option String) (guard : CompactionGuard)

namespace CompactionWrite

def guard : CompactionWrite → CompactionGuard
  | storeSegment _ guard | storeFacts _ guard
  | replaceFactsForSegment _ _ _ guard | saveTagSummary _ _ guard
  | markCanonicalTurnsCompacted _ _ _ _ guard => guard

def operationId (w : CompactionWrite) : String := w.guard.operationId

def call : CompactionWrite → StoreProgram Unit
  | storeSegment segment guard => do
      let _ ← VirtualContext.storeSegment segment guard
      pure ()
  | storeFacts facts guard => do
      let _ ← VirtualContext.storeFacts facts guard
      pure ()
  | replaceFactsForSegment conversationId segmentRef facts guard => do
      let _ ← VirtualContext.replaceFactsForSegment conversationId segmentRef
        facts guard
      pure ()
  | saveTagSummary summary conversationId guard =>
      VirtualContext.saveTagSummary summary conversationId guard
  | markCanonicalTurnsCompacted now conversationId ids compactedAt guard => do
      let _ ← VirtualContext.markCanonicalTurnsCompacted 0 now conversationId ids
        compactedAt guard
      pure ()

/-- Every fact belongs to the operation's conversation and repeats no tag. -/
def acceptsFacts (t : Tables) (guard : CompactionGuard) (facts : List Fact) :
    Bool :=
  facts.all fun fact =>
    t.ownsCompaction fact.conversationId guard && fact.tags.Nodup

/-- The call finds what it needs, so that it does not raise. -/
def applies (t : Tables) : CompactionWrite → Bool
  | storeSegment segment guard =>
      t.ownsCompaction segment.conversationId guard && segment.tags.Nodup
  | storeFacts facts guard => acceptsFacts t guard facts
  | replaceFactsForSegment conversationId _ facts guard =>
      t.ownsCompaction conversationId guard && acceptsFacts t guard facts
  | saveTagSummary _ conversationId guard =>
      t.ownsCompaction conversationId guard
  | markCanonicalTurnsCompacted _ conversationId ids _ guard =>
      ids.isEmpty || t.ownsCompaction conversationId guard &&
        t.canonicalTurns.rows.any
          (t.canonicalTurns.inMarkedGroup conversationId ids)

def replaceFacts (facts : List Fact) (t : Tables) : Tables :=
  facts.foldl (fun t fact => t.replaceFact fact) t

/-- The tables after a call that does not raise. -/
def after (t : Tables) : CompactionWrite → Tables
  | storeSegment segment guard => t.replaceSegment (segment.record guard)
  | storeFacts facts _ => replaceFacts facts t
  | replaceFactsForSegment conversationId segmentRef facts _ =>
      replaceFacts facts (t.clearFacts conversationId segmentRef)
  | saveTagSummary summary conversationId guard =>
      t.upsertTagSummary
        { summary with
          conversationId := conversationId
          operationId := some guard.operationId }
  | markCanonicalTurnsCompacted now conversationId ids compactedAt guard =>
      { t with
        canonicalTurns := t.canonicalTurns.update
          (markCompacted t.canonicalTurns conversationId ids
            (orText compactedAt now) guard) }

end CompactionWrite

section Run

variable {t w : Tables} {n : Nat}

theorem ownsCompaction_congr {t t' : Tables}
    (h : t'.compactionOperation = t.compactionOperation)
    (conversationId : ConversationId) (guard : CompactionGuard) :
    t'.ownsCompaction conversationId guard =
      t.ownsCompaction conversationId guard := by
  rw [Tables.ownsCompaction, h]
  rfl

theorem run_guardedWrite (site : Site) (writeSite : String)
    (conversationId : ConversationId) (guard : CompactionGuard)
    (change : Tables → Tables) :
    (guardedWrite site writeSite conversationId guard change).run .quiet
        ⟨t, some w, n⟩ =
      if w.ownsCompaction conversationId guard then
        (.ok (), ⟨t, some (change w), n⟩)
      else (.error ⟨site, .compactionLeaseLost guard.operationId writeSite⟩,
        ⟨t, some w, n⟩) := by
  simp only [guardedWrite, Program.run_bind, Program.run_write_quiet, Conn.view,
    Option.getD_some]
  by_cases howned : w.ownsCompaction conversationId guard <;>
    simp [howned, Conn.store]

theorem run_insertTags (site : Site) (tags : List String) :
    (insertTags site tags).run .quiet ⟨t, some w, n⟩ =
      if tags.Nodup then (.ok (), ⟨t, some w, n⟩)
      else (.error ⟨site, .integrityError⟩, ⟨t, some w, n⟩) := by
  simp only [insertTags, Program.run_write_quiet, Conn.view, Option.getD_some]
  by_cases hnodup : tags.Nodup
  · simp only [if_pos hnodup]
    rfl
  · simp only [if_neg hnodup]

/-- Facts are inserted all or the transaction is left to be rolled back. -/
theorem run_insertFacts (site : Site) (writeSite : String)
    (guard : CompactionGuard) (facts : List Fact) :
    CompactionWrite.acceptsFacts w guard facts = true ∧
        (insertFacts site writeSite guard facts).run .quiet ⟨t, some w, n⟩ =
          (.ok (), ⟨t, some (CompactionWrite.replaceFacts facts w), n⟩) ∨
      CompactionWrite.acceptsFacts w guard facts = false ∧
        ∃ raised w', (insertFacts site writeSite guard facts).run .quiet
          ⟨t, some w, n⟩ = (.error raised, ⟨t, some w', n⟩) := by
  induction facts generalizing w with
  | nil => exact .inl ⟨rfl, rfl⟩
  | cons fact facts ih =>
      simp only [insertFacts, Program.run_bind, run_guardedWrite,
        CompactionWrite.acceptsFacts, List.all_cons]
      by_cases howned : w.ownsCompaction fact.conversationId guard
      · rw [if_pos howned, Program.andThen_ok, run_insertTags]
        by_cases hnodup : fact.tags.Nodup
        · rw [if_pos hnodup, Program.andThen_ok]
          have haccepts : CompactionWrite.acceptsFacts (w.replaceFact fact) guard
              facts = CompactionWrite.acceptsFacts w guard facts := rfl
          have hrest := ih (w := w.replaceFact fact)
          rw [haccepts] at hrest
          simpa [howned, hnodup, CompactionWrite.acceptsFacts,
            CompactionWrite.replaceFacts] using hrest
        · rw [if_neg hnodup]
          exact .inr ⟨by simp [hnodup], _, _, rfl⟩
      · rw [if_neg howned]
        exact .inr ⟨by simp [howned], _, _, rfl⟩

theorem replaceFacts_eq (facts : List Fact) (t : Tables) :
    CompactionWrite.replaceFacts facts t =
      { t with
        facts := facts.foldl
          (fun rows fact => replaceBy (·.id) { fact with } rows) t.facts } := by
  induction facts generalizing t with
  | nil => rfl
  | cons fact facts ih => exact ih (t.replaceFact fact)

theorem update_markCompacted_of_none {turns : CanonicalTurns}
    {conversationId : ConversationId} {ids : List Uuid} (timestamp : String)
    (guard : Option CompactionGuard)
    (h : turns.rows.filter (turns.inMarkedGroup conversationId ids) = []) :
    turns.update (markCompacted turns conversationId ids timestamp guard) =
      turns := by
  refine CanonicalTurns.ext ?_
  rw [CanonicalTurns.rows_update]
  refine (List.map_congr_left fun row hrow => ?_).trans (List.map_id _)
  exact if_neg (List.filter_eq_nil_iff.mp h row hrow)

/-- What a guarded write does to a store at rest. -/
theorem run_call (write : CompactionWrite) (t : Tables) (n : Nat) :
    write.applies t = true ∧
        write.call.run .quiet (.idle t n) = (.ok (), .idle (write.after t) n) ∨
      write.applies t = false ∧
        ∃ raised, write.call.run .quiet (.idle t n) =
          (.error raised, .idle t n) := by
  cases write with
  | storeSegment segment guard =>
      simp only [CompactionWrite.call, CompactionWrite.applies, storeSegment,
        Program.run_bind, run_immediately, run_guardedWrite]
      by_cases howned : t.ownsCompaction segment.conversationId guard
      · by_cases hnodup : segment.tags.Nodup
        · rw [if_pos howned, Program.andThen_ok, run_insertTags, if_pos hnodup]
          exact .inl ⟨by simp [howned, hnodup], rfl⟩
        · rw [if_pos howned, Program.andThen_ok, run_insertTags, if_neg hnodup]
          exact .inr ⟨by simp [hnodup], _, rfl⟩
      · rw [if_neg howned]
        exact .inr ⟨by simp [howned], _, rfl⟩
  | storeFacts facts guard =>
      simp only [CompactionWrite.call, CompactionWrite.applies, storeFacts,
        Program.run_bind]
      by_cases hempty : facts.isEmpty
      · rw [if_pos hempty]
        rw [List.isEmpty_iff] at hempty
        subst hempty
        exact .inl ⟨rfl, rfl⟩
      · rw [if_neg hempty, run_immediately, Program.run_bind]
        rcases run_insertFacts (t := t) (w := t) (n := n) .storeFacts
          "store_facts" guard facts with
          ⟨haccepts, hrun⟩ | ⟨hrejects, raised, w', hrun⟩
        · rw [hrun]
          exact .inl ⟨haccepts, rfl⟩
        · rw [hrun]
          exact .inr ⟨hrejects, raised, rfl⟩
  | replaceFactsForSegment conversationId segmentRef facts guard =>
      simp only [CompactionWrite.call, CompactionWrite.applies,
        replaceFactsForSegment, Program.run_bind, run_immediately,
        Program.run_read_quiet, Program.andThen_ok, Conn.view, Option.getD_some,
        Option.all_some]
      cases howned : t.ownsCompaction conversationId guard with
      | false => exact .inr ⟨rfl, _, rfl⟩
      | true =>
          have haccepts : CompactionWrite.acceptsFacts
              (t.clearFacts conversationId segmentRef) guard facts =
                CompactionWrite.acceptsFacts t guard facts := rfl
          simp only [Program.run_bind, Program.run_write_quiet, Conn.view,
            Option.getD_some, Program.andThen_ok, Conn.store, Bool.true_and]
          rw [← haccepts]
          rcases run_insertFacts (t := t)
            (w := t.clearFacts conversationId segmentRef) (n := n) .replaceFacts
            "replace_facts_for_segment" guard facts with
            ⟨haccepts, hrun⟩ | ⟨hrejects, raised, w', hrun⟩
          · rw [hrun]
            exact .inl ⟨haccepts, rfl⟩
          · rw [hrun]
            exact .inr ⟨hrejects, raised, rfl⟩
  | saveTagSummary summary conversationId guard =>
      simp only [CompactionWrite.call, CompactionWrite.applies, saveTagSummary,
        Program.run_bind, run_immediately, run_guardedWrite]
      by_cases howned : t.ownsCompaction conversationId guard
      · rw [if_pos howned]
        exact .inl ⟨howned, rfl⟩
      · rw [if_neg howned]
        exact .inr ⟨by simp [howned], _, rfl⟩
  | markCanonicalTurnsCompacted now conversationId ids compactedAt guard =>
      simp only [CompactionWrite.call, CompactionWrite.applies,
        markCanonicalTurnsCompacted, CompactionWrite.after, Program.run_bind]
      by_cases hempty : ids.isEmpty
      · rw [List.isEmpty_iff] at hempty
        subst hempty
        have hnone : t.canonicalTurns.rows.filter
            (t.canonicalTurns.inMarkedGroup conversationId []) = [] := by
          simp [CanonicalTurns.inMarkedGroup]
        rw [update_markCompacted_of_none (orText compactedAt now) (some guard)
          hnone]
        exact .inl ⟨rfl, rfl⟩
      · simp only [if_neg hempty, Program.run_bind, Program.run_write_quiet,
          Conn.view_idle, Option.all_some]
        have hany : t.canonicalTurns.rows.any
            (t.canonicalTurns.inMarkedGroup conversationId ids) =
          !decide ((t.canonicalTurns.rows.filter
            (t.canonicalTurns.inMarkedGroup conversationId ids)).length = 0) := by
          rw [Bool.eq_iff_iff]
          simp [List.filter_eq_nil_iff]
        by_cases howned : t.ownsCompaction conversationId guard
        · by_cases hcount : (t.canonicalTurns.rows.filter
              (t.canonicalTurns.inMarkedGroup conversationId ids)).length = 0
          · have hsame := update_markCompacted_of_none (orText compactedAt now)
              (some guard) (List.length_eq_zero_iff.mp hcount)
            refine .inr ⟨?_, ⟨.markCompacted,
              .compactionLeaseLost guard.operationId
                "mark_canonical_turns_compacted"⟩, ?_⟩
            · rw [hany, decide_eq_true hcount]
              simp [hempty]
            · simp [howned, hcount, hsame, commitIfUnlocked]
          · refine .inl ⟨?_, ?_⟩
            · rw [hany, decide_eq_false hcount]
              simp [howned]
            · simp [howned, hcount, commitIfUnlocked]
        · refine .inr ⟨?_, ⟨.markCompacted,
            .compactionLeaseLost guard.operationId
              "mark_canonical_turns_compacted"⟩, ?_⟩
          · simp [hempty, howned]
          · simp [howned, commitIfUnlocked]

end Run

end VirtualContext
