import VirtualContext.Storage.Takeover

/-!
# A cleanup that stops on the way

Each statement of a cleanup is durable at once, so a cleanup that stops between two
of them leaves what the first ones did.
-/

namespace VirtualContext

open VirtualContext.Library
open VirtualContext.Library.Program

/-! ## What the statements find -/

namespace CleanupArgs

variable (args : CleanupArgs)

/-- The row of the dead operation, while it runs. -/
def takesOver (row : CompactionOperationRecord) : Bool :=
  row.operationId = args.deadOperationId && row.conversationId = args.conversationId &&
    row.lifecycleEpoch = args.lifecycleEpoch && row.status = .running

def abandon (t : Tables) : Tables :=
  { t with
    compactionOperation := t.compactionOperation.map fun row =>
      if args.takesOver row then
        { row with status := .abandoned, completedAt := some args.now }
      else row }

/-- The first statement finds the dead operation running. -/
def isFresh (t : Tables) : Bool := t.compactionOperation.any args.takesOver

end CleanupArgs

/-- The statement has something to change; the INSERT always has. -/
def CleanupStatement.finds (args : CleanupArgs) (t : Tables) : CleanupStatement → Bool
  | deleteSegments =>
      t.segments.any fun row => args.ofDeadOperation row.operationId row.conversationId
  | deleteFacts =>
      t.facts.any fun row => args.ofDeadOperation row.operationId row.conversationId
  | deleteTagSummaries =>
      t.tagSummaries.any fun row => args.ofDeadOperation row.operationId row.conversationId
  | deleteTagSummaryEmbeddings =>
      t.tagSummaryEmbeddings.any fun row =>
        args.ofDeadOperation row.operationId row.conversationId
  | resetCanonicalTurns =>
      t.canonicalTurns.rows.any fun row =>
        args.ofDeadOperation row.compactionOperationId row.conversationId
  | insertOperation => true

/-! ## Stops -/

/-- A cleanup that stops after so many statements. -/
def stoppedCleanup (args : CleanupArgs) : Nat → StoreProgram Unit
  | 0 => pure ()
  | k + 1 => do
      let freshTakeover ← abandonOperation args
      runCleanupStatements args ((cleanupStatements freshTakeover).take k)

namespace CleanupArgs

variable (args : CleanupArgs)

def tablesAt (k : Nat) (t : Tables) : Tables :=
  ((stoppedCleanup args k).run .quiet (.idle t 0)).2.durable

def changeAll (statements : List CleanupStatement) (t : Tables) : Tables :=
  statements.foldl (fun t statement => statement.change args t) t

/-- All of the effects, the new operation included. -/
def effects (t : Tables) : Tables :=
  args.changeAll (cleanupStatements (args.isFresh t)) (args.abandon t)

/-- No row is left of the dead operation. -/
def NothingRemains (t : Tables) : Prop :=
  ∀ statement ∈ cleanupStatements false, statement.finds args t = false

/-- The constraints of `compaction_operation` refuse the new operation. -/
def insertRejected (t : Tables) : Bool := (args.abandon t).rejectsOperation args.newOperation

/-- The statements after the first that have their effect before the stop. -/
def executed (k : Nat) (t : Tables) : List CleanupStatement :=
  (cleanupStatements (args.isFresh t)).take (if args.insertRejected t then min k 5 else k)

def remaining (k : Nat) (t : Tables) : List CleanupStatement :=
  (cleanupStatements (args.isFresh t)).drop (if args.insertRejected t then min k 5 else k)

/-- Nothing has changed or everything has, and what was abandoned left no row. -/
structure AllOrNothing (k : Nat) (t : Tables) : Prop where
  atomic : args.tablesAt k t = t ∨ args.tablesAt k t = args.effects t
  fenced : args.isFresh t → ¬args.isFresh (args.tablesAt k t) →
    args.NothingRemains (args.tablesAt k t)

/-- The stop is before the first statement, or what was executed found nothing, or
what remains would find nothing. -/
def StopsWhole (t : Tables) : Nat → Prop
  | 0 => True
  | k + 1 =>
      (args.isFresh t = false ∧ ∀ statement ∈ args.executed k t, statement.finds args t = false) ∨
        ∀ statement ∈ args.remaining k t, statement.finds args t = false

end CleanupArgs

/-! ### What one statement changes -/

section

variable {args : CleanupArgs} {t : Tables}

theorem filter_not_eq_self_iff {α : Type} (q : α → Bool) (rows : List α) :
    (rows.filter fun row => !q row) = rows ↔ rows.any q = false := by
  rw [List.filter_eq_self, List.any_eq_false]
  simp

theorem any_filter_not {α : Type} (q : α → Bool) (rows : List α) :
    (rows.filter fun row => !q row).any q = false := by
  rw [List.any_eq_false]
  intro row hrow
  simpa using (List.mem_filter.mp hrow).2

theorem resetCompaction_eq_self_iff (row : CanonicalTurnRecord) :
    (resetCompaction args).apply row = row ↔
      args.ofDeadOperation row.compactionOperationId row.conversationId = false := by
  unfold resetCompaction CleanupArgs.ofDeadOperation
  dsimp only
  split_ifs with hdead
  · constructor
    · intro heq
      have hnone := congrArg CanonicalTurnRecord.compactionOperationId heq
      exact absurd (hnone.trans hdead.2) (by simp)
    · intro hfalse
      simp [hdead] at hfalse
  · rw [eq_self_iff_true, true_iff, Bool.and_eq_false_iff, decide_eq_false_iff_not,
      decide_eq_false_iff_not]
    by_cases hconversation : row.conversationId = args.conversationId
    · exact .inl fun hop => hdead ⟨hconversation, hop⟩
    · exact .inr hconversation

theorem finds_change_of_ne {s s' : CleanupStatement} (h : s ≠ s') :
    s.finds args (s'.change args t) = s.finds args t := by
  cases s <;> cases s' <;> first | rfl | exact absurd rfl h

theorem finds_change_self {s : CleanupStatement} (h : s ≠ .insertOperation) :
    s.finds args (s.change args t) = false := by
  cases s with
  | insertOperation => exact absurd rfl h
  | resetCanonicalTurns =>
      change (t.canonicalTurns.update (resetCompaction args)).rows.any _ = false
      rw [CanonicalTurns.rows_update, List.any_map, List.any_eq_false]
      intro row _
      simp only [Function.comp_apply, Bool.not_eq_true, ← resetCompaction_eq_self_iff]
      unfold resetCompaction
      dsimp only
      split_ifs with hdead hagain
      · exact absurd hagain.2 (by simp)
      · rfl
      · rfl
  | deleteSegments => exact any_filter_not _ t.segments
  | deleteFacts => exact any_filter_not _ t.facts
  | deleteTagSummaries => exact any_filter_not _ t.tagSummaries
  | deleteTagSummaryEmbeddings => exact any_filter_not _ t.tagSummaryEmbeddings

/-- A statement that finds nothing changes nothing. -/
theorem change_eq_self {s : CleanupStatement} (h : s.finds args t = false) :
    s.change args t = t := by
  cases s with
  | insertOperation => cases h
  | resetCanonicalTurns =>
      have hrows : t.canonicalTurns.update (resetCompaction args) = t.canonicalTurns := by
        refine CanonicalTurns.ext ?_
        rw [CanonicalTurns.rows_update]
        refine (List.map_congr_left fun row hrow => ?_).trans (List.map_id _)
        rw [id, resetCompaction_eq_self_iff]
        exact Bool.eq_false_iff.mpr (List.any_eq_false.mp h row hrow)
      rw [CleanupStatement.change, hrows]
  | deleteSegments =>
      have hrows := (filter_not_eq_self_iff (fun row : SegmentRecord =>
        args.ofDeadOperation row.operationId row.conversationId) t.segments).mpr h
      rw [CleanupStatement.change, hrows]
  | deleteFacts =>
      have hrows := (filter_not_eq_self_iff (fun row : FactRecord =>
        args.ofDeadOperation row.operationId row.conversationId) t.facts).mpr h
      rw [CleanupStatement.change, hrows]
  | deleteTagSummaries =>
      have hrows := (filter_not_eq_self_iff (fun row : TagSummaryRecord =>
        args.ofDeadOperation row.operationId row.conversationId) t.tagSummaries).mpr h
      rw [CleanupStatement.change, hrows]
  | deleteTagSummaryEmbeddings =>
      have hrows := (filter_not_eq_self_iff (fun row : TagSummaryEmbeddingRecord =>
        args.ofDeadOperation row.operationId row.conversationId)
          t.tagSummaryEmbeddings).mpr h
      rw [CleanupStatement.change, hrows]

/-! ### What several statements change -/

/-- Each table is searched by one statement only. -/
theorem finds_changeAll {s : CleanupStatement} (h : s ≠ .insertOperation)
    (statements : List CleanupStatement) (t : Tables) :
    s.finds args (args.changeAll statements t) =
      (s.finds args t && decide (s ∉ statements)) := by
  induction statements generalizing t with
  | nil => simp [CleanupArgs.changeAll]
  | cons statement statements ih =>
      rw [CleanupArgs.changeAll, List.foldl_cons, ← CleanupArgs.changeAll, ih]
      by_cases heq : s = statement
      · subst heq
        simp [finds_change_self h]
      · simp [finds_change_of_ne heq, heq]

theorem operations_changeAll (statements : List CleanupStatement) (t : Tables) :
    (args.changeAll statements t).compactionOperation = t.compactionOperation ++
      List.replicate (statements.count .insertOperation) args.newOperation := by
  induction statements generalizing t with
  | nil => simp [CleanupArgs.changeAll]
  | cons statement statements ih =>
      rw [CleanupArgs.changeAll, List.foldl_cons, ← CleanupArgs.changeAll, ih]
      cases statement with
      | insertOperation =>
          rw [List.count_cons_self, List.replicate_succ, CleanupStatement.change,
            List.append_assoc]
          rfl
      | _ => rw [List.count_cons_of_ne (by simp)]; rfl

theorem changeAll_eq_self_iff (statements : List CleanupStatement) :
    args.changeAll statements t = t ↔
      ∀ statement ∈ statements, statement.finds args t = false := by
  constructor
  · intro h statement hmem
    by_cases hinsert : statement = .insertOperation
    · subst hinsert
      have hoperations := congrArg (·.compactionOperation.length) h
      rw [operations_changeAll, List.length_append, List.length_replicate] at hoperations
      have hcount := List.count_pos_iff.mpr hmem
      omega
    · have hfinds : statement.finds args (args.changeAll statements t) = _ :=
        finds_changeAll hinsert statements t
      rw [h, decide_eq_false (not_not.mpr hmem), Bool.and_false] at hfinds
      exact hfinds
  · intro h
    induction statements with
    | nil => rfl
    | cons statement statements ih =>
        obtain ⟨hfirst, hrest⟩ := List.forall_mem_cons.mp h
        rw [CleanupArgs.changeAll, List.foldl_cons, change_eq_self hfirst]
        exact ih hrest

theorem changeAll_append (front back : List CleanupStatement) (t : Tables) :
    args.changeAll (front ++ back) t = args.changeAll back (args.changeAll front t) :=
  List.foldl_append

/-! ## Where a cleanup stops -/

theorem run_abandonOperation_isFresh (args : CleanupArgs) (t : Tables) (n : Nat) :
    (abandonOperation args).run .quiet (.idle t n) =
      (.ok (args.isFresh t), .idle (args.abandon t) n) := by
  have hcount : decide (0 < (t.compactionOperation.filter args.takesOver).length) =
      args.isFresh t := by
    rw [CleanupArgs.isFresh, Bool.eq_iff_iff, decide_eq_true_eq, List.length_pos_iff,
      ne_eq, List.filter_eq_nil_iff, List.any_eq_true]
    push Not
    exact Iff.rfl
  simp only [abandonOperation, updateOperations, run_bind, run_write_quiet, andThen_ok,
    run_pure, Conn.view_idle, Conn.store_idle]
  rw [← hcount]
  rfl

/-- A cleanup that is not stopped executes seven statements. -/
theorem tablesAt_seven (args : CleanupArgs) (t : Tables) :
    args.tablesAt 7 t =
      ((cleanupAbandonedCompaction 0 args).run .quiet (.idle t 0)).2.durable := by
  have hall : (cleanupStatements (args.isFresh t)).take 6 =
      cleanupStatements (args.isFresh t) := by
    cases args.isFresh t <;> rfl
  obtain ⟨outcome, t', hrun⟩ := runCleanupStatements_idle args
    (cleanupStatements (args.isFresh t)) (args.abandon t) 0
  rw [CleanupArgs.tablesAt, stoppedCleanup, cleanupAbandonedCompaction, run_withConn, run_bind,
    run_bind, run_abandonOperation_isFresh, andThen_ok, andThen_ok, hall, run_bind, hrun]
  cases outcome <;> rfl

theorem runCleanupStatements_of_insert_not_mem {statements : List CleanupStatement}
    (h : CleanupStatement.insertOperation ∉ statements) (t : Tables) (n : Nat) :
    (runCleanupStatements args statements).run .quiet (.idle t n) =
      (.ok (), .idle (args.changeAll statements t) n) := by
  induction statements generalizing t with
  | nil => rfl
  | cons statement statements ih =>
      have hfirst := (List.ne_of_not_mem_cons h).symm
      have hrest := List.not_mem_of_not_mem_cons h
      have hrun : (statement.program args).run .quiet (.idle t n) =
          (.ok (), .idle (statement.change args t) n) := by
        cases statement with
        | insertOperation => exact absurd rfl hfirst
        | _ => exact run_update_quiet _ _ _
      rw [runCleanupStatements, run_bind, hrun]
      exact ih hrest _

theorem rejectsOperation_changeAll {statements : List CleanupStatement}
    (h : CleanupStatement.insertOperation ∉ statements) (t : Tables)
    (operation : CompactionOperationRecord) :
    (args.changeAll statements t).rejectsOperation operation = t.rejectsOperation operation := by
  induction statements generalizing t with
  | nil => rfl
  | cons statement statements ih =>
      have hfirst := (List.ne_of_not_mem_cons h).symm
      have hrest := List.not_mem_of_not_mem_cons h
      rw [CleanupArgs.changeAll, List.foldl_cons, ← CleanupArgs.changeAll, ih hrest]
      cases statement with
      | insertOperation => exact absurd rfl hfirst
      | _ => rfl

/-- Only the last statement may raise, and then the others are durable. -/
theorem run_cleanupStatements_true (t : Tables) (n : Nat) :
    ((runCleanupStatements args (cleanupStatements true)).run .quiet (.idle t n)).2 =
      .idle (args.changeAll ((cleanupStatements true).take
        (if t.rejectsOperation args.newOperation then 5 else 6)) t) n := by
  let cleaned := args.changeAll (cleanupStatements false) t
  have hrejects : cleaned.rejectsOperation args.newOperation =
      t.rejectsOperation args.newOperation := rejectsOperation_changeAll (by decide) t _
  have hrun : (runCleanupStatements args (cleanupStatements true)).run .quiet (.idle t n) =
      andThen ((insertOperation args.newOperation).run .quiet (.idle cleaned n))
        fun _ c => (.ok (), c) := by
    simp only [cleanupStatements, if_true, List.cons_append, List.nil_append,
      runCleanupStatements, run_bind, run_pure]
    rfl
  rw [hrun, run_insertOperation, Conn.view_idle, hrejects]
  split_ifs <;> rfl

/-- The tables at a stop are those after the executed statements. -/
theorem tablesAt_succ (k : Nat) (t : Tables) :
    args.tablesAt (k + 1) t = args.changeAll (args.executed k t) (args.abandon t) := by
  have hrun : args.tablesAt (k + 1) t =
      ((runCleanupStatements args ((cleanupStatements (args.isFresh t)).take k)).run .quiet
        (.idle (args.abandon t) 0)).2.durable := by
    rw [CleanupArgs.tablesAt, stoppedCleanup, run_bind, run_abandonOperation_isFresh]
    rfl
  rw [hrun, CleanupArgs.executed]
  by_cases hwhole : args.isFresh t = true ∧ 6 ≤ k
  · have hall : (cleanupStatements true).take k = cleanupStatements true :=
      List.take_of_length_le hwhole.2
    rw [hwhole.1, hall, run_cleanupStatements_true, CleanupArgs.insertRejected]
    split_ifs
    · rw [Nat.min_eq_right (by omega)]
      rfl
    · rw [hall]
      rfl
  · have hbefore : (cleanupStatements (args.isFresh t)).take k =
        (cleanupStatements false).take k := by
      cases hfresh : args.isFresh t with
      | false => rfl
      | true =>
          have hle : k ≤ (cleanupStatements false).length := by
            have hlt : ¬6 ≤ k := fun hle => hwhole ⟨hfresh, hle⟩
            simp only [cleanupStatements, Bool.false_eq_true, if_false, List.append_nil,
              List.length_cons, List.length_nil]
            omega
          have hsplit : cleanupStatements true = cleanupStatements false ++ [.insertOperation] :=
            rfl
          rw [hsplit]
          exact List.take_append_of_le_length hle
    have hnone : CleanupStatement.insertOperation ∉
        (cleanupStatements (args.isFresh t)).take k := by
      rw [hbefore]
      exact fun hmem => absurd (List.mem_of_mem_take hmem) (by decide)
    have htake : (cleanupStatements (args.isFresh t)).take (min k 5) =
        (cleanupStatements (args.isFresh t)).take k := by
      rcases Nat.le_total k 5 with hle | hle
      · rw [Nat.min_eq_left hle]
      · have hfalse : args.isFresh t = true → k = 5 := fun hfresh => by
          have hlt : ¬6 ≤ k := fun hle => hwhole ⟨hfresh, hle⟩
          omega
        cases hfresh : args.isFresh t with
        | false =>
            have hall : (cleanupStatements false).take k = cleanupStatements false :=
              List.take_of_length_le hle
            rw [Nat.min_eq_right hle, hall]
            rfl
        | true => rw [hfalse hfresh, Nat.min_self]
    rw [runCleanupStatements_of_insert_not_mem hnone]
    split_ifs
    · rw [htake]
      rfl
    · rfl

theorem finds_abandon (s : CleanupStatement) : s.finds args (args.abandon t) = s.finds args t := by
  cases s <;> rfl

theorem abandon_eq_self_iff : args.abandon t = t ↔ args.isFresh t = false := by
  rw [CleanupArgs.isFresh, List.any_eq_false]
  constructor
  · intro h row hrow htakes
    have hrows := congrArg Tables.compactionOperation h
    have hself := List.map_eq_map_iff.mp (hrows.trans (List.map_id _).symm) row hrow
    rw [id, if_pos htakes] at hself
    have hstatus := congrArg CompactionOperationRecord.status hself
    simp only [CleanupArgs.takesOver, Bool.and_eq_true, decide_eq_true_eq] at htakes
    rw [htakes.2] at hstatus
    cases hstatus
  · intro h
    have hrows : (args.abandon t).compactionOperation = t.compactionOperation :=
      (List.map_congr_left fun row hrow => if_neg (h row hrow)).trans (List.map_id _)
    unfold CleanupArgs.abandon at hrows ⊢
    dsimp only at hrows
    rw [hrows]

/-- What was executed left the tables as they were only if it found nothing. -/
theorem executed_eq_self_iff (statements : List CleanupStatement) :
    args.changeAll statements (args.abandon t) = t ↔
      args.isFresh t = false ∧ ∀ statement ∈ statements, statement.finds args t = false := by
  constructor
  · intro h
    have hoperations := congrArg Tables.compactionOperation h
    rw [operations_changeAll] at hoperations
    have hlength := congrArg List.length hoperations
    rw [List.length_append, List.length_replicate] at hlength
    have hmap : (args.abandon t).compactionOperation.length = t.compactionOperation.length :=
      List.length_map _
    have hcount : statements.count .insertOperation = 0 := by omega
    rw [hcount, List.replicate_zero, List.append_nil] at hoperations
    have hsame : args.abandon t = t := by
      unfold CleanupArgs.abandon at hoperations ⊢
      dsimp only at hoperations
      rw [hoperations]
    rw [hsame] at h
    exact ⟨abandon_eq_self_iff.mp hsame, changeAll_eq_self_iff _ |>.mp h⟩
  · rintro ⟨hfresh, hfinds⟩
    rw [abandon_eq_self_iff.mpr hfresh]
    exact (changeAll_eq_self_iff _).mpr hfinds

theorem cleanupStatements_nodup (freshTakeover : Bool) :
    (cleanupStatements freshTakeover).Nodup := by
  cases freshTakeover <;> decide

/-- Nothing is missing of the effects only if what remains would find nothing. -/
theorem executed_eq_effects_iff (k : Nat) :
    args.changeAll (args.executed k t) (args.abandon t) = args.effects t ↔
      ∀ statement ∈ args.remaining k t, statement.finds args t = false := by
  have hsplit : cleanupStatements (args.isFresh t) =
      args.executed k t ++ args.remaining k t := (List.take_append_drop _ _).symm
  have hdisjoint : ∀ statement ∈ args.remaining k t, statement ∉ args.executed k t := by
    have hnodup := cleanupStatements_nodup (args.isFresh t)
    rw [hsplit, List.nodup_append] at hnodup
    exact fun statement hremaining hexecuted =>
      hnodup.2.2 _ hexecuted _ hremaining rfl
  rw [CleanupArgs.effects, hsplit, changeAll_append, eq_comm, changeAll_eq_self_iff]
  refine forall₂_congr fun statement hmem => ?_
  by_cases hinsert : statement = .insertOperation
  · subst hinsert
    exact Iff.rfl
  · rw [finds_changeAll hinsert, finds_abandon, decide_eq_true (hdisjoint statement hmem),
      Bool.and_true]

theorem nothingRemains_effects : args.NothingRemains (args.effects t) := by
  intro statement hmem
  have hinsert : statement ≠ .insertOperation := fun heq =>
    absurd (heq ▸ hmem) (by decide)
  have hexecuted : statement ∈ cleanupStatements (args.isFresh t) :=
    List.mem_append_left _ (by simpa [cleanupStatements] using hmem)
  rw [CleanupArgs.effects, finds_changeAll hinsert, decide_eq_false (not_not.mpr hexecuted),
    Bool.and_false]

theorem cleanup_all_or_nothing_iff (args : CleanupArgs) (k : Nat) (t : Tables) :
    args.AllOrNothing k t ↔ args.StopsWhole t k := by
  have hatomic : args.tablesAt k t = t ∨ args.tablesAt k t = args.effects t ↔
      args.StopsWhole t k := by
    cases k with
    | zero => exact iff_of_true (.inl rfl) trivial
    | succ k =>
        rw [tablesAt_succ, executed_eq_self_iff, executed_eq_effects_iff]
        rfl
  constructor
  · exact fun h => hatomic.mp h.atomic
  · intro h
    refine ⟨hatomic.mpr h, fun hfresh hstopped => ?_⟩
    rcases hatomic.mpr h with hsame | heffects
    · rw [hsame] at hstopped
      exact absurd hfresh hstopped
    · rw [heffects]
      exact nothingRemains_effects

/-- Stopped behind its first statement, a cleanup leaves the segments of the dead. -/
theorem segments_outlive_stop :
    ¬takeoverArgs.AllOrNothing 1 { compacting.tables with
      segments := [{ ref := "s", conversationId := "c", operationId := some "dead" }] } := by
  intro h
  have hremains := h.fenced (by decide +kernel) (by decide +kernel)
  exact absurd (hremains .deleteSegments (by decide)) (by decide +kernel)

end

end VirtualContext
