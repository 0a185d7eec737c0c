import VirtualContext.Storage.Takeover

/-!
# What a takeover undoes

The writes of an operation take the place of earlier rows with their keys, and
the cleanup removes them together with what they replaced.  Exactly the rows
that no write of the operation touched are as they were.
-/

namespace VirtualContext

open VirtualContext.Library

/-! ## Writes, then the cleanup -/

def runWrites (writes : List CompactionWrite) (c : Conn Tables) :
    Conn Tables :=
  writes.foldl (fun c write => (write.call.run .quiet c).2) c

/-- The tables after the writes and the cleanup. -/
def undone (writes : List CompactionWrite) (args : CleanupArgs) (t : Tables)
    (n : Nat) : Tables :=
  ((cleanupAbandonedCompaction 0 args).run .quiet
    (runWrites writes (.idle t n))).2.durable

/-- What other operations had written is there as it was. -/
structure KeepsEarlier (operationId : String) (t t' : Tables) : Prop where
  segments : ∀ row ∈ t.segments, row.operationId ≠ some operationId →
    row ∈ t'.segments
  facts : ∀ row ∈ t.facts, row.operationId ≠ some operationId →
    row ∈ t'.facts
  tagSummaries : ∀ row ∈ t.tagSummaries, row.operationId ≠ some operationId →
    row ∈ t'.tagSummaries
  turns : ∀ row ∈ t.canonicalTurns.rows,
    row.compactionOperationId ≠ some operationId →
      ∃ row' ∈ t'.canonicalTurns.rows,
        row'.canonicalTurnId = row.canonicalTurnId ∧
          row'.compactedAt = row.compactedAt

/-! ## The condition -/

/-- What the writes do to the facts, one row at a time. -/
inductive FactEvent where
  | insert (fact : Fact)
  | clear (conversationId : ConversationId) (segmentRef : String)

namespace FactEvent

def touches (row : FactRecord) : FactEvent → Bool
  | insert fact => fact.id = row.id
  | clear conversationId segmentRef =>
      row.conversationId = conversationId && row.segmentRef = segmentRef

def stores (row : FactRecord) : FactEvent → Prop
  | insert fact => row = { fact with }
  | clear _ _ => False

def apply (facts : List FactRecord) : FactEvent → List FactRecord
  | insert fact => replaceBy (·.id) { fact with } facts
  | clear conversationId segmentRef =>
      facts.filter fun fact =>
        !(fact.conversationId = conversationId &&
          fact.segmentRef = segmentRef)

end FactEvent

def CompactionWrite.factEvents : CompactionWrite → List FactEvent
  | storeFacts facts _ => facts.map .insert
  | replaceFactsForSegment conversationId segmentRef facts _ =>
      .clear conversationId segmentRef :: facts.map .insert
  | _ => []

/--
The calls that do not raise store no segment and save no summary over an earlier
one, mark no turn that was compacted before, and the last of them to touch an
earlier fact stores it as it was.
-/
structure SparesEarlier (operationId : String) (writes : List CompactionWrite)
    (t : Tables) : Prop where
  segments : ∀ row ∈ t.segments, row.operationId ≠ some operationId →
    ∀ write ∈ writes, write.applies t = true →
      .segment row.ref ∉ write.keys t
  facts : ∀ row ∈ t.facts, row.operationId ≠ some operationId →
    ∀ event ∈ (((writes.filter (·.applies t)).flatMap (·.factEvents)).filter
      (·.touches row)).getLast?, event.stores row
  tagSummaries : ∀ row ∈ t.tagSummaries, row.operationId ≠ some operationId →
    ∀ write ∈ writes, write.applies t = true →
      .tagSummary row.tag row.conversationId ∉ write.keys t
  turns : ∀ row ∈ t.canonicalTurns.rows,
    row.compactionOperationId ≠ some operationId →
      ∀ write ∈ writes, write.applies t = true →
        .stamp row.canonicalTurnId ∈ write.keys t → row.compactedAt = none

/-! ## Runs of writes -/

/-- The operations are the same, and the turns are up to what marks them. -/
structure SameTurns (t t' : Tables) : Prop where
  operations : t'.compactionOperation = t.compactionOperation
  turns : ∃ f : CanonicalTurnRecord → CanonicalTurnRecord,
    t'.canonicalTurns.rows = t.canonicalTurns.rows.map f ∧
      ∀ row, (f row).canonicalTurnId = row.canonicalTurnId ∧
        (f row).conversationId = row.conversationId ∧
        (f row).turnGroupNumber = row.turnGroupNumber

namespace SameTurns

variable {t t' : Tables}

theorem refl (t : Tables) : SameTurns t t :=
  ⟨rfl, id, (List.map_id _).symm, fun _ => ⟨rfl, rfl, rfl⟩⟩

theorem of_eq (hoperations : t'.compactionOperation = t.compactionOperation)
    (hturns : t'.canonicalTurns = t.canonicalTurns) : SameTurns t t' :=
  ⟨hoperations, id, by rw [hturns, List.map_id], fun _ => ⟨rfl, rfl, rfl⟩⟩

theorem filter_marked (h : SameTurns t t') (conversationId : ConversationId)
    (ids : List Uuid) :
    ((t'.canonicalTurns.rows.filter
      (t'.canonicalTurns.inMarkedGroup conversationId ids)).map
        fun row => row.canonicalTurnId) =
      (t.canonicalTurns.rows.filter
        (t.canonicalTurns.inMarkedGroup conversationId ids)).map
          fun row => row.canonicalTurnId := by
  obtain ⟨f, hrows, hf⟩ := h.turns
  have hmarked (row : CanonicalTurnRecord) :
      t'.canonicalTurns.inMarkedGroup conversationId ids (f row) =
        t.canonicalTurns.inMarkedGroup conversationId ids row := by
    obtain ⟨hid, hconversation, hgroup⟩ := hf row
    simp only [CanonicalTurns.inMarkedGroup, hrows, List.any_map,
      Function.comp_def, hid, hconversation, hgroup, fun row => (hf row).1,
      fun row => (hf row).2.1, fun row => (hf row).2.2]
  rw [hrows, List.filter_map, List.map_map]
  simp only [Function.comp_def, hmarked, fun row => (hf row).1]

theorem keys_eq (h : SameTurns t t') (write : CompactionWrite) :
    write.keys t' = write.keys t := by
  cases write with
  | markCanonicalTurnsCompacted now conversationId ids compactedAt guard =>
      have hids := congrArg (List.map WriteKey.stamp)
        (h.filter_marked conversationId ids)
      rwa [List.map_map, List.map_map] at hids
  | _ => rfl

theorem applies_eq (h : SameTurns t t') (write : CompactionWrite) :
    write.applies t' = write.applies t := by
  have howns := ownsCompaction_congr h.operations
  cases write with
  | markCanonicalTurnsCompacted now conversationId ids compactedAt guard =>
      have hlength := congrArg List.length (h.filter_marked conversationId ids)
      have hany : t'.canonicalTurns.rows.any
          (t'.canonicalTurns.inMarkedGroup conversationId ids) =
          t.canonicalTurns.rows.any
            (t.canonicalTurns.inMarkedGroup conversationId ids) := by
        rw [List.length_map, List.length_map, ← List.countP_eq_length_filter,
          ← List.countP_eq_length_filter] at hlength
        rw [Bool.eq_iff_iff, List.any_eq_true, List.any_eq_true,
          ← List.countP_pos_iff, ← List.countP_pos_iff, hlength]
      rw [CompactionWrite.applies, CompactionWrite.applies, howns, hany]
  | _ =>
      simp only [CompactionWrite.applies, CompactionWrite.acceptsFacts, howns]

theorem trans {t'' : Tables} (h : SameTurns t t') (h' : SameTurns t' t'') :
    SameTurns t t'' := by
  obtain ⟨f, hrows, hf⟩ := h.turns
  obtain ⟨g, hrows', hg⟩ := h'.turns
  refine ⟨h'.operations.trans h.operations, g ∘ f, ?_, fun row => ?_⟩
  · rw [hrows', hrows, List.map_map]
  · obtain ⟨hid, hconversation, hgroup⟩ := hf row
    obtain ⟨hid', hconversation', hgroup'⟩ := hg (f row)
    exact ⟨hid'.trans hid, hconversation'.trans hconversation,
      hgroup'.trans hgroup⟩

theorem after (t : Tables) (write : CompactionWrite) :
    SameTurns t (write.after t) := by
  have hoperations := TakeoverInv.after_compactionOperation write t
  cases write with
  | storeFacts facts guard =>
      refine of_eq hoperations ?_
      rw [CompactionWrite.after, replaceFacts_eq]
  | replaceFactsForSegment conversationId segmentRef facts guard =>
      refine of_eq hoperations ?_
      rw [CompactionWrite.after, replaceFacts_eq]
      rfl
  | markCanonicalTurnsCompacted now conversationId ids compactedAt guard =>
      refine ⟨rfl, _, rfl, fun row => ?_⟩
      unfold markCompacted
      dsimp only
      split_ifs <;> exact ⟨rfl, rfl, rfl⟩
  | _ => exact of_eq hoperations rfl

end SameTurns

/-- The calls that raise leave nothing behind. -/
theorem runWrites_idle (writes : List CompactionWrite) (t : Tables) (n : Nat) :
    runWrites writes (.idle t n) =
      .idle ((writes.filter (·.applies t)).foldl CompactionWrite.after t) n := by
  induction writes generalizing t with
  | nil => rfl
  | cons write writes ih =>
      rw [runWrites, List.foldl_cons, ← runWrites, List.filter_cons]
      rcases run_call write t n with ⟨happlies, hrun⟩ | ⟨hraises, raised, hrun⟩
      · have happlies' : (fun other : CompactionWrite =>
            other.applies (write.after t)) = (·.applies t) :=
          funext (SameTurns.after t write).applies_eq
        rw [hrun, if_pos happlies, List.foldl_cons, ih, happlies']
      · rw [hrun, if_neg (by simp [hraises]), ih]

section Rows

variable {t : Tables} {operationId : String} {key : WriteKey}

/-- A property that exactly the writes of one key end. -/
theorem foldl_after_iff (holds : Tables → Prop)
    (hstep : ∀ t write, CompactionWrite.operationId write = operationId →
      (holds (write.after t) ↔ holds t ∧ key ∉ write.keys t))
    {writes : List CompactionWrite}
    (hwrites : ∀ write ∈ writes, write.operationId = operationId) (t : Tables) :
    holds (writes.foldl CompactionWrite.after t) ↔
      holds t ∧ ∀ write ∈ writes, key ∉ write.keys t := by
  induction writes generalizing t with
  | nil => simp
  | cons write writes ih =>
      obtain ⟨hwrite, hrest⟩ := List.forall_mem_cons.mp hwrites
      rw [List.foldl_cons, ih hrest, hstep t write hwrite,
        List.forall_mem_cons, and_assoc]
      simp only [(SameTurns.after t write).keys_eq]

theorem segment_kept_iff {row : SegmentRecord}
    (hrow : row.operationId ≠ some operationId) {writes : List CompactionWrite}
    (hwrites : ∀ write ∈ writes, write.operationId = operationId) (t : Tables) :
    row ∈ (writes.foldl CompactionWrite.after t).segments ↔
      row ∈ t.segments ∧ ∀ write ∈ writes, .segment row.ref ∉ write.keys t := by
  refine foldl_after_iff (row ∈ ·.segments) ?_ hwrites t
  intro t write hwrite
  cases write with
  | storeSegment segment guard =>
      have hnew : row ≠ segment.record (some guard) := by
        rintro rfl
        exact hrow (congrArg some hwrite)
      rw [CompactionWrite.after, Tables.replaceSegment, mem_replaceBy,
        or_iff_right hnew]
      simp [CompactionWrite.keys, StoredSegment.record]
  | storeFacts facts guard =>
      rw [CompactionWrite.after, replaceFacts_eq]
      simp [CompactionWrite.keys]
  | replaceFactsForSegment conversationId segmentRef facts guard =>
      rw [CompactionWrite.after, replaceFacts_eq]
      simp [CompactionWrite.keys, Tables.clearFacts]
  | saveTagSummary summary conversationId guard =>
      simp [CompactionWrite.after, CompactionWrite.keys, Tables.upsertTagSummary]
  | markCanonicalTurnsCompacted now conversationId ids compactedAt guard =>
      simp [CompactionWrite.after, CompactionWrite.keys]

theorem tagSummary_kept_iff {row : TagSummaryRecord}
    (hrow : row.operationId ≠ some operationId) {writes : List CompactionWrite}
    (hwrites : ∀ write ∈ writes, write.operationId = operationId) (t : Tables) :
    row ∈ (writes.foldl CompactionWrite.after t).tagSummaries ↔
      row ∈ t.tagSummaries ∧ ∀ write ∈ writes,
        .tagSummary row.tag row.conversationId ∉ write.keys t := by
  refine foldl_after_iff (row ∈ ·.tagSummaries) ?_ hwrites t
  intro t write hwrite
  cases write with
  | storeSegment segment guard =>
      simp [CompactionWrite.after, CompactionWrite.keys, Tables.replaceSegment]
  | storeFacts facts guard =>
      rw [CompactionWrite.after, replaceFacts_eq]
      simp [CompactionWrite.keys]
  | replaceFactsForSegment conversationId segmentRef facts guard =>
      rw [CompactionWrite.after, replaceFacts_eq]
      simp [CompactionWrite.keys, Tables.clearFacts]
  | saveTagSummary summary conversationId guard =>
      have hkey : WriteKey.tagSummary row.tag row.conversationId ∉
          (CompactionWrite.saveTagSummary summary conversationId guard).keys t ↔
            row.key ≠ (summary.tag, conversationId) := by
        simp [CompactionWrite.keys, TagSummaryRecord.key]
      rw [hkey]
      constructor
      · intro hmem
        rcases mem_upsertBy hmem with rfl | ⟨stored, -, rfl⟩ | hkept
        · exact absurd (congrArg some hwrite) hrow
        · exact absurd (congrArg some hwrite) hrow
        · exact hkept
      · exact fun hkept => mem_upsertBy_of_ne hkept.1 hkept.2
  | markCanonicalTurnsCompacted now conversationId ids compactedAt guard =>
      simp [CompactionWrite.after, CompactionWrite.keys]

/-! ### Facts -/

theorem facts_after (write : CompactionWrite) (t : Tables) :
    (write.after t).facts = write.factEvents.foldl FactEvent.apply t.facts := by
  cases write with
  | storeFacts facts guard =>
      rw [CompactionWrite.after, replaceFacts_eq, CompactionWrite.factEvents,
        List.foldl_map]
      rfl
  | replaceFactsForSegment conversationId segmentRef facts guard =>
      rw [CompactionWrite.after, replaceFacts_eq, CompactionWrite.factEvents,
        List.foldl_cons, List.foldl_map]
      rfl
  | _ => rfl

theorem facts_foldl_after (writes : List CompactionWrite) (t : Tables) :
    (writes.foldl CompactionWrite.after t).facts =
      (writes.flatMap (·.factEvents)).foldl FactEvent.apply t.facts := by
  induction writes generalizing t with
  | nil => rfl
  | cons write writes ih =>
      rw [List.foldl_cons, ih, facts_after, List.flatMap_cons,
        List.foldl_append]

theorem fact_kept_iff {row : FactRecord} (writes : List CompactionWrite)
    (hrow : row ∈ t.facts) :
    row ∈ (writes.foldl CompactionWrite.after t).facts ↔
      ∀ event ∈ ((writes.flatMap (·.factEvents)).filter
        (·.touches row)).getLast?, event.stores row := by
  rw [facts_foldl_after,
    foldl_last_iff (row ∈ ·) (·.touches row) (·.stores row)]
  · cases ((writes.flatMap (·.factEvents)).filter
      (·.touches row)).getLast? <;> simp [hrow]
  · intro facts event htouches
    cases event with
    | insert fact =>
        have hid : row.id = fact.id := (of_decide_eq_true htouches).symm
        rw [FactEvent.apply, mem_replaceBy]
        exact or_iff_left fun hkept => hkept.2 hid
    | clear conversationId segmentRef =>
        refine iff_of_false (fun hkept => ?_) id
        have hnot := (List.mem_filter.mp hkept).2
        simp only [FactEvent.touches] at htouches
        rw [htouches] at hnot
        cases hnot
  · intro facts event hmisses
    cases event with
    | insert fact =>
        have hid : row.id ≠ fact.id := fun h => of_decide_eq_false hmisses h.symm
        rw [FactEvent.apply, mem_replaceBy, and_iff_left hid]
        exact or_iff_right fun heq => hid (congrArg (·.id) heq)
    | clear conversationId segmentRef =>
        simp only [FactEvent.touches] at hmisses
        simp only [FactEvent.apply, List.mem_filter, hmisses, Bool.not_false,
          and_true]

/-! ### Compaction stamps -/

/-- The stored turn with an identifier. -/
theorem row_eq_of_id {row row' : CanonicalTurnRecord}
    (hrow : row ∈ t.canonicalTurns.rows) (hrow' : row' ∈ t.canonicalTurns.rows)
    (hid : row.canonicalTurnId = row'.canonicalTurnId) : row = row' :=
  List.inj_on_of_nodup_map t.canonicalTurns.primaryKey hrow hrow' hid

theorem markCompacted_marked {turns : CanonicalTurns}
    {conversationId : ConversationId} {ids : List Uuid} {timestamp : String}
    (guard : Option CompactionGuard) {row : CanonicalTurnRecord}
    (h : turns.inMarkedGroup conversationId ids row = true) :
    (markCompacted turns conversationId ids timestamp guard).apply row =
      { row with
        compactedAt := some timestamp
        updatedAt := timestamp
        compactionOperationId :=
          match guard with
          | none => row.compactionOperationId
          | some guard => some guard.operationId } :=
  if_pos h

theorem markCompacted_unmarked {turns : CanonicalTurns}
    {conversationId : ConversationId} {ids : List Uuid} {timestamp : String}
    (guard : Option CompactionGuard) {row : CanonicalTurnRecord}
    (h : ¬ turns.inMarkedGroup conversationId ids row = true) :
    (markCompacted turns conversationId ids timestamp guard).apply row = row :=
  if_neg h

/-- The turn has the same stamp as before, of another operation. -/
def KeepsStamp (operationId : String) (row : CanonicalTurnRecord) (t : Tables) :
    Prop :=
  ∃ row' ∈ t.canonicalTurns.rows,
    row'.canonicalTurnId = row.canonicalTurnId ∧
      row'.compactedAt = row.compactedAt ∧
      row'.compactionOperationId ≠ some operationId

/-- The turn carries the stamp of the operation. -/
def HasStamp (operationId : String) (conversationId : ConversationId)
    (canonicalTurnId : Uuid) (t : Tables) : Prop :=
  ∃ row ∈ t.canonicalTurns.rows, row.canonicalTurnId = canonicalTurnId ∧
    row.compactionOperationId = some operationId ∧
    row.conversationId = conversationId

/-- A call marks turns, or leaves the table of turns alone. -/
theorem marks_or_leaves (write : CompactionWrite) (t : Tables) :
    (∃ now conversationId ids compactedAt guard, write =
      .markCanonicalTurnsCompacted now conversationId ids compactedAt guard) ∨
    (write.after t).canonicalTurns = t.canonicalTurns ∧
      ∀ canonicalTurnId, .stamp canonicalTurnId ∉ write.keys t := by
  cases write with
  | storeFacts facts guard =>
      refine .inr ⟨?_, by simp [CompactionWrite.keys]⟩
      rw [CompactionWrite.after, replaceFacts_eq]
  | replaceFactsForSegment conversationId segmentRef facts guard =>
      refine .inr ⟨?_, by simp [CompactionWrite.keys]⟩
      rw [CompactionWrite.after, replaceFacts_eq]
      rfl
  | markCanonicalTurnsCompacted now conversationId ids compactedAt guard =>
      exact .inl ⟨_, _, _, _, _, rfl⟩
  | _ => exact .inr ⟨rfl, by simp [CompactionWrite.keys]⟩

theorem keepsStamp_after_iff {row : CanonicalTurnRecord} (t : Tables)
    (write : CompactionWrite) (hwrite : write.operationId = operationId) :
    KeepsStamp operationId row (write.after t) ↔
      KeepsStamp operationId row t ∧
        .stamp row.canonicalTurnId ∉ write.keys t := by
  rcases marks_or_leaves write t with
    ⟨now, conversationId, ids, compactedAt, guard, rfl⟩ | ⟨hsame, hkeys⟩
  · have hkey : WriteKey.stamp row.canonicalTurnId ∈
        (CompactionWrite.markCanonicalTurnsCompacted now conversationId ids
          compactedAt guard).keys t ↔
        ∃ marked ∈ t.canonicalTurns.rows,
          t.canonicalTurns.inMarkedGroup conversationId ids marked = true ∧
            marked.canonicalTurnId = row.canonicalTurnId := by
      simp [CompactionWrite.keys, and_assoc]
    rw [hkey]
    constructor
    · rintro ⟨row', hrow', hid, hstamp, hoperation⟩
      obtain ⟨stored, hstored, rfl⟩ := List.mem_map.mp hrow'
      rw [CanonicalTurns.ColumnUpdate.id_eq] at hid
      by_cases hmarked : t.canonicalTurns.inMarkedGroup conversationId ids stored
      · rw [markCompacted_marked _ hmarked] at hoperation
        exact absurd (congrArg some hwrite) hoperation
      · rw [markCompacted_unmarked _ hmarked] at hstamp hoperation
        refine ⟨⟨stored, hstored, hid, hstamp, hoperation⟩, ?_⟩
        rintro ⟨marked, hmem, hmarked', hid'⟩
        exact hmarked (row_eq_of_id hstored hmem (hid.trans hid'.symm) ▸ hmarked')
    · rintro ⟨⟨stored, hstored, hid, hstamp, hoperation⟩, hunmarked⟩
      have hmarked : ¬ t.canonicalTurns.inMarkedGroup conversationId ids stored :=
        fun hmarked => hunmarked ⟨stored, hstored, hmarked, hid⟩
      refine ⟨stored, List.mem_map.mpr ⟨stored, hstored, ?_⟩, hid, hstamp,
        hoperation⟩
      exact markCompacted_unmarked _ hmarked
  · rw [and_iff_left (hkeys _), KeepsStamp, hsame]
    rfl

theorem hasStamp_after {conversationId : ConversationId}
    {canonicalTurnId : Uuid} (t : Tables) (write : CompactionWrite)
    (hwrite : write.operationId = operationId)
    (h : HasStamp operationId conversationId canonicalTurnId t) :
    HasStamp operationId conversationId canonicalTurnId (write.after t) := by
  obtain ⟨row, hrow, hid, hoperation, hconversation⟩ := h
  rcases marks_or_leaves write t with
    ⟨now, conversationId', ids, compactedAt, guard, rfl⟩ | ⟨hsame, -⟩
  · refine ⟨_, List.mem_map_of_mem hrow, ?_, ?_, ?_⟩
    · rw [CanonicalTurns.ColumnUpdate.id_eq, hid]
    · by_cases hmarked : t.canonicalTurns.inMarkedGroup conversationId' ids row
      · rw [markCompacted_marked _ hmarked]
        exact congrArg some hwrite
      · rw [markCompacted_unmarked _ hmarked, hoperation]
    · rw [CanonicalTurns.ColumnUpdate.conversation_eq, hconversation]
  · rw [HasStamp, hsame]
    exact ⟨row, hrow, hid, hoperation, hconversation⟩

theorem hasStamp_of_key {canonicalTurnId : Uuid} {write : CompactionWrite}
    (hwrite : write.operationId = operationId)
    (happlies : write.applies t = true)
    (h : .stamp canonicalTurnId ∈ write.keys t) :
    ∃ conversationId, t.RunsOperation operationId conversationId ∧
      HasStamp operationId conversationId canonicalTurnId (write.after t) := by
  rcases marks_or_leaves write t with
    ⟨now, conversationId, ids, compactedAt, guard, rfl⟩ | ⟨-, hkeys⟩
  · obtain ⟨row, hrow, hid⟩ := List.mem_map.mp h
    cases hid
    have howned := runs_of_ownsCompaction (owns_of_marked happlies hrow)
    obtain ⟨hrow, hmarked⟩ := List.mem_filter.mp hrow
    refine ⟨conversationId, hwrite ▸ howned, _, List.mem_map_of_mem hrow,
      CanonicalTurns.ColumnUpdate.id_eq _ row, ?_, ?_⟩
    · rw [markCompacted_marked _ hmarked]
      exact congrArg some hwrite
    · rw [CanonicalTurns.ColumnUpdate.conversation_eq]
      simp only [CanonicalTurns.inMarkedGroup, Bool.and_eq_true,
        decide_eq_true_eq] at hmarked
      exact hmarked.1
  · exact absurd h (hkeys canonicalTurnId)

/-- A turn that one of the writes marks carries the stamp when they are done. -/
theorem hasStamp_foldl {conversationId : ConversationId}
    {canonicalTurnId : Uuid} {writes : List CompactionWrite}
    (hwrites : ∀ write ∈ writes, write.operationId = operationId)
    (happlies : ∀ write ∈ writes, write.applies t = true)
    (hconversation : ∀ operation ∈ t.compactionOperation,
      operation.operationId = operationId →
        operation.conversationId = conversationId)
    (h : (∃ write ∈ writes, .stamp canonicalTurnId ∈ write.keys t) ∨
      HasStamp operationId conversationId canonicalTurnId t) :
    HasStamp operationId conversationId canonicalTurnId
      (writes.foldl CompactionWrite.after t) := by
  induction writes generalizing t with
  | nil => simpa using h
  | cons write writes ih =>
      obtain ⟨hwrite, hrest⟩ := List.forall_mem_cons.mp hwrites
      obtain ⟨happly, happlyRest⟩ := List.forall_mem_cons.mp happlies
      have hsame := SameTurns.after t write
      refine ih hrest (fun other hother => ?_) ?_ ?_
      · rw [hsame.applies_eq]
        exact happlyRest other hother
      · rw [hsame.operations]
        exact hconversation
      · rcases h with ⟨other, hother, hkey⟩ | hstamped
        · rcases List.mem_cons.mp hother with rfl | hother
          · obtain ⟨conversationId', ⟨operation, hmem, hid, hof, -⟩, hstamped⟩ :=
              hasStamp_of_key hwrite happly hkey
            rw [← hof, hconversation operation hmem hid] at hstamped
            exact .inr hstamped
          · refine .inl ⟨other, hother, ?_⟩
            rwa [hsame.keys_eq]
        · exact .inr (hasStamp_after t write hwrite hstamped)

end Rows

/-! ## The cleanup -/

/-- What the DELETE and UPDATE statements of a cleanup leave. -/
structure Cleaned (args : CleanupArgs) (t t' : Tables) : Prop where
  segments : t'.segments = t.segments.filter fun row =>
    !args.ofDeadOperation row.operationId row.conversationId
  facts : t'.facts = t.facts.filter fun row =>
    !args.ofDeadOperation row.operationId row.conversationId
  tagSummaries : t'.tagSummaries = t.tagSummaries.filter fun row =>
    !args.ofDeadOperation row.operationId row.conversationId
  turns : t'.canonicalTurns = t.canonicalTurns.update (resetCompaction args)

theorem run_cleanupStatements (args : CleanupArgs) (freshTakeover : Bool)
    (t : Tables) (n : Nat) :
    ∃ outcome t', (runCleanupStatements args (cleanupStatements
      freshTakeover)).run .quiet (.idle t n) = (outcome, .idle t' n) ∧
        Cleaned args t t' := by
  cases freshTakeover with
  | false =>
      refine ⟨.ok (), _, rfl, ?_⟩
      exact ⟨rfl, rfl, rfl, rfl⟩
  | true =>
      let cleaned := CleanupStatement.resetCanonicalTurns.change args
        (CleanupStatement.deleteTagSummaryEmbeddings.change args
          (CleanupStatement.deleteTagSummaries.change args
            (CleanupStatement.deleteFacts.change args
              (CleanupStatement.deleteSegments.change args t))))
      -- a rejected INSERT comes when everything else is durable
      have hrun : (runCleanupStatements args (cleanupStatements true)).run .quiet
          (.idle t n) = Program.andThen
            ((CleanupStatement.insertOperation.program args).run .quiet
              (.idle cleaned n)) fun _ c => (.ok (), c) := by
        simp only [cleanupStatements, if_true, List.cons_append, List.nil_append,
          runCleanupStatements, Program.run_bind, Program.run_pure]
        rfl
      rcases run_cleanupStatement args .insertOperation cleaned n with
        hinsert | ⟨raised, hinsert⟩
      · refine ⟨.ok (), CleanupStatement.insertOperation.change args cleaned, ?_,
          ⟨rfl, rfl, rfl, rfl⟩⟩
        rw [hrun, hinsert]
        rfl
      · refine ⟨.error raised, cleaned, ?_, ⟨rfl, rfl, rfl, rfl⟩⟩
        rw [hrun, hinsert]
        rfl

theorem run_cleanupAbandonedCompaction (args : CleanupArgs) (t : Tables)
    (n : Nat) :
    ∃ t', ((cleanupAbandonedCompaction 0 args).run .quiet (.idle t n)).2 =
      .idle t' n ∧ Cleaned args t t' := by
  obtain ⟨freshTakeover, habandon⟩ := run_abandonOperation args t n
  generalize List.map _ t.compactionOperation = operations at habandon
  obtain ⟨outcome, t', hrun, hcleaned⟩ := run_cleanupStatements args
    freshTakeover { t with compactionOperation := operations } n
  refine ⟨t', ?_, hcleaned.segments, hcleaned.facts, hcleaned.tagSummaries,
    hcleaned.turns⟩
  simp only [cleanupAbandonedCompaction, run_withConn, Program.run_bind,
    habandon, Program.andThen_ok, hrun]
  cases outcome <;> rfl

theorem not_ofDeadOperation {args : CleanupArgs} {operationId : Option String}
    (h : operationId ≠ some args.deadOperationId)
    (conversationId : ConversationId) :
    (!args.ofDeadOperation operationId conversationId) = true := by
  simp [CleanupArgs.ofDeadOperation, h]

theorem resetCompaction_compactedAt {args : CleanupArgs}
    {row : CanonicalTurnRecord} (hconversation : row.conversationId =
      args.conversationId)
    (hoperation : row.compactionOperationId = some args.deadOperationId) :
    ((resetCompaction args).apply row).compactedAt = none := by
  rw [show (resetCompaction args).apply row = _ from
    if_pos ⟨hconversation, hoperation⟩]

/-- A turn with another operation's stamp keeps it; the dead one's is reset. -/
theorem stamp_kept_iff {args : CleanupArgs} {t t' : Tables}
    (hcleaned : Cleaned args t t') {row : CanonicalTurnRecord}
    (h : KeepsStamp args.deadOperationId row t ∨
      HasStamp args.deadOperationId args.conversationId row.canonicalTurnId t) :
    (∃ row' ∈ t'.canonicalTurns.rows,
        row'.canonicalTurnId = row.canonicalTurnId ∧
          row'.compactedAt = row.compactedAt) ↔
      KeepsStamp args.deadOperationId row t ∨ row.compactedAt = none := by
  rw [hcleaned.turns, CanonicalTurns.rows_update]
  constructor
  · rintro ⟨row', hrow', hid, hstamp⟩
    obtain ⟨stored, hstored, rfl⟩ := List.mem_map.mp hrow'
    rw [CanonicalTurns.ColumnUpdate.id_eq] at hid
    refine h.imp_right fun ⟨dead, hdead, hdeadId, hoperation, hconversation⟩ => ?_
    obtain rfl := row_eq_of_id hstored hdead (hid.trans hdeadId.symm)
    rw [← hstamp]
    exact resetCompaction_compactedAt hconversation hoperation
  · intro hkept
    rcases h with ⟨stored, hstored, hid, hstamp, hoperation⟩ |
      ⟨dead, hdead, hid, hoperation, hconversation⟩
    · refine ⟨stored, List.mem_map.mpr ⟨stored, hstored, ?_⟩, hid, hstamp⟩
      exact if_neg fun hdead => hoperation hdead.2
    · rcases hkept with ⟨stored, hstored, hid', -, hoperation'⟩ | hnone
      · obtain rfl := row_eq_of_id hstored hdead (hid'.trans hid.symm)
        exact absurd hoperation hoperation'
      · refine ⟨_, List.mem_map_of_mem hdead, ?_, ?_⟩
        · rw [CanonicalTurns.ColumnUpdate.id_eq, hid]
        · rw [hnone]
          exact resetCompaction_compactedAt hconversation hoperation

/-! ## The claim on the whole run -/

/--
After the writes of one operation and the cleanup after it, the earlier work is
as it was exactly if the writes spared it.
-/
theorem undone_keeps_earlier_iff (t : Tables) (n : Nat) (args : CleanupArgs)
    (writes : List CompactionWrite)
    (hwrites : ∀ write ∈ writes, write.operationId = args.deadOperationId)
    (hconversation : ∀ operation ∈ t.compactionOperation,
      operation.operationId = args.deadOperationId →
        operation.conversationId = args.conversationId) :
    KeepsEarlier args.deadOperationId t (undone writes args t n) ↔
      SparesEarlier args.deadOperationId writes t := by
  obtain ⟨t', hrun, hcleaned⟩ := run_cleanupAbandonedCompaction args
    ((writes.filter (·.applies t)).foldl CompactionWrite.after t) n
  have hundone : undone writes args t n = t' := by
    rw [undone, runWrites_idle, hrun, Conn.durable_idle]
  rw [hundone]
  have happlied : ∀ write ∈ writes.filter (·.applies t),
      write.operationId = args.deadOperationId :=
    fun write hwrite => hwrites write (List.mem_of_mem_filter hwrite)
  have hmem {p : CompactionWrite → Prop} :
      (∀ write ∈ writes.filter (·.applies t), p write) ↔
        ∀ write ∈ writes, write.applies t = true → p write := by
    simp [List.mem_filter]
  have hsegment (row : SegmentRecord) (hrow : row ∈ t.segments)
      (hearlier : row.operationId ≠ some args.deadOperationId) :
      row ∈ t'.segments ↔ ∀ write ∈ writes, write.applies t = true →
        .segment row.ref ∉ write.keys t := by
    rw [hcleaned.segments, List.mem_filter,
      and_iff_left (not_ofDeadOperation hearlier _),
      segment_kept_iff hearlier happlied, and_iff_right hrow, hmem]
  have htagSummary (row : TagSummaryRecord) (hrow : row ∈ t.tagSummaries)
      (hearlier : row.operationId ≠ some args.deadOperationId) :
      row ∈ t'.tagSummaries ↔ ∀ write ∈ writes, write.applies t = true →
        .tagSummary row.tag row.conversationId ∉ write.keys t := by
    rw [hcleaned.tagSummaries, List.mem_filter,
      and_iff_left (not_ofDeadOperation hearlier _),
      tagSummary_kept_iff hearlier happlied, and_iff_right hrow, hmem]
  have hfact (row : FactRecord) (hrow : row ∈ t.facts)
      (hearlier : row.operationId ≠ some args.deadOperationId) :
      row ∈ t'.facts ↔ ∀ event ∈ (((writes.filter (·.applies t)).flatMap
        (·.factEvents)).filter (·.touches row)).getLast?, event.stores row := by
    rw [hcleaned.facts, List.mem_filter,
      and_iff_left (not_ofDeadOperation hearlier _), fact_kept_iff _ hrow]
  have hturn (row : CanonicalTurnRecord) (hrow : row ∈ t.canonicalTurns.rows)
      (hearlier : row.compactionOperationId ≠ some args.deadOperationId) :
      (∃ row' ∈ t'.canonicalTurns.rows,
          row'.canonicalTurnId = row.canonicalTurnId ∧
            row'.compactedAt = row.compactedAt) ↔
        ∀ write ∈ writes, write.applies t = true →
          .stamp row.canonicalTurnId ∈ write.keys t → row.compactedAt = none := by
    have hstart : KeepsStamp args.deadOperationId row t :=
      ⟨row, hrow, rfl, rfl, hearlier⟩
    have hkept := foldl_after_iff (KeepsStamp args.deadOperationId row)
      (fun t write hwrite => keepsStamp_after_iff t write hwrite) happlied t
    rw [and_iff_right hstart] at hkept
    by_cases hspared : ∀ write ∈ writes.filter (·.applies t),
        .stamp row.canonicalTurnId ∉ write.keys t
    · rw [stamp_kept_iff hcleaned (.inl (hkept.mpr hspared))]
      refine iff_of_true (.inl (hkept.mpr hspared)) ?_
      exact fun write hwrite happlies hkey =>
        absurd hkey (hmem.mp hspared write hwrite happlies)
    · obtain ⟨write, hwrite, hkey⟩ : ∃ write ∈ writes.filter (·.applies t),
          .stamp row.canonicalTurnId ∈ write.keys t := by
        simpa [and_assoc] using hspared
      have hstamped := hasStamp_foldl happlied
        (fun write hwrite => (List.mem_filter.mp hwrite).2) hconversation
        (.inl ⟨write, hwrite, hkey⟩)
      rw [stamp_kept_iff hcleaned (.inr hstamped),
        hkept, or_iff_right hspared]
      constructor
      · exact fun hnone _ _ _ _ => hnone
      · obtain ⟨hwrite, happlies⟩ := List.mem_filter.mp hwrite
        exact fun hspares => hspares write hwrite happlies hkey
  constructor
  · intro h
    exact ⟨fun row hrow hearlier =>
        (hsegment row hrow hearlier).mp (h.segments row hrow hearlier),
      fun row hrow hearlier =>
        (hfact row hrow hearlier).mp (h.facts row hrow hearlier),
      fun row hrow hearlier =>
        (htagSummary row hrow hearlier).mp (h.tagSummaries row hrow hearlier),
      fun row hrow hearlier =>
        (hturn row hrow hearlier).mp (h.turns row hrow hearlier)⟩
  · intro h
    exact ⟨fun row hrow hearlier =>
        (hsegment row hrow hearlier).mpr (h.segments row hrow hearlier),
      fun row hrow hearlier =>
        (hfact row hrow hearlier).mpr (h.facts row hrow hearlier),
      fun row hrow hearlier =>
        (htagSummary row hrow hearlier).mpr (h.tagSummaries row hrow hearlier),
      fun row hrow hearlier =>
        (hturn row hrow hearlier).mpr (h.turns row hrow hearlier)⟩

/-- The summary of a tag that an earlier operation has written. -/
def earlierSummary : TagSummaryRecord where
  tag := "topic"
  summary := "before"
  conversationId := "c"
  operationId := some "done"

/-- A running operation, and the work of an earlier one. -/
def summarized : Tables :=
  { compacting.tables with tagSummaries := [earlierSummary] }

def summaryWrite (tag : String) : CompactionWrite :=
  .saveTagSummary { tag := tag, summary := "after" } "c" ⟨"dead", "w1", 1⟩

/-- The summary of another tag. -/
theorem undone_keeps_earlier_iff_other :
    KeepsEarlier "dead" summarized
        (undone [summaryWrite "other"] takeoverArgs summarized 0) ↔
      SparesEarlier "dead" [summaryWrite "other"] summarized :=
  undone_keeps_earlier_iff summarized 0 takeoverArgs [summaryWrite "other"]
    (by decide) (by decide)

/-- The cleanup deletes the summary that the dead operation had updated. -/
theorem summary_lost_by_takeover :
    ¬ KeepsEarlier "dead" summarized
      (undone [summaryWrite "topic"] takeoverArgs summarized 0) := by
  intro h
  have hkept := h.tagSummaries earlierSummary List.mem_cons_self (by decide)
  exact absurd hkept (by decide +kernel)

end VirtualContext
