import VirtualContext.Core.IngestReconciler
import VirtualContext.Storage.StoreRuns

/-!
# What one ingestion computes

The rows that a call adds are decided before it writes any of them.  When their
keys are free the call inserts exactly these rows, renumbers the conversation
and replaces its anchors.
-/

namespace VirtualContext

open VirtualContext.Library

/-! ## Writing one row -/

/-- The record that `_write_turn` stores for a row. -/
def writtenRecord (sha : Sha256) (now : String) (row : CanonicalTurnRow)
    (firstSeenAt lastSeenAt : Option String) : CanonicalTurnRecord :=
  (writeTurnArgs now row (-1) firstSeenAt lastSeenAt).record sha now
    row.canonicalTurnId row.sortKey

@[simp] theorem writtenRecord_id (sha : Sha256) (now : String)
    (row : CanonicalTurnRow) (firstSeenAt lastSeenAt : Option String) :
    (writtenRecord sha now row firstSeenAt lastSeenAt).canonicalTurnId =
      row.canonicalTurnId := rfl

@[simp] theorem writtenRecord_conversation (sha : Sha256) (now : String)
    (row : CanonicalTurnRow) (firstSeenAt lastSeenAt : Option String) :
    (writtenRecord sha now row firstSeenAt lastSeenAt).conversationId =
      row.conversationId := rfl

@[simp] theorem writtenRecord_sortKey (sha : Sha256) (now : String)
    (row : CanonicalTurnRow) (firstSeenAt lastSeenAt : Option String) :
    (writtenRecord sha now row firstSeenAt lastSeenAt).sortKey =
      row.sortKey := rfl

@[simp] theorem writtenRecord_group (sha : Sha256) (now : String)
    (row : CanonicalTurnRow) (firstSeenAt lastSeenAt : Option String) :
    (writtenRecord sha now row firstSeenAt lastSeenAt).turnGroupNumber =
      row.turnGroupNumber := rfl

@[simp] theorem writtenRecord_userContent (sha : Sha256) (now : String)
    (row : CanonicalTurnRow) (firstSeenAt lastSeenAt : Option String) :
    (writtenRecord sha now row firstSeenAt lastSeenAt).userContent =
      row.userContent := rfl

@[simp] theorem writtenRecord_assistantContent (sha : Sha256) (now : String)
    (row : CanonicalTurnRow) (firstSeenAt lastSeenAt : Option String) :
    (writtenRecord sha now row firstSeenAt lastSeenAt).assistantContent =
      row.assistantContent := rfl

/-- A prepared row keeps its hash. -/
theorem writtenRecord_turnHash (sha : Sha256) (now : String)
    {row : CanonicalTurnRow} (h : row.turnHash ≠ [])
    (firstSeenAt lastSeenAt : Option String) :
    (writtenRecord sha now row firstSeenAt lastSeenAt).turnHash =
      row.turnHash := by
  simp [writtenRecord, SaveTurnArgs.record, writeTurnArgs, h]

theorem writeTurn_yields {sha : Sha256} {now : String} {index : Nat}
    {row : CanonicalTurnRow} {firstSeenAt lastSeenAt : Option String}
    {t : Tables} {n : Nat} {turns : CanonicalTurns}
    (hid : row.canonicalTurnId ≠ 0)
    (hupsert : t.canonicalTurns.upsert
      (writtenRecord sha now row firstSeenAt lastSeenAt) = .ok turns)
    (turnNumber : Int) :
    Yields (writeTurn sha now index row turnNumber firstSeenAt lastSeenAt) t n
      () { t with canonicalTurns := turns } n := by
  have hsave : Yields (saveCanonicalTurn sha now
      (writeTurnArgs now row turnNumber firstSeenAt lastSeenAt)) t n ()
      { t with canonicalTurns := turns } n :=
    saveCanonicalTurn_yields (by simp [writeTurnArgs, hid]) hid rfl hupsert
  apply Yields.bind (hsave.located _)
  split_ifs
  · apply Yields.bind (Yields.located (.read _) _)
    exact .pure
  · exact .pure

/-! ## Inserting fresh rows -/

/-- The record of a fresh row. -/
def freshRecord (sha : Sha256) (now : String) (batchId canonicalTurnId : Uuid)
    (keyed : CanonicalTurnRow × ℚ) : CanonicalTurnRecord :=
  writtenRecord sha now
    (stampRow now canonicalTurnId batchId keyed.2 keyed.1) none none

/-- The records of fresh rows, identified from the supply on. -/
def freshRecords (sha : Sha256) (now : String) (batchId : Uuid) :
    (supply : Nat) → List (CanonicalTurnRow × ℚ) → List CanonicalTurnRecord
  | _, [] => []
  | supply, keyed :: rest =>
      freshRecord sha now batchId (supply + 1) keyed ::
        freshRecords sha now batchId (supply + 1) rest

section FreshRecords

variable (sha : Sha256) (now : String) (batchId : Uuid)

theorem freshRecords_append (supply : Nat)
    (keyed keyed' : List (CanonicalTurnRow × ℚ)) :
    freshRecords sha now batchId supply (keyed ++ keyed') =
      freshRecords sha now batchId supply keyed ++
        freshRecords sha now batchId (supply + keyed.length) keyed' := by
  induction keyed generalizing supply with
  | nil => rfl
  | cons first rest ih =>
      simp only [List.cons_append, freshRecords, ih, List.length_cons]
      rw [Nat.add_assoc supply 1, Nat.add_comm 1]

/-- What a fresh record takes from its row and key alone. -/
theorem map_freshRecords {β : Type} (f : CanonicalTurnRecord → β)
    (g : CanonicalTurnRow × ℚ → β)
    (keyed : List (CanonicalTurnRow × ℚ))
    (h : ∀ canonicalTurnId, ∀ pair ∈ keyed,
      f (freshRecord sha now batchId canonicalTurnId pair) = g pair)
    (supply : Nat) :
    (freshRecords sha now batchId supply keyed).map f = keyed.map g := by
  induction keyed generalizing supply with
  | nil => rfl
  | cons first rest ih =>
      simp only [freshRecords, List.map_cons]
      rw [h _ first List.mem_cons_self,
        ih fun id pair hpair => h id pair (List.mem_cons_of_mem _ hpair)]

@[simp] theorem length_freshRecords (supply : Nat)
    (keyed : List (CanonicalTurnRow × ℚ)) :
    (freshRecords sha now batchId supply keyed).length = keyed.length := by
  induction keyed generalizing supply with
  | nil => rfl
  | cons first rest ih => simp [freshRecords, ih]

theorem freshRecords_ids {supply : Nat} {keyed : List (CanonicalTurnRow × ℚ)} :
    ∀ record ∈ freshRecords sha now batchId supply keyed,
      supply < record.canonicalTurnId ∧
        record.canonicalTurnId ≤ supply + keyed.length := by
  induction keyed generalizing supply with
  | nil => simp [freshRecords]
  | cons first rest ih =>
      intro record hrecord
      rw [List.length_cons, Nat.add_comm rest.length 1, ← Nat.add_assoc]
      rcases List.mem_cons.mp hrecord with rfl | hrest
      · exact ⟨Nat.lt_succ_self supply, Nat.le_add_right (supply + 1) _⟩
      · exact ⟨Nat.lt_of_succ_lt (ih record hrest).1, (ih record hrest).2⟩

theorem freshRecords_ids_nodup (supply : Nat)
    (keyed : List (CanonicalTurnRow × ℚ)) :
    ((freshRecords sha now batchId supply keyed).map
      fun record => record.canonicalTurnId).Nodup := by
  induction keyed generalizing supply with
  | nil => simp [freshRecords]
  | cons first rest ih =>
      apply List.nodup_cons.mpr
      refine ⟨fun hmem => ?_, ih _⟩
      obtain ⟨record, hrecord, heq⟩ := List.mem_map.mp hmem
      have hlt := (freshRecords_ids sha now batchId record hrecord).1
      rw [heq] at hlt
      exact lt_irrefl (supply + 1) hlt

end FreshRecords

/-- The keys are new to the conversation and differ from each other. -/
structure FreeKeys (t : Tables) (conversationId : ConversationId)
    (keys : List ℚ) : Prop where
  nodup : keys.Nodup
  free : ∀ row ∈ t.canonicalTurns.ordered conversationId, row.sortKey ∉ keys

/-- Rows under free keys can be inserted. -/
theorem exists_insert {t : Tables} {supply : Nat} (hdrawn : t.Drawn supply)
    {conversationId : ConversationId} {keyed : List (CanonicalTurnRow × ℚ)}
    (hown : ∀ pair ∈ keyed, pair.1.conversationId = conversationId)
    (hkeys : FreeKeys t conversationId (keyed.map Prod.snd))
    (sha : Sha256) (now : String) (batchId : Uuid) :
    ∃ turns, CanonicalTurns.ofRows (t.canonicalTurns.rows ++
      freshRecords sha now batchId supply keyed) = .ok turns := by
  have hsort : ∀ record ∈ freshRecords sha now batchId supply keyed,
      record.conversationId = conversationId ∧
        record.sortKey ∈ keyed.map Prod.snd := by
    intro record hrecord
    have hmap := map_freshRecords sha now batchId
      (fun record => (record.conversationId, record.sortKey))
      (fun pair => (pair.1.conversationId, pair.2)) keyed
      (fun _ _ _ => rfl) supply
    have hmem := List.mem_map_of_mem
      (f := fun record : CanonicalTurnRecord =>
        (record.conversationId, record.sortKey)) hrecord
    rw [hmap] at hmem
    obtain ⟨pair, hpair, heq⟩ := List.mem_map.mp hmem
    simp only [Prod.mk.injEq] at heq
    exact ⟨heq.1 ▸ hown pair hpair, heq.2 ▸ List.mem_map_of_mem hpair⟩
  refine ⟨⟨_, ?_, ?_⟩, CanonicalTurns.ofRows_eq_ok_iff.mpr rfl⟩
  · rw [List.map_append, List.nodup_append]
    refine ⟨t.canonicalTurns.primaryKey,
      freshRecords_ids_nodup sha now batchId supply keyed, ?_⟩
    intro id hid id' hid' heq
    obtain ⟨row, hrow, rfl⟩ := List.mem_map.mp hid
    obtain ⟨record, hrecord, rfl⟩ := List.mem_map.mp hid'
    have hle := (hdrawn.turns row hrow).2
    have hlt := (freshRecords_ids sha now batchId record hrecord).1
    rw [heq] at hle
    exact absurd hlt (not_lt.mpr hle)
  · rw [List.map_append, List.nodup_append]
    refine ⟨t.canonicalTurns.uniqueSortKey, ?_, ?_⟩
    · rw [map_freshRecords sha now batchId _
        (fun pair => (conversationId, pair.2)) keyed
        (fun _ pair hpair => by
          rw [← hown pair hpair]
          rfl) supply]
      have hnodup := hkeys.nodup.map (f := fun key => (conversationId, key))
        fun _ _ heq => (Prod.mk.inj heq).2
      rwa [List.map_map] at hnodup
    · intro pair hpair pair' hpair' heq
      obtain ⟨row, hrow, rfl⟩ := List.mem_map.mp hpair
      obtain ⟨record, hrecord, rfl⟩ := List.mem_map.mp hpair'
      obtain ⟨hconv, hkey⟩ := hsort record hrecord
      simp only [Prod.mk.injEq] at heq
      apply hkeys.free row
      · exact CanonicalTurns.mem_ordered.mpr ⟨hrow, heq.1.trans hconv⟩
      · rwa [heq.2]

theorem upsert_fresh {t : Tables} {supply : Nat} (hdrawn : t.Drawn supply)
    {record : CanonicalTurnRecord} (h : supply < record.canonicalTurnId) :
    t.canonicalTurns.upsert record =
      CanonicalTurns.ofRows (t.canonicalTurns.rows ++ [record]) := by
  unfold CanonicalTurns.upsert
  rw [if_neg]
  simp only [List.any_eq_true, decide_eq_true_eq, not_exists, not_and]
  intro row hrow heq
  have hle := (hdrawn.turns row hrow).2
  rw [heq] at hle
  exact absurd h (not_lt.mpr hle)

theorem Tables.Drawn.insert {t : Tables} {supply supply' : Nat}
    (hdrawn : t.Drawn supply) (hle : supply ≤ supply') {turns : CanonicalTurns}
    {records : List CanonicalTurnRecord}
    (hrows : turns.rows = t.canonicalTurns.rows ++ records)
    (hrecords : ∀ record ∈ records,
      0 < record.canonicalTurnId ∧ record.canonicalTurnId ≤ supply') :
    ({ t with canonicalTurns := turns } : Tables).Drawn supply' where
  turns row hrow := by
    rw [hrows] at hrow
    rcases List.mem_append.mp hrow with hold | hnew
    · exact ((hdrawn.mono hle).turns row hold)
    · exact hrecords row hnew
  anchors := (hdrawn.mono hle).anchors
  batches := (hdrawn.mono hle).batches

/-- Fresh rows are inserted one after the other. -/
theorem writeFreshRows_yields {sha : Sha256} {ctx : IngestContext}
    {batchId : Uuid} (turnNumber : Nat → Int) (index : Nat)
    (keyed : List (CanonicalTurnRow × ℚ)) {t : Tables} {n : Nat}
    (hdrawn : t.Drawn n) {turns : CanonicalTurns}
    (hinsert : CanonicalTurns.ofRows (t.canonicalTurns.rows ++
      freshRecords sha ctx.now batchId n keyed) = .ok turns) :
    ∃ rows, rows.map (·.canonicalTurnId) =
        (freshRecords sha ctx.now batchId n keyed).map
          (fun record => record.canonicalTurnId) ∧
      Yields (writeFreshRows sha ctx batchId turnNumber index keyed) t n rows
        { t with canonicalTurns := turns } (n + keyed.length) := by
  induction keyed generalizing t n index with
  | nil =>
      obtain rfl : turns = t.canonicalTurns := by
        apply CanonicalTurns.ext
        rw [CanonicalTurns.ofRows_eq_ok_iff.mp hinsert]
        simp [freshRecords]
      exact ⟨[], rfl, .pure⟩
  | cons pair rest ih =>
      obtain ⟨row, sortKey⟩ := pair
      have hrows := CanonicalTurns.ofRows_eq_ok_iff.mp hinsert
      have hrows' : turns.rows = (t.canonicalTurns.rows ++
          [freshRecord sha ctx.now batchId (n + 1) (row, sortKey)]) ++
          freshRecords sha ctx.now batchId (n + 1) rest := by
        rw [hrows]
        simp [freshRecords]
      have hsub : (t.canonicalTurns.rows ++
          [freshRecord sha ctx.now batchId (n + 1) (row, sortKey)]).Sublist
            turns.rows :=
        hrows' ▸ List.sublist_append_left _ _
      obtain ⟨turns₁, hturns₁⟩ : ∃ turns₁, CanonicalTurns.ofRows
          (t.canonicalTurns.rows ++
            [freshRecord sha ctx.now batchId (n + 1) (row, sortKey)]) =
              .ok turns₁ :=
        ⟨⟨_, turns.primaryKey.sublist (hsub.map _),
          turns.uniqueSortKey.sublist (hsub.map _)⟩,
          CanonicalTurns.ofRows_eq_ok_iff.mpr rfl⟩
      have hupsert : t.canonicalTurns.upsert (writtenRecord sha ctx.now
          (stampRow ctx.now (n + 1) batchId sortKey row) none none) =
            .ok turns₁ := by
        rw [upsert_fresh hdrawn]
        · exact hturns₁
        · exact Nat.lt_succ_self n
      have hrows₁ := CanonicalTurns.ofRows_eq_ok_iff.mp hturns₁
      have hdrawn₁ : ({ t with canonicalTurns := turns₁ } : Tables).Drawn
          (n + 1) := by
        apply hdrawn.insert (Nat.le_succ n) hrows₁
        intro record hrecord
        obtain rfl := List.mem_singleton.mp hrecord
        exact ⟨Nat.succ_pos n, le_refl (n + 1)⟩
      obtain ⟨written, hids, hrest⟩ := ih (index + 1) hdrawn₁
        (by rw [← hrows₁] at hrows'
            exact CanonicalTurns.ofRows_eq_ok_iff.mpr hrows')
      refine ⟨stampRow ctx.now (n + 1) batchId sortKey row :: written, ?_, ?_⟩
      · simp only [List.map_cons, hids, freshRecords]
        rfl
      apply Yields.bind .fresh
      apply Yields.bind
        (writeTurn_yields (Nat.succ_ne_zero n) hupsert (turnNumber index))
      apply Yields.bind hrest
      rw [List.length_cons, Nat.add_right_comm, Nat.add_assoc]
      exact .pure

/-! ## The rows that a call adds -/

@[simp] theorem length_allocateSortKeys (leftKey rightKey : Option ℚ)
    (count : Nat) :
    (allocateSortKeys leftKey rightKey count).length = count := by
  cases leftKey <;> cases rightKey <;> simp [allocateSortKeys]

/-- The key of a row, if there is such a row. -/
def keyOf? (existing : List CanonicalTurnRow) (index : Nat) : Option ℚ :=
  existing[index]?.map (·.sortKey)

/-- The key of the row just before a position. -/
def keyBefore? (existing : List CanonicalTurnRow) : Nat → Option ℚ
  | 0 => none
  | index + 1 => keyOf? existing index

/-- The keys for rows inserted in front of a position. -/
def keysAt (existing : List CanonicalTurnRow) (position count : Nat) : List ℚ :=
  allocateSortKeys (keyBefore? existing position) (keyOf? existing position)
    count

/-- The unmatched rows before the overlap. -/
def rowsBefore (existing prepared : List CanonicalTurnRow)
    (alignment : Alignment) : List (CanonicalTurnRow × ℚ) :=
  (prepared.take alignment.incomingStart).zip
    (keysAt existing alignment.existingStart
      (prepared.take alignment.incomingStart).length)

/-- The unmatched rows after the overlap. -/
def rowsAfter (existing prepared : List CanonicalTurnRow)
    (alignment : Alignment) : List (CanonicalTurnRow × ℚ) :=
  (prepared.drop (alignment.incomingStart + alignment.overlapLen)).zip
    (keysAt existing (alignment.existingStart + alignment.overlapLen)
      (prepared.drop (alignment.incomingStart + alignment.overlapLen)).length)

/-- All rows of the payload in a run of keys. -/
def rowsFrom (startKey : ℚ) (prepared : List CanonicalTurnRow) :
    List (CanonicalTurnRow × ℚ) :=
  prepared.zipIdx.map fun (row, idx) => (row, startKey + 1000 * idx)

/-- The rows that a call adds, in the order it writes them. -/
def plannedRows (existing prepared : List CanonicalTurnRow) :
    Option Alignment → List (CanonicalTurnRow × ℚ)
  | none =>
      if existing.isEmpty then rowsFrom 1000 prepared
      else if hasCompletePair prepared then
        rowsFrom (defaultSortKey existing) prepared
      else []
  | some alignment =>
      rowsBefore existing prepared alignment ++
        rowsAfter existing prepared alignment

/-- The mode that a call with a nonempty payload reports. -/
def plannedMode (existing prepared : List CanonicalTurnRow) :
    Option Alignment → MergeMode
  | none =>
      if existing.isEmpty || hasCompletePair prepared then .noOverlapAppend
      else .fragmentRejected
  | some alignment => alignment.mergeMode

/-- The overlap lies within both lists and is not empty. -/
structure Alignment.Within (alignment : Alignment)
    (existing incoming : List CanonicalTurnRow) : Prop where
  existing_le : alignment.existingStart + alignment.overlapLen ≤ existing.length
  incoming_le : alignment.incomingStart + alignment.overlapLen ≤ incoming.length
  pos : 0 < alignment.overlapLen

theorem pyGet_eq {α : Type} {xs : List α} {index : Nat}
    (h : index < xs.length) : pyGet xs index = .ok xs[index] := by
  simp [pyGet, h]

/-- Mirroring reaches no row that is missing. -/
theorem mirrorOverlap_ok (overlapExisting : List CanonicalTurnRow)
    (rows : List CanonicalTurnRow) (offset : Nat)
    (h : offset + rows.length ≤ overlapExisting.length) :
    ∃ mirrored, mirrorOverlap overlapExisting offset rows = .ok mirrored ∧
      mirrored.length = rows.length := by
  induction rows generalizing offset with
  | nil => exact ⟨[], rfl, rfl⟩
  | cons row rows ih =>
      rw [List.length_cons] at h
      obtain ⟨mirrored, hmirrored, hlength⟩ := ih (offset + 1) (by omega)
      have hget := pyGet_eq (show offset < overlapExisting.length by omega)
      refine ⟨mirrorRow row overlapExisting[offset] :: mirrored, ?_,
        by simp [hlength]⟩
      rw [mirrorOverlap, hget, hmirrored]
      rfl

theorem keyAt_eq {existing : List CanonicalTurnRow} {index : Nat}
    (h : index < existing.length) :
    keyAt existing index true = .ok (keyOf? existing index) := by
  simp [keyAt, pyGet_eq h, keyOf?, h, pure, Except.pure, bind, Except.bind]

theorem keyAt_before {existing : List CanonicalTurnRow} {position : Nat}
    (h : position ≤ existing.length) :
    keyAt existing (position - 1) (decide (0 < position)) =
      .ok (keyBefore? existing position) := by
  cases position with
  | zero => rfl
  | succ index => exact keyAt_eq h

theorem keyAt_next {existing : List CanonicalTurnRow} {position : Nat} :
    keyAt existing position (decide (position < existing.length)) =
      .ok (keyOf? existing position) := by
  by_cases h : position < existing.length
  · rw [decide_eq_true h]
    exact keyAt_eq h
  · rw [decide_eq_false h]
    simp [keyAt, keyOf?, not_lt.mp h, pure, Except.pure]

/-! ## The writes of a call -/

/-- The counters of a call that adds the given numbers of rows. -/
def IngestCounts.Reports (counts : IngestCounts) (mode : MergeMode)
    (matched before after : Nat) : Prop :=
  counts.written = before + after ∧ counts.matched = matched ∧
    counts.prepended = (if mode = .prefixWidening then before else 0) ∧
    counts.appended = (if mode = .tailAppend then after else 0) ∧
    counts.inserted =
      before - counts.prepended + (after - counts.appended)

/-- The counters of a call name as many rows as it adds. -/
def IngestCounts.Adds (counts : IngestCounts) (added : Nat) : Prop :=
  counts.written = added ∧
    counts.appended + counts.prepended + counts.inserted = added

theorem IngestCounts.Reports.adds {counts : IngestCounts} {mode : MergeMode}
    {matched before after : Nat} (h : counts.Reports mode matched before after) :
    counts.Adds (before + after) := by
  obtain ⟨hwritten, -, hprepended, happended, hinserted⟩ := h
  refine ⟨hwritten, ?_⟩
  split_ifs at hprepended happended <;> omega

theorem ofRows_of_sublist {t : CanonicalTurns}
    {rows : List CanonicalTurnRecord} (h : rows.Sublist t.rows) :
    ∃ t', CanonicalTurns.ofRows rows = .ok t' :=
  ⟨⟨rows, t.primaryKey.sublist (h.map _), t.uniqueSortKey.sublist (h.map _)⟩,
    CanonicalTurns.ofRows_eq_ok_iff.mpr rfl⟩

theorem Tables.Drawn.insertFresh {t : Tables} {supply : Nat}
    (hdrawn : t.Drawn supply) {sha : Sha256} {now : String} {batchId : Uuid}
    {keyed : List (CanonicalTurnRow × ℚ)} {turns : CanonicalTurns}
    (hinsert : CanonicalTurns.ofRows (t.canonicalTurns.rows ++
      freshRecords sha now batchId supply keyed) = .ok turns) :
    ({ t with canonicalTurns := turns } : Tables).Drawn
      (supply + keyed.length) := by
  apply hdrawn.insert (Nat.le_add_right _ _)
    (CanonicalTurns.ofRows_eq_ok_iff.mp hinsert)
  intro record hrecord
  obtain ⟨hlt, hle⟩ := freshRecords_ids sha now batchId record hrecord
  exact ⟨Nat.zero_lt_of_lt hlt, hle⟩

section Writes

variable {sha : Sha256} {ctx : IngestContext} {batchId : Uuid} {t : Tables}
  {n : Nat} {turns : CanonicalTurns}

theorem appendAll_yields (hdrawn : t.Drawn n) (startKey : ℚ) (firstTurn : Nat)
    (hinsert : CanonicalTurns.ofRows (t.canonicalTurns.rows ++
      freshRecords sha ctx.now batchId n (rowsFrom startKey ctx.prepared)) =
        .ok turns) :
    ∃ counts : IngestCounts,
      counts.Adds (rowsFrom startKey ctx.prepared).length ∧
      counts.rows.map (·.canonicalTurnId) =
        (freshRecords sha ctx.now batchId n (rowsFrom startKey ctx.prepared)).map
          (fun record => record.canonicalTurnId) ∧
      Yields (appendAll sha ctx batchId startKey firstTurn) t n counts
        { t with canonicalTurns := turns }
        (n + (rowsFrom startKey ctx.prepared).length) := by
  obtain ⟨rows, hids, hwrites⟩ := writeFreshRows_yields
    (fun index => firstTurn + index) 0 _ hdrawn hinsert
  have hlength : rows.length = (rowsFrom startKey ctx.prepared).length := by
    simpa using congrArg List.length hids
  exact ⟨⟨rows.length, 0, rows.length, 0, 0, rows⟩, ⟨hlength, hlength⟩, hids,
    Yields.bind hwrites .pure⟩

theorem writeBetween_yields (hdrawn : t.Drawn n)
    {rows : List CanonicalTurnRow} {left right : Except Exc (Option ℚ)}
    {leftKey rightKey : Option ℚ} (index : Nat)
    (hleft : rows ≠ [] → left = .ok leftKey)
    (hright : rows ≠ [] → right = .ok rightKey)
    (hinsert : CanonicalTurns.ofRows (t.canonicalTurns.rows ++
      freshRecords sha ctx.now batchId n
        (rows.zip (allocateSortKeys leftKey rightKey rows.length))) =
          .ok turns) :
    ∃ written, written.length = rows.length ∧
      Yields (writeBetween sha ctx batchId index rows left right)
        t n written { t with canonicalTurns := turns } (n + rows.length) := by
  obtain ⟨written, hids, hwrites⟩ := writeFreshRows_yields
    (fun _ => -1) index _ hdrawn hinsert
  have hlength : written.length = rows.length := by
    simpa using congrArg List.length hids
  rw [List.length_zip, length_allocateSortKeys, Nat.min_self] at hwrites
  refine ⟨written, hlength, ?_⟩
  unfold writeBetween
  by_cases hrows : rows = []
  · subst hrows
    obtain rfl := List.length_eq_zero_iff.mp hlength
    obtain rfl : turns = t.canonicalTurns := by
      apply CanonicalTurns.ext
      rw [CanonicalTurns.ofRows_eq_ok_iff.mp hinsert]
      simp [freshRecords]
    exact .pure
  · rw [if_neg (by simpa using hrows)]
    apply Yields.bind (.ofExcept (hleft hrows))
    exact Yields.bind (.ofExcept (hright hrows)) hwrites

theorem length_rowsBefore (existing prepared : List CanonicalTurnRow)
    (alignment : Alignment) :
    (rowsBefore existing prepared alignment).length =
      (prepared.take alignment.incomingStart).length := by
  simp [rowsBefore, keysAt]

theorem length_rowsAfter (existing prepared : List CanonicalTurnRow)
    (alignment : Alignment) :
    (rowsAfter existing prepared alignment).length =
      (prepared.drop (alignment.incomingStart + alignment.overlapLen)).length := by
  simp [rowsAfter, keysAt]

theorem mergeAround_yields (hdrawn : t.Drawn n)
    {existing : List CanonicalTurnRow} {alignment : Alignment}
    (hwithin : alignment.Within existing ctx.prepared)
    (hinsert : CanonicalTurns.ofRows (t.canonicalTurns.rows ++
      freshRecords sha ctx.now batchId n
        (rowsBefore existing ctx.prepared alignment ++
          rowsAfter existing ctx.prepared alignment)) = .ok turns) :
    ∃ counts, counts.Reports alignment.mergeMode alignment.overlapLen
        (rowsBefore existing ctx.prepared alignment).length
        (rowsAfter existing ctx.prepared alignment).length ∧
      Yields (mergeAround sha ctx batchId existing alignment) t n counts
        { t with canonicalTurns := turns }
        (n + (rowsBefore existing ctx.prepared alignment ++
          rowsAfter existing ctx.prepared alignment).length) := by
  have hle := hwithin.existing_le
  have hle' := hwithin.incoming_le
  have hpos := hwithin.pos
  rw [freshRecords_append, ← List.append_assoc] at hinsert
  have hrows := CanonicalTurns.ofRows_eq_ok_iff.mp hinsert
  obtain ⟨turns₁, hturns₁⟩ := ofRows_of_sublist
    (hrows ▸ List.sublist_append_left (t.canonicalTurns.rows ++ freshRecords sha
      ctx.now batchId n (rowsBefore existing ctx.prepared alignment)) _)
  have hrows₁ := CanonicalTurns.ofRows_eq_ok_iff.mp hturns₁
  obtain ⟨mirrored, hmirrored, hmatched⟩ := mirrorOverlap_ok
    (slice existing alignment.existingStart alignment.overlapLen)
    (slice ctx.prepared alignment.incomingStart alignment.overlapLen) 0
    (by simp only [slice, List.length_take, List.length_drop]; omega)
  obtain ⟨before, hbefore, hwritesBefore⟩ := writeBetween_yields hdrawn 0
    (fun _ => keyAt_before (by omega)) (fun _ => keyAt_eq (by omega)) hturns₁
  have hdrawn₁ := hdrawn.insertFresh hturns₁
  rw [← hrows₁] at hinsert
  rw [length_rowsBefore] at hdrawn₁ hinsert
  obtain ⟨after, hafter, hwritesAfter⟩ := writeBetween_yields hdrawn₁
    before.length (fun _ => keyAt_before hle) (fun _ => keyAt_next) hinsert
  have hyields : Yields (mergeAround sha ctx batchId existing alignment) t n
      (summarize alignment.mergeMode mirrored before after)
      { t with canonicalTurns := turns }
      (n + (rowsBefore existing ctx.prepared alignment ++
          rowsAfter existing ctx.prepared alignment).length) := by
    apply Yields.bind (.ofExcept hmirrored)
    apply Yields.bind hwritesBefore
    apply Yields.bind hwritesAfter
    rw [List.length_append, length_rowsBefore, length_rowsAfter,
      ← Nat.add_assoc]
    exact .pure
  refine ⟨_, ?_, hyields⟩
  have hlength : (slice ctx.prepared alignment.incomingStart
      alignment.overlapLen).length = alignment.overlapLen := by
    simp only [slice, List.length_take, List.length_drop]
    omega
  simp [IngestCounts.Reports, summarize, length_rowsBefore, length_rowsAfter,
    hbefore, hafter, hmatched, hlength]

end Writes

/-! ## Alignment against the persisted anchors -/

/-- The index that `_load_existing_anchor_index` returns. -/
def persistedIndex (sha : Sha256) (t : Tables) (conversationId : ConversationId)
    (existing : List CanonicalTurnRow) (windowSize : Nat) : AnchorIndex :=
  let anchors := Dictionary.ofPairs (t.anchorPositions conversationId windowSize)
  if anchors.isEmpty then buildAnchorIndex sha existing windowSize else anchors

theorem loadExistingAnchorIndex_yields (sha : Sha256) (t : Tables) (n : Nat)
    (conversationId : ConversationId) (existing : List CanonicalTurnRow)
    (windowSize : Nat) :
    Yields (loadExistingAnchorIndex sha conversationId existing windowSize) t n
      (persistedIndex sha t conversationId existing windowSize) t n := by
  apply Yields.bind (.read _)
  unfold persistedIndex
  dsimp only
  split_ifs <;> exact .pure

theorem findSharedWindow_yields {sha : Sha256} {t : Tables} (n : Nat)
    {conversationId : ConversationId} {existing incoming : List CanonicalTurnRow}
    {alignment : Option Alignment} (sizes : List Nat)
    (h : searchWindows sha existing incoming
      (persistedIndex sha t conversationId existing) sizes = .ok alignment) :
    Yields (findSharedWindow sha conversationId existing incoming sizes) t n
      alignment t n := by
  induction sizes with
  | nil =>
      cases h
      exact .pure
  | cons windowSize sizes ih =>
      apply Yields.bind (loadExistingAnchorIndex_yields _ _ _ _ _ _)
      rw [searchWindows] at h
      split_ifs at h ⊢
      · exact ih h
      · cases hbest : bestWindow (existing.map (·.turnHash))
            (incoming.map (·.turnHash)) windowSize
            (sharedWindows (persistedIndex sha t conversationId existing
              windowSize) (buildAnchorIndex sha incoming windowSize)) with
        | error exc =>
            rw [hbest] at h
            cases h
        | ok best =>
            rw [hbest] at h
            apply Yields.bind (.ofExcept rfl)
            cases best with
            | none => exact ih h
            | some best =>
                cases h
                exact .pure

theorem findAlignment_yields {sha : Sha256} {t : Tables} (n : Nat)
    {conversationId : ConversationId} {existing incoming : List CanonicalTurnRow}
    {allowShortOverlap : Bool} {alignment : Option Alignment}
    (h : alignWith sha (persistedIndex sha t conversationId existing) existing
      incoming allowShortOverlap = .ok alignment) :
    Yields (findAlignment sha conversationId existing incoming
      allowShortOverlap) t n alignment t n := by
  unfold alignWith at h
  unfold findAlignment
  split_ifs at h ⊢
  · cases h
    exact .pure
  · cases hfree : anchorFreeAlignment existing incoming allowShortOverlap with
    | some found =>
        rw [hfree] at h
        cases h
        exact .pure
    | none =>
        rw [hfree] at h
        exact findSharedWindow_yields n _ h

/-! ## The end of a call -/

/-- The tables once the batch, the numbers and the anchors follow the rows. -/
def Tables.finished (sha : Sha256) (conversationId : ConversationId)
    (batch : IngestBatchRecord) (t : Tables) : Tables :=
  let regrouped := (t.withBatch batch).regrouped conversationId
  regrouped.withAnchors conversationId
    (anchorsOf sha conversationId (regrouped.loadRows conversationId))

theorem refreshPersistedAnchors_yields (depth : Nat) (sha : Sha256)
    (conversationId : ConversationId) (t : Tables) (n : Nat) :
    Yields (refreshPersistedAnchors depth sha conversationId) t n ()
      ((t.backfilled conversationId).withAnchors conversationId
        (anchorsOf sha conversationId
          ((t.backfilled conversationId).loadRows conversationId))) n :=
  Yields.bind getAllCanonicalTurns_yields
    (replaceCanonicalTurnAnchors_yields _ _)

/-- The batch that a call with these counters records. -/
def IngestContext.batch (ctx : IngestContext) (mergeMode : MergeMode)
    (counts : IngestCounts) (batchId : Uuid) : IngestBatchRecord :=
  batchRecord ctx.now ctx.conversationId ctx.rawTurnCount mergeMode ctx.prepared
    counts batchId

theorem saveBatch_yields (depth : Nat) (now : String)
    (conversationId : ConversationId) (rawTurnCount : Nat)
    (mergeMode : MergeMode) (prepared : List CanonicalTurnRow)
    (counts : IngestCounts) (batchId : Uuid) (t : Tables) (n : Nat) :
    Yields (saveBatch depth now conversationId rawTurnCount mergeMode prepared
        counts (some batchId)) t n
      (batchRecord now conversationId rawTurnCount mergeMode prepared counts
        batchId)
      (t.withBatch (batchRecord now conversationId rawTurnCount mergeMode
        prepared counts batchId)) n := by
  apply Yields.bind .pure
  exact Yields.bind (saveIngestBatch_yields _ _) .pure

theorem finishIngest_yields (depth : Nat) (sha : Sha256) (ctx : IngestContext)
    (mergeMode : MergeMode) (batchId : Uuid) (counts : IngestCounts)
    (t : Tables) (n : Nat) :
    Yields (finishIngest depth sha ctx mergeMode batchId counts) t n
      (counts.result mergeMode (ctx.batch mergeMode counts batchId))
      (t.finished sha ctx.conversationId (ctx.batch mergeMode counts batchId))
      n := by
  apply Yields.bind (saveBatch_yields _ _ _ _ _ _ _ _ _ _)
  apply Yields.bind
    (Yields.tryCatch (recomputeCanonicalTurnGroups_yields.located _) _)
  apply Yields.bind
    (Yields.tryCatch ((refreshPersistedAnchors_yields _ _ _ _ _).located _) _)
  rw [Tables.backfilled_regrouped]
  exact .pure

/-- The counters of a call that writes no row. -/
def IngestCounts.none : IngestCounts := ⟨0, 0, 0, 0, 0, []⟩

theorem skipIngest_yields (depth : Nat) (ctx : IngestContext)
    (mergeMode : MergeMode) (rawTurnCount : Nat) (batchId : Uuid)
    (t : Tables) (n : Nat) :
    ∃ batch, Yields (skipIngest depth ctx mergeMode rawTurnCount
        (some batchId)) t n (IngestCounts.none.result mergeMode batch)
        (t.withBatch batch) n ∧ batch.batchId = batchId :=
  ⟨_, Yields.bind (saveBatch_yields _ _ _ _ _ _ _ _ _ _) .pure, rfl⟩

/-- An empty payload draws the identifier of its batch. -/
theorem skipEmpty_yields (depth : Nat) (ctx : IngestContext)
    (mergeMode : MergeMode) (rawTurnCount : Nat) (t : Tables) (n : Nat) :
    ∃ batch, Yields (skipIngest depth ctx mergeMode rawTurnCount none) t n
        (IngestCounts.none.result mergeMode batch) (t.withBatch batch)
        (n + 1) ∧ batch.batchId = n + 1 := by
  refine ⟨batchRecord ctx.now ctx.conversationId rawTurnCount mergeMode
    ctx.prepared .none (n + 1), ?_, rfl⟩
  apply Yields.bind
  · apply Yields.bind .fresh
    exact Yields.bind (saveIngestBatch_yields _ _) .pure
  · exact .pure

end VirtualContext
