import VirtualContext.Core.ReIngest

/-!
# What an exact resend computes

`ingest_single` first looks for its two rows among the last five.  If they are
there and recent it writes both rows over the stored ones and leaves the keys
and the order of the conversation alone; otherwise it ingests the pair.
-/

namespace VirtualContext

open VirtualContext.Library

/-! ## Overwriting stored rows -/

/-- `ON CONFLICT DO UPDATE` with a row that keeps the key of the stored one. -/
def overwriteWith (new : CanonicalTurnRecord) : CanonicalTurns.ColumnUpdate where
  apply row :=
    if row.canonicalTurnId = new.canonicalTurnId ∧ row.sortKey = new.sortKey
    then row.overwrite new else row
  id_eq row := by
    split_ifs with h
    · exact h.1.symm
    · rfl
  conversation_eq row := by split_ifs <;> rfl
  sortKey_eq row := by
    split_ifs with h
    · exact h.2.symm
    · rfl

theorem overwriteWith_self {new row : CanonicalTurnRecord}
    (hid : row.canonicalTurnId = new.canonicalTurnId)
    (hkey : row.sortKey = new.sortKey) :
    (overwriteWith new).apply row = row.overwrite new :=
  if_pos ⟨hid, hkey⟩

theorem overwriteWith_other {new row : CanonicalTurnRecord}
    (hid : row.canonicalTurnId ≠ new.canonicalTurnId) :
    (overwriteWith new).apply row = row :=
  if_neg fun h => hid h.1

/-- A row under a stored identifier and its key replaces the stored row. -/
theorem upsert_stored {t : CanonicalTurns} (new : CanonicalTurnRecord)
    {stored : CanonicalTurnRecord}
    (hstored : stored ∈ t.rows)
    (hid : stored.canonicalTurnId = new.canonicalTurnId)
    (hkey : stored.sortKey = new.sortKey) :
    t.upsert new = .ok (t.update (overwriteWith new)) := by
  unfold CanonicalTurns.upsert
  rw [if_pos (by simpa using ⟨stored, hstored, hid⟩)]
  rw [CanonicalTurns.ofRows_eq_ok_iff, CanonicalTurns.rows_update]
  apply List.map_congr_left
  intro row hrow
  by_cases h : row.canonicalTurnId = new.canonicalTurnId
  · obtain rfl := List.inj_on_of_nodup_map t.primaryKey hrow hstored
      (h.trans hid.symm)
    rw [overwriteWith_self hid hkey, if_pos h]
  · rw [overwriteWith_other h, if_neg h]

/-- The record that a resend writes over a stored row. -/
def resendRecord (sha : Sha256) (now : String)
    (pair : CanonicalTurnRow × CanonicalTurnRow) : CanonicalTurnRecord :=
  writtenRecord sha now (resendRow now pair.1 pair.2)
    (resendRow now pair.1 pair.2).firstSeenAt
    (resendRow now pair.1 pair.2).lastSeenAt

@[simp] theorem resendRow_id (now : String) (row existingRow : CanonicalTurnRow) :
    (resendRow now row existingRow).canonicalTurnId =
      existingRow.canonicalTurnId := by
  unfold resendRow preserveExistingEnrichment
  dsimp only
  split_ifs <;> rfl

@[simp] theorem resendRow_sortKey (now : String)
    (row existingRow : CanonicalTurnRow) :
    (resendRow now row existingRow).sortKey = existingRow.sortKey := by
  unfold resendRow preserveExistingEnrichment
  dsimp only
  split_ifs <;> rfl

@[simp] theorem resendRow_turnHash (now : String)
    (row existingRow : CanonicalTurnRow) :
    (resendRow now row existingRow).turnHash = row.turnHash := by
  unfold resendRow preserveExistingEnrichment
  dsimp only
  split_ifs <;> rfl

/-- The turns after all pairs were written. -/
def CanonicalTurns.resent (sha : Sha256) (now : String)
    (pairs : List (CanonicalTurnRow × CanonicalTurnRow)) (t : CanonicalTurns) :
    CanonicalTurns :=
  pairs.foldl (fun t pair => t.update (overwriteWith (resendRecord sha now pair)))
    t

/-- Every pair is about a row that is stored under that identifier and key. -/
def StoredPairs (t : CanonicalTurns)
    (pairs : List (CanonicalTurnRow × CanonicalTurnRow)) : Prop :=
  ∀ pair ∈ pairs, pair.2.canonicalTurnId ≠ 0 ∧ ∃ stored ∈ t.rows,
    stored.canonicalTurnId = pair.2.canonicalTurnId ∧
      stored.sortKey = pair.2.sortKey

theorem StoredPairs.update {t : CanonicalTurns}
    {pairs : List (CanonicalTurnRow × CanonicalTurnRow)}
    (h : StoredPairs t pairs) (f : CanonicalTurns.ColumnUpdate) :
    StoredPairs (t.update f) pairs := by
  intro pair hpair
  obtain ⟨hne, stored, hstored, hid, hkey⟩ := h pair hpair
  exact ⟨hne, f.apply stored, List.mem_map_of_mem hstored,
    (f.id_eq stored).trans hid, (f.sortKey_eq stored).trans hkey⟩

theorem writeResend_yields {sha : Sha256} {now : String}
    (existing : List CanonicalTurnRow)
    (pairs : List (CanonicalTurnRow × CanonicalTurnRow)) (index : Nat)
    {t : Tables} {n : Nat} (h : StoredPairs t.canonicalTurns pairs) :
    Yields (writeResend sha now existing index pairs) t n ()
      { t with canonicalTurns := t.canonicalTurns.resent sha now pairs } n := by
  induction pairs generalizing t index with
  | nil => exact .pure
  | cons pair pairs ih =>
      obtain ⟨row, existingRow⟩ := pair
      obtain ⟨hne, stored, hstored, hid, hkey⟩ := h _ List.mem_cons_self
      have hupsert := upsert_stored (resendRecord sha now
          (row, existingRow)) hstored (by simpa [resendRecord] using hid)
        (by simpa [resendRecord] using hkey)
      apply Yields.bind (writeTurn_yields (by simpa using hne) hupsert _)
      apply ih (index + 1)
      exact fun pair hpair =>
        StoredPairs.update (fun pair hpair => h pair (List.mem_cons_of_mem _ hpair))
          _ pair hpair

/-! ## The rows afterwards -/

section Resent

variable {sha : Sha256} {now : String} {t : CanonicalTurns}

/-- What all pairs make of one row. -/
def resendAll (sha : Sha256) (now : String)
    (pairs : List (CanonicalTurnRow × CanonicalTurnRow))
    (row : CanonicalTurnRecord) : CanonicalTurnRecord :=
  pairs.foldl (fun row pair =>
    (overwriteWith (resendRecord sha now pair)).apply row) row

theorem ordered_resent (pairs : List (CanonicalTurnRow × CanonicalTurnRow))
    (t : CanonicalTurns) (conversationId : ConversationId) :
    (t.resent sha now pairs).ordered conversationId =
      (t.ordered conversationId).map (resendAll sha now pairs) := by
  induction pairs generalizing t with
  | nil => exact (List.map_id _).symm
  | cons pair pairs ih =>
      change ((t.update _).resent sha now pairs).ordered conversationId = _
      rw [ih, CanonicalTurns.ordered_update, List.map_map]
      rfl

theorem rows_resent_ids (pairs : List (CanonicalTurnRow × CanonicalTurnRow))
    (t : CanonicalTurns) :
    (t.resent sha now pairs).rows.map (·.canonicalTurnId) =
      t.rows.map (·.canonicalTurnId) := by
  induction pairs generalizing t with
  | nil => rfl
  | cons pair pairs ih =>
      change ((t.update _).resent sha now pairs).rows.map _ = _
      rw [ih, CanonicalTurns.rows_update, List.map_map]
      apply List.map_congr_left
      intro row _
      exact (overwriteWith _).id_eq row

/-- A row that no pair is about stays as it is. -/
theorem resendAll_other {pairs : List (CanonicalTurnRow × CanonicalTurnRow)}
    {row : CanonicalTurnRecord}
    (h : ∀ pair ∈ pairs, row.canonicalTurnId ≠ pair.2.canonicalTurnId) :
    resendAll sha now pairs row = row := by
  induction pairs with
  | nil => rfl
  | cons pair pairs ih =>
      change resendAll sha now pairs ((overwriteWith _).apply row) = row
      rw [overwriteWith_other]
      · exact ih fun other hother => h other (List.mem_cons_of_mem _ hother)
      · simpa [resendRecord] using h pair List.mem_cons_self

variable (sha now) in
/-- A row is overwritten by the pair that is about it. -/
theorem resendAll_matched
    {pairs : List (CanonicalTurnRow × CanonicalTurnRow)}
    (hids : (pairs.map (·.2.canonicalTurnId)).Nodup)
    {pair : CanonicalTurnRow × CanonicalTurnRow} (hpair : pair ∈ pairs)
    {row : CanonicalTurnRecord}
    (hid : row.canonicalTurnId = pair.2.canonicalTurnId)
    (hkey : row.sortKey = pair.2.sortKey) :
    resendAll sha now pairs row = row.overwrite (resendRecord sha now pair) := by
  induction pairs with
  | nil => simp at hpair
  | cons first pairs ih =>
      obtain ⟨hfirst, hrest⟩ := List.nodup_cons.mp hids
      change resendAll sha now pairs ((overwriteWith _).apply row) = _
      rcases List.mem_cons.mp hpair with rfl | hmem
      · rw [overwriteWith_self (by simpa [resendRecord] using hid)
          (by simpa [resendRecord] using hkey), resendAll_other]
        rintro other hother heq
        apply hfirst
        have : other.2.canonicalTurnId = pair.2.canonicalTurnId := by
          rw [← heq]
          simp [resendRecord, CanonicalTurnRecord.overwrite]
        exact List.mem_map.mpr ⟨other, hother, this⟩
      · rw [overwriteWith_other]
        · exact ih hrest hmem
        · rintro heq
          apply hfirst
          have : first.2.canonicalTurnId = pair.2.canonicalTurnId := by
            rw [← hid, heq]
            simp [resendRecord]
          exact List.mem_map.mpr ⟨pair, hmem, this.symm⟩

end Resent

/-! ## The rows that a resend matches -/

/-- A loaded row is the view of a stored one. -/
theorem Tables.exists_of_mem_loadRows {t : Tables}
    {conversationId : ConversationId} {row : CanonicalTurnRow}
    (h : row ∈ t.loadRows conversationId) :
    ∃ ordinal, ∃ record ∈ t.canonicalTurns.ordered conversationId,
      row = rowToCanonicalTurn ordinal record := by
  obtain ⟨i, hi, rfl⟩ := List.getElem_of_mem h
  rw [length_loadRows] at hi
  exact ⟨i, _, List.getElem_mem hi, by simp [loadRows]⟩

/-- The matched rows are stored rows with the hashes of the payload. -/
theorem findResend_spec {seen : String → Bool}
    {existing prepared recent : List CanonicalTurnRow}
    (h : findResend seen existing prepared = some recent) :
    recent.Sublist existing ∧
      recent.map (·.turnHash) = prepared.map (·.turnHash) ∧
      recent.all (fun row => seen (orText row.lastSeenAt "")) = true := by
  unfold findResend at h
  split_ifs at h
  obtain ⟨start, -, hfound⟩ := List.exists_of_findSome?_eq_some h
  dsimp only at hfound
  split_ifs at hfound with hmatch
  cases hfound
  refine ⟨?_, hmatch.1, hmatch.2⟩
  exact (List.take_sublist _ _).trans
    ((List.drop_sublist _ _).trans (List.drop_sublist _ _))

section Single

variable {sha : Sha256} {now : String} {seen : String → Bool}
  {args : IngestSingleArgs} {t : Tables} {n : Nat}

/-- The rows that the call finds when it loads the conversation. -/
def IngestSingleArgs.existing (args : IngestSingleArgs) (t : Tables) :
    List CanonicalTurnRow :=
  (t.backfilled args.conversationId).loadRows args.conversationId

/-- The tables after both rows were written over the matched ones. -/
def Tables.resent (sha : Sha256) (now : String)
    (pairs : List (CanonicalTurnRow × CanonicalTurnRow)) (t : Tables) : Tables :=
  { t with canonicalTurns := t.canonicalTurns.resent sha now pairs }

theorem storedPairs_of_recent {prepared recent : List CanonicalTurnRow}
    {conversationId : ConversationId} (hdrawn : t.Drawn n)
    (hrecent : recent.Sublist (t.loadRows conversationId)) :
    StoredPairs t.canonicalTurns (prepared.zip recent) := by
  intro pair hpair
  have hmem := hrecent.subset (List.of_mem_zip hpair).2
  obtain ⟨ordinal, record, hrecord, heq⟩ := Tables.exists_of_mem_loadRows hmem
  refine ⟨hdrawn.loadRows_ids_ne_zero conversationId _ hmem, record,
    (CanonicalTurns.mem_ordered.mp hrecord).1, ?_, ?_⟩
  · rw [heq]
    rfl
  · rw [heq]
    rfl

theorem zip_recent_ids_nodup {prepared recent : List CanonicalTurnRow}
    {conversationId : ConversationId}
    (hrecent : recent.Sublist (t.loadRows conversationId))
    (hlength : recent.length = prepared.length) :
    ((prepared.zip recent).map (·.2.canonicalTurnId)).Nodup := by
  have h := (t.loadRows_ids_nodup conversationId).sublist
    (hrecent.map (·.canonicalTurnId))
  rw [← List.map_snd_zip hlength.le, List.map_map] at h
  exact h

/-- A number that a row has stays through a resend. -/
theorem resendRow_group_nonneg {row existingRow : CanonicalTurnRow}
    (h : 0 ≤ existingRow.turnGroupNumber) :
    0 ≤ (resendRow now row existingRow).turnGroupNumber := by
  unfold resendRow preserveExistingEnrichment
  dsimp only
  split_ifs <;> simp_all <;> omega

theorem overwrite_group (stored new : CanonicalTurnRecord) :
    (stored.overwrite new).turnGroupNumber = new.turnGroupNumber := rfl

variable (sha now) in
/-- What a resend makes of one stored row. -/
theorem resendAll_cases {prepared recent : List CanonicalTurnRow}
    {conversationId : ConversationId}
    (hrecent : recent.Sublist (t.loadRows conversationId))
    (hlength : recent.length = prepared.length)
    {record : CanonicalTurnRecord}
    (hrecord : record ∈ t.canonicalTurns.ordered conversationId) :
    resendAll sha now (prepared.zip recent) record = record ∨
      ∃ pair ∈ prepared.zip recent, ∃ ordinal,
        pair.2 = rowToCanonicalTurn ordinal record ∧
        resendAll sha now (prepared.zip recent) record =
          record.overwrite (resendRecord sha now pair) := by
  by_cases hmatched : ∃ pair ∈ prepared.zip recent,
      record.canonicalTurnId = pair.2.canonicalTurnId
  · obtain ⟨pair, hpair, hid⟩ := hmatched
    have hmem := hrecent.subset (List.of_mem_zip hpair).2
    obtain ⟨ordinal, stored, hstored, heq⟩ :=
      Tables.exists_of_mem_loadRows hmem
    obtain rfl : record = stored := by
      apply List.inj_on_of_nodup_map
        (t.canonicalTurns.ordered_ids_nodup conversationId) hrecord hstored
      rw [hid, heq]
      rfl
    refine .inr ⟨pair, hpair, ordinal, heq, ?_⟩
    apply resendAll_matched sha now (zip_recent_ids_nodup hrecent hlength) hpair hid
    rw [heq]
    rfl
  · left
    apply resendAll_other
    intro pair hpair heq
    exact hmatched ⟨pair, hpair, heq⟩

theorem loadRows_resent (pairs : List (CanonicalTurnRow × CanonicalTurnRow))
    (conversationId : ConversationId) :
    (t.resent sha now pairs).loadRows conversationId =
      ((t.canonicalTurns.ordered conversationId).map
        (resendAll sha now pairs)).mapIdx rowToCanonicalTurn := by
  rw [Tables.loadRows, Tables.resent]
  dsimp only
  rw [ordered_resent]

variable (sha now) in
/-- Loading the conversation after the writes numbers nothing. -/
theorem backfilled_resent {prepared recent : List CanonicalTurnRow}
    {conversationId : ConversationId}
    (hrecent : recent.Sublist (t.loadRows conversationId))
    (hlength : recent.length = prepared.length)
    (hloaded : allLegacy (t.loadRows conversationId) = false) :
    (t.resent sha now (prepared.zip recent)).backfilled conversationId =
      t.resent sha now (prepared.zip recent) := by
  unfold Tables.backfilled
  rw [if_neg]
  simp only [allLegacy, Bool.and_eq_true, Bool.not_eq_true', not_and,
    List.all_eq_true, decide_eq_true_eq, not_forall, not_lt,
    List.isEmpty_eq_false_iff]
  intro hne
  have hstored : t.loadRows conversationId ≠ [] := by
    intro hnil
    apply hne
    have hlength := congrArg List.length hnil
    rw [Tables.length_loadRows, List.length_nil, List.length_eq_zero_iff]
      at hlength
    simp [loadRows_resent, hlength]
  obtain ⟨row, hrow, hgroup⟩ : ∃ row ∈ t.loadRows conversationId,
      0 ≤ row.turnGroupNumber := by
    simpa [allLegacy, hstored] using hloaded
  obtain ⟨i, hi, rfl⟩ := List.getElem_of_mem hrow
  have hi' : i < (t.canonicalTurns.ordered conversationId).length := by
    rwa [Tables.length_loadRows] at hi
  have hgroup' : 0 ≤ (t.canonicalTurns.ordered
      conversationId)[i].turnGroupNumber := by
    simpa [Tables.loadRows, rowToCanonicalTurn] using hgroup
  refine ⟨rowToCanonicalTurn i (resendAll sha now (prepared.zip recent)
    (t.canonicalTurns.ordered conversationId)[i]), ?_, ?_⟩
  · rw [loadRows_resent]
    apply List.mem_of_getElem? (i := i)
    simp [hi']
  · change 0 ≤ (resendAll sha now (prepared.zip recent)
      (t.canonicalTurns.ordered conversationId)[i]).turnGroupNumber
    rcases resendAll_cases sha now hrecent hlength
        (List.getElem_mem hi') with hsame | ⟨pair, -, ordinal, hpair, hnew⟩
    · rwa [hsame]
    · rw [hnew, overwrite_group, resendRecord, writtenRecord_group]
      apply resendRow_group_nonneg
      rw [hpair]
      exact hgroup'

/-- A resend writes over the matched rows and refreshes the anchors. -/
theorem ingestSingle_run_resend {recent : List CanonicalTurnRow}
    (hdrawn : t.Drawn n)
    (hresend : findResend seen (args.existing t) (args.prepared sha now) =
      some recent) :
    ∃ result, (ingestSingle sha now seen args).run .quiet (.idle t n) =
        (.ok result, .idle
          (((t.backfilled args.conversationId).resent sha now
            ((args.prepared sha now).zip recent)).withAnchors
              args.conversationId
            (anchorsOf sha args.conversationId
              (((t.backfilled args.conversationId).resent sha now
                ((args.prepared sha now).zip recent)).loadRows
                  args.conversationId))) n) ∧
      result.mergeMode = .exactResend := by
  obtain ⟨hsub, hhashes, -⟩ := findResend_spec hresend
  have hlength : recent.length = (args.prepared sha now).length := by
    simpa using congrArg List.length hhashes
  have hloaded := t.allLegacy_backfilled args.conversationId
  unfold IngestSingleArgs.existing at hresend hsub
  have hbackfilled := backfilled_resent sha now hsub hlength
    hloaded
  refine ⟨⟨.exactResend, 0, (args.prepared sha now).length, 0, 0, 0, none, recent⟩,
    conversationReconcile_run ?_, rfl⟩
  apply Yields.bind getAllCanonicalTurns_yields
  dsimp only
  rw [hresend]
  apply Yields.bind (writeResend_yields _ _ 0
    (storedPairs_of_recent (hdrawn.backfilled _) hsub))
  have hrefresh := refreshPersistedAnchors_yields 1 sha args.conversationId
    ((t.backfilled args.conversationId).resent sha now
      ((args.prepared sha now).zip recent)) n
  rw [hbackfilled] at hrefresh
  exact Yields.bind hrefresh .pure

end Single

end VirtualContext
