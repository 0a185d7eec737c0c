import VirtualContext.Core.AnchorSearch
import VirtualContext.Core.SortKeys

/-!
# What an ingestion leaves behind

With room for its keys a call returns, and the conversation consists of its
former rows with the new ones at the places of the alignment.  The rows of all
other conversations stay as they were.
-/

namespace VirtualContext

open VirtualContext.Library

/-! ## Inserted records in order -/

namespace CanonicalTurns

variable {turns turns' : CanonicalTurns} {conversationId : ConversationId}
  {records merged : List CanonicalTurnRecord}

/-- The increasing arrangement of old and new rows is how they are read. -/
theorem ordered_insert (hrows : turns'.rows = turns.rows ++ records)
    (hown : ∀ record ∈ records, record.conversationId = conversationId)
    (hperm : (turns.ordered conversationId ++ records).Perm merged)
    (hmerged : Increasing (fun row => row.sortKey) merged) :
    turns'.ordered conversationId = merged := by
  apply orderBy_eq_of_perm _ hmerged
  refine List.Perm.trans ?_ hperm
  have hall : records.filter (fun row => row.conversationId = conversationId) =
      records :=
    List.filter_eq_self.mpr fun record h => by simp [hown record h]
  rw [hrows, List.filter_append, hall]
  exact (orderBy_perm _ _).symm.append_right _

theorem ordered_insert_other (hrows : turns'.rows = turns.rows ++ records)
    (hown : ∀ record ∈ records, record.conversationId = conversationId)
    {other : ConversationId} (hne : other ≠ conversationId) :
    turns'.ordered other = turns.ordered other := by
  have hnone : records.filter (fun row => row.conversationId = other) = [] := by
    rw [List.filter_eq_nil_iff]
    intro record hrecord heq
    exact hne ((of_decide_eq_true heq).symm.trans (hown record hrecord))
  unfold ordered
  rw [hrows, List.filter_append, hnone, List.append_nil]

end CanonicalTurns

theorem freshRecords_own {sha : Sha256} {now : String} {batchId : Uuid}
    {supply : Nat} {conversationId : ConversationId}
    {keyed : List (CanonicalTurnRow × ℚ)}
    (hown : ∀ pair ∈ keyed, pair.1.conversationId = conversationId) :
    ∀ record ∈ freshRecords sha now batchId supply keyed,
      record.conversationId = conversationId := by
  intro record hrecord
  have hmap := map_freshRecords sha now batchId
    (fun record => record.conversationId) (fun pair => pair.1.conversationId)
    keyed (fun _ _ _ => rfl) supply
  have hmem := List.mem_map_of_mem
    (f := fun record : CanonicalTurnRecord => record.conversationId) hrecord
  rw [hmap] at hmem
  obtain ⟨pair, hpair, heq⟩ := List.mem_map.mp hmem
  exact heq ▸ hown pair hpair

theorem freshRecords_keys (sha : Sha256) (now : String) (batchId : Uuid)
    (supply : Nat) (keyed : List (CanonicalTurnRow × ℚ)) :
    (freshRecords sha now batchId supply keyed).map (fun row => row.sortKey) =
      keyed.map Prod.snd :=
  map_freshRecords sha now batchId _ _ keyed (fun _ _ _ => rfl) supply

theorem freshRecords_hashes (sha : Sha256) (now : String) (batchId : Uuid)
    (supply : Nat) {keyed : List (CanonicalTurnRow × ℚ)}
    (hhashed : ∀ pair ∈ keyed, pair.1.turnHash ≠ []) :
    (freshRecords sha now batchId supply keyed).map (fun row => row.turnHash) =
      keyed.map fun pair => pair.1.turnHash :=
  map_freshRecords sha now batchId _ _ keyed
    (fun _ pair hpair =>
      writtenRecord_turnHash sha now (hhashed pair hpair) none none) supply

/-- Increasing keys of the whole are free keys of the new rows. -/
theorem freeKeys_of_increasing {t : Tables} {conversationId : ConversationId}
    {alignment : Option Alignment} {keys : List ℚ}
    (h : Increasing id (mergeOrder alignment keys
      ((t.loadRows conversationId).map (·.sortKey)))) :
    FreeKeys t conversationId keys := by
  have hnodup : ((t.loadRows conversationId).map (·.sortKey) ++ keys).Nodup :=
    (mergeOrder_perm alignment keys _).nodup_iff.mp h.nodup
  rw [t.map_loadRows conversationId _ (fun row => row.sortKey) fun _ _ => rfl]
    at hnodup
  obtain ⟨-, hkeys, hcross⟩ := List.nodup_append.mp hnodup
  refine ⟨hkeys, fun row hrow hmem => ?_⟩
  exact hcross _ (List.mem_map_of_mem hrow) _ hmem rfl

/-! ## The planned rows -/

section Planned

variable {existing prepared : List CanonicalTurnRow}
  {alignment : Option Alignment}

private theorem rowsFrom_rows (startKey : ℚ) (prepared : List CanonicalTurnRow) :
    (rowsFrom startKey prepared).map Prod.fst = prepared := by
  apply List.ext_getElem
  · simp [rowsFrom]
  · intro i hi hi'
    simp [rowsFrom]

theorem rowsBefore_rows (existing prepared : List CanonicalTurnRow)
    (a : Alignment) :
    (rowsBefore existing prepared a).map Prod.fst =
      prepared.take a.incomingStart := by
  rw [rowsBefore, List.map_fst_zip]
  simp [keysAt]

theorem rowsAfter_rows (existing prepared : List CanonicalTurnRow)
    (a : Alignment) :
    (rowsAfter existing prepared a).map Prod.fst =
      prepared.drop (a.incomingStart + a.overlapLen) := by
  rw [rowsAfter, List.map_fst_zip]
  simp [keysAt]

/-- The rows of the payload that a call adds. -/
def unmatchedRows (existing prepared : List CanonicalTurnRow) :
    Option Alignment → List CanonicalTurnRow
  | none =>
      if existing.isEmpty || hasCompletePair prepared then prepared else []
  | some a =>
      prepared.take a.incomingStart ++
        prepared.drop (a.incomingStart + a.overlapLen)

theorem plannedRows_rows (existing prepared : List CanonicalTurnRow)
    (alignment : Option Alignment) :
    (plannedRows existing prepared alignment).map Prod.fst =
      unmatchedRows existing prepared alignment := by
  cases alignment with
  | none =>
      unfold plannedRows unmatchedRows
      by_cases hempty : existing.isEmpty
      · simp [hempty, rowsFrom_rows]
      · by_cases hpair : hasCompletePair prepared
        · simp [hempty, hpair, rowsFrom_rows]
        · simp [hempty, hpair]
  | some a =>
      simp [plannedRows, unmatchedRows, rowsBefore_rows, rowsAfter_rows]

theorem length_plannedRows (existing prepared : List CanonicalTurnRow)
    (alignment : Option Alignment) :
    (plannedRows existing prepared alignment).length =
      (unmatchedRows existing prepared alignment).length := by
  rw [← plannedRows_rows, List.length_map]

theorem unmatchedRows_subset :
    ∀ row ∈ unmatchedRows existing prepared alignment, row ∈ prepared := by
  intro row hrow
  cases alignment with
  | none =>
      unfold unmatchedRows at hrow
      split_ifs at hrow
      · exact hrow
      · simp at hrow
  | some a =>
      rcases List.mem_append.mp hrow with h | h
      · exact List.mem_of_mem_take h
      · exact List.mem_of_mem_drop h

theorem plannedRows_subset :
    ∀ pair ∈ plannedRows existing prepared alignment, pair.1 ∈ prepared := by
  intro pair hpair
  have hmem : pair.1 ∈ unmatchedRows existing prepared alignment := by
    rw [← plannedRows_rows]
    exact List.mem_map_of_mem hpair
  exact unmatchedRows_subset _ hmem

end Planned

/-! ## One call under the lock -/

/-- The records that a call adds, from the supply it draws its batch from. -/
def IngestContext.newRecords (ctx : IngestContext) (sha : Sha256)
    (supply : Nat) (existing : List CanonicalTurnRow)
    (alignment : Option Alignment) : List CanonicalTurnRecord :=
  freshRecords sha ctx.now (supply + 1) (supply + 1)
    (plannedRows existing ctx.prepared alignment)

/-- The alignment that the anchors give, and the room that it leaves. -/
structure Placed (sha : Sha256) (ctx : IngestContext) (allowShortOverlap : Bool)
    (t : Tables) (alignment : Option Alignment) : Prop where
  found : alignWith sha (persistedIndex sha t ctx.conversationId
      (t.loadRows ctx.conversationId)) (t.loadRows ctx.conversationId)
    ctx.prepared allowShortOverlap = .ok alignment
  within : ∀ a, alignment = some a →
    a.Within (t.loadRows ctx.conversationId) ctx.prepared
  room : ∀ a, alignment = some a →
    a.HasRoom (t.loadRows ctx.conversationId) ctx.prepared

/-- The tables with the rows of the call, in the places they belong. -/
structure Merged (sha : Sha256) (ctx : IngestContext) (t : Tables) (n : Nat)
    (alignment : Option Alignment) (turns : CanonicalTurns) : Prop where
  rows : turns.rows = t.canonicalTurns.rows ++
    ctx.newRecords sha n (t.loadRows ctx.conversationId) alignment
  ordered : turns.ordered ctx.conversationId = mergeOrder alignment
    (ctx.newRecords sha n (t.loadRows ctx.conversationId) alignment)
    (t.canonicalTurns.ordered ctx.conversationId)
  other : ∀ other, other ≠ ctx.conversationId →
    turns.ordered other = t.canonicalTurns.ordered other

/-- Whether the payload is a fragment that nothing stored explains. -/
def rejectsFragment (existing prepared : List CanonicalTurnRow) :
    Option Alignment → Bool
  | none => !existing.isEmpty && !hasCompletePair prepared
  | some _ => false

/-- The tables once a call with these rows has ended. -/
def Tables.settled (sha : Sha256) (conversationId : ConversationId)
    (rejected : Bool) (batch : IngestBatchRecord) (t : Tables) : Tables :=
  if rejected then t.withBatch batch else t.finished sha conversationId batch

section Locked

variable {sha : Sha256} {ctx : IngestContext} {allowShortOverlap : Bool}
  {t : Tables} {n : Nat} {alignment : Option Alignment}

/-- With room for its keys the rows of a call can be inserted. -/
theorem Placed.merged (h : Placed sha ctx allowShortOverlap t alignment)
    (hdrawn : t.Drawn n) :
    ∃ turns, Merged sha ctx t n alignment turns ∧
      CanonicalTurns.ofRows (t.canonicalTurns.rows ++
        ctx.newRecords sha n (t.loadRows ctx.conversationId) alignment) =
          .ok turns := by
  have hown : ∀ pair ∈ plannedRows (t.loadRows ctx.conversationId) ctx.prepared
      alignment, pair.1.conversationId = ctx.conversationId :=
    fun pair hpair => ctx.ownConversation _ (plannedRows_subset pair hpair)
  have hincreasing := plannedKeys_increasing
    (t.loadRows_increasing ctx.conversationId) h.within h.room
  have hfree := freeKeys_of_increasing hincreasing
  obtain ⟨turns, hturns⟩ := exists_insert (hdrawn.mono (Nat.le_succ n)) hown
    hfree sha ctx.now (n + 1)
  have hrows := CanonicalTurns.ofRows_eq_ok_iff.mp hturns
  refine ⟨turns, ⟨hrows, ?_, ?_⟩, hturns⟩
  · apply CanonicalTurns.ordered_insert hrows (freshRecords_own hown)
    · exact (mergeOrder_perm _ _ _).symm
    · unfold Increasing at hincreasing ⊢
      rw [t.map_loadRows ctx.conversationId _ (fun row => row.sortKey)
        fun _ _ => rfl, ← freshRecords_keys sha ctx.now (n + 1) (n + 1),
        ← map_mergeOrder, List.pairwise_map] at hincreasing
      exact hincreasing
  · intro other hne
    exact CanonicalTurns.ordered_insert_other hrows (freshRecords_own hown) hne

/-- Without an overlap a call reports the rows that it adds. -/
def IngestCounts.ReportsAdded (counts : IngestCounts)
    (alignment : Option Alignment) (records : List CanonicalTurnRecord) : Prop :=
  alignment = Option.none → counts.rows.map (·.canonicalTurnId) =
    records.map (fun record => record.canonicalTurnId)

theorem ingestAligned_yields (depth : Nat) (hdrawn : t.Drawn n)
    (h : Placed sha ctx allowShortOverlap t alignment) :
    ∃ (counts : IngestCounts) (batch : IngestBatchRecord)
      (turns : CanonicalTurns), Merged sha ctx t n alignment turns ∧
      counts.ReportsAdded alignment
        (ctx.newRecords sha n (t.loadRows ctx.conversationId) alignment) ∧
      counts.Adds (plannedRows (t.loadRows ctx.conversationId) ctx.prepared
        alignment).length ∧
      batch.batchId = n + 1 ∧
      Yields (ingestAligned depth sha ctx (t.loadRows ctx.conversationId)
          alignment (n + 1)) t (n + 1)
        (counts.result (plannedMode (t.loadRows ctx.conversationId) ctx.prepared
          alignment) batch)
        (({ t with canonicalTurns := turns } : Tables).settled sha
          ctx.conversationId (rejectsFragment (t.loadRows ctx.conversationId)
            ctx.prepared alignment) batch)
        (n + 1 + (plannedRows (t.loadRows ctx.conversationId) ctx.prepared
          alignment).length) := by
  obtain ⟨turns, hmerged, hinsert⟩ := h.merged hdrawn
  have hdrawn' := hdrawn.mono (Nat.le_succ n)
  unfold ingestAligned IngestContext.newRecords at *
  cases alignment with
  | none =>
      unfold plannedRows plannedMode rejectsFragment at *
      by_cases hempty : (t.loadRows ctx.conversationId).isEmpty
      · simp only [hempty, if_true, Bool.true_or, Bool.not_true,
          Bool.false_and] at hinsert ⊢
        obtain ⟨counts, hcounts, hids, hwrites⟩ :=
          appendAll_yields hdrawn' 1000 0 hinsert
        exact ⟨counts, _, turns, hmerged, fun _ => hids, hcounts, rfl,
          Yields.bind hwrites (finishIngest_yields _ _ _ _ _ _ _ _)⟩
      · by_cases hpair : hasCompletePair ctx.prepared
        · simp only [hempty, hpair, if_true, if_false, Bool.or_true,
            Bool.not_true, Bool.and_false, Bool.false_eq_true] at hinsert ⊢
          obtain ⟨counts, hcounts, hids, hwrites⟩ := appendAll_yields hdrawn'
            (defaultSortKey (t.loadRows ctx.conversationId))
            (t.loadRows ctx.conversationId).length hinsert
          exact ⟨counts, _, turns, hmerged, fun _ => hids, hcounts, rfl,
            Yields.bind hwrites (finishIngest_yields _ _ _ _ _ _ _ _)⟩
        · simp only [hempty, hpair, if_false, Bool.or_false, Bool.not_false,
            Bool.and_true, Bool.false_eq_true, if_true] at hinsert ⊢
          obtain ⟨batch, hskip, hbatch⟩ := skipIngest_yields depth ctx
            .fragmentRejected ctx.rawTurnCount (n + 1) t (n + 1)
          obtain rfl : turns = t.canonicalTurns := by
            apply CanonicalTurns.ext
            rw [CanonicalTurns.ofRows_eq_ok_iff.mp hinsert]
            simp [freshRecords]
          exact ⟨.none, batch, _, hmerged, fun _ => rfl, ⟨rfl, rfl⟩, hbatch,
            hskip⟩
  | some a =>
      have hexisting : ¬ (t.loadRows ctx.conversationId).isEmpty := by
        intro hempty
        have hle := (h.within a rfl).existing_le
        have hpos := (h.within a rfl).pos
        rw [List.isEmpty_iff.mp hempty, List.length_nil] at hle
        omega
      obtain ⟨counts, hcounts, hwrites⟩ :=
        mergeAround_yields hdrawn' (h.within a rfl) hinsert
      rw [if_neg hexisting]
      refine ⟨counts, _, turns, hmerged, (absurd · (Option.some_ne_none a)), ?_, rfl,
        Yields.bind hwrites (finishIngest_yields _ _ _ _ _ _ _ _)⟩
      rw [plannedRows, List.length_append]
      exact hcounts.adds

/-- What a call with a nonempty payload does under the lock. -/
theorem ingestPreparedTurnsLocked_yields (depth : Nat)
    (hne : ctx.prepared ≠ []) (hdrawn : t.Drawn n)
    (h : Placed sha ctx allowShortOverlap t alignment) :
    ∃ (counts : IngestCounts) (batch : IngestBatchRecord)
      (turns : CanonicalTurns), Merged sha ctx t n alignment turns ∧
      counts.ReportsAdded alignment
        (ctx.newRecords sha n (t.loadRows ctx.conversationId) alignment) ∧
      counts.Adds (plannedRows (t.loadRows ctx.conversationId) ctx.prepared
        alignment).length ∧
      batch.batchId = n + 1 ∧
      Yields (ingestPreparedTurnsLocked depth sha ctx
          (t.loadRows ctx.conversationId) allowShortOverlap) t n
        (counts.result (plannedMode (t.loadRows ctx.conversationId) ctx.prepared
          alignment) batch)
        (({ t with canonicalTurns := turns } : Tables).settled sha
          ctx.conversationId (rejectsFragment (t.loadRows ctx.conversationId)
            ctx.prepared alignment) batch)
        (n + 1 + (plannedRows (t.loadRows ctx.conversationId) ctx.prepared
          alignment).length) := by
  obtain ⟨counts, batch, turns, hmerged, hreports, hadds, hbatch, hyields⟩ :=
    ingestAligned_yields depth hdrawn h
  refine ⟨counts, batch, turns, hmerged, hreports, hadds, hbatch, ?_⟩
  unfold ingestPreparedTurnsLocked
  rw [if_neg (by simpa using hne)]
  apply Yields.bind (findAlignment_yields n h.found)
  exact Yields.bind .fresh hyields

end Locked

/-! ## One call as a whole -/

/-- The conversation exists and is in the given lifecycle. -/
def Tables.LivesIn (t : Tables) (conversationId : ConversationId)
    (epoch : Int) : Prop :=
  ∃ row, t.conversation? conversationId = some row ∧ row.lifecycleEpoch = epoch

theorem Tables.conversations_backfilled (conversationId : ConversationId)
    (t : Tables) :
    (t.backfilled conversationId).conversations = t.conversations := by
  unfold Tables.backfilled
  split_ifs <;> rfl

theorem Tables.conversations_settled (sha : Sha256)
    (conversationId : ConversationId) (rejected : Bool)
    (batch : IngestBatchRecord) (t : Tables) :
    (t.settled sha conversationId rejected batch).conversations =
      t.conversations := by
  unfold Tables.settled
  split_ifs <;> rfl

theorem Tables.LivesIn.congr {t t' : Tables} {conversationId : ConversationId}
    {epoch : Int} (h : t.LivesIn conversationId epoch)
    (heq : t'.conversations = t.conversations) :
    t'.LivesIn conversationId epoch := by
  unfold Tables.LivesIn Tables.conversation? at *
  rwa [heq]

section Call

variable {sha : Sha256} {ctx : IngestContext} {epoch : Int}
  {allowShortOverlap : Bool} {t : Tables} {n : Nat}

theorem verifyCommitEpoch_yields (depth : Nat) (result : CanonicalIngestResult)
    (hlives : t.LivesIn ctx.conversationId epoch) :
    Yields (verifyCommitEpoch depth ctx epoch result) t n result t n := by
  obtain ⟨row, hrow, rfl⟩ := hlives
  apply Yields.bind ((getLifecycleEpoch_yields hrow).located _)
  rw [if_neg (by simp)]
  exact .pure

/-- A call in the right lifecycle does what its body does under the lock. -/
theorem ingestPreparedTurns_of_locked
    (hlives : t.LivesIn ctx.conversationId epoch)
    {result : CanonicalIngestResult} {t' : Tables} {n' : Nat}
    (hconversations : t'.conversations = t.conversations)
    (hlocked : Yields (ingestPreparedTurnsLocked 1 sha ctx
      ((t.backfilled ctx.conversationId).loadRows ctx.conversationId)
      allowShortOverlap) (t.backfilled ctx.conversationId) n result t' n') :
    (ingestPreparedTurns sha ctx epoch allowShortOverlap).run .quiet
      (.idle t n) = (.ok result, .idle t' n') := by
  have hbody : Yields (do
      let observed ← (getLifecycleEpoch ctx.conversationId).located .lockedEpoch
      verifyEpoch .lockedEpoch ctx.conversationId epoch observed
      let existing ← getAllCanonicalTurns ctx.conversationId
      let result ←
        ingestPreparedTurnsLocked 1 sha ctx existing allowShortOverlap
      verifyCommitEpoch 1 ctx epoch result : StoreProgram CanonicalIngestResult)
      t n result t' n' := by
    obtain ⟨row, hrow, rfl⟩ := hlives
    apply Yields.bind ((getLifecycleEpoch_yields hrow).located _)
    unfold verifyEpoch
    rw [if_pos rfl]
    apply Yields.bind .pure
    apply Yields.bind getAllCanonicalTurns_yields
    apply Yields.bind hlocked
    apply verifyCommitEpoch_yields
    exact Tables.LivesIn.congr ⟨row, hrow, rfl⟩ hconversations
  obtain ⟨row, hrow, rfl⟩ := hlives
  have hentry := ((getLifecycleEpoch_yields (n := n) hrow).located
    .entryEpoch).run
  unfold ingestPreparedTurns
  rw [Program.run_bind, hentry, Program.andThen_ok]
  unfold verifyEpoch
  rw [if_pos rfl, Program.run_bind, Program.run_pure, Program.andThen_ok]
  exact conversationReconcile_run hbody

/-- A call with a nonempty payload whose new rows have room. -/
theorem ingestPreparedTurns_run {alignment : Option Alignment}
    (hdrawn : t.Drawn n) (hlives : t.LivesIn ctx.conversationId epoch)
    (hne : ctx.prepared ≠ [])
    (h : Placed sha ctx allowShortOverlap (t.backfilled ctx.conversationId)
      alignment) :
    ∃ (counts : IngestCounts) (batch : IngestBatchRecord)
      (turns : CanonicalTurns),
      Merged sha ctx (t.backfilled ctx.conversationId) n alignment turns ∧
      counts.Adds (plannedRows ((t.backfilled ctx.conversationId).loadRows
        ctx.conversationId) ctx.prepared alignment).length ∧
      batch.batchId = n + 1 ∧
      (ingestPreparedTurns sha ctx epoch allowShortOverlap).run .quiet
          (.idle t n) =
        (.ok (counts.result (plannedMode
            ((t.backfilled ctx.conversationId).loadRows ctx.conversationId)
            ctx.prepared alignment) batch),
          .idle (({ t.backfilled ctx.conversationId with
              canonicalTurns := turns } : Tables).settled sha ctx.conversationId
              (rejectsFragment ((t.backfilled ctx.conversationId).loadRows
                ctx.conversationId) ctx.prepared alignment) batch)
            (n + 1 + (plannedRows ((t.backfilled ctx.conversationId).loadRows
              ctx.conversationId) ctx.prepared alignment).length)) := by
  obtain ⟨counts, batch, turns, hmerged, -, hadds, hbatch, hyields⟩ :=
    ingestPreparedTurnsLocked_yields 1 hne (hdrawn.backfilled _) h
  refine ⟨counts, batch, turns, hmerged, hadds, hbatch, ?_⟩
  apply ingestPreparedTurns_of_locked hlives _ hyields
  rw [Tables.conversations_settled]
  exact t.conversations_backfilled ctx.conversationId

variable (sha n allowShortOverlap) in
/-- A call with an empty payload records a batch and nothing else. -/
theorem ingestPreparedTurns_run_empty
    (hlives : t.LivesIn ctx.conversationId epoch) (hempty : ctx.prepared = []) :
    ∃ batch : IngestBatchRecord, batch.batchId = n + 1 ∧
      (ingestPreparedTurns sha ctx epoch allowShortOverlap).run .quiet
          (.idle t n) =
        (.ok (IngestCounts.none.result .emptyPayload batch),
          .idle ((t.backfilled ctx.conversationId).withBatch batch) (n + 1)) := by
  obtain ⟨batch, hskip, hbatch⟩ := skipEmpty_yields 1 ctx .emptyPayload 0
    (t.backfilled ctx.conversationId) n
  refine ⟨batch, hbatch, ?_⟩
  apply ingestPreparedTurns_of_locked hlives
  · exact t.conversations_backfilled ctx.conversationId
  · unfold ingestPreparedTurnsLocked
    rw [if_pos (by simp [hempty])]
    exact hskip

theorem getLifecycleEpoch_missing {conversationId : ConversationId}
    (h : t.conversation? conversationId = none) (site : Site) :
    ((getLifecycleEpoch conversationId).located site).run .quiet (.idle t n) =
      (.error ⟨site, .keyError conversationId⟩, .idle t n) := by
  simp [getLifecycleEpoch, withConn, Program.read, Program.commit, Program.exec,
    bind, Program.bind, Program.tryCatch, Program.located, Program.run,
    Statement.exec, Program.ofOutcome, Program.raise, h, pure]

variable (sha n allowShortOverlap) in
/-- A call in any other lifecycle raises and changes nothing. -/
theorem ingestPreparedTurns_refused
    (hlives : ¬ t.LivesIn ctx.conversationId epoch) :
    ∃ raised, (ingestPreparedTurns sha ctx epoch allowShortOverlap).run .quiet
      (.idle t n) = (.error raised, .idle t n) := by
  unfold ingestPreparedTurns
  rw [Program.run_bind]
  cases hrow : t.conversation? ctx.conversationId with
  | none =>
      rw [getLifecycleEpoch_missing hrow]
      exact ⟨_, rfl⟩
  | some row =>
      have hentry := ((getLifecycleEpoch_yields (n := n) hrow).located
        .entryEpoch).run
      rw [hentry, Program.andThen_ok, Program.run_bind]
      unfold verifyEpoch
      rw [if_neg]
      · exact ⟨_, rfl⟩
      · intro heq
        exact hlives ⟨row, hrow, heq.symm⟩

end Call

end VirtualContext
