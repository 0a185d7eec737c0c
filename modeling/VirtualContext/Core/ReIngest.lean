import VirtualContext.Core.SlidingWindows

/-!
# Ingesting a payload again

A payload that is a block of the transcript is found as a whole, so that a
resend of it adds no row.  The first call makes it a block unless misleading
anchors put it somewhere else or it is rejected as a fragment.
-/

namespace VirtualContext

open VirtualContext.Library

/-- The rows and numbers of a conversation that was finished stay as they are. -/
theorem Tables.backfilled_finished (sha : Sha256)
    (conversationId : ConversationId) (batch : IngestBatchRecord) (t : Tables) :
    (t.finished sha conversationId batch).backfilled conversationId =
      t.finished sha conversationId batch := by
  have hregrouped := Tables.backfilled_regrouped conversationId
    (t.withBatch batch)
  unfold Tables.backfilled at hregrouped ⊢
  have hlegacy : allLegacy ((t.finished sha conversationId batch).loadRows
      conversationId) = false := by
    have h := Tables.allLegacy_backfilled
      ((t.withBatch batch).regrouped conversationId) conversationId
    rwa [Tables.backfilled_regrouped] at h
  rw [if_neg (by simp [hlegacy])]

theorem Tables.ordered_finished_finished (sha : Sha256)
    (conversationId : ConversationId) (batch batch' : IngestBatchRecord)
    (t : Tables) :
    ((t.finished sha conversationId batch).finished sha conversationId
        batch').canonicalTurns.ordered conversationId =
      (t.finished sha conversationId batch).canonicalTurns.ordered
        conversationId :=
  (t.withBatch batch).ordered_regrouped_regrouped conversationId

/-- A block of a list is a slice that the list shares with it. -/
theorem sharedSlice_of_infix {existing incoming : List HexDigest}
    (h : incoming <:+: existing) :
    ∃ position, SharedSlice existing incoming incoming.length 0 position := by
  obtain ⟨front, back, rfl⟩ := h
  refine ⟨front.length, by simp, by simp, ?_⟩
  simp [slice]

section

variable {sha : Sha256} {t : Tables} {n : Nat}

/-- A call that reports no new row and leaves the rows as they are. -/
def WritesNothing (sha : Sha256) (call : IngestCall) (t : Tables) (n : Nat) :
    Prop :=
  ∃ result t' n', call.run sha (.idle t n) = (.ok result, .idle t' n') ∧
    result.turnsWritten = 0 ∧ result.turnsAppended = 0 ∧
    result.turnsPrepended = 0 ∧ result.turnsInserted = 0 ∧
    t'.canonicalTurns.ordered call.ctx.conversationId =
      t.canonicalTurns.ordered call.ctx.conversationId

theorem IngestCounts.Adds.none {counts : IngestCounts} (h : counts.Adds 0) :
    counts.written = 0 ∧ counts.appended = 0 ∧ counts.prepended = 0 ∧
      counts.inserted = 0 := by
  obtain ⟨hwritten, hsum⟩ := h
  omega

/-- A call without planned rows. -/
theorem writesNothing_of_placed {call : IngestCall}
    (alignment : Option Alignment) (hdrawn : t.Drawn n)
    (hlives : t.LivesIn call.ctx.conversationId call.expectedLifecycleEpoch)
    (hne : call.ctx.prepared ≠ [])
    (hloaded : t.backfilled call.ctx.conversationId = t)
    (hplaced : Placed sha call.ctx call.allowShortOverlap t alignment)
    (hplanned : plannedRows (call.existing t) call.ctx.prepared alignment = [])
    (hsettled : ∀ batch, (t.settled sha call.ctx.conversationId
        (rejectsFragment (call.existing t) call.ctx.prepared alignment)
        batch).canonicalTurns.ordered call.ctx.conversationId =
      t.canonicalTurns.ordered call.ctx.conversationId) :
    WritesNothing sha call t n := by
  unfold IngestCall.existing at hplanned hsettled
  obtain ⟨counts, batch, turns, hmerged, hadds, -, hrun⟩ :=
    ingestPreparedTurns_run hdrawn hlives hne
      (by rwa [hloaded] : Placed sha call.ctx call.allowShortOverlap
        (t.backfilled call.ctx.conversationId) alignment)
  obtain rfl : turns = (t.backfilled call.ctx.conversationId).canonicalTurns := by
    apply CanonicalTurns.ext
    rw [hmerged.rows, IngestContext.newRecords, hplanned]
    simp [freshRecords]
  rw [hplanned] at hadds
  obtain ⟨hwritten, happended, hprepended, hinserted⟩ := hadds.none
  refine ⟨_, _, _, hrun, hwritten, happended, hprepended, hinserted, ?_⟩
  rw [hloaded] at hsettled ⊢
  exact hsettled batch

theorem writesNothing_of_empty {call : IngestCall}
    (hlives : t.LivesIn call.ctx.conversationId call.expectedLifecycleEpoch)
    (hempty : call.ctx.prepared = [])
    (hloaded : t.backfilled call.ctx.conversationId = t) :
    WritesNothing sha call t n := by
  obtain ⟨batch, -, hrun⟩ := ingestPreparedTurns_run_empty sha
    call.allowShortOverlap n hlives hempty
  refine ⟨_, _, _, hrun, rfl, rfl, rfl, rfl, ?_⟩
  rw [hloaded]
  rfl

/-- A payload that is stored as a block is matched as a whole. -/
theorem writesNothing_of_stored {call : IngestCall} {batch : IngestBatchRecord}
    (hdrawn : (t.finished sha call.ctx.conversationId batch).Drawn n)
    (hlives : (t.finished sha call.ctx.conversationId batch).LivesIn
      call.ctx.conversationId call.expectedLifecycleEpoch)
    (hcurrent : AnchorsCurrent sha
      (t.finished sha call.ctx.conversationId batch) call.ctx.conversationId)
    (hshort : call.allowShortOverlap = true) (hne : call.ctx.prepared ≠ [])
    (hstored : call.ctx.prepared.map (·.turnHash) <:+:
      (t.finished sha call.ctx.conversationId batch).hashes
        call.ctx.conversationId) :
    WritesNothing sha call (t.finished sha call.ctx.conversationId batch) n := by
  have hloaded := t.backfilled_finished sha call.ctx.conversationId batch
  have honest := call.honest hcurrent
  rw [← Tables.hashes_loadRows, ← hloaded] at hstored
  obtain ⟨position, hrun⟩ := sharedSlice_of_infix hstored
  unfold IngestCall.Honest at honest
  rw [hshort] at honest
  obtain ⟨a, halign, htruthful, hfull⟩ :=
    alignWith_full honest (call.indexComplete hcurrent) hne hrun
  have hbound := htruthful.incoming_le
  rw [List.length_map] at hbound
  have hstart : a.incomingStart = 0 := by omega
  have hpos : 0 < a.overlapLen := by
    rw [hfull]
    exact List.length_pos_of_ne_nil hne
  have hkeys := (t.finished sha call.ctx.conversationId batch).loadRows_increasing
    call.ctx.conversationId
  unfold IngestCall.existing at halign htruthful
  rw [hloaded] at halign htruthful
  apply writesNothing_of_placed (some a) hdrawn hlives hne hloaded
  · refine ⟨by rwa [hshort], ?_, ?_⟩
    · rintro _ ⟨⟩
      exact htruthful.within hpos
    · rintro _ ⟨⟩
      constructor
      · rw [hstart]
        exact roomAt_zero hkeys _
      · rw [hstart, hfull, Nat.zero_add, Nat.sub_self]
        exact roomAt_zero hkeys _
  · simp [plannedRows, rowsBefore, rowsAfter, hstart, hfull]
  · intro batch'
    exact t.ordered_finished_finished sha call.ctx.conversationId batch batch'

theorem Tables.backfilled_withBatch (conversationId : ConversationId)
    (batch : IngestBatchRecord) (t : Tables) :
    ((t.backfilled conversationId).withBatch batch).backfilled conversationId =
      (t.backfilled conversationId).withBatch batch := by
  have hlegacy : allLegacy (((t.backfilled conversationId).withBatch
      batch).loadRows conversationId) = false :=
    t.allLegacy_backfilled conversationId
  rw [Tables.backfilled, if_neg (by simp [hlegacy])]

/-- The call is turned away by the fragment guard. -/
structure IngestCall.IsFragment (sha : Sha256) (call : IngestCall)
    (t : Tables) : Prop where
  unaligned : call.alignment sha t = .ok none
  stored : call.existing t ≠ []
  noPair : hasCompletePair call.ctx.prepared = false

theorem rejectsFragment_eq_true {existing prepared : List CanonicalTurnRow}
    {alignment : Option Alignment} :
    rejectsFragment existing prepared alignment = true ↔
      alignment = none ∧ existing ≠ [] ∧ hasCompletePair prepared = false := by
  cases alignment <;> simp [rejectsFragment]

/-- Nothing was written, and nothing will be, for a fragment. -/
theorem writesNothing_of_fragment {call : IngestCall}
    {batch : IngestBatchRecord}
    (hdrawn : ((t.backfilled call.ctx.conversationId).withBatch batch).Drawn n)
    (hlives : ((t.backfilled call.ctx.conversationId).withBatch batch).LivesIn
      call.ctx.conversationId call.expectedLifecycleEpoch)
    (hne : call.ctx.prepared ≠ []) (hfragment : call.IsFragment sha t) :
    WritesNothing sha call
      ((t.backfilled call.ctx.conversationId).withBatch batch) n := by
  have hloaded := t.backfilled_withBatch call.ctx.conversationId batch
  have hexisting : call.existing
      ((t.backfilled call.ctx.conversationId).withBatch batch) =
      call.existing t := by
    unfold IngestCall.existing
    rw [hloaded]
    rfl
  have hrejected : rejectsFragment (call.existing t) call.ctx.prepared none =
      true :=
    rejectsFragment_eq_true.mpr ⟨rfl, hfragment.stored, hfragment.noPair⟩
  apply writesNothing_of_placed none hdrawn hlives hne hloaded
  · exact ⟨hfragment.unaligned, by simp, by simp⟩
  · rw [hexisting, plannedRows,
      if_neg (by simpa using hfragment.stored),
      if_neg (by simp [hfragment.noPair])]
  · intro batch'
    rw [hexisting, hrejected]
    rfl

/--
After a call whose insertions have room and whose alignment met no misleading
anchor, a payload with the same hashes adds no row.  If the first call was
turned away as a fragment, the second payload has to be one too.
-/
theorem resend_writes_nothing (sha : Sha256) (s : Store)
    (call resend : IngestCall)
    (hlives : s.tables.LivesIn call.ctx.conversationId
      call.expectedLifecycleEpoch)
    (hown : resend.ctx.conversationId = call.ctx.conversationId)
    (hlifecycle : resend.expectedLifecycleEpoch = call.expectedLifecycleEpoch)
    (hshort : call.allowShortOverlap = true)
    (hshort' : resend.allowShortOverlap = true)
    (hsame : resend.ctx.prepared.map (·.turnHash) =
      call.ctx.prepared.map (·.turnHash))
    (hroom : call.HasRoom sha s.tables)
    (honest : call.Honest sha s.tables)
    (hfragment : call.IsFragment sha s.tables →
      hasCompletePair resend.ctx.prepared = false) :
    ∃ result t' n', call.run sha s.conn = (.ok result, .idle t' n') ∧
      WritesNothing sha resend t' n' := by
  have hempty : resend.ctx.prepared = [] ↔ call.ctx.prepared = [] := by
    rw [← List.map_eq_nil_iff (f := fun row : CanonicalTurnRow => row.turnHash),
      hsame, List.map_eq_nil_iff]
  have hdrawn := s.drawn.backfilled call.ctx.conversationId
  have hlives' : ∀ t' : Tables, t'.conversations = s.tables.conversations →
      t'.LivesIn resend.ctx.conversationId resend.expectedLifecycleEpoch := by
    intro t' hconversations
    rw [hown, hlifecycle]
    exact hlives.congr hconversations
  have hconversations :=
    s.tables.conversations_backfilled call.ctx.conversationId
  by_cases hne : call.ctx.prepared = []
  · obtain ⟨batch, -, hrun⟩ := ingestPreparedTurns_run_empty sha
      call.allowShortOverlap s.supply hlives hne
    refine ⟨_, _, _, hrun, ?_⟩
    refine writesNothing_of_empty (hlives' _ ?_) (hempty.mpr hne) ?_
    · exact hconversations
    · rw [hown]
      exact s.tables.backfilled_withBatch _ _
  · obtain ⟨alignment, halign, hplaced, hspec⟩ := call.placed honest hroom
    obtain ⟨counts, batch, turns, hmerged, -, hbatch, hrun⟩ :=
      ingestPreparedTurns_run s.drawn hlives hne hplaced
    refine ⟨_, _, _, hrun, ?_⟩
    have hdrawn' := (hmerged.drawn hdrawn).settled sha call.ctx.conversationId
      (rejectsFragment (call.existing s.tables) call.ctx.prepared alignment)
      (hbatch.trans_le (Nat.le_add_right _ _))
    cases hrejected : rejectsFragment (call.existing s.tables) call.ctx.prepared
        alignment with
    | true =>
        obtain ⟨rfl, hstored, hpair⟩ := rejectsFragment_eq_true.mp hrejected
        obtain ⟨-, rfl⟩ := hmerged.of_rejected hrejected
        have hpair' := hfragment ⟨halign, hstored, hpair⟩
        unfold IngestCall.existing at hrejected hdrawn'
        rw [hrejected] at hdrawn' ⊢
        rw [← hown] at hdrawn' ⊢
        apply writesNothing_of_fragment hdrawn'
        · exact hlives' _ (hown ▸ hconversations)
        · exact fun h => hne (hempty.mp h)
        · refine ⟨?_, ?_, hpair'⟩
          · unfold IngestCall.alignment IngestCall.existing at halign ⊢
            rw [hown, alignWith_congr hsame, hshort', ← hshort]
            exact halign
          · unfold IngestCall.existing at hstored ⊢
            rwa [hown]
    | false =>
        have hcurrent := anchorsCurrent_finished sha batch
          ((hmerged.drawn hdrawn).loadRows_ids_ne_zero call.ctx.conversationId)
        have hinfix := payload_infix (fun a ha =>
          ⟨(hspec a ha).1, (hspec a ha).2.pos⟩) hrejected
        unfold IngestCall.existing at hrejected hdrawn' hinfix
        rw [Tables.hashes_loadRows, ← hmerged.hashes, Tables.hashes_eq,
          ← Tables.content_settled _ sha call.ctx.conversationId false batch,
          ← Tables.hashes_eq, ← hsame] at hinfix
        rw [hrejected] at hdrawn' ⊢
        rw [← hown] at hdrawn' hcurrent hinfix ⊢
        apply writesNothing_of_stored hdrawn' _ hcurrent hshort' _ hinfix
        · exact hlives' _ (hown ▸ hconversations)
        · exact fun h => hne (hempty.mp h)

end

/-- A user message and the reply to it. -/
def exchange (question answer : String) : List IngestibleMessage :=
  [{ role := .user, content := question },
    { role := .assistant, content := answer }]

theorem resend_writes_nothing_first :
    ∃ result t' n', (chatCall (exchange "a" "b")).run .spelled emptyChat =
        (.ok result, .idle t' n') ∧
      WritesNothing .spelled (chatCall (exchange "a" "b")) t' n' := by
  have hnone : (chatCall (exchange "a" "b")).alignment .spelled
      chatStore.tables = .ok none := rfl
  apply resend_writes_nothing .spelled chatStore (chatCall (exchange "a" "b"))
    (chatCall (exchange "a" "b")) ⟨_, rfl, rfl⟩ rfl rfl rfl rfl rfl
  · intro a halign
    cases hnone.symm.trans halign
  · exact (chatCall _).honest (anchorsCurrent_of_empty rfl)
  · exact fun hfragment => absurd rfl hfragment.stored

/-- Four rows, of which the third is deleted: its anchors stay behind. -/
def staleChat : Conn Tables :=
  ((deleteCanonicalTurns "chat" (some 2)).run .quiet
    (runCalls .spelled [chatCall (exchange "a" "b" ++ exchange "c" "d")]
      emptyChat)).2

/-- The first three of the four messages, sent once more. -/
def truncatedCall : IngestCall :=
  chatCall (exchange "a" "b" ++ [{ role := .user, content := "c" }])

/--
The stale anchor makes the first call take the deleted row for a stored one;
the second call finds no overlap and appends the whole payload.
-/
theorem stale_anchors_repeat_payload :
    (truncatedCall.run .spelled staleChat).1.toOption.map (·.turnsWritten) =
        some 0 ∧
      (truncatedCall.run .spelled
        (truncatedCall.run .spelled staleChat).2).1.toOption.map
          (·.turnsWritten) = some 3 := by
  decide +kernel

end VirtualContext
