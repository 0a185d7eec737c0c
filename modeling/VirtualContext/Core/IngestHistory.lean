import VirtualContext.Core.AnchorTruth
import VirtualContext.Library.Reach

/-!
# Histories of ingestion

In a history of calls whose insertions all have room the anchors stay current,
every call returns, and the transcript only ever grows: old rows keep their
order and each accepted payload becomes a block of it.
-/

namespace VirtualContext

open VirtualContext.Library

/-! ## Calls and histories -/

/-- One call of `ingest_prepared_turns`. -/
structure IngestCall where
  ctx : IngestContext
  expectedLifecycleEpoch : Int
  allowShortOverlap : Bool := true

namespace IngestCall

/-- The call on a connection that nothing interferes with. -/
def run (sha : Sha256) (call : IngestCall) (c : Conn Tables) :
    Except (Raised Site Exc) CanonicalIngestResult × Conn Tables :=
  (ingestPreparedTurns sha call.ctx call.expectedLifecycleEpoch
    call.allowShortOverlap).run .quiet c

/-- The rows that the call finds when it loads the conversation. -/
def existing (call : IngestCall) (t : Tables) : List CanonicalTurnRow :=
  (t.backfilled call.ctx.conversationId).loadRows call.ctx.conversationId

/-- What `_find_alignment` makes of the payload on these tables. -/
def alignment (sha : Sha256) (call : IngestCall) (t : Tables) :
    Except Exc (Option Alignment) :=
  alignWith sha (persistedIndex sha (t.backfilled call.ctx.conversationId)
      call.ctx.conversationId (call.existing t))
    (call.existing t) call.ctx.prepared call.allowShortOverlap

/-- Where the alignment relies on anchors, they do not mislead it. -/
def Honest (sha : Sha256) (call : IngestCall) (t : Tables) : Prop :=
  HonestAnchors sha (persistedIndex sha (t.backfilled call.ctx.conversationId)
      call.ctx.conversationId (call.existing t))
    (call.existing t) call.ctx.prepared call.allowShortOverlap

/-- Where the call inserts rows between stored ones they fit in there. -/
def HasRoom (sha : Sha256) (call : IngestCall) (t : Tables) : Prop :=
  ∀ a, call.alignment sha t = .ok (some a) →
    a.HasRoom (call.existing t) call.ctx.prepared

end IngestCall

/-- The connection after calls made one after the other. -/
def runCalls (sha : Sha256) (calls : List IngestCall) (c : Conn Tables) :
    Conn Tables :=
  calls.foldl (fun c call => (call.run sha c).2) c

/-- A database as it is created, with any conversations. -/
def StartsEmpty (c : Conn Tables) : Prop :=
  ∃ conversations, c = (Store.fresh conversations).conn

/-- One call whose insertions have room. -/
def RoomyIngest (sha : Sha256) (c c' : Conn Tables) : Prop :=
  ∃ call : IngestCall, call.HasRoom sha c.durable ∧ c' = (call.run sha c).2

/-! ## One call -/

/-- What every history of ingestion maintains. -/
structure Ingestible (sha : Sha256) (t : Tables) (n : Nat) : Prop where
  drawn : t.Drawn n
  anchors : ∀ conversationId, AnchorsCurrent sha t conversationId

/-- A truthful, maximal alignment lies within the rows that it compares. -/
theorem Alignment.Truthful.within {a : Alignment}
    {existing incoming : List CanonicalTurnRow}
    (h : a.Truthful (existing.map (·.turnHash)) (incoming.map (·.turnHash)))
    (hpos : 0 < a.overlapLen) : a.Within existing incoming where
  existing_le := by simpa using h.existing_le
  incoming_le := by simpa using h.incoming_le
  pos := hpos

/-- The alignment of a call on honest anchors. -/
theorem IngestCall.placed {sha : Sha256} {call : IngestCall} {t : Tables}
    (honest : call.Honest sha t)
    (hroom : call.HasRoom sha t) :
    ∃ alignment, call.alignment sha t = .ok alignment ∧
      Placed sha call.ctx call.allowShortOverlap
        (t.backfilled call.ctx.conversationId) alignment ∧
      ∀ a, alignment = some a →
        a.Truthful ((call.existing t).map (·.turnHash))
          (call.ctx.prepared.map (·.turnHash)) ∧
        a.Maximal ((call.existing t).map (·.turnHash))
          (call.ctx.prepared.map (·.turnHash)) := by
  obtain ⟨alignment, halign, hspec⟩ := alignWith_spec honest
  refine ⟨alignment, halign, ⟨halign, ?_, ?_⟩, hspec⟩
  · intro a ha
    exact (hspec a ha).1.within (hspec a ha).2.pos
  · intro a ha
    exact hroom a (ha ▸ halign)

section

variable {sha : Sha256} {t : Tables} {call : IngestCall}

/-- Current anchors are honest. -/
theorem IngestCall.honest
    (h : AnchorsCurrent sha t call.ctx.conversationId) :
    call.Honest sha t :=
  honestAnchors_of_truthful (fun _ hpos =>
    persistedIndex_truthful (h.backfilled _).truthful hpos) _

theorem IngestCall.indexComplete
    (h : AnchorsCurrent sha t call.ctx.conversationId) :
    ∀ windowSize ∈ [5, 4, 3],
      IndexComplete sha (call.existing t) windowSize
        (persistedIndex sha (t.backfilled call.ctx.conversationId)
          call.ctx.conversationId (call.existing t) windowSize) :=
  persistedIndex_complete (h.backfilled _).complete

end

/-! ## The state after a call -/

theorem Tables.Drawn.withBatch {t : Tables} {n : Nat} (h : t.Drawn n)
    {batch : IngestBatchRecord} (hbatch : batch.batchId ≤ n) :
    (t.withBatch batch).Drawn n where
  turns := h.turns
  anchors := h.anchors
  batches other hother := by
    rcases List.mem_append.mp hother with hold | hnew
    · exact h.batches other (List.mem_filter.mp hold).1
    · obtain rfl := List.mem_singleton.mp hnew
      exact hbatch

theorem Tables.Drawn.withAnchors {t : Tables} {n : Nat} (h : t.Drawn n)
    (conversationId : ConversationId) {anchors : List CanonicalTurnAnchor}
    (hanchors : ∀ anchor ∈ anchors, anchor.startTurnId ≤ n) :
    (t.withAnchors conversationId anchors).Drawn n where
  turns := h.turns
  anchors anchor hanchor := by
    rcases List.mem_append.mp hanchor with hold | hnew
    · exact h.anchors anchor (List.mem_filter.mp hold).1
    · exact hanchors anchor (List.mem_filter.mp hnew).1
  batches := h.batches

theorem Tables.Drawn.loadRows_ids_le {t : Tables} {n : Nat} (h : t.Drawn n)
    (conversationId : ConversationId) :
    ∀ row ∈ t.loadRows conversationId, row.canonicalTurnId ≤ n := by
  intro row hrow
  have hid := List.mem_map_of_mem (f := (·.canonicalTurnId)) hrow
  rw [t.map_loadRows conversationId _ (·.canonicalTurnId) fun _ _ => rfl] at hid
  obtain ⟨record, hrecord, heq⟩ := List.mem_map.mp hid
  rw [← heq]
  exact (h.turns record (CanonicalTurns.mem_ordered.mp hrecord).1).2

theorem Tables.Drawn.refreshed {t : Tables} {n : Nat} (h : t.Drawn n)
    (sha : Sha256) (conversationId : ConversationId) :
    (t.withAnchors conversationId (anchorsOf sha conversationId
      (t.loadRows conversationId))).Drawn n := by
  apply h.withAnchors
  intro anchor hanchor
  obtain ⟨-, -, start, row, -, hrow, -, hstart, -⟩ := mem_anchorsOf.mp hanchor
  rw [hstart]
  exact h.loadRows_ids_le conversationId row (List.mem_of_getElem? hrow)

theorem Tables.Drawn.settled {t : Tables} {n : Nat} (h : t.Drawn n)
    (sha : Sha256) (conversationId : ConversationId) (rejected : Bool)
    {batch : IngestBatchRecord} (hbatch : batch.batchId ≤ n) :
    (t.settled sha conversationId rejected batch).Drawn n := by
  unfold Tables.settled
  split_ifs
  · exact h.withBatch hbatch
  · exact ((h.withBatch hbatch).regrouped conversationId).refreshed sha
      conversationId

section Merged

variable {sha : Sha256} {ctx : IngestContext} {t : Tables} {n : Nat}
  {alignment : Option Alignment} {turns : CanonicalTurns}

theorem Merged.drawn (h : Merged sha ctx t n alignment turns)
    (hdrawn : t.Drawn n) :
    ({ t with canonicalTurns := turns } : Tables).Drawn
      (n + 1 + (plannedRows (t.loadRows ctx.conversationId) ctx.prepared
        alignment).length) := by
  apply hdrawn.insert _ h.rows
  · intro record hrecord
    obtain ⟨hlt, hle⟩ := freshRecords_ids sha ctx.now (n + 1) record hrecord
    exact ⟨Nat.zero_lt_of_lt hlt, hle⟩
  · exact (Nat.le_succ n).trans (Nat.le_add_right _ _)

theorem Merged.of_rejected (h : Merged sha ctx t n alignment turns)
    (hrejected : rejectsFragment (t.loadRows ctx.conversationId) ctx.prepared
      alignment = true) :
    plannedRows (t.loadRows ctx.conversationId) ctx.prepared alignment = [] ∧
      turns = t.canonicalTurns := by
  have hplanned : plannedRows (t.loadRows ctx.conversationId) ctx.prepared
      alignment = [] := by
    unfold rejectsFragment at hrejected
    unfold plannedRows
    cases alignment with
    | none => simp_all
    | some a => cases hrejected
  refine ⟨hplanned, CanonicalTurns.ext ?_⟩
  rw [h.rows, IngestContext.newRecords, hplanned]
  simp [freshRecords]

theorem Merged.spine_other (h : Merged sha ctx t n alignment turns)
    {other : ConversationId} (hne : other ≠ ctx.conversationId) :
    ({ t with canonicalTurns := turns } : Tables).spine other =
      t.spine other := by
  unfold Tables.spine
  rw [Tables.loadRows_congr (h.other other hne)]

/-- The anchors stay current, whether or not the call was rejected. -/
theorem Merged.anchorsCurrent (h : Merged sha ctx t n alignment turns)
    (hdrawn : t.Drawn n) (hcurrent : AnchorsCurrent sha t ctx.conversationId)
    (batch : IngestBatchRecord) :
    AnchorsCurrent sha (({ t with canonicalTurns := turns } : Tables).settled sha
        ctx.conversationId (rejectsFragment (t.loadRows ctx.conversationId)
          ctx.prepared alignment) batch) ctx.conversationId := by
  cases hrejected : rejectsFragment (t.loadRows ctx.conversationId) ctx.prepared
      alignment with
  | true =>
      obtain ⟨-, rfl⟩ := h.of_rejected hrejected
      exact hcurrent.withBatch batch
  | false =>
      exact anchorsCurrent_finished sha batch
        ((h.drawn hdrawn).loadRows_ids_ne_zero ctx.conversationId)

theorem Merged.anchorsCurrent_other (h : Merged sha ctx t n alignment turns)
    {other : ConversationId} (hne : other ≠ ctx.conversationId)
    (hcurrent : AnchorsCurrent sha t other) (rejected : Bool)
    (batch : IngestBatchRecord) :
    AnchorsCurrent sha (({ t with canonicalTurns := turns } : Tables).settled sha
      ctx.conversationId rejected batch) other := by
  have hmerged : AnchorsCurrent sha { t with canonicalTurns := turns } other :=
    hcurrent.congr (h.spine_other hne) rfl
  unfold Tables.settled
  split_ifs
  · exact hmerged.withBatch batch
  · exact hmerged.finished_other hne batch

/-- A call keeps the invariant. -/
theorem Merged.ingestible (h : Merged sha ctx t n alignment turns)
    (hingestible : Ingestible sha t n) {batch : IngestBatchRecord}
    (hbatch : batch.batchId = n + 1) :
    Ingestible sha (({ t with canonicalTurns := turns } : Tables).settled sha
        ctx.conversationId (rejectsFragment (t.loadRows ctx.conversationId)
          ctx.prepared alignment) batch)
      (n + 1 + (plannedRows (t.loadRows ctx.conversationId) ctx.prepared
        alignment).length) where
  drawn := (h.drawn hingestible.drawn).settled sha _ _
    (hbatch.trans_le (Nat.le_add_right _ _))
  anchors other := by
    by_cases hother : other = ctx.conversationId
    · subst hother
      exact h.anchorsCurrent hingestible.drawn (hingestible.anchors _) batch
    · exact h.anchorsCurrent_other hother (hingestible.anchors other) _ batch

end Merged

/-- What one call does to a state of a history. -/
theorem Ingestible.call {sha : Sha256} {t : Tables} {n : Nat}
    (h : Ingestible sha t n) {call : IngestCall} (hroom : call.HasRoom sha t) :
    ∃ t' n', (call.run sha (.idle t n)).2 = .idle t' n' ∧
      Ingestible sha t' n' := by
  by_cases hlives : t.LivesIn call.ctx.conversationId call.expectedLifecycleEpoch
  · by_cases hempty : call.ctx.prepared = []
    · obtain ⟨batch, hbatch, hrun⟩ := ingestPreparedTurns_run_empty sha
        call.allowShortOverlap n hlives hempty
      refine ⟨_, _, congrArg Prod.snd hrun, ?_, fun other => ?_⟩
      · exact ((h.drawn.backfilled _).mono (Nat.le_succ n)).withBatch hbatch.le
      · exact ((h.anchors other).backfilled _).withBatch batch
    · obtain ⟨alignment, -, hplaced, -⟩ :=
        call.placed (call.honest (h.anchors _)) hroom
      obtain ⟨counts, batch, turns, hmerged, -, hbatch, hrun⟩ :=
        ingestPreparedTurns_run h.drawn hlives hempty hplaced
      refine ⟨_, _, congrArg Prod.snd hrun, hmerged.ingestible ?_ hbatch⟩
      exact ⟨h.drawn.backfilled _, fun other => (h.anchors other).backfilled _⟩
  · obtain ⟨raised, hrun⟩ := ingestPreparedTurns_refused sha
      call.allowShortOverlap n hlives
    exact ⟨t, n, congrArg Prod.snd hrun, h⟩

/-- Every state of a history of calls that have room. -/
theorem ingestible_of_reach {sha : Sha256} {c : Conn Tables}
    (reach : Reach StartsEmpty (RoomyIngest sha) c) :
    ∃ t n, c = .idle t n ∧ Ingestible sha t n := by
  apply reach.invariant (I := fun c => ∃ t n, c = .idle t n ∧ Ingestible sha t n)
  · rintro c ⟨conversations, rfl⟩
    exact ⟨_, _, rfl, (Store.fresh conversations).drawn,
      fun _ => anchorsCurrent_of_empty rfl⟩
  · rintro c c' ⟨t, n, rfl, h⟩ ⟨call, hroom, rfl⟩
    exact h.call hroom

/-! ## The transcript -/

/-- The rows of a conversation in order, apart from their group numbers. -/
def Tables.content (t : Tables) (conversationId : ConversationId) :
    List CanonicalTurnRecord :=
  (t.canonicalTurns.ordered conversationId).map fun row => row.setGroup 0

/-- The turn hashes of a conversation in order. -/
def Tables.hashes (t : Tables) (conversationId : ConversationId) :
    List HexDigest :=
  (t.canonicalTurns.ordered conversationId).map fun row => row.turnHash

theorem Tables.hashes_eq (t : Tables) (conversationId : ConversationId) :
    t.hashes conversationId = (t.content conversationId).map (·.turnHash) := by
  simp [hashes, content, Function.comp_def, CanonicalTurnRecord.setGroup]

theorem Tables.hashes_loadRows (t : Tables) (conversationId : ConversationId) :
    (t.loadRows conversationId).map (·.turnHash) = t.hashes conversationId :=
  t.map_loadRows conversationId _ _ fun _ _ => rfl

theorem Tables.content_regrouped (t : Tables)
    (conversationId other : ConversationId) :
    (t.regrouped conversationId).content other = t.content other := by
  unfold content
  by_cases h : other = conversationId
  · subst h
    rw [ordered_regrouped]
    apply List.ext_getElem
    · simp
    · intro i hi hi'
      simp [CanonicalTurnRecord.setGroup]
  · rw [show (t.regrouped conversationId).canonicalTurns.ordered other = _ from
      CanonicalTurns.ordered_assign_other h _ _]

theorem Tables.content_backfilled (t : Tables)
    (conversationId other : ConversationId) :
    (t.backfilled conversationId).content other = t.content other := by
  unfold backfilled
  split_ifs
  · exact t.content_regrouped conversationId other
  · rfl

theorem Tables.content_settled (t : Tables) (sha : Sha256)
    (conversationId : ConversationId) (rejected : Bool)
    (batch : IngestBatchRecord) (other : ConversationId) :
    (t.settled sha conversationId rejected batch).content other =
      t.content other := by
  unfold settled
  split_ifs
  · rfl
  · exact (t.withBatch batch).content_regrouped conversationId other

theorem Merged.content {sha : Sha256} {ctx : IngestContext} {t : Tables}
    {n : Nat} {alignment : Option Alignment} {turns : CanonicalTurns}
    (h : Merged sha ctx t n alignment turns) :
    ({ t with canonicalTurns := turns } : Tables).content ctx.conversationId =
      mergeOrder alignment
        ((ctx.newRecords sha n (t.loadRows ctx.conversationId) alignment).map
          fun row => row.setGroup 0)
        (t.content ctx.conversationId) := by
  unfold Tables.content
  rw [h.ordered, map_mergeOrder]

theorem newRecords_hashes (sha : Sha256) (ctx : IngestContext) (n : Nat)
    (existing : List CanonicalTurnRow) (alignment : Option Alignment) :
    (ctx.newRecords sha n existing alignment).map (fun row => row.turnHash) =
      (unmatchedRows existing ctx.prepared alignment).map (·.turnHash) := by
  rw [IngestContext.newRecords, freshRecords_hashes, ← plannedRows_rows,
    List.map_map]
  · rfl
  · intro pair hpair
    exact ctx.hashed _ (plannedRows_subset pair hpair)

/-- The hashes after a call: the new ones at the places of the alignment. -/
theorem Merged.hashes {sha : Sha256} {ctx : IngestContext} {t : Tables}
    {n : Nat} {alignment : Option Alignment} {turns : CanonicalTurns}
    (h : Merged sha ctx t n alignment turns) :
    ({ t with canonicalTurns := turns } : Tables).hashes ctx.conversationId =
      mergeOrder alignment
        ((unmatchedRows (t.loadRows ctx.conversationId) ctx.prepared
          alignment).map (·.turnHash))
        (t.hashes ctx.conversationId) := by
  unfold Tables.hashes
  rw [h.ordered, map_mergeOrder, newRecords_hashes]

/-- Around a truthful alignment the merged order is the splice. -/
theorem mergeOrder_eq_splice {existing prepared : List CanonicalTurnRow}
    {a : Alignment}
    (h : a.Truthful (existing.map (·.turnHash)) (prepared.map (·.turnHash)))
    (hpos : 0 < a.overlapLen) :
    mergeOrder (some a)
        ((unmatchedRows existing prepared (some a)).map (·.turnHash))
        (existing.map (·.turnHash)) = (Alignment.overlap h hpos).splice := by
  have hle := h.incoming_le
  rw [List.length_map] at hle
  have hlength : (prepared.take a.incomingStart).length = a.incomingStart := by
    rw [List.length_take]
    omega
  unfold mergeOrder unmatchedRows
  dsimp only
  rw [← List.map_take, List.take_left' hlength, ← List.map_drop,
    List.drop_left' hlength, List.map_take, List.map_drop]
  rfl

/-- A payload that is not rejected becomes a block of the transcript. -/
theorem payload_infix {existing prepared : List CanonicalTurnRow}
    {alignment : Option Alignment}
    (htruthful : ∀ a, alignment = some a →
      a.Truthful (existing.map (·.turnHash)) (prepared.map (·.turnHash)) ∧
      0 < a.overlapLen)
    (hrejected : rejectsFragment existing prepared alignment = false) :
    prepared.map (·.turnHash) <:+: mergeOrder alignment
      ((unmatchedRows existing prepared alignment).map (·.turnHash))
      (existing.map (·.turnHash)) := by
  cases alignment with
  | none =>
      have hall : unmatchedRows existing prepared none = prepared := by
        unfold rejectsFragment at hrejected
        unfold unmatchedRows
        rw [if_pos]
        simpa [or_iff_not_imp_left] using hrejected
      rw [hall]
      exact (List.suffix_append _ _).isInfix
  | some a =>
      obtain ⟨h, hpos⟩ := htruthful a rfl
      rw [mergeOrder_eq_splice h hpos]
      exact (Alignment.overlap h hpos).incoming_infix_splice

theorem rejectsFragment_of_mode {existing prepared : List CanonicalTurnRow}
    {alignment : Option Alignment}
    (h : plannedMode existing prepared alignment ≠ .fragmentRejected) :
    rejectsFragment existing prepared alignment = false := by
  cases alignment with
  | none =>
      unfold plannedMode at h
      unfold rejectsFragment
      cases hempty : existing.isEmpty <;> cases hpair : hasCompletePair prepared
      all_goals simp_all
  | some a => rfl

/--
In a history of calls whose insertions have room the next such call returns.
Unless it is rejected as a fragment, the former rows keep their order, the
payload is a block of the transcript, and no two rows share a key.
-/
theorem transcript_grows {sha : Sha256} {c : Conn Tables}
    (reach : Reach StartsEmpty (RoomyIngest sha) c) (call : IngestCall)
    (hroom : call.HasRoom sha c.durable)
    (hlives : c.durable.LivesIn call.ctx.conversationId
      call.expectedLifecycleEpoch)
    (hne : call.ctx.prepared ≠ []) :
    ∃ result c', call.run sha c = (.ok result, c') ∧
      (result.mergeMode ≠ .fragmentRejected →
        (c.durable.content call.ctx.conversationId).Sublist
            (c'.durable.content call.ctx.conversationId) ∧
          call.ctx.prepared.map (·.turnHash) <:+:
            c'.durable.hashes call.ctx.conversationId ∧
          ((c'.durable.canonicalTurns.ordered call.ctx.conversationId).map
            fun row => row.sortKey).Nodup) := by
  obtain ⟨t, n, rfl, h⟩ := ingestible_of_reach reach
  obtain ⟨alignment, -, hplaced, htruthful⟩ :=
    call.placed (call.honest (h.anchors _)) hroom
  obtain ⟨counts, batch, turns, hmerged, -, -, hrun⟩ :=
    ingestPreparedTurns_run h.drawn hlives hne hplaced
  refine ⟨_, _, hrun, fun hmode => ⟨?_, ?_, ?_⟩⟩
  · rw [Conn.durable_idle, Conn.durable_idle, Tables.content_settled,
      hmerged.content, Tables.content_backfilled]
    exact sublist_mergeOrder _ _ _
  · rw [Conn.durable_idle, Tables.hashes_eq, Tables.content_settled,
      ← Tables.hashes_eq, hmerged.hashes, ← Tables.hashes_loadRows]
    apply payload_infix
    · intro a ha
      exact ⟨(htruthful a ha).1, (htruthful a ha).2.pos⟩
    · exact rejectsFragment_of_mode hmode
  · exact (CanonicalTurns.ordered_increasing _ _).map_nodup

/-- A call with the given messages, on an evaluable digest. -/
def chatCall (messages : List IngestibleMessage) : IngestCall where
  ctx := .ofMessages .spelled "t" "chat" messages
  expectedLifecycleEpoch := 1

def userCall (texts : List String) : IngestCall :=
  chatCall (texts.map fun text => { role := .user, content := text })

/-- A database with one conversation that holds no turn yet. -/
def chatStore : Store :=
  .fresh [{ conversationId := "chat", tenantId := "t" }]

def emptyChat : Conn Tables := chatStore.conn

theorem transcript_grows_first :
    ∃ result c', (userCall ["a", "b", "c"]).run .spelled emptyChat =
        (.ok result, c') ∧
      (result.mergeMode ≠ .fragmentRejected →
        (emptyChat.durable.content "chat").Sublist
            (c'.durable.content "chat") ∧
          (userCall ["a", "b", "c"]).ctx.prepared.map (·.turnHash) <:+:
            c'.durable.hashes "chat" ∧
          ((c'.durable.canonicalTurns.ordered "chat").map
            fun row => row.sortKey).Nodup) := by
  apply transcript_grows (.start ⟨_, rfl⟩) (userCall ["a", "b", "c"])
  · intro a halign
    have hnone : (userCall ["a", "b", "c"]).alignment .spelled
        emptyChat.durable = .ok none := rfl
    cases hnone.symm.trans halign
  · exact ⟨_, rfl, rfl⟩
  · decide

/-- Twenty messages, each sent right after the first one stored. -/
def crowd : List IngestCall :=
  userCall ["a", "b", "c"] ::
    ["1", "2", "3", "4", "5", "6", "7", "8", "9", "10", "11", "12", "13", "14",
      "15", "16", "17", "18", "19", "20"].map fun text => userCall ["a", text]

/--
The twentieth message is one thousandth after the first row, and the next key
after it passes the nineteenth: the payload is not a block.
-/
theorem crowd_splits_payload :
    ((userCall ["20", "new"]).run .spelled
        (runCalls .spelled crowd emptyChat)).1.toOption.map (·.mergeMode) =
      some .interiorOverlap ∧
    ¬ (userCall ["20", "new"]).ctx.prepared.map (·.turnHash) <:+:
      ((userCall ["20", "new"]).run .spelled
        (runCalls .spelled crowd emptyChat)).2.durable.hashes "chat" := by
  decide +kernel

end VirtualContext
