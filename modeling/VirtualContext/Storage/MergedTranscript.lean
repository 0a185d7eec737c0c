import Mathlib.Tactic.Linarith
import VirtualContext.Core.IngestHistory
import VirtualContext.Storage.GroupingAppend
import VirtualContext.Storage.MergeRuns

/-!
# The transcript after a merge

The rows of the source move behind those of the target if their keys allow it,
and the turns stay those of the two conversations if their numbers or, without
numbers, their contents keep them apart.
-/

namespace VirtualContext

open VirtualContext.Library

/-! ## The property and its condition -/

/-- The row without the columns that place it in a conversation. -/
def CanonicalTurnRow.unplaced (row : CanonicalTurnRow) : CanonicalTurnRow :=
  { row with
    conversationId := ""
    turnNumber := 0
    sortKey := 0
    compactedAt := none }

/-- The merged rows hold the turns of the target and then those of the source. -/
structure KeepsTranscripts (target source merged : List CanonicalTurnRow) :
    Prop where
  turns : (turnMembers merged).map (List.map (·.unplaced)) =
    (turnMembers target ++ turnMembers source).map (List.map (·.unplaced))
  order : ∀ row ∈ merged, ∀ row' ∈ merged,
    row.canonicalTurnId ∈ target.map (·.canonicalTurnId) →
    row'.canonicalTurnId ∈ source.map (·.canonicalTurnId) →
    row.sortKey < row'.sortKey
  keys : (merged.map (·.sortKey)).Nodup
  unmixed : ∀ turn ∈ turnMembers merged,
    (∀ row ∈ turn, row.canonicalTurnId ∈ target.map (·.canonicalTurnId)) ∨
      ∀ row ∈ turn, row.canonicalTurnId ∈ source.map (·.canonicalTurnId)

/-- The offset takes every key of the source past every key of the target. -/
def KeysApart (args : MergeArgs) (target source : List CanonicalTurnRow) : Prop :=
  ∀ row ∈ target, ∀ row' ∈ source,
    -1000 < row'.sortKey ∨ row.sortKey < row'.sortKey + args.sortKeyOffset

section

variable {args : MergeArgs} {t : Tables} {turns : CanonicalTurns}

/-! ## The offset -/

theorem Tables.le_maxSortKey {conversationId : ConversationId}
    {row : CanonicalTurnRecord}
    (hrow : row ∈ t.canonicalTurns.ordered conversationId) :
    row.sortKey ≤ t.maxSortKey conversationId := by
  have hincreasing := t.canonicalTurns.ordered_increasing conversationId
  unfold Tables.maxSortKey
  rcases hlast : (t.canonicalTurns.ordered conversationId).getLast? with _ | last
  · rw [List.getLast?_eq_none_iff.mp hlast] at hrow
    cases hrow
  · obtain ⟨front, hsplit⟩ := List.getLast?_eq_some_iff.mp hlast
    rw [hsplit] at hrow hincreasing
    rcases List.mem_append.mp hrow with hfront | hrow
    · exact ((increasing_append.mp hincreasing).2.2 row hfront last
        (by simp)).le
    · rw [List.mem_singleton.mp hrow]

theorem Tables.exists_maxSortKey {conversationId : ConversationId}
    (h : t.canonicalTurns.ordered conversationId ≠ []) :
    ∃ row ∈ t.canonicalTurns.ordered conversationId,
      row.sortKey = t.maxSortKey conversationId := by
  refine ⟨_, List.getLast_mem h, ?_⟩
  rw [Tables.maxSortKey, List.getLast?_eq_some_getLast h]

/-- Below -1000 only the offset of the caller can help. -/
theorem keysApart_iff :
    KeysApart args (t.loadRows args.targetConversationId)
        (t.loadRows args.sourceConversationId) ↔
      ∀ row ∈ t.canonicalTurns.ordered args.targetConversationId,
        ∀ row' ∈ t.canonicalTurns.ordered args.sourceConversationId,
          row.sortKey < row'.sortKey + t.mergeOffset args := by
  have hload : KeysApart args (t.loadRows args.targetConversationId)
      (t.loadRows args.sourceConversationId) ↔
      ∀ row ∈ t.canonicalTurns.ordered args.targetConversationId,
        ∀ row' ∈ t.canonicalTurns.ordered args.sourceConversationId,
          -1000 < row'.sortKey ∨
            row.sortKey < row'.sortKey + args.sortKeyOffset := by
    have hkeys (conversationId : ConversationId) :=
      t.map_loadRows conversationId (·.sortKey) (·.sortKey) fun _ _ => rfl
    have hmem : KeysApart args (t.loadRows args.targetConversationId)
        (t.loadRows args.sourceConversationId) ↔
        ∀ key ∈ (t.loadRows args.targetConversationId).map (·.sortKey),
          ∀ key' ∈ (t.loadRows args.sourceConversationId).map (·.sortKey),
            -1000 < key' ∨ key < key' + args.sortKeyOffset := by
      simp [KeysApart]
    rw [hmem, hkeys, hkeys]
    simp
  rw [hload]
  constructor
  · intro h row hrow row' hrow'
    have hmax := Tables.le_maxSortKey hrow
    rcases h row hrow row' hrow' with hlow | hargs
    · have := le_max_right args.sortKeyOffset
        (t.maxSortKey args.targetConversationId + 1000)
      unfold Tables.mergeOffset
      linarith
    · exact hargs.trans_le (add_le_add_right (le_max_left _ _) _)
  · intro h row hrow row' hrow'
    by_contra hnot
    push Not at hnot
    obtain ⟨last, hlast, hmax⟩ :=
      Tables.exists_maxSortKey (List.ne_nil_of_mem hrow)
    have hle := Tables.le_maxSortKey hrow
    have hbehind := h last hlast row' hrow'
    rw [Tables.mergeOffset, ← hmax] at hbehind
    rw [← hmax] at hle
    rcases max_choice args.sortKeyOffset (last.sortKey + 1000) with heq | heq
    · rw [heq] at hbehind
      linarith [hnot.2]
    · rw [heq] at hbehind
      linarith [hnot.1]

/-! ## The rows after the merge -/

theorem moveTurn_source {row : CanonicalTurnRecord}
    (h : row.conversationId = args.sourceConversationId) (offset : ℚ) :
    (moveTurn args offset row).conversationId = args.targetConversationId ∧
      (moveTurn args offset row).sortKey = row.sortKey + offset := by
  simp [moveTurn, h]

theorem moveTurn_other {row : CanonicalTurnRecord}
    (h : row.conversationId ≠ args.sourceConversationId) (offset : ℚ) :
    moveTurn args offset row = row :=
  if_neg h

/-- Before they are put in order: the rows of the target, then those moved. -/
theorem moved_perm (offset : ℚ)
    (hmoved : turns.rows = t.canonicalTurns.rows.map (moveTurn args offset)) :
    (turns.rows.filter fun row =>
        row.conversationId = args.targetConversationId).Perm
      (t.canonicalTurns.ordered args.targetConversationId ++
        (t.canonicalTurns.ordered args.sourceConversationId).map
          (moveTurn args offset)) := by
  rw [hmoved, List.filter_map]
  have hfilter : (t.canonicalTurns.rows.filter
      ((fun row => decide (row.conversationId = args.targetConversationId)) ∘
        moveTurn args offset)).Perm
      (t.canonicalTurns.ordered args.targetConversationId ++
        t.canonicalTurns.ordered args.sourceConversationId) := by
    refine (List.filter_append_perm (fun row : CanonicalTurnRecord =>
      decide (row.conversationId = args.targetConversationId)) _).symm.trans ?_
    apply List.Perm.append
    · refine (List.Perm.of_eq ?_).trans (orderBy_perm _ _).symm
      rw [List.filter_filter]
      apply List.filter_congr
      intro row _
      by_cases htarget : row.conversationId = args.targetConversationId
      · have := moveTurn_other (htarget.trans_ne args.distinct.symm) offset
        simp [htarget, this]
      · simp [htarget]
    · refine (List.Perm.of_eq ?_).trans (orderBy_perm _ _).symm
      rw [List.filter_filter]
      apply List.filter_congr
      intro row _
      by_cases hsource : row.conversationId = args.sourceConversationId
      · simp [hsource, args.distinct, (moveTurn_source hsource offset).1]
      · have := moveTurn_other hsource offset
        simp [hsource, this]
  refine (hfilter.map _).trans (List.Perm.of_eq ?_)
  rw [List.map_append]
  congr 1
  conv_rhs => rw [← List.map_id (t.canonicalTurns.ordered _)]
  apply List.map_congr_left
  intro row hrow
  exact moveTurn_other ((CanonicalTurns.mem_ordered.mp hrow).2.trans_ne
    args.distinct.symm) offset

/-- The moved rows come last if their keys do. -/
theorem ordered_merged_iff
    (hmoved : turns.rows =
      t.canonicalTurns.rows.map (moveTurn args (t.mergeOffset args))) :
    turns.ordered args.targetConversationId =
        t.canonicalTurns.ordered args.targetConversationId ++
          (t.canonicalTurns.ordered args.sourceConversationId).map
            (moveTurn args (t.mergeOffset args)) ↔
      KeysApart args (t.loadRows args.targetConversationId)
        (t.loadRows args.sourceConversationId) := by
  have hkey : ∀ row ∈ t.canonicalTurns.ordered args.sourceConversationId,
      (moveTurn args (t.mergeOffset args) row).sortKey =
        row.sortKey + t.mergeOffset args := fun row hrow =>
    (moveTurn_source (CanonicalTurns.mem_ordered.mp hrow).2 _).2
  rw [keysApart_iff]
  constructor
  · intro h row hrow row' hrow'
    have hincreasing := turns.ordered_increasing args.targetConversationId
    rw [h] at hincreasing
    rw [← hkey row' hrow']
    exact (increasing_append.mp hincreasing).2.2 row hrow _
      (List.mem_map_of_mem hrow')
  · intro h
    apply orderBy_eq_of_perm (moved_perm _ hmoved)
    refine increasing_append.mpr
      ⟨t.canonicalTurns.ordered_increasing _, ?_, ?_⟩
    · refine List.pairwise_map.mpr
        ((t.canonicalTurns.ordered_increasing _).imp_of_mem ?_)
      intro row row' hrow hrow' hlt
      simpa [hkey row hrow, hkey row' hrow'] using hlt
    · intro row hrow moved hmem
      obtain ⟨row', hrow', rfl⟩ := List.mem_map.mp hmem
      rw [hkey row' hrow']
      exact h row hrow row' hrow'

/-! ## The turns of the merged rows -/

theorem turnMembers_unplaced (rows : List CanonicalTurnRow) :
    turnMembers (rows.map (·.unplaced)) =
      (turnMembers rows).map (List.map (·.unplaced)) := by
  unfold turnMembers
  rw [groupedRows_map CanonicalTurnRow.unplaced (fun _ => rfl) (fun _ => rfl)
    fun _ => rfl]
  simp

/-- In order, the merged rows are those of the two conversations. -/
theorem loadRows_merged
    (hmoved : turns.rows =
      t.canonicalTurns.rows.map (moveTurn args (t.mergeOffset args)))
    (hkeys : KeysApart args (t.loadRows args.targetConversationId)
      (t.loadRows args.sourceConversationId)) :
    ((t.mergedInto args turns).loadRows args.targetConversationId).map
        (·.unplaced) =
      (t.loadRows args.targetConversationId ++
        t.loadRows args.sourceConversationId).map (·.unplaced) := by
  have hload (t : Tables) (conversationId : ConversationId) :=
    t.map_loadRows conversationId (·.unplaced)
      (fun record => (rowToCanonicalTurn 0 record).unplaced) fun _ _ => rfl
  rw [List.map_append, hload, hload, hload]
  change (turns.ordered args.targetConversationId).map _ = _
  rw [(ordered_merged_iff hmoved).mpr hkeys, List.map_append, List.map_map]
  congr 1
  apply List.map_congr_left
  intro record hrecord
  simp [moveTurn, (CanonicalTurns.mem_ordered.mp hrecord).2,
    CanonicalTurnRow.unplaced, rowToCanonicalTurn]

theorem eq_of_map_eq {α β : Type} {f : α → β} {p : α → Prop}
    (hf : ∀ a b, p a → p b → f a = f b → a = b) {left right : List α}
    (hleft : ∀ a ∈ left, p a) (hright : ∀ a ∈ right, p a)
    (h : left.map f = right.map f) : left = right := by
  induction left generalizing right with
  | nil => simpa [eq_comm] using h
  | cons a left ih =>
      cases right with
      | nil => simp at h
      | cons b right =>
          simp only [List.map_cons, List.cons.injEq] at h
          rw [hf a b (hleft a (by simp)) (hright b (by simp)) h.1]
          rw [ih (fun a ha => hleft a (List.mem_cons_of_mem _ ha))
            (fun b hb => hright b (List.mem_cons_of_mem _ hb)) h.2]

/-- Rows with different identifiers are not confused. -/
theorem eq_of_map_unplaced {rows : List CanonicalTurnRow}
    (hids : (rows.map (·.canonicalTurnId)).Nodup)
    {turns turns' : List (List CanonicalTurnRow)}
    (hturns : ∀ turn ∈ turns, ∀ row ∈ turn, row ∈ rows)
    (hturns' : ∀ turn ∈ turns', ∀ row ∈ turn, row ∈ rows)
    (h : turns.map (List.map (·.unplaced)) =
      turns'.map (List.map (·.unplaced))) : turns = turns' := by
  have hrow : ∀ row row', row ∈ rows → row' ∈ rows →
      row.unplaced = row'.unplaced → row = row' := by
    intro row row' hrow hrow' heq
    exact List.inj_on_of_nodup_map hids hrow hrow'
      (congrArg (·.canonicalTurnId) heq)
  exact eq_of_map_eq (p := fun turn => ∀ row ∈ turn, row ∈ rows)
    (fun _ _ hturn hturn' => eq_of_map_eq hrow hturn hturn') hturns hturns' h

/-- Two conversations share no row. -/
theorem loadRows_append_ids_nodup (args : MergeArgs) (t : Tables) :
    ((t.loadRows args.targetConversationId ++
      t.loadRows args.sourceConversationId).map (·.canonicalTurnId)).Nodup := by
  have hload (conversationId : ConversationId) :=
    t.map_loadRows conversationId (·.canonicalTurnId) (·.canonicalTurnId)
      fun _ _ => rfl
  rw [List.map_append, hload, hload, List.nodup_append]
  refine ⟨t.canonicalTurns.ordered_ids_nodup _,
    t.canonicalTurns.ordered_ids_nodup _, ?_⟩
  intro id hid id' hid' heq
  obtain ⟨row, hrow, rfl⟩ := List.mem_map.mp hid
  obtain ⟨row', hrow', rfl⟩ := List.mem_map.mp hid'
  obtain ⟨hmem, hconv⟩ := CanonicalTurns.mem_ordered.mp hrow
  obtain ⟨hmem', hconv'⟩ := CanonicalTurns.mem_ordered.mp hrow'
  have hrows := List.inj_on_of_nodup_map t.canonicalTurns.primaryKey hmem hmem'
    heq
  rw [hrows, hconv'] at hconv
  exact args.distinct hconv

theorem turnMembers_loaded_iff (args : MergeArgs) (t : Tables) :
    turnMembers (t.loadRows args.targetConversationId ++
        t.loadRows args.sourceConversationId) =
      turnMembers (t.loadRows args.targetConversationId) ++
        turnMembers (t.loadRows args.sourceConversationId) ↔
      NumbersApart (t.loadRows args.targetConversationId)
          (t.loadRows args.sourceConversationId) ∨
        ContentsApart (t.loadRows args.targetConversationId)
          (t.loadRows args.sourceConversationId) := by
  have hids := loadRows_append_ids_nodup args t
  generalize t.loadRows args.targetConversationId = target at hids ⊢
  generalize t.loadRows args.sourceConversationId = source at hids ⊢
  by_cases htarget : target = []
  · subst htarget
    exact iff_of_true rfl (.inl fun row hrow => by cases hrow)
  · by_cases hsource : source = []
    · subst hsource
      refine iff_of_true ?_ (.inl fun row hrow row' hrow' => by cases hrow')
      rw [List.append_nil]
      exact (List.append_nil _).symm
    · exact turnMembers_append_iff (List.disjoint_of_nodup_append hids.of_map)
        htarget hsource

theorem Tables.exists_mem_loadRows (t : Tables) {conversationId : ConversationId}
    {record : CanonicalTurnRecord}
    (h : record ∈ t.canonicalTurns.ordered conversationId) :
    ∃ row ∈ t.loadRows conversationId,
      (row.canonicalTurnId, row.sortKey) =
        (record.canonicalTurnId, record.sortKey) := by
  rw [← List.mem_map, t.map_loadRows conversationId _
    (fun record => (record.canonicalTurnId, record.sortKey)) fun _ _ => rfl]
  exact List.mem_map_of_mem h

/-- The order of the merged rows tells the order of the shifted keys. -/
theorem keysApart_of_order
    (hmoved : turns.rows =
      t.canonicalTurns.rows.map (moveTurn args (t.mergeOffset args)))
    (h : KeepsTranscripts (t.loadRows args.targetConversationId)
      (t.loadRows args.sourceConversationId)
      ((t.mergedInto args turns).loadRows args.targetConversationId)) :
    KeysApart args (t.loadRows args.targetConversationId)
      (t.loadRows args.sourceConversationId) := by
  rw [keysApart_iff]
  intro record hrecord record' hrecord'
  have hordered (record : CanonicalTurnRecord)
      (hmem : record ∈ t.canonicalTurns.ordered args.targetConversationId ++
        (t.canonicalTurns.ordered args.sourceConversationId).map
          (moveTurn args (t.mergeOffset args))) :
      record ∈ (t.mergedInto args turns).canonicalTurns.ordered
        args.targetConversationId :=
    (mem_orderBy _).mpr ((moved_perm _ hmoved).mem_iff.mpr hmem)
  obtain ⟨row, hrow, heq⟩ := (t.mergedInto args turns).exists_mem_loadRows
    (hordered record (List.mem_append_left _ hrecord))
  obtain ⟨row', hrow', heq'⟩ := (t.mergedInto args turns).exists_mem_loadRows
    (hordered _ (List.mem_append_right _ (List.mem_map_of_mem hrecord')))
  obtain ⟨old, hold, holdeq⟩ := t.exists_mem_loadRows hrecord
  obtain ⟨old', hold', holdeq'⟩ := t.exists_mem_loadRows hrecord'
  simp only [Prod.mk.injEq] at heq heq' holdeq holdeq'
  have hsource := (CanonicalTurns.mem_ordered.mp hrecord').2
  have hlt := h.order row hrow row' hrow'
    (by
      rw [heq.1, ← holdeq.1]
      exact List.mem_map_of_mem hold)
    (by
      rw [heq'.1, show (moveTurn args _ record').canonicalTurnId =
        record'.canonicalTurnId by simp [moveTurn, hsource], ← holdeq'.1]
      exact List.mem_map_of_mem hold')
  rwa [heq.2, heq'.2, (moveTurn_source hsource _).2] at hlt

section Lists

variable {target source merged : List CanonicalTurnRow}

theorem ids_of_unplaced {rows rows' : List CanonicalTurnRow}
    (h : rows.map (·.unplaced) = rows'.map (·.unplaced)) :
    rows.map (·.canonicalTurnId) = rows'.map (·.canonicalTurnId) := by
  simpa [CanonicalTurnRow.unplaced, Function.comp_def] using
    congrArg (List.map (·.canonicalTurnId)) h

theorem order_of_split
    (hmerged : merged.map (·.unplaced) =
      target.map (·.unplaced) ++ source.map (·.unplaced))
    (hids : ((target ++ source).map (·.canonicalTurnId)).Nodup)
    (hincreasing : Increasing (fun row => row.sortKey) merged) :
    ∀ row ∈ merged, ∀ row' ∈ merged,
      row.canonicalTurnId ∈ target.map (·.canonicalTurnId) →
      row'.canonicalTurnId ∈ source.map (·.canonicalTurnId) →
      row.sortKey < row'.sortKey := by
  obtain ⟨left, right, rfl, hleft, hright⟩ := List.map_eq_append_iff.mp hmerged
  rw [List.map_append, ← ids_of_unplaced hleft, ← ids_of_unplaced hright,
    List.nodup_append] at hids
  rw [← ids_of_unplaced hleft, ← ids_of_unplaced hright]
  intro row hrow row' hrow' hid hid'
  have hmem : row ∈ left := by
    rcases List.mem_append.mp hrow with hmem | hmem
    · exact hmem
    · exact absurd rfl (hids.2.2 _ hid _ (List.mem_map_of_mem hmem))
  have hmem' : row' ∈ right := by
    rcases List.mem_append.mp hrow' with hmem' | hmem'
    · exact absurd rfl (hids.2.2 _ (List.mem_map_of_mem hmem') _ hid')
    · exact hmem'
  exact (increasing_append.mp hincreasing).2.2 row hmem row' hmem'

theorem unmixed_of_turns
    (h : (turnMembers merged).map (List.map (·.unplaced)) =
      (turnMembers target ++ turnMembers source).map
        (List.map (·.unplaced))) :
    ∀ turn ∈ turnMembers merged,
      (∀ row ∈ turn, row.canonicalTurnId ∈ target.map (·.canonicalTurnId)) ∨
        ∀ row ∈ turn,
          row.canonicalTurnId ∈ source.map (·.canonicalTurnId) := by
  intro turn hturn
  have hmem := List.mem_map_of_mem (f := List.map (·.unplaced)) hturn
  rw [h] at hmem
  obtain ⟨turn', hturn', heq⟩ := List.mem_map.mp hmem
  have hids := ids_of_unplaced heq
  have hrows : ∀ rows, turn' ∈ turnMembers rows →
      ∀ row ∈ turn, row.canonicalTurnId ∈ rows.map (·.canonicalTurnId) := by
    intro rows hold row hrow
    have hid := List.mem_map_of_mem (f := (·.canonicalTurnId)) hrow
    rw [← hids] at hid
    obtain ⟨row', hrow', hid'⟩ := List.mem_map.mp hid
    rw [← hid']
    exact List.mem_map_of_mem (mem_of_mem_turnMembers hold hrow')
  rcases List.mem_append.mp hturn' with hold | hold
  · exact .inl (hrows _ hold)
  · exact .inr (hrows _ hold)

end Lists

/--
A merge that commits keeps the turns of both conversations, those of the target
first, exactly if the keys and the numbers or contents keep them apart.
-/
theorem merge_keeps_transcripts_iff {n : Nat} {stats : MergeStats}
    {c : Conn Tables}
    (hrun : (mergeConversationData args).run .quiet (.idle t n) =
      (.ok stats, c)) :
    let target := t.loadRows args.targetConversationId
    let source := t.loadRows args.sourceConversationId
    KeepsTranscripts target source
        (c.durable.loadRows args.targetConversationId) ↔
      KeysApart args target source ∧
        (NumbersApart target source ∨ ContentsApart target source) := by
  intro target source
  obtain ⟨turns, rfl, hmoved⟩ := merged_of_run hrun
  rw [Conn.durable_idle, ← turnMembers_loaded_iff]
  constructor
  · intro h
    have hkeys := keysApart_of_order hmoved h
    refine ⟨hkeys, eq_of_map_unplaced (loadRows_append_ids_nodup args t)
      (fun _ hturn _ hrow => mem_of_mem_turnMembers hturn hrow) ?_ ?_⟩
    · intro turn hturn row hrow
      rcases List.mem_append.mp hturn with hmem | hmem
      · exact List.mem_append_left _ (mem_of_mem_turnMembers hmem hrow)
      · exact List.mem_append_right _ (mem_of_mem_turnMembers hmem hrow)
    · rw [← turnMembers_unplaced, ← loadRows_merged hmoved hkeys,
        turnMembers_unplaced]
      exact h.turns
  · rintro ⟨hkeys, hturns⟩
    have hmerged := loadRows_merged hmoved hkeys
    have hmembers : (turnMembers ((t.mergedInto args turns).loadRows
        args.targetConversationId)).map (List.map (·.unplaced)) =
        (turnMembers target ++ turnMembers source).map
          (List.map (·.unplaced)) := by
      rw [← turnMembers_unplaced, hmerged, turnMembers_unplaced, hturns]
    have hincreasing := (t.mergedInto args turns).loadRows_increasing
      args.targetConversationId
    refine ⟨hmembers, ?_, hincreasing.map_nodup, ?_⟩
    · rw [List.map_append] at hmerged
      exact order_of_split hmerged (loadRows_append_ids_nodup args t) hincreasing
    · exact unmixed_of_turns hmembers

end

/-- A new message for another conversation than `chat`. -/
def noteCall (text : String) : IngestCall where
  ctx := .ofMessages .spelled "t" "note" [{ role := .user, content := text }]
  expectedLifecycleEpoch := 1

/-- Two conversations, ingested one after the other, and a reserved merge. -/
def chatAndNote (calls : List IngestCall) : Tables :=
  { (runCalls .spelled calls (Store.fresh
      [{ conversationId := "chat", tenantId := "t" },
        { conversationId := "note", tenantId := "t" }]).conn).durable with
    mergeAudit := [⟨"m", "t", .inProgress⟩] }

def noteIntoChat : MergeArgs where
  mergeId := "m"
  tenantId := "t"
  sourceConversationId := "note"
  targetConversationId := "chat"
  expectedTargetLifecycleEpoch := 1
  distinct := by decide

/-- The conversation that was merged into had no rows of its own. -/
theorem merge_keeps_transcripts_iff_emptyChat :
    let t := chatAndNote [noteCall "a"]
    let target := t.loadRows "chat"
    let source := t.loadRows "note"
    KeepsTranscripts target source
        (((mergeConversationData noteIntoChat).run .quiet
          (.idle t 2)).2.durable.loadRows "chat") ↔
      KeysApart noteIntoChat target source ∧
        (NumbersApart target source ∨ ContentsApart target source) := by
  have hrun : (mergeConversationData noteIntoChat).run .quiet
      (.idle (chatAndNote [noteCall "a"]) 2) =
      (.ok ⟨1000, 1⟩, ((mergeConversationData noteIntoChat).run .quiet
        (.idle (chatAndNote [noteCall "a"]) 2)).2) := by
    refine Prod.ext ?_ rfl
    decide +kernel
  exact merge_keeps_transcripts_iff hrun

/-- The numbers of both conversations start at 0: their first turns become one. -/
theorem merge_joins_first_turns :
    let t := chatAndNote [userCall ["a"], noteCall "b"]
    let merge := (mergeConversationData noteIntoChat).run .quiet (.idle t 4)
    merge.1.toOption = some ⟨2000, 1⟩ ∧
      ¬ KeepsTranscripts (t.loadRows "chat") (t.loadRows "note")
        (merge.2.durable.loadRows "chat") := by
  intro t merge
  refine ⟨by decide +kernel, fun h => ?_⟩
  exact absurd h.turns (by decide +kernel)

end VirtualContext
