import VirtualContext.Library.Yields
import VirtualContext.Storage.Store

/-!
# What the methods of the store compute

One lemma for each method, about a run that nothing interferes with: the tables
it leaves as a function of the tables it found.
-/

namespace VirtualContext

open VirtualContext.Library

/-! ## Numbering the rows of a conversation -/

def CanonicalTurnRecord.setGroup (row : CanonicalTurnRecord) (group : Int) :
    CanonicalTurnRecord :=
  { row with turnGroupNumber := group }

theorem setTurnGroup_own {conversationId : ConversationId} {group : Int}
    {canonicalTurnId : Uuid} {row : CanonicalTurnRecord}
    (hconv : row.conversationId = conversationId)
    (hid : row.canonicalTurnId = canonicalTurnId) :
    (setTurnGroup conversationId group canonicalTurnId).apply row =
      row.setGroup group := by
  unfold setTurnGroup
  dsimp only
  split_ifs with h
  · rfl
  · have hgroup : row.turnGroupNumber = group := by
      by_contra hne
      exact h ⟨hconv, hid, hne⟩
    subst hgroup
    rfl

theorem setTurnGroup_other {conversationId : ConversationId} {group : Int}
    {canonicalTurnId : Uuid} {row : CanonicalTurnRecord}
    (h : ¬ (row.conversationId = conversationId ∧
      row.canonicalTurnId = canonicalTurnId)) :
    (setTurnGroup conversationId group canonicalTurnId).apply row = row := by
  unfold setTurnGroup
  dsimp only
  rw [if_neg fun hmatch => h ⟨hmatch.1, hmatch.2.1⟩]

theorem length_assignGroups (current pending : Int)
    (rows : List CanonicalTurnRow) :
    (assignGroups current pending rows).length = rows.length := by
  induction rows generalizing current pending with
  | nil => rfl
  | cons row rows ih =>
      unfold assignGroups
      split_ifs <;> simp [ih]

@[simp] theorem length_turnGroups (rows : List CanonicalTurnRow) :
    (turnGroups rows).length = rows.length :=
  length_assignGroups _ _ _

theorem assignGroups_nonneg {current pending : Int} (hcurrent : -1 ≤ current)
    (rows : List CanonicalTurnRow) :
    ∀ group ∈ assignGroups current pending rows, 0 ≤ group := by
  induction rows generalizing current pending with
  | nil => simp [assignGroups]
  | cons row rows ih =>
      intro group hgroup
      unfold assignGroups at hgroup
      have hnext : (0 : Int) ≤ current + 1 := by omega
      split_ifs at hgroup <;> rcases List.mem_cons.mp hgroup with rfl | hrest
      all_goals first
        | assumption
        | exact ih (by omega) group hrest

theorem turnGroups_nonneg (rows : List CanonicalTurnRow) :
    ∀ group ∈ turnGroups rows, 0 ≤ group :=
  assignGroups_nonneg (by omega) rows

/-- The first row of a conversation is in turn 0. -/
theorem head_turnGroups (row : CanonicalTurnRow) (rows : List CanonicalTurnRow) :
    ∃ groups, turnGroups (row :: rows) = 0 :: groups := by
  unfold turnGroups assignGroups
  split_ifs
  all_goals first
    | exact ⟨_, rfl⟩
    | omega

theorem assignGroups_congr {rows rows' : List CanonicalTurnRow}
    (h : rows.map (fun row => (row.hasUser, row.hasAssistant)) =
      rows'.map fun row => (row.hasUser, row.hasAssistant))
    (current pending : Int) :
    assignGroups current pending rows = assignGroups current pending rows' := by
  induction rows generalizing rows' current pending with
  | nil => rw [List.map_eq_nil_iff.mp h.symm]
  | cons row rows ih =>
      cases rows' with
      | nil => simp at h
      | cons row' rows' =>
          simp only [List.map_cons, List.cons.injEq, Prod.mk.injEq] at h
          obtain ⟨⟨huser, hassistant⟩, hrest⟩ := h
          simp only [assignGroups, huser, hassistant, ih hrest]

/-- The numbering looks at nothing but which halves have content. -/
theorem turnGroups_congr {rows rows' : List CanonicalTurnRow}
    (h : rows.map (fun row => (row.hasUser, row.hasAssistant)) =
      rows'.map fun row => (row.hasUser, row.hasAssistant)) :
    turnGroups rows = turnGroups rows' :=
  assignGroups_congr h _ _

namespace CanonicalTurns

/-- The UPDATE statements of one recomputation. -/
def assign (conversationId : ConversationId) (assignments : List (Int × Uuid))
    (t : CanonicalTurns) : CanonicalTurns :=
  assignments.foldl (fun t assignment =>
    t.update (setTurnGroup conversationId assignment.1 assignment.2)) t

theorem ordered_assign_other {conversationId other : ConversationId}
    (hne : other ≠ conversationId) (assignments : List (Int × Uuid))
    (t : CanonicalTurns) :
    (t.assign conversationId assignments).ordered other = t.ordered other := by
  induction assignments generalizing t with
  | nil => rfl
  | cons assignment assignments ih =>
      change ((t.update _).assign conversationId assignments).ordered other = _
      rw [ih, ordered_update]
      refine (List.map_congr_left fun row hrow => ?_).trans (List.map_id _)
      have hother : row.conversationId = other := (mem_ordered.mp hrow).2
      exact setTurnGroup_other (by simp [hother, hne])

theorem rows_assign_ids (conversationId : ConversationId)
    (assignments : List (Int × Uuid)) (t : CanonicalTurns) :
    (t.assign conversationId assignments).rows.map (·.canonicalTurnId) =
      t.rows.map (·.canonicalTurnId) := by
  induction assignments generalizing t with
  | nil => rfl
  | cons assignment assignments ih =>
      change ((t.update _).assign conversationId assignments).rows.map _ = _
      rw [ih, rows_update, List.map_map]
      apply List.map_congr_left
      intro row _
      exact (setTurnGroup conversationId assignment.1 assignment.2).id_eq row

private theorem ordered_assign_foldl (conversationId : ConversationId)
    (assignments : List (Int × Uuid)) (t : CanonicalTurns) :
    (t.assign conversationId assignments).ordered conversationId =
      assignments.foldl (fun rows assignment => rows.map
        (setTurnGroup conversationId assignment.1 assignment.2).apply)
        (t.ordered conversationId) := by
  induction assignments generalizing t with
  | nil => rfl
  | cons assignment assignments ih =>
      change ((t.update _).assign conversationId assignments).ordered _ = _
      rw [ih, ordered_update]
      rfl

/-- An assignment to other identifiers passes a row by. -/
private theorem foldl_setTurnGroup_cons (conversationId : ConversationId)
    (assignments : List (Int × Uuid)) (row : CanonicalTurnRecord)
    (rows : List CanonicalTurnRecord)
    (hother : ∀ assignment ∈ assignments,
      row.canonicalTurnId ≠ assignment.2) :
    assignments.foldl (fun rows assignment => rows.map
        (setTurnGroup conversationId assignment.1 assignment.2).apply)
        (row :: rows) =
      row :: assignments.foldl (fun rows assignment => rows.map
        (setTurnGroup conversationId assignment.1 assignment.2).apply) rows := by
  induction assignments generalizing rows with
  | nil => rfl
  | cons assignment assignments ih =>
      have hne := hother assignment List.mem_cons_self
      rw [List.foldl_cons, List.foldl_cons, List.map_cons]
      rw [setTurnGroup_other fun h => hne h.2]
      exact ih _ fun a ha => hother a (List.mem_cons_of_mem _ ha)

private theorem foldl_setTurnGroup (conversationId : ConversationId)
    (rows : List CanonicalTurnRecord)
    (hconv : ∀ row ∈ rows, row.conversationId = conversationId)
    (hids : (rows.map fun row => row.canonicalTurnId).Nodup)
    (groups : List Int) (hlength : groups.length = rows.length) :
    (groups.zip (rows.map fun row => row.canonicalTurnId)).foldl
        (fun rows assignment => rows.map
          (setTurnGroup conversationId assignment.1 assignment.2).apply) rows =
      List.zipWith CanonicalTurnRecord.setGroup rows groups := by
  induction rows generalizing groups with
  | nil => simp
  | cons row rows ih =>
      obtain ⟨group, groups, rfl⟩ : ∃ g gs, groups = g :: gs :=
        List.exists_cons_of_length_eq_add_one hlength
      simp only [List.map_cons, List.nodup_cons] at hids
      have hfirst : (setTurnGroup conversationId group row.canonicalTurnId).apply
          row = row.setGroup group :=
        setTurnGroup_own (hconv row List.mem_cons_self) rfl
      have hrest : rows.map
          (setTurnGroup conversationId group row.canonicalTurnId).apply = rows := by
        refine (List.map_congr_left fun other hother => ?_).trans (List.map_id _)
        exact setTurnGroup_other fun h =>
          hids.1 (h.2 ▸ List.mem_map_of_mem hother)
      simp only [List.map_cons, List.zip_cons_cons, List.foldl_cons,
        List.zipWith_cons_cons]
      rw [hfirst, hrest, foldl_setTurnGroup_cons]
      · rw [ih (fun r hr => hconv r (List.mem_cons_of_mem _ hr)) hids.2 groups
          (by simpa using hlength)]
      · rintro assignment hassignment heq
        apply hids.1
        have := (List.of_mem_zip hassignment).2
        rwa [← heq] at this

/-- Assigning to every row of a conversation sets exactly its group number. -/
theorem ordered_assign (conversationId : ConversationId) (t : CanonicalTurns)
    (groups : List Int)
    (hlength : groups.length = (t.ordered conversationId).length) :
    (t.assign conversationId (groups.zip
        ((t.ordered conversationId).map fun row => row.canonicalTurnId))).ordered
          conversationId =
      List.zipWith CanonicalTurnRecord.setGroup (t.ordered conversationId)
        groups := by
  rw [ordered_assign_foldl]
  exact foldl_setTurnGroup conversationId _
    (fun row hrow => (mem_ordered.mp hrow).2)
    (t.ordered_ids_nodup conversationId) groups hlength

end CanonicalTurns

namespace Tables

theorem map_loadRows {β : Type} (t : Tables) (conversationId : ConversationId)
    (f : CanonicalTurnRow → β) (g : CanonicalTurnRecord → β)
    (h : ∀ i record, f (rowToCanonicalTurn i record) = g record) :
    (t.loadRows conversationId).map f =
      (t.canonicalTurns.ordered conversationId).map g := by
  apply List.ext_getElem
  · simp [loadRows]
  · intro i hi hi'
    simp [loadRows, h]

@[simp] theorem length_loadRows (t : Tables) (conversationId : ConversationId) :
    (t.loadRows conversationId).length =
      (t.canonicalTurns.ordered conversationId).length := by
  simp [loadRows]

theorem loadRows_congr {t t' : Tables} {conversationId : ConversationId}
    (h : t.canonicalTurns.ordered conversationId =
      t'.canonicalTurns.ordered conversationId) :
    t.loadRows conversationId = t'.loadRows conversationId := by
  unfold loadRows
  rw [h]

theorem loadRows_ids_nodup (t : Tables) (conversationId : ConversationId) :
    ((t.loadRows conversationId).map (·.canonicalTurnId)).Nodup := by
  rw [t.map_loadRows conversationId _ (·.canonicalTurnId) fun _ _ => rfl]
  exact t.canonicalTurns.ordered_ids_nodup conversationId

theorem loadRows_increasing (t : Tables) (conversationId : ConversationId) :
    Increasing (fun row => row.sortKey) (t.loadRows conversationId) := by
  have h := t.canonicalTurns.ordered_increasing conversationId
  unfold Increasing at h ⊢
  rw [← List.pairwise_map (f := fun row : CanonicalTurnRecord => row.sortKey)
    (R := (· < ·))] at h
  rw [← List.pairwise_map (f := fun row : CanonicalTurnRow => row.sortKey)
    (R := (· < ·))]
  rwa [t.map_loadRows conversationId _ (·.sortKey) fun _ _ => rfl]

/-- The tables after `recompute_canonical_turn_groups`. -/
def regrouped (conversationId : ConversationId) (t : Tables) : Tables :=
  { t with
    canonicalTurns := t.canonicalTurns.assign conversationId
      ((turnGroups (t.loadRows conversationId)).zip
        ((t.loadRows conversationId).map (·.canonicalTurnId))) }

/-- The tables after a load, which numbers an all-legacy conversation. -/
def backfilled (conversationId : ConversationId) (t : Tables) : Tables :=
  if allLegacy (t.loadRows conversationId) then t.regrouped conversationId else t

theorem ordered_regrouped (conversationId : ConversationId) (t : Tables) :
    (t.regrouped conversationId).canonicalTurns.ordered conversationId =
      List.zipWith CanonicalTurnRecord.setGroup
        (t.canonicalTurns.ordered conversationId)
        (turnGroups (t.loadRows conversationId)) := by
  unfold regrouped
  rw [t.map_loadRows conversationId _ (·.canonicalTurnId) fun _ _ => rfl]
  exact CanonicalTurns.ordered_assign conversationId t.canonicalTurns _
    (by simp)

/-- The rows of the conversation are as they were, but for their numbers. -/
theorem loadRows_regrouped (conversationId : ConversationId) (t : Tables) :
    (t.regrouped conversationId).loadRows conversationId =
      List.zipWith CanonicalTurnRow.setGroup (t.loadRows conversationId)
        (turnGroups (t.loadRows conversationId)) := by
  rw [loadRows, ordered_regrouped]
  apply List.ext_getElem
  · simp
  · intro i hi hi'
    simp only [List.getElem_mapIdx, List.getElem_zipWith, loadRows]
    rfl

theorem loadRows_regrouped_other {conversationId other : ConversationId}
    (hne : other ≠ conversationId) (t : Tables) :
    (t.regrouped conversationId).loadRows other = t.loadRows other :=
  loadRows_congr (CanonicalTurns.ordered_assign_other hne _ _)

theorem regrouped_of_isEmpty {conversationId : ConversationId} {t : Tables}
    (h : (t.loadRows conversationId).isEmpty) :
    t.regrouped conversationId = t := by
  unfold regrouped
  rw [List.isEmpty_iff.mp h]
  rfl

/-- A program that changes nothing but the numbers of rows. -/
theorem Drawn.regrouped {t : Tables} {supply : Nat} (h : t.Drawn supply)
    (conversationId : ConversationId) :
    (t.regrouped conversationId).Drawn supply where
  turns row hrow := by
    have hids := CanonicalTurns.rows_assign_ids conversationId
      ((turnGroups (t.loadRows conversationId)).zip
        ((t.loadRows conversationId).map (·.canonicalTurnId))) t.canonicalTurns
    have hmem : row.canonicalTurnId ∈
        t.canonicalTurns.rows.map (·.canonicalTurnId) :=
      hids ▸ List.mem_map_of_mem hrow
    obtain ⟨stored, hstored, heq⟩ := List.mem_map.mp hmem
    rw [← heq]
    exact h.turns stored hstored
  anchors := h.anchors
  batches := h.batches

theorem Drawn.backfilled {t : Tables} {supply : Nat} (h : t.Drawn supply)
    (conversationId : ConversationId) :
    (t.backfilled conversationId).Drawn supply := by
  unfold Tables.backfilled
  split
  · exact h.regrouped conversationId
  · exact h

theorem Drawn.loadRows_ids_ne_zero {t : Tables} {supply : Nat}
    (h : t.Drawn supply) (conversationId : ConversationId) :
    ∀ row ∈ t.loadRows conversationId, row.canonicalTurnId ≠ 0 := by
  intro row hrow
  have hid := List.mem_map_of_mem (f := (·.canonicalTurnId)) hrow
  rw [t.map_loadRows conversationId _ (·.canonicalTurnId) fun _ _ => rfl] at hid
  obtain ⟨record, hrecord, heq⟩ := List.mem_map.mp hid
  rw [← heq]
  exact Nat.ne_of_gt
    (h.turns record (CanonicalTurns.mem_ordered.mp hrecord).1).1

/-- Renumbered rows are not legacy rows. -/
theorem backfilled_regrouped (conversationId : ConversationId) (t : Tables) :
    (t.regrouped conversationId).backfilled conversationId =
      t.regrouped conversationId := by
  unfold backfilled
  rw [if_neg]
  rw [loadRows_regrouped, allLegacy]
  cases hrows : t.loadRows conversationId with
  | nil => simp
  | cons row rows =>
      obtain ⟨groups, hgroups⟩ := head_turnGroups row rows
      simp [hgroups]

/-- A conversation that has been loaded is not an all-legacy one. -/
theorem allLegacy_backfilled (t : Tables) (conversationId : ConversationId) :
    allLegacy ((t.backfilled conversationId).loadRows conversationId) =
      false := by
  by_cases h : allLegacy (t.loadRows conversationId)
  · rw [backfilled, if_pos h]
    by_contra hlegacy
    rw [loadRows_regrouped, allLegacy] at hlegacy
    cases hrows : t.loadRows conversationId with
    | nil => simp [hrows] at hlegacy
    | cons row rows =>
        obtain ⟨groups, hgroups⟩ := head_turnGroups row rows
        simp [hrows, hgroups] at hlegacy
  · rw [backfilled, if_neg h]
    simpa using h

theorem backfilled_backfilled (t : Tables) (conversationId : ConversationId) :
    (t.backfilled conversationId).backfilled conversationId =
      t.backfilled conversationId := by
  conv_lhs => rw [backfilled, if_neg (by simp [allLegacy_backfilled])]

/-- Renumbering twice gives the same numbers. -/
theorem ordered_regrouped_regrouped (conversationId : ConversationId)
    (t : Tables) :
    ((t.regrouped conversationId).regrouped
        conversationId).canonicalTurns.ordered conversationId =
      (t.regrouped conversationId).canonicalTurns.ordered conversationId := by
  have hgroups : turnGroups ((t.regrouped conversationId).loadRows
      conversationId) = turnGroups (t.loadRows conversationId) := by
    apply turnGroups_congr
    rw [loadRows_regrouped]
    apply List.ext_getElem
    · simp
    · intro i hi hi'
      simp
  rw [ordered_regrouped, hgroups, ordered_regrouped]
  apply List.ext_getElem
  · simp
  · intro i hi hi'
    simp [CanonicalTurnRecord.setGroup]

end Tables

/-! ## What each method yields -/

section Yields

variable {t : Tables} {n : Nat} {conversationId : ConversationId}

theorem getLifecycleEpoch_yields {row : ConversationRecord}
    (h : t.conversation? conversationId = some row) :
    Yields (getLifecycleEpoch conversationId) t n row.lifecycleEpoch t n := by
  have hread : Yields (withConn .getLifecycleEpoch
      (Program.read .getLifecycleEpoch fun tables : Tables =>
        tables.conversation? conversationId)) t n (some row) t n := by
    apply Yields.bind
    · apply Yields.tryCatch
      apply Yields.read_of
      exact h
    · exact Yields.bind .commit .pure
  exact hread.bind .pure

theorem updateTurnGroups_yields (assignments : List (Int × Uuid)) (t : Tables) :
    Yields (updateTurnGroups conversationId assignments) t n ()
      { t with
        canonicalTurns := t.canonicalTurns.assign conversationId assignments }
      n := by
  induction assignments generalizing t with
  | nil => exact .pure
  | cons assignment assignments ih =>
      exact Yields.bind (.update _) (ih _)

theorem loadCanonicalTurnRowsRaw_yields :
    Yields (loadCanonicalTurnRowsRaw conversationId) t n
      (t.loadRows conversationId) t n :=
  .read _

theorem recomputeCanonicalTurnGroups_yields :
    Yields (recomputeCanonicalTurnGroups conversationId) t n ()
      (t.regrouped conversationId) n := by
  apply Yields.bind loadCanonicalTurnRowsRaw_yields
  split_ifs with h
  · rw [Tables.regrouped_of_isEmpty h]
    exact .pure
  · exact Yields.bind (updateTurnGroups_yields _ _) .commit

theorem loadCanonicalTurnRows_yields :
    Yields (loadCanonicalTurnRows conversationId) t n
      ((t.backfilled conversationId).loadRows conversationId)
      (t.backfilled conversationId) n := by
  apply Yields.bind loadCanonicalTurnRowsRaw_yields
  unfold Tables.backfilled
  split_ifs with h
  · apply Yields.tryCatch
    apply Yields.located
    exact Yields.bind recomputeCanonicalTurnGroups_yields
      loadCanonicalTurnRowsRaw_yields
  · exact .pure

theorem getAllCanonicalTurns_yields :
    Yields (getAllCanonicalTurns conversationId) t n
      ((t.backfilled conversationId).loadRows conversationId)
      (t.backfilled conversationId) n :=
  loadCanonicalTurnRows_yields

theorem getUncompactedCanonicalTurns_yields (protectedRecentTurns : Nat) :
    Yields (getUncompactedCanonicalTurns conversationId protectedRecentTurns)
      t n
      (uncompactedTurns protectedRecentTurns
        ((t.backfilled conversationId).loadRows conversationId))
      (t.backfilled conversationId) n :=
  Yields.bind loadCanonicalTurnRows_yields .pure

/-- A row whose identifier and key are given is inserted or overwrites its own. -/
theorem saveCanonicalTurn_yields {sha : Sha256} {now : String}
    {args : SaveTurnArgs} {canonicalTurnId : Uuid} {sortKey : ℚ}
    {turns : CanonicalTurns} (hid : args.canonicalTurnId = some canonicalTurnId)
    (hpos : canonicalTurnId ≠ 0) (hkey : args.sortKey = some sortKey)
    (hupsert : t.canonicalTurns.upsert
      (args.record sha now canonicalTurnId sortKey) = .ok turns) :
    Yields (saveCanonicalTurn sha now args) t n ()
      { t with canonicalTurns := turns } n := by
  unfold saveCanonicalTurn
  rw [hid, hkey]
  apply Yields.bind (Yields.pure : Yields _ t n (some canonicalTurnId) t n)
  obtain ⟨k, rfl⟩ := Nat.exists_eq_succ_of_ne_zero hpos
  apply Yields.bind (.read _)
  apply Yields.bind .pure
  apply Yields.bind .pure
  apply Yields.write
  rw [hupsert]
  rfl

theorem lookupOrdinalForCanonicalTurnId_yields (canonicalTurnId : Uuid) :
    ∃ ordinal, Yields (lookupOrdinalForCanonicalTurnId conversationId
      canonicalTurnId) t n ordinal t n :=
  ⟨_, .read _⟩

theorem commitIfUnlocked_yields (depth : Nat) (site : Site) :
    Yields (commitIfUnlocked depth site) t n () t n := by
  unfold commitIfUnlocked
  split_ifs
  · exact .commit
  · exact .pure

theorem markCanonicalTurnsCompacted_yields (depth : Nat) {now : String}
    {ids : List Uuid} (hids : ids ≠ []) (compactedAt : Option String) :
    ∃ rowcount, Yields
      (markCanonicalTurnsCompacted depth now conversationId ids compactedAt none)
      t n rowcount
      { t with
        canonicalTurns := t.canonicalTurns.update (markCompacted
          t.canonicalTurns conversationId ids (orText compactedAt now) none) }
      n := by
  unfold markCanonicalTurnsCompacted
  rw [if_neg (by simpa using hids)]
  exact ⟨_, Yields.bind (.write rfl)
    (Yields.bind (commitIfUnlocked_yields _ _) .pure)⟩

theorem insertAnchors_yields (anchors : List CanonicalTurnAnchor) (t : Tables) :
    Yields (insertAnchors anchors) t n ()
      { t with canonicalTurnAnchors := t.canonicalTurnAnchors ++ anchors } n := by
  induction anchors generalizing t with
  | nil =>
      rw [List.append_nil]
      exact .pure
  | cons anchor anchors ih =>
      apply Yields.bind (.update _)
      have h := ih { t with
        canonicalTurnAnchors := t.canonicalTurnAnchors ++ [anchor] }
      simpa using h

/-- The anchors of a conversation are replaced, the others stay. -/
def Tables.withAnchors (t : Tables) (conversationId : ConversationId)
    (anchors : List CanonicalTurnAnchor) : Tables :=
  { t with
    canonicalTurnAnchors :=
      t.canonicalTurnAnchors.filter
        (fun anchor => anchor.conversationId ≠ conversationId) ++
      anchors.filter fun anchor =>
        anchor.anchorHash ≠ [] ∧ anchor.startTurnId ≠ 0 }

theorem replaceCanonicalTurnAnchors_yields (depth : Nat)
    (anchors : List CanonicalTurnAnchor) :
    Yields (replaceCanonicalTurnAnchors depth conversationId anchors) t n ()
      (t.withAnchors conversationId anchors) n := by
  apply Yields.bind (.update _)
  apply Yields.bind (insertAnchors_yields _ _)
  exact commitIfUnlocked_yields _ _

/-- `INSERT OR REPLACE` of one batch. -/
def Tables.withBatch (t : Tables) (batch : IngestBatchRecord) : Tables :=
  { t with
    ingestBatches :=
      t.ingestBatches.filter (fun other => other.batchId ≠ batch.batchId)
        ++ [batch] }

theorem saveIngestBatch_yields (depth : Nat) (batch : IngestBatchRecord) :
    Yields (saveIngestBatch depth batch) t n () (t.withBatch batch) n :=
  Yields.bind (.update _) (commitIfUnlocked_yields _ _)

/-- A body that yields a result under the lock yields it as a whole. -/
theorem conversationReconcile_run {α : Type} {body : Nat → StoreProgram α}
    {value : α} {t' : Tables} {n' : Nat}
    (h : Yields (body 1) t n value t' n') :
    (conversationReconcile 0 body).run .quiet (.idle t n) =
      (.ok value, .idle t' n') := by
  obtain ⟨c', hsmooth, ht', hn', -⟩ := h ⟨t, some t, n⟩ rfl rfl
  have hlocked : ((body 1 >>= fun value =>
      Program.commit .commitReconcile >>= fun _ => pure value :
        StoreProgram α).smooth ⟨t, some t, n⟩) = some (value, c'.commit) := by
    rw [Program.smooth_bind, hsmooth]
    rfl
  have hidle : c'.commit = .idle t' n' := by
    subst ht' hn'
    rfl
  rw [hidle] at hlocked
  apply Program.run_of_smooth
  exact Program.smooth_tryCatch hlocked _

end Yields

end VirtualContext
