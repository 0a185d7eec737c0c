import VirtualContext.Core.IngestEffect

/-!
# Persisted anchors and the rows they are about

An anchor is stored under the identifier of the row its window starts with, and
is joined to the current place of that row.  Anchors are current when the
windows they name are those of the stored rows.
-/

namespace VirtualContext

open VirtualContext.Library

/-! ## What anchors say about rows -/

/-- The anchors of a conversation that a lookup takes notice of. -/
def Tables.anchorsFor (t : Tables) (conversationId : ConversationId) :
    List CanonicalTurnAnchor :=
  t.canonicalTurnAnchors.filter fun anchor =>
    anchor.conversationId = conversationId

/-- What alignment reads off a row: its identifier and its hash. -/
def Tables.spine (t : Tables) (conversationId : ConversationId) :
    List (Uuid × HexDigest) :=
  (t.loadRows conversationId).map fun row => (row.canonicalTurnId, row.turnHash)

/-- An anchor is silent or names a window of the current rows. -/
def CanonicalTurnAnchor.NamesWindow (sha : Sha256)
    (rows : List CanonicalTurnRow) (anchor : CanonicalTurnAnchor) : Prop :=
  ∀ start row, rows[start]? = some row →
    row.canonicalTurnId = anchor.startTurnId → anchor.anchorHash ≠ [] →
    start + anchor.windowSize ≤ rows.length ∧
      computeAnchorHash sha rows start anchor.windowSize = anchor.anchorHash

/-- No anchor of the conversation is stale. -/
def AnchorsTruthful (sha : Sha256) (t : Tables)
    (conversationId : ConversationId) : Prop :=
  ∀ anchor ∈ t.anchorsFor conversationId,
    anchor.NamesWindow sha (t.loadRows conversationId)

/-- Every window of three, four or five rows has its anchor. -/
def AnchorsComplete (sha : Sha256) (t : Tables)
    (conversationId : ConversationId) : Prop :=
  ∀ windowSize ∈ [5, 4, 3], ∀ start row,
    (t.loadRows conversationId)[start]? = some row →
    start + windowSize ≤ (t.loadRows conversationId).length →
    ⟨conversationId,
        computeAnchorHash sha (t.loadRows conversationId) start windowSize,
        row.canonicalTurnId, windowSize⟩ ∈ t.anchorsFor conversationId

section

variable {sha : Sha256} {t t' : Tables} {conversationId : ConversationId}

private theorem rows_of_spine {rows rows' : List CanonicalTurnRow}
    (h : rows'.map (fun row => (row.canonicalTurnId, row.turnHash)) =
      rows.map fun row => (row.canonicalTurnId, row.turnHash)) :
    rows'.length = rows.length ∧
      rows'.map (·.turnHash) = rows.map (·.turnHash) ∧
      ∀ start : Nat, (rows'[start]?).map CanonicalTurnRow.canonicalTurnId =
        (rows[start]?).map CanonicalTurnRow.canonicalTurnId := by
  refine ⟨by simpa using congrArg List.length h, ?_, ?_⟩
  · simpa [List.map_map, Function.comp_def] using congrArg (List.map Prod.snd) h
  · intro start
    have := congrArg (fun pairs => pairs[start]?.map Prod.fst) h
    simpa [Function.comp_def] using this

/-- Whether an anchor names a window depends on identifiers and hashes only. -/
theorem CanonicalTurnAnchor.NamesWindow.congr {anchor : CanonicalTurnAnchor}
    {rows rows' : List CanonicalTurnRow} (hnames : anchor.NamesWindow sha rows)
    (h : rows'.map (fun row => (row.canonicalTurnId, row.turnHash)) =
      rows.map fun row => (row.canonicalTurnId, row.turnHash)) :
    anchor.NamesWindow sha rows' := by
  obtain ⟨hlength, hhashes, hids⟩ := rows_of_spine h
  intro start row' hrow' hid hhash
  have hget := hids start
  rw [hrow', Option.map_some] at hget
  obtain ⟨row, hrow, hid'⟩ := Option.map_eq_some_iff.mp hget.symm
  obtain ⟨hle, hdigest⟩ := hnames start row hrow (hid'.trans hid) hhash
  refine ⟨by omega, ?_⟩
  rw [← hdigest, computeAnchorHash_eq_iff, hhashes]

theorem AnchorsTruthful.congr (h : AnchorsTruthful sha t conversationId)
    (hspine : t'.spine conversationId = t.spine conversationId)
    (hanchors : ∀ anchor ∈ t'.anchorsFor conversationId,
      anchor ∈ t.anchorsFor conversationId) :
    AnchorsTruthful sha t' conversationId :=
  fun anchor hanchor => (h anchor (hanchors anchor hanchor)).congr hspine

theorem AnchorsComplete.congr (h : AnchorsComplete sha t conversationId)
    (hspine : t'.spine conversationId = t.spine conversationId)
    (hanchors : ∀ anchor ∈ t.anchorsFor conversationId,
      anchor ∈ t'.anchorsFor conversationId) :
    AnchorsComplete sha t' conversationId := by
  obtain ⟨hlength, hhashes, hids⟩ := rows_of_spine hspine
  intro windowSize hsize start row' hrow' hle
  have hget := hids start
  rw [hrow', Option.map_some] at hget
  obtain ⟨row, hrow, hid⟩ := Option.map_eq_some_iff.mp hget.symm
  have hmem := h windowSize hsize start row hrow (by omega)
  have hdigest : computeAnchorHash sha (t'.loadRows conversationId) start
      windowSize =
      computeAnchorHash sha (t.loadRows conversationId) start windowSize := by
    rw [computeAnchorHash_eq_iff, hhashes]
  rw [hdigest, ← hid]
  exact hanchors _ hmem

/-! ## The index of the persisted anchors -/

theorem mem_anchorPositions {windowSize start : Nat} {digest : HexDigest} :
    (digest, start) ∈ t.anchorPositions conversationId windowSize ↔
      ∃ row, (t.loadRows conversationId)[start]? = some row ∧
        ∃ anchor ∈ t.anchorsFor conversationId,
          anchor.windowSize = windowSize ∧
          anchor.startTurnId = row.canonicalTurnId ∧
          anchor.anchorHash = digest ∧ digest ≠ [] := by
  simp only [Tables.anchorPositions, Tables.anchorsFor, List.mem_flatMap,
    List.mem_map, List.mem_filter, Prod.exists, Prod.mk.injEq,
    List.mem_zipIdx_iff_getElem?, decide_eq_true_eq]
  constructor
  · rintro ⟨row, i, hrow, anchor, ⟨hmem, hconv, hsize, hid, hhash⟩, rfl, rfl⟩
    exact ⟨row, hrow, anchor, ⟨hmem, hconv⟩, hsize, hid, rfl, hhash⟩
  · rintro ⟨row, hrow, anchor, ⟨hmem, hconv⟩, hsize, hid, rfl, hhash⟩
    exact ⟨row, start, hrow, anchor, ⟨hmem, hconv, hsize, hid, hhash⟩, rfl, rfl⟩

/-- Truthful anchors give a truthful index. -/
theorem persistedIndex_truthful (h : AnchorsTruthful sha t conversationId)
    {windowSize : Nat} (hpos : 0 < windowSize) :
    IndexTruthful sha (t.loadRows conversationId) windowSize
      (persistedIndex sha t conversationId (t.loadRows conversationId)
        windowSize) := by
  unfold persistedIndex
  dsimp only
  split_ifs
  · exact buildAnchorIndex_truthful hpos
  · intro digest start hstart
    rw [Dictionary.mem_get_ofPairs, mem_anchorPositions] at hstart
    obtain ⟨row, hrow, anchor, hmem, rfl, hid, rfl, hhash⟩ := hstart
    exact h anchor hmem start row hrow hid.symm hhash

/-- Complete anchors give a complete index. -/
theorem persistedIndex_complete (h : AnchorsComplete sha t conversationId) :
    ∀ windowSize ∈ [5, 4, 3],
      IndexComplete sha (t.loadRows conversationId) windowSize
        (persistedIndex sha t conversationId (t.loadRows conversationId)
          windowSize) := by
  intro windowSize hsize
  unfold persistedIndex
  dsimp only
  split_ifs
  · exact buildAnchorIndex_complete (windowSizes_pos windowSize hsize)
  · intro start hle
    have hpos := windowSizes_pos windowSize hsize
    have hlt : start < (t.loadRows conversationId).length := by omega
    rw [Dictionary.mem_get_ofPairs, mem_anchorPositions]
    refine ⟨_, List.getElem?_eq_getElem hlt, _,
      h windowSize hsize start _ (List.getElem?_eq_getElem hlt) hle, rfl, rfl,
      rfl, ?_⟩
    exact sha.nonempty _

/-! ## Anchors after a refresh -/

theorem mem_anchorsOf {rows : List CanonicalTurnRow}
    {anchor : CanonicalTurnAnchor} :
    anchor ∈ anchorsOf sha conversationId rows ↔
      anchor.conversationId = conversationId ∧
        anchor.windowSize ∈ [3, 4, 5] ∧
        ∃ start row, start + anchor.windowSize ≤ rows.length ∧
          rows[start]? = some row ∧ row.canonicalTurnId ≠ 0 ∧
          anchor.startTurnId = row.canonicalTurnId ∧
          anchor.anchorHash =
            computeAnchorHash sha rows start anchor.windowSize := by
  unfold anchorsOf
  simp only [List.mem_flatMap, List.mem_filterMap, List.mem_range]
  constructor
  · rintro ⟨windowSize, hsize, start, hstart, hfound⟩
    cases hrow : rows[start]? with
    | none => simp [hrow] at hfound
    | some row =>
        simp only [hrow, Option.ite_none_left_eq_some, Option.some.injEq]
          at hfound
        obtain ⟨hid, rfl⟩ := hfound
        exact ⟨rfl, hsize, start, row, by dsimp only; omega, hrow, hid, rfl, rfl⟩
  · rintro ⟨rfl, hsize, start, row, hle, hrow, hid, hstart, hhash⟩
    have hpos := windowSizes_pos anchor.windowSize (by simp at hsize ⊢; omega)
    refine ⟨anchor.windowSize, hsize, start, by omega, ?_⟩
    cases anchor
    simp_all

theorem anchorsFor_withAnchors (anchors : List CanonicalTurnAnchor)
    (hown : ∀ anchor ∈ anchors, anchor.conversationId = conversationId) :
    (t.withAnchors conversationId anchors).anchorsFor conversationId =
      anchors.filter fun anchor =>
        anchor.anchorHash ≠ [] ∧ anchor.startTurnId ≠ 0 := by
  unfold Tables.withAnchors Tables.anchorsFor
  dsimp only
  rw [List.filter_append, List.filter_filter]
  have hnone : t.canonicalTurnAnchors.filter (fun anchor =>
      decide (anchor.conversationId = conversationId) &&
        decide (anchor.conversationId ≠ conversationId)) = [] := by
    rw [List.filter_eq_nil_iff]
    intro anchor _
    by_cases h : anchor.conversationId = conversationId <;> simp [h]
  rw [hnone, List.nil_append, List.filter_eq_self]
  intro anchor hanchor
  simp [hown anchor (List.mem_filter.mp hanchor).1]

theorem anchorsFor_withAnchors_other (anchors : List CanonicalTurnAnchor)
    (hown : ∀ anchor ∈ anchors, anchor.conversationId = conversationId)
    {other : ConversationId} (hne : other ≠ conversationId) :
    (t.withAnchors conversationId anchors).anchorsFor other =
      t.anchorsFor other := by
  unfold Tables.withAnchors Tables.anchorsFor
  dsimp only
  rw [List.filter_append, List.filter_filter]
  have hnone : (anchors.filter fun anchor =>
      anchor.anchorHash ≠ [] ∧ anchor.startTurnId ≠ 0).filter
        (fun anchor => anchor.conversationId = other) = [] := by
    rw [List.filter_eq_nil_iff]
    intro anchor hanchor heq
    exact hne ((of_decide_eq_true heq).symm.trans
      (hown anchor (List.mem_filter.mp hanchor).1))
  rw [hnone, List.append_nil]
  apply List.filter_congr
  intro anchor _
  by_cases h : anchor.conversationId = other <;> simp [h, hne]

/-- A refresh makes the anchors of its conversation current. -/
theorem anchors_refreshed (hids : ∀ row ∈ t.loadRows conversationId,
      row.canonicalTurnId ≠ 0) :
    AnchorsTruthful sha (t.withAnchors conversationId
        (anchorsOf sha conversationId (t.loadRows conversationId)))
          conversationId ∧
      AnchorsComplete sha (t.withAnchors conversationId
        (anchorsOf sha conversationId (t.loadRows conversationId)))
          conversationId := by
  have hown : ∀ anchor ∈ anchorsOf sha conversationId
      (t.loadRows conversationId), anchor.conversationId = conversationId :=
    fun anchor hanchor => (mem_anchorsOf.mp hanchor).1
  have hrows : (t.withAnchors conversationId (anchorsOf sha conversationId
      (t.loadRows conversationId))).loadRows conversationId =
      t.loadRows conversationId := rfl
  have hanchors := anchorsFor_withAnchors (t := t) _ hown
  constructor
  · intro anchor hanchor
    rw [hanchors] at hanchor
    obtain ⟨-, -, start, row, hle, hrow, -, hstart, hhash⟩ :=
      mem_anchorsOf.mp (List.mem_filter.mp hanchor).1
    intro start' row' hrow' hid' _
    rw [hrows] at hrow' ⊢
    -- the identifier of the first row tells where the window starts
    obtain rfl : start = start' := by
      have hlt : start < (t.loadRows conversationId).length :=
        (List.getElem?_eq_some_iff.mp hrow).1
      apply (List.getElem?_inj (by simpa using hlt)
        (t.loadRows_ids_nodup conversationId)).mp
      simp [hrow, hrow', hid', hstart]
    exact ⟨hle, hhash.symm⟩
  · intro windowSize hsize start row hrow hle
    rw [hrows] at hrow hle ⊢
    rw [hanchors, List.mem_filter]
    have hid := hids row (List.mem_of_getElem? hrow)
    refine ⟨mem_anchorsOf.mpr ⟨rfl, by simp at hsize ⊢; omega, start, row, hle,
      hrow, hid, rfl, rfl⟩, ?_⟩
    simp [sha.nonempty, computeAnchorHash, hid]

/-! ## Anchors through a call -/

theorem spine_regrouped (t : Tables) (conversationId other : ConversationId) :
    (t.regrouped conversationId).spine other = t.spine other := by
  unfold Tables.spine
  by_cases h : other = conversationId
  · subst h
    rw [Tables.loadRows_regrouped]
    apply List.ext_getElem
    · simp
    · intro i hi hi'
      simp
  · rw [Tables.loadRows_regrouped_other h]

theorem spine_backfilled (t : Tables) (conversationId other : ConversationId) :
    (t.backfilled conversationId).spine other = t.spine other := by
  unfold Tables.backfilled
  split_ifs
  · exact spine_regrouped t conversationId other
  · rfl

theorem anchorsFor_backfilled (t : Tables)
    (conversationId other : ConversationId) :
    (t.backfilled conversationId).anchorsFor other = t.anchorsFor other := by
  unfold Tables.backfilled
  split_ifs <;> rfl

/-- The anchors of a conversation are those of its current rows. -/
structure AnchorsCurrent (sha : Sha256) (t : Tables)
    (conversationId : ConversationId) : Prop where
  truthful : AnchorsTruthful sha t conversationId
  complete : AnchorsComplete sha t conversationId

theorem AnchorsCurrent.congr (h : AnchorsCurrent sha t conversationId)
    (hspine : t'.spine conversationId = t.spine conversationId)
    (hanchors : t'.anchorsFor conversationId = t.anchorsFor conversationId) :
    AnchorsCurrent sha t' conversationId where
  truthful := h.truthful.congr hspine fun _ hanchor => hanchors ▸ hanchor
  complete := h.complete.congr hspine fun _ hanchor => hanchors.symm ▸ hanchor

theorem AnchorsCurrent.backfilled {other : ConversationId}
    (h : AnchorsCurrent sha t other) (conversationId : ConversationId) :
    AnchorsCurrent sha (t.backfilled conversationId) other :=
  h.congr (spine_backfilled t conversationId other)
    (anchorsFor_backfilled t conversationId other)

theorem AnchorsCurrent.withBatch (h : AnchorsCurrent sha t conversationId)
    (batch : IngestBatchRecord) :
    AnchorsCurrent sha (t.withBatch batch) conversationId :=
  h.congr rfl rfl

/-- Anchors are silent about a conversation without rows. -/
theorem anchorsCurrent_of_empty (h : t.loadRows conversationId = []) :
    AnchorsCurrent sha t conversationId where
  truthful anchor _ start row hrow := by simp [h] at hrow
  complete windowSize _ start row hrow := by simp [h] at hrow

variable (sha) in
/-- The refresh at the end of a call makes the anchors current. -/
theorem anchorsCurrent_finished (batch : IngestBatchRecord)
    (hids : ∀ row ∈ t.loadRows conversationId, row.canonicalTurnId ≠ 0) :
    AnchorsCurrent sha (t.finished sha conversationId batch) conversationId := by
  have hspine : ((t.withBatch batch).regrouped conversationId).spine
      conversationId = t.spine conversationId :=
    spine_regrouped (t.withBatch batch) conversationId conversationId
  have hids' : ∀ row ∈ ((t.withBatch batch).regrouped conversationId).loadRows
      conversationId, row.canonicalTurnId ≠ 0 := by
    intro row hrow
    have hmem : (row.canonicalTurnId, row.turnHash) ∈ t.spine conversationId := by
      rw [← hspine]
      exact List.mem_map_of_mem hrow
    obtain ⟨row', hrow', heq⟩ := List.mem_map.mp hmem
    rw [← (Prod.mk.inj heq).1]
    exact hids row' hrow'
  exact ⟨(anchors_refreshed hids').1, (anchors_refreshed hids').2⟩

/-- The anchors of all other conversations stay. -/
theorem AnchorsCurrent.finished_other {other : ConversationId}
    (h : AnchorsCurrent sha t other) (hne : other ≠ conversationId)
    (batch : IngestBatchRecord) :
    AnchorsCurrent sha (t.finished sha conversationId batch) other := by
  apply h.congr
  · exact spine_regrouped (t.withBatch batch) conversationId other
  · exact anchorsFor_withAnchors_other _
      (fun anchor hanchor => (mem_anchorsOf.mp hanchor).1) hne

end

end VirtualContext
