import VirtualContext.Core.SegmentTurns
import VirtualContext.Storage.CompactionRuns

/-!
# The rows that a stored segment names

The cursor names the rows of a segment correctly exactly if the turns were
grouped in runs and the rows have one turn each, up to the last segment.  What
a stored segment named before is lost when another one is merged into it.
-/

namespace VirtualContext

open VirtualContext.Library

/-! ## The property and its condition -/

/-- The numbers of the rows that the messages of a segment were made of. -/
def TaggedSegment.rowNumbers (seg : TaggedSegment) : List Nat :=
  seg.messages.filterMap (·.row)

/-- A row with a text among the messages of the segment. -/
def OwnRow (rows : List CanonicalTurnRow) (seg : TaggedSegment)
    (row : CanonicalTurnRow) : Prop :=
  ∃ i ∈ seg.rowNumbers, rows[i]? = some row

/-- A new segment names its rows, their first number and their last. -/
structure NamesRows (rows : List CanonicalTurnRow) (w : SegmentWrite) :
    Prop where
  ids : ∀ id, id ∈ w.stored.metadata.canonicalTurnIds ↔
    ∃ row, OwnRow rows w.segment row ∧ row.canonicalTurnId = id
  start : IsLeast {number | ∃ row, OwnRow rows w.segment row ∧
    row.turnNumber = number} w.stored.metadata.startTurnNumber
  stop : IsGreatest {number | ∃ row, OwnRow rows w.segment row ∧
    row.turnNumber = number} w.stored.metadata.endTurnNumber

/-- A merged segment names what it named before and its new rows. -/
structure KeepsNames (rows : List CanonicalTurnRow) (before : List Uuid)
    (w : SegmentWrite) : Prop where
  ids : ∀ id, id ∈ w.stored.metadata.canonicalTurnIds ↔
    id ∈ before ∨ ∃ row, OwnRow rows w.segment row ∧ row.canonicalTurnId = id
  rows : ∀ row ∈ rows,
    row.canonicalTurnId ∈ w.stored.metadata.canonicalTurnIds →
      OwnRow rows w.segment row

/-- The identifiers that the segment stored under a ref names. -/
def Tables.namedBy (t : Tables) (ref : String) : List Uuid :=
  (t.segments.filter (·.ref = ref)).flatMap (·.metadata.canonicalTurnIds)

/-- The tables after the segments were stored. -/
def Tables.afterWrites (t : Tables) (guard : Option CompactionGuard)
    (written : List SegmentWrite) : Tables :=
  written.foldl (fun t w => t.replaceSegment (w.stored.record guard)) t

/-- Every segment that the run stored has its provenance. -/
def Provenance (t : Tables) (guard : Option CompactionGuard)
    (rows : List CanonicalTurnRow) (written : List SegmentWrite) : Prop :=
  ∀ earlier w later, written = earlier ++ w :: later →
    if w.segment.mergeRef = "" then NamesRows rows w
    else KeepsNames rows
      ((t.afterWrites guard earlier).namedBy w.segment.mergeRef) w

/-- A stored segment is merged into only if it names no other rows. -/
def MergesOwn (t : Tables) (guard : Option CompactionGuard)
    (rows : List CanonicalTurnRow) (written : List SegmentWrite) : Prop :=
  ∀ earlier w later, written = earlier ++ w :: later →
    w.segment.mergeRef ≠ "" →
      ∀ id ∈ (t.afterWrites guard earlier).namedBy w.segment.mergeRef,
        ∃ row, OwnRow rows w.segment row ∧ row.canonicalTurnId = id

/-- Every row has one turn, but that the last rows may be blank. -/
def OneTurnEach (rows : List CanonicalTurnRow) : Prop :=
  (∀ row ∈ rows, row.turnCount ≤ 1) ∧
    rows.Pairwise fun row later => row.turnCount = 0 → later.turnCount = 0

namespace CompactionPipeline

variable (pipeline : CompactionPipeline)

/-- The turns of the rows that are tagged. -/
def taggedTurns (rows : List CanonicalTurnRow) : List TaggedTurn :=
  pipeline.segmenter.tagTurns ((rows.head?.map (·.turnNumber)).getD 0)
    (pairTurns (messagesOfRows rows))

/-- No row is blank, and only rows of the last segment have several turns. -/
def SplitInLast (rows : List CanonicalTurnRow) : Prop :=
  (∀ row ∈ rows, 1 ≤ row.turnCount) ∧
    ∀ seg ∈ (pipeline.segmentRows rows).dropLast, ∀ row,
      OwnRow rows seg row → row.turnCount = 1

/-- No turn joins an older segment, and the rows have one turn each. -/
def SegmentsInTurn (rows : List CanonicalTurnRow) : Prop :=
  JoinsNewest [] (pipeline.segmenter.choices "" [] (pipeline.taggedTurns rows)) ∧
    (OneTurnEach rows ∨ pipeline.SplitInLast rows)

end CompactionPipeline

/-- Rows as they are loaded: with identifiers, in the order of the turns. -/
structure CompactableRows (rows : List CanonicalTurnRow) : Prop where
  ids : ∀ row ∈ rows, row.canonicalTurnId ≠ 0
  distinct : (rows.map (·.canonicalTurnId)).Nodup
  ordered : Increasing (·.turnNumber) rows

/-! ## The rows of the groups -/

section Rows

variable {pipeline : CompactionPipeline} {rows : List CanonicalTurnRow}

/-- The groups of the segment library. -/
def CompactionPipeline.library (pipeline : CompactionPipeline)
    (rows : List CanonicalTurnRow) : List SegmentGroup :=
  pipeline.segmenter.groupTurns "" [] (pipeline.taggedTurns rows)

/-- The row of each turn of each group. -/
def groupRows (library : List SegmentGroup) : List (List Nat) :=
  library.map fun group => group.turns.map (·.pair.row)

theorem builtFrom_segmentRows (pipeline : CompactionPipeline)
    (rows : List CanonicalTurnRow) :
    List.Forall₂ BuiltFrom (pipeline.library rows)
      (pipeline.segmentRows rows) :=
  builtFrom_segment _ _ _ _

theorem turns_library :
    (pipeline.library rows).map (·.turns) =
      placeAll []
        (pipeline.segmenter.choices "" [] (pipeline.taggedTurns rows)) :=
  TopicSegmenter.turns_groupTurns _ _ _ _

theorem groupRows_eq (library : List SegmentGroup) :
    groupRows library =
      (library.map (·.turns)).map (List.map (·.pair.row)) := by
  simp [groupRows]

theorem groupRows_ne_nil (library : List SegmentGroup) :
    ∀ group ∈ groupRows library, group ≠ [] := by
  intro group hgroup
  obtain ⟨group, -, rfl⟩ := List.mem_map.mp hgroup
  simp [SegmentGroup.turns]

theorem map_row_taggedTurns (pipeline : CompactionPipeline)
    (rows : List CanonicalTurnRow) :
    (pipeline.taggedTurns rows).map (·.pair.row) = turnRows rows :=
  map_row_tagTurns _ _ _

/-- The rows from a number on, once for each turn. -/
def turnRowsFrom : Nat → List CanonicalTurnRow → List Nat
  | _, [] => []
  | start, row :: rows =>
      List.replicate row.turnCount start ++ turnRowsFrom (start + 1) rows

theorem turnRows_eq (rows : List CanonicalTurnRow) :
    turnRows rows = turnRowsFrom 0 rows := by
  have h : ∀ start, (rows.mapIdx fun i row =>
      List.replicate row.turnCount (start + i)).flatten =
        turnRowsFrom start rows := by
    induction rows with
    | nil => exact fun _ => rfl
    | cons row rows ih =>
        intro start
        rw [List.mapIdx_cons, List.flatten_cons, turnRowsFrom, ← ih]
        simp only [Nat.add_zero, Nat.add_assoc, Nat.add_comm 1]
  simpa [turnRows] using h 0

theorem mem_turnRowsFrom {i start : Nat} (h : i ∈ turnRowsFrom start rows) :
    start ≤ i ∧ i < start + rows.length := by
  induction rows generalizing start with
  | nil => cases h
  | cons row rows ih =>
      rw [List.length_cons]
      rcases List.mem_append.mp h with h | h
      · have := List.eq_of_mem_replicate h
        omega
      · have := ih h
        omega

theorem turnRowsFrom_sorted (start : Nat) (rows : List CanonicalTurnRow) :
    (turnRowsFrom start rows).Pairwise (· ≤ ·) := by
  induction rows generalizing start with
  | nil => exact List.Pairwise.nil
  | cons row rows ih =>
      refine List.pairwise_append.mpr
        ⟨List.pairwise_replicate.mpr (.inr (Nat.le_refl _)), ih _, ?_⟩
      intro i hi j hj
      have := mem_turnRowsFrom hj
      rw [List.eq_of_mem_replicate hi]
      omega

theorem count_turnRowsFrom (start k : Nat) (rows : List CanonicalTurnRow) :
    (turnRowsFrom start rows).count (start + k) =
      (rows[k]?.map (·.turnCount)).getD 0 := by
  induction rows generalizing start k with
  | nil => simp [turnRowsFrom]
  | cons row rows ih =>
      rw [turnRowsFrom, List.count_append, List.count_replicate]
      cases k with
      | zero =>
          have hnone : (turnRowsFrom (start + 1) rows).count (start + 0) = 0 := by
            rw [List.count_eq_zero]
            intro hmem
            have := mem_turnRowsFrom hmem
            omega
          rw [hnone]
          simp
      | succ k =>
          have hnext := ih (start + 1) k
          have hne : start ≠ start + 1 + k := by omega
          rw [show start + (k + 1) = start + 1 + k by omega, hnext]
          simp [hne]

theorem turnRowsFrom_eq_nil_iff (start : Nat) :
    turnRowsFrom start rows = [] ↔ ∀ row ∈ rows, row.turnCount = 0 := by
  induction rows generalizing start with
  | nil => simp [turnRowsFrom]
  | cons row rows ih => simp [turnRowsFrom, ih]

/-- One turn of each row, up to the blank rows at the end. -/
theorem turnRowsFrom_eq_range'_iff (start : Nat) :
    turnRowsFrom start rows =
        List.range' start (turnRowsFrom start rows).length ↔
      OneTurnEach rows := by
  induction rows generalizing start with
  | nil => simp [turnRowsFrom, OneTurnEach]
  | cons row rows ih =>
      rcases Nat.lt_trichotomy row.turnCount 1 with hcount | hcount | hcount
      · obtain hcount : row.turnCount = 0 := by omega
        have hblank : OneTurnEach (row :: rows) ↔
            ∀ later ∈ rows, later.turnCount = 0 := by
          constructor
          · intro h later hlater
            exact (List.pairwise_cons.mp h.2).1 later hlater hcount
          · intro h
            refine ⟨fun later hlater => ?_, List.pairwise_cons.mpr
              ⟨fun later hlater _ => h later hlater,
                List.pairwise_of_forall_mem_list fun _ _ later hlater _ =>
                  h later hlater⟩⟩
            rcases List.mem_cons.mp hlater with rfl | hlater
            · omega
            · rw [h later hlater]
              omega
        rw [hblank, ← turnRowsFrom_eq_nil_iff (start + 1)]
        simp only [turnRowsFrom, hcount, List.replicate_zero, List.nil_append]
        constructor
        · intro h
          cases hrest : turnRowsFrom (start + 1) rows with
          | nil => rfl
          | cons i rest =>
              have hfirst : i ∈ turnRowsFrom (start + 1) rows := by simp [hrest]
              rw [hrest, List.length_cons, List.range'_succ] at h
              have := (List.cons.inj h).1
              have := mem_turnRowsFrom hfirst
              omega
        · intro h
          rw [h]
          rfl
      · have hcons : OneTurnEach (row :: rows) ↔ OneTurnEach rows := by
          simp [OneTurnEach, hcount]
        rw [hcons, ← ih (start + 1)]
        simp only [turnRowsFrom, hcount, List.replicate_one,
          List.singleton_append, List.length_cons, List.range'_succ,
          List.cons.injEq, true_and]
      · refine iff_of_false (fun h => ?_) (fun h => ?_)
        · obtain ⟨k, hk⟩ : ∃ k, row.turnCount = k + 2 :=
            ⟨row.turnCount - 2, by omega⟩
          simp only [turnRowsFrom, hk, List.replicate_succ, List.cons_append,
            List.length_cons, List.range'_succ, List.cons.injEq] at h
          omega
        · have := h.1 row (by simp)
          omega

theorem turnRows_sorted (rows : List CanonicalTurnRow) :
    (turnRows rows).Pairwise (· ≤ ·) := by
  rw [turnRows_eq]
  exact turnRowsFrom_sorted 0 rows

theorem count_turnRows {i : Nat} (hi : i < rows.length) :
    (turnRows rows).count i = rows[i].turnCount := by
  have h := count_turnRowsFrom 0 i rows
  rw [Nat.zero_add, ← turnRows_eq] at h
  simp [h, hi]

/-! ## The cursor over the rows -/

theorem map_row_choices (pipeline : CompactionPipeline)
    (rows : List CanonicalTurnRow) :
    (pipeline.segmenter.choices "" [] (pipeline.taggedTurns rows)).map
        (·.1.pair.row) = turnRows rows := by
  rw [← map_row_taggedTurns pipeline rows]
  conv_rhs => rw [← pipeline.segmenter.map_fst_choices "" []
    (pipeline.taggedTurns rows), List.map_map]
  rfl

theorem mem_taggedTurns_of_library {group : SegmentGroup} {turn : TaggedTurn}
    (hgroup : group ∈ pipeline.library rows) (hturn : turn ∈ group.turns) :
    turn ∈ pipeline.taggedTurns rows := by
  have hmem : turn ∈ ((pipeline.library rows).map (·.turns)).flatten :=
    List.mem_flatten.mpr ⟨_, List.mem_map_of_mem hgroup, hturn⟩
  rw [turns_library] at hmem
  simpa using mem_flatten_placeAll hmem

theorem lt_of_mem_groupRows {i : Nat}
    (h : i ∈ (groupRows (pipeline.library rows)).flatten) :
    i < rows.length := by
  obtain ⟨members, hmembers, hi⟩ := List.mem_flatten.mp h
  obtain ⟨group, hgroup, rfl⟩ := List.mem_map.mp hmembers
  obtain ⟨turn, hturn, rfl⟩ := List.mem_map.mp hi
  have hrow := List.mem_map_of_mem (f := fun turn : TaggedTurn => turn.pair.row)
    (mem_taggedTurns_of_library hgroup hturn)
  rw [map_row_taggedTurns, turnRows_eq] at hrow
  simpa using (mem_turnRowsFrom hrow).2

/-- Turns that join the newest segment leave the rows in their order. -/
theorem flatten_groupRows
    (h : JoinsNewest []
      (pipeline.segmenter.choices "" [] (pipeline.taggedTurns rows))) :
    (groupRows (pipeline.library rows)).flatten = turnRows rows := by
  rw [groupRows_eq, turns_library, ← List.map_flatten, flatten_placeAll h,
    List.flatten_nil, List.nil_append, TopicSegmenter.map_fst_choices,
    map_row_taggedTurns]

theorem joinsNewest_of_atCursor
    (h : AtCursor rows.length 0 (groupRows (pipeline.library rows))) :
    JoinsNewest []
      (pipeline.segmenter.choices "" [] (pipeline.taggedTurns rows)) := by
  have horder := h.inOrder fun i hi => lt_of_mem_groupRows hi
  rw [groupRows_eq, InOrder, List.pairwise_map] at horder
  have hsorted := turnRows_sorted rows
  rw [← map_row_choices pipeline, List.pairwise_map] at hsorted
  refine joinsNewest_of_inOrder (·.pair.row)
    (pipeline.segmenter.validChoices "" [] _) (by simp) (by simp) hsorted ?_
  rw [← turns_library]
  refine horder.imp fun hlt a ha b hb => ?_
  exact hlt _ (List.mem_map_of_mem ha) _ (List.mem_map_of_mem hb)

/-- Every message of a turn is of the row of the turn. -/
theorem row_of_mem_taggedTurns {turn : TaggedTurn}
    (h : turn ∈ pipeline.taggedTurns rows) :
    turn.pair.messages ≠ [] ∧
      ∀ msg ∈ turn.pair.messages, msg.row = some turn.pair.row := by
  have hpair := List.mem_map_of_mem (f := (·.pair)) h
  rw [CompactionPipeline.taggedTurns, map_pair_tagTurns,
    pairTurns_messagesOfRows] at hpair
  obtain ⟨chunk, hchunk, hmem⟩ := List.mem_flatten.mp (List.mem_filter.mp hpair).1
  obtain ⟨i, hi, rfl⟩ := List.mem_mapIdx.mp hchunk
  obtain ⟨hne, hrow⟩ := row_of_mem_pairTurns hmem
  rw [TurnPair.row_eq hne hrow]
  exact ⟨hne, hrow⟩

theorem mem_rowNumbers_iff {group : SegmentGroup} {seg : TaggedSegment}
    (hgroup : group ∈ pipeline.library rows) (hbuilt : BuiltFrom group seg)
    (i : Nat) :
    i ∈ seg.rowNumbers ↔ i ∈ group.turns.map (·.pair.row) := by
  rw [TaggedSegment.rowNumbers, hbuilt.messages, List.mem_filterMap,
    List.mem_map]
  constructor
  · rintro ⟨msg, hmsg, hrow⟩
    obtain ⟨turn, hturn, hmsg⟩ := List.mem_flatMap.mp hmsg
    have := (row_of_mem_taggedTurns
      (mem_taggedTurns_of_library hgroup hturn)).2 msg hmsg
    exact ⟨turn, hturn, Option.some.inj (this.symm.trans hrow)⟩
  · rintro ⟨turn, hturn, rfl⟩
    obtain ⟨hne, hrow⟩ := row_of_mem_taggedTurns
      (mem_taggedTurns_of_library hgroup hturn)
    obtain ⟨msg, hmsg⟩ := List.exists_mem_of_ne_nil _ hne
    exact ⟨msg, List.mem_flatMap.mpr ⟨turn, hturn, hmsg⟩, hrow msg hmsg⟩

/-- The row of each turn of each segment, and what the cursor counts. -/
def HasRows (members : List Nat) (seg : TaggedSegment) : Prop :=
  (∀ i, i ∈ seg.rowNumbers ↔ i ∈ members) ∧ seg.turnCount = members.length

theorem hasRows_segmentRows (pipeline : CompactionPipeline)
    (rows : List CanonicalTurnRow) :
    List.Forall₂ HasRows (groupRows (pipeline.library rows))
      (pipeline.segmentRows rows) := by
  refine List.forall₂_map_left_iff.mpr ?_
  have hboth : List.Forall₂ (fun group seg =>
      group ∈ pipeline.library rows ∧ BuiltFrom group seg)
      (pipeline.library rows) (pipeline.segmentRows rows) := by
    have hbuilt := builtFrom_segmentRows pipeline rows
    rw [List.forall₂_iff_get] at hbuilt ⊢
    exact ⟨hbuilt.1, fun i hi hi' => ⟨List.getElem_mem hi, hbuilt.2 i hi hi'⟩⟩
  refine hboth.imp fun group seg h => ⟨mem_rowNumbers_iff h.1 h.2, ?_⟩
  rw [h.2.turnCount, List.length_map]

/-- The rows that the cursor attributes are those of the segment. -/
def RowsMatch (rows : List CanonicalTurnRow)
    (attributed : TaggedSegment × Attribution) : Prop :=
  ∀ row ∈ rows, row.canonicalTurnId ∈ attributed.2.canonicalTurnIds ↔
    OwnRow rows attributed.1 row

theorem ownRow_iff (hrows : CompactableRows rows) {seg : TaggedSegment}
    {i : Nat} (hi : i < rows.length) :
    OwnRow rows seg rows[i] ↔ i ∈ seg.rowNumbers := by
  constructor
  · rintro ⟨j, hj, hget⟩
    obtain ⟨hlt, heq⟩ := List.getElem?_eq_some_iff.mp hget
    rwa [← (List.Nodup.getElem_inj_iff hrows.distinct.of_map).mp heq]
  · intro h
    exact ⟨i, h, List.getElem?_eq_getElem hi⟩

theorem mem_attribution_iff (hrows : CompactableRows rows) {i : Nat}
    (hi : i < rows.length) (segCursor count : Nat) :
    rows[i].canonicalTurnId ∈ (pipeline.attribution segCursor count
        ((rows.drop segCursor).take count)).canonicalTurnIds ↔
      segCursor ≤ i ∧ i < segCursor + count := by
  have hid := hrows.ids _ (List.getElem_mem hi)
  simp only [CompactionPipeline.attribution, List.mem_filter, List.mem_map,
    decide_eq_true_eq]
  constructor
  · rintro ⟨⟨row, hrow, heq⟩, -⟩
    obtain ⟨k, hk, rfl⟩ := List.mem_iff_getElem.mp hrow
    rw [List.length_take, List.length_drop] at hk
    rw [List.getElem_take, List.getElem_drop] at heq
    have hsame := List.inj_on_of_nodup_map hrows.distinct
      (List.getElem_mem _) (List.getElem_mem hi) heq
    have := (List.Nodup.getElem_inj_iff hrows.distinct.of_map).mp hsame
    omega
  · rintro ⟨hle, hlt⟩
    refine ⟨⟨rows[i], ?_, rfl⟩, hid⟩
    rw [List.mem_iff_getElem]
    refine ⟨i - segCursor, ?_, ?_⟩
    · rw [List.length_take, List.length_drop]
      omega
    · simp [Nat.add_sub_cancel' hle]

/-- The cursor finds the rows of every segment. -/
theorem rowsMatch_iff (pipeline : CompactionPipeline)
    (hrows : CompactableRows rows)
    {library : List (List Nat)} {segments : List TaggedSegment}
    (hsegments : List.Forall₂ HasRows library segments)
    (hne : ∀ members ∈ library, members ≠ []) (segCursor : Nat) :
    (∀ attributed ∈ pipeline.attributeRows rows segCursor segments,
        RowsMatch rows attributed) ↔
      AtCursor rows.length segCursor library := by
  induction hsegments generalizing segCursor with
  | nil => simp [CompactionPipeline.attributeRows, AtCursor]
  | @cons members seg library segments hhead htail ih =>
      have hcount : seg.turnCount ≠ 0 := by
        rw [hhead.2]
        exact mt List.length_eq_zero_iff.mp (hne members (by simp))
      have hne' := fun m hm => hne m (List.mem_cons_of_mem members hm)
      rw [CompactionPipeline.attributeRows, List.forall_mem_cons, AtCursor,
        if_pos hcount, hhead.2, ih hne']
      refine and_congr_left fun _ => ?_
      constructor
      · intro h i hi
        have hmatch := h rows[i] (List.getElem_mem hi)
        rw [mem_attribution_iff hrows hi, ownRow_iff hrows hi, hhead.1] at hmatch
        exact hmatch.symm
      · intro h row hrow
        obtain ⟨i, hi, rfl⟩ := List.mem_iff_getElem.mp hrow
        rw [mem_attribution_iff hrows hi, ownRow_iff hrows hi, hhead.1]
        exact (h i hi).symm

/-! ## The condition -/

theorem covers_iff_splitInLast (hrows : CompactableRows rows)
    (hflatten : (groupRows (pipeline.library rows)).flatten = turnRows rows) :
    Covers rows.length 0 (groupRows (pipeline.library rows)) ↔
      pipeline.SplitInLast rows := by
  have hsegments := hasRows_segmentRows pipeline rows
  have hlast : List.Forall₂ HasRows (groupRows (pipeline.library rows)).dropLast
      (pipeline.segmentRows rows).dropLast := by
    rw [List.dropLast_eq_take, List.dropLast_eq_take, hsegments.length_eq]
    exact List.forall₂_take _ hsegments
  have hpos : ∀ {i : Nat} (hi : i < rows.length),
      i ∈ turnRows rows ↔ 1 ≤ rows[i].turnCount := by
    intro i hi
    rw [← count_turnRows hi]
    exact List.count_pos_iff.symm
  constructor
  · intro h
    refine ⟨fun row hrow => ?_, fun seg hseg row hown => ?_⟩
    · obtain ⟨i, hi, rfl⟩ := List.mem_iff_getElem.mp hrow
      rw [← hpos hi, ← hflatten]
      exact h.all i hi (Nat.zero_le i)
    · obtain ⟨k, hk, rfl⟩ := List.mem_iff_getElem.mp hseg
      obtain ⟨i, hnumber, hget⟩ := hown
      obtain ⟨hi, rfl⟩ := List.getElem?_eq_some_iff.mp hget
      have hk' : k < (groupRows (pipeline.library rows)).dropLast.length := by
        rwa [hlast.length_eq]
      have hhas := (List.forall₂_iff_get.mp hlast).2 k hk' hk
      rw [← count_turnRows hi, ← hflatten]
      exact h.once _ (List.getElem_mem hk') i ((hhas.1 i).mp hnumber)
  · intro h
    refine ⟨fun i hi _ => ?_, fun members hmembers i hi => ?_⟩
    · rw [hflatten, hpos hi]
      exact h.1 _ (List.getElem_mem hi)
    · obtain ⟨k, hk, rfl⟩ := List.mem_iff_getElem.mp hmembers
      have hk' : k < (pipeline.segmentRows rows).dropLast.length := by
        rwa [← hlast.length_eq]
      have hhas := (List.forall₂_iff_get.mp hlast).2 k hk hk'
      have hlt : i < rows.length := lt_of_mem_groupRows
        (List.mem_flatten.mpr ⟨_, List.dropLast_subset _ hmembers, hi⟩)
      rw [hflatten, count_turnRows hlt]
      exact h.2 _ (List.getElem_mem hk') _
        ((ownRow_iff hrows hlt).mpr ((hhas.1 i).mpr hi))

/-- The cursor is right exactly if the segments follow the rows. -/
theorem atCursor_iff_segmentsInTurn (hrows : CompactableRows rows) :
    AtCursor rows.length 0 (groupRows (pipeline.library rows)) ↔
      pipeline.SegmentsInTurn rows := by
  have hiff (hjoins : JoinsNewest [] (pipeline.segmenter.choices "" []
      (pipeline.taggedTurns rows))) :
      AtCursor rows.length 0 (groupRows (pipeline.library rows)) ↔
        OneTurnEach rows ∨ pipeline.SplitInLast rows := by
    have hflatten := flatten_groupRows hjoins
    rw [atCursor_iff (groupRows_ne_nil _) (fun i hi => lt_of_mem_groupRows hi)
      (by rw [hflatten]; exact turnRows_sorted rows),
      covers_iff_splitInLast hrows hflatten, hflatten, turnRows_eq,
      List.range_eq_range', turnRowsFrom_eq_range'_iff 0]
  constructor
  · intro h
    have hjoins := joinsNewest_of_atCursor h
    exact ⟨hjoins, (hiff hjoins).mp h⟩
  · rintro ⟨hjoins, h⟩
    exact (hiff hjoins).mpr h

/-! ## What is written -/

/-- The segment is stored with what was attributed to it. -/
structure WrittenWith (attributed : TaggedSegment × Attribution)
    (w : SegmentWrite) : Prop where
  rows : w.segment.rowNumbers = attributed.1.rowNumbers
  ids : w.stored.metadata.canonicalTurnIds = attributed.2.canonicalTurnIds
  range : w.segment.mergeRef = "" →
    attributed.2.turnRange.1 < attributed.2.turnRange.2 →
      w.stored.metadata.startTurnNumber = attributed.2.turnRange.1 ∧
        w.stored.metadata.endTurnNumber = attributed.2.turnRange.2 - 1

/-- The segment is prepared with what was attributed to it. -/
structure PreparedWith (attributed : TaggedSegment × Attribution)
    (prepared : PreparedSegment) : Prop where
  rows : prepared.segment.rowNumbers = attributed.1.rowNumbers
  attribution : prepared.attribution = attributed.2

theorem writtenWith_passthrough (seg : TaggedSegment)
    (attribution : Attribution) :
    WrittenWith (seg, attribution)
      ⟨seg, pipeline.passthrough seg attribution⟩ where
  rows := rfl
  ids := rfl
  range _ hlt := ⟨rfl, if_pos hlt⟩

theorem rowNumbers_mergeInto (seg : TaggedSegment) (candidate : StoredSegment) :
    (CompactionPipeline.mergeInto seg candidate).rowNumbers =
      seg.rowNumbers := by
  simp [TaggedSegment.rowNumbers, CompactionPipeline.mergeInto,
    List.filterMap_map, Function.comp_def]

theorem writtenWith_compacted {attributed : TaggedSegment × Attribution}
    {prepared : PreparedSegment} (h : PreparedWith attributed prepared)
    (result : CompactionResult) :
    WrittenWith attributed
      ⟨prepared.segment, pipeline.compacted prepared result⟩ where
  rows := h.rows
  ids := by rw [← h.attribution]; rfl
  range hnew hlt := by
    have hnew' : prepared.segment.mergeRef = "" := hnew
    rw [← h.attribution] at hlt ⊢
    simp [CompactionPipeline.compacted, CompactionPipeline.exactRange,
      hlt, hnew']

variable {c c' : Conn Tables}

/-- The first pass stores some segments and prepares the others. -/
theorem prepare_run {attributed : List (TaggedSegment × Attribution)}
    {stubs : List SegmentWrite} {prepared : List PreparedSegment}
    (hrun : (pipeline.prepare attributed).run .quiet c =
      (.ok (stubs, prepared), c')) :
    ∃ stored kept, (stored ++ kept).Perm attributed ∧
      List.Forall₂ WrittenWith stored stubs ∧
      List.Forall₂ PreparedWith kept prepared := by
  induction attributed generalizing c c' stubs prepared with
  | nil =>
      cases hrun
      exact ⟨[], [], List.Perm.refl _, .nil, .nil⟩
  | cons first rest ih =>
      obtain ⟨seg, attribution⟩ := first
      rw [CompactionPipeline.prepare] at hrun
      by_cases hstub : pipeline.isStubContent (joinContents seg.messages)
      · rw [if_pos hstub, Program.run_bind] at hrun
        obtain ⟨ref, between, -, hrun⟩ := Program.andThen_eq_ok hrun
        rw [Program.run_bind] at hrun
        obtain ⟨⟨written, prepared'⟩, last, hrest, hrun⟩ :=
          Program.andThen_eq_ok hrun
        cases hrun
        obtain ⟨stored, kept, hperm, hstored, hkept⟩ := ih hrest
        exact ⟨(seg, attribution) :: stored, kept, hperm.cons _,
          hstored.cons (writtenWith_passthrough seg attribution), hkept⟩
      · rw [if_neg hstub, Program.run_bind] at hrun
        obtain ⟨candidates, between, -, hrun⟩ := Program.andThen_eq_ok hrun
        rw [Program.run_bind] at hrun
        obtain ⟨⟨written, prepared'⟩, last, hrest, hrun⟩ :=
          Program.andThen_eq_ok hrun
        obtain ⟨stored, kept, hperm, hstored, hkept⟩ := ih hrest
        refine ⟨stored, (seg, attribution) :: kept,
          List.perm_middle.trans (hperm.cons _), ?_, ?_⟩
        · cases hrun
          exact hstored
        · cases hrun
          split
          · exact .cons ⟨rowNumbers_mergeInto _ _, rfl⟩ hkept
          · exact .cons ⟨rfl, rfl⟩ hkept

theorem storeResults_run
    {attributed : List (TaggedSegment × Attribution)}
    {prepared : List PreparedSegment} {results : List CompactionResult}
    {written : List SegmentWrite}
    (hprepared : List.Forall₂ PreparedWith attributed prepared)
    (hlength : results.length = prepared.length)
    (hrun : (pipeline.storeResults (prepared.zip results)).run .quiet c =
      (.ok written, c')) :
    List.Forall₂ WrittenWith attributed written := by
  induction hprepared generalizing results c c' written with
  | nil =>
      cases hrun
      exact .nil
  | cons hhead htail ih =>
      cases results with
      | nil => cases hlength
      | cons result results =>
          rw [List.zip_cons_cons, CompactionPipeline.storeResults,
            Program.run_bind] at hrun
          obtain ⟨ref, between, -, hrun⟩ := Program.andThen_eq_ok hrun
          rw [Program.run_bind] at hrun
          obtain ⟨written', last, hrest, hrun⟩ := Program.andThen_eq_ok hrun
          cases hrun
          exact .cons (writtenWith_compacted hhead result)
            (ih (by simpa using hlength) hrest)

/-- The compactor returns one result for each segment. -/
def CompactionPipeline.CompactsEach (pipeline : CompactionPipeline) : Prop :=
  ∀ prepared, (pipeline.compact prepared).length = prepared.length

/-- Each segment is stored once, with what was attributed to it. -/
theorem runCompaction_written (hcompact : pipeline.CompactsEach)
    {written : List SegmentWrite}
    (hrun : (pipeline.runCompaction rows).run .quiet c = (.ok written, c')) :
    ∃ order, order.Perm
        (pipeline.attributeRows rows 0 (pipeline.segmentRows rows)) ∧
      List.Forall₂ WrittenWith order written := by
  rw [CompactionPipeline.runCompaction, Program.run_bind] at hrun
  obtain ⟨written', between, hstore, hrun⟩ := Program.andThen_eq_ok hrun
  obtain rfl : written' = written := by
    rw [Program.run_bind] at hrun
    obtain ⟨count, last, -, hrun⟩ := Program.andThen_eq_ok hrun
    cases hrun
    rfl
  rw [CompactionPipeline.compactAndStore, Program.run_bind] at hstore
  obtain ⟨⟨stubs, prepared⟩, first, hprepare, hstore⟩ :=
    Program.andThen_eq_ok hstore
  rw [Program.run_bind] at hstore
  obtain ⟨results, last, hresults, hstore⟩ := Program.andThen_eq_ok hstore
  cases hstore
  obtain ⟨stored, kept, hperm, hstubs, hkept⟩ := prepare_run hprepare
  refine ⟨stored ++ kept, hperm, List.rel_append hstubs ?_⟩
  refine storeResults_run hkept ?_ hresults
  rw [hcompact, List.length_map]

/-! ## From the writes to the rows -/

theorem ownRow_congr {seg seg' : TaggedSegment}
    (h : seg.rowNumbers = seg'.rowNumbers) (row : CanonicalTurnRow) :
    OwnRow rows seg row ↔ OwnRow rows seg' row := by
  rw [OwnRow, OwnRow, h]

/-- A list of consecutive rows, as the cursor takes them. -/
theorem exists_slice_of_attributed {segments : List TaggedSegment}
    {attributed : TaggedSegment × Attribution} {segCursor : Nat}
    (h : attributed ∈ pipeline.attributeRows rows segCursor segments) :
    attributed.1 ∈ segments ∧ ∃ cursor count segRows, segRows.Sublist rows ∧
      attributed.2 = pipeline.attribution cursor count segRows := by
  induction segments generalizing segCursor with
  | nil => cases h
  | cons seg segments ih =>
      rw [CompactionPipeline.attributeRows] at h
      rcases List.mem_cons.mp h with rfl | h
      · exact ⟨by simp, _, _, _,
          (List.take_sublist _ _).trans (List.drop_sublist _ _), rfl⟩
      · obtain ⟨hseg, hslice⟩ := ih h
        exact ⟨List.mem_cons_of_mem _ hseg, hslice⟩

theorem mem_ids_attribution {cursor count : Nat}
    {segRows : List CanonicalTurnRow} {id : Uuid} :
    id ∈ (pipeline.attribution cursor count segRows).canonicalTurnIds ↔
      (∃ row ∈ segRows, row.canonicalTurnId = id) ∧ id ≠ 0 := by
  simp [CompactionPipeline.attribution]

/-- Every segment has a row. -/
theorem exists_ownRow {seg : TaggedSegment}
    (h : seg ∈ pipeline.segmentRows rows) : ∃ row, OwnRow rows seg row := by
  have hsegments := hasRows_segmentRows pipeline rows
  obtain ⟨k, hk, rfl⟩ := List.mem_iff_getElem.mp h
  have hk' : k < (groupRows (pipeline.library rows)).length := by
    rwa [hsegments.length_eq]
  have hhas := (List.forall₂_iff_get.mp hsegments).2 k hk' hk
  obtain ⟨i, hi⟩ := List.exists_mem_of_ne_nil _
    (groupRows_ne_nil _ _ (List.getElem_mem hk'))
  have hlt : i < rows.length := lt_of_mem_groupRows
    (List.mem_flatten.mpr ⟨_, List.getElem_mem hk', hi⟩)
  exact ⟨rows[i], i, (hhas.1 i).mpr hi, List.getElem?_eq_getElem hlt⟩

theorem OwnRow.mem {seg : TaggedSegment} {row : CanonicalTurnRow}
    (h : OwnRow rows seg row) : row ∈ rows := by
  obtain ⟨i, -, hget⟩ := h
  exact List.mem_of_getElem? hget

/-- Rows that the cursor found are named with their range. -/
theorem namesRows_of_rowsMatch (hrows : CompactableRows rows)
    {attributed : TaggedSegment × Attribution} {w : SegmentWrite}
    (hattributed : attributed ∈
      pipeline.attributeRows rows 0 (pipeline.segmentRows rows))
    (hmatch : RowsMatch rows attributed) (hwritten : WrittenWith attributed w)
    (hnew : w.segment.mergeRef = "") : NamesRows rows w := by
  obtain ⟨hseg, cursor, count, segRows, hsub, hslice⟩ :=
    exists_slice_of_attributed hattributed
  have hown (row : CanonicalTurnRow) : OwnRow rows w.segment row ↔
      row ∈ segRows := by
    rw [ownRow_congr hwritten.rows]
    constructor
    · intro h
      have hid := (hmatch row h.mem).mpr h
      rw [hslice, mem_ids_attribution] at hid
      obtain ⟨⟨row', hrow', heq⟩, -⟩ := hid
      rwa [← List.inj_on_of_nodup_map hrows.distinct (hsub.subset hrow') h.mem
        heq]
    · intro h
      refine (hmatch row (hsub.subset h)).mp ?_
      rw [hslice, mem_ids_attribution]
      exact ⟨⟨row, h, rfl⟩, hrows.ids row (hsub.subset h)⟩
  have hne : segRows ≠ [] := by
    obtain ⟨row, hrow⟩ := exists_ownRow hseg
    rw [← ownRow_congr hwritten.rows, hown] at hrow
    exact List.ne_nil_of_mem hrow
  have hordered := hrows.ordered.sublist hsub
  obtain ⟨first, rest, hfirst⟩ := List.exists_cons_of_ne_nil hne
  obtain ⟨front, last, hlast⟩ :=
    (List.eq_nil_or_concat segRows).resolve_left hne
  rw [List.concat_eq_append] at hlast
  have hrange : attributed.2.turnRange =
      (first.turnNumber, last.turnNumber + 1) := by
    have hhead : segRows.head? = some first := by simp [hfirst]
    have hgetLast : segRows.getLast? = some last := by simp [hlast]
    simp [hslice, CompactionPipeline.attribution, hhead, hgetLast]
  have hleast : ∀ row ∈ segRows, first.turnNumber ≤ row.turnNumber := by
    intro row hrow
    rw [hfirst] at hordered hrow
    rcases List.mem_cons.mp hrow with rfl | hrow
    · exact le_refl _
    · exact ((List.pairwise_cons.mp hordered).1 row hrow).le
  have hgreatest : ∀ row ∈ segRows, row.turnNumber ≤ last.turnNumber := by
    intro row hrow
    rw [hlast] at hordered hrow
    rcases List.mem_append.mp hrow with hrow | hrow
    · exact ((List.pairwise_append.mp hordered).2.2 row hrow last (by simp)).le
    · rw [List.mem_singleton.mp hrow]
  have hmemFirst : first ∈ segRows := by simp [hfirst]
  have hmemLast : last ∈ segRows := by simp [hlast]
  have hle := hleast last hmemLast
  obtain ⟨hstart, hstop⟩ := hwritten.range hnew (by rw [hrange]; dsimp; omega)
  rw [hrange] at hstart hstop
  refine ⟨fun id => ?_, ?_, ?_⟩
  · rw [hwritten.ids, hslice, mem_ids_attribution]
    constructor
    · rintro ⟨⟨row, hrow, rfl⟩, -⟩
      exact ⟨row, (hown row).mpr hrow, rfl⟩
    · rintro ⟨row, hrow, rfl⟩
      exact ⟨⟨row, (hown row).mp hrow, rfl⟩, hrows.ids row hrow.mem⟩
  · rw [hstart]
    refine ⟨⟨first, (hown first).mpr hmemFirst, rfl⟩, ?_⟩
    rintro number ⟨row, hrow, rfl⟩
    exact hleast row ((hown row).mp hrow)
  · rw [hstop, add_sub_cancel_right]
    refine ⟨⟨last, (hown last).mpr hmemLast, rfl⟩, ?_⟩
    rintro number ⟨row, hrow, rfl⟩
    exact hgreatest row ((hown row).mp hrow)

/-- What is named comes from the rows to compact. -/
theorem exists_row_of_named {attributed : TaggedSegment × Attribution}
    {w : SegmentWrite}
    (hattributed : attributed ∈
      pipeline.attributeRows rows 0 (pipeline.segmentRows rows))
    (hwritten : WrittenWith attributed w) {id : Uuid}
    (hid : id ∈ w.stored.metadata.canonicalTurnIds) :
    ∃ row ∈ rows, row.canonicalTurnId = id := by
  obtain ⟨-, cursor, count, segRows, hsub, hslice⟩ :=
    exists_slice_of_attributed hattributed
  rw [hwritten.ids, hslice, mem_ids_attribution] at hid
  obtain ⟨⟨row, hrow, heq⟩, -⟩ := hid
  exact ⟨row, hsub.subset hrow, heq⟩

/-- A segment that names its rows was given them by the cursor. -/
theorem rowsMatch_of_named (hrows : CompactableRows rows)
    {attributed : TaggedSegment × Attribution} {w : SegmentWrite}
    {before : List Uuid} (hwritten : WrittenWith attributed w)
    (h : if w.segment.mergeRef = "" then NamesRows rows w
      else KeepsNames rows before w) : RowsMatch rows attributed := by
  intro row hrow
  rw [← ownRow_congr hwritten.rows, ← hwritten.ids]
  split_ifs at h
  · rw [h.ids]
    constructor
    · rintro ⟨row', hown, heq⟩
      rwa [← List.inj_on_of_nodup_map hrows.distinct hown.mem hrow heq]
    · exact fun hown => ⟨row, hown, rfl⟩
  · constructor
    · exact h.rows row hrow
    · exact fun hown => (h.ids _).mpr (.inr ⟨row, hown, rfl⟩)

end Rows

/--
A run that returns gives every segment its provenance exactly if the segments
follow the rows and no stored segment that is merged into names other rows.
-/
theorem provenance_iff {pipeline : CompactionPipeline}
    {rows : List CanonicalTurnRow} (hrows : CompactableRows rows)
    (hcompact : pipeline.CompactsEach) {t : Tables} {n : Nat}
    {written : List SegmentWrite} {c : Conn Tables}
    (hrun : (pipeline.runCompaction rows).run .quiet (.idle t n) =
      (.ok written, c)) :
    Provenance t pipeline.guard rows written ↔
      pipeline.SegmentsInTurn rows ∧
        MergesOwn t pipeline.guard rows written := by
  obtain ⟨order, hperm, hwritten⟩ := runCompaction_written hcompact hrun
  rw [← atCursor_iff_segmentsInTurn hrows,
    ← rowsMatch_iff pipeline hrows
      (hasRows_segmentRows pipeline rows) (groupRows_ne_nil _) 0]
  -- every write is of an attributed segment, and every such segment is written
  have hsource : ∀ w ∈ written, ∃ attributed ∈
      pipeline.attributeRows rows 0 (pipeline.segmentRows rows),
        WrittenWith attributed w := by
    intro w hw
    obtain ⟨k, hk, rfl⟩ := List.mem_iff_getElem.mp hw
    have hk' : k < order.length := by rwa [hwritten.length_eq]
    exact ⟨order[k], hperm.mem_iff.mp (List.getElem_mem hk'),
      (List.forall₂_iff_get.mp hwritten).2 k hk' hk⟩
  constructor
  · intro h
    refine ⟨fun attributed hattributed => ?_,
      fun earlier w later hsplit hmerged id hid => ?_⟩
    · obtain ⟨k, hk, rfl⟩ :=
        List.mem_iff_getElem.mp (hperm.mem_iff.mpr hattributed)
      have hk' : k < written.length := by rwa [← hwritten.length_eq]
      exact rowsMatch_of_named hrows
        ((List.forall₂_iff_get.mp hwritten).2 k hk hk')
        (h (written.take k) written[k] (written.drop (k + 1))
          (by simp))
    · have hkeeps := h earlier w later hsplit
      rw [if_neg hmerged] at hkeeps
      obtain ⟨attributed, hattributed, hwith⟩ := hsource w (by simp [hsplit])
      have hnamed := (hkeeps.ids id).mpr (.inl hid)
      obtain ⟨row, hrow, rfl⟩ := exists_row_of_named hattributed hwith hnamed
      exact ⟨row, hkeeps.rows row hrow hnamed, rfl⟩
  · rintro ⟨hmatch, hmerges⟩ earlier w later hsplit
    obtain ⟨attributed, hattributed, hwith⟩ := hsource w (by simp [hsplit])
    have hrowsMatch := hmatch attributed hattributed
    split_ifs with hnew
    · exact namesRows_of_rowsMatch hrows hattributed hrowsMatch hwith hnew
    · have hnamed : ∀ row ∈ rows,
          row.canonicalTurnId ∈ w.stored.metadata.canonicalTurnIds ↔
            OwnRow rows w.segment row := by
        intro row hrow
        rw [hwith.ids, ownRow_congr hwith.rows]
        exact hrowsMatch row hrow
      refine ⟨fun id => ⟨fun hid => ?_, fun hid => ?_⟩,
        fun row hrow => (hnamed row hrow).mp⟩
      · obtain ⟨row, hrow, rfl⟩ := exists_row_of_named hattributed hwith hid
        exact .inr ⟨row, (hnamed row hrow).mp hid, rfl⟩
      · obtain ⟨row, hown, rfl⟩ : ∃ row, OwnRow rows w.segment row ∧
            row.canonicalTurnId = id := by
          rcases hid with hid | hid
          · exact hmerges earlier w later hsplit hnew id hid
          · exact hid
        exact (hnamed row hown.mem).mpr hown

/-- Two topics, the one of the second turn and the one of all others. -/
def twoTopics : CompactionPipeline where
  conversationId := "chat"
  mergeLookback := 0
  maxSegmentTokens := 4000
  mergeOverlapThreshold := 1 / 2
  segmenter :=
    { tokenCounter := fun _ => 1
      tagsOfTurn := fun turn _ =>
        if turn = 1 then ⟨["music"], "music"⟩ else ⟨["food"], "food"⟩
      exceedsSessionGap := fun _ _ => false
      computeRelatedness := fun _ _ _ _ => 0 }
  supply := ⟨fun k => if k = 0 then "s0" else "s1", fun _ => ""⟩
  closerToPrevious := fun _ _ _ => true
  isStubContent := fun _ => false
  entryOfTurn := fun _ => none
  computeRelatedness := fun _ _ => 0
  recency := fun _ => 1
  compact := List.map fun prepared =>
    { segmentId := prepared.1.id, primaryTag := prepared.1.primaryTag,
      messages := prepared.1.messages.map (·.stored) }
  modelName := "model"
  generatedByTurnId := ""
  now := ""
  guard := none

theorem compactsEach_twoTopics : twoTopics.CompactsEach :=
  fun _ => List.length_map _

/-- Complete turns with the identifiers 1, 2, ... -/
def chatRows (texts : List (String × String)) : List CanonicalTurnRow :=
  texts.mapIdx fun i text =>
    { conversationId := "chat", canonicalTurnId := i + 1, turnNumber := i,
      userContent := text.1, assistantContent := text.2 }

/-- One turn, one segment. -/
theorem provenance_iff_oneTurn :
    ∃ written, Provenance {} none (chatRows [("q", "a")]) written ↔
      twoTopics.SegmentsInTurn (chatRows [("q", "a")]) ∧
        MergesOwn {} none (chatRows [("q", "a")]) written := by
  have hrun : ((twoTopics.runCompaction (chatRows [("q", "a")])).run .quiet
      (.idle {} 0)).1.toBool = true := by decide +kernel
  generalize hresult : (twoTopics.runCompaction (chatRows [("q", "a")])).run
    .quiet (.idle {} 0) = result at hrun
  obtain ⟨outcome | written, c⟩ := result
  · cases hrun
  · refine ⟨written, provenance_iff
      ⟨by decide, by decide, ?_⟩ compactsEach_twoTopics hresult⟩
    exact List.pairwise_singleton _ _

/-- The third turn is one of the first segment; its row is not named there. -/
theorem third_row_misattributed :
    ∃ written, ((twoTopics.runCompaction
        (chatRows [("q1", "a1"), ("q2", "a2"), ("q3", "a3")])).run .quiet
        (.idle {} 0)).1.toOption = some written ∧
      ¬ Provenance {} none
        (chatRows [("q1", "a1"), ("q2", "a2"), ("q3", "a3")]) written := by
  generalize hrows : chatRows [("q1", "a1"), ("q2", "a2"), ("q3", "a3")] = rows
  have hshape : ((twoTopics.runCompaction rows).run .quiet
      (.idle {} 0)).1.toOption.map (fun written => written.map fun w =>
        (w.segment.mergeRef, w.segment.rowNumbers,
          w.stored.metadata.canonicalTurnIds)) =
      some [("", [0, 0, 2, 2], [1, 2]), ("", [1, 1], [3])] := by
    rw [← hrows]
    decide +kernel
  obtain ⟨written, hwritten, hshape⟩ := Option.map_eq_some_iff.mp hshape
  refine ⟨written, hwritten, fun h => ?_⟩
  cases written with
  | nil => cases hshape
  | cons w later =>
      obtain ⟨hw, -⟩ := List.cons.inj hshape
      simp only [Prod.mk.injEq] at hw
      obtain ⟨hnew, hnumbers, hids⟩ := hw
      have hnames := h [] w later rfl
      rw [if_pos hnew] at hnames
      obtain ⟨third, hget, hid⟩ : ∃ third, rows[2]? = some third ∧
          third.canonicalTurnId = 3 := by
        rw [← hrows]
        exact ⟨_, rfl, rfl⟩
      have hnamed := (hnames.ids 3).mpr ⟨third, ⟨2, by simp [hnumbers], hget⟩, hid⟩
      simp [hids] at hnamed

end VirtualContext
