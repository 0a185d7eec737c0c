import VirtualContext.Storage.GroupingFacts
import VirtualContext.Storage.StoreRuns

/-!
# Marking turns as compacted

`get_uncompacted_canonical_turns` selects logical turns, and
`mark_canonical_turns_compacted` marks the rows of the given identifiers with
every row that shares a group number with one of them.  The marked rows are
those of the chosen turns exactly if the group numbers follow the turns.
-/

namespace VirtualContext

open VirtualContext.Library

/-! ## Open turns -/

def CanonicalTurnRow.isUncompacted (row : CanonicalTurnRow) : Bool :=
  (orNone row.compactedAt).isNone

/-- The turns that are not compacted, with their member rows. -/
def openTurns (rows : List CanonicalTurnRow) :
    List (Int × List CanonicalTurnRow) :=
  (groupedRows rows).filter fun turn => turn.2.any (·.isUncompacted)

/-- The identifier that a turn is marked by. -/
def turnId : List CanonicalTurnRow → Uuid
  | [] => 0
  | first :: rest => (identityRow first rest).canonicalTurnId

/-- The group number of the row with that identifier. -/
def turnGroup : List CanonicalTurnRow → Int
  | [] => -1
  | first :: rest => (identityRow first rest).turnGroupNumber

theorem exists_identity {members : List CanonicalTurnRow} (h : members ≠ []) :
    ∃ row ∈ members, row.canonicalTurnId = turnId members ∧
      row.turnGroupNumber = turnGroup members := by
  obtain ⟨first, rest, rfl⟩ := List.exists_cons_of_ne_nil h
  exact ⟨_, identityRow_mem first rest, rfl, rfl⟩

theorem mem_openTurns {rows : List CanonicalTurnRow}
    {turn : Int × List CanonicalTurnRow} :
    turn ∈ openTurns rows ↔
      turn ∈ groupedRows rows ∧ ∃ row ∈ turn.2, row.isUncompacted := by
  simp [openTurns]

/-- The selection over merged rows is the selection over member rows. -/
theorem uncompactedTurns_eq {rows : List CanonicalTurnRow}
    (hids : ∀ row ∈ rows, row.canonicalTurnId ≠ 0)
    (protectedRecentTurns : Nat) :
    (uncompactedTurns protectedRecentTurns rows).map
        (fun turn => (turn.1, turn.2.canonicalTurnId)) =
      ((openTurns rows).map fun turn => (turn.1, turnId turn.2)).take
        ((openTurns rows).length - protectedRecentTurns) := by
  have hmerge : ∀ turns : List (Int × List CanonicalTurnRow),
      (∀ turn ∈ turns, turn.2 ≠ [] ∧ ∀ row ∈ turn.2, row.canonicalTurnId ≠ 0) →
      ((turns.filterMap mergeGroup).filter
            (fun turn => (orNone turn.2.compactedAt).isNone)).map
          (fun turn => (turn.1, turn.2.canonicalTurnId)) =
        (turns.filter fun turn => turn.2.any (·.isUncompacted)).map
          fun turn => (turn.1, turnId turn.2) := by
    intro turns
    induction turns with
    | nil => exact fun _ => rfl
    | cons turn turns ih =>
        intro h
        have hrest := ih fun t ht => h t (List.mem_cons_of_mem _ ht)
        obtain ⟨hne, hturn⟩ := h turn List.mem_cons_self
        obtain ⟨number, members⟩ := turn
        obtain ⟨first, rest, rfl⟩ := List.exists_cons_of_ne_nil hne
        have hopen : (orNone (mergeTurn number first rest).compactedAt).isNone =
            (first :: rest).any (·.isUncompacted) := by
          rw [Bool.eq_iff_iff, Option.isNone_iff_eq_none, List.any_eq_true]
          refine (stampOfAll_isNone_iff (by simp)).trans ?_
          simp [CanonicalTurnRow.isUncompacted]
        rw [show ((number, first :: rest) :: turns).filterMap mergeGroup =
          (number, mergeTurn number first rest) :: turns.filterMap mergeGroup
          from rfl]
        rw [List.filter_cons, List.filter_cons, hopen]
        split_ifs
        · rw [List.map_cons, List.map_cons, hrest, mergeTurn_id hturn]
          rfl
        · exact hrest
  have hall := hmerge (groupedRows rows) fun turn hturn =>
    ⟨groupedRows_ne_nil hturn,
      fun row hrow => hids row (mem_of_mem_groupedRows hturn hrow)⟩
  have hlength := congrArg List.length hall
  simp only [List.length_map] at hlength
  rw [openTurns, ← hall, ← hlength, ← List.map_take]
  congr 1
  unfold uncompactedTurns mergeCanonicalTurnRows
  dsimp only
  split_ifs with hprotected hlarge
  · rfl
  · rw [Nat.sub_eq_zero_of_le (not_lt.mp hlarge), List.take_zero]
  · rw [Nat.eq_zero_of_not_pos hprotected, Nat.sub_zero, List.take_length]

/-! ## Marked rows -/

/-- The rows that the UPDATE of `mark_canonical_turns_compacted` touches. -/
def isMarked (rows : List CanonicalTurnRow) (ids : List Uuid)
    (row : CanonicalTurnRow) : Bool :=
  row.canonicalTurnId ∈ ids ||
    rows.any fun other =>
      other.canonicalTurnId ∈ ids && decide (0 ≤ other.turnGroupNumber) &&
        other.turnGroupNumber = row.turnGroupNumber

def markRow (rows : List CanonicalTurnRow) (ids : List Uuid)
    (timestamp : String) (row : CanonicalTurnRow) : CanonicalTurnRow :=
  if isMarked rows ids row then
    { row with compactedAt := some timestamp, updatedAt := timestamp }
  else row

theorem loadRows_markCompacted (t : Tables) (conversationId : ConversationId)
    (ids : List Uuid) {timestamp : String} (hstamp : timestamp ≠ "") :
    ({ t with
        canonicalTurns := t.canonicalTurns.update (markCompacted
          t.canonicalTurns conversationId ids timestamp none) } :
        Tables).loadRows conversationId =
      (t.loadRows conversationId).map
        (markRow (t.loadRows conversationId) ids timestamp) := by
  have hmarked : ∀ (i : Nat) (row : CanonicalTurnRecord),
      row.conversationId = conversationId →
      t.canonicalTurns.inMarkedGroup conversationId ids row =
        isMarked (t.loadRows conversationId) ids (rowToCanonicalTurn i row) := by
    intro i row hconv
    unfold CanonicalTurns.inMarkedGroup isMarked
    rw [Bool.eq_iff_iff]
    simp only [hconv, decide_true, Bool.true_and, Bool.or_eq_true,
      List.any_eq_true]
    apply or_congr Iff.rfl
    have hmem : ∀ p : Uuid → Int → Prop,
        (∃ other ∈ t.canonicalTurns.rows, other.conversationId = conversationId ∧
          p other.canonicalTurnId other.turnGroupNumber) ↔
        ∃ other ∈ t.loadRows conversationId,
          p other.canonicalTurnId other.turnGroupNumber := by
      intro p
      have hpairs := t.map_loadRows conversationId
        (fun row => (row.canonicalTurnId, row.turnGroupNumber))
        (fun row => (row.canonicalTurnId, row.turnGroupNumber))
        (fun _ _ => rfl)
      constructor
      · rintro ⟨other, hother, hc, hp⟩
        have := List.mem_map_of_mem
          (f := fun row : CanonicalTurnRecord =>
            (row.canonicalTurnId, row.turnGroupNumber))
          (CanonicalTurns.mem_ordered.mpr ⟨hother, hc⟩)
        rw [← hpairs] at this
        obtain ⟨loaded, hloaded, heq⟩ := List.mem_map.mp this
        simp only [Prod.mk.injEq] at heq
        exact ⟨loaded, hloaded, by rwa [heq.1, heq.2]⟩
      · rintro ⟨loaded, hloaded, hp⟩
        have := List.mem_map_of_mem
          (f := fun row : CanonicalTurnRow =>
            (row.canonicalTurnId, row.turnGroupNumber)) hloaded
        rw [hpairs] at this
        obtain ⟨other, hother, heq⟩ := List.mem_map.mp this
        simp only [Prod.mk.injEq] at heq
        obtain ⟨hrow, hc⟩ := CanonicalTurns.mem_ordered.mp hother
        exact ⟨other, hrow, hc, by rwa [heq.1, heq.2]⟩
    have hgroup := hmem fun id group => id ∈ ids ∧ 0 ≤ group ∧
      group = row.turnGroupNumber
    simp only [Bool.and_eq_true, decide_eq_true_eq, and_assoc]
    exact hgroup
  unfold Tables.loadRows
  rw [CanonicalTurns.ordered_update]
  apply List.ext_getElem
  · simp
  · intro i hi hi'
    simp only [List.getElem_mapIdx, List.getElem_map]
    have hi : i < (t.canonicalTurns.ordered conversationId).length := by
      simpa using hi
    have hconv := (CanonicalTurns.mem_ordered.mp (List.getElem_mem hi)).2
    have hm := hmarked i _ hconv
    unfold Tables.loadRows at hm
    unfold markRow markCompacted
    dsimp only
    rw [← hm]
    split_ifs
    · simp [rowToCanonicalTurn, orNone, hstamp]
    · rfl

theorem openTurns_mark (rows : List CanonicalTurnRow) (ids : List Uuid)
    (timestamp : String) :
    (openTurns (rows.map (markRow rows ids timestamp))).map Prod.fst =
      ((groupedRows rows).filter fun turn => turn.2.any fun row =>
        (markRow rows ids timestamp row).isUncompacted).map Prod.fst := by
  unfold openTurns
  rw [groupedRows_map]
  · rw [List.filter_map, List.map_map]
    simp [Function.comp_def, List.any_map]
  all_goals
    intro row
    unfold markRow
    split_ifs <;> rfl

theorem isUncompacted_markRow {rows : List CanonicalTurnRow} {ids : List Uuid}
    {timestamp : String} (hstamp : timestamp ≠ "") (row : CanonicalTurnRow) :
    (markRow rows ids timestamp row).isUncompacted =
      (row.isUncompacted && !isMarked rows ids row) := by
  unfold markRow
  cases h : isMarked rows ids row <;>
    simp [CanonicalTurnRow.isUncompacted, orNone, hstamp]

/-! ## Which turns the marks close -/

/--
Every uncompacted row of an open turn is marked along with the turn's
identifier, and no group number leads from one open turn to another.
-/
structure MarksSeparately (rows : List CanonicalTurnRow) : Prop where
  whole : ∀ turn ∈ openTurns rows, ∀ row ∈ turn.2, row.isUncompacted →
    row.canonicalTurnId = turnId turn.2 ∨
      0 ≤ row.turnGroupNumber ∧ row.turnGroupNumber = turnGroup turn.2
  apart : ∀ turn ∈ openTurns rows, ∀ turn' ∈ openTurns rows,
    turn.1 ≠ turn'.1 → 0 ≤ turnGroup turn.2 →
      turnGroup turn.2 ≠ turnGroup turn'.2

/-- The identifiers of the chosen open turns. -/
def IdsOf (rows : List CanonicalTurnRow) (chosen : Int → Bool)
    (ids : List Uuid) : Prop :=
  ∀ id, id ∈ ids ↔ ∃ turn ∈ openTurns rows, chosen turn.1 ∧ turnId turn.2 = id

section Marks

variable {rows : List CanonicalTurnRow} {chosen : Int → Bool} {ids : List Uuid}

/-- A row is marked through the identifier or the group of a chosen turn. -/
theorem isMarked_iff (hnodup : (rows.map (·.canonicalTurnId)).Nodup)
    (hids : IdsOf rows chosen ids) (row : CanonicalTurnRow) :
    isMarked rows ids row ↔
      ∃ turn ∈ openTurns rows, chosen turn.1 ∧
        (row.canonicalTurnId = turnId turn.2 ∨
          0 ≤ turnGroup turn.2 ∧ turnGroup turn.2 = row.turnGroupNumber) := by
  have hidentity : ∀ turn ∈ openTurns rows, ∀ other ∈ rows,
      other.canonicalTurnId = turnId turn.2 →
        other.turnGroupNumber = turnGroup turn.2 := by
    intro turn hturn other hother hid
    obtain ⟨hgrouped, -⟩ := mem_openTurns.mp hturn
    obtain ⟨member, hmember, hmid, hmgroup⟩ :=
      exists_identity (groupedRows_ne_nil hgrouped)
    obtain rfl : other = member := List.inj_on_of_nodup_map hnodup hother
      (mem_of_mem_groupedRows hgrouped hmember) (hid.trans hmid.symm)
    exact hmgroup
  simp only [isMarked, Bool.or_eq_true, decide_eq_true_eq, List.any_eq_true,
    Bool.and_eq_true]
  constructor
  · rintro (hid | ⟨other, hother, ⟨hid, hnonneg⟩, hgroup⟩)
    · obtain ⟨turn, hturn, hchosen, heq⟩ := (hids _).mp hid
      exact ⟨turn, hturn, hchosen, .inl heq.symm⟩
    · obtain ⟨turn, hturn, hchosen, heq⟩ := (hids _).mp hid
      have := hidentity turn hturn other hother heq.symm
      exact ⟨turn, hturn, hchosen, .inr ⟨this ▸ hnonneg, this ▸ hgroup⟩⟩
  · rintro ⟨turn, hturn, hchosen, hid | ⟨hnonneg, hgroup⟩⟩
    · exact .inl ((hids _).mpr ⟨turn, hturn, hchosen, hid.symm⟩)
    · obtain ⟨hgrouped, -⟩ := mem_openTurns.mp hturn
      obtain ⟨member, hmember, hmid, hmgroup⟩ :=
        exists_identity (groupedRows_ne_nil hgrouped)
      exact .inr ⟨member, mem_of_mem_groupedRows hgrouped hmember,
        ⟨(hids _).mpr ⟨turn, hturn, hchosen, hmid.symm⟩, hmgroup ▸ hnonneg⟩,
        hmgroup.trans hgroup⟩

/-- A row with the identifier of its turn has the group of its turn. -/
private theorem group_of_whole (hnodup : (rows.map (·.canonicalTurnId)).Nodup)
    (h : MarksSeparately rows) {turn : Int × List CanonicalTurnRow}
    (hturn : turn ∈ openTurns rows) {row : CanonicalTurnRow} (hrow : row ∈ turn.2)
    (huncompacted : row.isUncompacted) :
    row.turnGroupNumber = turnGroup turn.2 := by
  obtain ⟨hgrouped, -⟩ := mem_openTurns.mp hturn
  rcases h.whole turn hturn row hrow huncompacted with hid | ⟨-, hgroup⟩
  · obtain ⟨member, hmember, hmid, hmgroup⟩ :=
      exists_identity (groupedRows_ne_nil hgrouped)
    obtain rfl : row = member := List.inj_on_of_nodup_map hnodup
      (mem_of_mem_groupedRows hgrouped hrow)
      (mem_of_mem_groupedRows hgrouped hmember) (hid.trans hmid.symm)
    exact hmgroup
  · exact hgroup

/-- Marking the chosen turns closes them and leaves the others open. -/
theorem any_uncompacted_mark (hnodup : (rows.map (·.canonicalTurnId)).Nodup)
    (h : MarksSeparately rows) (hids : IdsOf rows chosen ids)
    {timestamp : String} (hstamp : timestamp ≠ "")
    {turn : Int × List CanonicalTurnRow} (hturn : turn ∈ groupedRows rows) :
    (turn.2.any fun row => (markRow rows ids timestamp row).isUncompacted) =
      ((turn.2.any (·.isUncompacted)) && !chosen turn.1) := by
  simp only [isUncompacted_markRow hstamp]
  rw [Bool.eq_iff_iff]
  simp only [List.any_eq_true, Bool.and_eq_true, Bool.not_eq_true',
    Bool.eq_false_iff]
  constructor
  · rintro ⟨row, hrow, huncompacted, hunmarked⟩
    have hopen : turn ∈ openTurns rows :=
      mem_openTurns.mpr ⟨hturn, row, hrow, huncompacted⟩
    refine ⟨⟨row, hrow, huncompacted⟩, fun hchosen => hunmarked ?_⟩
    apply (isMarked_iff hnodup hids row).mpr
    refine ⟨turn, hopen, hchosen, ?_⟩
    rcases h.whole turn hopen row hrow huncompacted with hid | ⟨hnonneg, hgroup⟩
    · exact .inl hid
    · exact .inr ⟨hgroup ▸ hnonneg, hgroup.symm⟩
  · rintro ⟨⟨row, hrow, huncompacted⟩, hchosen⟩
    have hopen : turn ∈ openTurns rows :=
      mem_openTurns.mpr ⟨hturn, row, hrow, huncompacted⟩
    refine ⟨row, hrow, huncompacted, fun hmarked => ?_⟩
    obtain ⟨turn', hopen', hchosen', hid | ⟨hnonneg, hgroup⟩⟩ :=
      (isMarked_iff hnodup hids row).mp hmarked
    · obtain ⟨hgrouped', -⟩ := mem_openTurns.mp hopen'
      obtain ⟨member, hmember, hmid, -⟩ :=
        exists_identity (groupedRows_ne_nil hgrouped')
      obtain rfl := groupedRows_disjoint hnodup hturn hgrouped' hrow hmember
        (hid.trans hmid.symm)
      exact hchosen hchosen'
    · refine h.apart turn' hopen' turn hopen ?_ hnonneg ?_
      · intro heq
        exact hchosen (heq ▸ hchosen')
      · exact hgroup.trans (group_of_whole hnodup h hopen hrow huncompacted)

/-- The numbers of the open turns after the mark. -/
theorem openTurns_mark_of_separate
    (hnodup : (rows.map (·.canonicalTurnId)).Nodup) (h : MarksSeparately rows)
    (hids : IdsOf rows chosen ids) {timestamp : String}
    (hstamp : timestamp ≠ "") :
    (openTurns (rows.map (markRow rows ids timestamp))).map Prod.fst =
      ((openTurns rows).map Prod.fst).filter fun number => !chosen number := by
  rw [openTurns_mark, openTurns, List.filter_map, List.filter_filter]
  congr 1
  apply List.filter_congr
  intro turn hturn
  rw [any_uncompacted_mark hnodup h hids hstamp hturn, Bool.and_comm]
  rfl

/-- Marks that close every single turn alone are separate. -/
theorem separate_of_openTurns_mark
    (hnodup : (rows.map (·.canonicalTurnId)).Nodup) {timestamp : String}
    (hstamp : timestamp ≠ "")
    (h : ∀ turn ∈ openTurns rows,
      (openTurns (rows.map (markRow rows [turnId turn.2] timestamp))).map
          Prod.fst =
        ((openTurns rows).map Prod.fst).filter fun number =>
          !decide (number = turn.1)) :
    MarksSeparately rows := by
  have hkeys := (groupedRows_increasing rows).map_nodup
  have hsame : ∀ turn ∈ groupedRows rows, ∀ turn' ∈ groupedRows rows,
      turn.1 = turn'.1 → turn = turn' := fun turn ht turn' ht' =>
    List.inj_on_of_nodup_map hkeys ht ht'
  have hids : ∀ turn ∈ openTurns rows,
      IdsOf rows (fun number => decide (number = turn.1)) [turnId turn.2] := by
    intro turn hturn id
    rw [List.mem_singleton]
    constructor
    · rintro rfl
      exact ⟨turn, hturn, by simp, rfl⟩
    · rintro ⟨turn', hturn', hnumber, rfl⟩
      rw [hsame turn' (mem_openTurns.mp hturn').1 turn
        (mem_openTurns.mp hturn).1 (of_decide_eq_true hnumber)]
  -- a row of an open turn is marked through that very turn
  have hmarked : ∀ turn ∈ openTurns rows, ∀ row : CanonicalTurnRow,
      isMarked rows [turnId turn.2] row ↔
        row.canonicalTurnId = turnId turn.2 ∨
          0 ≤ turnGroup turn.2 ∧ turnGroup turn.2 = row.turnGroupNumber := by
    intro turn hturn row
    rw [isMarked_iff hnodup (hids turn hturn)]
    constructor
    · rintro ⟨turn', hturn', hnumber, hrest⟩
      rwa [hsame turn' (mem_openTurns.mp hturn').1 turn
        (mem_openTurns.mp hturn).1 (of_decide_eq_true hnumber)] at hrest
    · exact fun hrest => ⟨turn, hturn, by simp, hrest⟩
  -- the turns that stay open after one of them is marked
  have hstays : ∀ turn ∈ openTurns rows, ∀ turn' ∈ groupedRows rows,
      (∃ row ∈ turn'.2, row.isUncompacted ∧
        ¬ isMarked rows [turnId turn.2] row) ↔
      (∃ row ∈ turn'.2, row.isUncompacted) ∧ turn'.1 ≠ turn.1 := by
    intro turn hturn turn' hturn'
    have hnumbers := h turn hturn
    rw [openTurns_mark] at hnumbers
    simp only [isUncompacted_markRow hstamp] at hnumbers
    have hmem : ∀ p : Int × List CanonicalTurnRow → Bool,
        turn'.1 ∈ ((groupedRows rows).filter p).map Prod.fst ↔ p turn' := by
      intro p
      constructor
      · intro hfst
        obtain ⟨other, hother, heq⟩ := List.mem_map.mp hfst
        obtain ⟨hgrouped, hp⟩ := List.mem_filter.mp hother
        rwa [← hsame other hgrouped turn' hturn' heq]
      · exact fun hp => List.mem_map_of_mem (List.mem_filter.mpr ⟨hturn', hp⟩)
    have := hmem fun other => other.2.any fun row =>
      row.isUncompacted && !isMarked rows [turnId turn.2] row
    rw [hnumbers, List.mem_filter, openTurns, hmem] at this
    simpa using this.symm
  constructor
  · intro turn hturn row hrow huncompacted
    obtain ⟨hgrouped, -⟩ := mem_openTurns.mp hturn
    have hrowMarked : isMarked rows [turnId turn.2] row := by
      by_contra hunmarked
      exact ((hstays turn hturn turn hgrouped).mp
        ⟨row, hrow, huncompacted, hunmarked⟩).2 rfl
    rcases (hmarked turn hturn row).mp hrowMarked with hid | ⟨hnonneg, hgroup⟩
    · exact .inl hid
    · exact .inr ⟨hgroup ▸ hnonneg, hgroup.symm⟩
  · intro turn hturn turn' hturn' hnumber hnonneg hgroup
    obtain ⟨hgrouped', hopen'⟩ := mem_openTurns.mp hturn'
    obtain ⟨row, hrow, huncompacted, hunmarked⟩ :=
      (hstays turn hturn turn' hgrouped').mpr ⟨hopen', Ne.symm hnumber⟩
    have hrowMarked : isMarked rows [turnId turn'.2] row := by
      by_contra hnot
      exact ((hstays turn' hturn' turn' hgrouped').mp
        ⟨row, hrow, huncompacted, hnot⟩).2 rfl
    apply hunmarked
    apply (hmarked turn hturn row).mpr
    rcases (hmarked turn' hturn' row).mp hrowMarked with hid | ⟨-, hrowGroup⟩
    · obtain ⟨member, hmember, hmid, hmgroup⟩ :=
        exists_identity (groupedRows_ne_nil hgrouped')
      obtain rfl : row = member := List.inj_on_of_nodup_map hnodup
        (mem_of_mem_groupedRows hgrouped' hrow)
        (mem_of_mem_groupedRows hgrouped' hmember) (hid.trans hmid.symm)
      exact .inr ⟨hnonneg, hgroup.trans hmgroup.symm⟩
    · exact .inr ⟨hnonneg, hgroup.trans hrowGroup⟩

end Marks

/-! ## Selecting, marking and selecting again -/

/-- What one compaction does; it chooses among the turns by their numbers. -/
def compactTurns (conversationId : ConversationId) (now : String)
    (protectedRecentTurns : Nat) (chosen : Int → Bool) :
    StoreProgram (List Int × List Int) := do
  let before ← getUncompactedCanonicalTurns conversationId protectedRecentTurns
  let ids := (before.filter fun turn => chosen turn.1).map
    (·.2.canonicalTurnId)
  let _ ← markCanonicalTurnsCompacted 0 now conversationId ids none none
  let after ← getUncompactedCanonicalTurns conversationId protectedRecentTurns
  pure (before.map Prod.fst, after.map Prod.fst)

/-- Exactly the chosen turns are not returned again. -/
def CompactsExactly (s : Store) (conversationId : ConversationId)
    (now : String) (protectedRecentTurns : Nat) (chosen : Int → Bool) : Prop :=
  ∃ before after c,
    (compactTurns conversationId now protectedRecentTurns chosen).run .quiet
        s.conn = (.ok (before, after), c) ∧
      after = before.filter fun number => !chosen number

theorem allLegacy_map (f : CanonicalTurnRow → CanonicalTurnRow)
    (hgroup : ∀ row, (f row).turnGroupNumber = row.turnGroupNumber)
    (rows : List CanonicalTurnRow) :
    allLegacy (rows.map f) = allLegacy rows := by
  simp [allLegacy, List.all_map, Function.comp_def, hgroup]

theorem markRow_group (rows : List CanonicalTurnRow) (ids : List Uuid)
    (timestamp : String) (row : CanonicalTurnRow) :
    (markRow rows ids timestamp row).turnGroupNumber =
      row.turnGroupNumber := by
  unfold markRow
  split_ifs <;> rfl

theorem markRow_nil (rows : List CanonicalTurnRow) (timestamp : String) :
    rows.map (markRow rows [] timestamp) = rows := by
  refine (List.map_congr_left fun row _ => ?_).trans (List.map_id _)
  simp [markRow, isMarked]

/-- The tables after marking; without identifiers nothing is written. -/
private theorem mark_yields (t : Tables) (n : Nat)
    (conversationId : ConversationId) {now : String} (hnow : now ≠ "")
    (ids : List Uuid) :
    ∃ rowcount t', Yields
      (markCanonicalTurnsCompacted 0 now conversationId ids none none)
      t n rowcount t' n ∧
      t'.loadRows conversationId = (t.loadRows conversationId).map
        (markRow (t.loadRows conversationId) ids now) := by
  by_cases hids : ids = []
  · subst hids
    exact ⟨0, t, .pure, (markRow_nil _ _).symm⟩
  · obtain ⟨rowcount, h⟩ : ∃ rowcount, Yields
        (markCanonicalTurnsCompacted 0 now conversationId ids none none)
        t n rowcount _ n := markCanonicalTurnsCompacted_yields 0 hids none
    exact ⟨rowcount, _, h, loadRows_markCompacted t conversationId ids hnow⟩

theorem compactTurns_run (s : Store) (conversationId : ConversationId)
    {now : String} (hnow : now ≠ "") (protectedRecentTurns : Nat)
    (chosen : Int → Bool) :
    ∃ c, (compactTurns conversationId now protectedRecentTurns chosen).run
        .quiet s.conn =
      let rows := (s.tables.backfilled conversationId).loadRows conversationId
      let selected := uncompactedTurns protectedRecentTurns rows
      let ids := (selected.filter fun turn => chosen turn.1).map
        (·.2.canonicalTurnId)
      (.ok (selected.map Prod.fst,
        (uncompactedTurns protectedRecentTurns
          (rows.map (markRow rows ids now))).map Prod.fst), c) := by
  obtain ⟨rowcount, t', hmark, hrows⟩ := mark_yields
    (s.tables.backfilled conversationId) s.supply conversationId hnow
    (((uncompactedTurns protectedRecentTurns
      ((s.tables.backfilled conversationId).loadRows conversationId)).filter
        fun turn => chosen turn.1).map (·.2.canonicalTurnId))
  have hbackfilled : t'.backfilled conversationId = t' := by
    rw [Tables.backfilled, hrows, allLegacy_map _ (markRow_group _ _ _),
      Tables.allLegacy_backfilled]
    rfl
  have hafter : Yields
      (getUncompactedCanonicalTurns conversationId protectedRecentTurns)
      t' s.supply _ _ _ := getUncompactedCanonicalTurns_yields _
  rw [hbackfilled, hrows] at hafter
  refine ⟨.idle t' s.supply, Yields.run ?_⟩
  apply Yields.bind (getUncompactedCanonicalTurns_yields _)
  apply Yields.bind hmark
  exact Yields.bind hafter .pure

/-- The chosen numbers that the protected turns leave to be chosen. -/
private theorem take_filter {numbers : List Int} (hnodup : numbers.Nodup)
    (chosen : Int → Bool) (k : Nat) :
    let available := numbers.take (numbers.length - k)
    let left := numbers.filter fun number =>
      !(chosen number && decide (number ∈ available))
    left.take (left.length - k) = available.filter fun number =>
      !chosen number := by
  intro available left
  have hsplit : numbers = available ++ numbers.drop (numbers.length - k) :=
    (List.take_append_drop _ _).symm
  have hdisjoint : ∀ number ∈ numbers.drop (numbers.length - k),
      number ∉ available := by
    intro number hdrop htake
    rw [hsplit] at hnodup
    exact (List.nodup_append.mp hnodup).2.2 number htake number hdrop rfl
  have hleft : left = (available.filter fun number => !chosen number) ++
      numbers.drop (numbers.length - k) := by
    change numbers.filter _ = _
    conv_lhs => rw [hsplit]
    rw [List.filter_append]
    congr 1
    · apply List.filter_congr
      intro number hnumber
      simp [hnumber]
    · rw [List.filter_eq_self]
      intro number hnumber
      simp [hdisjoint number hnumber]
  rw [hleft]
  have hlength : (numbers.drop (numbers.length - k)).length =
      min numbers.length k := by
    rw [List.length_drop]
    omega
  by_cases hk : k ≤ numbers.length
  · have hle : (available.filter fun number => !chosen number).length =
        ((available.filter fun number => !chosen number) ++
          numbers.drop (numbers.length - k)).length - k := by
      rw [List.length_append, hlength]
      omega
    rw [← hle, List.take_left']
    rfl
  · have hnil : available = [] := by
      change numbers.take _ = []
      rw [Nat.sub_eq_zero_of_le (by omega), List.take_zero]
    rw [hnil, List.filter_nil, List.nil_append, hlength,
      Nat.sub_eq_zero_of_le (by omega), List.take_zero]

/-- The identifiers that a compaction passes on. -/
private theorem idsOf_selected {rows : List CanonicalTurnRow}
    (hpositive : ∀ row ∈ rows, row.canonicalTurnId ≠ 0)
    (hkeys : ((openTurns rows).map Prod.fst).Nodup)
    (protectedRecentTurns : Nat) (chosen : Int → Bool) :
    IdsOf rows
      (fun number => chosen number && decide (number ∈
        ((openTurns rows).map Prod.fst).take
          ((openTurns rows).length - protectedRecentTurns)))
      (((uncompactedTurns protectedRecentTurns rows).filter fun turn =>
        chosen turn.1).map (·.2.canonicalTurnId)) := by
  have hpairs := uncompactedTurns_eq hpositive protectedRecentTurns
  generalize (openTurns rows).length - protectedRecentTurns = k at hpairs ⊢
  have havailable : ∀ turn ∈ openTurns rows,
      turn.1 ∈ ((openTurns rows).map Prod.fst).take k ↔
        turn ∈ (openTurns rows).take k := by
    intro turn hturn
    rw [← List.map_take]
    constructor
    · intro hmem
      obtain ⟨other, hother, heq⟩ := List.mem_map.mp hmem
      rwa [← List.inj_on_of_nodup_map hkeys (List.mem_of_mem_take hother) hturn
        heq]
    · exact fun hmem => List.mem_map_of_mem hmem
  intro id
  have hmem : id ∈ ((uncompactedTurns protectedRecentTurns rows).filter
        fun turn => chosen turn.1).map (·.2.canonicalTurnId) ↔
      ∃ pair ∈ (uncompactedTurns protectedRecentTurns rows).map
        (fun turn => (turn.1, turn.2.canonicalTurnId)),
        chosen pair.1 ∧ pair.2 = id := by
    constructor
    · intro h
      obtain ⟨turn, hturn, rfl⟩ := List.mem_map.mp h
      obtain ⟨hselected, hchosen⟩ := List.mem_filter.mp hturn
      exact ⟨_, List.mem_map_of_mem hselected, hchosen, rfl⟩
    · rintro ⟨pair, hpair, hchosen, rfl⟩
      obtain ⟨turn, hturn, rfl⟩ := List.mem_map.mp hpair
      exact List.mem_map.mpr
        ⟨turn, List.mem_filter.mpr ⟨hturn, hchosen⟩, rfl⟩
  rw [hmem, hpairs, ← List.map_take]
  constructor
  · rintro ⟨pair, hpair, hchosen, rfl⟩
    obtain ⟨turn, hturn, rfl⟩ := List.mem_map.mp hpair
    have hopen := List.mem_of_mem_take hturn
    refine ⟨turn, hopen, ?_, rfl⟩
    simp [hchosen, (havailable turn hopen).mpr hturn]
  · rintro ⟨turn, hturn, hchosen, rfl⟩
    simp only [Bool.and_eq_true, decide_eq_true_eq] at hchosen
    exact ⟨_, List.mem_map_of_mem ((havailable turn hturn).mp hchosen.2),
      hchosen.1, rfl⟩

/--
A compaction closes exactly the turns it chooses, whatever it chooses and
protects, if and only if the group numbers follow the open turns.
-/
theorem compactsExactly_iff (s : Store) (conversationId : ConversationId)
    {now : String} (hnow : now ≠ "") :
    (∀ protectedRecentTurns chosen,
      CompactsExactly s conversationId now protectedRecentTurns chosen) ↔
    MarksSeparately
      ((s.tables.backfilled conversationId).loadRows conversationId) := by
  have hpositive : ∀ row ∈
      (s.tables.backfilled conversationId).loadRows conversationId,
      row.canonicalTurnId ≠ 0 :=
    (s.drawn.backfilled conversationId).loadRows_ids_ne_zero conversationId
  have hnodup :=
    (s.tables.backfilled conversationId).loadRows_ids_nodup conversationId
  have hrun := compactTurns_run s conversationId hnow
  generalize (s.tables.backfilled conversationId).loadRows conversationId =
    rows at hpositive hnodup hrun
  dsimp only at hrun
  -- the selection in terms of the open turns
  have hselect : ∀ (rows' : List CanonicalTurnRow),
      (∀ row ∈ rows', row.canonicalTurnId ≠ 0) → ∀ protectedRecentTurns,
      (uncompactedTurns protectedRecentTurns rows').map Prod.fst =
        ((openTurns rows').map Prod.fst).take
          ((openTurns rows').length - protectedRecentTurns) := by
    intro rows' hrows' protectedRecentTurns
    have h := congrArg (List.map Prod.fst)
      (uncompactedTurns_eq hrows' protectedRecentTurns)
    simpa [List.map_take, Function.comp_def] using h
  have hpositive' : ∀ ids, ∀ row ∈ rows.map (markRow rows ids now),
      row.canonicalTurnId ≠ 0 := by
    intro ids row hrow
    obtain ⟨stored, hstored, rfl⟩ := List.mem_map.mp hrow
    have := hpositive stored hstored
    unfold markRow
    split_ifs <;> exact this
  have hkeys : ((openTurns rows).map Prod.fst).Nodup :=
    ((groupedRows_increasing rows).sublist List.filter_sublist).map_nodup
  constructor
  · intro h
    apply separate_of_openTurns_mark hnodup hnow
    intro turn hturn
    obtain ⟨before, after, c, hrun', hafter⟩ :=
      h 0 fun number => decide (number = turn.1)
    obtain ⟨c', hrun⟩ := hrun 0 fun number => decide (number = turn.1)
    rw [hrun] at hrun'
    simp only [Prod.mk.injEq, Except.ok.injEq] at hrun'
    obtain ⟨⟨rfl, rfl⟩, -⟩ := hrun'
    have hids : ((uncompactedTurns 0 rows).filter fun turn' =>
        decide (turn'.1 = turn.1)).map (·.2.canonicalTurnId) =
        [turnId turn.2] := by
      have hpairs := uncompactedTurns_eq hpositive 0
      rw [Nat.sub_zero, List.take_of_length_le (by simp)] at hpairs
      have hfilter := congrArg (fun pairs => (pairs.filter
        fun pair : Int × Uuid => decide (pair.1 = turn.1)).map Prod.snd) hpairs
      simp only [List.filter_map, List.map_map] at hfilter
      refine hfilter.trans ?_
      have honly : (openTurns rows).filter
          (fun turn' => decide (turn'.1 = turn.1)) = [turn] := by
        exact filter_key_eq_singleton hkeys hturn
      change ((openTurns rows).filter
        fun turn' => decide (turn'.1 = turn.1)).map _ = _
      rw [honly]
      rfl
    rw [hids, hselect _ (hpositive' _), hselect _ hpositive, Nat.sub_zero,
      Nat.sub_zero, List.take_of_length_le (by simp),
      List.take_of_length_le (by simp)] at hafter
    exact hafter
  · intro h protectedRecentTurns chosen
    obtain ⟨c, hrun⟩ := hrun protectedRecentTurns chosen
    refine ⟨_, _, c, hrun, ?_⟩
    have hids := idsOf_selected hpositive hkeys protectedRecentTurns chosen
    have hopen := openTurns_mark_of_separate hnodup h hids hnow
    have hlength := congrArg List.length hopen
    rw [List.length_map] at hlength
    rw [hselect _ (hpositive' _), hselect _ hpositive, hopen, hlength]
    have htake := take_filter hkeys chosen protectedRecentTurns
    simp only [List.length_map] at htake ⊢
    exact htake

/-- A turn whose two rows were never numbered, after a turn that was. -/
def partlyNumbered : Store :=
  let row : CanonicalTurnRecord := { conversationId := "c" }
  .holding []
    ⟨[{ row with
          canonicalTurnId := 1, sortKey := 1000, turnGroupNumber := 0
          userContent := "q", assistantContent := "a" },
      { row with canonicalTurnId := 2, sortKey := 2000, userContent := "q" },
      { row with canonicalTurnId := 3, sortKey := 3000, assistantContent := "a" }],
      by decide, by decide⟩ 3 (by decide)

theorem compactsExactly_iff_partlyNumbered :
    (∀ protectedRecentTurns chosen,
      CompactsExactly partlyNumbered "c" "2026" protectedRecentTurns chosen) ↔
    MarksSeparately ((partlyNumbered.tables.backfilled "c").loadRows "c") :=
  compactsExactly_iff partlyNumbered "c" (by decide)

/-- Turn 1 is chosen, one of its two rows is marked, and it is returned again. -/
theorem partlyNumbered_not_compacted :
    ¬ ∀ (s : Store) (conversationId : ConversationId) (now : String),
      now ≠ "" → ∀ protectedRecentTurns chosen,
        CompactsExactly s conversationId now protectedRecentTurns chosen := by
  intro h
  obtain ⟨before, after, c, hrun, hafter⟩ :=
    h partlyNumbered "c" "2026" (by decide) 0 fun number => decide (number = 1)
  have houtcome : ((compactTurns "c" "2026" 0 fun number =>
      decide (number = 1)).run .quiet partlyNumbered.conn).1 =
      .ok ([0, 1], [0, 1]) := by decide +kernel
  rw [hrun] at houtcome
  simp only [Except.ok.injEq, Prod.mk.injEq] at houtcome
  obtain ⟨rfl, rfl⟩ := houtcome
  exact absurd hafter (by decide)

end VirtualContext
