import Mathlib.Data.List.TakeWhile
import VirtualContext.Storage.GroupingAgreement

/-!
# The compaction watermark

The engine, the pipeline and the recovery derive the number of compacted
messages from the number of the last compacted turn of the prefix.  This is
their count only if the numbers of the prefix have no gaps.
-/

namespace VirtualContext

open VirtualContext.Library

/-! ## Pairing the rows -/

/-- The numbered turns found so far and the rows of the turn that is open. -/
structure PairScan where
  grouped : List (Int × List CanonicalTurnRow) := []
  pending : List CanonicalTurnRow := []

namespace PairScan

def append (scan : PairScan) (members : List CanonicalTurnRow) : PairScan :=
  { scan with
    grouped := scan.grouped ++ [((scan.grouped.length : Int), members)] }

def flushPending (scan : PairScan) : PairScan :=
  if scan.pending.isEmpty then scan
  else { scan.append scan.pending with pending := [] }

def step (scan : PairScan) (row : CanonicalTurnRow) : PairScan :=
  if row.hasUser && row.hasAssistant then scan.flushPending.append [row]
  else if row.hasUser then { scan.flushPending with pending := [row] }
  else if row.hasAssistant then
    if scan.pending.isEmpty then scan.append [row]
    else { scan with pending := scan.pending ++ [row] }.flushPending
  else scan.flushPending

end PairScan

/-- `_group_canonical_rows_into_pairs` -/
def groupCanonicalRowsIntoPairs (rows : List CanonicalTurnRow) :
    List (Int × List CanonicalTurnRow) :=
  if !rows.isEmpty && rows.all fun row => decide (0 ≤ row.turnGroupNumber) then
    explicitGroups rows
  else (rows.foldl PairScan.step {}).flushPending.grouped

/-! ## The watermark -/

structure Watermark where
  compactedPrefixMessages : Int := 0
  lastCompactedTurn : Int := -1
  deriving DecidableEq, Repr

def allCompacted (members : List CanonicalTurnRow) : Bool :=
  !members.isEmpty && members.all fun row => (orNone row.compactedAt).isSome

/-- The loop over the turns, up to the first one that is not compacted. -/
def lastPrefixTurn : Int → List (Int × List CanonicalTurnRow) → Int
  | last, [] => last
  | last, (turnNumber, members) :: turns =>
      if allCompacted members then lastPrefixTurn turnNumber turns else last

/-- `_canonical_prefix_watermark` -/
def canonicalPrefixWatermark (pairedRows : List (Int × List CanonicalTurnRow)) :
    Watermark :=
  let last := lastPrefixTurn (-1) pairedRows
  if last < 0 then {} else ⟨(last + 1) * 2, last⟩

/-- `_derive_compacted_prefix_messages_from_rows`, once the rows are loaded. -/
def deriveCompactedPrefixMessages (rows : List CanonicalTurnRow) : Watermark :=
  canonicalPrefixWatermark (groupCanonicalRowsIntoPairs rows)

/--
`_refresh_compaction_watermark`, with a copy of the engine's grouping and of
its loop.
-/
def refreshCompactionWatermark (rows : List CanonicalTurnRow) : Watermark :=
  if rows.isEmpty then {}
  else canonicalPrefixWatermark (groupCanonicalRowsIntoPairs rows)

/-- What the recovery derives from the rows of a conversation. -/
structure SessionMarkers extends Watermark where
  flushedPrefixMessages : Int
  lastCompletedTurn : Int
  lastIndexedTurn : Int
  deriving DecidableEq, Repr

def allTagged (members : List CanonicalTurnRow) : Bool :=
  members.all fun row => (orNone row.taggedAt).isSome

/-- `derive_session_state_markers` -/
def deriveSessionStateMarkers (rows : List CanonicalTurnRow) :
    Option SessionMarkers :=
  if rows.isEmpty then none
  else
    let pairedRows := groupCanonicalRowsIntoPairs rows
    if pairedRows.isEmpty then none
    else
      let watermark := canonicalPrefixWatermark pairedRows
      let present := pairedRows.filter fun turn => !turn.2.isEmpty
      some
        { watermark with
          flushedPrefixMessages := watermark.compactedPrefixMessages
          lastCompletedTurn := (present.map (·.1)).foldl max (-1)
          lastIndexedTurn :=
            ((present.filter fun turn => allTagged turn.2).map (·.1)).foldl max
              (-1) }

/-! ## The property and its condition -/

/-- The leading turns, as the store merges them, that are compacted. -/
def compactedPrefix (rows : List CanonicalTurnRow) :
    List (Int × CanonicalTurnRow) :=
  (mergeCanonicalTurnRows rows).takeWhile fun turn =>
    (orNone turn.2.compactedAt).isSome

/--
The three watermarks agree and count the messages of the compacted prefix: no
open turn is below, and the first turn that is not below is open.
-/
structure WatermarksAgree (rows : List CanonicalTurnRow) : Prop where
  refresh : refreshCompactionWatermark rows = deriveCompactedPrefixMessages rows
  markers : ∀ markers ∈ deriveSessionStateMarkers rows,
    markers.toWatermark = deriveCompactedPrefixMessages rows
  unmarked : deriveSessionStateMarkers rows = none →
    deriveCompactedPrefixMessages rows = {}
  count : (deriveCompactedPrefixMessages rows).compactedPrefixMessages =
    2 * (compactedPrefix rows).length
  above : ∀ turn ∈ uncompactedTurns 0 rows,
    (deriveCompactedPrefixMessages rows).compactedPrefixMessages ≤ 2 * turn.1
  next : ∀ turn : Int × CanonicalTurnRow, (mergeCanonicalTurnRows rows).find?
      (fun turn =>
        (deriveCompactedPrefixMessages rows).compactedPrefixMessages ≤
          2 * turn.1) = some turn →
    turn ∈ uncompactedTurns 0 rows

/-- The leading compacted turns are numbered 0, 1, 2, ... -/
def PrefixNumbered (rows : List CanonicalTurnRow) : Prop :=
  ∀ (i : Nat) (turn : Int × CanonicalTurnRow),
    (compactedPrefix rows)[i]? = some turn → turn.1 = i

/-! ## The groupings are the same -/

namespace PairScan

/-- The scan of the engine follows that of the store. -/
structure Numbers (scan : PairScan) (stored : GroupScan) : Prop where
  grouped : scan.grouped =
    stored.grouped.zipIdx.map fun turn => ((turn.2 : Int), turn.1)
  pending : scan.pending = stored.pending

variable {scan : PairScan} {stored : GroupScan}

theorem Numbers.append (h : scan.Numbers stored)
    (members : List CanonicalTurnRow) :
    (scan.append members).Numbers
      { stored with grouped := stored.grouped ++ [members] } where
  grouped := by
    simp [PairScan.append, h.grouped, List.zipIdx_append]
  pending := h.pending

theorem Numbers.flushPending (h : scan.Numbers stored) :
    scan.flushPending.Numbers stored.flushPending := by
  unfold PairScan.flushPending GroupScan.flushPending
  rw [h.pending]
  cases hpending : stored.pending with
  | nil =>
      rw [if_pos List.isEmpty_nil]
      exact h
  | cons first rest =>
      rw [if_neg (by simp)]
      exact ⟨(h.append _).grouped, rfl⟩

theorem Numbers.step (h : scan.Numbers stored) (row : CanonicalTurnRow) :
    (scan.step row).Numbers (stored.step row) := by
  unfold PairScan.step GroupScan.step
  rw [h.pending]
  split_ifs
  · exact h.flushPending.append [row]
  · exact ⟨h.flushPending.grouped, rfl⟩
  · exact ⟨(h.append [row]).grouped, h.pending⟩
  · exact Numbers.flushPending ⟨h.grouped, rfl⟩
  · exact h.flushPending

end PairScan

theorem groupCanonicalRowsIntoPairs_eq (rows : List CanonicalTurnRow) :
    groupCanonicalRowsIntoPairs rows = groupedRows rows := by
  have hscan : ∀ (rows : List CanonicalTurnRow) (scan : PairScan)
      (stored : GroupScan), scan.Numbers stored →
        (rows.foldl PairScan.step scan).Numbers
          (rows.foldl GroupScan.step stored) := by
    intro rows
    induction rows with
    | nil => exact fun _ _ h => h
    | cons row rows ih => exact fun _ _ h => ih _ _ (h.step row)
  unfold groupCanonicalRowsIntoPairs groupedRows
  cases rows with
  | nil => rfl
  | cons row rows =>
      rw [List.isEmpty_cons, Bool.not_false, Bool.true_and]
      split_ifs
      · rfl
      · exact (hscan (row :: rows) {} ⟨[], []⟩ ⟨rfl, rfl⟩).flushPending.grouped

/-! ## The prefix in the merged turns -/

section Prefix

variable {rows : List CanonicalTurnRow}

theorem isSome_compactedAt_mergeTurn (number : Int) (first : CanonicalTurnRow)
    (rest : List CanonicalTurnRow) :
    (orNone (mergeTurn number first rest).compactedAt).isSome =
      allCompacted (first :: rest) := by
  have hne : (first :: rest).map (·.compactedAt) ≠ [] := by simp
  have h := stampOfAll_isNone_iff hne
  rw [Bool.eq_iff_iff, ← not_iff_not, Bool.not_eq_true,
    Option.isSome_eq_false_iff, Option.isNone_iff_eq_none]
  refine h.trans ?_
  simp only [allCompacted, List.map_cons, List.mem_cons, List.mem_map,
    exists_eq_or_imp, exists_exists_and_eq_and, List.isEmpty_cons,
    Bool.not_false, Bool.true_and, List.all_cons, Bool.and_eq_true,
    List.all_eq_true, Option.isSome_iff_ne_none, not_and_or, not_forall,
    not_not, exists_prop]

/-- The last number of the prefix is that of its last merged turn. -/
theorem lastPrefixTurn_eq {turns : List (Int × List CanonicalTurnRow)}
    (hne : ∀ turn ∈ turns, turn.2 ≠ []) (last : Int) :
    lastPrefixTurn last turns =
      (((turns.filterMap mergeGroup).takeWhile fun turn =>
        (orNone turn.2.compactedAt).isSome).getLast?.map (·.1)).getD last := by
  induction turns generalizing last with
  | nil => rfl
  | cons turn turns ih =>
      obtain ⟨number, members⟩ := turn
      obtain ⟨first, rest, rfl⟩ :=
        List.exists_cons_of_ne_nil (hne _ List.mem_cons_self)
      rw [show ((number, first :: rest) :: turns).filterMap mergeGroup =
        (number, mergeTurn number first rest) :: turns.filterMap mergeGroup
        from rfl, List.takeWhile_cons, lastPrefixTurn,
        isSome_compactedAt_mergeTurn]
      by_cases hcompacted : allCompacted (first :: rest)
      · rw [if_pos hcompacted, if_pos hcompacted,
          ih fun turn hturn => hne turn (List.mem_cons_of_mem _ hturn),
          List.getLast?_cons]
        cases (((turns.filterMap mergeGroup).takeWhile fun turn =>
          (orNone turn.2.compactedAt).isSome).getLast?) <;> rfl
      · rw [if_neg hcompacted, if_neg hcompacted]
        rfl

theorem map_fst_mergeCanonicalTurnRows (rows : List CanonicalTurnRow) :
    (mergeCanonicalTurnRows rows).map (·.1) =
      (groupedRows rows).map (·.1) := by
  unfold mergeCanonicalTurnRows
  have hne : ∀ turn ∈ groupedRows rows, turn.2 ≠ [] :=
    fun _ hturn => groupedRows_ne_nil hturn
  generalize groupedRows rows = turns at hne
  induction turns with
  | nil => rfl
  | cons turn turns ih =>
      obtain ⟨number, members⟩ := turn
      obtain ⟨first, rest, rfl⟩ :=
        List.exists_cons_of_ne_nil (hne _ List.mem_cons_self)
      rw [List.map_cons,
        ← ih fun turn hturn => hne turn (List.mem_cons_of_mem _ hturn)]
      rfl

theorem increasing_merged (rows : List CanonicalTurnRow) :
    Increasing Prod.fst (mergeCanonicalTurnRows rows) := by
  have h := groupedRows_increasing rows
  rw [Increasing, ← List.pairwise_map (f := Prod.fst) (R := (· < ·))] at h ⊢
  rwa [map_fst_mergeCanonicalTurnRows]

theorem groupedRows_nonneg {turn : Int × List CanonicalTurnRow}
    (h : turn ∈ groupedRows rows) : 0 ≤ turn.1 := by
  unfold groupedRows at h
  split_ifs at h with hall
  · obtain ⟨hmembers, hne⟩ := mem_explicitGroups.mp h
    obtain ⟨row, hrow⟩ := List.exists_mem_of_ne_nil _ hne
    rw [hmembers, List.mem_filter] at hrow
    have hnonneg := List.all_eq_true.mp hall row hrow.1
    have hnumber : row.turnGroupNumber = turn.1 := by simpa using hrow.2
    rw [← hnumber]
    simpa using hnonneg
  · obtain ⟨turn, -, rfl⟩ := List.mem_map.mp h
    exact Int.natCast_nonneg _

theorem merged_nonneg {turn : Int × CanonicalTurnRow}
    (h : turn ∈ mergeCanonicalTurnRows rows) : 0 ≤ turn.1 := by
  have hmem : turn.1 ∈ (mergeCanonicalTurnRows rows).map (·.1) :=
    List.mem_map_of_mem h
  rw [map_fst_mergeCanonicalTurnRows] at hmem
  obtain ⟨turn', hturn', heq⟩ := List.mem_map.mp hmem
  exact heq ▸ groupedRows_nonneg hturn'

/-- The watermark is one more than the number of the last compacted turn. -/
theorem derivedWatermark_eq (rows : List CanonicalTurnRow) :
    deriveCompactedPrefixMessages rows =
      match (compactedPrefix rows).getLast? with
      | none => {}
      | some turn => ⟨(turn.1 + 1) * 2, turn.1⟩ := by
  have hlastTurn : lastPrefixTurn (-1) (groupedRows rows) =
      ((compactedPrefix rows).getLast?.map (·.1)).getD (-1) :=
    lastPrefixTurn_eq (fun _ hturn => groupedRows_ne_nil hturn) (-1)
  unfold deriveCompactedPrefixMessages canonicalPrefixWatermark
  rw [groupCanonicalRowsIntoPairs_eq, hlastTurn]
  dsimp only
  cases hlast : (compactedPrefix rows).getLast? with
  | none => rfl
  | some turn =>
      have hmem : turn ∈ mergeCanonicalTurnRows rows :=
        (List.takeWhile_sublist _).subset (List.mem_of_getLast? hlast)
      exact if_neg (not_lt.mpr (merged_nonneg hmem))

end Prefix

/-! ## Counting with numbers -/

section Count

variable {α : Type} {key : α → Int} {turns : List α}

/-- Increasing numbers grow at least as fast as their places. -/
theorem key_add_le (h : Increasing key turns) {i j : Nat} (hij : i ≤ j)
    (hi : i < turns.length) (hj : j < turns.length) :
    key turns[i] + (j - i : Nat) ≤ key turns[j] := by
  induction j, hij using Nat.le_induction with
  | base => simp
  | succ j hij ih =>
      have hstep := List.pairwise_iff_getElem.mp h j (j + 1) (by omega) hj
        (by omega)
      have hprev := ih (by omega)
      omega

end Count

/-! ## When the watermarks agree -/

section Agreement

variable {rows : List CanonicalTurnRow} {turn : Int × CanonicalTurnRow}

theorem mem_uncompactedTurns :
    turn ∈ uncompactedTurns 0 rows ↔
      turn ∈ mergeCanonicalTurnRows rows ∧
        (orNone turn.2.compactedAt).isSome = false := by
  simp [uncompactedTurns]

theorem mem_merged_of_mem_prefix (h : turn ∈ compactedPrefix rows) :
    turn ∈ mergeCanonicalTurnRows rows :=
  (List.takeWhile_sublist _).subset h

theorem compacted_of_mem_prefix (h : turn ∈ compactedPrefix rows) :
    (orNone turn.2.compactedAt).isSome = true := by
  unfold compactedPrefix at h
  exact List.mem_takeWhile_imp (p := fun turn : Int × CanonicalTurnRow =>
    (orNone turn.2.compactedAt).isSome) h

theorem increasing_prefix (rows : List CanonicalTurnRow) :
    Increasing Prod.fst (compactedPrefix rows) :=
  (increasing_merged rows).sublist (List.takeWhile_sublist _)

/-- The count is right exactly if the prefix is numbered without gaps. -/
theorem count_iff (rows : List CanonicalTurnRow) :
    (deriveCompactedPrefixMessages rows).compactedPrefixMessages =
        2 * (compactedPrefix rows).length ↔ PrefixNumbered rows := by
  rw [derivedWatermark_eq]
  have hincreasing := increasing_prefix rows
  have hnonneg : ∀ turn ∈ compactedPrefix rows, 0 ≤ turn.1 :=
    fun _ hturn => merged_nonneg ( mem_merged_of_mem_prefix hturn)
  unfold PrefixNumbered
  generalize compactedPrefix rows = leading at hincreasing hnonneg
  cases hlast : leading.getLast? with
  | none =>
      rw [List.getLast?_eq_none_iff] at hlast
      subst hlast
      simp
  | some turn =>
      obtain ⟨front, rfl⟩ := List.getLast?_eq_some_iff.mp hlast
      have hlast : front.length < (front ++ [turn]).length := by simp
      have hat : (front ++ [turn])[front.length] = turn := by simp
      constructor
      · -- the numbers cannot grow faster than the places to reach the last one
        intro hcount i turn' hget
        obtain ⟨hi, rfl⟩ := List.getElem?_eq_some_iff.mp hget
        rw [List.length_append, List.length_singleton] at hi
        have hfirst := key_add_le hincreasing (Nat.zero_le i) (by simp) (by simpa using hi)
        have hbound := key_add_le hincreasing (Nat.lt_succ_iff.mp hi) (by simpa using hi)
          (by simp)
        have hzero := hnonneg _ (List.getElem_mem
          (show 0 < (front ++ [turn]).length by simp))
        rw [hat] at hbound
        simp only [List.length_append, List.length_singleton] at hcount
        push_cast at hcount
        omega
      · intro hnumbered
        have hnumber := hnumbered front.length turn (by simp)
        simp only [List.length_append, List.length_singleton]
        push_cast
        omega

/-- The leading turns are below the watermark, all others are above it. -/
theorem lt_watermark_iff (h : turn ∈ mergeCanonicalTurnRows rows) :
    2 * turn.1 < (deriveCompactedPrefixMessages rows).compactedPrefixMessages ↔
      turn ∈ compactedPrefix rows := by
  have hincreasing := increasing_merged rows
  have hnonneg := merged_nonneg h
  rw [derivedWatermark_eq]
  unfold compactedPrefix
  rw [← List.takeWhile_append_dropWhile (l := mergeCanonicalTurnRows rows)
    (p := fun turn => (orNone turn.2.compactedAt).isSome),
    increasing_append] at hincreasing
  rw [← List.takeWhile_append_dropWhile (l := mergeCanonicalTurnRows rows)
    (p := fun turn => (orNone turn.2.compactedAt).isSome),
    List.mem_append] at h
  obtain ⟨hleading, -, hlater⟩ := hincreasing
  generalize (mergeCanonicalTurnRows rows).takeWhile (fun turn =>
    (orNone turn.2.compactedAt).isSome) = leading at h hleading hlater ⊢
  cases hlast : leading.getLast? with
  | none =>
      rw [List.getLast?_eq_none_iff] at hlast
      subst hlast
      simp only [List.not_mem_nil, iff_false, not_lt]
      omega
  | some last =>
      obtain ⟨front, rfl⟩ := List.getLast?_eq_some_iff.mp hlast
      dsimp only
      constructor
      · intro hlt
        refine h.resolve_right fun hmem => ?_
        have := hlater last (by simp) turn hmem
        omega
      · intro hmem
        rcases List.mem_append.mp hmem with hmem | hmem
        · have := (increasing_append.mp hleading).2.2 turn hmem last (by simp)
          omega
        · rw [List.mem_singleton.mp hmem]
          omega

end Agreement

/--
The watermarks agree and count the compacted prefix exactly if its turns are
numbered without a gap.
-/
theorem watermarksAgree_iff (rows : List CanonicalTurnRow) :
    WatermarksAgree rows ↔ PrefixNumbered rows := by
  constructor
  · intro h
    exact (count_iff rows).mp h.count
  · intro h
    refine ⟨?_, ?_, ?_, (count_iff rows).mpr h, ?_, ?_⟩
    · unfold refreshCompactionWatermark deriveCompactedPrefixMessages
      cases rows with
      | nil => rfl
      | cons row rows => rfl
    · intro markers hmarkers
      unfold deriveSessionStateMarkers at hmarkers
      dsimp only at hmarkers
      split_ifs at hmarkers
      · cases hmarkers
      · cases hmarkers
      · cases hmarkers
        rfl
    · intro hnone
      unfold deriveSessionStateMarkers at hnone
      unfold deriveCompactedPrefixMessages
      dsimp only at hnone
      split_ifs at hnone with hrows hpairs
      · rw [List.isEmpty_iff.mp hrows]
        rfl
      · rw [List.isEmpty_iff.mp hpairs]
        rfl
    · intro turn hturn
      obtain ⟨hmem, hopen⟩ := mem_uncompactedTurns.mp hturn
      refine not_lt.mp fun hlt => ?_
      have hcompacted := compacted_of_mem_prefix ((lt_watermark_iff hmem).mp hlt)
      rw [hopen] at hcompacted
      cases hcompacted
    · intro turn hfind
      obtain ⟨habove, before, after, hsplit, hbefore⟩ :=
        List.find?_eq_some_iff_append.mp hfind
      have hmem : turn ∈ mergeCanonicalTurnRows rows := by simp [hsplit]
      refine mem_uncompactedTurns.mpr ⟨hmem, ?_⟩
      by_contra hcompacted
      rw [Bool.not_eq_false] at hcompacted
      -- then it would be in the prefix, after the turns below the watermark
      have hleading : ∀ earlier ∈ before,
          (orNone earlier.2.compactedAt).isSome = true := by
        intro earlier hearlier
        have hlt := hbefore earlier hearlier
        rw [Bool.not_eq_true', decide_eq_false_iff_not, not_le] at hlt
        have hprefix := (lt_watermark_iff (by simp [hsplit, hearlier])).mp hlt
        exact compacted_of_mem_prefix hprefix
      have hprefix : turn ∈ compactedPrefix rows := by
        rw [compactedPrefix, hsplit, List.takeWhile_append_of_pos hleading,
          List.takeWhile_cons, if_pos hcompacted]
        simp
      have hlt := (lt_watermark_iff hmem).mpr hprefix
      rw [decide_eq_true_iff] at habove
      omega

/-- The first turn was deleted, the second compacted; the third one is open. -/
def gappedRows : List CanonicalTurnRow :=
  [{ canonicalTurnId := 2, conversationId := "c", turnGroupNumber := 1,
     userContent := "q2", assistantContent := "a2",
     compactedAt := some "2024" },
   { canonicalTurnId := 3, conversationId := "c", turnGroupNumber := 2,
     userContent := "q3", assistantContent := "a3" }]

/-- One compacted turn, but a watermark of four messages. -/
theorem gapped_watermark_overshoots : ¬ WatermarksAgree gappedRows := by
  intro h
  have hcount := h.count
  revert hcount
  decide +kernel

end VirtualContext
