import VirtualContext.Storage.GroupingFacts
import VirtualContext.Storage.StoreRuns

/-!
# The two ways of grouping rows

`recompute_canonical_turn_groups` gives every row a number, a blank row as well;
the reading of the turns off the contents drops blank rows.  The two agree on
every conversation without a blank row, and on no other.
-/

namespace VirtualContext

open VirtualContext.Library

/-! ## Numbering the turns -/

/-- The dictionary entry of each turn, once its rows carry its number. -/
def numbered (turns : List (List CanonicalTurnRow)) :
    Dictionary Int CanonicalTurnRow :=
  turns.zipIdx.map fun turn =>
    ((turn.2 : Int), turn.1.map fun row => row.setGroup turn.2)

theorem numbered_append (turns : List (List CanonicalTurnRow))
    (turn : List CanonicalTurnRow) :
    numbered (turns ++ [turn]) =
      numbered turns ++
        [((turns.length : Int), turn.map fun row => row.setGroup turns.length)] := by
  simp [numbered, List.zipIdx_append]

theorem mem_keys_numbered {turns : List (List CanonicalTurnRow)} {key : Int} :
    key ∈ (numbered turns).keys → key < turns.length := by
  intro h
  simp only [numbered, Dictionary.keys, List.map_map, List.mem_map,
    Function.comp_apply] at h
  obtain ⟨turn, hturn, rfl⟩ := h
  have := List.snd_lt_of_mem_zipIdx hturn
  simpa using this

theorem numbered_increasing (turns : List (List CanonicalTurnRow)) :
    Increasing Prod.fst (numbered turns) := by
  induction turns using List.reverseRecOn with
  | nil => exact List.Pairwise.nil
  | append_singleton turns turn ih =>
      rw [numbered_append, increasing_append]
      refine ⟨ih, List.pairwise_singleton _ _, ?_⟩
      intro entry hentry last hlast
      obtain rfl := List.mem_singleton.mp hlast
      exact mem_keys_numbered (List.mem_map_of_mem hentry)

/-- How the variables of the numbering follow the scan of the contents. -/
structure Follows (current pending : Int) (scan : GroupScan) : Prop where
  count : current + 1 = scan.turns.length
  waiting : scan.pending ≠ [] → pending = current
  idle : scan.pending = [] → pending < 0

/-- Adding one numbered row that is not blank. -/
private theorem add_numbered_new {current : Int} {scan : GroupScan}
    (hcount : current + 1 = scan.turns.length) (row : CanonicalTurnRow) :
    (numbered scan.turns).add (current + 1) (row.setGroup (current + 1)) =
      numbered (scan.turns ++ [[row]]) := by
  rw [Dictionary.add_of_not_mem, numbered_append, hcount]
  · rfl
  · intro hmem
    have := mem_keys_numbered hmem
    omega

/-- A row that opens a turn in the scan gets the next number. -/
private theorem Follows.step_new {current pending pending' : Int}
    {scan : GroupScan} (h : Follows current pending scan)
    (row : CanonicalTurnRow)
    (hturns : (scan.step row).turns = scan.turns ++ [[row]])
    (hwaiting : (scan.step row).pending ≠ [] → pending' = current + 1)
    (hidle : (scan.step row).pending = [] → pending' < 0) :
    Follows (current + 1) pending' (scan.step row) ∧
      (numbered scan.turns).add (current + 1) (row.setGroup (current + 1)) =
        numbered (scan.step row).turns := by
  refine ⟨⟨?_, hwaiting, hidle⟩, ?_⟩
  · rw [hturns, h.count]
    simp
  · rw [hturns]
    exact add_numbered_new h.count row

/-- One row is numbered as the scan places it. -/
private theorem Follows.step {current pending : Int} {scan : GroupScan}
    (h : Follows current pending scan) {row : CanonicalTurnRow}
    (hblank : row.isBlank = false) :
    ∃ group current' pending',
      (∀ rows, assignGroups current pending (row :: rows) =
        group :: assignGroups current' pending' rows) ∧
      Follows current' pending' (scan.step row) ∧
      (numbered scan.turns).add group (row.setGroup group) =
        numbered (scan.step row).turns := by
  have hcurrent : 0 ≤ current + 1 := by
    rw [h.count]
    exact Int.natCast_nonneg _
  cases hu : row.hasUser with
  | true =>
      cases ha : row.hasAssistant with
      | true =>
          have hidle : (scan.step row).pending = [] := by
            simp [GroupScan.step, hu, ha]
          have hturns : (scan.step row).turns = scan.turns ++ [[row]] := by
            rw [GroupScan.turns_of_idle hidle]
            simp [GroupScan.step, hu, ha, GroupScan.turns]
          exact ⟨_, _, -1, fun rows => by simp [assignGroups, hu, ha],
            h.step_new row hturns (fun hne => absurd hidle hne)
              fun _ => by omega⟩
      | false =>
          have hturns : (scan.step row).turns = scan.turns ++ [[row]] := by
            simp [GroupScan.step, hu, ha, GroupScan.turns,
              GroupScan.flushPending]
          refine ⟨_, _, current + 1, fun rows => by simp [assignGroups, hu, ha],
            h.step_new row hturns (fun _ => rfl) fun hnil => ?_⟩
          simp [GroupScan.step, hu, ha] at hnil
  | false =>
      have ha : row.hasAssistant = true := by
        simpa [CanonicalTurnRow.isBlank, hu] using hblank
      by_cases hpending : scan.pending = []
      · have hidle := h.idle hpending
        have hturns : (scan.step row).turns = scan.turns ++ [[row]] := by
          simp [GroupScan.step, hu, ha, GroupScan.turns,
            GroupScan.flushPending, hpending]
        refine ⟨_, _, pending,
          fun rows => by simp [assignGroups, hu, ha, not_le.mpr hidle],
          h.step_new row hturns (fun hne => ?_) fun _ => hidle⟩
        simp [GroupScan.step, hu, ha, hpending] at hne
      · -- the assistant row answers the waiting user row
        obtain rfl := h.waiting hpending
        have hlast := GroupScan.turns_of_waiting hpending
        have hlength : (pending : Int) = scan.grouped.length := by
          have := h.count
          rw [hlast] at this
          simpa using this
        obtain ⟨first, rest, hcons⟩ := List.exists_cons_of_ne_nil hpending
        have hstep : scan.step row =
            ⟨scan.grouped ++ [scan.pending ++ [row]], []⟩ := by
          simp [GroupScan.step, hu, ha, GroupScan.flushPending, hcons]
        have hturns : (scan.step row).turns =
            scan.grouped ++ [scan.pending ++ [row]] := by
          rw [hstep]
          rfl
        have hnonneg : 0 ≤ pending := by
          rw [hlength]
          exact Int.natCast_nonneg _
        refine ⟨pending, pending, -1,
          fun rows => by simp [assignGroups, hu, ha, hnonneg],
          ⟨?_, ?_, fun _ => by omega⟩, ?_⟩
        · rw [hturns, hlength]
          simp
        · rw [hstep]
          exact fun hne => absurd rfl hne
        · rw [hturns, hlast, numbered_append, numbered_append, hlength,
            Dictionary.add_last]
          · simp
          · intro hmem
            exact absurd (mem_keys_numbered hmem) (lt_irrefl _)

private theorem foldl_numbered (rows : List CanonicalTurnRow)
    (hrows : ∀ row ∈ rows, row.isBlank = false) {current pending : Int}
    {scan : GroupScan} (h : Follows current pending scan) :
    (List.zipWith CanonicalTurnRow.setGroup rows
        (assignGroups current pending rows)).foldl
        (fun entries row => entries.add row.turnGroupNumber row)
        (numbered scan.turns) =
      numbered (rows.foldl GroupScan.step scan).turns := by
  induction rows generalizing current pending scan with
  | nil => rfl
  | cons row rows ih =>
      obtain ⟨group, current', pending', hassign, hfollows, hadd⟩ :=
        h.step (hrows row List.mem_cons_self)
      rw [hassign, List.zipWith_cons_cons, List.foldl_cons, List.foldl_cons,
        CanonicalTurnRow.setGroup_group, hadd]
      exact ih (fun r hr => hrows r (List.mem_cons_of_mem _ hr)) hfollows

/-! ## The rows as the recomputation numbers them -/

/-- What `recompute_canonical_turn_groups` makes of the loaded rows. -/
def renumber (rows : List CanonicalTurnRow) : List CanonicalTurnRow :=
  List.zipWith CanonicalTurnRow.setGroup rows (turnGroups rows)

theorem renumber_nonneg (rows : List CanonicalTurnRow) :
    ∀ row ∈ renumber rows, 0 ≤ row.turnGroupNumber := by
  intro row hrow
  obtain ⟨i, hi, rfl⟩ := List.getElem_of_mem hrow
  simp only [renumber, List.getElem_zipWith, CanonicalTurnRow.setGroup_group]
  exact turnGroups_nonneg rows _ (List.getElem_mem _)

/-- Renumbered rows without a blank one are grouped as their contents say. -/
theorem groupedRows_renumber {rows : List CanonicalTurnRow}
    (hrows : ∀ row ∈ rows, row.isBlank = false) :
    groupedRows (renumber rows) = numbered (contentGroups rows) := by
  rw [groupedRows_explicit (renumber_nonneg rows), explicitGroups,
    Dictionary.ofPairs, List.foldl_map]
  have hstart : Follows (-1) (-1) ⟨[], []⟩ :=
    ⟨rfl, fun hne => absurd rfl hne, fun _ => by omega⟩
  have h := foldl_numbered rows hrows hstart
  have hnil : numbered (GroupScan.turns ⟨[], []⟩) = [] := rfl
  rw [hnil] at h
  rw [renumber, turnGroups, h]
  exact orderBy_of_increasing (numbered_increasing _)

/-- Rows with a number missing are grouped by their contents. -/
theorem groupedRows_unset (rows : List CanonicalTurnRow) :
    groupedRows (rows.map fun row => row.setGroup (-1)) =
      (contentGroups rows).zipIdx.map fun turn =>
        ((turn.2 : Int), turn.1.map fun row => row.setGroup (-1)) := by
  have hcontent := contentGroups_map (fun row => row.setGroup (-1))
    (fun _ => rfl) (fun _ => rfl) rows
  cases rows with
  | nil => rfl
  | cons row rows =>
      unfold groupedRows
      rw [if_neg (by simp), hcontent]
      simp [List.zipIdx_map]

/-! ## When the groupings agree -/

/-- The turns with the numbers their rows carry taken off again. -/
def withoutNumbers (turns : List (Int × List CanonicalTurnRow)) :
    List (Int × List CanonicalTurnRow) :=
  turns.map fun turn => (turn.1, turn.2.map fun row => row.setGroup (-1))

theorem groupings_agree_of_renumber (rows : List CanonicalTurnRow) :
    withoutNumbers (groupedRows (renumber rows)) =
        groupedRows (rows.map fun row => row.setGroup (-1)) ↔
      ∀ row ∈ rows, row.isBlank = false := by
  rw [groupedRows_unset]
  constructor
  · -- the explicit groups hold every row, the others only rows with contents
    intro h
    have hmembers := congrArg (fun turns => (turns.flatMap Prod.snd).length) h
    have hexplicit : ((withoutNumbers (groupedRows (renumber rows))).flatMap
        Prod.snd).length = rows.length := by
      rw [withoutNumbers, groupedRows_explicit (renumber_nonneg rows),
        List.flatMap_map, ← List.map_flatMap, List.length_map,
        (explicitGroups_members _).length_eq]
      simp [renumber]
    have hcontent : (((contentGroups rows).zipIdx.map fun turn =>
        ((turn.2 : Int), turn.1.map fun row => row.setGroup (-1))).flatMap
          Prod.snd).length = (rows.filter fun row => !row.isBlank).length := by
      rw [← flatten_contentGroups, List.flatMap_map, ← List.map_flatMap,
        List.length_map]
      congr 1
      conv_rhs => rw [← List.zipIdx_map_fst 0 (contentGroups rows)]
      rfl
    rw [hexplicit, hcontent] at hmembers
    have hall := List.length_filter_eq_length_iff.mp hmembers.symm
    intro row hrow
    simpa using hall row hrow
  · intro hrows
    rw [groupedRows_renumber hrows, withoutNumbers, numbered, List.map_map]
    apply List.map_congr_left
    intro turn _
    simp

/--
Recomputing the numbers and grouping by them gives the turns, by number and
members, that the same rows have without any numbers.
-/
def GroupingsAgree (s : Store) (conversationId : ConversationId) : Prop :=
  withoutNumbers (groupedRows
      (((recomputeCanonicalTurnGroups conversationId).run .quiet s.conn).2.view.loadRows
        conversationId)) =
    groupedRows ((s.tables.loadRows conversationId).map fun row =>
      row.setGroup (-1))

instance (s : Store) (conversationId : ConversationId) :
    Decidable (GroupingsAgree s conversationId) :=
  inferInstanceAs (Decidable (_ = _))

theorem groupingsAgree_iff_no_blank (s : Store)
    (conversationId : ConversationId) :
    GroupingsAgree s conversationId ↔
      ∀ row ∈ s.tables.loadRows conversationId, row.isBlank = false := by
  unfold GroupingsAgree
  rw [Store.conn, recomputeCanonicalTurnGroups_yields.run, Conn.view_idle,
    Tables.loadRows_regrouped]
  exact groupings_agree_of_renumber _

/-- A question, a blank row and an answer. -/
def interruptedTurn : Store :=
  let row : CanonicalTurnRecord := { conversationId := "c" }
  .holding []
    ⟨[{ row with canonicalTurnId := 1, sortKey := 1000, userContent := "q" },
      { row with canonicalTurnId := 2, sortKey := 2000 },
      { row with canonicalTurnId := 3, sortKey := 3000, assistantContent := "a" }],
      by decide, by decide⟩ 3 (by decide)

/-- The answer is in turn 2 by its number and in turn 1 by the contents. -/
theorem groupings_disagree_on_interruptedTurn :
    ¬ ∀ (s : Store) (conversationId : ConversationId),
      GroupingsAgree s conversationId :=
  fun h => absurd (h interruptedTurn "c") (by decide +kernel)

end VirtualContext
