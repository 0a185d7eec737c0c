import Mathlib.Data.List.Induction
import Mathlib.Data.List.Pairwise
import VirtualContext.Storage.Grouping

/-!
# Facts about grouped rows

Both ways of grouping split rows into nonempty turns that have no row in common
and carry different numbers, and neither looks at more of a row than its
contents and its group number.
-/

namespace VirtualContext

open VirtualContext.Library

/-! ## Scanning the contents -/

namespace GroupScan

/-- The turns found so far, the waiting one included. -/
def turns (scan : GroupScan) : List (List CanonicalTurnRow) :=
  scan.flushPending.grouped

theorem turns_of_idle {scan : GroupScan} (h : scan.pending = []) :
    scan.turns = scan.grouped := by
  simp [turns, flushPending, h]

theorem turns_of_waiting {scan : GroupScan} (h : scan.pending ≠ []) :
    scan.turns = scan.grouped ++ [scan.pending] := by
  unfold turns flushPending
  split
  · contradiction
  · rfl

@[simp] theorem pending_flushPending (scan : GroupScan) :
    scan.flushPending.pending = [] := by
  unfold flushPending
  split
  · assumption
  · rfl

/-- Every row that is not blank joins exactly one turn, in order. -/
theorem flatten_turns_step (scan : GroupScan) (row : CanonicalTurnRow) :
    (scan.step row).turns.flatten =
      scan.turns.flatten ++ if row.isBlank then [] else [row] := by
  by_cases hpending : scan.pending = []
  · cases hu : row.hasUser <;> cases ha : row.hasAssistant <;>
      simp [step, turns, flushPending, CanonicalTurnRow.isBlank, hu, ha,
        hpending]
  · obtain ⟨first, rest, hcons⟩ := List.exists_cons_of_ne_nil hpending
    cases hu : row.hasUser <;> cases ha : row.hasAssistant <;>
      simp [step, turns, flushPending, CanonicalTurnRow.isBlank, hu, ha, hcons]

theorem flatten_turns_foldl (rows : List CanonicalTurnRow) (scan : GroupScan) :
    (rows.foldl step scan).turns.flatten =
      scan.turns.flatten ++ rows.filter fun row => !row.isBlank := by
  induction rows generalizing scan with
  | nil => simp
  | cons row rows ih =>
      rw [List.foldl_cons, ih, flatten_turns_step, List.append_assoc]
      cases h : row.isBlank <;> simp [h]

end GroupScan

/-- The turns read off the contents are consecutive and drop the blank rows. -/
theorem flatten_contentGroups (rows : List CanonicalTurnRow) :
    (contentGroups rows).flatten = rows.filter fun row => !row.isBlank := by
  exact GroupScan.flatten_turns_foldl rows ⟨[], []⟩

/-- The contents of a row decide its turn, not its number. -/
theorem contentGroups_map (f : CanonicalTurnRow → CanonicalTurnRow)
    (huser : ∀ row, (f row).hasUser = row.hasUser)
    (hassistant : ∀ row, (f row).hasAssistant = row.hasAssistant)
    (rows : List CanonicalTurnRow) :
    contentGroups (rows.map f) = (contentGroups rows).map (List.map f) := by
  have hflush : ∀ scan : GroupScan,
      (⟨scan.grouped.map (List.map f), scan.pending.map f⟩ :
        GroupScan).flushPending =
      ⟨scan.flushPending.grouped.map (List.map f),
        scan.flushPending.pending.map f⟩ := by
    rintro ⟨grouped, pending⟩
    cases pending <;> simp [GroupScan.flushPending]
  have hstep : ∀ (scan : GroupScan) (row : CanonicalTurnRow),
      (⟨scan.grouped.map (List.map f), scan.pending.map f⟩ : GroupScan).step
        (f row) =
      ⟨(scan.step row).grouped.map (List.map f),
        (scan.step row).pending.map f⟩ := by
    rintro ⟨grouped, pending⟩ row
    unfold GroupScan.step
    rw [huser, hassistant]
    cases row.hasUser <;> cases row.hasAssistant <;> cases pending <;>
      simp [GroupScan.flushPending]
  have hfold : ∀ (rows : List CanonicalTurnRow) (scan : GroupScan),
      (rows.map f).foldl GroupScan.step
        ⟨scan.grouped.map (List.map f), scan.pending.map f⟩ =
      ⟨(rows.foldl GroupScan.step scan).grouped.map (List.map f),
        (rows.foldl GroupScan.step scan).pending.map f⟩ := by
    intro rows
    induction rows with
    | nil => intro scan; rfl
    | cons row rows ih =>
        intro scan
        rw [List.map_cons, List.foldl_cons, hstep, ih]
        rfl
  have h := hfold rows ⟨[], []⟩
  simp only [List.map_nil] at h
  rw [contentGroups, h, hflush]
  rfl

/-! ## Explicit groups -/

theorem groupedRows_explicit {rows : List CanonicalTurnRow}
    (h : ∀ row ∈ rows, 0 ≤ row.turnGroupNumber) :
    groupedRows rows = explicitGroups rows := by
  unfold groupedRows
  rw [if_pos]
  simpa [List.all_eq_true] using h

/-- The members of the explicit groups are the rows. -/
theorem explicitGroups_members (rows : List CanonicalTurnRow) :
    ((explicitGroups rows).flatMap Prod.snd).Perm rows := by
  refine ((orderBy_perm Prod.fst _).flatMap_right Prod.snd).trans ?_
  have hadd : ∀ (entries : Dictionary Int CanonicalTurnRow)
      (row : CanonicalTurnRow),
      ((entries.add row.turnGroupNumber row).flatMap Prod.snd).Perm
        (entries.flatMap Prod.snd ++ [row]) := by
    intro entries row
    induction entries with
    | nil => simp [Dictionary.add]
    | cons entry rest ih =>
        obtain ⟨first, members⟩ := entry
        by_cases h : first = row.turnGroupNumber
        · simp only [Dictionary.add, h, if_true, List.flatMap_cons,
            List.append_assoc]
          exact List.Perm.append_left _ List.perm_append_comm
        · simp only [Dictionary.add, h, if_false, List.flatMap_cons,
            List.append_assoc]
          exact List.Perm.append_left _ ih
  induction rows using List.reverseRecOn with
  | nil => simp [Dictionary.ofPairs]
  | append_singleton rows row ih =>
      rw [List.map_append, Dictionary.ofPairs, List.foldl_append]
      exact (hadd _ row).trans (List.Perm.append_right [row] ih)

theorem explicitGroups_map (f : CanonicalTurnRow → CanonicalTurnRow)
    (hgroup : ∀ row, (f row).turnGroupNumber = row.turnGroupNumber)
    (rows : List CanonicalTurnRow) :
    explicitGroups (rows.map f) =
      (explicitGroups rows).map fun turn => (turn.1, turn.2.map f) := by
  have hpairs : (rows.map f).map (fun row => (row.turnGroupNumber, row)) =
      (rows.map fun row => (row.turnGroupNumber, row)).map
        fun pair => (pair.1, f pair.2) := by
    simp [List.map_map, Function.comp_def, hgroup]
  unfold explicitGroups
  rw [hpairs, Dictionary.ofPairs_map]
  exact orderBy_map _ _ fun _ _ _ _ => Iff.rfl

theorem mem_explicitGroups {rows : List CanonicalTurnRow} {number : Int}
    {members : List CanonicalTurnRow} :
    (number, members) ∈ explicitGroups rows ↔
      members = rows.filter (fun row => row.turnGroupNumber = number) ∧
        members ≠ [] := by
  rw [explicitGroups, mem_orderBy, Dictionary.mem_ofPairs, List.filter_map,
    List.map_map]
  simp [Function.comp_def]

/-! ## Either way -/

/-- A change of rows that leaves their contents and numbers alone. -/
theorem groupedRows_map (f : CanonicalTurnRow → CanonicalTurnRow)
    (huser : ∀ row, (f row).hasUser = row.hasUser)
    (hassistant : ∀ row, (f row).hasAssistant = row.hasAssistant)
    (hgroup : ∀ row, (f row).turnGroupNumber = row.turnGroupNumber)
    (rows : List CanonicalTurnRow) :
    groupedRows (rows.map f) =
      (groupedRows rows).map fun turn => (turn.1, turn.2.map f) := by
  unfold groupedRows
  have hall : ((rows.map f).all fun row => decide (0 ≤ row.turnGroupNumber)) =
      rows.all fun row => decide (0 ≤ row.turnGroupNumber) := by
    simp [List.all_map, Function.comp_def, hgroup]
  rw [hall]
  split_ifs
  · exact explicitGroups_map f hgroup rows
  · rw [contentGroups_map f huser hassistant, List.zipIdx_map]
    simp [List.map_map, Function.comp_def]

theorem contentGroups_ne_nil (rows : List CanonicalTurnRow) :
    ∀ turn ∈ contentGroups rows, turn ≠ [] := by
  have hstep : ∀ (scan : GroupScan) (row : CanonicalTurnRow),
      (∀ turn ∈ scan.turns, turn ≠ []) →
        ∀ turn ∈ (scan.step row).turns, turn ≠ [] := by
    rintro ⟨grouped, pending⟩ row h
    cases pending <;> cases hu : row.hasUser <;> cases ha : row.hasAssistant <;>
      simp_all [GroupScan.step, GroupScan.turns, GroupScan.flushPending,
        or_imp]
  have hfold : ∀ (rows : List CanonicalTurnRow) (scan : GroupScan),
      (∀ turn ∈ scan.turns, turn ≠ []) →
        ∀ turn ∈ (rows.foldl GroupScan.step scan).turns, turn ≠ [] := by
    intro rows
    induction rows with
    | nil => exact fun scan h => h
    | cons row rows ih => exact fun scan h => ih _ (hstep scan row h)
  exact hfold rows ⟨[], []⟩ (by simp [GroupScan.turns, GroupScan.flushPending])

theorem groupedRows_ne_nil {rows : List CanonicalTurnRow}
    {turn : Int × List CanonicalTurnRow} (h : turn ∈ groupedRows rows) :
    turn.2 ≠ [] := by
  unfold groupedRows at h
  split_ifs at h
  · exact (mem_explicitGroups.mp h).2
  · obtain ⟨⟨members, i⟩, hmem, rfl⟩ := List.mem_map.mp h
    exact contentGroups_ne_nil rows _ (List.fst_mem_of_mem_zipIdx hmem)

theorem groupedRows_increasing (rows : List CanonicalTurnRow) :
    Increasing Prod.fst (groupedRows rows) := by
  unfold groupedRows
  split_ifs
  · exact increasing_orderBy (Dictionary.keys_ofPairs_nodup _)
  · rw [Increasing, List.pairwise_map]
    refine List.Pairwise.imp (fun h => Int.ofNat_lt.mpr h) ?_
    rw [← List.pairwise_map (f := Prod.snd) (R := (· < ·)),
      List.zipIdx_map_snd]
    exact List.pairwise_lt_range'

/-- The members of the turns, blank rows aside, are the rows. -/
theorem groupedRows_members (rows : List CanonicalTurnRow) :
    ((groupedRows rows).flatMap Prod.snd).Subperm rows := by
  unfold groupedRows
  split_ifs
  · exact (explicitGroups_members rows).subperm
  · have hmembers : ((contentGroups rows).zipIdx.map fun turn =>
        ((turn.2 : Int), turn.1)).flatMap Prod.snd =
        (contentGroups rows).flatten := by
      rw [List.flatMap_map]
      conv_rhs => rw [← List.zipIdx_map_fst 0 (contentGroups rows)]
      rfl
    rw [hmembers, flatten_contentGroups]
    exact List.filter_sublist.subperm

/-- Two rows of a turn belong to the same turn. -/
theorem groupedRows_disjoint {rows : List CanonicalTurnRow}
    (hrows : (rows.map (·.canonicalTurnId)).Nodup)
    {turn turn' : Int × List CanonicalTurnRow} (hturn : turn ∈ groupedRows rows)
    (hturn' : turn' ∈ groupedRows rows) {row row' : CanonicalTurnRow}
    (hrow : row ∈ turn.2) (hrow' : row' ∈ turn'.2)
    (hid : row.canonicalTurnId = row'.canonicalTurnId) : turn = turn' := by
  obtain ⟨sub, hperm, hsub⟩ := groupedRows_members rows
  have hmem : ∀ {turn : Int × List CanonicalTurnRow} {row : CanonicalTurnRow},
      turn ∈ groupedRows rows → row ∈ turn.2 → row ∈ rows := fun ht hr =>
    hsub.subset (hperm.mem_iff.mpr (List.mem_flatMap.mpr ⟨_, ht, hr⟩))
  obtain rfl : row = row' :=
    List.inj_on_of_nodup_map hrows (hmem hturn hrow) (hmem hturn' hrow') hid
  have hnodup : ((groupedRows rows).flatMap Prod.snd).Nodup :=
    hperm.nodup_iff.mp (hrows.of_map.sublist hsub)
  by_contra hne
  have hdisjoint := (List.nodup_flatMap.mp hnodup).2
  have : Std.Symm (Function.onFun List.Disjoint
      (Prod.snd : Int × List CanonicalTurnRow → List CanonicalTurnRow)) :=
    ⟨fun _ _ h _ hleft hright => h hright hleft⟩
  exact List.disjoint_left.mp (hdisjoint.forall hturn hturn' hne) hrow hrow'

theorem mem_of_mem_groupedRows {rows : List CanonicalTurnRow}
    {turn : Int × List CanonicalTurnRow} (hturn : turn ∈ groupedRows rows)
    {row : CanonicalTurnRow} (hrow : row ∈ turn.2) : row ∈ rows :=
  (groupedRows_members rows).subset (List.mem_flatMap.mpr ⟨_, hturn, hrow⟩)

/-! ## The row that stands for a turn -/

/-- The member whose identifier the merged row carries. -/
def identityRow (first : CanonicalTurnRow) (rest : List CanonicalTurnRow) :
    CanonicalTurnRow :=
  ((first :: rest).find? (·.hasUser)).getD first

theorem identityRow_mem (first : CanonicalTurnRow)
    (rest : List CanonicalTurnRow) : identityRow first rest ∈ first :: rest := by
  unfold identityRow
  cases h : (first :: rest).find? (·.hasUser) with
  | none => simp
  | some row => exact List.mem_of_find?_eq_some h

private theorem mergeContents_id {merged row : CanonicalTurnRow}
    (hmerged : merged.canonicalTurnId ≠ 0) (hrow : row.canonicalTurnId ≠ 0) :
    (mergeContents merged row).canonicalTurnId =
      if row.hasUser && !merged.hasUser then row.canonicalTurnId
      else merged.canonicalTurnId := by
  unfold mergeContents
  dsimp only
  split_ifs <;> simp_all

private theorem mergeContents_hasUser (merged row : CanonicalTurnRow) :
    (mergeContents merged row).hasUser = (merged.hasUser || row.hasUser) := by
  unfold mergeContents
  dsimp only
  cases hm : merged.hasUser <;> cases hr : row.hasUser <;>
    cases hma : merged.hasAssistant <;> cases hra : row.hasAssistant <;>
    simp_all [CanonicalTurnRow.hasUser, CanonicalTurnRow.hasAssistant]

private theorem foldl_merge_id (members : List CanonicalTurnRow)
    (merged : CanonicalTurnRow) (hmerged : merged.canonicalTurnId ≠ 0)
    (hmembers : ∀ row ∈ members, row.canonicalTurnId ≠ 0) :
    (members.foldl (fun merged row =>
        mergeMetadata (mergeContents merged row) row) merged).canonicalTurnId =
      if merged.hasUser then merged.canonicalTurnId
      else ((members.find? (·.hasUser)).map (·.canonicalTurnId)).getD
        merged.canonicalTurnId := by
  induction members generalizing merged with
  | nil => simp
  | cons row members ih =>
      have hrow := hmembers row List.mem_cons_self
      have hid := mergeContents_id hmerged hrow
      have hstep : (mergeMetadata (mergeContents merged row) row).canonicalTurnId
          = (mergeContents merged row).canonicalTurnId := rfl
      have huser : (mergeMetadata (mergeContents merged row) row).hasUser =
          (merged.hasUser || row.hasUser) := mergeContents_hasUser merged row
      rw [List.foldl_cons, ih _ ?_ fun r hr =>
        hmembers r (List.mem_cons_of_mem _ hr), huser, hstep, hid]
      · cases hm : merged.hasUser <;> cases hr : row.hasUser <;> simp [hr]
      · rw [hstep, hid]
        split_ifs <;> assumption

theorem mergeTurn_id {number : Int} {first : CanonicalTurnRow}
    {rest : List CanonicalTurnRow}
    (h : ∀ row ∈ first :: rest, row.canonicalTurnId ≠ 0) :
    (mergeTurn number first rest).canonicalTurnId =
      (identityRow first rest).canonicalTurnId := by
  unfold mergeTurn identityRow
  dsimp only
  refine (foldl_merge_id (first :: rest) _ ?_ h).trans ?_
  · exact h first List.mem_cons_self
  cases hfind : (first :: rest).find? (·.hasUser) <;>
    simp [CanonicalTurnRow.hasUser]

/-- A turn has a stamp exactly if each of its members has one. -/
theorem stampOfAll_isNone_iff {values : List (Option String)} (h : values ≠ []) :
    orNone (stampOfAll values) = none ↔ ∃ value ∈ values, orNone value = none := by
  have hle : (values.filterMap orNone).length ≤ values.length :=
    List.length_filterMap_le _ _
  have hall : (values.filterMap orNone).length = values.length ↔
      ∀ value ∈ values, orNone value ≠ none := by
    rw [List.filterMap_length_eq_length]
    simp [Option.isSome_iff_ne_none]
  have hmax : ∀ (rest : List String) (value : String), value ≠ "" →
      (∀ text ∈ rest, text ≠ "") →
        rest.foldl (fun best text => if best < text then text else best) value
          ≠ "" := by
    intro rest
    induction rest with
    | nil => exact fun value hvalue _ => hvalue
    | cons text rest ih =>
        intro value hvalue hrest
        rw [List.foldl_cons]
        apply ih
        · split_ifs
          · exact hrest text List.mem_cons_self
          · exact hvalue
        · exact fun r hr => hrest r (List.mem_cons_of_mem _ hr)
  have hnonempty : ∀ text ∈ values.filterMap orNone, text ≠ "" := by
    intro text htext
    obtain ⟨value, -, hvalue⟩ := List.mem_filterMap.mp htext
    simpa using (Option.filter_eq_some_iff.mp hvalue).2
  unfold stampOfAll
  split
  · rename_i hnil
    simp only [orNone, Option.filter_none, true_iff]
    obtain ⟨value, hvalue⟩ := List.exists_mem_of_ne_nil _ h
    exact ⟨value, hvalue, List.filterMap_eq_nil_iff.mp hnil value hvalue⟩
  · rename_i value rest hcons
    rw [← hcons]
    split_ifs with hlength
    · have hne := hmax rest value
        (hnonempty value (by rw [hcons]; exact List.mem_cons_self))
        (fun text htext => hnonempty text
          (by rw [hcons]; exact List.mem_cons_of_mem _ htext))
      have hsome := hall.mp hlength
      simp only [orNone, Option.filter_some, bne_iff_ne, ne_eq, hne,
        not_false_eq_true, if_true, reduceCtorEq, false_iff, not_exists, not_and]
      exact fun value hvalue hnone => hsome value hvalue hnone
    · simp only [orNone, Option.filter_none, true_iff]
      by_contra hnone
      push Not at hnone
      exact hlength (hall.mpr hnone)

end VirtualContext
