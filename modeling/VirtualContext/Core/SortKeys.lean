import Mathlib.Tactic.Linarith
import VirtualContext.Core.IngestRuns
import VirtualContext.Library.Splice

/-!
# Sort keys of new rows

New keys increase, and they stay between their neighbours as long as the gap
holds them at the minimum step.  Under such keys the conversation is read back
with the new rows exactly where the alignment puts them.
-/

namespace VirtualContext

open VirtualContext.Library

/-! ## Allocated keys -/

/-- So many keys fit between two given ones at the minimum step. -/
def RoomBetween (left right : Option ℚ) (count : Nat) : Prop :=
  ∀ l r, left = some l → right = some r → (count : ℚ) / 1000 < r - l

/-- The step between two given keys. -/
def keyStep (left right : ℚ) (count : Nat) : ℚ :=
  if (right - left) / (count + 1) ≤ 1 / 1000 then 1 / 1000
  else (right - left) / (count + 1)

theorem allocateSortKeys_some (left right : ℚ) (count : Nat) :
    allocateSortKeys (some left) (some right) count =
      (List.range count).map fun idx : Nat =>
        left + keyStep left right count * ((idx : ℚ) + 1) :=
  rfl

theorem keyStep_pos (left right : ℚ) (count : Nat) :
    0 < keyStep left right count := by
  unfold keyStep
  split_ifs with h
  · norm_num
  · exact lt_trans (by norm_num) (not_le.mp h)

/-- The step times the number of keys stays below the gap. -/
theorem keyStep_mul_lt {left right : ℚ} {count : Nat}
    (h : (count : ℚ) / 1000 < right - left) :
    keyStep left right count * count < right - left := by
  unfold keyStep
  split_ifs
  · linarith
  · have hcount : (0 : ℚ) ≤ count := Nat.cast_nonneg count
    rw [div_mul_eq_mul_div, div_lt_iff₀ (by linarith)]
    linarith

private theorem pairwise_range_map {f : Nat → ℚ}
    (h : ∀ i j, i < j → f i < f j) (count : Nat) :
    ((List.range count).map f).Pairwise (· < ·) := by
  rw [List.pairwise_map]
  exact List.pairwise_lt_range.imp fun hij => h _ _ hij

theorem allocateSortKeys_increasing (left right : Option ℚ) (count : Nat) :
    (allocateSortKeys left right count).Pairwise (· < ·) := by
  have hlt : ∀ {i j : Nat}, i < j → (i : ℚ) < j := fun h => by exact_mod_cast h
  cases left with
  | none =>
      cases right with
      | none =>
          apply pairwise_range_map
          intro i j hij
          have := hlt hij
          linarith
      | some right =>
          apply pairwise_range_map
          intro i j hij
          have := hlt hij
          linarith
  | some left =>
      cases right with
      | none =>
          apply pairwise_range_map
          intro i j hij
          have := hlt hij
          linarith
      | some right =>
          rw [allocateSortKeys_some]
          apply pairwise_range_map
          intro i j hij
          have := mul_lt_mul_of_pos_left (hlt hij) (keyStep_pos left right count)
          linarith

theorem left_lt_allocateSortKeys {left : ℚ} {right : Option ℚ} {count : Nat} :
    ∀ key ∈ allocateSortKeys (some left) right count, left < key := by
  intro key hkey
  cases right with
  | none =>
      obtain ⟨idx, -, rfl⟩ := List.mem_map.mp hkey
      have : (0 : ℚ) ≤ idx := Nat.cast_nonneg idx
      linarith
  | some right =>
      obtain ⟨idx, -, rfl⟩ := List.mem_map.mp hkey
      have := mul_pos (keyStep_pos left right count)
        (Nat.cast_add_one_pos idx)
      change left < left + keyStep left right count * (idx + 1)
      linarith

theorem allocateSortKeys_lt_right {left : Option ℚ} {right : ℚ} {count : Nat}
    (hroom : RoomBetween left (some right) count) :
    ∀ key ∈ allocateSortKeys left (some right) count, key < right := by
  intro key hkey
  cases left with
  | none =>
      obtain ⟨idx, hidx, rfl⟩ := List.mem_map.mp hkey
      have : (idx : ℚ) < count := by exact_mod_cast List.mem_range.mp hidx
      linarith
  | some left =>
      obtain ⟨idx, hidx, rfl⟩ := List.mem_map.mp hkey
      change left + keyStep left right count * (idx + 1) < right
      have hle : (idx : ℚ) + 1 ≤ count := by
        exact_mod_cast List.mem_range.mp hidx
      have hmul := mul_le_mul_of_nonneg_left hle (keyStep_pos left right count).le
      have hgap := keyStep_mul_lt (hroom left right rfl rfl)
      linarith

theorem rowsFrom_keys_increasing (startKey : ℚ)
    (prepared : List CanonicalTurnRow) :
    ((rowsFrom startKey prepared).map Prod.snd).Pairwise (· < ·) := by
  have hkeys : (rowsFrom startKey prepared).map Prod.snd =
      (List.range prepared.length).map fun idx : Nat => startKey + 1000 * (idx : ℚ) := by
    apply List.ext_getElem
    · simp [rowsFrom]
    · intro i hi hi'
      simp [rowsFrom]
  rw [hkeys]
  apply pairwise_range_map
  intro i j hij
  have : (i : ℚ) < j := by exact_mod_cast hij
  linarith

theorem le_rowsFrom_keys {startKey : ℚ} {prepared : List CanonicalTurnRow} :
    ∀ key ∈ (rowsFrom startKey prepared).map Prod.snd, startKey ≤ key := by
  intro key hkey
  simp only [rowsFrom, List.map_map, List.mem_map, Prod.exists,
    Function.comp_apply] at hkey
  obtain ⟨row, idx, -, rfl⟩ := hkey
  have : (0 : ℚ) ≤ idx := Nat.cast_nonneg idx
  linarith

private theorem le_foldl_max (keys : List ℚ) (key : ℚ) :
    key ≤ keys.foldl max key ∧ ∀ other ∈ keys, other ≤ keys.foldl max key := by
  induction keys generalizing key with
  | nil => simp
  | cons first keys ih =>
      obtain ⟨hle, hall⟩ := ih (max key first)
      refine ⟨(le_max_left _ _).trans hle, ?_⟩
      intro other hother
      rcases List.mem_cons.mp hother with rfl | hrest
      · exact (le_max_right _ _).trans hle
      · exact hall other hrest

/-- The default key follows every stored one. -/
theorem lt_defaultSortKey {existing : List CanonicalTurnRow} :
    ∀ row ∈ existing, row.sortKey < defaultSortKey existing := by
  intro row hrow
  have hmem : row.sortKey ∈ existing.map (·.sortKey) := List.mem_map_of_mem hrow
  unfold defaultSortKey
  generalize existing.map (·.sortKey) = keys at hmem
  cases keys with
  | nil => simp at hmem
  | cons key keys =>
      obtain ⟨hle, hall⟩ := le_foldl_max keys key
      rcases List.mem_cons.mp hmem with heq | hrest
      · dsimp only
        linarith [heq]
      · have := hall _ hrest
        dsimp only
        linarith

/-! ## Where the new rows go -/

/-- The stored rows with the new ones at the places of an alignment. -/
def mergeOrder {α : Type} (alignment : Option Alignment) (new stored : List α) :
    List α :=
  match alignment with
  | none => stored ++ new
  | some a =>
      insertAt a.existingStart (new.take a.incomingStart)
        (insertAt (a.existingStart + a.overlapLen) (new.drop a.incomingStart)
          stored)

section

variable {α β : Type} (alignment : Option Alignment) (new stored : List α)

theorem mergeOrder_perm :
    (mergeOrder alignment new stored).Perm (stored ++ new) := by
  cases alignment with
  | none => exact List.Perm.refl _
  | some a =>
      refine (insertAt_perm _ _ _).trans
        (((insertAt_perm _ _ stored).append_right _).trans ?_)
      rw [List.append_assoc]
      refine (List.perm_append_comm.trans ?_).append_left stored
      rw [List.take_append_drop]

theorem sublist_mergeOrder : stored.Sublist (mergeOrder alignment new stored) := by
  cases alignment with
  | none => exact List.sublist_append_left stored new
  | some a =>
      exact (sublist_insertAt _ _ stored).trans (sublist_insertAt _ _ _)

theorem map_mergeOrder (f : α → β) :
    (mergeOrder alignment new stored).map f =
      mergeOrder alignment (new.map f) (stored.map f) := by
  cases alignment with
  | none => exact List.map_append
  | some a => simp [mergeOrder, map_insertAt, List.map_take, List.map_drop]

theorem mergeOrder_nil : mergeOrder alignment [] stored = stored := by
  cases alignment <;> simp [mergeOrder]

end

/-- New rows fit between the neighbours of a position. -/
def RoomAt (existing : List CanonicalTurnRow) (position count : Nat) : Prop :=
  RoomBetween (keyBefore? existing position) (keyOf? existing position) count

/-- There is room for no rows at all. -/
theorem roomAt_zero {existing : List CanonicalTurnRow}
    (h : Increasing (fun row => row.sortKey) existing) (position : Nat) :
    RoomAt existing position 0 := by
  intro l r hl hr
  cases position with
  | zero => simp [keyBefore?] at hl
  | succ index =>
      obtain ⟨row, hrow, rfl⟩ := Option.map_eq_some_iff.mp hl
      obtain ⟨row', hrow', rfl⟩ := Option.map_eq_some_iff.mp hr
      obtain ⟨hlt, rfl⟩ := List.getElem?_eq_some_iff.mp hrow
      obtain ⟨hlt', rfl⟩ := List.getElem?_eq_some_iff.mp hrow'
      have := List.pairwise_iff_getElem.mp h index (index + 1) hlt hlt'
        (Nat.lt_succ_self index)
      simpa using this

/-- Both insertions of an alignment fit between the neighbours. -/
structure Alignment.HasRoom (a : Alignment)
    (existing incoming : List CanonicalTurnRow) : Prop where
  before : RoomAt existing a.existingStart a.incomingStart
  after : RoomAt existing (a.existingStart + a.overlapLen)
    (incoming.length - (a.incomingStart + a.overlapLen))

/-- Keys allocated for a position keep the order there. -/
theorem keysAt_between {existing : List CanonicalTurnRow}
    {position count : Nat} (hroom : RoomAt existing position count) :
    (∀ l, keyBefore? existing position = some l →
        ∀ key ∈ keysAt existing position count, l < key) ∧
      ∀ r, keyOf? existing position = some r →
        ∀ key ∈ keysAt existing position count, key < r := by
  constructor
  · intro l hl key hkey
    rw [keysAt, hl] at hkey
    exact left_lt_allocateSortKeys key hkey
  · intro r hr key hkey
    rw [keysAt, hr] at hkey
    rw [RoomAt, hr] at hroom
    exact allocateSortKeys_lt_right hroom key hkey

theorem keyBefore?_succ {existing : List CanonicalTurnRow} {position i : Nat}
    (h : i + 1 = position) :
    keyBefore? existing position = (existing.map (·.sortKey))[i]? := by
  subst h
  simp [keyBefore?, keyOf?]

theorem keyOf?_eq (existing : List CanonicalTurnRow) (position : Nat) :
    keyOf? existing position = (existing.map (·.sortKey))[position]? := by
  simp [keyOf?]

theorem rowsBefore_keys {existing prepared : List CanonicalTurnRow}
    {a : Alignment} (hwithin : a.Within existing prepared) :
    (rowsBefore existing prepared a).map Prod.snd =
      keysAt existing a.existingStart a.incomingStart := by
  have hle := hwithin.incoming_le
  have hlength : (prepared.take a.incomingStart).length = a.incomingStart := by
    rw [List.length_take]
    omega
  rw [rowsBefore, hlength, List.map_snd_zip]
  rw [keysAt, length_allocateSortKeys, hlength]

theorem rowsAfter_keys (existing prepared : List CanonicalTurnRow)
    (a : Alignment) :
    (rowsAfter existing prepared a).map Prod.snd =
      keysAt existing (a.existingStart + a.overlapLen)
        (prepared.length - (a.incomingStart + a.overlapLen)) := by
  rw [rowsAfter, List.length_drop, List.map_snd_zip]
  rw [keysAt, length_allocateSortKeys, List.length_drop]

theorem take_plannedRows {existing prepared : List CanonicalTurnRow}
    {a : Alignment} (hwithin : a.Within existing prepared) :
    (plannedRows existing prepared (some a)).take a.incomingStart =
      rowsBefore existing prepared a := by
  have hle := hwithin.incoming_le
  apply List.take_left'
  rw [length_rowsBefore, List.length_take]
  omega

theorem drop_plannedRows {existing prepared : List CanonicalTurnRow}
    {a : Alignment} (hwithin : a.Within existing prepared) :
    (plannedRows existing prepared (some a)).drop a.incomingStart =
      rowsAfter existing prepared a := by
  have hle := hwithin.incoming_le
  apply List.drop_left'
  rw [length_rowsBefore, List.length_take]
  omega

/-- With room on both sides the planned keys fall into the order. -/
theorem plannedKeys_increasing {existing prepared : List CanonicalTurnRow}
    {alignment : Option Alignment}
    (hexisting : Increasing (fun row => row.sortKey) existing)
    (hwithin : ∀ a, alignment = some a → a.Within existing prepared)
    (hroom : ∀ a, alignment = some a → a.HasRoom existing prepared) :
    Increasing id (mergeOrder alignment
      ((plannedRows existing prepared alignment).map Prod.snd)
      (existing.map (·.sortKey))) := by
  have hkeys : Increasing id (existing.map (·.sortKey)) :=
    List.pairwise_map.mpr hexisting
  cases alignment with
  | none =>
      unfold mergeOrder plannedRows
      dsimp only
      split_ifs with hempty hpair
      · obtain rfl := List.isEmpty_iff.mp hempty
        exact rowsFrom_keys_increasing _ _
      · apply increasing_append.mpr
        refine ⟨hkeys, rowsFrom_keys_increasing _ _, ?_⟩
        intro key hkey key' hkey'
        obtain ⟨row, hrow, rfl⟩ := List.mem_map.mp hkey
        exact lt_of_lt_of_le (lt_defaultSortKey row hrow)
          (le_rowsFrom_keys key' hkey')
      · simpa using hkeys
  | some a =>
      have hwithin := hwithin a rfl
      have hroom := hroom a rfl
      have hle := hwithin.existing_le
      have hpos := hwithin.pos
      unfold mergeOrder
      dsimp only
      rw [← List.map_take, ← List.map_drop, take_plannedRows hwithin,
        drop_plannedRows hwithin, rowsBefore_keys hwithin, rowsAfter_keys]
      obtain ⟨hleft, hright⟩ := keysAt_between hroom.after
      obtain ⟨hleft', hright'⟩ := keysAt_between hroom.before
      have hlength : (existing.map (·.sortKey)).length = existing.length :=
        List.length_map _
      have hafter : Increasing id (insertAt (a.existingStart + a.overlapLen)
          (keysAt existing (a.existingStart + a.overlapLen)
            (prepared.length - (a.incomingStart + a.overlapLen)))
          (existing.map (·.sortKey))) := by
        apply increasing_insertAt_of_neighbours (by omega) hkeys
        · exact allocateSortKeys_increasing _ _ _
        · intro i key hi hget
          exact hleft key ((keyBefore?_succ hi).trans hget)
        · intro key hget
          exact hright key ((keyOf?_eq _ _).trans hget)
      apply increasing_insertAt_of_neighbours _ hafter
      · exact allocateSortKeys_increasing _ _ _
      · intro i key hi hget
        rw [getElem?_insertAt_of_lt _ (by omega) (by omega)] at hget
        exact hleft' key ((keyBefore?_succ hi).trans hget)
      · intro key hget
        rw [getElem?_insertAt_of_lt _ (by omega) (by omega)] at hget
        exact hright' key ((keyOf?_eq _ _).trans hget)
      · rw [(insertAt_perm _ _ _).length_eq, List.length_append, hlength]
        omega

end VirtualContext
