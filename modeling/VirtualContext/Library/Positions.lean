import VirtualContext.Library.Entries

/-!
# Indexes over a list

A dictionary that leads from a key to the position of the one row that has it.
Rows without a key are not in it.
-/

namespace VirtualContext.Library

variable {α κ : Type} [DecidableEq κ]

/-- The dictionary leads to the rows that have a key, and to nothing else. -/
def Indexes (positions : Entries κ Nat) (rows : List α) (key : α → Option κ) : Prop :=
  ∀ k position, positions.get k = some position ↔
    ∃ row, rows[position]? = some row ∧ key row = some k

namespace Indexes

variable {positions : Entries κ Nat} {rows : List α} {key : α → Option κ}

theorem nil (key : α → Option κ) : Indexes [] ([] : List α) key := by
  simp [Indexes, Entries.get]

theorem mem_keys (h : Indexes positions rows key) {k : κ} :
    k ∈ positions.keys ↔ ∃ row ∈ rows, key row = some k := by
  rw [← not_iff_not, ← Entries.get_eq_none_iff, Option.eq_none_iff_forall_ne_some]
  constructor
  · rintro hnone ⟨row, hrow, hkey⟩
    obtain ⟨position, hposition⟩ := List.mem_iff_getElem?.mp hrow
    exact hnone position ((h k position).mpr ⟨row, hposition, hkey⟩)
  · rintro hnone position hget
    obtain ⟨row, hposition, hkey⟩ := (h k position).mp hget
    exact hnone ⟨row, List.mem_of_getElem? hposition, hkey⟩

/-- No two rows have a key in common. -/
theorem position_unique (h : Indexes positions rows key) {i j : Nat} {first second : α}
    {k : κ} (hi : rows[i]? = some first) (hj : rows[j]? = some second)
    (hfirst : key first = some k) (hsecond : key second = some k) : i = j := by
  have hget := (h k i).mpr ⟨first, hi, hfirst⟩
  rw [(h k j).mpr ⟨second, hj, hsecond⟩] at hget
  exact (Option.some.inj hget).symm

/-- Rows that all have a key have different ones. -/
theorem nodup {f : α → κ} (h : Indexes positions rows fun row => some (f row)) :
    (rows.map f).Nodup := by
  rw [List.nodup_iff_injective_getElem]
  rintro ⟨i, hi⟩ ⟨j, hj⟩ heq
  rw [List.length_map] at hi hj
  simp only [List.getElem_map] at heq
  exact Fin.ext (h.position_unique (List.getElem?_eq_getElem hi)
    (List.getElem?_eq_getElem hj) rfl (congrArg some heq.symm))

theorem getElem?_append_singleton {position : Nat} {row other : α} :
    (rows ++ [row])[position]? = some other ↔
      rows[position]? = some other ∨ position = rows.length ∧ row = other := by
  rcases Nat.lt_trichotomy position rows.length with hlt | rfl | hgt
  · rw [List.getElem?_append_left hlt]
    simp [Nat.ne_of_lt hlt]
  · simp
  · rw [List.getElem?_eq_none (by simp; omega), List.getElem?_eq_none (by omega)]
    simp [Nat.ne_of_gt hgt]

theorem append_none (h : Indexes positions rows key) (row : α) (hrow : key row = none) :
    Indexes positions (rows ++ [row]) key := by
  intro k position
  rw [h k position]
  simp only [getElem?_append_singleton]
  constructor
  · rintro ⟨other, hother, hkey⟩
    exact ⟨other, .inl hother, hkey⟩
  · rintro ⟨other, hother | ⟨-, rfl⟩, hkey⟩
    · exact ⟨other, hother, hkey⟩
    · simp [hrow] at hkey

/-- A row with a new key gets the position at the end. -/
theorem append_some (h : Indexes positions rows key) (row : α) {new : κ}
    (hrow : key row = some new) (hnew : new ∉ positions.keys) :
    Indexes (positions.set new rows.length) (rows ++ [row]) key := by
  intro k position
  rw [Entries.get_set]
  simp only [getElem?_append_singleton]
  split_ifs with heq
  · subst heq
    constructor
    · rintro ⟨⟩
      exact ⟨row, .inr ⟨rfl, rfl⟩, hrow⟩
    · rintro ⟨other, hother | ⟨rfl, rfl⟩, hkey⟩
      · exact absurd (h.mem_keys.mpr ⟨other, List.mem_of_getElem? hother, hkey⟩) hnew
      · rfl
  · rw [h k position]
    constructor
    · rintro ⟨other, hother, hkey⟩
      exact ⟨other, .inl hother, hkey⟩
    · rintro ⟨other, hother | ⟨-, rfl⟩, hkey⟩
      · exact ⟨other, hother, hkey⟩
      · exact absurd (Option.some.inj (hrow.symm.trans hkey)) heq

/-- Rows may change as long as their keys do not. -/
theorem of_keys {rows' : List α} (h : Indexes positions rows key)
    (hkeys : rows'.map key = rows.map key) : Indexes positions rows' key := by
  intro k position
  have hat : (rows'[position]?).map key = (rows[position]?).map key := by
    rw [← List.getElem?_map, hkeys, List.getElem?_map]
  rw [h k position]
  have hsome (row? : Option α) :
      (∃ row, row? = some row ∧ key row = some k) ↔ row?.map key = some (some k) := by
    cases row? <;> simp
  rw [hsome, hsome, hat]

/-- Giving a new key to a row is right if the row had none, and wrong otherwise. -/
theorem modify_iff (h : Indexes positions rows key) {position : Nat} {row : α}
    {f : α → α} {new : κ} (hrow : rows[position]? = some row)
    (hf : key (f row) = some new) (hnew : new ∉ positions.keys) :
    Indexes (positions.set new position) (rows.modify position f) key ↔
      key row = none := by
  constructor
  · -- the old key still leads to the row
    intro hset
    by_contra hsome
    obtain ⟨old, hold⟩ := Option.ne_none_iff_exists'.mp hsome
    have hne : new ≠ old := by
      rintro rfl
      exact hnew (h.mem_keys.mpr ⟨row, List.mem_of_getElem? hrow, hold⟩)
    have hget : (positions.set new position).get old = some position := by
      rw [Entries.get_set, if_neg hne]
      exact (h old position).mpr ⟨row, hrow, hold⟩
    obtain ⟨other, hother, hkey⟩ := (hset old position).mp hget
    rw [List.getElem?_modify_eq, hrow] at hother
    obtain rfl := Option.some.inj hother
    exact hne (Option.some.inj (hf.symm.trans hkey))
  · intro hnone k i
    rw [Entries.get_set]
    split_ifs with heq
    · subst heq
      constructor
      · rintro ⟨⟩
        exact ⟨f row, by rw [List.getElem?_modify_eq, hrow]; rfl, hf⟩
      · rintro ⟨other, hother, hkey⟩
        by_cases hi : position = i
        · rw [hi]
        · rw [List.getElem?_modify_ne _ _ hi] at hother
          exact absurd (h.mem_keys.mpr ⟨other, List.mem_of_getElem? hother, hkey⟩) hnew
    · rw [h k i]
      by_cases hi : position = i
      · subst hi
        rw [List.getElem?_modify_eq, hrow]
        constructor
        · rintro ⟨_, ⟨⟩, hkey⟩
          cases hnone.symm.trans hkey
        · rintro ⟨_, ⟨⟩, hkey⟩
          exact absurd (Option.some.inj (hf.symm.trans hkey)) heq
      · rw [List.getElem?_modify_ne _ _ hi]

end Indexes

end VirtualContext.Library
