import Mathlib.Data.List.Basic
import Mathlib.Data.List.Induction
import Mathlib.Data.List.Nodup

/-!
# Rows with a key

A table as the list of its rows, with the two ways a new row meets the rows that
have its key already: it takes their place, or they are overwritten by it.
-/

namespace VirtualContext.Library

variable {α κ : Type} [DecidableEq κ] (key : α → κ)

/-- `INSERT OR REPLACE` -/
def replaceBy (new : α) (rows : List α) : List α :=
  rows.filter (key · ≠ key new) ++ [new]

/-- `INSERT ... ON CONFLICT (key) DO UPDATE` -/
def upsertBy (overwrite : α → α → α) (new : α) (rows : List α) : List α :=
  if rows.any (key · = key new) then
    rows.map fun row => if key row = key new then overwrite row new else row
  else rows ++ [new]

theorem filter_replaceBy_self (new : α) (rows : List α) :
    (replaceBy key new rows).filter (key · = key new) = [new] := by
  simp [replaceBy, List.filter_append, List.filter_filter]

theorem filter_replaceBy_of_ne {new : α} {k : κ} (h : k ≠ key new)
    (rows : List α) :
    (replaceBy key new rows).filter (key · = k) =
      rows.filter (key · = k) := by
  rw [replaceBy, List.filter_append, List.filter_filter,
    List.filter_singleton, decide_eq_false h.symm, cond_false, List.append_nil]
  refine List.filter_congr fun row _ => ?_
  by_cases hrow : key row = k
  · simp [hrow, h]
  · simp [hrow]

variable {key} {new : α} {rows : List α}

theorem mem_replaceBy {row : α} :
    row ∈ replaceBy key new rows ↔
      row = new ∨ row ∈ rows ∧ key row ≠ key new := by
  rw [replaceBy, List.mem_append, List.mem_filter, List.mem_singleton, or_comm]
  simp

theorem nodup_replaceBy (h : (rows.map key).Nodup) :
    ((replaceBy key new rows).map key).Nodup := by
  rw [replaceBy, List.map_append, List.nodup_append]
  refine ⟨h.sublist (List.filter_sublist.map _), by simp, ?_⟩
  rintro k hk k' hk'
  obtain ⟨row, hrow, rfl⟩ := List.mem_map.mp hk
  rw [List.mem_singleton.mp hk']
  simpa using (List.mem_filter.mp hrow).2

/-- A row that replaces another one takes its place, up to the order of the rows. -/
theorem replaceBy_perm (hkeys : (rows.map key).Nodup) {old : α} (hold : old ∈ rows)
    (hkey : key old = key new) :
    (replaceBy key new rows).Perm
      (rows.map fun row => if key row = key new then new else row) := by
  have hmap : ((rows.map fun row => if key row = key new then new else row).map key) =
      rows.map key := by
    rw [List.map_map]
    refine List.map_congr_left fun row _ => ?_
    rw [Function.comp_apply]
    split_ifs with h
    · exact h.symm
    · rfl
  have hnew : (replaceBy key new rows).Nodup := List.Nodup.of_map key (nodup_replaceBy hkeys)
  have hrows := List.Nodup.of_map key (hmap.symm ▸ hkeys)
  refine (List.perm_ext_iff_of_nodup hnew hrows).mpr fun row => ?_
  rw [mem_replaceBy, List.mem_map]
  constructor
  · rintro (rfl | ⟨hrow, hne⟩)
    · exact ⟨old, hold, if_pos hkey⟩
    · exact ⟨row, hrow, if_neg hne⟩
  · rintro ⟨row', hrow', rfl⟩
    split_ifs with h
    · exact .inl rfl
    · exact .inr ⟨hrow', h⟩

variable {overwrite : α → α → α}

theorem filter_upsertBy_of_ne (hkey : ∀ row, key (overwrite row new) = key new)
    {k : κ} (h : k ≠ key new) :
    (upsertBy key overwrite new rows).filter (key · = k) =
      rows.filter (key · = k) := by
  unfold upsertBy
  split_ifs with hany
  · clear hany
    induction rows with
    | nil => rfl
    | cons row rows ih =>
        rw [List.map_cons, List.filter_cons, List.filter_cons, ih]
        by_cases hrow : key row = key new
        · simp [hrow, hkey, h.symm]
        · simp [hrow]
  · rw [List.filter_append, List.filter_singleton, decide_eq_false h.symm,
      cond_false, List.append_nil]

/-- A row with the new key is the new one, or was overwritten by it. -/
theorem mem_upsertBy {row : α} (h : row ∈ upsertBy key overwrite new rows) :
    row = new ∨ (∃ stored ∈ rows, row = overwrite stored new) ∨
      row ∈ rows ∧ key row ≠ key new := by
  unfold upsertBy at h
  split_ifs at h with hany
  · obtain ⟨stored, hstored, rfl⟩ := List.mem_map.mp h
    split_ifs with hkey
    · exact .inr (.inl ⟨stored, hstored, rfl⟩)
    · exact .inr (.inr ⟨hstored, hkey⟩)
  · rcases List.mem_append.mp h with hrow | hrow
    · refine .inr (.inr ⟨hrow, fun hkey => hany ?_⟩)
      exact List.any_eq_true.mpr ⟨row, hrow, by simpa using hkey⟩
    · exact .inl (List.mem_singleton.mp hrow)

theorem mem_upsertBy_of_ne {row : α} (hrow : row ∈ rows)
    (h : key row ≠ key new) : row ∈ upsertBy key overwrite new rows := by
  unfold upsertBy
  split_ifs
  · exact List.mem_map.mpr ⟨row, hrow, if_neg h⟩
  · exact List.mem_append_left _ hrow

/-! ## What a row with a given key says -/

/-- Some row with the key has the property. -/
def Found (key : α → κ) (k : κ) (p : α → Prop) (rows : List α) : Prop :=
  ∃ row ∈ rows, key row = k ∧ p row

theorem found_iff_filter {k : κ} {p : α → Prop} :
    Found key k p rows ↔ ∃ row ∈ rows.filter (key · = k), p row := by
  simp [Found, and_assoc]

theorem found_replaceBy_self {p : α → Prop} :
    Found key (key new) p (replaceBy key new rows) ↔ p new := by
  rw [found_iff_filter, filter_replaceBy_self]
  simp

theorem found_replaceBy_of_ne {k : κ} (h : k ≠ key new) {p : α → Prop} :
    Found key k p (replaceBy key new rows) ↔ Found key k p rows := by
  rw [found_iff_filter, filter_replaceBy_of_ne key h, found_iff_filter]

/-- The row that is overwritten has the property of the new one. -/
theorem found_upsertBy_self (hkey : ∀ row, key (overwrite row new) = key new)
    {p : α → Prop} (hp : ∀ row, p (overwrite row new) ↔ p new) :
    Found key (key new) p (upsertBy key overwrite new rows) ↔ p new := by
  constructor
  · rintro ⟨row, hrow, heq, h⟩
    rcases mem_upsertBy hrow with rfl | ⟨stored, -, rfl⟩ | ⟨-, hne⟩
    · exact h
    · exact (hp stored).mp h
    · exact absurd heq hne
  · intro h
    unfold upsertBy
    split_ifs with hany
    · obtain ⟨stored, hstored, heq⟩ := List.any_eq_true.mp hany
      refine ⟨overwrite stored new, List.mem_map.mpr ⟨stored, hstored, ?_⟩,
        hkey stored, (hp stored).mpr h⟩
      rw [if_pos (of_decide_eq_true heq)]
    · exact ⟨new, by simp, rfl, h⟩

theorem found_upsertBy_of_ne (hkey : ∀ row, key (overwrite row new) = key new)
    {k : κ} (h : k ≠ key new) {p : α → Prop} :
    Found key k p (upsertBy key overwrite new rows) ↔ Found key k p rows := by
  rw [found_iff_filter, filter_upsertBy_of_ne hkey h, found_iff_filter]

/-! ## Replacing rows one after the other -/

section Replay

variable {β : Type} {key' : β → κ} {writes : List α}

theorem map_replaceBy {f : α → β} (hkey : ∀ a, key' (f a) = key a) (new : α)
    (rows : List α) :
    (replaceBy key new rows).map f = replaceBy key' (f new) (rows.map f) := by
  simp [replaceBy, List.filter_map, Function.comp_def, hkey]

theorem map_foldl_replaceBy {f : α → β} (hkey : ∀ a, key' (f a) = key a)
    (writes rows : List α) :
    (writes.foldl (fun rows w => replaceBy key w rows) rows).map f =
      (writes.map f).foldl (fun rows w => replaceBy key' w rows)
        (rows.map f) := by
  induction writes generalizing rows with
  | nil => rfl
  | cons w writes ih =>
      rw [List.foldl_cons, ih, map_replaceBy hkey]
      rfl

theorem nodup_foldl_replaceBy (h : (rows.map key).Nodup) :
    ((writes.foldl (fun rows w => replaceBy key w rows) rows).map key).Nodup := by
  induction writes generalizing rows with
  | nil => exact h
  | cons w writes ih => exact ih (nodup_replaceBy h)

/-- Rows with keys of their own are appended. -/
theorem foldl_replaceBy_of_fresh (hdistinct : (writes.map key).Nodup)
    (hfresh : ∀ w ∈ writes, ∀ row ∈ rows, key row ≠ key w) :
    writes.foldl (fun rows w => replaceBy key w rows) rows = rows ++ writes := by
  induction writes generalizing rows with
  | nil => simp
  | cons w writes ih =>
      rw [List.map_cons, List.nodup_cons] at hdistinct
      have hkept : replaceBy key w rows = rows ++ [w] := by
        rw [replaceBy, List.filter_eq_self.mpr]
        intro row hrow
        simpa using hfresh w (by simp) row hrow
      rw [List.foldl_cons, hkept, ih hdistinct.2, List.append_assoc]
      · rfl
      · intro w' hw' row hrow
        rcases List.mem_append.mp hrow with hrow | hrow
        · exact hfresh w' (List.mem_cons_of_mem _ hw') row hrow
        · rw [List.mem_singleton.mp hrow]
          intro heq
          exact hdistinct.1 (heq ▸ List.mem_map_of_mem hw')

variable (key) in
/-- A write whose key no later one has. -/
def IsLast (w : α) (writes : List α) : Prop :=
  ∃ earlier later, writes = earlier ++ w :: later ∧
    ∀ other ∈ later, key other ≠ key w

theorem isLast_cons {w first : α} :
    IsLast key w (first :: writes) ↔
      (w = first ∧ ∀ other ∈ writes, key other ≠ key w) ∨
        IsLast key w writes := by
  constructor
  · rintro ⟨earlier, later, heq, hlater⟩
    cases earlier with
    | nil =>
        obtain ⟨rfl, rfl⟩ := List.cons.inj heq
        exact .inl ⟨rfl, hlater⟩
    | cons a earlier =>
        obtain ⟨rfl, rfl⟩ := List.cons.inj heq
        exact .inr ⟨earlier, later, rfl, hlater⟩
  · rintro (⟨rfl, hlater⟩ | ⟨earlier, later, rfl, hlater⟩)
    · exact ⟨[], writes, rfl, hlater⟩
    · exact ⟨first :: earlier, later, rfl, hlater⟩

theorem IsLast.mem {w : α} (h : IsLast key w writes) : w ∈ writes := by
  obtain ⟨earlier, later, rfl, -⟩ := h
  simp

theorem isLast_map {f : α → β} (hkey : ∀ a, key' (f a) = key a) {b : β} :
    IsLast key' b (writes.map f) ↔ ∃ a, IsLast key a writes ∧ f a = b := by
  constructor
  · rintro ⟨earlier, later, heq, hlater⟩
    obtain ⟨front, back, rfl, rfl, hback⟩ := List.map_eq_append_iff.mp heq
    obtain ⟨a, back, rfl, rfl, rfl⟩ := List.map_eq_cons_iff.mp hback
    refine ⟨a, ⟨front, back, rfl, fun other hother => ?_⟩, rfl⟩
    rw [← hkey, ← hkey]
    exact hlater _ (List.mem_map_of_mem hother)
  · rintro ⟨a, ⟨earlier, later, rfl, hlater⟩, rfl⟩
    refine ⟨earlier.map f, later.map f, by simp, fun other hother => ?_⟩
    obtain ⟨a', ha', rfl⟩ := List.mem_map.mp hother
    rw [hkey, hkey]
    exact hlater a' ha'

/-- Some write of each key is the last one. -/
theorem exists_isLast (key : α → κ) {w : α} (h : w ∈ writes) :
    ∃ last, IsLast key last writes ∧ key last = key w := by
  induction writes generalizing w with
  | nil => cases h
  | cons first writes ih =>
      by_cases hlater : ∃ other ∈ writes, key other = key w
      · obtain ⟨other, hother, hkey⟩ := hlater
        obtain ⟨last, hlast, heq⟩ := ih hother
        exact ⟨last, isLast_cons.mpr (.inr hlast), heq.trans hkey⟩
      · push Not at hlater
        rcases List.mem_cons.mp h with rfl | h
        · exact ⟨_, isLast_cons.mpr (.inl ⟨rfl, hlater⟩), rfl⟩
        · exact absurd rfl (hlater _ h)

/-- What the table holds at the end: the last writes and what none replaced. -/
theorem mem_foldl_replaceBy {row : α} :
    row ∈ writes.foldl (fun rows w => replaceBy key w rows) rows ↔
      IsLast key row writes ∨
        row ∈ rows ∧ ∀ w ∈ writes, key row ≠ key w := by
  induction writes generalizing rows with
  | nil => simp [IsLast]
  | cons w writes ih =>
      rw [List.foldl_cons, ih, mem_replaceBy, isLast_cons]
      constructor
      · rintro (hlast | ⟨rfl | ⟨hrow, hne⟩, hlater⟩)
        · exact .inl (.inr hlast)
        · exact .inl (.inl ⟨rfl, fun other hother => (hlater other hother).symm⟩)
        · exact .inr ⟨hrow, by simpa [hne] using hlater⟩
      · rintro ((⟨rfl, hlater⟩ | hlast) | ⟨hrow, hlater⟩)
        · exact .inr ⟨.inl rfl, fun other hother => (hlater other hother).symm⟩
        · exact .inl hlast
        · refine .inr ⟨.inr ⟨hrow, hlater w (by simp)⟩, fun other hother => ?_⟩
          exact hlater other (List.mem_cons_of_mem _ hother)

/--
Every wanted write is found after every later one exactly when the later writes
with its key say the same.
-/
theorem found_writes_iff {wanted : β → Prop} {same : β → α → Prop} {row : β → α}
    (hsame : ∀ w, same w (row w)) (writes : List β) (rows : List α) :
    (∀ done, done <+: writes → ∀ w ∈ done, wanted w → Found key (key (row w)) (same w)
      (done.foldl (fun rows w => replaceBy key (row w) rows) rows)) ↔
      writes.Pairwise fun w later =>
        wanted w → key (row later) = key (row w) → same w (row later) := by
  induction writes using List.reverseRecOn with
  | nil => simp
  | append_singleton writes last ih =>
      rw [List.pairwise_append, ← ih]
      constructor
      · intro h
        refine ⟨fun done hdone => h done (hdone.trans (List.prefix_append _ _)),
          List.pairwise_singleton _ _, fun w hw later hlater hwanted hkey => ?_⟩
        obtain rfl := List.mem_singleton.mp hlater
        have hfound := h _ List.prefix_rfl w (List.mem_append_left _ hw) hwanted
        rw [List.foldl_append, List.foldl_cons, List.foldl_nil, ← hkey,
          found_replaceBy_self] at hfound
        exact hfound
      · rintro ⟨hearlier, -, hlast⟩ done hdone w hw hwanted
        rcases List.prefix_concat_iff.mp hdone with rfl | hdone
        · rw [List.foldl_append, List.foldl_cons, List.foldl_nil]
          by_cases hkey : key (row last) = key (row w)
          · rw [← hkey, found_replaceBy_self]
            rcases List.mem_append.mp hw with hw | hw
            · exact hlast w hw last (List.mem_singleton_self _) hwanted hkey
            · rw [List.mem_singleton.mp hw]
              exact hsame last
          · rw [found_replaceBy_of_ne (Ne.symm hkey)]
            rcases List.mem_append.mp hw with hw | hw
            · exact hearlier writes List.prefix_rfl w hw hwanted
            · exact absurd (List.mem_singleton.mp hw ▸ rfl) hkey
        · exact hearlier done hdone w hw hwanted

/-- An element of the contents of some row. -/
def Held {γ : Type} (contents : α → List γ) (rows : List α) (x : γ) : Prop :=
  ∃ row ∈ rows, x ∈ contents row

/--
If every write has the contents of the row with its key, then what is held at
the end was held before or is in a last write.
-/
theorem held_foldl_replaceBy {γ : Type} {contents : α → List γ}
    (hcover : ∀ w ∈ writes, ∀ row ∈ rows, key row = key w →
      contents row ⊆ contents w) {x : γ} :
    Held contents (writes.foldl (fun rows w => replaceBy key w rows) rows) x ↔
      Held contents rows x ∨ ∃ w, IsLast key w writes ∧ x ∈ contents w := by
  constructor
  · rintro ⟨row, hrow, hx⟩
    rcases mem_foldl_replaceBy.mp hrow with hlast | ⟨hrow, -⟩
    · exact .inr ⟨row, hlast, hx⟩
    · exact .inl ⟨row, hrow, hx⟩
  · rintro (⟨row, hrow, hx⟩ | ⟨w, hlast, hx⟩)
    · by_cases hreplaced : ∃ w ∈ writes, key row = key w
      · obtain ⟨w, hw, hkey⟩ := hreplaced
        obtain ⟨last, hlast, heq⟩ := exists_isLast key hw
        refine ⟨last, mem_foldl_replaceBy.mpr (.inl hlast), ?_⟩
        exact hcover last hlast.mem row hrow (hkey.trans heq.symm) hx
      · push Not at hreplaced
        exact ⟨row, mem_foldl_replaceBy.mpr (.inr ⟨hrow, hreplaced⟩), hx⟩
    · exact ⟨w, mem_foldl_replaceBy.mpr (.inl hlast), hx⟩

end Replay

/-! ## The last event that matters -/

/--
A property that some events decide on their own and the others leave alone
depends on the last event that decides it.
-/
theorem foldl_last_iff {σ ε : Type} {apply : σ → ε → σ} (holds : σ → Prop)
    (decides : ε → Bool) (leaves : ε → Prop)
    (hdecides : ∀ s e, decides e = true → (holds (apply s e) ↔ leaves e))
    (hother : ∀ s e, decides e = false → (holds (apply s e) ↔ holds s))
    (events : List ε) (s : σ) :
    holds (events.foldl apply s) ↔
      match (events.filter decides).getLast? with
      | none => holds s
      | some e => leaves e := by
  induction events using List.reverseRecOn with
  | nil => rfl
  | append_singleton events e ih =>
      rw [List.foldl_append, List.foldl_cons, List.foldl_nil, List.filter_append,
        List.filter_singleton]
      cases hdecide : decides e with
      | true =>
          rw [hdecides _ e hdecide, cond_true, List.getLast?_append]
          rfl
      | false => rw [hother _ e hdecide, ih, cond_false, List.append_nil]

end VirtualContext.Library
