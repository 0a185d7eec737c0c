import Mathlib.Data.List.Sort

/-!
# Rows ordered by a key

`orderBy key rows` is what `ORDER BY key` makes of a table.  When no two rows
share a key it is the only arrangement of the rows with increasing keys, so an
arrangement found by other means is recognized by `orderBy_eq_of_perm`.
-/

namespace VirtualContext.Library

variable {α β κ : Type} [LinearOrder κ] (key : α → κ)

/-- The rows in the order of their keys. -/
def orderBy (rows : List α) : List α :=
  rows.insertionSort fun a b => key a ≤ key b

/-- The keys of the rows increase strictly. -/
def Increasing (rows : List α) : Prop :=
  rows.Pairwise fun a b => key a < key b

instance totalByKey : Std.Total fun a b : α => key a ≤ key b := ⟨fun _ _ => le_total _ _⟩

instance transByKey : IsTrans α fun a b : α => key a ≤ key b := ⟨fun _ _ _ => le_trans⟩

@[simp] theorem orderBy_nil : orderBy key [] = [] := rfl

theorem orderBy_perm (rows : List α) : (orderBy key rows).Perm rows :=
  List.perm_insertionSort _ rows

@[simp] theorem mem_orderBy {rows : List α} {a : α} :
    a ∈ orderBy key rows ↔ a ∈ rows :=
  (orderBy_perm key rows).mem_iff

@[simp] theorem length_orderBy (rows : List α) :
    (orderBy key rows).length = rows.length :=
  (orderBy_perm key rows).length_eq

variable {key}

theorem increasing_orderBy {rows : List α} (hkeys : (rows.map key).Nodup) :
    Increasing key (orderBy key rows) := by
  have hle : (orderBy key rows).Pairwise fun a b => key a ≤ key b :=
    List.pairwise_insertionSort _ rows
  have hne : (orderBy key rows).Pairwise fun a b => key a ≠ key b :=
    List.pairwise_map.mp (((orderBy_perm key rows).map key).nodup_iff.mpr hkeys)
  exact (hle.and hne).imp fun h => lt_of_le_of_ne h.1 h.2

theorem Increasing.map_nodup {rows : List α} (h : Increasing key rows) :
    (rows.map key).Nodup :=
  List.pairwise_map.mpr (h.imp ne_of_lt)

/-- An increasing arrangement of the rows is their ordered view. -/
theorem orderBy_eq_of_perm {rows sorted : List α} (hperm : rows.Perm sorted)
    (hsorted : Increasing key sorted) : orderBy key rows = sorted := by
  refine List.Perm.eq_of_pairwise (?_ : ∀ a b, a ∈ orderBy key rows →
    b ∈ sorted → key a ≤ key b → key b ≤ key a → a = b) ?_ ?_ ?_
  · intro a b ha hb hab hba
    have ha' : a ∈ sorted := hperm.mem_iff.mp ((mem_orderBy key).mp ha)
    exact List.inj_on_of_nodup_map hsorted.map_nodup ha' hb
      (le_antisymm hab hba)
  · exact List.pairwise_insertionSort _ rows
  · exact hsorted.imp le_of_lt
  · exact (orderBy_perm key rows).trans hperm

theorem orderBy_of_increasing {rows : List α} (h : Increasing key rows) :
    orderBy key rows = rows :=
  orderBy_eq_of_perm (List.Perm.refl rows) h

/-- A change of the rows that keeps how their keys compare keeps their order. -/
theorem orderBy_map {key' : β → κ} (f : α → β) (rows : List α)
    (hf : ∀ a ∈ rows, ∀ b ∈ rows, key a ≤ key b ↔ key' (f a) ≤ key' (f b)) :
    orderBy key' (rows.map f) = (orderBy key rows).map f :=
  (List.map_insertionSort _ _ f rows hf).symm

/-- Rows that are told apart by their keys have one order. -/
theorem orderBy_congr_perm {rows rows' : List α} (hperm : rows.Perm rows')
    (hkeys : (rows.map key).Nodup) : orderBy key rows = orderBy key rows' :=
  orderBy_eq_of_perm (hperm.trans (orderBy_perm key rows').symm)
    (increasing_orderBy ((hperm.map key).nodup_iff.mp hkeys))

theorem Increasing.nodup {rows : List α} (h : Increasing key rows) :
    rows.Nodup :=
  h.map_nodup.of_map

theorem Increasing.sublist {rows rows' : List α} (h : Increasing key rows)
    (hsub : rows'.Sublist rows) : Increasing key rows' :=
  List.Pairwise.sublist hsub h

theorem filter_orderBy {rows : List α} (hkeys : (rows.map key).Nodup)
    (p : α → Bool) :
    (orderBy key rows).filter p = orderBy key (rows.filter p) :=
  (orderBy_eq_of_perm ((orderBy_perm key rows).filter p).symm
    ((increasing_orderBy hkeys).sublist List.filter_sublist)).symm

/-- A key singles out one row. -/
theorem filter_key_eq_singleton {γ : Type} [DecidableEq γ] {rows : List α}
    {f : α → γ} (hkeys : (rows.map f).Nodup) {a : α} (ha : a ∈ rows) :
    (rows.filter fun b => decide (f b = f a)) = [a] := by
  induction rows with
  | nil => simp at ha
  | cons b rows ih =>
      obtain ⟨hb, hrest⟩ := List.nodup_cons.mp hkeys
      rcases List.mem_cons.mp ha with rfl | hmem
      · have hnone : (rows.filter fun b => decide (f b = f a)) = [] := by
          rw [List.filter_eq_nil_iff]
          intro b hmem heq
          exact hb (of_decide_eq_true heq ▸ List.mem_map_of_mem hmem)
        simp [hnone]
      · have hne : f b ≠ f a := by
          rintro heq
          exact hb (heq ▸ List.mem_map_of_mem hmem)
        simp [hne, ih hrest hmem]

theorem increasing_append {left right : List α} :
    Increasing key (left ++ right) ↔
      Increasing key left ∧ Increasing key right ∧
        ∀ a ∈ left, ∀ b ∈ right, key a < key b :=
  List.pairwise_append

/-! ## Rows with equal keys -/

/-- Rows of equal keys keep their order, so some rows are ordered as in all. -/
theorem filter_orderedInsert {r : α → α → Prop} [DecidableRel r]
    [IsTrans α r] (p : α → Bool) (a : α) {rows : List α}
    (h : rows.Pairwise r) :
    (rows.orderedInsert r a).filter p =
      if p a then (rows.filter p).orderedInsert r a else rows.filter p := by
  induction rows with
  | nil => by_cases ha : p a <;> simp [ha]
  | cons b rows ih =>
      obtain ⟨hb, hrows⟩ := List.pairwise_cons.mp h
      by_cases hab : r a b
      · rw [List.orderedInsert_cons, if_pos hab, List.filter_cons]
        by_cases ha : p a
        · rw [if_pos ha, if_pos ha]
          -- what remains of the rows starts with a row that is not before `a`
          cases hrest : (b :: rows).filter p with
          | nil => rfl
          | cons c rest =>
              have hc : c ∈ b :: rows :=
                (List.mem_filter.mp (hrest ▸ List.mem_cons_self)).1
              have hac : r a c := by
                rcases List.mem_cons.mp hc with rfl | hc
                · exact hab
                · exact IsTrans.trans a b c hab (hb c hc)
              rw [List.orderedInsert_cons, if_pos hac]
        · rw [if_neg ha, if_neg ha]
      · rw [List.orderedInsert_cons, if_neg hab, List.filter_cons, ih hrows,
          List.filter_cons]
        by_cases ha : p a <;> by_cases hpb : p b <;>
          simp [ha, hpb, hab]

theorem filter_insertionSort {r : α → α → Prop} [DecidableRel r] [IsTrans α r]
    [Std.Total r] (p : α → Bool) (rows : List α) :
    (rows.insertionSort r).filter p = (rows.filter p).insertionSort r := by
  induction rows with
  | nil => rfl
  | cons a rows ih =>
      rw [List.insertionSort_cons, filter_orderedInsert p a
        (List.pairwise_insertionSort r rows), ih, List.filter_cons]
      by_cases ha : p a <;> simp [ha]

/-! ## Descending order -/

/-- `sorted(rows, key=key, reverse=True)`; rows of equal keys keep their order. -/
def orderByDesc (key : α → κ) (rows : List α) : List α :=
  (orderBy key rows.reverse).reverse

theorem orderByDesc_perm (rows : List α) : (orderByDesc key rows).Perm rows :=
  (List.reverse_perm _).trans ((orderBy_perm key rows.reverse).trans (List.reverse_perm rows))

theorem orderByDesc_map {key' : β → κ} (f : α → β) (rows : List α)
    (hf : ∀ a ∈ rows, key' (f a) = key a) :
    orderByDesc key' (rows.map f) = (orderByDesc key rows).map f := by
  have hordered : orderBy key' (rows.reverse.map f) = (orderBy key rows.reverse).map f := by
    refine orderBy_map f _ fun a ha b hb => ?_
    rw [hf a (List.mem_reverse.mp ha), hf b (List.mem_reverse.mp hb)]
  rw [orderByDesc, orderByDesc, ← List.map_reverse, hordered, List.map_reverse]

theorem pairwise_orderByDesc (rows : List α) :
    (orderByDesc key rows).Pairwise fun a b => key b ≤ key a :=
  List.pairwise_reverse.mpr (List.pairwise_insertionSort _ rows.reverse)

end VirtualContext.Library
