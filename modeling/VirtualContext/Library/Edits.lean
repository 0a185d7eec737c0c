import Mathlib.Data.List.Basic

/-!
# Edits at indices

An edit changes the entry at an index or takes it out.  Edits that come from the
highest index down meet the entries that stood at their indices at first, so
together they are one pass over the list.
-/

namespace VirtualContext.Library

variable {α : Type}

/-- The entry at an index is changed, or taken out. -/
def editAt (f : α → Option α) (index : Nat) (xs : List α) : List α :=
  match xs[index]? with
  | some x =>
      match f x with
      | some y => xs.set index y
      | none => xs.eraseIdx index
  | none => xs

/-- The entries after the edits that there are for their indices. -/
def editAll (edits : Nat → Option (α → Option α)) (start : Nat) (xs : List α) : List α :=
  (xs.zipIdx start).filterMap fun entry =>
    match edits entry.2 with
    | some f => f entry.1
    | none => some entry.1

/-- One more edit. -/
def addEdit (edits : Nat → Option (α → Option α)) (index : Nat) (f : α → Option α) :
    Nat → Option (α → Option α) :=
  fun i => if i = index then some f else edits i

variable {edits edits' : Nat → Option (α → Option α)}

@[simp] theorem editAll_nil (start : Nat) : editAll edits start ([] : List α) = [] := rfl

theorem editAll_cons_some {start : Nat} {f : α → Option α} (h : edits start = some f)
    (x : α) (xs : List α) :
    editAll edits start (x :: xs) = (f x).toList ++ editAll edits (start + 1) xs := by
  cases hf : f x <;> simp [editAll, List.zipIdx_cons, h, hf]

theorem editAll_cons_none {start : Nat} (h : edits start = none) (x : α) (xs : List α) :
    editAll edits start (x :: xs) = x :: editAll edits (start + 1) xs := by
  simp [editAll, List.zipIdx_cons, h]

theorem editAll_congr {start : Nat} {xs : List α} (h : ∀ i, start ≤ i → edits i = edits' i) :
    editAll edits start xs = editAll edits' start xs := by
  induction xs generalizing start with
  | nil => rfl
  | cons x xs ih =>
      have hrest : editAll edits (start + 1) xs = editAll edits' (start + 1) xs :=
        ih fun i hi => h i (by omega)
      have hhead := h start (Nat.le_refl start)
      cases hedit : edits' start with
      | some f =>
          rw [editAll_cons_some (hhead.trans hedit), editAll_cons_some hedit, hrest]
      | none =>
          rw [editAll_cons_none (hhead.trans hedit), editAll_cons_none hedit, hrest]

theorem editAll_eq_self {start : Nat} {xs : List α} (h : ∀ i, edits i = none) :
    editAll edits start xs = xs := by
  induction xs generalizing start with
  | nil => rfl
  | cons x xs ih => rw [editAll_cons_none (h start), ih]

/-- Edits above an index move nothing that stands there. -/
theorem getElem?_editAll {start index : Nat} {xs : List α}
    (h : ∀ i, start ≤ i → i ≤ start + index → edits i = none) :
    (editAll edits start xs)[index]? = xs[index]? := by
  induction xs generalizing start index with
  | nil => rfl
  | cons x xs ih =>
      rw [editAll_cons_none (h start (Nat.le_refl start) (by omega))]
      cases index with
      | zero => rfl
      | succ index =>
          rw [List.getElem?_cons_succ, List.getElem?_cons_succ]
          exact ih fun i hlow hhigh => h i (by omega) (by omega)

theorem editAt_cons_zero (f : α → Option α) (x : α) (xs : List α) :
    editAt f 0 (x :: xs) = (f x).toList ++ xs := by
  cases hf : f x <;> simp [editAt, hf]

theorem editAt_cons_succ (f : α → Option α) (index : Nat) (x : α) (xs : List α) :
    editAt f (index + 1) (x :: xs) = x :: editAt f index xs := by
  cases hget : xs[index]? with
  | none => simp [editAt, hget]
  | some y => cases hf : f y <;> simp [editAt, hget, hf]

/-- An edit below the earlier ones joins their pass. -/
theorem editAt_editAll {start index : Nat} {xs : List α} (f : α → Option α)
    (h : ∀ i, start ≤ i → i ≤ start + index → edits i = none) :
    editAt f index (editAll edits start xs) =
      editAll (addEdit edits (start + index) f) start xs := by
  induction xs generalizing start index with
  | nil => rfl
  | cons x xs ih =>
      rw [editAll_cons_none (h start (Nat.le_refl start) (by omega))]
      cases index with
      | zero =>
          have hedit : addEdit edits (start + 0) f start = some f := if_pos rfl
          rw [editAt_cons_zero, editAll_cons_some hedit]
          congr 1
          exact editAll_congr fun i hi => (if_neg (by omega)).symm
      | succ index =>
          have hedit : addEdit edits (start + (index + 1)) f start = none :=
            (if_neg (by omega)).trans (h start (Nat.le_refl start) (by omega))
          rw [editAt_cons_succ, editAll_cons_none hedit,
            ih fun i hlow hhigh => h i (by omega) (by omega)]
          congr 3
          omega

/-- What edits keep of the entries they are for is kept of the whole list. -/
theorem any_editAll {p : α → Bool} {start : Nat} {xs : List α}
    (h : ∀ i x f, xs[i]? = some x → edits (start + i) = some f → (f x).any p = p x) :
    (editAll edits start xs).any p = xs.any p := by
  induction xs generalizing start with
  | nil => rfl
  | cons x xs ih =>
      have hrest : (editAll edits (start + 1) xs).any p = xs.any p := by
        refine ih fun i y f hget hedit => h (i + 1) y f (by simpa using hget) ?_
        rwa [show start + (i + 1) = start + 1 + i by omega]
      cases hedit : edits start with
      | none => rw [editAll_cons_none hedit, List.any_cons, List.any_cons, hrest]
      | some f =>
          have hhead : (f x).any p = p x := h 0 x f rfl hedit
          rw [editAll_cons_some hedit, List.any_append, List.any_cons, hrest, ← hhead]
          cases f x <;> simp

end VirtualContext.Library
