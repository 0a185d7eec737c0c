import Mathlib.Data.List.Infix
import VirtualContext.Library.Ordered

/-!
# Splicing one list into another

An overlap is a nonempty run that two lists share.  Splicing inserts what the
incoming list has before and after the overlap at the same places of the
existing list: the existing list stays a subsequence, the incoming list becomes
a contiguous block.
-/

namespace VirtualContext.Library

variable {α κ : Type}

/-! ## Insertion at a position -/

def insertAt (position : Nat) (new rows : List α) : List α :=
  rows.take position ++ new ++ rows.drop position

theorem insertAt_perm (position : Nat) (new rows : List α) :
    (insertAt position new rows).Perm (rows ++ new) := by
  unfold insertAt
  refine (List.perm_append_comm.append_right _).trans ?_
  rw [List.append_assoc, List.take_append_drop]
  exact List.perm_append_comm

theorem sublist_insertAt (position : Nat) (new rows : List α) :
    rows.Sublist (insertAt position new rows) := by
  conv_lhs => rw [← List.take_append_drop position rows]
  exact (List.sublist_append_left _ new).append (List.Sublist.refl _)

theorem map_insertAt {β : Type} (f : α → β) (position : Nat)
    (new rows : List α) :
    (insertAt position new rows).map f =
      insertAt position (new.map f) (rows.map f) := by
  simp [insertAt, List.map_take, List.map_drop]

@[simp] theorem insertAt_nil (position : Nat) (rows : List α) :
    insertAt position [] rows = rows := by
  simp [insertAt]

theorem getElem?_insertAt_of_lt {position i : Nat} (new : List α)
    {rows : List α} (hi : i < position) (hposition : position ≤ rows.length) :
    (insertAt position new rows)[i]? = rows[i]? := by
  unfold insertAt
  rw [List.append_assoc, List.getElem?_append_left, List.getElem?_take_of_lt hi]
  rw [List.length_take]
  omega

/-- Rows whose keys lie between those of their neighbours keep the order. -/
theorem increasing_insertAt [LinearOrder κ] {key : α → κ} {position : Nat}
    {new rows : List α} (hrows : Increasing key rows)
    (hnew : Increasing key new)
    (hbefore : ∀ row ∈ rows.take position, ∀ a ∈ new, key row < key a)
    (hafter : ∀ row ∈ rows.drop position, ∀ a ∈ new, key a < key row) :
    Increasing key (insertAt position new rows) := by
  rw [← List.take_append_drop position rows, increasing_append] at hrows
  obtain ⟨htake, hdrop, hcross⟩ := hrows
  unfold insertAt
  rw [increasing_append, increasing_append]
  refine ⟨⟨htake, hnew, hbefore⟩, hdrop, ?_⟩
  intro a ha row hrow
  rcases List.mem_append.mp ha with ha | ha
  · exact hcross a ha row hrow
  · exact hafter row hrow a ha

/-- It is enough to compare with the two rows next to the position. -/
theorem increasing_insertAt_of_neighbours [LinearOrder κ] {key : α → κ}
    {position : Nat} {new rows : List α} (hposition : position ≤ rows.length)
    (hrows : Increasing key rows) (hnew : Increasing key new)
    (hleft : ∀ i row, i + 1 = position → rows[i]? = some row →
      ∀ a ∈ new, key row < key a)
    (hright : ∀ row, rows[position]? = some row →
      ∀ a ∈ new, key a < key row) :
    Increasing key (insertAt position new rows) := by
  have hpairwise := List.pairwise_iff_getElem.mp hrows
  apply increasing_insertAt hrows hnew
  · intro row hrow a ha
    obtain ⟨i, hi, rfl⟩ := List.getElem_of_mem hrow
    rw [List.length_take] at hi
    rw [List.getElem_take]
    have hlast := hleft (position - 1) rows[position - 1] (by omega)
      (List.getElem?_eq_getElem _) a ha
    rcases Nat.lt_or_ge i (position - 1) with hlt | hge
    · exact (hpairwise i (position - 1) _ _ hlt).trans hlast
    · have heq : i = position - 1 := by omega
      subst heq
      exact hlast
  · intro row hrow a ha
    obtain ⟨i, hi, rfl⟩ := List.getElem_of_mem hrow
    rw [List.length_drop] at hi
    rw [List.getElem_drop]
    have hfirst := hright rows[position] (List.getElem?_eq_getElem _) a ha
    rcases Nat.eq_zero_or_pos i with rfl | hpos
    · exact hfirst
    · exact hfirst.trans (hpairwise position (position + i) _ _ (by omega))

/-! ## Overlaps -/

/-- A nonempty run that two lists share. -/
structure Overlap (existing incoming : List α) where
  existingStart : Nat
  incomingStart : Nat
  length : Nat
  pos : 0 < length
  existing_le : existingStart + length ≤ existing.length
  incoming_le : incomingStart + length ≤ incoming.length
  agree : (existing.drop existingStart).take length =
    (incoming.drop incomingStart).take length

namespace Overlap

variable {existing incoming : List α} (o : Overlap existing incoming)

/-- The existing list with the rest of the incoming one around the overlap. -/
def splice : List α :=
  insertAt o.existingStart (incoming.take o.incomingStart)
    (insertAt (o.existingStart + o.length)
      (incoming.drop (o.incomingStart + o.length)) existing)

theorem existing_sublist_splice : existing.Sublist o.splice :=
  (sublist_insertAt _ _ existing).trans (sublist_insertAt _ _ _)

/-- The five parts of a splice. -/
theorem splice_eq :
    o.splice = existing.take o.existingStart ++
      (incoming.take o.incomingStart ++
        (existing.drop o.existingStart).take o.length ++
        incoming.drop (o.incomingStart + o.length)) ++
      existing.drop (o.existingStart + o.length) := by
  have hle : o.existingStart ≤ existing.length :=
    (Nat.le_add_right _ _).trans o.existing_le
  have hsplit : existing.take (o.existingStart + o.length) =
      existing.take o.existingStart ++
        (existing.drop o.existingStart).take o.length := List.take_add
  have hlength : (existing.take o.existingStart).length = o.existingStart := by
    rw [List.length_take]
    omega
  have hrest : insertAt (o.existingStart + o.length)
      (incoming.drop (o.incomingStart + o.length)) existing =
      existing.take o.existingStart ++
        ((existing.drop o.existingStart).take o.length ++
          (incoming.drop (o.incomingStart + o.length) ++
            existing.drop (o.existingStart + o.length))) := by
    simp [insertAt, hsplit, List.append_assoc]
  unfold splice
  rw [hrest, insertAt, List.take_left' hlength, List.drop_left' hlength]
  simp [List.append_assoc]

theorem incoming_infix_splice : incoming <:+: o.splice := by
  refine ⟨existing.take o.existingStart,
    existing.drop (o.existingStart + o.length), ?_⟩
  have hincoming : incoming.take o.incomingStart ++
      (existing.drop o.existingStart).take o.length ++
      incoming.drop (o.incomingStart + o.length) = incoming := by
    rw [o.agree, ← List.take_add, List.take_append_drop]
  rw [splice_eq, hincoming]

/-- Nothing is spliced in when the overlap is the whole incoming list. -/
theorem splice_of_full (h : o.length = incoming.length) :
    o.splice = existing := by
  have hle := o.incoming_le
  have hstart : o.incomingStart = 0 := by omega
  simp [splice, hstart, h]

/-- The overlap extends as far as the two lists agree. -/
structure Maximal : Prop where
  left : ∀ i j, i + 1 = o.existingStart → j + 1 = o.incomingStart →
    existing[i]? ≠ incoming[j]?
  right : o.existingStart + o.length < existing.length →
    o.incomingStart + o.length < incoming.length →
    existing[o.existingStart + o.length]? ≠
      incoming[o.incomingStart + o.length]?

end Overlap

/-! ## Windows of one list -/

/-- The elements of `xs` from index `lo` up to `hi`. -/
def window (xs : List α) (lo hi : Nat) : List α :=
  (xs.drop lo).take (hi - lo)

section Window

variable {xs : List α} {lo hi mid : Nat}

theorem length_window (h : hi ≤ xs.length) :
    (window xs lo hi).length = hi - lo := by
  simp [window]
  omega

theorem window_append (hlo : lo ≤ mid) (hhi : mid ≤ hi) :
    window xs lo mid ++ window xs mid hi = window xs lo hi := by
  unfold window
  rw [show hi - lo = (mid - lo) + (hi - mid) by omega, List.take_add,
    List.drop_drop]
  rw [show lo + (mid - lo) = mid by omega]

@[simp] theorem window_self (xs : List α) (lo : Nat) : window xs lo lo = [] := by
  simp [window]

theorem take_window (k : Nat) (h : lo + k ≤ hi) :
    (window xs lo hi).take k = window xs lo (lo + k) := by
  unfold window
  rw [List.take_take]
  congr 1
  omega

theorem drop_window (k : Nat) :
    (window xs lo hi).drop k = window xs (lo + k) hi := by
  unfold window
  rw [List.drop_take, List.drop_drop]
  congr 1
  omega

theorem getElem?_window {k : Nat} (h : lo + k < hi) :
    (window xs lo hi)[k]? = xs[lo + k]? := by
  unfold window
  rw [List.getElem?_take_of_lt (by omega), List.getElem?_drop]

end Window

namespace Overlap

variable {xs : List α} {lo hi lo' hi' : Nat}

/-- Without repetitions an overlap lies at the same place in both windows. -/
theorem window_place (hnodup : xs.Nodup) (hhi : hi ≤ xs.length)
    (hhi' : hi' ≤ xs.length) (o : Overlap (window xs lo hi) (window xs lo' hi')) :
    lo + o.existingStart = lo' + o.incomingStart := by
  have hbound := o.existing_le
  have hbound' := o.incoming_le
  have hpos := o.pos
  rw [length_window hhi] at hbound
  rw [length_window hhi'] at hbound'
  have h := congrArg (fun ys => ys[0]?) o.agree
  simp only [List.getElem?_take_of_lt hpos, List.getElem?_drop,
    Nat.add_zero] at h
  rw [getElem?_window (by omega), getElem?_window (by omega)] at h
  exact (List.getElem?_inj (by omega) hnodup).mp h

theorem Maximal.window_left (hnodup : xs.Nodup) (hhi : hi ≤ xs.length)
    (hhi' : hi' ≤ xs.length) {o : Overlap (window xs lo hi) (window xs lo' hi')}
    (hmax : o.Maximal) : o.existingStart = 0 ∨ o.incomingStart = 0 := by
  have hplace := o.window_place hnodup hhi hhi'
  have hbound := o.existing_le
  have hbound' := o.incoming_le
  have hpos := o.pos
  rw [length_window hhi] at hbound
  rw [length_window hhi'] at hbound'
  by_contra hne
  push Not at hne
  apply hmax.left (o.existingStart - 1) (o.incomingStart - 1) (by omega)
    (by omega)
  rw [getElem?_window (by omega), getElem?_window (by omega)]
  congr 1
  omega

theorem Maximal.window_right (hnodup : xs.Nodup) (hhi : hi ≤ xs.length)
    (hhi' : hi' ≤ xs.length) {o : Overlap (window xs lo hi) (window xs lo' hi')}
    (hmax : o.Maximal) :
    o.existingStart + o.length = (window xs lo hi).length ∨
      o.incomingStart + o.length = (window xs lo' hi').length := by
  have hplace := o.window_place hnodup hhi hhi'
  have hbound := o.existing_le
  have hbound' := o.incoming_le
  have hpos := o.pos
  rw [length_window hhi] at hbound
  rw [length_window hhi'] at hbound'
  rw [length_window hhi, length_window hhi']
  by_contra hne
  push Not at hne
  apply hmax.right
  · rw [length_window hhi]
    omega
  · rw [length_window hhi']
    omega
  · rw [getElem?_window (by omega), getElem?_window (by omega)]
    congr 1
    omega

/--
Splicing windows of one list without repetitions along a maximal overlap gives
the window that spans them.
-/
theorem Maximal.splice_window (hnodup : xs.Nodup) (hle : lo ≤ hi)
    (hle' : lo' ≤ hi') (hhi : hi ≤ xs.length) (hhi' : hi' ≤ xs.length)
    {o : Overlap (window xs lo hi) (window xs lo' hi')} (hmax : o.Maximal) :
    o.splice = window xs (min lo lo') (max hi hi') := by
  have hplace := o.window_place hnodup hhi hhi'
  have hleft := hmax.window_left hnodup hhi hhi'
  have hright := hmax.window_right hnodup hhi hhi'
  have hbound := o.existing_le
  have hbound' := o.incoming_le
  have hpos := o.pos
  rw [length_window hhi] at hbound hright
  rw [length_window hhi'] at hbound' hright
  rw [o.splice_eq]
  rw [take_window _ (by omega), take_window _ (by omega), drop_window,
    drop_window, drop_window, take_window _ (by omega)]
  have hmid : lo + o.existingStart + o.length =
      lo' + (o.incomingStart + o.length) := by omega
  have hmid' : lo + (o.existingStart + o.length) =
      lo' + (o.incomingStart + o.length) := by omega
  rw [hmid, hmid', hplace]
  have hincoming : window xs lo' (lo' + o.incomingStart) ++
      window xs (lo' + o.incomingStart)
        (lo' + (o.incomingStart + o.length)) ++
      window xs (lo' + (o.incomingStart + o.length)) hi' =
      window xs lo' hi' := by
    rw [window_append (by omega) (by omega), window_append (by omega) (by omega)]
  rw [hincoming]
  have hstart : window xs lo (lo' + o.incomingStart) ++ window xs lo' hi' =
      window xs (min lo lo') hi' := by
    rcases hleft with hzero | hzero
    · rw [show lo' + o.incomingStart = lo by omega, window_self,
        List.nil_append, Nat.min_eq_right (by omega)]
    · rw [hzero, Nat.add_zero, window_append (by omega) hle',
        Nat.min_eq_left (by omega)]
  rw [hstart]
  rcases hright with hend | hend
  · rw [show lo' + (o.incomingStart + o.length) = hi by omega, window_self,
      List.append_nil, Nat.max_eq_right (by omega)]
  · rw [show lo' + (o.incomingStart + o.length) = hi' by omega,
      window_append (by omega) (by omega), Nat.max_eq_left (by omega)]

end Overlap

end VirtualContext.Library
