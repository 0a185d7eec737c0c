import Mathlib.Data.List.Perm.Subperm
import Mathlib.Logic.Relation
import VirtualContext.Library.Chains
import VirtualContext.Library.Entries
import VirtualContext.Library.Fuel

/-!
# Union-find over a dictionary of parents

A point without an entry, or with itself as its parent, is a root.  Looking for
a root halves the path to it.  What the operations do is said by the function
that takes a point to its root.
-/

namespace VirtualContext.Library

/-- The parents of points. -/
abbrev Parents (κ : Type) := Entries κ κ

namespace Parents

variable {κ : Type} [DecidableEq κ]

/-- `parent.get(x, x)` -/
def parentOf (parents : Parents κ) (x : κ) : κ := (parents.get x).getD x

/-- The loop of `find` with the steps that are left. -/
def findLoop : Nat → Parents κ → κ → κ × Parents κ
  | 0, parents, x => (x, parents)
  | steps + 1, parents, x =>
      let parent := parentOf parents x
      if parent = x then (x, parents)
      else
        let grandparent := parentOf parents parent
        findLoop steps (parents.set x grandparent) grandparent

/-- The root of a point; no path is longer than there are entries. -/
def find (parents : Parents κ) (x : κ) : κ × Parents κ :=
  findLoop (parents.length + 1) parents x

/-- `parent.setdefault(x, x)` -/
def register (parents : Parents κ) (x : κ) : Parents κ :=
  if (parents.get x).isSome then parents else parents.set x x

def union (parents : Parents κ) (x y : κ) : Parents κ :=
  let (rootX, parents) := parents.find x
  let (rootY, parents) := parents.find y
  if rootX = rootY then parents else parents.set rootX rootY

/-! ## Forests -/

/-- The parent of a point that is no root. -/
def next (parents : Parents κ) (x : κ) : Option κ :=
  if parentOf parents x = x then none else some (parentOf parents x)

/-- The paths of a forest end, at the roots of their points. -/
def Rooted (parents : Parents κ) (root : κ → κ) : Prop :=
  ∀ x, ∃ k, EndsAt parents.next x k (root x)

variable {parents : Parents κ} {root : κ → κ} {x y : κ}

theorem next_of_mem (h : parents.next x ≠ none) : x ∈ Entries.keys parents := by
  by_contra hmem
  have hget := Entries.get_eq_none_iff.mpr hmem
  simp [next, parentOf, hget] at h

theorem next_set (x y z : κ) :
    next (parents.set x y) z =
      if z = x then (if y = x then none else some y) else parents.next z := by
  unfold next parentOf
  rw [Entries.get_set]
  by_cases hz : z = x
  · subst hz
    simp
  · simp [Ne.symm hz, hz]

/-- Without parents every point is a root. -/
theorem Rooted.nil : Rooted ([] : Parents κ) id := fun x =>
  ⟨0, rfl, by simp [next, parentOf, Entries.get]⟩

theorem Rooted.next_root (h : Rooted parents root) (x : κ) :
    parents.next (root x) = none := by
  obtain ⟨k, hend⟩ := h x
  exact hend.2

theorem Rooted.root_root (h : Rooted parents root) (x : κ) : root (root x) = root x := by
  obtain ⟨k, hend⟩ := h (root x)
  exact (hend.unique ⟨hop_zero, h.next_root x⟩).2

/-- A path visits each of its points once, and all but its end have an entry. -/
theorem EndsAt.le_length {k : Nat} (h : EndsAt parents.next x k y) : k ≤ parents.length := by
  have hvisit (i : Nat) (hi : i < k) : ∃ z, hop parents.next i x = some z ∧
      z ∈ Entries.keys parents := by
    have hsome : hop parents.next (i + 1) x ≠ none := by
      intro hnone
      obtain ⟨d, rfl⟩ := Nat.exists_eq_add_of_lt hi
      have hk := h.1
      rw [show i + d + 1 = i + 1 + d from by omega, hop_add, hnone] at hk
      cases hk
    rw [hop_succ] at hsome
    cases hz : hop parents.next i x with
    | none => simp [hz] at hsome
    | some z => exact ⟨z, rfl, next_of_mem (by simpa [hz] using hsome)⟩
  have hnodup : ((List.range k).map fun i => hop parents.next i x).Nodup := by
    refine List.Nodup.map_on ?_ List.nodup_range
    intro i hi j hj heq
    obtain ⟨z, hz, -⟩ := hvisit i (List.mem_range.mp hi)
    by_contra hne
    rcases Nat.lt_or_gt_of_ne hne with hlt | hlt
    · exact h.not_revisits j ⟨i, j, hlt, Nat.le_refl j, z, hz, heq ▸ hz⟩
    · exact h.not_revisits i ⟨j, i, hlt, Nat.le_refl i, z, heq ▸ hz, hz⟩
  have hsub : ((List.range k).map fun i => hop parents.next i x) ⊆
      (Entries.keys parents).map some := by
    intro point hpoint
    obtain ⟨i, hi, rfl⟩ := List.mem_map.mp hpoint
    obtain ⟨z, hz, hmem⟩ := hvisit i (List.mem_range.mp hi)
    exact List.mem_map.mpr ⟨z, hmem, hz.symm⟩
  simpa [Entries.keys] using (List.subperm_of_subset hnodup hsub).length_le

/-! ## Finding a root -/

/-- Halving a path moves no root. -/
theorem Rooted.halve (h : Rooted parents root) (hx : parentOf parents x ≠ x) :
    Rooted (parents.set x (parentOf parents (parentOf parents x))) root ∧
      ∃ m, hop parents.next (m + 1) x =
        some (parentOf parents (parentOf parents x)) := by
  have hnext : parents.next x = some (parentOf parents x) := by simp [next, hx]
  have hreach : ∃ m, hop parents.next (m + 1) x =
      some (parentOf parents (parentOf parents x)) := by
    by_cases hroot : parentOf parents (parentOf parents x) = parentOf parents x
    · refine ⟨0, ?_⟩
      rw [hroot, hop_succ, hop_zero]
      exact hnext
    · refine ⟨1, ?_⟩
      have hgrand : parents.next (parentOf parents x) =
          some (parentOf parents (parentOf parents x)) := by simp [next, hroot]
      rw [hop_succ, hop_succ, hop_zero, Option.bind_some, hnext]
      exact hgrand
  refine ⟨fun z => ?_, hreach⟩
  obtain ⟨m, hm⟩ := hreach
  obtain ⟨k, hend⟩ := h z
  have hne : parentOf parents (parentOf parents x) ≠ x := by
    intro heq
    rw [heq] at hm
    obtain ⟨j, hx'⟩ := h x
    exact hx'.not_revisits (m + 1) ⟨0, m + 1, by omega, Nat.le_refl _, x, rfl, hm⟩
  have hshort : ∃ k' ≤ k, EndsAt
      (next (parents.set x (parentOf parents (parentOf parents x)))) z k' (root z) :=
    hend.shortcut (fun w hw => by rw [next_set, if_neg hw])
      (by rw [next_set, if_pos rfl, if_neg hne]) hm
  obtain ⟨k', -, hend'⟩ := hshort
  exact ⟨k', hend'⟩

/-- The loop finds the root if it has more steps left than the path has hops. -/
theorem Rooted.findLoop {steps k : Nat} (h : Rooted parents root)
    (hend : EndsAt parents.next x k (root x)) (hk : k < steps) :
    (findLoop steps parents x).1 = root x ∧ Rooted (findLoop steps parents x).2 root := by
  induction steps generalizing parents x k with
  | zero => omega
  | succ steps ih =>
      rw [Parents.findLoop]
      by_cases hx : parentOf parents x = x
      · rw [if_pos hx]
        have hroot : EndsAt parents.next x 0 x := ⟨hop_zero, by simp [next, hx]⟩
        exact ⟨(hroot.unique hend).2, h⟩
      · rw [if_neg hx]
        obtain ⟨hhalved, m, hm⟩ := h.halve hx
        have hafter := (hend.after hm).2
        have hroot : root (parentOf parents (parentOf parents x)) = root x := by
          obtain ⟨j, hgrand⟩ := h (parentOf parents (parentOf parents x))
          exact (hgrand.unique hafter).2
        have hshort : ∃ k' ≤ k - (m + 1), EndsAt
            (next (parents.set x (parentOf parents (parentOf parents x))))
            (parentOf parents (parentOf parents x)) k' (root x) := by
          refine hafter.shortcut (fun w hw => by rw [next_set, if_neg hw]) ?_ hm
          rw [next_set, if_pos rfl, if_neg]
          intro heq
          rw [heq] at hm
          exact hend.not_revisits (m + 1)
            ⟨0, m + 1, by omega, Nat.le_refl _, x, hop_zero, hm⟩
        obtain ⟨k', hk', hend'⟩ := hshort
        rw [← hroot] at hend' ⊢
        have hpos : 0 < k := by
          have hmk := (hend.after hm).1
          omega
        exact ih hhalved hend' (by omega)

theorem Rooted.find (h : Rooted parents root) (x : κ) :
    (parents.find x).1 = root x ∧ Rooted (parents.find x).2 root := by
  obtain ⟨k, hend⟩ := h x
  exact h.findLoop hend (Nat.lt_succ_of_le (EndsAt.le_length hend))

theorem Rooted.register (h : Rooted parents root) (x : κ) :
    Rooted (parents.register x) root := by
  unfold Parents.register
  split_ifs with hsome
  · exact h
  · have hnext : next (parents.set x x) = parents.next := by
      funext z
      rw [next_set, if_pos rfl]
      split_ifs with hz
      · rw [Option.not_isSome_iff_eq_none] at hsome
        simp [hz, next, parentOf, hsome]
      · rfl
    intro z
    rw [hnext]
    exact h z

/-! ## Joining two roots -/

/-- The root of a point after the root of `x` got the root of `y` as its parent. -/
def join (root : κ → κ) (x y z : κ) : κ := if root z = root x then root y else root z

theorem Rooted.union (h : Rooted parents root) (x y : κ) :
    Rooted (parents.union x y) (join root x y) := by
  unfold Parents.union
  obtain ⟨hrootX, hfoundX⟩ := h.find x
  obtain ⟨hrootY, hfoundY⟩ := hfoundX.find y
  simp only [hrootX, hrootY]
  generalize (Parents.find (parents.find x).2 y).2 = found at hfoundY
  split_ifs with hsame
  · intro z
    have hjoin : join root x y z = root z := by
      unfold join
      split_ifs with hz
      · rw [hz, hsame]
      · rfl
    rw [hjoin]
    exact hfoundY z
  · intro z
    obtain ⟨k, hend⟩ := hfoundY z
    have hoff (w : κ) (hw : w ≠ root x) :
        next (found.set (root x) (root y)) w = found.next w := by rw [next_set, if_neg hw]
    have hlink := hend.link hoff (by rw [next_set, if_pos rfl, if_neg (Ne.symm hsame)])
      (by rw [hoff _ (Ne.symm hsame)]; exact hfoundY.next_root y) (hfoundY.next_root x)
    unfold join
    rcases hlink with ⟨heq, hend'⟩ | ⟨hne, hend'⟩
    · rw [if_pos heq]
      exact ⟨k + 1, hend'⟩
    · rw [if_neg hne]
      exact ⟨k, hend'⟩

/-! ## Loops that end -/

/-- The loop of `find`, with no result if it needs more steps. -/
def findWithin : Nat → Parents κ → κ → Option (κ × Parents κ)
  | 0, _, _ => none
  | steps + 1, parents, x =>
      let parent := parentOf parents x
      if parent = x then some (x, parents)
      else
        let grandparent := parentOf parents parent
        findWithin steps (parents.set x grandparent) grandparent

def unionWithin (steps : Nat) (parents : Parents κ) (x y : κ) : Option (Parents κ) :=
  (findWithin steps parents x).bind fun (rootX, parents) =>
    (findWithin steps parents y).map fun (rootY, parents) =>
      if rootX = rootY then parents else parents.set rootX rootY

/-- The loop does not run on from a root, so more steps change nothing. -/
theorem findWithin_eq {steps steps' : Nat} (hle : steps ≤ steps')
    (hroot : next (Parents.findLoop steps parents x).2 (Parents.findLoop steps parents x).1 =
      none) :
    findWithin (steps' + 1) parents x = some (Parents.findLoop steps parents x) := by
  induction steps generalizing steps' parents x with
  | zero =>
      have hx : parentOf parents x = x := by
        by_contra hx
        simp [Parents.findLoop, next, hx] at hroot
      rw [findWithin, if_pos hx]
      rfl
  | succ steps ih =>
      rw [Parents.findLoop] at hroot ⊢
      rw [findWithin]
      by_cases hx : parentOf parents x = x
      · rw [if_pos hx, if_pos hx]
      · rw [if_neg hx] at hroot ⊢
        rw [if_neg hx]
        obtain ⟨steps', rfl⟩ := Nat.exists_eq_succ_of_ne_zero (by omega : steps' ≠ 0)
        exact ih (by omega) hroot

theorem Rooted.findEnds (h : Rooted parents root) (x : κ) :
    Ends (fun steps => findWithin steps parents x) (parents.find x) := by
  refine ⟨parents.length + 2, fun steps hsteps => ?_⟩
  obtain ⟨steps, rfl⟩ := Nat.exists_eq_succ_of_ne_zero (by omega : steps ≠ 0)
  have hroot : next (parents.find x).2 (parents.find x).1 = none := by
    obtain ⟨hfound, hrooted⟩ := h.find x
    rw [hfound]
    exact hrooted.next_root x
  exact findWithin_eq (by omega) hroot

theorem Rooted.unionEnds (h : Rooted parents root) (x y : κ) :
    Ends (fun steps => unionWithin steps parents x y) (parents.union x y) :=
  (h.findEnds x).bind (((h.find x).2.findEnds y).map _)

/-! ## Joining many pairs -/

/-- The smallest equivalence that relates the points of each pair. -/
def Connected (pairs : List (κ × κ)) : κ → κ → Prop :=
  Relation.EqvGen fun x y => (x, y) ∈ pairs

/-- Two points have one root just when the pairs connect them. -/
def Classifies (root : κ → κ) (pairs : List (κ × κ)) : Prop :=
  ∀ x y, root x = root y ↔ Connected pairs x y

theorem Classifies.nil : Classifies (id : κ → κ) [] := by
  intro x y
  constructor
  · rintro rfl
    exact .refl x
  · intro h
    induction h with
    | rel _ _ h => cases h
    | refl => rfl
    | symm _ _ _ ih => exact ih.symm
    | trans _ _ _ _ _ ih ih' => exact ih.trans ih'

theorem Connected.mono {pairs pairs' : List (κ × κ)} (h : Connected pairs x y)
    (hsub : pairs ⊆ pairs') : Connected pairs' x y := by
  induction h with
  | rel _ _ hmem => exact .rel _ _ (hsub hmem)
  | refl => exact .refl _
  | symm _ _ _ ih => exact .symm _ _ ih
  | trans _ _ _ _ _ ih ih' => exact .trans _ _ _ ih ih'

theorem Classifies.join {pairs : List (κ × κ)} (h : Classifies root pairs) (x y : κ) :
    Classifies (join root x y) (pairs ++ [(x, y)]) := by
  have hold {z w : κ} (hzw : root z = root w) : Connected (pairs ++ [(x, y)]) z w :=
    ((h z w).mp hzw).mono (List.subset_append_left _ _)
  have hnew : Connected (pairs ++ [(x, y)]) x y := .rel _ _ (by simp)
  intro z w
  constructor
  · intro hjoin
    unfold Parents.join at hjoin
    split_ifs at hjoin with hz hw hw
    · exact hold (hz.trans hw.symm)
    · exact ((hold hz).trans _ _ _ hnew).trans _ _ _ (hold hjoin)
    · exact ((hold hjoin).trans _ _ _ (hnew.symm _ _)).trans _ _ _ (hold hw.symm)
    · exact hold hjoin
  · intro hconnected
    induction hconnected with
    | refl => rfl
    | symm _ _ _ ih => exact ih.symm
    | trans _ _ _ _ _ ih ih' => exact ih.trans ih'
    | rel a b hmem =>
        rcases List.mem_append.mp hmem with hmem | hmem
        · have hab := (h a b).mpr (.rel _ _ hmem)
          simp [Parents.join, hab]
        · obtain ⟨rfl, rfl⟩ := Prod.mk.inj (List.mem_singleton.mp hmem)
          simp [Parents.join]

end Parents

end VirtualContext.Library
