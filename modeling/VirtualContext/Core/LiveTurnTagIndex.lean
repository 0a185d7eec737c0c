import Mathlib.Data.Finset.Basic
import VirtualContext.Core.TurnTagIndex
import VirtualContext.Library.Positions
import VirtualContext.Library.Reach

/-!
# The live turn tag index

The entries of the index with the dictionaries that lead to them.  An entry is
appended once and never moved, so that its position stands for the object that
the dictionaries share with the list.
-/

namespace VirtualContext

open VirtualContext.Library

structure LiveTurnTagIndex where
  entries : List TurnTagEntry := []
  byLogicalTurn : Entries Int Nat := []
  byCanonicalTurn : Entries Uuid Nat := []
  byHash : Entries HexDigest Nat := []
  allTags : Finset String := ∅
  deriving DecidableEq

/-- `entry` with `old_tag` replaced, if it has that tag and there are new ones. -/
def TurnTagEntry.replaceTag (oldTag : String)
    (turnToNewTags : Entries Int (List String)) (entry : TurnTagEntry) :
    Option TurnTagEntry :=
  if oldTag ∈ entry.tags then
    match turnToNewTags.get entry.turnNumber with
    | some (first :: rest) =>
        some { entry with
          tags := entry.tags.filter (· ≠ oldTag) ++ first :: rest
          primaryTag :=
            if entry.primaryTag = oldTag then first else entry.primaryTag }
    | _ => none
  else none

namespace LiveTurnTagIndex

variable (index : LiveTurnTagIndex)

def append (entry : TurnTagEntry) : LiveTurnTagIndex :=
  if entry.turnNumber ∈ index.byLogicalTurn.keys then index
  else if entry.canonicalTurnId ≠ 0 ∧
      entry.canonicalTurnId ∈ index.byCanonicalTurn.keys then index
  else
    let position := index.entries.length
    { entries := index.entries ++ [entry]
      byLogicalTurn := index.byLogicalTurn.set entry.turnNumber position
      byCanonicalTurn :=
        if entry.canonicalTurnId ≠ 0 then
          index.byCanonicalTurn.set entry.canonicalTurnId position
        else index.byCanonicalTurn
      byHash :=
        if entry.messageHash ≠ [] then index.byHash.set entry.messageHash position
        else index.byHash
      allTags := index.allTags ∪ entry.tags.toFinset }

def getTagsForLogicalTurn (turnNumber : Int) : Option TurnTagEntry :=
  (index.byLogicalTurn.get turnNumber).bind fun position => index.entries[position]?

def getTagsForCanonicalTurn (canonicalTurnId : Uuid) : Option TurnTagEntry :=
  (index.byCanonicalTurn.get canonicalTurnId).bind fun position =>
    index.entries[position]?

/-- The entry that has the id afterwards, and the index. -/
def bindCanonicalTurnId (turnNumber : Int) (canonicalTurnId : Uuid) :
    Option TurnTagEntry × LiveTurnTagIndex :=
  if canonicalTurnId = 0 then (none, index)
  else
    match index.byCanonicalTurn.get canonicalTurnId with
    | some existing => (index.entries[existing]?, index)
    | none =>
        match index.byLogicalTurn.get turnNumber with
        | none => (none, index)
        | some position =>
            let entries := index.entries.modify position fun entry =>
              { entry with canonicalTurnId }
            (entries[position]?,
              { index with
                entries
                byCanonicalTurn := index.byCanonicalTurn.set canonicalTurnId position })

/-- The number of entries modified, and the index. -/
def replaceTag (oldTag : String) (turnToNewTags : Entries Int (List String)) :
    Nat × LiveTurnTagIndex :=
  let replace := TurnTagEntry.replaceTag oldTag turnToNewTags
  let modified := (index.entries.filterMap replace).length
  let entries := index.entries.map fun entry => (replace entry).getD entry
  (modified,
    { index with
      entries
      allTags :=
        if modified = 0 then index.allTags else (entries.flatMap (·.tags)).toFinset })

/-! ## What the dictionaries should say -/

end LiveTurnTagIndex

/-- The key of an entry in `_by_canonical_turn`, if it has one. -/
def TurnTagEntry.canonicalKey (entry : TurnTagEntry) : Option Uuid :=
  if entry.canonicalTurnId = 0 then none else some entry.canonicalTurnId

namespace LiveTurnTagIndex

/-- The dictionaries and the set of tags say of the entries what they are for. -/
structure Consistent (index : LiveTurnTagIndex) : Prop where
  distinct : (index.entries.map (·.turnNumber)).Nodup
  logical : Indexes index.byLogicalTurn index.entries fun entry => some entry.turnNumber
  canonical : Indexes index.byCanonicalTurn index.entries (·.canonicalKey)
  tags : index.allTags = (index.entries.flatMap (·.tags)).toFinset

variable {index : LiveTurnTagIndex}

theorem empty_consistent : Consistent {} where
  distinct := List.nodup_nil
  logical := .nil _
  canonical := .nil _
  tags := rfl

theorem append_consistent (h : index.Consistent) (entry : TurnTagEntry) :
    (index.append entry).Consistent := by
  unfold append
  by_cases hturn : entry.turnNumber ∈ index.byLogicalTurn.keys
  · rwa [if_pos hturn]
  rw [if_neg hturn]
  by_cases hid : entry.canonicalTurnId ≠ 0 ∧
      entry.canonicalTurnId ∈ index.byCanonicalTurn.keys
  · rwa [if_pos hid]
  rw [if_neg hid]
  have hlogical := h.logical.append_some entry rfl hturn
  refine ⟨hlogical.nodup, hlogical, ?_, ?_⟩
  · by_cases hnone : entry.canonicalTurnId = 0
    · simp only [hnone, ne_eq, not_true_eq_false, if_false]
      exact h.canonical.append_none entry (if_pos hnone)
    · simp only [hnone, ne_eq, not_false_eq_true, if_true]
      exact h.canonical.append_some entry (if_neg hnone) fun hmem => hid ⟨hnone, hmem⟩
  · ext tag
    simp [h.tags]

/-- The index of the entries alone, which the live index keeps up with. -/
structure Represents (live : LiveTurnTagIndex) (index : TurnTagIndex) : Prop where
  entries : live.entries = index.entries
  canonical : live.byCanonicalTurn.keys = index.byCanonicalTurn.map (·.1)

theorem Represents.append {plain : TurnTagIndex} (hrep : index.Represents plain)
    (h : index.Consistent) (entry : TurnTagEntry) :
    (index.append entry).Represents (plain.append entry) := by
  have hturns : entry.turnNumber ∈ index.byLogicalTurn.keys ↔
      entry.turnNumber ∈ plain.entries.map (·.turnNumber) := by
    simp [h.logical.mem_keys, hrep.entries]
  unfold LiveTurnTagIndex.append TurnTagIndex.append
  by_cases hturn : entry.turnNumber ∈ index.byLogicalTurn.keys
  · rwa [if_pos hturn, dif_pos (hturns.mp hturn)]
  rw [if_neg hturn, dif_neg (hturns.not.mp hturn), ← hrep.canonical]
  by_cases hid : entry.canonicalTurnId ≠ 0 ∧
      entry.canonicalTurnId ∈ index.byCanonicalTurn.keys
  · rwa [if_pos hid, if_pos hid]
  rw [if_neg hid, if_neg hid]
  refine ⟨congrArg (· ++ [entry]) hrep.entries, ?_⟩
  dsimp only
  by_cases hnone : entry.canonicalTurnId = 0
  · simp [hnone, hrep.canonical]
  · have hnew : entry.canonicalTurnId ∉ index.byCanonicalTurn.keys :=
      fun hmem => hid ⟨hnone, hmem⟩
    simp [hnone, Entries.keys_set_new hnew, hrep.canonical]

theorem Represents.getTagsForLogicalTurn {plain : TurnTagIndex}
    (hrep : index.Represents plain) (h : index.Consistent) (turnNumber : Int) :
    index.getTagsForLogicalTurn turnNumber = plain.getTagsForLogicalTurn turnNumber := by
  unfold LiveTurnTagIndex.getTagsForLogicalTurn TurnTagIndex.getTagsForLogicalTurn
  rw [← hrep.entries]
  cases hget : index.byLogicalTurn.get turnNumber with
  | none =>
      symm
      simp only [Option.bind_none, List.find?_eq_none, decide_eq_true_eq]
      rintro entry hentry rfl
      exact Entries.get_eq_none_iff.mp hget
        (h.logical.mem_keys.mpr ⟨entry, hentry, rfl⟩)
  | some position =>
      obtain ⟨entry, hentry, hturn⟩ := (h.logical _ _).mp hget
      rw [Option.bind_some, hentry]
      cases hfind : index.entries.find? (·.turnNumber = turnNumber) with
      | none =>
          exact absurd (Option.some.inj hturn)
            (by simpa using List.find?_eq_none.mp hfind entry (List.mem_of_getElem? hentry))
      | some found =>
          have hfound : found.turnNumber = turnNumber := by
            simpa using List.find?_some hfind
          exact congrArg some (List.inj_on_of_nodup_map h.distinct
            (List.mem_of_getElem? hentry) (List.mem_of_find?_eq_some hfind)
            ((Option.some.inj hturn).trans hfound.symm))

/-! ## Binding -/

/-- A new id goes to an entry that has none. -/
def BindsUnbound (index : LiveTurnTagIndex) (turnNumber : Int)
    (canonicalTurnId : Uuid) : Prop :=
  canonicalTurnId ≠ 0 → canonicalTurnId ∉ index.byCanonicalTurn.keys →
    ∀ entry ∈ index.getTagsForLogicalTurn turnNumber, entry.canonicalTurnId = 0

instance (turnNumber : Int) (canonicalTurnId : Uuid) :
    Decidable (index.BindsUnbound turnNumber canonicalTurnId) :=
  inferInstanceAs (Decidable (_ → _ → ∀ entry ∈ index.getTagsForLogicalTurn turnNumber, _))

theorem bind_consistent_iff (h : index.Consistent) (turnNumber : Int)
    (canonicalTurnId : Uuid) :
    (index.bindCanonicalTurnId turnNumber canonicalTurnId).2.Consistent ↔
      index.BindsUnbound turnNumber canonicalTurnId := by
  unfold bindCanonicalTurnId BindsUnbound getTagsForLogicalTurn
  by_cases hzero : canonicalTurnId = 0
  · simp [hzero, h]
  rw [if_neg hzero]
  cases hexisting : index.byCanonicalTurn.get canonicalTurnId with
  | some existing =>
      have hmem : canonicalTurnId ∈ index.byCanonicalTurn.keys := by
        by_contra hnot
        rw [Entries.get_eq_none_iff.mpr hnot] at hexisting
        cases hexisting
      exact iff_of_true h fun _ hnot => absurd hmem hnot
  | none =>
      have hnew := Entries.get_eq_none_iff.mp hexisting
      cases hposition : index.byLogicalTurn.get turnNumber with
      | none => exact iff_of_true h (by simp)
      | some position =>
          obtain ⟨entry, hentry, -⟩ := (h.logical _ _).mp hposition
          have hcanonical := h.canonical.modify_iff
            (f := fun entry => { entry with canonicalTurnId }) hentry
            (if_neg hzero) hnew
          have hkey : entry.canonicalKey = none ↔ entry.canonicalTurnId = 0 := by
            unfold TurnTagEntry.canonicalKey
            split_ifs with hentry <;> simp [hentry]
          simp only [Option.bind_some, hentry, Option.mem_some, forall_eq', hzero, hnew,
            ne_eq, not_false_eq_true, true_imp_iff, ← hkey, ← hcanonical]
          refine ⟨Consistent.canonical, fun hindexes => ?_⟩
          have hkept {β : Type} (g : TurnTagEntry → β)
              (hg : ∀ entry, g { entry with canonicalTurnId } = g entry) :
              (index.entries.modify position fun entry =>
                { entry with canonicalTurnId }).map g = index.entries.map g := by
            apply List.ext_getElem?
            intro i
            rw [List.getElem?_map, List.getElem?_map, List.getElem?_modify]
            cases index.entries[i]? with
            | none => rfl
            | some entry =>
                by_cases hi : position = i <;> simp [hi, hg]
          have hlogical := h.logical.of_keys (hkept _ fun _ => rfl)
          refine ⟨hlogical.nodup, hlogical, hindexes, ?_⟩
          dsimp only
          rw [List.flatMap_def, hkept _ fun _ => rfl, ← List.flatMap_def, h.tags]

/-! ## Replacing a tag -/

theorem replaceTag_kept {oldTag : String} {turnToNewTags : Entries Int (List String)}
    {entry replaced : TurnTagEntry}
    (h : entry.replaceTag oldTag turnToNewTags = some replaced) :
    replaced.turnNumber = entry.turnNumber ∧
      replaced.canonicalKey = entry.canonicalKey := by
  rw [TurnTagEntry.replaceTag] at h
  split at h
  case isFalse => cases h
  split at h
  · cases h
    exact ⟨rfl, rfl⟩
  · cases h

theorem replaceTag_consistent (h : index.Consistent) (oldTag : String)
    (turnToNewTags : Entries Int (List String)) :
    (index.replaceTag oldTag turnToNewTags).2.Consistent := by
  have hkept {β : Type} (g : TurnTagEntry → β) (hg : ∀ entry replaced,
      entry.replaceTag oldTag turnToNewTags = some replaced → g replaced = g entry) :
      (index.entries.map fun entry =>
        (entry.replaceTag oldTag turnToNewTags).getD entry).map g =
      index.entries.map g := by
    rw [List.map_map]
    refine List.map_congr_left fun entry _ => ?_
    cases hentry : entry.replaceTag oldTag turnToNewTags with
    | none => simp [hentry]
    | some replaced => simp [hentry, hg entry replaced hentry]
  have hlogical := h.logical.of_keys
    (hkept _ fun _ _ hentry => congrArg some (replaceTag_kept hentry).1)
  refine ⟨hlogical.nodup, hlogical, h.canonical.of_keys
    (hkept _ fun _ _ hentry => (replaceTag_kept hentry).2), ?_⟩
  unfold replaceTag
  dsimp only
  split_ifs with hmodified
  · -- no entry was modified
    rw [List.length_eq_zero_iff, List.filterMap_eq_nil_iff] at hmodified
    rw [h.tags]
    congr 2
    conv_lhs => rw [← List.map_id index.entries]
    refine List.map_congr_left fun entry hentry => ?_
    rw [hmodified entry hentry]
    rfl
  · rfl

/-! ## Runs -/

inductive Mutation where
  | append (entry : TurnTagEntry)
  | bindCanonicalTurnId (turnNumber : Int) (canonicalTurnId : Uuid)
  | replaceTag (oldTag : String) (turnToNewTags : Entries Int (List String))

def mutate (index : LiveTurnTagIndex) : Mutation → LiveTurnTagIndex
  | .append entry => index.append entry
  | .bindCanonicalTurnId turnNumber canonicalTurnId =>
      (index.bindCanonicalTurnId turnNumber canonicalTurnId).2
  | .replaceTag oldTag turnToNewTags => (index.replaceTag oldTag turnToNewTags).2

/-- The index after every mutation. -/
def statesAfter (index : LiveTurnTagIndex) : List Mutation → List LiveTurnTagIndex
  | [] => []
  | mutation :: rest => index.mutate mutation :: statesAfter (index.mutate mutation) rest

/-- Every id of the run that is new goes to a turn without one. -/
def BindsOnce (index : LiveTurnTagIndex) : List Mutation → Prop
  | [] => True
  | .bindCanonicalTurnId turnNumber canonicalTurnId :: rest =>
      index.BindsUnbound turnNumber canonicalTurnId ∧
        BindsOnce (index.bindCanonicalTurnId turnNumber canonicalTurnId).2 rest
  | mutation :: rest => BindsOnce (index.mutate mutation) rest

theorem statesAfter_consistent_iff (h : index.Consistent) (run : List Mutation) :
    (∀ state ∈ index.statesAfter run, state.Consistent) ↔ index.BindsOnce run := by
  induction run generalizing index with
  | nil => simp [statesAfter, BindsOnce]
  | cons mutation rest ih =>
      rw [statesAfter, List.forall_mem_cons]
      cases mutation with
      | append entry =>
          have hnext := append_consistent h entry
          exact (and_iff_right hnext).trans (ih hnext)
      | bindCanonicalTurnId turnNumber canonicalTurnId =>
          have hbind := bind_consistent_iff h turnNumber canonicalTurnId
          rw [BindsOnce, ← hbind]
          exact and_congr_right fun hnext => ih hnext
      | replaceTag oldTag turnToNewTags =>
          have hnext := replaceTag_consistent h oldTag turnToNewTags
          exact (and_iff_right hnext).trans (ih hnext)

end LiveTurnTagIndex

/--
The indexes agree with the entries throughout a run exactly if the run gives no
turn a second canonical id.
-/
theorem live_index_consistent_iff (run : List LiveTurnTagIndex.Mutation) :
    (∀ state ∈ LiveTurnTagIndex.statesAfter {} run, state.Consistent) ↔
      LiveTurnTagIndex.BindsOnce {} run :=
  LiveTurnTagIndex.statesAfter_consistent_iff LiveTurnTagIndex.empty_consistent run

/-- Turn 0 is bound to one id and then to another, and the first still leads to it. -/
theorem rebound_turn_stale :
    ∃ state ∈ LiveTurnTagIndex.statesAfter {}
        [.append { turnNumber := 0, timestamp := newYear },
          .bindCanonicalTurnId 0 1, .bindCanonicalTurnId 0 2],
      (state.getTagsForCanonicalTurn 1).map (·.canonicalTurnId) = some 2 := by
  refine ⟨_, List.mem_of_getElem? (i := 2) rfl, ?_⟩
  decide +kernel

end VirtualContext
