import Mathlib.Data.List.Induction
import Mathlib.Data.List.Nodup

/-!
# Dictionaries

A dictionary in insertion order: an entry is replaced in its place, and a new
one comes last.
-/

namespace VirtualContext.Library

/-- A `dict` in insertion order. -/
abbrev Entries (κ β : Type) := List (κ × β)

namespace Entries

variable {κ β : Type} [DecidableEq κ]

/-- `entries.get(key)` -/
def get : Entries κ β → κ → Option β
  | [], _ => none
  | (first, value) :: rest, key => if first = key then some value else get rest key

/-- `entries[key] = value` -/
def set : Entries κ β → κ → β → Entries κ β
  | [], key, value => [(key, value)]
  | (first, old) :: rest, key, value =>
      if first = key then (first, value) :: rest
      else (first, old) :: set rest key value

def keys (entries : Entries κ β) : List κ := entries.map Prod.fst

variable {entries : Entries κ β} {key : κ} {value : β}

theorem get_set (entries : Entries κ β) (key : κ) (value : β) (k : κ) :
    get (set entries key value) k = if key = k then some value else get entries k := by
  induction entries with
  | nil => rfl
  | cons entry rest ih =>
      obtain ⟨first, old⟩ := entry
      by_cases hfirst : first = key
      · subst hfirst
        by_cases hk : first = k <;> simp [set, get, hk]
      · by_cases hk : first = k
        · subst hk
          simp [set, get, hfirst, Ne.symm hfirst]
        · simp [set, get, hfirst, hk, ih]

theorem mem_of_get (h : get entries key = some value) : (key, value) ∈ entries := by
  induction entries with
  | nil => cases h
  | cons entry rest ih =>
      obtain ⟨first, old⟩ := entry
      rw [get] at h
      split at h
      next heq =>
        obtain rfl := heq
        obtain rfl := Option.some.inj h
        exact List.mem_cons_self
      next => exact List.mem_cons_of_mem _ (ih h)

theorem get_of_mem (hkeys : (keys entries).Nodup) (h : (key, value) ∈ entries) :
    get entries key = some value := by
  induction entries with
  | nil => cases h
  | cons entry rest ih =>
      obtain ⟨first, old⟩ := entry
      simp only [keys, List.map_cons, List.nodup_cons] at hkeys
      rcases List.mem_cons.1 h with heq | hrest
      · obtain ⟨rfl, rfl⟩ := Prod.mk.inj heq
        simp [get]
      · have hne : first ≠ key := by
          rintro rfl
          exact hkeys.1 (List.mem_map_of_mem hrest)
        simp [get, hne, ih hkeys.2 hrest]

theorem mem_set {entry : κ × β} (h : entry ∈ set entries key value) :
    entry = (key, value) ∨ entry ∈ entries := by
  induction entries with
  | nil => exact .inl (List.mem_singleton.1 h)
  | cons first rest ih =>
      rw [set] at h
      split at h
      next heq =>
        rcases List.mem_cons.1 h with h | h
        · exact .inl (by rw [h, heq])
        · exact .inr (List.mem_cons_of_mem _ h)
      next =>
        rcases List.mem_cons.1 h with h | h
        · exact .inr (h ▸ List.mem_cons_self)
        · exact (ih h).imp_right (List.mem_cons_of_mem _)

theorem mem_keys_set {k : κ} :
    k ∈ keys (set entries key value) ↔ k = key ∨ k ∈ keys entries := by
  induction entries with
  | nil => simp [set, keys]
  | cons entry rest ih =>
      obtain ⟨first, old⟩ := entry
      by_cases hfirst : first = key
      · subst hfirst
        simp [set, keys]
      · simp only [keys] at ih
        simp only [set, hfirst, if_false, keys, List.map_cons, List.mem_cons, ih]
        exact or_left_comm

theorem keys_set_new (h : key ∉ keys entries) :
    keys (set entries key value) = keys entries ++ [key] := by
  induction entries with
  | nil => rfl
  | cons entry rest ih =>
      obtain ⟨hfirst, hrest⟩ := not_or.mp (h ∘ List.mem_cons.mpr)
      rw [set, if_neg (Ne.symm hfirst)]
      exact congrArg (entry.1 :: ·) (ih hrest)

theorem nodup_set (h : (keys entries).Nodup) (key : κ) (value : β) :
    (keys (set entries key value)).Nodup := by
  induction entries with
  | nil => simp [set, keys]
  | cons entry rest ih =>
      obtain ⟨first, old⟩ := entry
      obtain ⟨hfirst, hrest⟩ := List.nodup_cons.1 h
      rw [set]
      split
      next => exact h
      next hne =>
        refine List.nodup_cons.2 ⟨fun hmem => ?_, ih hrest⟩
        rcases mem_keys_set.1 hmem with heq | hmem
        · exact hne heq
        · exact hfirst hmem

/-- A filter that keeps the entries of a key keeps what the key is mapped to. -/
theorem get_filter {p : κ × β → Bool} (hp : ∀ value, (key, value) ∈ entries → p (key, value)) :
    get (entries.filter p) key = get entries key := by
  induction entries with
  | nil => rfl
  | cons entry rest ih =>
      obtain ⟨first, old⟩ := entry
      have hrest := ih fun value hmem => hp value (List.mem_cons_of_mem _ hmem)
      by_cases hfirst : first = key
      · subst hfirst
        have hkeep := hp old List.mem_cons_self
        simp [List.filter_cons, hkeep, get]
      · rw [List.filter_cons]
        split <;> simp [get, hfirst, hrest]

theorem get_eq_none_iff : get entries key = none ↔ key ∉ keys entries := by
  induction entries with
  | nil => simp [get, keys]
  | cons entry rest ih =>
      obtain ⟨first, old⟩ := entry
      by_cases hfirst : first = key
      · simp [get, keys, hfirst]
      · simp only [keys] at ih
        simp [get, keys, hfirst, Ne.symm hfirst, ih]

/-! ## Many values -/

/-- `entries[key] = value` for one pair after another. -/
def setAll (entries : Entries κ β) (pairs : List (κ × β)) : Entries κ β :=
  pairs.foldl (fun entries pair => set entries pair.1 pair.2) entries

theorem mem_setAll {pairs : List (κ × β)} {entry : κ × β}
    (h : entry ∈ setAll entries pairs) : entry ∈ pairs ∨ entry ∈ entries := by
  induction pairs generalizing entries with
  | nil => exact .inr h
  | cons pair pairs ih =>
      rcases ih h with hmem | hmem
      · exact .inl (List.mem_cons_of_mem _ hmem)
      · rcases mem_set hmem with rfl | hold
        · exact .inl List.mem_cons_self
        · exact .inr hold

/-- A key all of whose pairs have one value gets that value. -/
theorem get_setAll {pairs : List (κ × β)} (hmem : (key, value) ∈ pairs)
    (hall : ∀ pair ∈ pairs, pair.1 = key → pair.2 = value) :
    get (setAll entries pairs) key = some value := by
  obtain ⟨before, after, rfl⟩ := List.append_of_mem hmem
  have hafter : ∀ pair ∈ after, pair.1 = key → pair.2 = value := fun pair hpair =>
    hall pair (by simp [hpair])
  clear hmem hall
  rw [setAll, List.foldl_append, List.foldl_cons]
  generalize before.foldl (fun entries pair => set entries pair.1 pair.2) entries = start
  have hset : get (set start key value) key = some value := by rw [get_set, if_pos rfl]
  generalize set start key value = current at hset
  induction after generalizing current with
  | nil => exact hset
  | cons pair after ih =>
      refine ih (fun other hother => hafter other (List.mem_cons_of_mem _ hother)) _ ?_
      rw [get_set]
      split_ifs with heq
      · rw [hafter pair List.mem_cons_self heq]
      · exact hset

theorem nodup_setAll {pairs : List (κ × β)} (h : (keys entries).Nodup) :
    (keys (setAll entries pairs)).Nodup := by
  induction pairs generalizing entries with
  | nil => exact h
  | cons pair pairs ih => exact ih (nodup_set h pair.1 pair.2)

theorem mem_keys_setAll {pairs : List (κ × β)} {k : κ} :
    k ∈ keys (setAll entries pairs) ↔ k ∈ pairs.map Prod.fst ∨ k ∈ keys entries := by
  induction pairs generalizing entries with
  | nil => simp [setAll]
  | cons pair pairs ih =>
      rw [setAll, List.foldl_cons, ← setAll, ih, mem_keys_set, List.map_cons, List.mem_cons]
      exact or_left_comm.trans or_assoc.symm

/-- An entry is left exactly if no later pair has its key. -/
theorem mem_setAll_nil_iff {pairs : List (κ × β)} {entry : κ × β} :
    entry ∈ setAll [] pairs ↔
      ∃ before after, pairs = before ++ entry :: after ∧ ∀ pair ∈ after, pair.1 ≠ entry.1 := by
  obtain ⟨key, value⟩ := entry
  induction pairs using List.reverseRecOn with
  | nil => simp [setAll]
  | append_singleton pairs pair ih =>
      have hnodup : (keys (setAll ([] : Entries κ β) pairs)).Nodup := nodup_setAll List.nodup_nil
      have hset : setAll ([] : Entries κ β) (pairs ++ [pair]) =
          set (setAll [] pairs) pair.1 pair.2 := by
        rw [setAll, List.foldl_append, List.foldl_cons, List.foldl_nil, setAll]
      rw [hset]
      constructor
      · intro h
        have hget := get_of_mem (nodup_set hnodup pair.1 pair.2) h
        rw [get_set] at hget
        split_ifs at hget with hkey
        · obtain rfl := Option.some.inj hget
          exact ⟨pairs, [], by rw [← hkey], by simp⟩
        · obtain ⟨before, after, rfl, hafter⟩ := ih.mp (mem_of_get hget)
          refine ⟨before, after ++ [pair], by simp, fun other hother => ?_⟩
          rcases List.mem_append.mp hother with hmem | hmem
          · exact hafter other hmem
          · exact List.mem_singleton.mp hmem ▸ hkey
      · rintro ⟨before, after, heq, hafter⟩
        refine mem_of_get ?_
        rw [get_set]
        rcases List.eq_nil_or_concat after with rfl | ⟨after, other, rfl⟩
        · obtain ⟨-, hentry⟩ := List.append_inj' heq rfl
          obtain rfl := List.singleton_inj.mp hentry
          exact if_pos rfl
        · rw [List.concat_eq_append, ← List.cons_append, ← List.append_assoc] at heq
          obtain ⟨rfl, hlast⟩ := List.append_inj' heq rfl
          obtain rfl := List.singleton_inj.mp hlast
          have hkey : pair.1 ≠ key := hafter pair (by simp)
          rw [if_neg hkey]
          refine get_of_mem hnodup (ih.mpr ⟨before, after, rfl, fun other hother => ?_⟩)
          exact hafter other (by simp [hother])

end Entries

end VirtualContext.Library
