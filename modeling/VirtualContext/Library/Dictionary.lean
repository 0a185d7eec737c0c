import Mathlib.Data.List.Induction
import Mathlib.Data.List.Nodup

/-!
# Dictionaries of lists

A dictionary in insertion order whose values are lists, filled one element at a
time.  Its entries are the distinct keys, each with the elements filed under it
in the order they came.
-/

namespace VirtualContext.Library

/-- A `dict[κ, list[α]]` in insertion order. -/
abbrev Dictionary (κ α : Type) := List (κ × List α)

namespace Dictionary

variable {κ α : Type} [DecidableEq κ]

/-- `entries.setdefault(key, []).append(element)` -/
def add : Dictionary κ α → κ → α → Dictionary κ α
  | [], key, element => [(key, [element])]
  | (first, elements) :: rest, key, element =>
      if first = key then (first, elements ++ [element]) :: rest
      else (first, elements) :: add rest key element

/-- `entries.get(key, [])` -/
def get : Dictionary κ α → κ → List α
  | [], _ => []
  | (first, elements) :: rest, key =>
      if first = key then elements else get rest key

def keys (entries : Dictionary κ α) : List κ := entries.map Prod.fst

def ofPairs (pairs : List (κ × α)) : Dictionary κ α :=
  pairs.foldl (fun entries pair => entries.add pair.1 pair.2) []

theorem get_add (entries : Dictionary κ α) (key : κ) (element : α) (k : κ) :
    get (add entries key element) k =
      get entries k ++ if key = k then [element] else [] := by
  induction entries with
  | nil => by_cases h : key = k <;> simp [add, get, h]
  | cons entry rest ih =>
      obtain ⟨first, elements⟩ := entry
      by_cases hfirst : first = key
      · subst hfirst
        by_cases hkey : first = k <;> simp [add, get, hkey]
      · by_cases hkey : first = k
        · subst hkey
          simp [add, get, hfirst, Ne.symm hfirst]
        · simp [add, get, hfirst, hkey, ih]

theorem mem_keys_add {entries : Dictionary κ α} {key : κ} {element : α}
    {k : κ} : k ∈ keys (add entries key element) ↔ k ∈ keys entries ∨ k = key := by
  induction entries with
  | nil => simp [add, keys]
  | cons entry rest ih =>
      obtain ⟨first, elements⟩ := entry
      by_cases hfirst : first = key
      · subst hfirst
        simp [add, keys]
        tauto
      · simp only [keys] at ih
        simp [add, keys, hfirst, ih, or_assoc]

theorem keys_add_nodup {entries : Dictionary κ α} (h : (keys entries).Nodup)
    (key : κ) (element : α) : (keys (add entries key element)).Nodup := by
  induction entries with
  | nil => simp [add, keys]
  | cons entry rest ih =>
      obtain ⟨first, elements⟩ := entry
      obtain ⟨hfirst, hrest⟩ := List.nodup_cons.mp h
      by_cases heq : first = key
      · subst heq
        simp only [add, if_true]
        exact h
      · simp only [add, heq, if_false]
        apply List.nodup_cons.mpr
        refine ⟨fun hmem => ?_, ih hrest⟩
        rcases mem_keys_add.mp hmem with hold | hnew
        · exact hfirst hold
        · exact heq hnew

/-- An element under a new key starts a new entry at the end. -/
theorem add_of_not_mem {entries : Dictionary κ α} {key : κ}
    (h : key ∉ keys entries) (element : α) :
    add entries key element = entries ++ [(key, [element])] := by
  induction entries with
  | nil => rfl
  | cons entry rest ih =>
      obtain ⟨first, elements⟩ := entry
      simp only [keys, List.map_cons, List.mem_cons, not_or] at h
      simp [add, Ne.symm h.1, ih h.2]

/-- An element under the last key joins the last entry. -/
theorem add_last {entries : Dictionary κ α} {key : κ}
    (h : key ∉ keys entries) (elements : List α) (element : α) :
    add (entries ++ [(key, elements)]) key element =
      entries ++ [(key, elements ++ [element])] := by
  induction entries with
  | nil => simp [add]
  | cons entry rest ih =>
      obtain ⟨first, firsts⟩ := entry
      simp only [keys, List.map_cons, List.mem_cons, not_or] at h
      simp [add, Ne.symm h.1, ih h.2]

theorem get_eq_of_mem {entries : Dictionary κ α} (h : (keys entries).Nodup)
    {entry : κ × List α} (hmem : entry ∈ entries) :
    get entries entry.1 = entry.2 := by
  induction entries with
  | nil => simp at hmem
  | cons first rest ih =>
      obtain ⟨key, elements⟩ := first
      simp only [keys, List.map_cons, List.nodup_cons] at h
      rcases List.mem_cons.mp hmem with rfl | hrest
      · simp [get]
      · have hne : key ≠ entry.1 := by
          rintro rfl
          exact h.1 (List.mem_map_of_mem hrest)
        simp [get, hne, ih h.2 hrest]

theorem mem_keys_of_mem_get {entries : Dictionary κ α} {key : κ} {element : α}
    (h : element ∈ get entries key) : key ∈ keys entries := by
  induction entries with
  | nil => simp [get] at h
  | cons entry rest ih =>
      obtain ⟨first, elements⟩ := entry
      by_cases hfirst : first = key
      · simp [keys, hfirst]
      · simp only [get, hfirst, if_false] at h
        exact List.mem_cons_of_mem _ (ih h)

/-! ## Dictionaries filled from pairs -/

theorem keys_ofPairs_nodup (pairs : List (κ × α)) :
    (keys (ofPairs pairs)).Nodup := by
  induction pairs using List.reverseRecOn with
  | nil => simp [ofPairs, keys]
  | append_singleton pairs pair ih =>
      rw [ofPairs, List.foldl_append]
      exact keys_add_nodup ih _ _

/-- A key is mapped to the elements filed under it, in order. -/
theorem get_ofPairs (pairs : List (κ × α)) (key : κ) :
    get (ofPairs pairs) key = (pairs.filter (·.1 = key)).map Prod.snd := by
  induction pairs using List.reverseRecOn with
  | nil => rfl
  | append_singleton pairs pair ih =>
      rw [ofPairs, List.foldl_append, List.foldl_cons, List.foldl_nil, get_add]
      change get (ofPairs pairs) key ++ _ = _
      rw [ih]
      by_cases h : pair.1 = key <;> simp [h]

theorem mem_get_ofPairs {pairs : List (κ × α)} {key : κ} {element : α} :
    element ∈ get (ofPairs pairs) key ↔ (key, element) ∈ pairs := by
  rw [get_ofPairs, List.mem_map]
  constructor
  · rintro ⟨pair, hpair, rfl⟩
    obtain ⟨hmem, hkey⟩ := List.mem_filter.mp hpair
    rwa [← of_decide_eq_true hkey]
  · intro hmem
    exact ⟨(key, element), List.mem_filter.mpr ⟨hmem, by simp⟩, rfl⟩

theorem mem_keys_ofPairs {pairs : List (κ × α)} {key : κ} :
    key ∈ keys (ofPairs pairs) ↔ ∃ element, (key, element) ∈ pairs := by
  induction pairs using List.reverseRecOn with
  | nil => simp [ofPairs, keys]
  | append_singleton pairs pair ih =>
      rw [ofPairs, List.foldl_append, List.foldl_cons, List.foldl_nil,
        mem_keys_add]
      change key ∈ keys (ofPairs pairs) ∨ _ ↔ _
      rw [ih]
      constructor
      · rintro (⟨element, h⟩ | rfl)
        · exact ⟨element, List.mem_append_left _ h⟩
        · exact ⟨pair.2, by simp⟩
      · rintro ⟨element, h⟩
        rcases List.mem_append.mp h with h | h
        · exact .inl ⟨element, h⟩
        · obtain rfl := List.mem_singleton.mp h
          exact .inr rfl

/-- Changing the elements leaves the entries where they are. -/
theorem ofPairs_map {β : Type} (f : α → β) (pairs : List (κ × α)) :
    ofPairs (pairs.map fun pair => (pair.1, f pair.2)) =
      (ofPairs pairs).map fun entry => (entry.1, entry.2.map f) := by
  have hadd : ∀ (entries : Dictionary κ α) (key : κ) (element : α),
      add (entries.map fun entry => (entry.1, entry.2.map f)) key (f element) =
        (add entries key element).map fun entry => (entry.1, entry.2.map f) := by
    intro entries key element
    induction entries with
    | nil => rfl
    | cons entry rest ih =>
        obtain ⟨first, elements⟩ := entry
        by_cases h : first = key <;> simp [add, h, ih]
  induction pairs using List.reverseRecOn with
  | nil => rfl
  | append_singleton pairs pair ih =>
      rw [List.map_append, ofPairs, List.foldl_append]
      change add (ofPairs (pairs.map fun pair => (pair.1, f pair.2))) _ _ = _
      rw [ih, hadd, ofPairs, ofPairs, List.foldl_append]
      rfl

/-- The entries: each key with everything filed under it. -/
theorem mem_ofPairs {pairs : List (κ × α)} {key : κ} {elements : List α} :
    (key, elements) ∈ ofPairs pairs ↔
      elements = (pairs.filter (·.1 = key)).map Prod.snd ∧ elements ≠ [] := by
  have hkeys := keys_ofPairs_nodup pairs
  constructor
  · intro hmem
    have hget : get (ofPairs pairs) key = elements := get_eq_of_mem hkeys hmem
    rw [get_ofPairs] at hget
    obtain ⟨element, helement⟩ :=
      mem_keys_ofPairs.mp (List.mem_map_of_mem (f := Prod.fst) hmem)
    refine ⟨hget.symm, ?_⟩
    rw [← hget]
    apply List.ne_nil_of_mem (a := element)
    rw [← get_ofPairs]
    exact mem_get_ofPairs.mpr helement
  · rintro ⟨rfl, hne⟩
    obtain ⟨element, helement⟩ := List.exists_mem_of_ne_nil _ hne
    rw [← get_ofPairs] at helement ⊢
    have hkey : key ∈ keys (ofPairs pairs) :=
      mem_keys_ofPairs.mpr ⟨element, mem_get_ofPairs.mp helement⟩
    obtain ⟨entry, hentry, rfl⟩ := List.mem_map.mp hkey
    rw [get_eq_of_mem hkeys hentry]
    exact hentry

/-- Every element is filed once. -/
theorem flatMap_ofPairs_perm (pairs : List (κ × α)) :
    ((ofPairs pairs).flatMap Prod.snd).Perm (pairs.map Prod.snd) := by
  have hadd (entries : Dictionary κ α) (key : κ) (element : α) :
      ((add entries key element).flatMap Prod.snd).Perm
        (entries.flatMap Prod.snd ++ [element]) := by
    induction entries with
    | nil => simp [add]
    | cons entry rest ih =>
        obtain ⟨first, elements⟩ := entry
        by_cases hfirst : first = key
        · have hcomm : ([element] ++ rest.flatMap Prod.snd).Perm
              (rest.flatMap Prod.snd ++ [element]) := List.perm_append_comm
          have hswap := hcomm.append_left elements
          simpa [add, hfirst] using hswap
        · simpa [add, hfirst] using ih.append_left elements
  induction pairs using List.reverseRecOn with
  | nil => rfl
  | append_singleton pairs pair ih =>
      rw [ofPairs, List.foldl_append, List.map_append]
      exact (hadd _ _ _).trans (ih.append_right _)

end Dictionary

end VirtualContext.Library
