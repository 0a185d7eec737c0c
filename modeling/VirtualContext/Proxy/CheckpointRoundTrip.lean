import VirtualContext.Proxy.EngineCheckpoint

/-!
# Restoring a checkpoint

The session state and the snapshot in the store give back what was in the
engine.  The session cache loses the session dates of the entries, and a restore
from it brings the markers up to date.
-/

namespace VirtualContext

open VirtualContext.Library

/-! ## The property and its condition -/

/-- The same entries, working set, split tags and markers. -/
structure SameCheckpoint (e e' : Engine) : Prop where
  entries : e'.turnTagIndex.entries = e.turnTagIndex.entries
  workingSet : e'.workingSet = e.workingSet
  engineState : e'.engineState = e.engineState

/-- The engine is given back by each way to restore its checkpoint. -/
structure RoundTrips (now : Datetime) (conversationId : ConversationId)
    (conversationGeneration : Int) (e : Engine) : Prop where
  session : ∃ e', hydrateFromSessionState now
    (.fromJson e.extractSessionState.toJson) = some e' ∧ SameCheckpoint e e'
  store : (stateToSnapshot now conversationId e.extractSessionState).map
    snapshotToState = some e.extractSessionState
  cache : ∃ e', applyCachedState now conversationGeneration
    (e.buildCacheSnapshot conversationId) = some e' ∧ SameCheckpoint e e'

/-- No two entries have the same canonical turn. -/
def TurnTagIndex.DistinctCanonicalTurns (index : TurnTagIndex) : Prop :=
  ((index.entries.map (·.canonicalTurnId)).filter (· ≠ 0)).Nodup

instance (index : TurnTagIndex) : Decidable index.DistinctCanonicalTurns :=
  inferInstanceAs (Decidable (List.Nodup _))

/-- No marker is behind the entries or the marker that it follows. -/
structure Engine.MarkersCurrent (e : Engine) : Prop where
  indexed : e.turnTagIndex.highestIndexedTurn ≤ e.engineState.lastIndexedTurn
  completed : max (-1) e.engineState.lastIndexedTurn ≤
    e.engineState.lastCompletedTurn
  compacted : lastTurnOfPrefix e.engineState.compactedPrefixMessages ≤
    e.engineState.lastCompactedTurn

/-! ## Entries -/

@[simp] theorem parseTimestamp_isoformat (now d : Datetime) :
    parseTimestamp now (some (isoformat d)) = d := by
  simp [parseTimestamp]

@[simp] theorem toSignal_toDict (defaultFactType : String) (fs : FactSignal) :
    fs.toDict.toSignal defaultFactType = fs := rfl

@[simp] theorem map_toSignal_toDict (defaultFactType : String)
    (signals : List FactSignal) :
    (signals.map (·.toDict)).map (·.toSignal defaultFactType) = signals := by
  simp [Function.comp_def]

@[simp] theorem hydrate_toDict (now : Datetime) (e : TurnTagEntry) :
    e.toDict.hydrate now = e := by
  simp [TurnTagEntry.toDict, TurnTagEntryDict.hydrate, -List.map_map]

@[simp] theorem toSnapshot_toDict (now : Datetime) (e : TurnTagEntry) :
    e.toDict.toSnapshot now = e := by
  simp [TurnTagEntry.toDict, TurnTagEntryDict.toSnapshot, -List.map_map]

/-- The session cache loses the session date, and nothing else. -/
@[simp] theorem fromCache_toCache (now : Datetime) (e : TurnTagEntry) :
    e.toCache.fromCache now = some { e with sessionDate := "" } := by
  simp [TurnTagEntry.toCache, TurnTagEntryDict.fromCache, -List.map_map]

/-! ## The working set -/

@[simp] theorem ofString?_value (depth : DepthLevel) :
    DepthLevel.ofString? depth.value = some depth := by
  cases depth <;> rfl

@[simp] theorem toEntry_toDict (ws : WorkingSetEntry) :
    ws.toDict.toEntry = some ws := by
  simp [WorkingSetEntry.toDict, WorkingSetDict.toEntry]

@[simp] theorem fromCache_toDict (ws : WorkingSetEntry) :
    ws.toDict.fromCache = some ws := by
  simp [WorkingSetEntry.toDict, WorkingSetDict.fromCache]

theorem foldl_set_of_fresh (ws : WorkingSet) (rest : List WorkingSetEntry)
    (hdistinct : ((ws.entries ++ rest).map (·.tag)).Nodup) :
    (rest.foldl WorkingSet.set ws).entries = ws.entries ++ rest := by
  induction rest generalizing ws with
  | nil => simp
  | cons entry rest ih =>
      have hfresh : entry.tag ∉ ws.entries.map (·.tag) := by
        rw [List.map_append, List.map_cons, List.nodup_append] at hdistinct
        intro hmem
        exact hdistinct.2.2 _ hmem _ List.mem_cons_self rfl
      have hset : (ws.set entry).entries = ws.entries ++ [entry] :=
        if_neg hfresh
      rw [List.foldl_cons, ih, hset, List.append_assoc]
      · rfl
      · rwa [hset, List.append_assoc]

/-- Assigning the entries of a working set to an empty one rebuilds it. -/
@[simp] theorem foldl_set_entries (ws : WorkingSet) :
    ws.entries.foldl WorkingSet.set .empty = ws :=
  WorkingSet.ext (foldl_set_of_fresh .empty ws.entries ws.keys)

/-! ## The index -/

section Index

variable (index : TurnTagIndex) (e : TurnTagEntry)

/-- The canonical turns under which entries were appended. -/
def TurnTagIndex.canonicalKeys : List Uuid := index.byCanonicalTurn.map (·.1)

theorem append_of_new (hturn : e.turnNumber ∉ index.entries.map (·.turnNumber))
    (hcanonical : e.canonicalTurnId ≠ 0 →
      e.canonicalTurnId ∉ index.canonicalKeys) :
    (index.append e).entries = index.entries ++ [e] ∧
      (index.append e).canonicalKeys =
        index.canonicalKeys ++ [e.canonicalTurnId].filter (· ≠ 0) := by
  have hkey : ¬ (e.canonicalTurnId ≠ 0 ∧
      e.canonicalTurnId ∈ index.byCanonicalTurn.map (·.1)) :=
    fun h => hcanonical h.1 h.2
  unfold TurnTagIndex.append
  rw [dif_neg hturn, if_neg hkey]
  refine ⟨rfl, ?_⟩
  by_cases hzero : e.canonicalTurnId = 0 <;>
    simp [TurnTagIndex.canonicalKeys, hzero]

theorem append_of_taken (hcanonical : e.canonicalTurnId ≠ 0)
    (htaken : e.canonicalTurnId ∈ index.canonicalKeys) :
    index.append e = index := by
  unfold TurnTagIndex.append
  split_ifs with hturn hkey
  · rfl
  · rfl
  · exact absurd ⟨hcanonical, htaken⟩ hkey

theorem length_append_le :
    (index.append e).entries.length ≤ index.entries.length + 1 := by
  unfold TurnTagIndex.append
  split_ifs <;> simp

theorem length_foldl_append_le (rest : List TurnTagEntry) :
    (rest.foldl TurnTagIndex.append index).entries.length ≤
      index.entries.length + rest.length := by
  induction rest generalizing index with
  | nil => simp
  | cons e rest ih =>
      have hrest := ih (index.append e)
      have hfirst := length_append_le index e
      rw [List.foldl_cons, List.length_cons]
      omega

/-- All of the entries are kept exactly if no canonical turn comes twice. -/
theorem foldl_append_spec (rest : List TurnTagEntry)
    (hturns : ((index.entries ++ rest).map (·.turnNumber)).Nodup)
    (hkeys : index.canonicalKeys.Nodup) :
    ((rest.foldl TurnTagIndex.append index).entries.length =
        index.entries.length + rest.length →
      (index.canonicalKeys ++
        (rest.map (·.canonicalTurnId)).filter (· ≠ 0)).Nodup) ∧
    ((index.canonicalKeys ++
        (rest.map (·.canonicalTurnId)).filter (· ≠ 0)).Nodup →
      (rest.foldl TurnTagIndex.append index).entries =
        index.entries ++ rest) := by
  induction rest generalizing index with
  | nil => simpa using hkeys
  | cons e rest ih =>
      rw [List.foldl_cons]
      by_cases htaken : e.canonicalTurnId ≠ 0 ∧
          e.canonicalTurnId ∈ index.canonicalKeys
      · rw [append_of_taken index e htaken.1 htaken.2]
        constructor
        · intro heq
          have hlength := length_foldl_append_le index rest
          rw [heq, List.length_cons] at hlength
          omega
        · intro hnodup
          rw [List.map_cons, List.filter_cons_of_pos (by simpa using htaken.1),
            List.nodup_append] at hnodup
          exact absurd rfl (hnodup.2.2 _ htaken.2 _ List.mem_cons_self)
      · have hturn : e.turnNumber ∉ index.entries.map (·.turnNumber) := by
          rw [List.map_append, List.map_cons, List.nodup_append] at hturns
          intro hmem
          exact hturns.2.2 _ hmem _ List.mem_cons_self rfl
        obtain ⟨hentries, hcanonical⟩ := append_of_new index e hturn
          fun hne hmem => htaken ⟨hne, hmem⟩
        have hsplit : (index.append e).entries ++ rest =
            index.entries ++ e :: rest := by
          rw [hentries, List.append_assoc]
          rfl
        have hlength : (index.append e).entries.length + rest.length =
            index.entries.length + (e :: rest).length := by
          rw [← List.length_append, hsplit, List.length_append]
        have hkeys' : (index.append e).canonicalKeys ++
            (rest.map (·.canonicalTurnId)).filter (· ≠ 0) =
              index.canonicalKeys ++
                ((e :: rest).map (·.canonicalTurnId)).filter (· ≠ 0) := by
          rw [hcanonical, List.append_assoc, ← List.filter_append]
          rfl
        rw [← hsplit, ← hkeys', ← hlength]
        refine ih (index.append e) (hsplit ▸ hturns) ?_
        rw [hcanonical, List.nodup_append]
        refine ⟨hkeys, (List.nodup_singleton _).filter _, ?_⟩
        intro key hkey key' hkey' heq
        obtain ⟨hmem, hne⟩ := List.mem_filter.mp hkey'
        rw [List.mem_singleton.mp hmem] at heq hne
        exact htaken ⟨by simpa using hne, heq ▸ hkey⟩

/-- Appending the entries to an empty index, changed only in other fields. -/
theorem foldl_append_map_iff {f : TurnTagEntry → TurnTagEntry}
    (hturn : ∀ e, (f e).turnNumber = e.turnNumber)
    (hcanonical : ∀ e, (f e).canonicalTurnId = e.canonicalTurnId) :
    ((index.entries.map f).foldl TurnTagIndex.append .empty).entries =
        index.entries ↔
      index.DistinctCanonicalTurns ∧ ∀ e ∈ index.entries, f e = e := by
  obtain ⟨hnodup, hkept⟩ := foldl_append_spec .empty (index.entries.map f)
    (by simpa [Function.comp_def, hturn] using index.distinct) List.nodup_nil
  have hkeys : TurnTagIndex.empty.canonicalKeys ++
      ((index.entries.map f).map (·.canonicalTurnId)).filter (· ≠ 0) =
        (index.entries.map (·.canonicalTurnId)).filter (· ≠ 0) := by
    rw [List.map_map]
    simp only [Function.comp_def, hcanonical]
    rfl
  rw [hkeys] at hnodup hkept
  have hfixed : index.entries.map f = index.entries ↔
      ∀ e ∈ index.entries, f e = e := by
    conv_lhs => rhs; rw [← List.map_id index.entries]
    exact List.map_inj_left
  constructor
  · intro heq
    have hdistinct : index.DistinctCanonicalTurns :=
      hnodup (by rw [heq, List.length_map]; exact (Nat.zero_add _).symm)
    exact ⟨hdistinct, hfixed.mp ((hkept hdistinct).symm.trans heq)⟩
  · rintro ⟨hdistinct, hsame⟩
    exact (hkept hdistinct).trans (hfixed.mpr hsame)

end Index

/-! ## The three ways -/

section Restore

variable (now : Datetime) (conversationId : ConversationId)
  (conversationGeneration : Int) (e : Engine)

theorem toFinset_sort (tags : Finset String) :
    (tags.sort (· ≤ ·)).toFinset = tags := Finset.sort_toFinset _ _

theorem fromJson_toJson :
    SessionState.fromJson e.extractSessionState.toJson =
      e.extractSessionState := by
  simp [SessionState.fromJson, SessionState.toJson, EngineState.toDict,
    Engine.extractSessionState]

theorem mapM_toEntry (entries : List WorkingSetEntry) :
    (entries.map (·.toDict)).mapM (·.toEntry) = some entries := by
  induction entries with
  | nil => rfl
  | cons ws rest ih => simp [ih]

theorem mapM_fromCache (entries : List TurnTagEntry) :
    (entries.map (·.toCache)).mapM (·.fromCache now) =
      some (entries.map fun e => { e with sessionDate := "" }) := by
  induction entries with
  | nil => rfl
  | cons e rest ih => simp [ih]

theorem hydrate_extract :
    hydrateFromSessionState now (.fromJson e.extractSessionState.toJson) =
      some { e with
        turnTagIndex := e.turnTagIndex.entries.foldl TurnTagIndex.append .empty } := by
  rw [fromJson_toJson]
  simp [hydrateFromSessionState, Engine.extractSessionState, mapM_toEntry,
    restoredFlushedPrefixMessages, Function.comp_def, -List.mapM_map]

theorem snapshotToState_stateToSnapshot :
    (stateToSnapshot now conversationId e.extractSessionState).map
      snapshotToState = some e.extractSessionState := by
  simp [stateToSnapshot, Engine.extractSessionState, mapM_toEntry,
    snapshotToState, Function.comp_def, -List.mapM_map]

theorem applyCachedState_build :
    applyCachedState now conversationGeneration
        (e.buildCacheSnapshot conversationId) =
      some (Engine.updateCheckpointMarkers { e with
        turnTagIndex := (e.turnTagIndex.entries.map fun entry =>
          { entry with sessionDate := "" }).foldl TurnTagIndex.append .empty }) := by
  simp [applyCachedState, Engine.buildCacheSnapshot, EngineState.toDict,
    mapM_fromCache, restoredFlushedPrefixMessages, List.filterMap_map,
    Function.comp_def, -List.mapM_map]

theorem highestIndexedTurn_congr {index index' : TurnTagIndex}
    (h : index'.entries = index.entries) :
    index'.highestIndexedTurn = index.highestIndexedTurn := by
  rw [TurnTagIndex.highestIndexedTurn, h]
  rfl

/-- The markers are left alone exactly if they are current. -/
theorem updateCheckpointMarkers_iff :
    e.updateCheckpointMarkers.engineState = e.engineState ↔
      e.MarkersCurrent := by
  constructor
  · intro h
    have hindexed : max e.engineState.lastIndexedTurn
        e.turnTagIndex.highestIndexedTurn = e.engineState.lastIndexedTurn :=
      congrArg EngineState.lastIndexedTurn h
    have hcompleted : max e.engineState.lastCompletedTurn (max (-1)
        (max e.engineState.lastIndexedTurn
          e.turnTagIndex.highestIndexedTurn)) =
            e.engineState.lastCompletedTurn :=
      congrArg EngineState.lastCompletedTurn h
    have hcompacted : max e.engineState.lastCompactedTurn
        (lastTurnOfPrefix e.engineState.compactedPrefixMessages) =
          e.engineState.lastCompactedTurn :=
      congrArg EngineState.lastCompactedTurn h
    rw [hindexed] at hcompleted
    exact ⟨max_eq_left_iff.mp hindexed, max_eq_left_iff.mp hcompleted,
      max_eq_left_iff.mp hcompacted⟩
  · intro h
    simp [Engine.updateCheckpointMarkers, max_eq_left h.indexed,
      max_eq_left h.completed, max_eq_left h.compacted]

/-- The session state gives the engine back if no canonical turn comes twice. -/
theorem hydrate_iff :
    (∃ e', hydrateFromSessionState now
      (.fromJson e.extractSessionState.toJson) = some e' ∧
        SameCheckpoint e e') ↔ e.turnTagIndex.DistinctCanonicalTurns := by
  have hindex := foldl_append_map_iff e.turnTagIndex (fun _ => rfl)
    (f := id) (fun _ => rfl)
  rw [List.map_id] at hindex
  constructor
  · rintro ⟨e', heq, hsame⟩
    cases (hydrate_extract now e).symm.trans heq
    exact (hindex.mp hsame.entries).1
  · intro hdistinct
    exact ⟨_, hydrate_extract now e,
      ⟨hindex.mpr ⟨hdistinct, fun _ _ => rfl⟩, rfl, rfl⟩⟩

/-- The session cache gives it back if there are no session dates, too. -/
theorem applyCachedState_iff :
    (∃ e', applyCachedState now conversationGeneration
      (e.buildCacheSnapshot conversationId) = some e' ∧
        SameCheckpoint e e') ↔
      e.turnTagIndex.DistinctCanonicalTurns ∧ e.MarkersCurrent ∧
        ∀ entry ∈ e.turnTagIndex.entries, entry.sessionDate = "" := by
  have hindex := foldl_append_map_iff e.turnTagIndex
    (f := fun entry => { entry with sessionDate := "" })
    (fun _ => rfl) (fun _ => rfl)
  have hundated (entry : TurnTagEntry) :
      { entry with sessionDate := "" } = entry ↔ entry.sessionDate = "" := by
    constructor
    · intro h
      exact (congrArg TurnTagEntry.sessionDate h).symm
    · intro h
      rw [← h]
  simp only [hundated] at hindex
  constructor
  · rintro ⟨e', heq, hsame⟩
    cases (applyCachedState_build now conversationId conversationGeneration
      e).symm.trans heq
    obtain ⟨hdistinct, hdates⟩ := hindex.mp hsame.entries
    have hcurrent := (updateCheckpointMarkers_iff _).mp hsame.engineState
    refine ⟨hdistinct, ⟨?_, hcurrent.completed, hcurrent.compacted⟩, hdates⟩
    rw [← highestIndexedTurn_congr hsame.entries]
    exact hcurrent.indexed
  · rintro ⟨hdistinct, hcurrent, hdates⟩
    have hentries := hindex.mpr ⟨hdistinct, hdates⟩
    refine ⟨_, applyCachedState_build now conversationId conversationGeneration
      e, ⟨hentries, rfl, (updateCheckpointMarkers_iff _).mpr
        ⟨?_, hcurrent.completed, hcurrent.compacted⟩⟩⟩
    rw [highestIndexedTurn_congr hentries]
    exact hcurrent.indexed

/--
An engine is given back by every way exactly if its entries have no session
dates and no canonical turn in common, and its markers are current.
-/
theorem roundTrips_iff :
    RoundTrips now conversationId conversationGeneration e ↔
      e.turnTagIndex.DistinctCanonicalTurns ∧ e.MarkersCurrent ∧
        ∀ entry ∈ e.turnTagIndex.entries, entry.sessionDate = "" := by
  constructor
  · intro h
    exact (applyCachedState_iff now conversationId conversationGeneration
      e).mp h.cache
  · intro h
    exact ⟨(hydrate_iff now e).mpr h.1,
      snapshotToState_stateToSnapshot now conversationId e,
      (applyCachedState_iff now conversationId conversationGeneration e).mpr h⟩

end Restore

/-- A turn with a session date, and current markers. -/
def datedEngine : Engine where
  engineState := { lastCompletedTurn := 0, lastIndexedTurn := 0 }
  turnTagIndex :=
    { entries := [
        { turnNumber := 0, canonicalTurnId := 1, tags := ["food"],
          primaryTag := "food", sessionDate := "2023/05/25 (Thu) 10:04",
          timestamp := newYear }]
      distinct := by decide }

/-- The session cache forgets the session date. -/
theorem session_date_lost :
    datedEngine.turnTagIndex.DistinctCanonicalTurns ∧
      datedEngine.MarkersCurrent ∧ ∀ now conversationId conversationGeneration,
        ¬ RoundTrips now conversationId conversationGeneration datedEngine := by
  refine ⟨by decide, ⟨by decide, by decide, by decide⟩, ?_⟩
  intro now conversationId conversationGeneration h
  obtain ⟨e', heq, hsame⟩ := h.cache
  cases (applyCachedState_build now conversationId conversationGeneration
    datedEngine).symm.trans heq
  exact absurd hsame.entries (by decide)

end VirtualContext
