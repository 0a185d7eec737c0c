import VirtualContext.Ingest.SupersessionTurns
import VirtualContext.Library.Chains
import VirtualContext.Library.Reach

/-!
# What superseded facts lead to

A superseded fact names the fact that replaces it.  Every chain of such names
should end at a stored fact that is not superseded.  A write keeps this exactly
when the new fact is stored and its own chain does not lead to the old one; with
graph links nothing checks that.
-/

namespace VirtualContext

open VirtualContext.Library

namespace FactStore

/-! ## The fact that replaces another -/

def Stored (s : FactStore) (id : String) : Prop := id ∈ s.rows.map (·.id)

instance (s : FactStore) (id : String) : Decidable (s.Stored id) :=
  inferInstanceAs (Decidable (_ ∈ _))

def supersededBy (s : FactStore) (id : String) : Option String :=
  (s.find id).bind (·.supersededBy)

variable {s : FactStore} {id oldFactId newFactId : String}

theorem find_eq_of_mem {row : Fact} (h : row ∈ s.rows) :
    s.find row.id = some row := by
  cases hfind : s.find row.id with
  | none =>
      have := List.find?_eq_none.mp hfind row h
      simp at this
  | some found =>
      have hfound := List.mem_of_find?_eq_some hfind
      have hid : found.id = row.id := by simpa using List.find?_some hfind
      rw [List.inj_on_of_nodup_map s.primaryKey hfound h hid]

theorem supersededBy_of_mem {row : Fact} (h : row ∈ s.rows) :
    s.supersededBy row.id = row.supersededBy := by
  rw [supersededBy, find_eq_of_mem h]
  rfl

theorem find_eq_none (h : ¬ s.Stored id) : s.find id = none := by
  rw [find, List.find?_eq_none]
  intro row hrow hid
  exact h (of_decide_eq_true hid ▸ List.mem_map_of_mem hrow)

theorem supersededBy_of_not_stored (h : ¬ s.Stored id) :
    s.supersededBy id = none := by
  rw [supersededBy, find_eq_none h]
  rfl

theorem find_updateRows (f : Fact → Fact) (hid : ∀ row, (f row).id = row.id)
    (id : String) : (s.updateRows f hid).find id = (s.find id).map f := by
  rw [find, updateRows, List.find?_map, find]
  congr 2
  funext row
  simp [hid]

theorem stored_updateRows {f : Fact → Fact} {hid : ∀ row, (f row).id = row.id} :
    (s.updateRows f hid).Stored id ↔ s.Stored id := by
  simp [Stored, updateRows, hid]

@[simp] theorem stored_setFactSuperseded :
    (s.setFactSuperseded oldFactId newFactId).Stored id ↔ s.Stored id :=
  stored_updateRows

@[simp] theorem stored_updateFactFields {factId : String} {fields : Fields} :
    (s.updateFactFields factId fields).Stored id ↔ s.Stored id :=
  stored_updateRows

theorem supersededBy_setFactSuperseded_of_ne (h : id ≠ oldFactId) :
    (s.setFactSuperseded oldFactId newFactId).supersededBy id =
      s.supersededBy id := by
  rw [supersededBy, setFactSuperseded, find_updateRows, supersededBy]
  cases hfind : s.find id with
  | none => rfl
  | some row =>
      have hid : row.id = id := by simpa using List.find?_some hfind
      simp [supersedeRow, hid, h]

theorem supersededBy_setFactSuperseded_self (h : s.Stored oldFactId) :
    (s.setFactSuperseded oldFactId newFactId).supersededBy oldFactId =
      some newFactId := by
  obtain ⟨row, hrow, rfl⟩ := List.mem_map.mp h
  rw [supersededBy, setFactSuperseded, find_updateRows, find_eq_of_mem hrow]
  simp [supersedeRow]

/-- An update for a fact that is not stored changes nothing. -/
theorem setFactSuperseded_of_not_stored (h : ¬ s.Stored oldFactId) :
    s.setFactSuperseded oldFactId newFactId = s := by
  apply ext
  · change s.rows.map (supersedeRow oldFactId newFactId) = s.rows
    refine (List.map_congr_left fun row hrow => ?_).trans (List.map_id _)
    have hne : row.id ≠ oldFactId := by
      rintro rfl
      exact h (List.mem_map_of_mem hrow)
    exact if_neg hne
  · rfl

@[simp] theorem supersededBy_updateFactFields {factId : String}
    {fields : Fields} :
    (s.updateFactFields factId fields).supersededBy = s.supersededBy := by
  funext id
  rw [supersededBy, updateFactFields, find_updateRows, supersededBy]
  cases s.find id with
  | none => rfl
  | some row =>
      simp only [Option.map_some, Option.bind_some, rewriteRow]
      split_ifs <;> rfl

theorem stored_replaceFact {fact : Fact} :
    (s.replaceFact fact).Stored id ↔ s.Stored id ∨ id = fact.id := by
  constructor
  · intro h
    obtain ⟨row, hrow, rfl⟩ := List.mem_map.mp h
    rcases mem_replaceBy.mp hrow with rfl | ⟨hrow, -⟩
    · exact .inr rfl
    · exact .inl (List.mem_map_of_mem hrow)
  · intro h
    by_cases hid : id = fact.id
    · rw [hid]
      exact List.mem_map_of_mem (mem_replaceBy.mpr (.inl rfl))
    · obtain ⟨row, hrow, rfl⟩ := List.mem_map.mp (h.resolve_right hid)
      exact List.mem_map_of_mem (mem_replaceBy.mpr (.inr ⟨hrow, hid⟩))

theorem supersededBy_replaceFact_self {fact : Fact} :
    (s.replaceFact fact).supersededBy fact.id = fact.supersededBy :=
  supersededBy_of_mem (s := s.replaceFact fact) (mem_replaceBy.mpr (.inl rfl))

theorem supersededBy_replaceFact_of_ne {fact : Fact} (h : id ≠ fact.id) :
    (s.replaceFact fact).supersededBy id = s.supersededBy id := by
  by_cases hstored : s.Stored id
  · obtain ⟨row, hrow, rfl⟩ := List.mem_map.mp hstored
    rw [supersededBy_of_mem hrow]
    exact supersededBy_of_mem (s := s.replaceFact fact)
      (mem_replaceBy.mpr (.inr ⟨hrow, h⟩))
  · rw [supersededBy_of_not_stored hstored]
    apply supersededBy_of_not_stored
    rw [stored_replaceFact]
    exact not_or.mpr ⟨hstored, h⟩

/-! ## What no fact may lead to -/

/-- The chain from the first fact does not lead to the second one. -/
def LeadsAway (s : FactStore) (newFactId oldFactId : String) : Prop :=
  ∀ i, hop s.supersededBy i newFactId ≠ some oldFactId

/-- The superseded facts form no cycle, and each leads to a live stored fact. -/
structure KeepsKnowledge (s : FactStore) : Prop where
  acyclic : ∀ id n, hop s.supersededBy (n + 1) id ≠ some id
  leadsToLive : ∀ row ∈ s.rows, ∃ k, ∃ last ∈ s.rows,
    EndsAt s.supersededBy row.id k last.id ∧ last.supersededBy = none

/-- The invariant: all chains end, and at a stored fact. -/
def Rooted (s : FactStore) : Prop := Grounded s.supersededBy s.Stored

theorem Rooted.keepsKnowledge (h : s.Rooted) : s.KeepsKnowledge where
  acyclic := by
    intro id n
    by_cases hstored : s.Stored id
    · exact h.acyclic hstored n
    · rw [hop, supersededBy_of_not_stored hstored]
      simp
  leadsToLive := by
    intro row hrow
    obtain ⟨k, y, hend, hy⟩ := h row.id (List.mem_map_of_mem hrow)
    obtain ⟨last, hlast, rfl⟩ := List.mem_map.mp hy
    refine ⟨k, last, hlast, hend, ?_⟩
    rw [← supersededBy_of_mem hlast]
    exact hend.2

theorem rooted_empty : empty.Rooted := fun _ h => by simp [Stored, empty] at h

theorem Rooted.replaceFact (h : s.Rooted) {fact : Fact}
    (hfact : ∀ newId, fact.supersededBy = some newId →
      s.Stored newId ∧ s.LeadsAway newId fact.id) :
    (s.replaceFact fact).Rooted :=
  Grounded.update h (fun _ hne => supersededBy_replaceFact_of_ne hne)
    (fun _ => stored_replaceFact) fun newId hnew =>
      hfact newId (supersededBy_replaceFact_self.symm.trans hnew)

theorem Rooted.setFactSuperseded (h : s.Rooted)
    (hold : s.Stored oldFactId → s.Stored newFactId ∧
      s.LeadsAway newFactId oldFactId) :
    (s.setFactSuperseded oldFactId newFactId).Rooted := by
  by_cases hstored : s.Stored oldFactId
  · apply Grounded.update h (a := oldFactId)
    · intro id hne
      exact supersededBy_setFactSuperseded_of_ne hne
    · intro id
      rw [stored_setFactSuperseded]
      constructor
      · exact .inl
      · rintro (hid | rfl)
        · exact hid
        · exact hstored
    · intro newId hnew
      rw [supersededBy_setFactSuperseded_self hstored] at hnew
      obtain rfl := Option.some.inj hnew
      exact hold hstored
  · rw [setFactSuperseded_of_not_stored hstored]
    exact h

/-- A chain that leads away from a fact does not see that it is superseded. -/
theorem LeadsAway.setFactSuperseded (h : s.LeadsAway newFactId oldFactId)
    {otherId : String} (hother : s.LeadsAway newFactId otherId) :
    (s.setFactSuperseded oldFactId newFactId).LeadsAway newFactId otherId := by
  intro i
  have hsame : hop (s.setFactSuperseded oldFactId newFactId).supersededBy i
      newFactId = hop s.supersededBy i newFactId := by
    apply hop_congr
    rintro j _ y hy
    apply supersededBy_setFactSuperseded_of_ne
    rintro rfl
    exact h j hy
  rw [hsame]
  exact hother i

/-- One new fact may replace all facts that its chain leads away from. -/
theorem Rooted.supersedeAll (h : s.Rooted) {oldIds : List String}
    (hold : ∀ oldId ∈ oldIds, s.Stored oldId →
      s.Stored newFactId ∧ s.LeadsAway newFactId oldId) :
    (oldIds.foldl (fun s oldId => s.setFactSuperseded oldId newFactId) s).Rooted
      := by
  induction oldIds generalizing s with
  | nil => exact h
  | cons oldId oldIds ih =>
      have hfirst := hold oldId (by simp)
      refine ih (h.setFactSuperseded hfirst) fun otherId hother hstored => ?_
      rw [stored_setFactSuperseded] at hstored ⊢
      obtain ⟨hnew, haway⟩ :=
        hold otherId (List.mem_cons_of_mem _ hother) hstored
      refine ⟨hnew, ?_⟩
      by_cases holdStored : s.Stored oldId
      · exact (hfirst holdStored).2.setFactSuperseded haway
      · change (s.setFactSuperseded oldId newFactId).LeadsAway newFactId otherId
        rw [setFactSuperseded_of_not_stored holdStored]
        exact haway

theorem stored_supersedeAll {oldIds : List String} :
    (oldIds.foldl (fun s oldId => s.setFactSuperseded oldId newFactId) s).Stored
      id ↔ s.Stored id := by
  induction oldIds generalizing s with
  | nil => rfl
  | cons oldId oldIds ih => exact ih.trans stored_setFactSuperseded

/-- The facts that are not superseded stay as they are. -/
theorem supersededBy_supersedeAll {oldIds : List String} (h : id ∉ oldIds) :
    (oldIds.foldl (fun s oldId => s.setFactSuperseded oldId newFactId)
      s).supersededBy id = s.supersededBy id := by
  induction oldIds generalizing s with
  | nil => rfl
  | cons oldId oldIds ih =>
      rw [List.mem_cons, not_or] at h
      exact (ih h.2).trans (supersededBy_setFactSuperseded_of_ne h.1)

theorem supersededBy_supersedeAll_of_mem {oldIds : List String}
    (h : id ∈ oldIds) (hstored : s.Stored id) :
    (oldIds.foldl (fun s oldId => s.setFactSuperseded oldId newFactId)
      s).supersededBy id = some newFactId := by
  induction oldIds generalizing s with
  | nil => cases h
  | cons oldId oldIds ih =>
      by_cases hlater : id ∈ oldIds
      · exact ih hlater (stored_setFactSuperseded.mpr hstored)
      · obtain rfl := (List.mem_cons.mp h).resolve_right hlater
        rw [List.foldl_cons, supersededBy_supersedeAll hlater]
        exact supersededBy_setFactSuperseded_self hstored

/-- A fact that replaces one it leads to, or is not stored, hides it. -/
theorem Rooted.of_supersedeAll {oldIds : List String}
    (h : (oldIds.foldl (fun s oldId => s.setFactSuperseded oldId newFactId)
      s).Rooted) (hmem : oldFactId ∈ oldIds) (hstored : s.Stored oldFactId) :
    s.Stored newFactId ∧ s.LeadsAway newFactId oldFactId := by
  constructor
  · -- the chain from the old fact ends at the new one
    by_contra hnew
    obtain ⟨k, y, hend, hy⟩ := h oldFactId (stored_supersedeAll.mpr hstored)
    have hnone := supersededBy_of_not_stored
      (mt stored_supersedeAll.mp hnew) (s := oldIds.foldl
        (fun s oldId => s.setFactSuperseded oldId newFactId) s)
    have hone : EndsAt _ oldFactId 1 newFactId :=
      ⟨by simp [hop, supersededBy_supersedeAll_of_mem hmem hstored], hnone⟩
    obtain rfl := (hone.unique hend).2
    exact hnew (stored_supersedeAll.mp hy)
  · -- the first replaced fact that the new one leads to leads back to it
    intro i hi
    have hexists : ∃ i, ∃ id ∈ oldIds, s.Stored id ∧
        hop s.supersededBy i newFactId = some id :=
      ⟨i, oldFactId, hmem, hstored, hi⟩
    obtain ⟨id, hid, hidStored, hhop⟩ := Nat.find_spec hexists
    have hsame : hop (oldIds.foldl
        (fun s oldId => s.setFactSuperseded oldId newFactId) s).supersededBy
        (Nat.find hexists) newFactId = some id := by
      rw [← hhop]
      apply hop_congr
      intro j hj y hy
      by_cases hyStored : s.Stored y
      · exact supersededBy_supersedeAll fun hyMem =>
          Nat.find_min hexists hj ⟨y, hyMem, hyStored, hy⟩
      · rw [supersededBy_of_not_stored hyStored]
        exact supersededBy_of_not_stored (mt stored_supersedeAll.mp hyStored)
    apply h.keepsKnowledge.acyclic newFactId (Nat.find hexists)
    rw [hop_succ, hsame]
    exact supersededBy_supersedeAll_of_mem hid hidStored

theorem leadsAway_of_live (h : s.supersededBy newFactId = none)
    (hne : oldFactId ≠ newFactId) : s.LeadsAway newFactId oldFactId := by
  intro i
  cases i with
  | zero => simpa using hne.symm
  | succ i => simp [hop, h]

/-- Chains are read off the rows. -/
theorem rooted_congr {s' : FactStore} (h : s'.rows = s.rows) :
    s'.Rooted ↔ s.Rooted := by
  have hnext : s'.supersededBy = s.supersededBy := by
    funext id
    rw [supersededBy, find, h]
    rfl
  have hstored : s'.Stored = s.Stored := by
    funext id
    rw [Stored, h]
    rfl
  rw [Rooted, hnext, hstored]
  rfl

theorem Rooted.updateFactFields (h : s.Rooted) (factId : String)
    (fields : Fields) : (s.updateFactFields factId fields).Rooted := by
  have hstored : (s.updateFactFields factId fields).Stored = s.Stored := by
    funext id
    exact propext stored_updateFactFields
  rw [Rooted, hstored, supersededBy_updateFactFields]
  exact h

end FactStore

/-! ## Turns and groups -/

section Turns

variable {env : CheckerEnv} {config : SupersessionConfig} {graphLinks : Bool}

/--
Every fact that the answer for the new fact names, if it is stored, is one that
the chain from the new fact leads away from.
-/
def TurnSpares (env : CheckerEnv) (config : SupersessionConfig)
    (graphLinks : Bool) (run : CheckerRun) (fact : Fact) : Prop :=
  ∀ oldId ∈ turnIds env config graphLinks run fact, run.store.Stored oldId →
    run.store.Stored fact.id ∧ run.store.LeadsAway fact.id oldId

/-- The condition is exact, one turn at a time. -/
theorem factTurn_rooted_iff {run : CheckerRun} {fact : Fact}
    (h : run.store.Rooted) :
    (factTurn env config graphLinks run fact).store.Rooted ↔
      TurnSpares env config graphLinks run fact := by
  rw [FactStore.rooted_congr (factTurn_effect _ _ _ _ _).rows]
  constructor
  · intro hafter oldId hold hstored
    exact hafter.of_supersedeAll hold hstored
  · intro hspares
    exact h.supersedeAll hspares

theorem turns_rooted {newFacts : List Fact} {run : CheckerRun}
    (h : run.store.Rooted)
    (hspares : ∀ earlier fact later, newFacts = earlier ++ fact :: later →
      TurnSpares env config graphLinks
        (earlier.foldl (factTurn env config graphLinks) run) fact) :
    (newFacts.foldl (factTurn env config graphLinks) run).store.Rooted := by
  induction newFacts generalizing run with
  | nil => exact h
  | cons fact newFacts ih =>
      apply ih ((factTurn_rooted_iff h).mpr (hspares [] fact newFacts rfl))
      intro earlier other later heq
      exact hspares (fact :: earlier) other later (by rw [heq]; rfl)

/-- Groups whose first facts are live: no first fact is in another group. -/
theorem supersedeGroups_rooted {groups : List (List Fact)} {run : CheckerRun}
    (h : run.store.Rooted)
    (hlive : ∀ fact ∈ groups.flatten, run.store.Stored fact.id ∧
      run.store.supersededBy fact.id = none)
    (hdistinct : (groups.flatten.map (·.id)).Nodup) :
    (groups.foldl supersedeGroup run).store.Rooted := by
  induction groups generalizing run with
  | nil => exact h
  | cons group groups ih =>
      cases group with
      | nil => exact ih h hlive hdistinct
      | cons keeper duplicates =>
          rw [List.flatten_cons, List.map_append, List.map_cons,
            List.cons_append, List.nodup_cons, List.mem_append, not_or,
            List.nodup_append] at hdistinct
          obtain ⟨⟨hkeeper, -⟩, -, hrest, hdisjoint⟩ := hdistinct
          obtain ⟨hstored, hkeeperLive⟩ := hlive keeper (by simp)
          have hstore := CheckerRun.supersedeAll_store keeper
            (duplicates.map (·.id)) run
          apply ih
          · change (run.supersedeAll keeper _).store.Rooted
            rw [hstore]
            refine h.supersedeAll fun oldId hold _ => ⟨hstored, ?_⟩
            apply FactStore.leadsAway_of_live hkeeperLive
            rintro rfl
            exact hkeeper hold
          · intro fact hfact
            change (run.supersedeAll keeper _).store.Stored _ ∧
              (run.supersedeAll keeper _).store.supersededBy _ = none
            have hother : fact.id ∉ duplicates.map (·.id) := fun hmem =>
              hdisjoint _ hmem _ (List.mem_map_of_mem hfact) rfl
            rw [hstore, FactStore.stored_supersedeAll,
              FactStore.supersededBy_supersedeAll hother]
            exact hlive fact (by simp [hfact])
          · exact hrest

theorem dedupFacts_rooted {s : FactStore} (h : s.Rooted)
    (lower : String → String) : (dedupFacts lower s).store.Rooted := by
  have hperm := duplicateGroups_perm lower s
  refine supersedeGroups_rooted ?_ ?_ ?_
  · exact h
  · intro fact hfact
    obtain ⟨hmem, hlive⟩ := mem_dedupFactsOf (hperm.mem_iff.mp hfact)
    refine ⟨List.mem_map_of_mem hmem, ?_⟩
    rw [FactStore.supersededBy_of_mem hmem]
    exact hlive
  · exact (hperm.map (·.id)).nodup_iff.mpr (dedupFactsOf_nodup s)

end Turns

/-! ## Sequences of operations -/

/-- The calls that change which facts are superseded. -/
inductive FactOperation where
  | storeFacts (leased : Option (ConversationId → Bool)) (facts : List Fact)
  | dedupFacts (lower : String → String)
  | checkAndLink (env : CheckerEnv) (config : SupersessionConfig)
      (graphLinks : Bool) (allFactsCache : Option (List Fact))
      (newFacts : List Fact)

/-- A stored fact that comes superseded names one that leads away from it. -/
def StoresSpare : List Fact → FactStore → Prop
  | [], _ => True
  | fact :: facts, s =>
      (∀ newId, fact.supersededBy = some newId →
        s.Stored newId ∧ s.LeadsAway newId fact.id) ∧
      StoresSpare facts (s.replaceFact fact)

namespace FactOperation

def apply : FactOperation → FactStore → FactStore
  | .storeFacts leased facts, s => s.storeFacts leased facts
  | .dedupFacts lower, s => (VirtualContext.dedupFacts lower s).store
  | .checkAndLink env config graphLinks allFactsCache newFacts, s =>
      (VirtualContext.checkAndLink env config graphLinks newFacts
        { store := s, allFactsCache := allFactsCache }).store

/-- No turn of the operation lets a fact replace one that it leads to. -/
def Spares (s : FactStore) : FactOperation → Prop
  | .storeFacts _ facts => StoresSpare facts s
  | .dedupFacts _ => True
  | .checkAndLink env config graphLinks allFactsCache newFacts =>
      config.enabled = true →
        ∀ earlier fact later, newFacts = earlier ++ fact :: later →
          TurnSpares env config graphLinks
            (earlier.foldl (factTurn env config graphLinks)
              (promotePlannedFacts env
                { store := s, allFactsCache := allFactsCache })) fact

end FactOperation

theorem insertFacts_rooted {leased : Option (ConversationId → Bool)}
    {facts : List Fact} {s s' : FactStore} (h : s.Rooted)
    (hspare : StoresSpare facts s)
    (hinsert : FactStore.insertFacts leased facts s = some s') : s'.Rooted := by
  induction facts generalizing s with
  | nil =>
      obtain rfl := Option.some.inj hinsert
      exact h
  | cons fact facts ih =>
      rw [FactStore.insertFacts] at hinsert
      split_ifs at hinsert
      exact ih (h.replaceFact hspare.1) hspare.2 hinsert

theorem apply_rooted {s : FactStore} {operation : FactOperation} (h : s.Rooted)
    (hspares : operation.Spares s) : (operation.apply s).Rooted := by
  cases operation with
  | storeFacts leased facts =>
      change (s.storeFacts leased facts).Rooted
      unfold FactStore.storeFacts
      cases hinsert : FactStore.insertFacts leased facts s with
      | none => exact h
      | some s' => exact insertFacts_rooted h hspares hinsert
  | dedupFacts lower => exact dedupFacts_rooted h lower
  | checkAndLink env config graphLinks allFactsCache newFacts =>
      change (checkAndLink env config graphLinks newFacts
        { store := s, allFactsCache := allFactsCache }).store.Rooted
      unfold checkAndLink
      split_ifs with hoff
      · exact h
      · simp only [Bool.or_eq_true, Bool.not_eq_true', not_or,
          Bool.not_eq_false] at hoff
        refine turns_rooted ?_ (hspares hoff.1)
        exact promotePlannedFacts_keeps h fun _ factId fields hs =>
          hs.updateFactFields factId fields

/-- An operation from any store, whatever the model answers. -/
def factStep (s s' : FactStore) : Prop :=
  ∃ operation : FactOperation, operation.apply s = s'

/-- An operation that lets no fact replace one that it leads to. -/
def sparingStep (s s' : FactStore) : Prop :=
  ∃ operation : FactOperation, operation.Spares s ∧ operation.apply s = s'

/-- Supersession hides nothing as long as no fact replaces one it leads to. -/
theorem keepsKnowledge_of_reach {s : FactStore}
    (h : Reach (· = FactStore.empty) sparingStep s) : s.KeepsKnowledge := by
  apply FactStore.Rooted.keepsKnowledge
  apply h.invariant
  · rintro s rfl
    exact FactStore.rooted_empty
  · rintro s _ hs ⟨operation, hspares, rfl⟩
    exact apply_rooted hs hspares

/-! ## Two facts that replace each other -/

def oldHome : Fact := { id := "a", subject := "user", object := "Oslo" }

def newHome : Fact := { id := "b", subject := "user", object := "Rome" }

def homesStored : FactStore :=
  FactStore.empty.storeFacts none [oldHome, newHome]

def homesLinked (newFacts : List Fact) : FactStore :=
  (checkAndLink agreeable { enabled := true } true newFacts
    { store := homesStored }).store

/-- The old home leads to the new one, which is live. -/
theorem keepsKnowledge_homes : (homesLinked [newHome]).KeepsKnowledge := by
  apply keepsKnowledge_of_reach
  apply Reach.step (s := homesStored)
  · refine Reach.step (.start rfl) ⟨.storeFacts none [oldHome, newHome], ?_, rfl⟩
    simp [FactOperation.Spares, StoresSpare, oldHome, newHome]
  · refine ⟨.checkAndLink agreeable { enabled := true } true none [newHome],
      fun _ earlier fact later heq => ?_, rfl⟩
    obtain ⟨rfl, rfl, rfl⟩ : earlier = [] ∧ fact = newHome ∧ later = [] := by
      cases earlier with
      | nil => simpa [eq_comm] using heq
      | cons first earlier => simp at heq
    intro oldId hold hstored
    have hids : turnIds agreeable { enabled := true } true
        (promotePlannedFacts agreeable { store := homesStored }) newHome
          = ["a"] := by
      decide +kernel
    obtain rfl := List.mem_singleton.mp (hids ▸ hold)
    refine ⟨by decide +kernel, FactStore.leadsAway_of_live ?_ (by decide)⟩
    decide +kernel

/-- Each of two new facts replaces the other, and neither is found again. -/
theorem mutual_supersession : ¬ ∀ s : FactStore,
    Reach (· = FactStore.empty) factStep s → s.KeepsKnowledge := by
  intro h
  have hreach : Reach (· = FactStore.empty) factStep
      (homesLinked [oldHome, newHome]) := by
    apply Reach.step (s := homesStored)
    · exact Reach.step (.start rfl) ⟨.storeFacts none [oldHome, newHome], rfl⟩
    · exact ⟨.checkAndLink agreeable { enabled := true } true none
        [oldHome, newHome], rfl⟩
  exact (h _ hreach).acyclic "a" 1 (by decide +kernel)

end VirtualContext
