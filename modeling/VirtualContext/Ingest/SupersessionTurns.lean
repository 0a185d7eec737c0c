import VirtualContext.Ingest.Supersession

/-!
# The turns of a supersession run

One turn of either mode supersedes a list of facts by the new fact of the turn.
The list is read off the state before the turn and the answer to its prompt.
-/

namespace VirtualContext

open VirtualContext.Library

variable {env : CheckerEnv} {config : SupersessionConfig} {graphLinks : Bool}
  {run : CheckerRun} {fact : Fact} {s : FactStore}

namespace CheckerRun

def supersedeAll (newFact : Fact) (oldIds : List String) (run : CheckerRun) :
    CheckerRun :=
  oldIds.foldl (supersede newFact) run

theorem supersedeAll_superseded (newFact : Fact) (oldIds : List String)
    (run : CheckerRun) :
    (run.supersedeAll newFact oldIds).superseded =
      run.superseded ++ oldIds.map (⟨·, newFact⟩) := by
  unfold supersedeAll
  induction oldIds generalizing run with
  | nil => simp
  | cons oldId oldIds ih => simp [ih, supersede]

theorem supersedeAll_store (newFact : Fact) (oldIds : List String)
    (run : CheckerRun) :
    (run.supersedeAll newFact oldIds).store =
      oldIds.foldl (fun s oldId => s.setFactSuperseded oldId newFact.id)
        run.store := by
  unfold supersedeAll
  induction oldIds generalizing run with
  | nil => rfl
  | cons oldId oldIds ih => exact ih _

theorem supersedeAll_cache (newFact : Fact) (oldIds : List String)
    (run : CheckerRun) :
    (run.supersedeAll newFact oldIds).allFactsCache = run.allFactsCache := by
  unfold supersedeAll
  induction oldIds generalizing run with
  | nil => rfl
  | cons oldId oldIds ih => exact ih _

theorem storeLinks_rows (links : List FactLink) (run : CheckerRun) :
    (run.storeLinks links).store.rows = run.store.rows := by
  unfold storeLinks FactStore.storeFactLinks
  split_ifs <;> rfl

theorem storeLinks_superseded (links : List FactLink) (run : CheckerRun) :
    (run.storeLinks links).superseded = run.superseded := by
  unfold storeLinks
  cases run.store.storeFactLinks links <;> rfl

end CheckerRun

/-! ## What a turn is about -/

def linkPrompt (env : CheckerEnv) (config : SupersessionConfig)
    (run : CheckerRun) (fact : Fact) : Prompt :=
  .checkLinks (fact.formatForPrompt env.text)
    ((linkCandidates config fact run.store).map (·.formatForPrompt env.text))

def checkPrompt (env : CheckerEnv) (config : SupersessionConfig)
    (run : CheckerRun) (fact : Fact) : Prompt :=
  .checkBatch (fact.formatForPrompt env.text)
    ((run.candidates env config fact).1.map (·.formatForPrompt env.text))

/-- The ids that a turn for links marks as superseded. -/
def linkedIds (env : CheckerEnv) (config : SupersessionConfig)
    (run : CheckerRun) (fact : Fact) : List String :=
  let candidates := linkCandidates config fact run.store
  let reply := env.llm (linkPrompt env config run fact :: run.prompts)
  if run.raised || fact.subject = "" ||
      (linksInReply env.text fact candidates reply).isNone then []
  else supersededInReply candidates reply

/-- The ids that a turn without links marks as superseded. -/
def checkedIds (env : CheckerEnv) (config : SupersessionConfig)
    (run : CheckerRun) (fact : Fact) : List String :=
  if run.raised || fact.id ∈ run.supersededIds || fact.subject = "" then []
  else
    safeIds fact (run.candidates env config fact).1
      (env.llm (checkPrompt env config run fact :: run.prompts))

/-- The ids that the turn of a new fact marks as superseded. -/
def turnIds (env : CheckerEnv) (config : SupersessionConfig)
    (graphLinks : Bool) (run : CheckerRun) (fact : Fact) : List String :=
  if graphLinks then linkedIds env config run fact
  else checkedIds env config run fact

theorem mem_of_mem_named {candidates : List Fact} {indices : List Json}
    {id : String}
    (h : id ∈ indices.filterMap fun index =>
      (index.index candidates).map (·.id)) :
    ∃ candidate ∈ candidates, candidate.id = id := by
  obtain ⟨index, -, hindex⟩ := List.mem_filterMap.mp h
  obtain ⟨candidate, hcandidate, rfl⟩ := Option.map_eq_some_iff.mp hindex
  exact ⟨candidate, Json.mem_of_index hcandidate, rfl⟩

theorem mem_of_mem_supersededInReply {candidates : List Fact}
    {reply : Option Json} {id : String}
    (h : id ∈ supersededInReply candidates reply) :
    ∃ candidate ∈ candidates, candidate.id = id := by
  unfold supersededInReply at h
  split at h
  · exact mem_of_mem_named h
  · cases h

theorem mem_of_mem_safeIds {candidates : List Fact} {reply : Option Json}
    {id : String} (h : id ∈ safeIds fact candidates reply) :
    ∃ candidate ∈ candidates, candidate.id = id :=
  mem_of_mem_named (List.mem_filter.mp h).1

/-! ## What a turn does -/

theorem tagCandidates_subset :
    tagCandidates config fact s ⊆ s.rows :=
  fun _ h => (FactStore.mem_of_mem_queryFacts h).1

theorem objectCandidates_subset {text : TextFunctions} :
    objectCandidates text config fact s ⊆ s.rows := by
  intro other h
  unfold objectCandidates at h
  split at h
  · cases h
  · split_ifs at h
    · cases h
    · exact (FactStore.mem_of_mem_queryFacts (List.mem_filter.mp h).1).1


/-- Looking for candidates changes at most the cache. -/
theorem candidates_run : ∃ cache, (run.candidates env config fact).2 =
    { run with allFactsCache := cache } := by
  have hsame : run = { run with allFactsCache := run.allFactsCache } := rfl
  have hall : ∃ cache, run.getAllFacts.2 = { run with allFactsCache := cache } := by
    unfold CheckerRun.getAllFacts
    cases run.allFactsCache with
    | none => exact ⟨_, rfl⟩
    | some facts => exact ⟨_, hsame⟩
  unfold CheckerRun.candidates CheckerRun.embeddingCandidates
  cases env.embed with
  | none => exact ⟨_, hsame⟩
  | some embed =>
      dsimp only
      split_ifs
      · exact ⟨_, hsame⟩
      · exact hall
      · exact hall

theorem safeIds_nil (reply : Option Json) : safeIds fact [] reply = [] := by
  rw [List.eq_nil_iff_forall_not_mem]
  intro id hid
  obtain ⟨candidate, hmem, -⟩ := mem_of_mem_safeIds hid
  cases hmem

theorem supersededInReply_nil (reply : Option Json) :
    supersededInReply [] reply = [] := by
  rw [List.eq_nil_iff_forall_not_mem]
  intro id hid
  obtain ⟨candidate, hmem, -⟩ := mem_of_mem_supersededInReply hid
  cases hmem

/-- What a turn leaves: its log and its rows. -/
structure TurnEffect (run after : CheckerRun) (fact : Fact)
    (oldIds : List String) : Prop where
  superseded : after.superseded = run.superseded ++ oldIds.map (⟨·, fact⟩)
  rows : after.store.rows = (oldIds.foldl
    (fun s oldId => s.setFactSuperseded oldId fact.id) run.store).rows

theorem TurnEffect.refl : TurnEffect run run fact [] := ⟨by simp, rfl⟩

theorem supersedeAll_effect {run' : CheckerRun} (oldIds : List String)
    (hstore : run'.store = run.store)
    (hsuperseded : run'.superseded = run.superseded) :
    TurnEffect run (run'.supersedeAll fact oldIds) fact oldIds where
  superseded := by rw [CheckerRun.supersedeAll_superseded, hsuperseded]
  rows := by rw [CheckerRun.supersedeAll_store, hstore]

theorem checkFact_effect :
    TurnEffect run (checkFact env config run fact) fact
      (checkedIds env config run fact) := by
  unfold checkFact checkedIds
  split_ifs with hskip
  · exact .refl
  · obtain ⟨cache, hcache⟩ : ∃ cache, (run.candidates env config fact).2 =
      { run with allFactsCache := cache } := candidates_run
    have hprompt : checkPrompt env config run fact =
      .checkBatch (fact.formatForPrompt env.text)
        ((run.candidates env config fact).1.map
          (·.formatForPrompt env.text)) := rfl
    rw [hprompt]
    generalize run.candidates env config fact = found at *
    obtain ⟨candidates, run'⟩ := found
    dsimp only at *
    subst hcache
    split_ifs with hempty
    · rw [List.isEmpty_iff.mp hempty, safeIds_nil]
      exact ⟨by simp, rfl⟩
    · exact supersedeAll_effect _ rfl rfl

theorem linkFact_effect :
    TurnEffect run (linkFact env config run fact) fact
      (linkedIds env config run fact) := by
  unfold linkFact linkedIds linkPrompt
  dsimp only
  by_cases hskip : run.raised || fact.subject = ""
  · rw [if_pos hskip, if_pos (by simp only [hskip, Bool.true_or])]
    exact .refl
  rw [if_neg hskip]
  generalize linkCandidates config fact run.store = candidates
  unfold CheckerRun.complete
  dsimp only
  generalize Prompt.checkLinks _ _ = prompt
  generalize env.llm _ = reply
  split_ifs with hempty hnone hnone
  · exact .refl
  · rw [List.isEmpty_iff.mp hempty, supersededInReply_nil]
    exact .refl
  · have hlinks : linksInReply env.text fact candidates reply = none := by
      simpa [hskip] using hnone
    rw [hlinks]
    exact ⟨by simp, rfl⟩
  · cases hlinks : linksInReply env.text fact candidates reply with
    | none => simp [hlinks] at hnone
    | some links =>
        dsimp only
        have heffect : TurnEffect run (CheckerRun.supersedeAll fact
            (supersededInReply candidates reply)
            { run with prompts := prompt :: run.prompts }) fact
            (supersededInReply candidates reply) :=
          supersedeAll_effect _ rfl rfl
        split_ifs
        · exact heffect
        · refine ⟨?_, ?_⟩
          · rw [CheckerRun.storeLinks_superseded]
            exact heffect.superseded
          · rw [CheckerRun.storeLinks_rows]
            exact heffect.rows

variable (env config graphLinks run fact) in
theorem factTurn_effect :
    TurnEffect run (factTurn env config graphLinks run fact) fact
      (turnIds env config graphLinks run fact) := by
  cases graphLinks with
  | true => exact linkFact_effect
  | false => exact checkFact_effect

/-! ## Promotion and duplicates -/

theorem promoteFact_store (env : CheckerEnv) (run : CheckerRun) (fact : Fact) :
    (promoteFact env run fact).store = run.store ∨
      ∃ fields, (promoteFact env run fact).store =
        run.store.updateFactFields fact.id fields := by
  unfold promoteFact CheckerRun.complete
  split
  · exact .inl rfl
  · split_ifs
    · exact .inl rfl
    · dsimp only
      split
      · exact .inr ⟨_, rfl⟩
      · exact .inl rfl

theorem promoteFact_rest (env : CheckerEnv) (run : CheckerRun) (fact : Fact) :
    (promoteFact env run fact).superseded = run.superseded ∧
      (promoteFact env run fact).allFactsCache = run.allFactsCache := by
  unfold promoteFact CheckerRun.complete
  split
  · exact ⟨rfl, rfl⟩
  · split_ifs
    · exact ⟨rfl, rfl⟩
    · dsimp only
      split <;> exact ⟨rfl, rfl⟩

/-- Promotion keeps what every rewriting of a fact's texts keeps. -/
theorem promotePlannedFacts_keeps {P : FactStore → Prop} (h : P run.store)
    (hstep : ∀ s factId fields, P s → P (s.updateFactFields factId fields)) :
    P (promotePlannedFacts env run).store := by
  unfold promotePlannedFacts
  generalize plannedFacts run.store = planned
  induction planned generalizing run with
  | nil => exact h
  | cons fact planned ih =>
      apply ih
      rcases promoteFact_store env run fact with heq | ⟨fields, heq⟩
      · rwa [heq]
      · rw [heq]
        exact hstep _ _ _ h

/-- Promotion leaves the log and the cache. -/
theorem promotePlannedFacts_rest :
    (promotePlannedFacts env run).superseded = run.superseded ∧
      (promotePlannedFacts env run).allFactsCache = run.allFactsCache := by
  unfold promotePlannedFacts
  generalize plannedFacts run.store = planned
  induction planned generalizing run with
  | nil => exact ⟨rfl, rfl⟩
  | cons fact planned ih =>
      obtain ⟨hsuperseded, hcache⟩ := promoteFact_rest env run fact
      rw [List.foldl_cons, ih.1, ih.2]
      exact ⟨hsuperseded, hcache⟩

/-- The facts to group, group after group. -/
theorem duplicateGroups_perm (lower : String → String) (store : FactStore) :
    ((duplicateGroups lower store).map Prod.snd).flatten.Perm
      (dedupFactsOf store) := by
  have hperm := Dictionary.flatMap_ofPairs_perm
    ((dedupFactsOf store).map fun fact => (duplicateKey lower fact, fact))
  rwa [List.map_map, show Prod.snd ∘ (fun fact => (duplicateKey lower fact, fact))
    = id from rfl, List.map_id] at hperm

theorem mem_dedupFactsOf {store : FactStore} (h : fact ∈ dedupFactsOf store) :
    fact ∈ store.rows ∧ fact.supersededBy = none := by
  obtain ⟨hmem, hsel⟩ :=
    FactStore.mem_of_mem_queryFacts (List.mem_filter.mp h).1
  exact ⟨hmem, FactQuery.selects_live hsel⟩

theorem dedupFactsOf_nodup (store : FactStore) :
    ((dedupFactsOf store).map (·.id)).Nodup :=
  (FactStore.queryFacts_nodup _ store).sublist (List.filter_sublist.map _)

/-- A model that finds the first existing fact superseded. -/
def agreeable : CheckerEnv where
  text :=
    { lower := String.toLower
      upper := String.toUpper
      isWordChar := fun c => c.isAlphanum || c = '_'
      parseInt := String.toInt?
      parseFloat := fun
        | .float value => some value
        | .int value => some value
        | _ => none
      str := fun
        | .str value => value
        | _ => "" }
  llm := fun _ => some (.obj [("superseded", .arr [.int 0]), ("links", .arr [])])
  embed := none
  today := 20250101

end VirtualContext
