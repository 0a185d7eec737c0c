import VirtualContext.Ingest.SupersessionTurns

/-!
# The dates of superseded facts

The check without graph links refuses to supersede a fact with a later date, and
that guard holds as long as cached facts carry the dates that are stored.  With
graph links, and among duplicates, the dates are not compared.
-/

namespace VirtualContext

open VirtualContext.Library

/-! ## Dates of stored facts -/

namespace FactStore

/-- The columns that the dates of facts are read from. -/
def dateColumns (s : FactStore) : List (String × String × String) :=
  s.rows.map fun row => (row.id, row.whenDate, row.sessionDate)

variable {s s' : FactStore}

@[simp] theorem dateColumns_setFactSuperseded (oldFactId newFactId : String) :
    (s.setFactSuperseded oldFactId newFactId).dateColumns = s.dateColumns := by
  unfold dateColumns setFactSuperseded updateRows
  rw [List.map_map]
  apply List.map_congr_left
  intro row _
  simp only [Function.comp_apply, supersedeRow]
  split_ifs <;> rfl

@[simp] theorem dateColumns_updateFactFields (factId : String)
    (fields : Fields) :
    (s.updateFactFields factId fields).dateColumns = s.dateColumns := by
  unfold dateColumns updateFactFields updateRows
  rw [List.map_map]
  apply List.map_congr_left
  intro row _
  simp only [Function.comp_apply, rewriteRow]
  split_ifs <;> rfl

theorem dateColumns_supersedeAll (oldIds : List String) (newFactId : String) :
    (oldIds.foldl (fun s oldId => s.setFactSuperseded oldId newFactId)
      s).dateColumns = s.dateColumns := by
  induction oldIds generalizing s with
  | nil => rfl
  | cons oldId oldIds ih => exact ih.trans (dateColumns_setFactSuperseded _ _)

/-- A row of another version of the table with the same dates. -/
theorem exists_row_of_dateColumns (h : s'.dateColumns = s.dateColumns)
    {row : Fact} (hrow : row ∈ s.rows) :
    ∃ row' ∈ s'.rows, row'.id = row.id ∧ row'.dateText = row.dateText := by
  have hmem : (row.id, row.whenDate, row.sessionDate) ∈ s'.dateColumns := by
    rw [h]
    exact List.mem_map_of_mem hrow
  obtain ⟨row', hrow', heq⟩ := List.mem_map.mp hmem
  simp only [Prod.mk.injEq] at heq
  obtain ⟨hid, hwhen, hsession⟩ := heq
  exact ⟨row', hrow', hid, by simp [Fact.dateText, hwhen, hsession]⟩

/-- No stored fact with the id is dated later than the other fact. -/
def NotLater (s : FactStore) (oldFactId : String) (newFact : Fact) : Prop :=
  ∀ row ∈ s.rows, row.id = oldFactId → row.laterThan newFact = false

instance (oldFactId : String) (newFact : Fact) :
    Decidable (s.NotLater oldFactId newFact) :=
  inferInstanceAs (Decidable (∀ _ ∈ _, _))

theorem notLater_congr (h : s'.dateColumns = s.dateColumns) {oldFactId : String}
    {newFact : Fact} :
    s'.NotLater oldFactId newFact ↔ s.NotLater oldFactId newFact := by
  have himp {s s' : FactStore} (h : s'.dateColumns = s.dateColumns)
      (hlater : s'.NotLater oldFactId newFact) :
      s.NotLater oldFactId newFact := by
    intro row hrow hid
    obtain ⟨row', hrow', hid', hdate⟩ := exists_row_of_dateColumns h hrow
    have := hlater row' hrow' (hid'.trans hid)
    simpa only [Fact.laterThan, Fact.date, hdate] using this
  exact ⟨himp h, himp h.symm⟩

theorem notLater_iff_of_mem {row : Fact} (hrow : row ∈ s.rows) {newFact : Fact} :
    s.NotLater row.id newFact ↔ row.laterThan newFact = false := by
  constructor
  · intro h
    exact h row hrow rfl
  · intro h row' hrow' hid
    rwa [List.inj_on_of_nodup_map s.primaryKey hrow' hrow hid]

end FactStore

/-- No fact is superseded by one that is dated earlier. -/
def CheckerRun.InOrder (run : CheckerRun) (s : FactStore) : Prop :=
  ∀ write ∈ run.superseded, s.NotLater write.oldFactId write.newFact

instance (run : CheckerRun) (s : FactStore) : Decidable (run.InOrder s) :=
  inferInstanceAs (Decidable (∀ _ ∈ _, _))

variable {env : CheckerEnv} {config : SupersessionConfig} {graphLinks : Bool}
  {run : CheckerRun} {fact : Fact} {s : FactStore}

/-! ## Turns -/

/-- The answer for a new fact names no stored fact that is dated later. -/
def TurnInOrder (env : CheckerEnv) (config : SupersessionConfig)
    (graphLinks : Bool) (run : CheckerRun) (fact : Fact) : Prop :=
  ∀ oldId ∈ turnIds env config graphLinks run fact, run.store.NotLater oldId fact

variable (env config graphLinks run fact) in
theorem factTurn_dateColumns :
    (factTurn env config graphLinks run fact).store.dateColumns =
      run.store.dateColumns := by
  have hrows := (factTurn_effect env config graphLinks run fact).rows
  unfold FactStore.dateColumns
  rw [hrows]
  exact FactStore.dateColumns_supersedeAll _ _

theorem promotePlannedFacts_dateColumns :
    (promotePlannedFacts env run).store.dateColumns = run.store.dateColumns :=
  promotePlannedFacts_keeps (P := (·.dateColumns = run.store.dateColumns)) rfl
    fun s factId fields h =>
      (FactStore.dateColumns_updateFactFields (s := s) factId fields).trans h

theorem factTurn_inOrder_iff (hdates : run.store.dateColumns = s.dateColumns) :
    (factTurn env config graphLinks run fact).InOrder s ↔
      run.InOrder s ∧ TurnInOrder env config graphLinks run fact := by
  unfold CheckerRun.InOrder TurnInOrder
  rw [(factTurn_effect env config graphLinks run fact).superseded]
  simp only [List.forall_mem_append, List.forall_mem_map,
    FactStore.notLater_congr hdates]

theorem turns_inOrder_iff {newFacts : List Fact}
    (hdates : run.store.dateColumns = s.dateColumns) :
    (newFacts.foldl (factTurn env config graphLinks) run).InOrder s ↔
      run.InOrder s ∧ ∀ earlier fact later,
        newFacts = earlier ++ fact :: later →
          TurnInOrder env config graphLinks
            (earlier.foldl (factTurn env config graphLinks) run) fact := by
  induction newFacts generalizing run with
  | nil => simp
  | cons first newFacts ih =>
      rw [List.foldl_cons, ih ((factTurn_dateColumns _ _ _ _ _).trans hdates),
        factTurn_inOrder_iff hdates, and_assoc]
      refine and_congr_right fun _ => ?_
      constructor
      · rintro ⟨hfirst, hrest⟩ earlier fact later heq
        cases earlier with
        | nil =>
            obtain ⟨rfl, -⟩ := List.cons.inj heq
            exact hfirst
        | cons other earlier =>
            obtain rfl := (List.cons.inj heq).1
            exact hrest earlier fact later (List.cons.inj heq).2
      · intro h
        refine ⟨h [] first newFacts rfl, fun earlier fact later heq => ?_⟩
        exact h (first :: earlier) fact later (by rw [heq]; rfl)

/-! ## The date guard -/

/-- Cached facts have the dates that are stored for them. -/
def CacheCurrent (s : FactStore) (cache : Option (List Fact)) : Prop :=
  ∀ facts ∈ cache, ∀ fact ∈ facts, ∀ row ∈ s.rows, row.id = fact.id →
    row.dateText = fact.dateText

theorem cacheCurrent_congr {s' : FactStore} {cache : Option (List Fact)}
    (hdates : s'.dateColumns = s.dateColumns) (h : CacheCurrent s cache) :
    CacheCurrent s' cache := by
  intro facts hfacts fact hfact row hrow hid
  obtain ⟨row', hrow', hid', hdate⟩ :=
    FactStore.exists_row_of_dateColumns hdates.symm hrow
  rw [← hdate]
  exact h facts hfacts fact hfact row' hrow' (hid'.trans hid)

theorem cacheCurrent_rows {facts : List Fact} (h : facts ⊆ s.rows) :
    CacheCurrent s (some facts) := by
  intro _ hcache fact hfact row hrow hid
  obtain rfl := Option.mem_some_iff.mp hcache
  rw [List.inj_on_of_nodup_map s.primaryKey hrow (h hfact) hid]

theorem getAllFacts_current (h : CacheCurrent run.store run.allFactsCache) :
    CacheCurrent run.store (some run.getAllFacts.1) ∧
      CacheCurrent run.store run.getAllFacts.2.allFactsCache := by
  unfold CheckerRun.getAllFacts
  cases hcache : run.allFactsCache with
  | none =>
      have hrows : run.store.queryFacts allFactsQuery ⊆ run.store.rows :=
        fun _ hmem => (FactStore.mem_of_mem_queryFacts hmem).1
      exact ⟨cacheCurrent_rows hrows, cacheCurrent_rows hrows⟩
  | some facts =>
      rw [hcache] at h
      exact ⟨h, by rwa [hcache]⟩

theorem embeddingCandidates_current {seen : List String}
    (h : CacheCurrent run.store run.allFactsCache) :
    CacheCurrent run.store (some (run.embeddingCandidates env fact seen).1) ∧
      CacheCurrent run.store
        (run.embeddingCandidates env fact seen).2.allFactsCache := by
  have hnil : CacheCurrent run.store (some []) := cacheCurrent_rows (by simp)
  obtain ⟨hall, hcache⟩ := getAllFacts_current h
  unfold CheckerRun.embeddingCandidates
  cases env.embed with
  | none => exact ⟨hnil, h⟩
  | some embed =>
      dsimp only
      split_ifs
      · exact ⟨hnil, h⟩
      · exact ⟨hnil, hcache⟩
      · refine ⟨fun _ hfacts other hother => ?_, hcache⟩
        obtain rfl := Option.mem_some_iff.mp hfacts
        obtain ⟨i, -, hi⟩ := List.mem_filterMap.mp (List.mem_of_mem_take hother)
        exact hall _ rfl other
          (List.mem_filter.mp (List.mem_of_getElem? hi)).1

variable (env config fact) in
theorem candidates_current (h : CacheCurrent run.store run.allFactsCache) :
    CacheCurrent run.store (some (run.candidates env config fact).1) ∧
      CacheCurrent run.store (run.candidates env config fact).2.allFactsCache := by
  unfold CheckerRun.candidates
  dsimp only
  obtain ⟨hembedded, hcache⟩ := embeddingCandidates_current h
  refine ⟨fun _ hfacts other hother => ?_, hcache⟩
  obtain rfl := Option.mem_some_iff.mp hfacts
  rcases List.mem_append.mp (List.mem_filter.mp hother).1 with hfound | hembed
  · intro row hrow hid
    have hstored : other ∈ run.store.rows := by
      rcases List.mem_append.mp hfound with htagged | hsimilar
      · exact tagCandidates_subset htagged
      · exact objectCandidates_subset (List.mem_filter.mp hsimilar).1
    rw [List.inj_on_of_nodup_map run.store.primaryKey hrow hstored hid]
  · exact hembedded _ rfl other hembed

/-- A fact that the guard lets pass is not dated later. -/
theorem notLater_of_mem_safeIds {candidates : List Fact} {reply : Option Json}
    (hcurrent : CacheCurrent s (some candidates)) {oldId : String}
    (h : oldId ∈ safeIds fact candidates reply) : s.NotLater oldId fact := by
  obtain ⟨hnamed, hguard⟩ := List.mem_filter.mp h
  obtain ⟨named, hmem, hid⟩ := mem_of_mem_named hnamed
  unfold refusedByDate at hguard
  cases hfind : candidates.reverse.find? (·.id = oldId) with
  | none =>
      have := List.find?_eq_none.mp hfind named (List.mem_reverse.mpr hmem)
      simp [hid] at this
  | some found =>
      have hfound := List.mem_reverse.mp (List.mem_of_find?_eq_some hfind)
      have hfoundId : found.id = oldId := by simpa using List.find?_some hfind
      intro row hrow hrowId
      have hdate :=
        hcurrent _ rfl found hfound row hrow (hrowId.trans hfoundId.symm)
      rw [hfind] at hguard
      simpa [Fact.laterThan, Fact.date, hdate] using hguard

theorem checkFact_inOrder (h : CacheCurrent run.store run.allFactsCache) :
    TurnInOrder env config false run fact := by
  intro oldId hold
  change oldId ∈ checkedIds env config run fact at hold
  unfold checkedIds at hold
  split_ifs at hold
  · cases hold
  · exact notLater_of_mem_safeIds (candidates_current env config fact h).1 hold

theorem checkFact_current (h : CacheCurrent run.store run.allFactsCache) :
    CacheCurrent (checkFact env config run fact).store
      (checkFact env config run fact).allFactsCache := by
  refine cacheCurrent_congr (factTurn_dateColumns env config false run fact) ?_
  have hcandidates := (candidates_current env config fact h).2
  unfold checkFact
  split_ifs
  · exact h
  · dsimp only
    split_ifs
    · exact hcandidates
    · change CacheCurrent run.store (CheckerRun.allFactsCache
        (CheckerRun.supersedeAll fact _ _))
      rw [CheckerRun.supersedeAll_cache]
      exact hcandidates

theorem turns_current {newFacts : List Fact}
    (h : CacheCurrent run.store run.allFactsCache) :
    CacheCurrent (newFacts.foldl (factTurn env config false) run).store
      (newFacts.foldl (factTurn env config false) run).allFactsCache := by
  induction newFacts generalizing run with
  | nil => exact h
  | cons fact newFacts ih => exact ih (checkFact_current h)

/-! ## Duplicates -/

/-- The writes for one group of duplicates. -/
def groupWrites : List Fact → List Supersession
  | [] => []
  | keeper :: duplicates => duplicates.map fun other => ⟨other.id, keeper⟩

theorem supersedeGroup_superseded (group : List Fact) :
    (supersedeGroup run group).superseded =
      run.superseded ++ groupWrites group := by
  cases group with
  | nil => simp [supersedeGroup, groupWrites]
  | cons keeper duplicates =>
      refine (CheckerRun.supersedeAll_superseded keeper
        (duplicates.map (·.id)) run).trans ?_
      rw [List.map_map]
      rfl

theorem supersedeGroups_superseded (groups : List (List Fact)) :
    (groups.foldl supersedeGroup run).superseded =
      run.superseded ++ groups.flatMap groupWrites := by
  induction groups generalizing run with
  | nil => simp
  | cons group groups ih =>
      rw [List.foldl_cons, ih, supersedeGroup_superseded, List.flatMap_cons,
        List.append_assoc]

/-- The fact that is kept of the duplicates of a fact: the last mentioned one. -/
def keptDuplicate (lower : String → String) (s : FactStore) (fact : Fact) :
    Option Fact :=
  (dedupFactsOf s).find? fun other =>
    duplicateKey lower other = duplicateKey lower fact

/-- A group: all facts to group that have its key. -/
theorem mem_duplicateGroups {lower : String → String} {group : List Fact} :
    group ∈ (duplicateGroups lower s).map Prod.snd ↔
      group ≠ [] ∧ ∃ key, group =
        (dedupFactsOf s).filter (duplicateKey lower · = key) := by
  have hgroup (key : String × String × String × String) :
      (((dedupFactsOf s).map fun fact => (duplicateKey lower fact, fact)).filter
        (·.1 = key)).map Prod.snd =
        (dedupFactsOf s).filter (duplicateKey lower · = key) := by
    rw [List.filter_map, List.map_map]
    exact List.map_id _
  rw [List.mem_map]
  constructor
  · rintro ⟨⟨key, elements⟩, hentry, rfl⟩
    obtain ⟨helements, hne⟩ := Dictionary.mem_ofPairs.mp hentry
    exact ⟨hne, key, helements.trans (hgroup key)⟩
  · rintro ⟨hne, key, heq⟩
    exact ⟨(key, group),
      Dictionary.mem_ofPairs.mpr ⟨heq.trans (hgroup key).symm, hne⟩, rfl⟩

/-- The writes supersede every duplicate by the one that is kept. -/
theorem mem_dedupFacts_superseded {lower : String → String}
    {write : Supersession} :
    write ∈ (dedupFacts lower s).superseded ↔
      ∃ fact ∈ dedupFactsOf s, keptDuplicate lower s fact = some write.newFact ∧
        fact ≠ write.newFact ∧ fact.id = write.oldFactId := by
  have hnodup : (dedupFactsOf s).Nodup := (dedupFactsOf_nodup s).of_map
  rw [dedupFacts, supersedeGroups_superseded, List.nil_append, List.mem_flatMap]
  constructor
  · rintro ⟨group, hmem, hwrite⟩
    obtain ⟨-, key, hgroup⟩ := mem_duplicateGroups.mp hmem
    cases group with
    | nil => simp [groupWrites] at hwrite
    | cons keeper duplicates =>
        obtain ⟨fact, hfact, rfl⟩ := List.mem_map.mp hwrite
        have hin := List.mem_cons_of_mem keeper hfact
        rw [hgroup] at hin
        obtain ⟨hstored, hkey⟩ := List.mem_filter.mp hin
        refine ⟨fact, hstored, ?_, ?_, rfl⟩
        · rw [keptDuplicate, of_decide_eq_true hkey, ← List.head?_filter,
            ← hgroup]
          rfl
        · rintro rfl
          have hdistinct := hnodup.filter (duplicateKey lower · = key)
          rw [← hgroup, List.nodup_cons] at hdistinct
          exact hdistinct.1 hfact
  · rintro ⟨fact, hfact, hkept, hne, hid⟩
    rw [keptDuplicate, ← List.head?_filter, List.head?_eq_some_iff] at hkept
    obtain ⟨duplicates, hfacts⟩ := hkept
    have hin : fact ∈ (dedupFactsOf s).filter
        (duplicateKey lower · = duplicateKey lower fact) :=
      List.mem_filter.mpr ⟨hfact, by simp⟩
    refine ⟨_, mem_duplicateGroups.mpr
      ⟨List.ne_nil_of_mem hin, duplicateKey lower fact, rfl⟩, ?_⟩
    rw [hfacts] at hin ⊢
    refine List.mem_map.mpr
      ⟨fact, (List.mem_cons.mp hin).resolve_left hne, ?_⟩
    rw [hid]

theorem laterThan_self (fact : Fact) : fact.laterThan fact = false := by
  unfold Fact.laterThan
  cases fact.date with
  | none => rfl
  | some date => simp

theorem dedupFacts_inOrder_iff {lower : String → String} :
    (dedupFacts lower s).InOrder s ↔
      ∀ fact ∈ dedupFactsOf s, ∀ kept ∈ keptDuplicate lower s fact,
        fact.laterThan kept = false := by
  constructor
  · intro h fact hfact kept hkept
    by_cases hsame : fact = kept
    · rw [hsame]
      exact laterThan_self kept
    · rw [← FactStore.notLater_iff_of_mem (mem_dedupFactsOf hfact).1]
      exact h ⟨fact.id, kept⟩
        (mem_dedupFacts_superseded.mpr ⟨fact, hfact, hkept, hsame, rfl⟩)
  · intro h write hwrite
    obtain ⟨fact, hfact, hkept, -, hid⟩ := mem_dedupFacts_superseded.mp hwrite
    rw [← hid, FactStore.notLater_iff_of_mem (mem_dedupFactsOf hfact).1]
    exact h fact hfact write.newFact hkept

/-! ## Runs -/

/-- Every turn of the run is in order. -/
def TurnsInOrder (env : CheckerEnv) (config : SupersessionConfig)
    (graphLinks : Bool) (cache : Option (List Fact)) (newFacts : List Fact)
    (s : FactStore) : Prop :=
  ∀ earlier fact later, newFacts = earlier ++ fact :: later →
    TurnInOrder env config graphLinks
      (earlier.foldl (factTurn env config graphLinks)
        (promotePlannedFacts env { store := s, allFactsCache := cache })) fact

theorem checkAndLink_inOrder_iff {cache : Option (List Fact)}
    {newFacts : List Fact} :
    (checkAndLink env config graphLinks newFacts
        { store := s, allFactsCache := cache }).InOrder s ↔
      (config.enabled = true →
        TurnsInOrder env config graphLinks cache newFacts s) := by
  unfold checkAndLink
  split_ifs with hoff
  · have hempty : CheckerRun.InOrder
        { store := s, allFactsCache := cache } s := by
      simp [CheckerRun.InOrder]
    simp only [hempty, true_iff]
    intro henabled earlier fact later heq
    simp [henabled, heq] at hoff
  · have henabled : config.enabled = true := by
      simp only [Bool.or_eq_true, not_or, Bool.not_eq_true', Bool.not_eq_false]
        at hoff
      exact hoff.1
    rw [turns_inOrder_iff promotePlannedFacts_dateColumns]
    have hstart : (promotePlannedFacts env
        { store := s, allFactsCache := cache }).InOrder s := by
      rw [CheckerRun.InOrder, promotePlannedFacts_rest.1]
      simp
    simp only [hstart, henabled, true_and, true_imp_iff]
    rfl

theorem turnsInOrder_of_guard {cache : Option (List Fact)}
    {newFacts : List Fact} (h : CacheCurrent s cache) :
    TurnsInOrder env config false cache newFacts s := by
  intro earlier fact later _
  apply checkFact_inOrder
  apply turns_current
  rw [promotePlannedFacts_rest.2]
  exact cacheCurrent_congr promotePlannedFacts_dateColumns h

/--
A run supersedes no fact by one dated earlier exactly if no answer that passes
the checks of the mode names such a fact; without graph links the date guard
sees to it.  Duplicates are in order if the last mentioned is dated last.
-/
theorem supersession_inOrder_iff (env : CheckerEnv) (config : SupersessionConfig)
    (lower : String → String) (cache : Option (List Fact))
    (newFacts : List Fact) (s : FactStore) :
    (∀ graphLinks, (checkAndLink env config graphLinks newFacts
        { store := s, allFactsCache := cache }).InOrder s ↔
      (config.enabled = true →
        TurnsInOrder env config graphLinks cache newFacts s)) ∧
    (CacheCurrent s cache → TurnsInOrder env config false cache newFacts s) ∧
    ((dedupFacts lower s).InOrder s ↔
      ∀ fact ∈ dedupFactsOf s, ∀ kept ∈ keptDuplicate lower s fact,
        fact.laterThan kept = false) :=
  ⟨fun _ => checkAndLink_inOrder_iff, turnsInOrder_of_guard,
    dedupFacts_inOrder_iff⟩

/-! ## A fact replaced by an earlier one -/

def marchWeight : Fact :=
  { id := "a", subject := "user", what := "80 kg", whenDate := "2024-03-01" }

def januaryWeight : Fact :=
  { id := "b", subject := "user", what := "80 kg", whenDate := "2024-01-01"
    mentionedAt := "2024-06-01" }

def weights : FactStore :=
  FactStore.empty.storeFacts none [marchWeight, januaryWeight]

/-- The guard keeps the later fact from being replaced. -/
theorem inOrder_weights :
    TurnsInOrder agreeable { enabled := true } false none [januaryWeight]
      weights :=
  (supersession_inOrder_iff agreeable { enabled := true } String.toLower none
    [januaryWeight] weights).2.1 (by simp [CacheCurrent])

/-- With graph links, and as a duplicate, the later fact is replaced. -/
theorem superseded_by_earlier :
    ¬ (checkAndLink agreeable { enabled := true } true [januaryWeight]
        { store := weights }).InOrder weights ∧
      ¬ (dedupFacts String.toLower weights).InOrder weights := by
  decide +kernel

end VirtualContext
