import VirtualContext.Ingest.SupersessionTurns

/-!
# Facts of different conversations

The queries of a supersession run name no conversation, so they return the facts
of all.  Only when none of them meets a fact of another conversation does a run
leave those alone and do to its own what it would do without the others.
-/

namespace VirtualContext

open VirtualContext.Library

/-! ## The facts of one conversation -/

namespace FactStore

/-- The store of one conversation alone. -/
def only (conversationId : ConversationId) (s : FactStore) : FactStore where
  rows := s.rows.filter (·.conversationId = conversationId)
  links := s.links.filter fun link =>
    [link.sourceFactId, link.targetFactId] ⊆
      (s.rows.filter (·.conversationId = conversationId)).map (·.id)
  primaryKey := s.primaryKey.sublist (List.filter_sublist.map _)
  foreignKeys := by
    intro link hlink
    have := of_decide_eq_true (List.mem_filter.mp hlink).2
    exact ⟨this (by simp), this (by simp)⟩

/-- The id of a fact of another conversation. -/
def Foreign (conversationId : ConversationId) (s : FactStore) (id : String) :
    Prop :=
  ∃ row ∈ s.rows, row.conversationId ≠ conversationId ∧ row.id = id

/--
Two stores agree: the one has the other conversations' facts of `s` and the facts
of the other one.
-/
structure Agrees (conversationId : ConversationId) (s store alone : FactStore) :
    Prop where
  others : store.rows.filter (·.conversationId ≠ conversationId) =
    s.rows.filter (·.conversationId ≠ conversationId)
  own : store.rows.filter (·.conversationId = conversationId) = alone.rows

variable {conversationId : ConversationId} {s store alone : FactStore}

theorem agrees_only : Agrees conversationId s s (s.only conversationId) :=
  ⟨rfl, rfl⟩

namespace Agrees

variable (h : Agrees conversationId s store alone)

include h in
theorem mem_foreign {row : Fact} (hne : row.conversationId ≠ conversationId) :
    row ∈ store.rows ↔ row ∈ s.rows := by
  have := congrArg (row ∈ ·) h.others
  simpa [hne] using this

include h in
theorem mem_own {row : Fact} :
    row ∈ alone.rows ↔ row ∈ store.rows ∧ row.conversationId = conversationId := by
  rw [← h.own]
  simp

include h in
theorem not_foreign {row : Fact} (hrow : row ∈ store.rows)
    (hconv : row.conversationId = conversationId) :
    ¬ s.Foreign conversationId row.id := by
  rintro ⟨other, hother, hne, hid⟩
  have hsame := List.inj_on_of_nodup_map store.primaryKey
    ((h.mem_foreign hne).mpr hother) hrow hid
  exact hne (hsame ▸ hconv)

include h in
/-- An id that no other conversation has is stored in both or in none. -/
theorem mem_ids_iff {id : String} (hid : ¬ s.Foreign conversationId id) :
    id ∈ store.rows.map (·.id) ↔ id ∈ alone.rows.map (·.id) := by
  constructor
  · intro hmem
    obtain ⟨row, hrow, rfl⟩ := List.mem_map.mp hmem
    by_cases hconv : row.conversationId = conversationId
    · exact List.mem_map_of_mem (h.mem_own.mpr ⟨hrow, hconv⟩)
    · exact absurd ⟨row, (h.mem_foreign hconv).mp hrow, hconv, rfl⟩ hid
  · intro hmem
    obtain ⟨row, hrow, rfl⟩ := List.mem_map.mp hmem
    exact List.mem_map_of_mem (h.mem_own.mp hrow).1

include h in
/-- A query that selects no fact of another conversation. -/
theorem queryFacts {query : FactQuery}
    (hforeign : ∀ row ∈ s.rows, row.conversationId ≠ conversationId →
      query.selects row = false) :
    store.queryFacts query = alone.queryFacts query := by
  unfold FactStore.queryFacts
  rw [← h.own, List.filter_filter]
  congr 2
  apply List.filter_congr
  intro row hrow
  by_cases hconv : row.conversationId = conversationId
  · simp [hconv]
  · simp [hconv, hforeign row ((h.mem_foreign hconv).mp hrow) hconv]

include h in
/-- A query whose limit cuts nothing off. -/
theorem filter_queryFacts {query : FactQuery}
    (hcount : (store.rows.countP (query.selects ·) : Int) ≤ query.limit) :
    (store.queryFacts query).filter (·.conversationId = conversationId) =
      alone.queryFacts query := by
  have hall {rows : List Fact} (hrows : (rows.length : Int) ≤ query.limit) :
      limitRows query.limit (lastMentioned rows) = lastMentioned rows := by
    unfold limitRows
    split_ifs
    · rfl
    · apply List.take_of_length_le
      rw [lastMentioned, length_orderBy]
      omega
  have hown : ((store.rows.filter (·.conversationId = conversationId)).filter
      (query.selects ·)).length ≤ store.rows.countP (query.selects ·) := by
    rw [List.filter_comm, List.countP_eq_length_filter]
    exact List.length_filter_le _ _
  unfold FactStore.queryFacts
  rw [← h.own, hall (by rwa [← List.countP_eq_length_filter]), hall (by omega),
    lastMentioned, orderBy, filter_insertionSort, List.filter_comm]
  rfl

include h in
/-- A change that leaves the facts of other conversations alone. -/
theorem updateRows {f : Fact → Fact} {hid : ∀ row, (f row).id = row.id}
    (hconv : ∀ row, (f row).conversationId = row.conversationId)
    (hforeign : ∀ row ∈ s.rows, row.conversationId ≠ conversationId →
      f row = row) :
    Agrees conversationId s (store.updateRows f hid) (alone.updateRows f hid)
      where
  others := by
    change (store.rows.map f).filter _ = _
    rw [List.filter_map]
    simp only [Function.comp_def, hconv]
    rw [h.others]
    refine (List.map_congr_left fun row hrow => ?_).trans (List.map_id _)
    obtain ⟨hmem, hne⟩ := List.mem_filter.mp hrow
    exact hforeign row hmem (of_decide_eq_true hne)
  own := by
    change (store.rows.map f).filter _ = alone.rows.map f
    rw [List.filter_map]
    simp only [Function.comp_def, hconv]
    rw [h.own]

include h in
theorem setFactSuperseded {oldFactId newFactId : String}
    (hid : ¬ s.Foreign conversationId oldFactId) :
    Agrees conversationId s (store.setFactSuperseded oldFactId newFactId)
      (alone.setFactSuperseded oldFactId newFactId) := by
  apply h.updateRows
  · intro row
    unfold supersedeRow
    split_ifs <;> rfl
  · intro row hrow hne
    refine if_neg fun heq => ?_
    exact hid ⟨row, hrow, hne, heq⟩

include h in
theorem updateFactFields {factId : String} {fields : Fields}
    (hid : ¬ s.Foreign conversationId factId) :
    Agrees conversationId s (store.updateFactFields factId fields)
      (alone.updateFactFields factId fields) := by
  apply h.updateRows
  · intro row
    unfold rewriteRow
    split_ifs <;> rfl
  · intro row hrow hne
    refine if_neg fun heq => ?_
    exact hid ⟨row, hrow, hne, heq⟩

end Agrees

end FactStore

/-! ## What a run reads of other conversations -/

/--
No query of the run meets a fact of another conversation, and no limit that
counts them takes effect: none of them is planned and past its date, none is a
candidate for a new fact, and none is in the cache with a subject of a new fact.
-/
structure ReadsOwn (conversationId : ConversationId) (env : CheckerEnv)
    (config : SupersessionConfig) (graphLinks : Bool)
    (cache : Option (List Fact)) (newFacts : List Fact) (s : FactStore) :
    Prop where
  planned : ∀ row ∈ s.rows, row.conversationId ≠ conversationId →
    plannedQuery.selects row = true →
      ∀ date ∈ parseDateForComparison row.whenDate, env.today ≤ date
  plannedCount : s.rows.countP (plannedQuery.selects ·) ≤ 10000
  tagged : ∀ fact ∈ newFacts, fact.subject ≠ "" → ∀ row ∈ s.rows,
    row.conversationId ≠ conversationId →
      (tagQuery config fact).selects row = false
  similar : graphLinks = false → ∀ fact ∈ newFacts, fact.subject ≠ "" →
    fact.tags ≠ [] → ∀ keyword ∈ extractObjectKeyword fact.object,
      ∀ row ∈ s.rows, row.conversationId ≠ conversationId →
        (objectQuery config fact keyword).selects row = false
  embedded : graphLinks = false → env.embed.isSome → cache = none →
    ∀ fact ∈ newFacts, ∀ row ∈ s.rows, row.conversationId ≠ conversationId →
      allFactsQuery.selects row = true →
        env.text.lower row.subject ≠ env.text.lower fact.subject
  embeddedCount : graphLinks = false → env.embed.isSome → cache = none →
    s.rows.countP (allFactsQuery.selects ·) ≤ 10000
  cached : ∀ facts ∈ cache, ∀ other ∈ facts,
    (other.conversationId = conversationId →
      ¬ s.Foreign conversationId other.id) ∧
    (other.conversationId ≠ conversationId → ∀ fact ∈ newFacts,
      env.text.lower other.subject ≠ env.text.lower fact.subject)

/-- The cached facts of the conversation. -/
def ownCache (conversationId : ConversationId) (cache : Option (List Fact)) :
    Option (List Fact) :=
  cache.map (·.filter (·.conversationId = conversationId))

/-- A run over all conversations and one over a single one that go alike. -/
structure RunsAgree (conversationId : ConversationId) (s : FactStore)
    (run alone : CheckerRun) : Prop where
  store : s.Agrees conversationId run.store alone.store
  prompts : alone.prompts = run.prompts
  superseded : alone.superseded = run.superseded
  raised : alone.raised = run.raised
  cache : alone.allFactsCache = ownCache conversationId run.allFactsCache

variable {conversationId : ConversationId} {env : CheckerEnv}
  {config : SupersessionConfig} {graphLinks : Bool} {newFacts : List Fact}
  {s : FactStore} {run alone : CheckerRun} {fact : Fact}

namespace RunsAgree

variable (h : RunsAgree conversationId s run alone)

include h in
theorem complete (env : CheckerEnv) (prompt : Prompt) :
    (alone.complete env prompt).1 = (run.complete env prompt).1 ∧
      RunsAgree conversationId s (run.complete env prompt).2
        (alone.complete env prompt).2 := by
  unfold CheckerRun.complete
  refine ⟨by rw [h.prompts], h.store, ?_, h.superseded, h.raised, h.cache⟩
  rw [h.prompts]

include h in
variable (fact) in
theorem supersedeAll {oldIds : List String}
    (hids : ∀ oldId ∈ oldIds, ¬ s.Foreign conversationId oldId) :
    RunsAgree conversationId s (run.supersedeAll fact oldIds)
      (alone.supersedeAll fact oldIds) := by
  induction oldIds generalizing run alone with
  | nil => exact h
  | cons oldId oldIds ih =>
      refine ih ⟨?_, h.prompts, ?_, h.raised, h.cache⟩ fun other hother =>
        hids other (List.mem_cons_of_mem _ hother)
      · exact h.store.setFactSuperseded (hids oldId (by simp))
      · change alone.superseded ++ _ = run.superseded ++ _
        rw [h.superseded]

include h in
theorem storeLinks {links : List FactLink}
    (hlinks : ∀ link ∈ links, ¬ s.Foreign conversationId link.sourceFactId ∧
      ¬ s.Foreign conversationId link.targetFactId) :
    RunsAgree conversationId s (run.storeLinks links)
      (alone.storeLinks links) := by
  have hiff : (∀ link ∈ links, link.sourceFactId ∈ run.store.rows.map (·.id) ∧
        link.targetFactId ∈ run.store.rows.map (·.id)) ↔
      ∀ link ∈ links, link.sourceFactId ∈ alone.store.rows.map (·.id) ∧
        link.targetFactId ∈ alone.store.rows.map (·.id) := by
    refine forall₂_congr fun link hlink => ?_
    rw [h.store.mem_ids_iff (hlinks link hlink).1,
      h.store.mem_ids_iff (hlinks link hlink).2]
  unfold CheckerRun.storeLinks FactStore.storeFactLinks
  by_cases hstored : ∀ link ∈ links,
      link.sourceFactId ∈ run.store.rows.map (·.id) ∧
        link.targetFactId ∈ run.store.rows.map (·.id)
  · rw [dif_pos hstored, dif_pos (hiff.mp hstored)]
    exact ⟨⟨h.store.others, h.store.own⟩, h.prompts, h.superseded, h.raised,
      h.cache⟩
  · rw [dif_neg hstored, dif_neg (mt hiff.mpr hstored)]
    exact ⟨h.store, h.prompts, h.superseded, rfl, h.cache⟩

end RunsAgree

/-! ## Promotion -/

theorem RunsAgree.promoteFact (h : RunsAgree conversationId s run alone)
    (hid : ¬ s.Foreign conversationId fact.id) :
    RunsAgree conversationId s (promoteFact env run fact)
      (VirtualContext.promoteFact env alone fact) := by
  unfold VirtualContext.promoteFact
  split
  · exact h
  · rw [h.raised]
    split_ifs
    · exact h
    · obtain ⟨hreply, hrun⟩ := h.complete env
        (.promote fact.subject fact.verb fact.object fact.who fact.what
          fact.whenDate env.today)
      dsimp only
      rw [hreply]
      split
      · exact ⟨hrun.store.updateFactFields hid, hrun.prompts, hrun.superseded,
          rfl, hrun.cache⟩
      · exact ⟨hrun.store, hrun.prompts, hrun.superseded, rfl, hrun.cache⟩

theorem promoteFact_of_not_due
    (hdue : ∀ date ∈ parseDateForComparison fact.whenDate, env.today ≤ date) :
    promoteFact env run fact = run := by
  unfold promoteFact
  cases hdate : parseDateForComparison fact.whenDate with
  | none => rfl
  | some date => simp [hdue date hdate]

theorem promotePlannedFacts_agree (hrun : run.store = s)
    (h : RunsAgree conversationId s run alone)
    (hdue : ∀ row ∈ s.rows, row.conversationId ≠ conversationId →
      plannedQuery.selects row = true →
        ∀ date ∈ parseDateForComparison row.whenDate, env.today ≤ date)
    (hcount : s.rows.countP (plannedQuery.selects ·) ≤ 10000) :
    RunsAgree conversationId s (promotePlannedFacts env run)
      (promotePlannedFacts env alone) := by
  have hplanned : plannedFacts alone.store =
      (plannedFacts run.store).filter (·.conversationId = conversationId) := by
    refine (h.store.filter_queryFacts ?_).symm
    rw [hrun]
    exact Int.ofNat_le.mpr hcount
  have hstored : ∀ fact ∈ plannedFacts run.store,
      fact ∈ s.rows ∧ plannedQuery.selects fact = true := by
    rw [hrun]
    exact fun _ => FactStore.mem_of_mem_queryFacts
  unfold promotePlannedFacts
  rw [hplanned]
  clear hplanned
  generalize plannedFacts run.store = planned at hstored
  clear hrun
  induction planned generalizing run alone with
  | nil => exact h
  | cons fact planned ih =>
      obtain ⟨hmem, hselected⟩ := hstored fact (by simp)
      have hrest : ∀ fact ∈ planned,
          fact ∈ s.rows ∧ plannedQuery.selects fact = true :=
        fun other hother => hstored other (List.mem_cons_of_mem _ hother)
      by_cases hconv : fact.conversationId = conversationId
      · rw [List.filter_cons_of_pos (by simpa using hconv)]
        refine ih (h.promoteFact ?_) hrest
        exact FactStore.agrees_only.not_foreign hmem hconv
      · rw [List.filter_cons_of_neg (by simpa using hconv), List.foldl_cons,
          promoteFact_of_not_due (hdue fact hmem hconv hselected)]
        exact ih h hrest

/-! ## Turns with graph links -/

/-- The new fact or one of the candidates. -/
def IsParty (newFact : Fact) (candidates : List Fact) (id : String) : Prop :=
  id = newFact.id ∨ ∃ candidate ∈ candidates, candidate.id = id

theorem isParty_of_resolveRef {text : TextFunctions} {candidates : List Fact}
    {ref id : String} (h : resolveRef text fact candidates ref = some id) :
    IsParty fact candidates id := by
  unfold resolveRef at h
  dsimp only at h
  split_ifs at h
  · exact .inl (Option.some.inj h).symm
  · split at h
    · split at h
      · obtain ⟨candidate, hcandidate, rfl⟩ := Option.map_eq_some_iff.mp h
        exact .inr ⟨candidate, List.mem_of_getElem? hcandidate, rfl⟩
      · cases h
    · cases h

theorem isParty_of_parseLink {text : TextFunctions} {candidates : List Fact}
    {entry : Json} {link : FactLink}
    (h : parseLink text fact candidates entry = some (some link)) :
    IsParty fact candidates link.sourceFactId ∧
      IsParty fact candidates link.targetFactId := by
  unfold parseLink at h
  split at h
  · dsimp only at h
    split at h
    · split_ifs at h
      · split at h
        · rename_i hsource htarget
          split_ifs at h
          · cases h
          · split at h
            · cases h
            · obtain rfl := Option.some.inj (Option.some.inj h)
              exact ⟨isParty_of_resolveRef hsource, isParty_of_resolveRef htarget⟩
        · cases h
      · cases h
    · cases h
  · cases h

theorem isParty_of_parseLinks {text : TextFunctions} {candidates : List Fact}
    {entries : List Json} {links : List FactLink}
    (h : parseLinks text fact candidates entries = some links) :
    ∀ link ∈ links, IsParty fact candidates link.sourceFactId ∧
      IsParty fact candidates link.targetFactId := by
  induction entries generalizing links with
  | nil =>
      obtain rfl := Option.some.inj h
      simp
  | cons entry entries ih =>
      rw [parseLinks] at h
      obtain ⟨first, hfirst, h⟩ := Option.bind_eq_some_iff.mp h
      obtain ⟨rest, hrest, h⟩ := Option.bind_eq_some_iff.mp h
      obtain rfl := Option.some.inj h
      intro link hlink
      rcases List.mem_append.mp hlink with hlink | hlink
      · rw [Option.mem_toList] at hlink
        exact isParty_of_parseLink (hfirst.trans (congrArg some hlink))
      · exact ih hrest link hlink

theorem isParty_of_linksInReply {text : TextFunctions} {candidates : List Fact}
    {reply : Option Json} {links : List FactLink}
    (h : linksInReply text fact candidates reply = some links) :
    ∀ link ∈ links, IsParty fact candidates link.sourceFactId ∧
      IsParty fact candidates link.targetFactId := by
  unfold linksInReply at h
  split at h
  · exact isParty_of_parseLinks h
  · obtain rfl := Option.some.inj h
    simp

theorem linkFact_agree (h : RunsAgree conversationId s run alone)
    (hown : ¬ s.Foreign conversationId fact.id)
    (htagged : fact.subject ≠ "" → ∀ row ∈ s.rows,
      row.conversationId ≠ conversationId →
        (tagQuery config fact).selects row = false) :
    RunsAgree conversationId s (linkFact env config run fact)
      (linkFact env config alone fact) := by
  unfold linkFact
  rw [h.raised]
  split_ifs with hskip
  · exact h
  have hsubject : fact.subject ≠ "" := by
    intro heq
    simp [heq] at hskip
  have htag : tagCandidates config fact alone.store =
      tagCandidates config fact run.store :=
    (h.store.queryFacts (htagged hsubject)).symm
  have hsame : linkCandidates config fact alone.store =
      linkCandidates config fact run.store := by
    rw [linkCandidates, htag]
    rfl
  have hcandidate : ∀ candidate ∈ linkCandidates config fact run.store,
      ¬ s.Foreign conversationId candidate.id := by
    intro candidate hmem
    rw [← hsame] at hmem
    have hrow := (FactStore.mem_of_mem_queryFacts (List.mem_filter.mp hmem).1).1
    obtain ⟨hstored, hconv⟩ := h.store.mem_own.mp hrow
    exact h.store.not_foreign hstored hconv
  have hparty : ∀ id, IsParty fact (linkCandidates config fact run.store) id →
      ¬ s.Foreign conversationId id := by
    rintro id (rfl | ⟨candidate, hmem, rfl⟩)
    · exact hown
    · exact hcandidate candidate hmem
  rw [hsame]
  dsimp only
  generalize linkCandidates config fact run.store = candidates at *
  split_ifs with hempty
  · exact h
  have hnamed (reply : Option Json) (oldId : String)
      (hold : oldId ∈ supersededInReply candidates reply) :
      ¬ s.Foreign conversationId oldId := by
    obtain ⟨candidate, hmem, rfl⟩ := mem_of_mem_supersededInReply hold
    exact hcandidate candidate hmem
  generalize Prompt.checkLinks _ _ = prompt
  obtain ⟨hreply, hrun⟩ := h.complete env prompt
  rw [hreply]
  generalize (run.complete env prompt).1 = reply
  cases hlinks : linksInReply env.text fact candidates reply with
  | none => exact hrun
  | some links =>
      have hsuperseded := hrun.supersedeAll fact (hnamed reply)
      dsimp only
      split_ifs
      · exact hsuperseded
      · refine hsuperseded.storeLinks fun link hlink => ?_
        obtain ⟨hsource, htarget⟩ := isParty_of_linksInReply hlinks link hlink
        exact ⟨hparty _ hsource, hparty _ htarget⟩

/-! ## Turns without graph links -/

/-- The cache, once it is filled, has what the run started with or the rows. -/
structure PoolOwn (conversationId : ConversationId) (env : CheckerEnv)
    (newFacts : List Fact) (s : FactStore) (run : CheckerRun) : Prop where
  cached : ∀ facts ∈ run.allFactsCache, ∀ other ∈ facts,
    (other.conversationId = conversationId →
      ¬ s.Foreign conversationId other.id) ∧
    (other.conversationId ≠ conversationId → ∀ fact ∈ newFacts,
      env.text.lower other.subject ≠ env.text.lower fact.subject)
  fresh : env.embed.isSome → run.allFactsCache = none →
    (∀ fact ∈ newFacts, ∀ row ∈ s.rows, row.conversationId ≠ conversationId →
      allFactsQuery.selects row = true →
        env.text.lower row.subject ≠ env.text.lower fact.subject) ∧
    run.store.rows.countP (allFactsQuery.selects ·) ≤ 10000

theorem getAllFacts_agree (h : RunsAgree conversationId s run alone)
    (hpool : PoolOwn conversationId env newFacts s run)
    (hembed : env.embed.isSome) :
    alone.getAllFacts.1 = run.getAllFacts.1.filter
        (·.conversationId = conversationId) ∧
      RunsAgree conversationId s run.getAllFacts.2 alone.getAllFacts.2 ∧
      PoolOwn conversationId env newFacts s run.getAllFacts.2 ∧
      run.getAllFacts.2.allFactsCache = some run.getAllFacts.1 := by
  have hcache := h.cache
  unfold CheckerRun.getAllFacts
  cases hrun : run.allFactsCache with
  | some facts =>
      rw [hrun] at hcache
      rw [hcache]
      exact ⟨rfl, h, hpool, hrun⟩
  | none =>
      rw [hrun] at hcache
      rw [hcache]
      obtain ⟨hforeign, hcount⟩ := hpool.fresh hembed hrun
      have hfilter : (run.store.queryFacts allFactsQuery).filter
            (·.conversationId = conversationId) =
          alone.store.queryFacts allFactsQuery :=
        h.store.filter_queryFacts (Int.ofNat_le.mpr hcount)
      refine ⟨hfilter.symm, ⟨h.store, h.prompts, h.superseded, h.raised, ?_⟩,
        ⟨?_, fun _ hnone => by cases hnone⟩, rfl⟩
      · exact congrArg some hfilter.symm
      · rintro _ hfacts other hother
        obtain rfl := Option.mem_some_iff.mp hfacts
        obtain ⟨hmem, hselected⟩ := FactStore.mem_of_mem_queryFacts hother
        refine ⟨h.store.not_foreign hmem, fun hne fact hfact => ?_⟩
        exact hforeign fact hfact other ((h.store.mem_foreign hne).mp hmem) hne
          hselected

theorem embeddingCandidates_agree (h : RunsAgree conversationId s run alone)
    (hpool : PoolOwn conversationId env newFacts s run) (hnew : fact ∈ newFacts)
    (seen : List String) :
    (alone.embeddingCandidates env fact seen).1 =
        (run.embeddingCandidates env fact seen).1 ∧
      RunsAgree conversationId s (run.embeddingCandidates env fact seen).2
        (alone.embeddingCandidates env fact seen).2 ∧
      PoolOwn conversationId env newFacts s
        (run.embeddingCandidates env fact seen).2 ∧
      ∀ other ∈ (run.embeddingCandidates env fact seen).1,
        ¬ s.Foreign conversationId other.id := by
  unfold CheckerRun.embeddingCandidates
  cases hembed : env.embed with
  | none => exact ⟨rfl, h, hpool, by simp⟩
  | some embed =>
      dsimp only
      by_cases hblank : pyStrip fact.embeddingText = ""
      · rw [if_pos hblank, if_pos hblank]
        exact ⟨rfl, h, hpool, by simp⟩
      rw [if_neg hblank, if_neg hblank]
      obtain ⟨hall, hruns, hpools, hcache⟩ :=
        getAllFacts_agree h hpool (by rw [hembed]; rfl)
      have hcached := hpools.cached _ hcache
      have hown : ∀ other ∈ run.getAllFacts.1,
          inEmbeddingPool env.text fact seen other = true →
            other.conversationId = conversationId := by
        intro other hother hin
        by_contra hne
        refine (hcached other hother).2 hne fact hnew ?_
        simp only [inEmbeddingPool, Bool.and_eq_true, decide_eq_true_eq] at hin
        exact hin.2
      have hsame : alone.getAllFacts.1.filter
            (inEmbeddingPool env.text fact seen) =
          run.getAllFacts.1.filter (inEmbeddingPool env.text fact seen) := by
        rw [hall, List.filter_filter]
        apply List.filter_congr
        intro other hother
        cases hin : inEmbeddingPool env.text fact seen other with
        | false => rfl
        | true => simp [hown other hother hin]
      rw [hsame]
      refine ⟨rfl, hruns, hpools, fun other hother => ?_⟩
      obtain ⟨i, -, hi⟩ := List.mem_filterMap.mp (List.mem_of_mem_take hother)
      obtain ⟨hmem, hin⟩ := List.mem_filter.mp (List.mem_of_getElem? hi)
      exact (hcached other hmem).1 (hown other hmem hin)

theorem objectCandidates_agree {text : TextFunctions}
    (h : RunsAgree conversationId s run alone)
    (hsimilar : fact.tags ≠ [] → ∀ keyword ∈ extractObjectKeyword fact.object,
      ∀ row ∈ s.rows, row.conversationId ≠ conversationId →
        (objectQuery config fact keyword).selects row = false) :
    objectCandidates text config fact alone.store =
      objectCandidates text config fact run.store := by
  unfold objectCandidates
  cases hkeyword : extractObjectKeyword fact.object with
  | none => rfl
  | some keyword =>
      dsimp only
      split_ifs with htags
      · rfl
      · rw [h.store.queryFacts (hsimilar (by simpa using htags) keyword hkeyword)]

theorem candidates_agree (h : RunsAgree conversationId s run alone)
    (hpool : PoolOwn conversationId env newFacts s run) (hnew : fact ∈ newFacts)
    (htagged : ∀ row ∈ s.rows, row.conversationId ≠ conversationId →
      (tagQuery config fact).selects row = false)
    (hsimilar : fact.tags ≠ [] → ∀ keyword ∈ extractObjectKeyword fact.object,
      ∀ row ∈ s.rows, row.conversationId ≠ conversationId →
        (objectQuery config fact keyword).selects row = false) :
    (alone.candidates env config fact).1 = (run.candidates env config fact).1 ∧
      RunsAgree conversationId s (run.candidates env config fact).2
        (alone.candidates env config fact).2 ∧
      PoolOwn conversationId env newFacts s
        (run.candidates env config fact).2 ∧
      ∀ other ∈ (run.candidates env config fact).1,
        ¬ s.Foreign conversationId other.id := by
  have htag : tagCandidates config fact alone.store =
      tagCandidates config fact run.store := (h.store.queryFacts htagged).symm
  have hobject : objectCandidates env.text config fact alone.store =
      objectCandidates env.text config fact run.store :=
    objectCandidates_agree h hsimilar
  have hrow : ∀ other ∈ alone.store.rows, ¬ s.Foreign conversationId other.id := by
    intro other hother
    obtain ⟨hstored, hconv⟩ := h.store.mem_own.mp hother
    exact h.store.not_foreign hstored hconv
  unfold CheckerRun.candidates
  dsimp only
  obtain ⟨hsame, hruns, hpools, hembedded⟩ := embeddingCandidates_agree h hpool
    hnew ((tagCandidates config fact run.store ++
      (objectCandidates env.text config fact run.store).filter
        (·.id ∉ (tagCandidates config fact run.store).map (·.id))).map (·.id))
  rw [htag, hobject, hsame]
  refine ⟨?_, hruns, hpools, fun other hother => ?_⟩
  · unfold CheckerRun.supersededIds
    rw [hruns.superseded]
  · rcases List.mem_append.mp (List.mem_filter.mp hother).1 with hfound | hembed
    · rcases List.mem_append.mp hfound with htagged | hsimilar
      · rw [← htag] at htagged
        exact hrow other (FactStore.mem_of_mem_queryFacts htagged).1
      · rw [← hobject] at hsimilar
        exact hrow other
          (objectCandidates_subset (List.mem_filter.mp hsimilar).1)
    · exact hembedded other hembed

theorem allFactsQuery_selects (row : Fact) :
    allFactsQuery.selects row = row.supersededBy.isNone := by
  simp [allFactsQuery, FactQuery.selects, FactQuery.matchesVerb]

/-- No fact becomes live. -/
theorem countP_setFactSuperseded_le (oldFactId newFactId : String) :
    (s.setFactSuperseded oldFactId newFactId).rows.countP
        (allFactsQuery.selects ·) ≤ s.rows.countP (allFactsQuery.selects ·) := by
  change (s.rows.map _).countP _ ≤ _
  rw [List.countP_map]
  apply List.countP_mono_left
  intro row _ hlive
  simp only [Function.comp_apply, allFactsQuery_selects,
    FactStore.supersedeRow] at hlive ⊢
  split_ifs at hlive
  · cases hlive
  · exact hlive

theorem countP_updateFactFields_le (factId : String)
    (fields : FactStore.Fields) :
    (s.updateFactFields factId fields).rows.countP (allFactsQuery.selects ·) ≤
      s.rows.countP (allFactsQuery.selects ·) := by
  change (s.rows.map _).countP _ ≤ _
  rw [List.countP_map]
  apply List.countP_mono_left
  intro row _ hlive
  simp only [Function.comp_apply, allFactsQuery_selects, FactStore.rewriteRow]
    at hlive ⊢
  split_ifs at hlive <;> exact hlive

theorem PoolOwn.supersedeAll (h : PoolOwn conversationId env newFacts s run)
    (oldIds : List String) :
    PoolOwn conversationId env newFacts s (run.supersedeAll fact oldIds) where
  cached := by
    rw [CheckerRun.supersedeAll_cache]
    exact h.cached
  fresh := by
    intro hembed hcache
    rw [CheckerRun.supersedeAll_cache] at hcache
    refine ⟨(h.fresh hembed hcache).1, Nat.le_trans ?_ (h.fresh hembed hcache).2⟩
    rw [CheckerRun.supersedeAll_store]
    generalize run.store = store
    induction oldIds generalizing store with
    | nil => exact Nat.le_refl _
    | cons oldId oldIds ih =>
        exact Nat.le_trans (ih _) (countP_setFactSuperseded_le _ _)

theorem checkFact_agree (h : RunsAgree conversationId s run alone)
    (hpool : PoolOwn conversationId env newFacts s run) (hnew : fact ∈ newFacts)
    (htagged : fact.subject ≠ "" → ∀ row ∈ s.rows,
      row.conversationId ≠ conversationId →
        (tagQuery config fact).selects row = false)
    (hsimilar : fact.subject ≠ "" → fact.tags ≠ [] →
      ∀ keyword ∈ extractObjectKeyword fact.object,
        ∀ row ∈ s.rows, row.conversationId ≠ conversationId →
          (objectQuery config fact keyword).selects row = false) :
    RunsAgree conversationId s (checkFact env config run fact)
        (checkFact env config alone fact) ∧
      PoolOwn conversationId env newFacts s (checkFact env config run fact) := by
  unfold checkFact
  rw [h.raised, show alone.supersededIds = run.supersededIds by
    rw [CheckerRun.supersededIds, h.superseded]; rfl]
  by_cases hskip : run.raised || fact.id ∈ run.supersededIds || fact.subject = ""
  · rw [if_pos hskip, if_pos hskip]
    exact ⟨h, hpool⟩
  rw [if_neg hskip, if_neg hskip]
  have hsubject : fact.subject ≠ "" := by
    intro heq
    simp [heq] at hskip
  obtain ⟨hsame, hruns, hpools, hcandidate⟩ := candidates_agree h hpool hnew
    (htagged hsubject) (hsimilar hsubject)
  dsimp only
  rw [hsame]
  generalize (run.candidates env config fact).1 = candidates at hcandidate
  generalize (run.candidates env config fact).2 = run' at *
  generalize (alone.candidates env config fact).2 = alone' at *
  by_cases hempty : candidates.isEmpty
  · rw [if_pos hempty, if_pos hempty]
    exact ⟨hruns, hpools⟩
  rw [if_neg hempty, if_neg hempty]
  generalize Prompt.checkBatch _ _ = prompt
  obtain ⟨hreply, hasked⟩ := hruns.complete env prompt
  rw [hreply]
  generalize (run'.complete env prompt).1 = reply
  refine ⟨hasked.supersedeAll fact fun oldId hold => ?_, ?_⟩
  · obtain ⟨candidate, hmem, rfl⟩ := mem_of_mem_safeIds hold
    exact hcandidate candidate hmem
  · have hpool' : PoolOwn conversationId env newFacts s
        (run'.complete env prompt).2 := ⟨hpools.cached, hpools.fresh⟩
    exact hpool'.supersedeAll _

/-! ## Runs -/

theorem turns_agree {cache : Option (List Fact)} {facts : List Fact}
    (hread : ReadsOwn conversationId env config graphLinks cache newFacts s)
    (hown : ∀ fact ∈ newFacts, ¬ s.Foreign conversationId fact.id)
    (h : RunsAgree conversationId s run alone)
    (hpool : graphLinks = false → PoolOwn conversationId env newFacts s run)
    (hsub : facts ⊆ newFacts) :
    RunsAgree conversationId s
      (facts.foldl (factTurn env config graphLinks) run)
      (facts.foldl (factTurn env config graphLinks) alone) := by
  induction facts generalizing run alone with
  | nil => exact h
  | cons fact facts ih =>
      have hnew : fact ∈ newFacts := hsub (by simp)
      have hrest : facts ⊆ newFacts := fun other hother =>
        hsub (List.mem_cons_of_mem _ hother)
      rw [List.foldl_cons, List.foldl_cons]
      cases graphLinks with
      | true =>
          refine ih ?_ (fun hfalse => by cases hfalse) hrest
          exact linkFact_agree h (hown fact hnew) (hread.tagged fact hnew)
      | false =>
          obtain ⟨hafter, hpoolAfter⟩ := checkFact_agree h (hpool rfl) hnew
            (hread.tagged fact hnew) (hread.similar rfl fact hnew)
          exact ih hafter (fun _ => hpoolAfter) hrest

/-- `check_and_link` through a view; the first write of a stale view raises. -/
def viewCheckAndLink (generationCurrent : Bool) (env : CheckerEnv)
    (config : SupersessionConfig) (graphLinks : Bool) (newFacts : List Fact)
    (cache : Option (List Fact)) (s : FactStore) : FactStore :=
  if generationCurrent then
    (checkAndLink env config graphLinks newFacts
      { store := s, allFactsCache := cache }).store
  else s

/--
A run leaves the rows of other conversations, and its own rows are those that it
makes of them without the others.
-/
structure Isolates (conversationId : ConversationId)
    (runOn : Option (List Fact) → FactStore → FactStore)
    (cache : Option (List Fact)) (s : FactStore) : Prop where
  others : (runOn cache s).rows.filter (·.conversationId ≠ conversationId) =
    s.rows.filter (·.conversationId ≠ conversationId)
  own : (runOn cache s).rows.filter (·.conversationId = conversationId) =
    (runOn (ownCache conversationId cache) (s.only conversationId)).rows

theorem FactStore.Agrees.isolates
    {runOn : Option (List Fact) → FactStore → FactStore}
    {cache : Option (List Fact)}
    (h : s.Agrees conversationId (runOn cache s)
      (runOn (ownCache conversationId cache) (s.only conversationId))) :
    Isolates conversationId runOn cache s := ⟨h.others, h.own⟩

def trip : Fact :=
  { id := "a", subject := "user", verb := "moved", object := "Rome"
    conversationId := "A" }

def otherTrip : Fact :=
  { id := "b", subject := "guest", verb := "moved", object := "Oslo"
    conversationId := "B" }

def plannedTrip : Fact :=
  { id := "c", subject := "user", verb := "plans", object := "Oslo"
    status := "planned", whenDate := "2024-05-01", conversationId := "B" }

end VirtualContext
