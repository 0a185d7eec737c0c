import Mathlib.Data.List.Dedup
import Mathlib.Data.List.Perm.Subperm
import Mathlib.Tactic.ByContra
import VirtualContext.Core.TemporalResolver

/-!
# Live facts in a window

Which stored facts keep what `remember_when` returns current, in the
conversation and dated in the window, whatever the scores are.
-/

namespace VirtualContext

open VirtualContext.Library

/-- A current fact of the configured conversation, dated in the window. -/
structure LiveInWindow (classes : CharClasses) (call : FactWindowCall) (fact : Fact) :
    Prop where
  current : fact.supersededBy = none
  own : ∀ conversationId ∈ call.conversation, fact.conversationId = conversationId
  dated : ∃ date, parseFactDate classes fact.dateText = some date ∧
    call.inWindow date = true

/-! ## Rows and the facts read from them -/

namespace ResolverEnv

variable {env : ResolverEnv} {s : FactStore} {call : FactWindowCall}

/-- The queries return a row as it is, or with the session date of its segment. -/
def Shows (env : ResolverEnv) (row fact : Fact) : Prop :=
  fact = row ∨ fact = env.withSessionDate row

@[simp] theorem withSessionDate_id (fact : Fact) :
    (env.withSessionDate fact).id = fact.id := by
  unfold withSessionDate
  split <;> rfl

@[simp] theorem withSessionDate_supersededBy (fact : Fact) :
    (env.withSessionDate fact).supersededBy = fact.supersededBy := by
  unfold withSessionDate
  split <;> rfl

@[simp] theorem withSessionDate_conversationId (fact : Fact) :
    (env.withSessionDate fact).conversationId = fact.conversationId := by
  unfold withSessionDate
  split <;> rfl

@[simp] theorem withSessionDate_segmentRef (fact : Fact) :
    (env.withSessionDate fact).segmentRef = fact.segmentRef := by
  unfold withSessionDate
  split <;> rfl

@[simp] theorem withSessionDate_whenDate (fact : Fact) :
    (env.withSessionDate fact).whenDate = fact.whenDate := by
  unfold withSessionDate
  split <;> rfl

namespace Shows

variable {row fact : Fact}

theorem id_eq (h : env.Shows row fact) : fact.id = row.id := by
  rcases h with rfl | rfl <;> simp

theorem supersededBy_eq (h : env.Shows row fact) :
    fact.supersededBy = row.supersededBy := by
  rcases h with rfl | rfl <;> simp

theorem conversationId_eq (h : env.Shows row fact) :
    fact.conversationId = row.conversationId := by
  rcases h with rfl | rfl <;> simp

theorem segmentRef_eq (h : env.Shows row fact) : fact.segmentRef = row.segmentRef := by
  rcases h with rfl | rfl <;> simp

theorem dateText_eq (h : env.Shows row fact) (hwhen : row.whenDate ≠ "") :
    fact.dateText = row.dateText := by
  have heq : fact.whenDate = row.whenDate := by rcases h with rfl | rfl <;> simp
  simp [Fact.dateText, heq, hwhen]

end Shows

/-- The facts that show a stored row. -/
def Stored (env : ResolverEnv) (s : FactStore) (fact : Fact) : Prop :=
  ∃ row ∈ s.rows, env.Shows row fact

theorem Stored.of_row {row : Fact} (h : row ∈ s.rows) : env.Stored s row :=
  ⟨row, h, .inl rfl⟩

/-- Two facts with one identifier show one row. -/
theorem Stored.row_eq {row fact : Fact} (hrow : row ∈ s.rows)
    (hfact : env.Stored s fact) (hid : fact.id = row.id) : env.Shows row fact := by
  obtain ⟨other, hother, hshows⟩ := hfact
  have heq : other = row :=
    List.inj_on_of_nodup_map s.primaryKey hother hrow (hshows.id_eq ▸ hid)
  exact heq ▸ hshows

/-! ## What the queries return -/

/-- The facts of the scan by date. -/
def scannedFacts (s : FactStore) (call : FactWindowCall) : List Fact :=
  s.queryExperienceFactsByDate call.startDate.isoformat call.endDate.isoformat
    call.scanLimit call.conversationId

/-- The facts of the searches that are dated in the window. -/
def matchedFacts (env : ResolverEnv) (s : FactStore) (call : FactWindowCall) :
    List Fact :=
  (call.searchVariants.flatMap fun variant =>
    env.searchFacts s variant.text call.variantLimit call.conversation).filter
      fun fact => (env.parsedDate fact).any call.inWindow

theorem mem_scannedFacts {fact : Fact} (h : fact ∈ scannedFacts s call) :
    fact ∈ s.rows ∧ fact.whenDate ≠ "" ∧
      ∀ conversationId ∈ call.conversation, fact.conversationId = conversationId := by
  have hmem := (mem_orderBy _).mp ((limitRows_sublist call.scanLimit _).subset h)
  obtain ⟨hrow, hscan⟩ := List.mem_filter.mp hmem
  simp only [FactStore.scansDate, Bool.and_eq_true, decide_eq_true_eq] at hscan
  obtain ⟨⟨hstart, -⟩, hconversation⟩ := hscan
  refine ⟨hrow, ?_, ?_⟩
  · intro hempty
    rw [hempty] at hstart
    simp only [Date.isoformat, String.toList_ofList, digits] at hstart
    exact absurd (List.nil_lt_cons _ _) (not_lt.mpr hstart)
  · intro conversationId hmem
    unfold FactWindowCall.conversation at hmem
    split_ifs at hmem with hconfigured
    · cases hmem
    · cases hmem
      exact (Bool.or_eq_true _ _ ▸ hconversation).elim
        (fun h => absurd (of_decide_eq_true h) hconfigured) of_decide_eq_true

theorem mem_searchFacts {query : String} {limit : Int} {fact : Fact}
    (h : fact ∈ env.searchFacts s query limit call.conversation) :
    env.Stored s fact ∧ fact.supersededBy = none ∧
      ∀ conversationId ∈ call.conversation, fact.conversationId = conversationId := by
  obtain ⟨row, hrow, rfl⟩ := List.mem_map.mp h
  have hmem := (limitRows_sublist limit _).subset hrow
  have hsearch : row ∈ s.rows ∧
      FactStore.searchesFact call.conversation row = true := by
    split at hmem
    · obtain ⟨hfound, hsearches⟩ := List.mem_filter.mp hmem
      obtain ⟨id, -, hid⟩ := List.mem_filterMap.mp hfound
      exact ⟨List.mem_of_find?_eq_some hid, hsearches⟩
    · obtain ⟨hstored, hlikes⟩ := List.mem_filter.mp ((mem_orderBy _).mp hmem)
      exact ⟨hstored, (Bool.and_eq_true _ _ ▸ hlikes).2⟩
  obtain ⟨hstored, hsearches⟩ := hsearch
  simp only [FactStore.searchesFact, Bool.and_eq_true, Option.isNone_iff_eq_none,
    Option.all_eq_true, decide_eq_true_eq] at hsearches
  exact ⟨⟨row, hstored, .inr rfl⟩, by simpa using hsearches.1, fun conversationId hmem => by
    simpa using hsearches.2 conversationId hmem⟩

theorem mem_matchedFacts {fact : Fact} (h : fact ∈ env.matchedFacts s call) :
    env.Stored s fact ∧ LiveInWindow env.classes call fact := by
  obtain ⟨hsearch, hdated⟩ := List.mem_filter.mp h
  obtain ⟨variant, -, hmem⟩ := List.mem_flatMap.mp hsearch
  obtain ⟨hstored, hcurrent, hown⟩ := mem_searchFacts hmem
  obtain ⟨date, hdate, hin⟩ := (Option.any_eq_true _ _).mp hdated
  exact ⟨hstored, hcurrent, hown, date, hdate, hin⟩

/-- A fact with the identifier of a live one is live, if the scan finds it. -/
theorem live_of_scanned {fact other : Fact} (hscan : fact ∈ scannedFacts s call)
    (hstored : env.Stored s other) (hid : other.id = fact.id)
    (hlive : LiveInWindow env.classes call other) :
    LiveInWindow env.classes call fact := by
  obtain ⟨hrow, hwhen, hown⟩ := mem_scannedFacts hscan
  have hshows := hstored.row_eq hrow hid
  refine ⟨hshows.supersededBy_eq ▸ hlive.current, hown, ?_⟩
  rw [← hshows.dateText_eq hwhen]
  exact hlive.dated

/-! ## Candidates -/

theorem hasQuerySignal_iff (item : FactCandidate) :
    hasQuerySignal item = true ↔
      (∃ term, term ∈ item.matchedTerms) ∨
        ∃ source ∈ item.sources, source ≠ .windowScan := by
  simp [hasQuerySignal, List.eq_nil_iff_forall_not_mem]

/--
What holds of the candidates: of every fact `P`, and of every identifier with a
query signal `Q`.
-/
structure Tracks (P : Fact → Prop) (Q : String → Prop)
    (candidates : FactCandidates) : Prop where
  nodup : (Entries.keys candidates).Nodup
  fact : ∀ entry ∈ candidates, P entry.2.fact ∧ entry.2.fact.id = entry.1
  signaled : ∀ entry ∈ candidates, hasQuerySignal entry.2 = true → Q entry.1

namespace Tracks

variable {P P' : Fact → Prop} {Q Q' : String → Prop} {candidates : FactCandidates}

theorem nil : Tracks P Q [] := ⟨List.nodup_nil, by simp, by simp⟩

theorem imp (h : Tracks P Q candidates) (hfact : ∀ fact, P fact → P' fact)
    (hsignaled : ∀ id, Q id → Q' id) : Tracks P' Q' candidates where
  nodup := h.nodup
  fact entry hmem := (h.fact entry hmem).imp_left (hfact _)
  signaled entry hmem hsignal := hsignaled _ (h.signaled entry hmem hsignal)

theorem add (h : Tracks P Q candidates) {fact : Fact} (parsed : Date)
    {matchedTerms : List String} (softTerms : List String) {source : FactSource}
    (hfact : P fact) (hsignaled : matchedTerms ≠ [] ∨ source ≠ .windowScan → Q fact.id) :
    Tracks P Q (addFactCandidate candidates fact parsed matchedTerms softTerms source) := by
  refine ⟨Entries.nodup_set h.nodup _ _, ?_, ?_⟩
  · intro entry hentry
    rcases Entries.mem_set hentry with rfl | hmem
    · cases hget : candidates.get fact.id with
      | none => exact ⟨hfact, rfl⟩
      | some bucket => exact h.fact (fact.id, bucket) (Entries.mem_of_get hget)
    · exact h.fact entry hmem
  · intro entry hentry hsignal
    rcases Entries.mem_set hentry with rfl | hmem
    · by_cases hnew : matchedTerms ≠ [] ∨ source ≠ .windowScan
      · exact hsignaled hnew
      · push Not at hnew
        obtain ⟨rfl, rfl⟩ := hnew
        cases hget : candidates.get fact.id with
        | none => simp [hget, hasQuerySignal_iff] at hsignal
        | some bucket =>
            refine h.signaled (fact.id, bucket) (Entries.mem_of_get hget) ?_
            simpa [hget, hasQuerySignal_iff, List.mem_union_iff] using hsignal
    · exact h.signaled entry hmem hsignal

end Tracks

/-- An identifier is among the candidates, with a query signal if asked for. -/
def Reaches (signaled : Bool) (id : String) (candidates : FactCandidates) : Prop :=
  ∃ item, candidates.get id = some item ∧ (signaled = true → hasQuerySignal item = true)

namespace Reaches

variable {signaled : Bool} {id : String} {candidates : FactCandidates}

theorem add (h : Reaches signaled id candidates) (fact : Fact) (parsed : Date)
    (matchedTerms softTerms : List String) (source : FactSource) :
    Reaches signaled id
      (addFactCandidate candidates fact parsed matchedTerms softTerms source) := by
  obtain ⟨item, hget, hsignal⟩ := h
  rw [Reaches, addFactCandidate, Entries.get_set]
  split_ifs with hid
  · refine ⟨_, rfl, fun hasked => ?_⟩
    rw [hid, hget]
    rcases (hasQuerySignal_iff item).mp (hsignal hasked) with ⟨term, hterm⟩ | ⟨old, hold, hne⟩
    · exact (hasQuerySignal_iff _).mpr
        (.inl ⟨term, List.mem_union_iff.mpr (.inl hterm)⟩)
    · exact (hasQuerySignal_iff _).mpr
        (.inr ⟨old, List.mem_union_iff.mpr (.inl hold), hne⟩)
  · exact ⟨item, hget, hsignal⟩

theorem of_add {candidates : FactCandidates} (fact : Fact) (parsed : Date)
    (matchedTerms softTerms : List String) {source : FactSource}
    (hsource : signaled = true → source ≠ .windowScan) :
    Reaches signaled fact.id
      (addFactCandidate candidates fact parsed matchedTerms softTerms source) := by
  rw [Reaches, addFactCandidate, Entries.get_set, if_pos rfl]
  refine ⟨_, rfl, fun hasked => (hasQuerySignal_iff _).mpr (.inr ⟨source, ?_, hsource hasked⟩)⟩
  exact List.mem_union_iff.mpr (.inr (List.mem_singleton.mpr rfl))

/-- A loop over facts keeps the candidates. -/
theorem foldl {f : FactCandidates → Fact → FactCandidates} (facts : List Fact)
    (hf : ∀ candidates fact, Reaches signaled id candidates →
      Reaches signaled id (f candidates fact))
    (h : Reaches signaled id candidates) :
    Reaches signaled id (facts.foldl f candidates) :=
  List.foldlRecOn facts f h fun candidates hcandidates fact _ => hf candidates fact hcandidates

/-- A loop over facts reaches each fact that it adds. -/
theorem of_mem {f : FactCandidates → Fact → FactCandidates} {facts : List Fact}
    {fact : Fact} (hmem : fact ∈ facts)
    (hf : ∀ candidates fact, Reaches signaled id candidates →
      Reaches signaled id (f candidates fact))
    (hadd : ∀ candidates, Reaches signaled id (f candidates fact)) :
    Reaches signaled id (facts.foldl f candidates) := by
  obtain ⟨before, after, rfl⟩ := List.append_of_mem hmem
  rw [List.foldl_append, List.foldl_cons]
  exact foldl after hf (hadd _)

end Reaches

/-! ## The scan and the searches -/

/-- What the scan or the searches bring. -/
def Brought (env : ResolverEnv) (s : FactStore) (call : FactWindowCall) (fact : Fact) :
    Prop :=
  fact ∈ scannedFacts s call ∧ (env.parsedDate fact).isSome ∨
    fact ∈ env.matchedFacts s call

theorem Brought.stored {fact : Fact} (h : env.Brought s call fact) :
    env.Stored s fact := by
  rcases h with ⟨hscan, -⟩ | hmatch
  · exact .of_row (mem_scannedFacts hscan).1
  · exact (mem_matchedFacts hmatch).1

def matchedIds (env : ResolverEnv) (s : FactStore) (call : FactWindowCall) : List String :=
  ((env.matchedFacts s call).map (·.id)).dedup

theorem mem_matchedIds {fact : Fact} (h : fact ∈ env.matchedFacts s call) :
    fact.id ∈ env.matchedIds s call :=
  List.mem_dedup.mpr (List.mem_map_of_mem h)

/-- The number of facts that the searches find in the window. -/
def matchedCount (env : ResolverEnv) (s : FactStore) (call : FactWindowCall) : Nat :=
  (env.matchedIds s call).length

theorem scanFact_eq (env : ResolverEnv) (call : FactWindowCall)
    (candidates : FactCandidates) (fact : Fact) :
    env.scanFact call candidates fact = candidates ∧ env.parsedDate fact = none ∨
      ∃ parsed softTerms, (env.parsedDate fact).isSome ∧
        env.scanFact call candidates fact =
          addFactCandidate candidates fact parsed [] softTerms .windowScan := by
  unfold scanFact
  split
  next hnone => exact .inl ⟨rfl, hnone⟩
  next parsed hsome => exact .inr ⟨parsed, _, by simp [hsome], rfl⟩

theorem matchFact_eq (env : ResolverEnv) (call : FactWindowCall)
    (terms : List String) (candidates : FactCandidates) (fact : Fact) :
    env.matchFact call terms candidates fact = candidates ∧
        (env.parsedDate fact).any call.inWindow = false ∨
      ∃ parsed, (env.parsedDate fact).any call.inWindow = true ∧
        env.matchFact call terms candidates fact =
          addFactCandidate candidates fact parsed terms [] .queryMatch := by
  unfold matchFact
  cases hparsed : env.parsedDate fact with
  | none => exact .inl ⟨rfl, rfl⟩
  | some parsed =>
      by_cases hin : call.inWindow parsed = true
      · exact .inr ⟨parsed, by simp [hin], by simp [Option.filter, hin]⟩
      · exact .inl ⟨by simp [Option.filter, hin], by simpa using hin⟩

theorem mem_matchedFacts_of_search {variant : SearchVariant} {fact : Fact}
    (hvariant : variant ∈ call.searchVariants)
    (hmem : fact ∈ env.searchFacts s variant.text call.variantLimit call.conversation)
    (hdated : (env.parsedDate fact).any call.inWindow = true) :
    fact ∈ env.matchedFacts s call :=
  List.mem_filter.mpr ⟨List.mem_flatMap.mpr ⟨variant, hvariant, hmem⟩, hdated⟩

theorem scanAndSearch_tracks :
    Tracks (env.Brought s call) (· ∈ env.matchedIds s call) (env.scanAndSearch s call) := by
  refine List.foldlRecOn _ _ ?_ fun candidates hcandidates variant hvariant => ?_
  · refine List.foldlRecOn _ _ .nil fun candidates hcandidates fact hfact => ?_
    rcases scanFact_eq env call candidates fact with
      ⟨heq, -⟩ | ⟨parsed, softTerms, hparsed, heq⟩
    · rw [heq]
      exact hcandidates
    · rw [heq]
      exact hcandidates.add parsed softTerms (.inl ⟨hfact, hparsed⟩) (by simp)
  · refine List.foldlRecOn _ _ hcandidates fun candidates hcandidates fact hfact => ?_
    rcases matchFact_eq env call variant.terms candidates fact with
      ⟨heq, -⟩ | ⟨parsed, hdated, heq⟩
    · rw [heq]
      exact hcandidates
    · have hmatch := mem_matchedFacts_of_search hvariant hfact hdated
      rw [heq]
      exact hcandidates.add parsed [] (.inr hmatch) fun _ => mem_matchedIds hmatch

section

variable {signaled : Bool} {id : String}

theorem Reaches.scanFact (candidates : FactCandidates) (fact : Fact)
    (h : Reaches signaled id candidates) :
    Reaches signaled id (env.scanFact call candidates fact) := by
  rcases scanFact_eq env call candidates fact with
    ⟨heq, -⟩ | ⟨parsed, softTerms, -, heq⟩
  · rw [heq]
    exact h
  · rw [heq]
    exact h.add _ _ _ _ _

theorem Reaches.matchFact (terms : List String) (candidates : FactCandidates)
    (fact : Fact) (h : Reaches signaled id candidates) :
    Reaches signaled id (env.matchFact call terms candidates fact) := by
  rcases matchFact_eq env call terms candidates fact with
    ⟨heq, -⟩ | ⟨parsed, -, heq⟩
  · rw [heq]
    exact h
  · rw [heq]
    exact h.add _ _ _ _ _

theorem reaches_scanned {fact : Fact} (hscan : fact ∈ scannedFacts s call)
    (hparsed : (env.parsedDate fact).isSome) :
    Reaches false fact.id (env.scanAndSearch s call) := by
  refine List.foldlRecOn _ _ ?_ fun candidates hcandidates variant _ =>
    Reaches.foldl _ (Reaches.matchFact variant.terms) hcandidates
  refine Reaches.of_mem hscan Reaches.scanFact fun candidates => ?_
  rcases scanFact_eq env call candidates fact with
    ⟨-, hnone⟩ | ⟨parsed, softTerms, -, heq⟩
  · simp [hnone] at hparsed
  · exact heq ▸ Reaches.of_add _ _ _ _ (by simp)

theorem reaches_matched {fact : Fact} (hmatch : fact ∈ env.matchedFacts s call) :
    Reaches true fact.id (env.scanAndSearch s call) := by
  obtain ⟨hsearch, hdated⟩ := List.mem_filter.mp hmatch
  obtain ⟨variant, hvariant, hmem⟩ := List.mem_flatMap.mp hsearch
  obtain ⟨before, after, hsplit⟩ := List.append_of_mem hvariant
  rw [ResolverEnv.scanAndSearch, hsplit, List.foldl_append, List.foldl_cons]
  refine List.foldlRecOn _ _ ?_ fun candidates hcandidates other _ =>
    Reaches.foldl _ (Reaches.matchFact other.terms) hcandidates
  refine Reaches.of_mem hmem (Reaches.matchFact variant.terms) fun candidates => ?_
  rcases matchFact_eq env call variant.terms candidates fact with
    ⟨-, hnone⟩ | ⟨parsed, -, heq⟩
  · simp [hnone] at hdated
  · exact heq ▸ Reaches.of_add _ _ _ _ (by simp)

end

/-! ## The expansion -/

section

variable {signaled : Bool} {id : String} {candidates : FactCandidates}

theorem Reaches.siblingFact (candidates : FactCandidates) (fact : Fact)
    (h : Reaches signaled id candidates) :
    Reaches signaled id (env.siblingFact call candidates fact) := by
  unfold ResolverEnv.siblingFact
  split
  next => exact h
  next => exact h.add _ _ _ _ _

theorem Reaches.linkedFact (anchors : Anchors) (candidates : FactCandidates)
    (fact : Fact) (h : Reaches signaled id candidates) :
    Reaches signaled id (env.linkedFact call anchors candidates fact) := by
  unfold ResolverEnv.linkedFact
  split
  next => exact h
  next =>
    split_ifs
    · exact h
    · exact h.add _ _ _ _ _

theorem Reaches.siblings (h : Reaches signaled id candidates) :
    Reaches signaled id
      (((env.anchors call candidates).segmentRefs.flatMap s.getFactsBySegment).foldl
        (env.siblingFact call) candidates) :=
  .foldl _ Reaches.siblingFact h

theorem Reaches.expandAssociative (h : Reaches signaled id candidates) :
    Reaches signaled id (env.expandAssociative s call candidates) :=
  .foldl _ (Reaches.linkedFact _) h.siblings

end

theorem foldl_distinct (refs seen : List String) :
    ∃ more, more ⊆ refs ∧
      refs.foldl (fun seen ref => if ref ∈ seen then seen else seen ++ [ref]) seen =
        seen ++ more := by
  induction refs generalizing seen with
  | nil => exact ⟨[], List.nil_subset _, by simp⟩
  | cons ref refs ih =>
      rw [List.foldl_cons]
      split_ifs
      · obtain ⟨more, hsub, heq⟩ := ih seen
        exact ⟨more, List.subset_cons_of_subset _ hsub, heq⟩
      · obtain ⟨more, hsub, heq⟩ := ih (seen ++ [ref])
        refine ⟨ref :: more, List.cons_subset_cons _ hsub, ?_⟩
        rw [heq, List.append_assoc, List.singleton_append]

theorem distinctRefs_append (refs others : List String) :
    ∃ more, more ⊆ others.filter (· ≠ "") ∧
      distinctRefs (refs ++ others) = distinctRefs refs ++ more := by
  simp only [distinctRefs, List.filter_append, List.foldl_append]
  exact foldl_distinct _ _

/-- The next reference is among the first ones while there is room. -/
theorem mem_take_distinctRefs {refs others : List String} {ref : String} {n : Nat}
    (href : ref ≠ "") (hroom : (distinctRefs refs).length < n) :
    ref ∈ (distinctRefs (refs ++ ref :: others)).take n := by
  obtain ⟨more, -, heq⟩ := distinctRefs_append (refs ++ [ref]) others
  rw [List.append_assoc, List.singleton_append] at heq
  have hnext : ref ∈ (distinctRefs (refs ++ [ref])).take n := by
    have hstep : distinctRefs (refs ++ [ref]) =
        if ref ∈ distinctRefs refs then distinctRefs refs
        else distinctRefs refs ++ [ref] := by
      simp [distinctRefs, List.filter_append, List.foldl_append, href]
    rw [hstep]
    split_ifs with hseen
    · rwa [List.take_of_length_le hroom.le]
    · rw [List.take_of_length_le (by simp; omega)]
      simp
  rw [heq, List.take_append]
  exact List.mem_append_left _ hnext

/-- The references of the segment results. -/
def resultRefs (call : FactWindowCall) : List String :=
  distinctRefs (call.segmentResults.map (pyStrip ·.segmentRef))

/--
A segment whose facts the expansion may add: of a segment result, or of a fact
that was brought while there is room.
-/
def AnchorRef (env : ResolverEnv) (s : FactStore) (call : FactWindowCall)
    (segmentRef : String) : Prop :=
  segmentRef ∈ (resultRefs call).take call.anchorLimit ∨
    (resultRefs call).length < call.anchorLimit ∧ segmentRef ≠ "" ∧
      ∃ fact, env.Brought s call fact ∧ pyStrip fact.segmentRef = segmentRef

theorem brought_of_ranked {item : FactCandidate}
    (hitem : item ∈ env.ranking.rank ((env.scanAndSearch s call).map Prod.snd)) :
    env.Brought s call item.fact := by
  obtain ⟨entry, hentry, rfl⟩ :=
    List.mem_map.mp ((env.ranking.rank_perm _).mem_iff.mp hitem)
  exact (scanAndSearch_tracks.fact entry hentry).1

theorem anchorRef_of_mem {segmentRef : String}
    (h : segmentRef ∈ (env.anchors call (env.scanAndSearch s call)).segmentRefs) :
    env.AnchorRef s call segmentRef := by
  obtain ⟨more, hsub, heq⟩ := distinctRefs_append
    (call.segmentResults.map (pyStrip ·.segmentRef))
    (((env.ranking.rank ((env.scanAndSearch s call).map Prod.snd)).take
      call.seedLimit).map (·.segmentRef))
  simp only [anchors, heq, List.take_append, List.mem_append] at h
  rcases h with hresult | hmore
  · exact .inl hresult
  · refine .inr ⟨?_, ?_⟩
    · by_contra hfull
      rw [resultRefs] at hfull
      rw [Nat.sub_eq_zero_of_le (not_lt.mp hfull), List.take_zero] at hmore
      cases hmore
    · obtain ⟨hmem, hne⟩ := List.mem_filter.mp (hsub (List.mem_of_mem_take hmore))
      obtain ⟨item, hitem, rfl⟩ := List.mem_map.mp hmem
      exact ⟨of_decide_eq_true hne, item.fact,
        brought_of_ranked (List.mem_of_mem_take hitem), rfl⟩

theorem brought_of_mem_factIds {id : String}
    (h : id ∈ (env.anchors call (env.scanAndSearch s call)).factIds) :
    ∃ fact, env.Brought s call fact ∧ fact.id = id ∧ id ≠ "" := by
  obtain ⟨hmem, hne⟩ := List.mem_filter.mp h
  obtain ⟨item, hitem, rfl⟩ := List.mem_map.mp hmem
  exact ⟨item.fact, brought_of_ranked (List.mem_of_mem_take hitem), rfl,
    of_decide_eq_true hne⟩

/-! ## Sources of live facts -/

def Linked (s : FactStore) (id other : String) : Prop :=
  ∃ link ∈ s.links,
    link.sourceFactId = id ∧ link.targetFactId = other ∨
      link.targetFactId = id ∧ link.sourceFactId = other

/-- The mode adds facts of the segments and links of what was brought. -/
def expands (call : FactWindowCall) : Bool := call.mode.isBroad || call.mode.isState

/--
The searches check all of it, the other sources not: the scan compares texts and
keeps superseded rows, the segments too, and a row without a conversation passes.
-/
structure SourcesLive (env : ResolverEnv) (s : FactStore) (call : FactWindowCall) :
    Prop where
  scan : shouldPrune call (env.matchedCount s call) = true ∨
    ∀ fact ∈ scannedFacts s call, (env.parsedDate fact).isSome →
      LiveInWindow env.classes call fact
  siblings : expands call = true → ∀ segmentRef, env.AnchorRef s call segmentRef →
    ∀ row ∈ s.rows, row.segmentRef = segmentRef → (env.expandable call row).isSome →
      LiveInWindow env.classes call row
  links : expands call = true → ∀ fact, env.Brought s call fact → fact.id ≠ "" →
    ∀ row ∈ s.rows, row.supersededBy = none → Linked s fact.id row.id →
      (env.expandable call row).isSome → LiveInWindow env.classes call row

/-- Whatever the scores are, only live facts are returned. -/
def ReturnsLive (env : ResolverEnv) (s : FactStore) (call : FactWindowCall) : Prop :=
  ∀ ranking, ∀ item ∈ { env with ranking := ranking }.searchFactsInWindow s call,
    LiveInWindow env.classes call item.fact

theorem mem_getLinkedFacts {ids : List String} {row : Fact} :
    row ∈ s.getLinkedFacts ids ↔
      row ∈ s.rows ∧ row.supersededBy = none ∧ row.id ∉ ids ∧
        ∃ id ∈ ids, Linked s id row.id := by
  simp only [FactStore.getLinkedFacts, List.mem_filter, Bool.and_eq_true,
    Option.isNone_iff_eq_none, decide_eq_true_eq, List.any_eq_true,
    Bool.or_eq_true, and_assoc, Linked]
  refine and_congr_right fun _ => and_congr_right fun _ => and_congr_right fun _ => ?_
  constructor
  · rintro ⟨link, hlink, ⟨hsource, htarget⟩ | ⟨htarget, hsource⟩⟩
    · exact ⟨_, hsource, link, hlink, .inl ⟨rfl, htarget⟩⟩
    · exact ⟨_, htarget, link, hlink, .inr ⟨rfl, hsource⟩⟩
  · rintro ⟨id, hid, link, hlink, ⟨rfl, htarget⟩ | ⟨rfl, hsource⟩⟩
    · exact ⟨link, hlink, .inl ⟨hid, htarget⟩⟩
    · exact ⟨link, hlink, .inr ⟨hid, hsource⟩⟩

/-! ## Live sources give live results -/

/-- The facts that the expansion starts from and adds. -/
def Origin (env : ResolverEnv) (s : FactStore) (call : FactWindowCall) (fact : Fact) :
    Prop :=
  env.Stored s fact ∧
    (fact ∈ scannedFacts s call ∧ (env.parsedDate fact).isSome ∨
      LiveInWindow env.classes call fact)

def LiveId (env : ResolverEnv) (s : FactStore) (call : FactWindowCall) (id : String) :
    Prop :=
  ∀ fact, env.Origin s call fact → fact.id = id → LiveInWindow env.classes call fact

theorem Origin.of_brought {fact : Fact} (h : env.Brought s call fact) :
    env.Origin s call fact :=
  ⟨h.stored, h.imp_right fun hmatch => (mem_matchedFacts hmatch).2⟩

/-- A live fact makes the candidate of its identifier live. -/
theorem LiveId.of_live {fact : Fact} (hstored : env.Stored s fact)
    (hlive : LiveInWindow env.classes call fact) : env.LiveId s call fact.id := by
  rintro other ⟨-, ⟨hscan, -⟩ | hother⟩ hid
  · exact live_of_scanned hscan hstored hid.symm hlive
  · exact hother

theorem liveId_of_matched {id : String} (h : id ∈ env.matchedIds s call) :
    env.LiveId s call id := by
  obtain ⟨fact, hfact, rfl⟩ := List.mem_map.mp (List.mem_dedup.mp h)
  obtain ⟨hstored, hlive⟩ := mem_matchedFacts hfact
  exact .of_live hstored hlive

theorem scanAndSearch_live :
    Tracks (env.Origin s call) (env.LiveId s call) (env.scanAndSearch s call) :=
  scanAndSearch_tracks.imp (fun _ => Origin.of_brought) fun _ => liveId_of_matched

/-- What holds of the rows that the expansion may add holds after it. -/
theorem expandAssociative_tracks {P : Fact → Prop} {Q : String → Prop}
    (hfound : Tracks P Q (env.scanAndSearch s call))
    (hsiblings : ∀ segmentRef, env.AnchorRef s call segmentRef → ∀ row ∈ s.rows,
      row.segmentRef = segmentRef → (env.expandable call row).isSome → P row ∧ Q row.id)
    (hlinks : ∀ fact, env.Brought s call fact → fact.id ≠ "" → ∀ row ∈ s.rows,
      row.supersededBy = none → Linked s fact.id row.id →
        (env.expandable call row).isSome → P row ∧ Q row.id) :
    Tracks P Q (env.expandAssociative s call (env.scanAndSearch s call)) := by
  refine List.foldlRecOn _ _ ?_ fun candidates hcandidates row hrow => ?_
  · refine List.foldlRecOn _ _ hfound fun candidates hcandidates row hrow => ?_
    obtain ⟨segmentRef, hanchor, hsegment⟩ := List.mem_flatMap.mp hrow
    obtain ⟨hstored, href⟩ := List.mem_filter.mp ((mem_orderBy _).mp hsegment)
    unfold siblingFact
    split
    next => exact hcandidates
    next parsed hparsed =>
      obtain ⟨hfact, hid⟩ := hsiblings segmentRef (anchorRef_of_mem hanchor) row hstored
        (of_decide_eq_true href) (by simp [hparsed])
      exact hcandidates.add _ _ hfact fun _ => hid
  · obtain ⟨hstored, hcurrent, -, id, hid, hlinked⟩ := mem_getLinkedFacts.mp hrow
    obtain ⟨fact, hbrought, rfl, hne⟩ := brought_of_mem_factIds hid
    unfold linkedFact
    split
    next => exact hcandidates
    next parsed hparsed =>
      obtain ⟨hfact, hid⟩ := hlinks fact hbrought hne row hstored hcurrent hlinked
        (by simp [hparsed])
      split_ifs
      · exact hcandidates
      · exact hcandidates.add _ _ hfact fun _ => hid

theorem expandAssociative_live (h : env.SourcesLive s call)
    (hexpands : expands call = true) :
    Tracks (env.Origin s call) (env.LiveId s call)
      (env.expandAssociative s call (env.scanAndSearch s call)) := by
  have hrow (row : Fact) (hrow : row ∈ s.rows) (hlive : LiveInWindow env.classes call row) :
      env.Origin s call row ∧ env.LiveId s call row.id :=
    ⟨⟨.of_row hrow, .inr hlive⟩, .of_live (.of_row hrow) hlive⟩
  refine expandAssociative_tracks scanAndSearch_live ?_ ?_
  · intro segmentRef hanchor row hmem href hexpandable
    exact hrow row hmem (h.siblings hexpands segmentRef hanchor row hmem href hexpandable)
  · intro fact hbrought hne row hmem hcurrent hlinked hexpandable
    exact hrow row hmem
      (h.links hexpands fact hbrought hne row hmem hcurrent hlinked hexpandable)

theorem collectCandidates_eq (env : ResolverEnv) (s : FactStore) (call : FactWindowCall) :
    env.collectCandidates s call =
      (if expands call then env.expandAssociative s call (env.scanAndSearch s call)
        else env.scanAndSearch s call).map Prod.snd := rfl

theorem shouldPrune_mono {m n : Nat} (h : shouldPrune call m = true) (hle : m ≤ n) :
    shouldPrune call n = true := by
  unfold shouldPrune at h ⊢
  split_ifs at h ⊢
  · exact decide_eq_true ((of_decide_eq_true h).trans hle)
  · exact decide_eq_true ((of_decide_eq_true h).trans hle)

theorem length_signaled (candidates : FactCandidates) :
    ((candidates.map Prod.snd).filter hasQuerySignal).length =
      ((candidates.filter fun entry => hasQuerySignal entry.2).map Prod.fst).length := by
  simp [List.filter_map, Function.comp_def]

/-- Each fact that the searches find counts as a candidate with a signal. -/
theorem matchedCount_le {candidates : FactCandidates}
    (h : ∀ id, Reaches true id (env.scanAndSearch s call) → Reaches true id candidates) :
    env.matchedCount s call ≤
      ((candidates.map Prod.snd).filter hasQuerySignal).length := by
  have hsub : env.matchedIds s call ⊆
      (candidates.filter fun entry => hasQuerySignal entry.2).map Prod.fst := by
    intro id hid
    obtain ⟨fact, hfact, rfl⟩ := List.mem_map.mp (List.mem_dedup.mp hid)
    obtain ⟨item, hget, hsignal⟩ := h _ (reaches_matched hfact)
    exact List.mem_map.mpr ⟨(fact.id, item),
      List.mem_filter.mpr ⟨Entries.mem_of_get hget, hsignal rfl⟩, rfl⟩
  rw [length_signaled]
  exact (List.subperm_of_subset (List.nodup_dedup _) hsub).length_le

theorem live_of_sources (h : env.SourcesLive s call) :
    ∀ item ∈ env.searchFactsInWindow s call, LiveInWindow env.classes call item.fact := by
  intro item hitem
  have hmem := env.ranking.select_subset _ _ hitem
  rw [collectCandidates_eq] at hmem
  generalize hcandidates : (if expands call = true then
    env.expandAssociative s call (env.scanAndSearch s call)
    else env.scanAndSearch s call) = candidates at hmem
  have htracks : Tracks (env.Origin s call) (env.LiveId s call) candidates := by
    rw [← hcandidates]
    split_ifs with hexpands
    · exact expandAssociative_live h hexpands
    · exact scanAndSearch_live
  have hreaches (id : String) (hid : Reaches true id (env.scanAndSearch s call)) :
      Reaches true id candidates := by
    rw [← hcandidates]
    split_ifs
    · exact hid.expandAssociative
    · exact hid
  have hsignaled (hkept : item ∈ (candidates.map Prod.snd).filter hasQuerySignal) :
      LiveInWindow env.classes call item.fact := by
    obtain ⟨hitem, hsignal⟩ := List.mem_filter.mp hkept
    obtain ⟨entry, hentry, rfl⟩ := List.mem_map.mp hitem
    obtain ⟨horigin, hid⟩ := htracks.fact entry hentry
    exact htracks.signaled entry hentry hsignal _ horigin hid
  split_ifs at hmem with hprune
  · exact hsignaled hmem
  · obtain ⟨entry, hentry, rfl⟩ := List.mem_map.mp hmem
    rcases (htracks.fact entry hentry).1.2 with ⟨hscan, hparsed⟩ | hlive
    · rcases h.scan with hpruned | hscanned
      · exact absurd (shouldPrune_mono hpruned (matchedCount_le hreaches)) hprune
      · exact hscanned _ hscan hparsed
    · exact hlive

/-! ## Live results need live sources -/

theorem signaled_le :
    (((env.scanAndSearch s call).map Prod.snd).filter hasQuerySignal).length ≤
      env.matchedCount s call := by
  have htracks : Tracks (env.Brought s call) (· ∈ env.matchedIds s call)
      (env.scanAndSearch s call) := scanAndSearch_tracks
  have hsub : ((env.scanAndSearch s call).filter fun entry => hasQuerySignal entry.2).map
      Prod.fst ⊆ env.matchedIds s call := by
    intro id hid
    obtain ⟨entry, hentry, rfl⟩ := List.mem_map.mp hid
    obtain ⟨hmem, hsignal⟩ := List.mem_filter.mp hentry
    exact htracks.signaled entry hmem hsignal
  rw [length_signaled]
  refine (List.subperm_of_subset (htracks.nodup.sublist ?_) hsub).length_le
  exact List.filter_sublist.map Prod.fst

theorem Reaches.weaken {id : String} {candidates : FactCandidates}
    (h : Reaches true id candidates) : Reaches false id candidates := by
  obtain ⟨item, hget, -⟩ := h
  exact ⟨item, hget, nofun⟩

theorem Brought.reaches {fact : Fact} (h : env.Brought s call fact) :
    Reaches false fact.id (env.scanAndSearch s call) := by
  rcases h with ⟨hscan, hparsed⟩ | hmatch
  · exact reaches_scanned hscan hparsed
  · exact (reaches_matched hmatch).weaken

end ResolverEnv

/-- Scores that put the candidates of an identifier first and leave none out. -/
def FactRanking.favouring (id : String) : FactRanking where
  rank candidates :=
    candidates.filter (·.fact.id = id) ++ candidates.filter fun item => !decide (item.fact.id = id)
  rank_perm candidates := List.filter_append_perm _ candidates
  select _ candidates := candidates
  select_subset _ _ := List.Subset.refl _

/-- The favoured candidate comes first. -/
theorem FactRanking.favouring_rank {id : String} {candidates : List FactCandidate}
    {item : FactCandidate} (h : item ∈ candidates) (hid : item.fact.id = id) :
    ∃ first rest, (favouring id).rank candidates = first :: rest ∧ first.fact.id = id := by
  have hmem : item ∈ candidates.filter (·.fact.id = id) :=
    List.mem_filter.mpr ⟨h, by simpa using hid⟩
  obtain ⟨first, rest, hfilter⟩ := List.exists_cons_of_ne_nil (List.ne_nil_of_mem hmem)
  have hfirst : first ∈ candidates.filter (·.fact.id = id) := hfilter ▸ List.mem_cons_self
  refine ⟨first, rest ++ candidates.filter fun item => !decide (item.fact.id = id), ?_,
    of_decide_eq_true (List.mem_filter.mp hfirst).2⟩
  simp only [favouring, hfilter, List.cons_append]

namespace ResolverEnv

variable {env : ResolverEnv} {s : FactStore} {call : FactWindowCall}

def favours (env : ResolverEnv) (id : String) : ResolverEnv :=
  { env with ranking := .favouring id }

theorem Stored.segmentRef_eq {fact other : Fact} (hfact : env.Stored s fact)
    (hother : env.Stored s other) (hid : fact.id = other.id) :
    fact.segmentRef = other.segmentRef := by
  obtain ⟨row, hrow, hshows⟩ := hother
  exact (hfact.row_eq hrow (hid.trans hshows.id_eq)).segmentRef_eq.trans
    hshows.segmentRef_eq.symm

/-- The candidates with the favoured one first. -/
theorem rank_favours {fact : Fact} (h : env.Brought s call fact) :
    ∃ first rest, (env.favours fact.id).ranking.rank
        (((env.favours fact.id).scanAndSearch s call).map Prod.snd) = first :: rest ∧
      first.fact.id = fact.id ∧ first.fact.segmentRef = fact.segmentRef := by
  obtain ⟨item, hget, -⟩ : Reaches false fact.id
      ((env.favours fact.id).scanAndSearch s call) := Brought.reaches h
  have hentry := Entries.mem_of_get hget
  obtain ⟨first, rest, hrank, hid⟩ := FactRanking.favouring_rank
    (List.mem_map_of_mem hentry) (scanAndSearch_tracks.fact _ hentry).2
  refine ⟨first, rest, hrank, hid, ?_⟩
  have hfirst : (env.favours fact.id).Brought s call first.fact :=
    brought_of_ranked (hrank ▸ List.mem_cons_self)
  exact hfirst.stored.segmentRef_eq (Brought.stored h) hid

/-- A segment that may be an anchor is one, for some scores. -/
theorem AnchorRef.exists_mem {segmentRef : String}
    (h : env.AnchorRef s call segmentRef) :
    ∃ id, segmentRef ∈ ((env.favours id).anchors call
      ((env.favours id).scanAndSearch s call)).segmentRefs := by
  rcases h with hresult | ⟨hroom, hne, fact, hbrought, href⟩
  · obtain ⟨more, -, heq⟩ := distinctRefs_append
      (call.segmentResults.map (pyStrip ·.segmentRef))
      ((((env.favours "").ranking.rank
        (((env.favours "").scanAndSearch s call).map Prod.snd)).take
          call.seedLimit).map (·.segmentRef))
    refine ⟨"", ?_⟩
    simp only [anchors, heq, List.take_append]
    exact List.mem_append_left _ hresult
  · obtain ⟨first, rest, hrank, -, hsegment⟩ := rank_favours hbrought
    obtain ⟨limit, hlimit⟩ : ∃ limit, call.seedLimit = limit + 1 :=
      Nat.exists_eq_succ_of_ne_zero (by unfold FactWindowCall.seedLimit; omega)
    refine ⟨fact.id, ?_⟩
    simp only [anchors, hrank, hlimit, List.take_succ_cons, List.map_cons,
      FactCandidate.segmentRef, hsegment, href]
    exact mem_take_distinctRefs hne hroom

/-- What was brought is followed along its links, for some scores. -/
theorem Brought.mem_factIds {fact : Fact} (h : env.Brought s call fact)
    (hne : fact.id ≠ "") :
    fact.id ∈ ((env.favours fact.id).anchors call
      ((env.favours fact.id).scanAndSearch s call)).factIds := by
  obtain ⟨first, rest, hrank, hid, -⟩ := rank_favours h
  obtain ⟨limit, hlimit⟩ : ∃ limit, call.linkLimit = limit + 1 :=
    Nat.exists_eq_succ_of_ne_zero (by unfold FactWindowCall.linkLimit; omega)
  refine List.mem_filter.mpr ⟨?_, by simpa using hne⟩
  rw [hrank, hlimit, List.take_succ_cons, List.map_cons, hid]
  exact List.mem_cons_self

theorem shouldPrune_nil (hterms : call.queryTerms = []) (n : Nat) :
    shouldPrune call n = false := by
  simp [shouldPrune, hterms]

theorem expandAssociative_stored (hfound : Tracks (env.Stored s) (fun _ => True)
    (env.scanAndSearch s call)) :
    Tracks (env.Stored s) (fun _ => True)
      (env.expandAssociative s call (env.scanAndSearch s call)) :=
  expandAssociative_tracks hfound (fun _ _ _ hrow _ _ => ⟨.of_row hrow, trivial⟩)
    fun _ _ _ _ hrow _ _ _ => ⟨.of_row hrow, trivial⟩

/-- If nothing is pruned, each candidate is returned for some scores. -/
theorem live_of_reaches (wanted : String) {id : String} (h : env.ReturnsLive s call)
    (hprune : shouldPrune call
      (((env.favours wanted).collectCandidates s call).filter hasQuerySignal).length = false)
    (hreaches : Reaches false id
      (if expands call then
        (env.favours wanted).expandAssociative s call
          ((env.favours wanted).scanAndSearch s call)
      else (env.favours wanted).scanAndSearch s call)) :
    ∃ fact, env.Stored s fact ∧ fact.id = id ∧ LiveInWindow env.classes call fact := by
  have hfound : Tracks ((env.favours wanted).Stored s) (fun _ => True)
      ((env.favours wanted).scanAndSearch s call) :=
    scanAndSearch_tracks.imp (fun _ => Brought.stored) fun _ _ => trivial
  have htracks : Tracks ((env.favours wanted).Stored s) (fun _ => True)
      (if expands call then
        (env.favours wanted).expandAssociative s call
          ((env.favours wanted).scanAndSearch s call)
      else (env.favours wanted).scanAndSearch s call) := by
    split_ifs
    · exact expandAssociative_stored hfound
    · exact hfound
  obtain ⟨item, hget, -⟩ := hreaches
  have hentry := Entries.mem_of_get hget
  obtain ⟨hstored, hid⟩ := htracks.fact _ hentry
  refine ⟨item.fact, hstored, hid, h (.favouring wanted) item ?_⟩
  simp only [searchFactsInWindow]
  rw [if_neg (by rw [← Bool.not_eq_true] at hprune; exact hprune), collectCandidates_eq]
  exact List.mem_map_of_mem hentry

/-- A row that the expansion may add is live if a fact with its identifier is. -/
theorem live_of_expandable {row fact : Fact} (hrow : row ∈ s.rows)
    (hstored : env.Stored s fact) (hid : fact.id = row.id)
    (hexpandable : (env.expandable call row).isSome)
    (hlive : LiveInWindow env.classes call fact) :
    LiveInWindow env.classes call row := by
  have hshows := hstored.row_eq hrow hid
  refine ⟨hshows.supersededBy_eq ▸ hlive.current, hshows.conversationId_eq ▸ hlive.own, ?_⟩
  unfold expandable at hexpandable
  split_ifs at hexpandable
  · cases hexpandable
  · obtain ⟨date, hdate⟩ := Option.isSome_iff_exists.mp hexpandable
    obtain ⟨hparsed, hin⟩ := Option.filter_eq_some_iff.mp hdate
    exact ⟨date, hparsed, hin⟩

theorem siblingFact_reaches {row : Fact} (candidates : FactCandidates)
    (hexpandable : (env.expandable call row).isSome) :
    Reaches false row.id (env.siblingFact call candidates row) := by
  unfold siblingFact
  split
  next hnone => simp [hnone] at hexpandable
  next => exact .of_add _ _ _ _ (by simp)

theorem linkedFact_reaches {row : Fact} (anchors : Anchors) (candidates : FactCandidates)
    (hterms : call.queryTerms = []) (hexpandable : (env.expandable call row).isSome) :
    Reaches false row.id (env.linkedFact call anchors candidates row) := by
  unfold linkedFact
  split
  next hnone => simp [hnone] at hexpandable
  next parsed _ =>
    have hrelevant : env.irrelevant call anchors row parsed = false := by
      simp [irrelevant, hterms]
    rw [hrelevant]
    exact .of_add _ _ _ _ (by simp)

theorem sources_of_live (hcall : call.queryTerms = [] ∨ expands call = false)
    (h : env.ReturnsLive s call) : env.SourcesLive s call := by
  -- In a mode that expands nothing is pruned, as there are no query terms.
  have hterms (hexpands : expands call = true) : call.queryTerms = [] :=
    hcall.resolve_right (by simp [hexpands])
  refine ⟨?_, ?_, ?_⟩
  · by_cases hprune : shouldPrune call (env.matchedCount s call) = true
    · exact .inl hprune
    refine .inr fun fact hscan hparsed => ?_
    have hreaches : Reaches false fact.id ((env.favours "").scanAndSearch s call) :=
      Brought.reaches (.inl ⟨hscan, hparsed⟩)
    obtain ⟨other, hstored, hid, hlive⟩ : ∃ other, env.Stored s other ∧
        other.id = fact.id ∧ LiveInWindow env.classes call other := by
      refine live_of_reaches "" h ?_ ?_
      · rcases hcall with hnil | hexpands
        · exact shouldPrune_nil hnil _
        · rw [Bool.eq_false_iff]
          intro hpruned
          rw [collectCandidates_eq, hexpands] at hpruned
          exact hprune (shouldPrune_mono hpruned signaled_le)
      · split_ifs
        · exact hreaches.expandAssociative
        · exact hreaches
    exact live_of_scanned hscan hstored hid hlive
  · intro hexpands segmentRef hanchor row hrow href hexpandable
    obtain ⟨wanted, hmem⟩ := hanchor.exists_mem
    have hsibling : row ∈ ((env.favours wanted).anchors call
        ((env.favours wanted).scanAndSearch s call)).segmentRefs.flatMap
          s.getFactsBySegment :=
      List.mem_flatMap.mpr ⟨segmentRef, hmem, (mem_orderBy _).mpr
        (List.mem_filter.mpr ⟨hrow, by simpa using href⟩)⟩
    obtain ⟨fact, hstored, hid, hlive⟩ :=
      live_of_reaches wanted h (shouldPrune_nil (hterms hexpands) _) (by
        rw [if_pos hexpands]
        exact .foldl _ (Reaches.linkedFact _) (.of_mem hsibling Reaches.siblingFact
          fun candidates => siblingFact_reaches candidates hexpandable))
    exact live_of_expandable hrow hstored hid hexpandable hlive
  · intro hexpands fact hbrought hne row hrow hcurrent hlinked hexpandable
    have hmem := hbrought.mem_factIds hne
    obtain ⟨other, hstored, hid, hlive⟩ :=
      live_of_reaches fact.id h (shouldPrune_nil (hterms hexpands) _) (by
        rw [if_pos hexpands]
        by_cases hseen : row.id ∈ ((env.favours fact.id).anchors call
          ((env.favours fact.id).scanAndSearch s call)).factIds
        · obtain ⟨seen, hseen, heq, -⟩ := brought_of_mem_factIds hseen
          exact heq ▸ hseen.reaches.expandAssociative
        · exact .of_mem (mem_getLinkedFacts.mpr ⟨hrow, hcurrent, hseen, _, hmem, hlinked⟩)
            (Reaches.linkedFact _) fun candidates =>
              linkedFact_reaches _ candidates (hterms hexpands) hexpandable)
    exact live_of_expandable hrow hstored hid hexpandable hlive

theorem SourcesLive.rerank (h : env.SourcesLive s call) (ranking : FactRanking) :
    { env with ranking := ranking }.SourcesLive s call :=
  ⟨h.scan, h.siblings, h.links⟩

end ResolverEnv

/-! ## A superseded fact in the window -/

namespace WindowExample

def jobFact : Fact :=
  { id := "F1", subject := "user", verb := "works at", object := "Acme"
    whenDate := "2024-01-10", conversationId := "A", supersededBy := some "F2" }

def newJobFact : Fact :=
  { id := "F2", subject := "user", verb := "works at", object := "Globex"
    whenDate := "2024-01-20", conversationId := "A" }

def jobs : FactStore := ⟨[jobFact, newJobFact], [], by decide, by decide⟩

def newJob : FactStore := ⟨[newJobFact], [], by decide, by decide⟩

def env : ResolverEnv where
  classes := asciiClasses
  ftsMatches _ := some []
  segmentDates _ := none
  ranking := .favouring ""

/-- January 2024 in conversation `A`. -/
def january : FactWindowCall where
  conversationId := "A"
  startDate := 20240101
  endDate := 20240131
  maxResults := 5

end WindowExample

end VirtualContext
