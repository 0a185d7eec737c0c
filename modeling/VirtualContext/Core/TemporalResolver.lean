import Mathlib.Data.List.Infix
import VirtualContext.Core.SessionDates
import VirtualContext.Library.Entries

/-!
# Facts in a time window

`remember_when` collects facts from a scan by date, from full-text searches and,
in some modes, from the segments and links of what these found.  Scores are
floats and only rank the candidates: the ranking is a parameter.
-/

namespace VirtualContext

open VirtualContext.Library

/-! ## Data -/

inductive RememberWhenMode where
  | auto | lookup | changeOverTime | summarizeOverTime | stateAtTime
  | windowOverview
  deriving DecidableEq, Repr

namespace RememberWhenMode

/-- `_REMEMBER_WHEN_BROAD_FACT_MODES` -/
def isBroad : RememberWhenMode → Bool
  | changeOverTime | summarizeOverTime | windowOverview => true
  | _ => false

/-- `_REMEMBER_WHEN_STATE_MODES` -/
def isState (mode : RememberWhenMode) : Bool := mode = stateAtTime

end RememberWhenMode

/-- A query variant with the terms it stands for. -/
structure SearchVariant where
  text : String
  terms : List String
  deriving DecidableEq, Repr

structure SegmentResult where
  segmentRef : String
  sessionDateNormalized : String := ""
  deriving DecidableEq, Repr

inductive FactSource where
  | windowScan | queryMatch | segmentNeighbor | linkedFact
  deriving DecidableEq, Repr

/-- A bucket of `_add_fact_candidate`, without its score. -/
structure FactCandidate where
  fact : Fact
  date : Date
  matchedTerms : List String := []
  softTerms : List String := []
  sources : List FactSource := []
  deriving DecidableEq, Repr

/-- What the scores decide: the order of the seeds and the final selection. -/
structure FactRanking where
  rank : List FactCandidate → List FactCandidate
  rank_perm : ∀ candidates, (rank candidates).Perm candidates
  select : Nat → List FactCandidate → List FactCandidate
  select_subset : ∀ limit candidates, select limit candidates ⊆ candidates

/--
What the resolver calls.  `ftsMatches` are the identifiers that `facts_fts`
matches, best first, if the table is there; `segmentDates` is the session date in
the metadata of a segment, if there are any.
-/
structure ResolverEnv where
  classes : CharClasses
  ftsMatches : String → Option (List String)
  segmentDates : String → Option String
  ranking : FactRanking

/-- The arguments of `_search_facts_in_window`, and the configuration. -/
structure FactWindowCall where
  conversationId : ConversationId := ""
  /-- `_window_query_terms` -/
  queryTerms : List String := []
  searchVariants : List SearchVariant := []
  startDate : Date
  endDate : Date
  maxResults : Int
  mode : RememberWhenMode := .auto
  segmentResults : List SegmentResult := []
  targetDate : Option Date := none

namespace FactWindowCall

variable (call : FactWindowCall)

def inWindow (date : Date) : Bool := call.startDate ≤ date && date ≤ call.endDate

/-- `config.conversation_id or None` -/
def conversation : Option ConversationId :=
  if call.conversationId = "" then none else some call.conversationId

/-- `fact.conversation_id and fact.conversation_id != conversation_id` -/
def isForeign (fact : Fact) : Bool :=
  call.conversation.any fun conversationId =>
    fact.conversationId ≠ "" && fact.conversationId ≠ conversationId

/-- `_window_fact_scan_limit` -/
def scanLimit : Int :=
  if call.mode.isBroad then max (call.maxResults * 500) 10000
  else if call.mode.isState then max (call.maxResults * 40) 400
  else max (call.maxResults * 20) 200

def variantLimit : Int := min (max (call.maxResults * 8) 25) 100

def seedLimit : Nat := (max (call.maxResults * 2) 8).toNat

def anchorLimit : Nat := (max (call.maxResults * 2) 12).toNat

def linkLimit : Nat := (max (call.maxResults * 3) 12).toNat

/-- The limits of the selections; `_select_change_candidates` widens its own. -/
def selectionLimit : Nat :=
  match call.mode with
  | .changeOverTime => (max (max (call.maxResults * 4) 24 * 3) 24).toNat
  | _ => (max (call.maxResults * 4) 25).toNat

end FactWindowCall

/-! ## Queries of the store -/

namespace FactStore

/-- Text columns are compared by code points. -/
def scansDate (startDate endDate : String) (conversationId : ConversationId)
    (fact : Fact) : Bool :=
  decide (startDate.toList ≤ fact.whenDate.toList) &&
    decide (fact.whenDate.toList ≤ (endDate ++ "~").toList) &&
    (conversationId = "" || fact.conversationId = conversationId)

def queryExperienceFactsByDate (startDate endDate : String) (limit : Int)
    (conversationId : ConversationId) (s : FactStore) : List Fact :=
  limitRows limit (orderBy (·.whenDate.toList)
    (s.rows.filter (scansDate startDate endDate conversationId)))

def getFactsBySegment (segmentRef : String) (s : FactStore) : List Fact :=
  orderBy (·.mentionedAt.toList) (s.rows.filter (·.segmentRef = segmentRef))

/-- The facts linked to the given ones, one hop away, without superseded ones. -/
def getLinkedFacts (factIds : List String) (s : FactStore) : List Fact :=
  s.rows.filter fun fact =>
    fact.supersededBy.isNone && fact.id ∉ factIds &&
      s.links.any fun link =>
        (link.sourceFactId ∈ factIds && link.targetFactId = fact.id) ||
          (link.targetFactId ∈ factIds && link.sourceFactId = fact.id)

/-- The clauses that both searches share. -/
def searchesFact (conversation : Option ConversationId) (fact : Fact) : Bool :=
  fact.supersededBy.isNone && conversation.all (fact.conversationId = ·)

/-- `text.split()` -/
def splitWords (text : String) : List String :=
  ((text.toList.splitBy fun a b => isPySpace a = isPySpace b).filter
    fun word => word.any fun c => !isPySpace c).map String.ofList

/-- A search with `LIKE`, by the first five words that have three letters. -/
def likesFact (query : String) (fact : Fact) : Bool :=
  (((splitWords query).filter (2 < ·.length)).take 5).any fun term =>
    likeContains term fact.subject || likeContains term fact.verb ||
      likeContains term fact.object || likeContains term fact.what

end FactStore

namespace ResolverEnv

variable (env : ResolverEnv)

/-- `_row_to_fact_with_session_date` -/
def withSessionDate (fact : Fact) : Fact :=
  match env.segmentDates fact.segmentRef with
  | none => fact
  | some sessionDate => { fact with sessionDate := sessionDate }

def searchFacts (s : FactStore) (query : String) (limit : Int)
    (conversation : Option ConversationId) : List Fact :=
  let rows :=
    match env.ftsMatches query with
    | some ids =>
        (ids.filterMap s.find).filter (FactStore.searchesFact conversation)
    | none =>
        lastMentioned (s.rows.filter fun fact =>
          FactStore.likesFact query fact &&
            FactStore.searchesFact conversation fact)
  (limitRows limit rows).map env.withSessionDate

/-! ## Candidates -/

/-- `_parse_fact_date(fact.when_date or fact.session_date)` -/
def parsedDate (fact : Fact) : Option Date :=
  parseFactDate env.classes fact.dateText

/-- `_fact_search_text` -/
def factSearchText (fact : Fact) : String :=
  env.classes.lower (" ".intercalate
    [fact.subject, fact.verb, fact.object, fact.what, " ".intercalate fact.tags])

/-- `{term for term in query_terms if term in text}` -/
def overlap (terms : List String) (fact : Fact) : List String :=
  terms.filter fun term => term.toList <:+: (env.factSearchText fact).toList

end ResolverEnv

abbrev FactCandidates := Entries String FactCandidate

/-- `_add_fact_candidate`: the first fact of an identifier stays. -/
def addFactCandidate (candidates : FactCandidates) (fact : Fact) (parsed : Date)
    (matchedTerms softTerms : List String) (source : FactSource) :
    FactCandidates :=
  let bucket := (candidates.get fact.id).getD { fact := fact, date := parsed }
  candidates.set fact.id
    { bucket with
      matchedTerms := bucket.matchedTerms ∪ matchedTerms
      softTerms := bucket.softTerms ∪ softTerms
      sources := bucket.sources ∪ [source] }

/-- `_candidate_segment_ref` -/
def FactCandidate.segmentRef (item : FactCandidate) : String :=
  pyStrip item.fact.segmentRef

namespace ResolverEnv

variable (env : ResolverEnv) (s : FactStore) (call : FactWindowCall)

def scanFact (candidates : FactCandidates) (fact : Fact) : FactCandidates :=
  match env.parsedDate fact with
  | none => candidates
  | some parsed =>
      addFactCandidate candidates fact parsed [] (env.overlap call.queryTerms fact)
        .windowScan

def matchFact (terms : List String) (candidates : FactCandidates) (fact : Fact) :
    FactCandidates :=
  match (env.parsedDate fact).filter call.inWindow with
  | none => candidates
  | some parsed => addFactCandidate candidates fact parsed terms [] .queryMatch

/-- The candidates of the scan and of the searches. -/
def scanAndSearch : FactCandidates :=
  let scanned := (s.queryExperienceFactsByDate call.startDate.isoformat
    call.endDate.isoformat call.scanLimit call.conversationId).foldl
      (env.scanFact call) []
  call.searchVariants.foldl (fun candidates variant =>
    (env.searchFacts s variant.text call.variantLimit call.conversation).foldl
      (env.matchFact call variant.terms) candidates) scanned

/-! ## Associative expansion -/

/-- What `_expand_associative_fact_candidates` gathers before it adds facts. -/
structure Anchors where
  segmentRefs : List String
  seenSegmentRefs : List String
  dates : List String
  tags : List String
  factIds : List String

/-- The distinct nonempty references, in order. -/
def distinctRefs (refs : List String) : List String :=
  (refs.filter (· ≠ "")).foldl (fun seen ref =>
    if ref ∈ seen then seen else seen ++ [ref]) []

def anchors (candidates : FactCandidates) : Anchors :=
  let ranked := env.ranking.rank (candidates.map Prod.snd)
  let seeds := ranked.take call.seedLimit
  let refs := distinctRefs
    (call.segmentResults.map (pyStrip ·.segmentRef) ++ seeds.map (·.segmentRef))
  { segmentRefs := refs.take call.anchorLimit
    seenSegmentRefs := refs
    dates := (call.segmentResults.map (pyStrip ·.sessionDateNormalized)).filter
      (· ≠ "") ++ seeds.map (·.date.isoformat)
    tags := (seeds.flatMap (·.fact.tags)).filter (pyStrip · ≠ "") |>.map
      env.classes.lower
    factIds := ((ranked.take call.linkLimit).map (·.fact.id)).filter (· ≠ "") }

/-- A fact that the expansion may add, with its date. -/
def expandable (fact : Fact) : Option Date :=
  if call.isForeign fact then none
  else (env.parsedDate fact).filter call.inWindow

def siblingFact (candidates : FactCandidates) (fact : Fact) : FactCandidates :=
  match env.expandable call fact with
  | none => candidates
  | some parsed =>
      addFactCandidate candidates fact parsed (env.overlap call.queryTerms fact) []
        .segmentNeighbor

/-- `_tag_overlap_bonus(...) > 0` -/
def sharesTag (anchors : Anchors) (fact : Fact) : Bool :=
  fact.tags.any fun tag => env.classes.lower (pyStrip tag) ∈ anchors.tags

/-- None of the bonuses of a linked fact is positive. -/
def irrelevant (anchors : Anchors) (fact : Fact) (parsed : Date) : Bool :=
  !call.queryTerms.isEmpty && (env.overlap call.queryTerms fact).isEmpty &&
    !(fact.segmentRef ≠ "" && fact.segmentRef ∈ anchors.seenSegmentRefs) &&
    !env.sharesTag anchors fact &&
    !(parsed.isoformat ∈ anchors.dates ||
      call.mode.isState && call.targetDate.isSome)

def linkedFact (anchors : Anchors) (candidates : FactCandidates) (fact : Fact) :
    FactCandidates :=
  match env.expandable call fact with
  | none => candidates
  | some parsed =>
      if env.irrelevant call anchors fact parsed then candidates
      else
        addFactCandidate candidates fact parsed
          (env.overlap call.queryTerms fact) [] .linkedFact

/-- `_expand_associative_fact_candidates` -/
def expandAssociative (candidates : FactCandidates) : FactCandidates :=
  let anchors := env.anchors call candidates
  let siblings := (anchors.segmentRefs.flatMap s.getFactsBySegment).foldl
    (env.siblingFact call) candidates
  (s.getLinkedFacts anchors.factIds).foldl (env.linkedFact call anchors) siblings

/-! ## The search -/

/-- `_fact_candidate_has_query_signal` -/
def hasQuerySignal (item : FactCandidate) : Bool :=
  !item.matchedTerms.isEmpty || item.sources.any (· ≠ .windowScan)

/-- `_should_prune_window_only_candidates` -/
def shouldPrune (signaledCount : Nat) : Bool :=
  if call.mode = .windowOverview ∨ call.queryTerms = [] then false
  else if call.mode = .lookup then 1 ≤ signaledCount
  else 4 ≤ signaledCount

/-- The candidates before their selection. -/
def collectCandidates : List FactCandidate :=
  let candidates := env.scanAndSearch s call
  (if call.mode.isBroad || call.mode.isState then
    env.expandAssociative s call candidates
  else candidates).map Prod.snd

/-- `_search_facts_in_window`: the facts of its results, with their dates. -/
def searchFactsInWindow : List FactCandidate :=
  let items := env.collectCandidates s call
  let signaled := items.filter hasQuerySignal
  env.ranking.select call.selectionLimit
    (if shouldPrune call signaled.length then signaled else items)

end ResolverEnv

end VirtualContext
