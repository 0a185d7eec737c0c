import VirtualContext.Core.CanonicalTurns
import VirtualContext.Library.Isoformat
import VirtualContext.Library.Json
import VirtualContext.Storage.FactStore

/-!
# Fact supersession

New facts are compared with stored ones, and a language model says which stored
facts a new one replaces.  With graph links it also names other relationships,
and the checks of the other mode are not made.
-/

namespace VirtualContext

open VirtualContext.Library

/-! ## Dates -/

/-- A calendar date as `year * 10000 + month * 100 + day`, ordered as dates are. -/
abbrev Date := Nat

/-- The field `%m` of `strptime`. -/
def readMonth : List Char → Option (Nat × List Char)
  | '1' :: '0' :: rest => some (10, rest)
  | '1' :: '1' :: rest => some (11, rest)
  | '1' :: '2' :: rest => some (12, rest)
  | '0' :: c :: rest =>
      if '1' ≤ c ∧ c ≤ '9' then some (c.toNat - 48, rest) else none
  | c :: rest => if '1' ≤ c ∧ c ≤ '9' then some (c.toNat - 48, rest) else none
  | [] => none

/-- The field `%d` of `strptime`, at the end of the text. -/
def readDay : List Char → Option Nat
  | [c] => if '1' ≤ c ∧ c ≤ '9' then some (c.toNat - 48) else none
  | [' ', c] => if '1' ≤ c ∧ c ≤ '9' then some (c.toNat - 48) else none
  | [a, b] =>
      let day := (a.toNat - 48) * 10 + (b.toNat - 48)
      if a.isDigit ∧ b.isDigit ∧ 1 ≤ day ∧ day ≤ 31 then some day else none
  | _ => none

/-- `datetime.strptime(text, "%Y-%m-%d").date()`, for either separator. -/
def strptimeDate (separator : Char) (text : List Char) : Option Date := do
  let (year, text) ← readDigits 4 text
  let text ← expect separator text
  let (month, text) ← readMonth text
  let text ← expect separator text
  let day ← readDay text
  if 1 ≤ year ∧ day ≤ daysInMonth year month then
    some (year * 10000 + month * 100 + day)
  else none

def parseDateForComparison (dateStr : String) : Option Date :=
  let chars := dateStr.toList
  if dateStr = "" ∨ dateStr = "(unknown)" then none
  else
    strptimeDate '-' (chars.take 10) <|> strptimeDate '/' (chars.take 10) <|>
      strptimeDate '/' (pyStripChars (chars.takeWhile (· ≠ '(')))

namespace Fact

/-- `when_date`, else `session_date`. -/
def dateText (fact : Fact) : String :=
  if fact.whenDate = "" then fact.sessionDate else fact.whenDate

def date (fact : Fact) : Option Date := parseDateForComparison fact.dateText

/-- Both facts have a date and the first one has the later one. -/
def laterThan (fact other : Fact) : Bool :=
  match fact.date, other.date with
  | some date, some otherDate => otherDate < date
  | _, _ => false

end Fact

/-! ## The surroundings of a run -/

/-- What the standard library says about texts that are not ASCII. -/
structure TextFunctions where
  lower : String → String
  upper : String → String
  isWordChar : Char → Bool
  /-- `int(text)`, unless it raises. -/
  parseInt : String → Option Int
  /-- `float(value)`, unless it raises. -/
  parseFloat : Json → Option ℚ
  str : Json → String

/-- A prompt, by what is filled into its template. -/
inductive Prompt where
  | promote (subject verb object who what whenDate : String) (refDate : Date)
  | checkBatch (newFact : String) (existing : List String)
  | checkLinks (newFact : String) (existing : List String)
  deriving DecidableEq, Repr

/--
What a run calls.  The reply of the model may depend on everything it was asked
in the run; it is `none` if the call fails or the reply is no JSON.  The embedding
ranks the texts that are similar enough to the query, most similar first.
-/
structure CheckerEnv where
  text : TextFunctions
  llm : List Prompt → Option Json
  embed : Option (String → List String → List Nat)
  today : Date

structure SupersessionConfig where
  enabled : Bool := false
  batchSize : Int := 20
  deriving DecidableEq, Repr

/-- An executed `set_fact_superseded`. -/
structure Supersession where
  oldFactId : String
  newFact : Fact
  deriving DecidableEq, Repr

/-- The store during a run, the checker's cache and what the run has done. -/
structure CheckerRun where
  store : FactStore
  allFactsCache : Option (List Fact) := none
  prompts : List Prompt := []
  superseded : List Supersession := []
  linksCreated : Nat := 0
  raised : Bool := false
  deriving DecidableEq

namespace CheckerRun

def complete (env : CheckerEnv) (prompt : Prompt) (run : CheckerRun) :
    Option Json × CheckerRun :=
  (env.llm (prompt :: run.prompts),
    { run with prompts := prompt :: run.prompts })

def supersede (newFact : Fact) (run : CheckerRun) (oldFactId : String) :
    CheckerRun :=
  { run with
    store := run.store.setFactSuperseded oldFactId newFact.id
    superseded := run.superseded ++ [⟨oldFactId, newFact⟩] }

def supersededIds (run : CheckerRun) : List String :=
  run.superseded.map (·.oldFactId)

end CheckerRun

/-- `format_for_prompt` behind its prefix. -/
def Fact.formatForPrompt (text : TextFunctions) (fact : Fact) : String :=
  let field (name value : String) : String :=
    if value = "" then "" else " [" ++ name ++ ": " ++ value ++ "]"
  fact.subject ++ " | " ++ fact.verb ++ " | " ++ fact.object ++
    (if fact.what = "" then "" else " — " ++ fact.what) ++
    (if text.lower fact.who = text.lower fact.subject then ""
      else field "who" fact.who) ++
    (if fact.whenDate = "" then field "session" fact.sessionDate
      else field "when" fact.whenDate) ++
    field "where" fact.whereText ++ field "why" fact.why ++
    (if fact.status = "active" then "" else field "status" fact.status)

/-! ## Promotion -/

/-- What `sqlite3` stores in a `TEXT NOT NULL` column, unless it raises. -/
def columnText (text : TextFunctions) : Json → Option String
  | .str value => some value
  | .int value => some (toString value)
  | .bool value => some (if value then "1" else "0")
  | .float value => some (text.str (.float value))
  | .null | .arr _ | .obj _ => none

/-- `data.get(key, default)` of a reply; one that is no `dict` changes nothing. -/
def replyField (reply : Option Json) (key default : String) : Json :=
  match reply with
  | some (.obj entries) => (Json.get entries key).getD (.str default)
  | _ => .str default

/-- The log line after the update slices the object, which only a text allows. -/
def isText : Json → Bool
  | .str _ => true
  | _ => false

def promoteFact (env : CheckerEnv) (run : CheckerRun) (fact : Fact) :
    CheckerRun :=
  match parseDateForComparison fact.whenDate with
  | none => run
  | some factDate =>
      if run.raised || env.today ≤ factDate then run
      else
        let (reply, run) := run.complete env
          (.promote fact.subject fact.verb fact.object fact.who fact.what
            fact.whenDate env.today)
        let object := replyField reply "object" fact.object
        match columnText env.text (replyField reply "verb" fact.verb),
          columnText env.text object,
          columnText env.text (replyField reply "what" fact.what) with
        | some verb, some objectText, some what =>
            { run with
              store := run.store.updateFactFields fact.id
                ⟨verb, objectText, "completed", what⟩
              raised := !isText object }
        | _, _, _ => { run with raised := true }

def plannedQuery : FactQuery := { status := some "planned", limit := 10000 }

def plannedFacts (store : FactStore) : List Fact :=
  store.queryFacts plannedQuery

def promotePlannedFacts (env : CheckerEnv) (run : CheckerRun) : CheckerRun :=
  (plannedFacts run.store).foldl (promoteFact env) run

/-! ## Duplicates -/

def duplicateKey (lower : String → String) (fact : Fact) :
    String × String × String × String :=
  (lower fact.subject, lower fact.verb, lower fact.object, lower fact.what)

/-- The facts that `dedup_facts` groups. -/
def dedupFactsOf (store : FactStore) : List Fact :=
  (store.queryFacts { limit := 50000 }).filter fun fact =>
    fact.supersededBy.isNone && fact.what ≠ ""

def duplicateGroups (lower : String → String) (store : FactStore) :
    Dictionary (String × String × String × String) Fact :=
  Dictionary.ofPairs
    ((dedupFactsOf store).map fun fact => (duplicateKey lower fact, fact))

def supersedeGroup (run : CheckerRun) : List Fact → CheckerRun
  | [] => run
  | keeper :: duplicates =>
      (duplicates.map (·.id)).foldl (CheckerRun.supersede keeper) run

def dedupFacts (lower : String → String) (store : FactStore) : CheckerRun :=
  ((duplicateGroups lower store).map Prod.snd).foldl supersedeGroup { store }

/-! ## Candidates -/

def STOPWORDS : List String :=
  ["from", "with", "that", "about", "into", "over", "have", "been", "will",
    "this", "their", "there", "where", "which", "would", "could", "should",
    "after", "before", "during", "while", "other", "another", "these", "those",
    "trip", "solo", "recent", "just", "back", "today", "recently", "returned",
    "camping", "hiking", "visited", "started", "began"]

/-- The class `[A-Za-z']`. -/
def isWordLetter (c : Char) : Bool := c.isAlpha || c = '\''

/-- The first of the longest words. -/
def longestWord : List (List Char) → Option (List Char)
  | [] => none
  | word :: words =>
      some (words.foldl
        (fun best word => if best.length < word.length then word else best) word)

def extractObjectKeyword (object : String) : Option (List Char) :=
  let words := object.toList.splitOnP (!isWordLetter ·)
  let candidates := words.filter fun word =>
    5 ≤ word.length && String.ofList (word.map Char.toLower) ∉ STOPWORDS
  let proper := candidates.filter fun word => word.head?.any Char.isUpper
  longestWord (if proper.isEmpty then candidates else proper)

/-- `\b` between two neighbours. -/
def isWordBoundary (text : TextFunctions) (before after : Option Char) : Bool :=
  before.any text.isWordChar != after.any text.isWordChar

/-- `\bword\b` matches at the front, behind the given character. -/
def wordAt (text : TextFunctions) (word : List Char) (before : Option Char)
    (rest : List Char) : Bool :=
  word.isPrefixOf rest && isWordBoundary text before rest.head? &&
    isWordBoundary text word.getLast? (rest.drop word.length).head?

def containsWord (text : TextFunctions) (word : List Char) :
    (before : Option Char) → List Char → Bool
  | before, [] => wordAt text word before []
  | before, c :: rest =>
      wordAt text word before (c :: rest) ||
        containsWord text word (some c) rest

def tagQuery (config : SupersessionConfig) (fact : Fact) : FactQuery :=
  { subject := some fact.subject, tags := fact.tags, limit := config.batchSize }

def tagCandidates (config : SupersessionConfig) (fact : Fact)
    (store : FactStore) : List Fact :=
  store.queryFacts (tagQuery config fact)

def objectQuery (config : SupersessionConfig) (fact : Fact)
    (keyword : List Char) : FactQuery :=
  { subject := some fact.subject
    objectContains := some (String.ofList keyword)
    limit := config.batchSize }

def objectCandidates (text : TextFunctions) (config : SupersessionConfig)
    (fact : Fact) (store : FactStore) : List Fact :=
  match extractObjectKeyword fact.object with
  | none => []
  | some keyword =>
      if fact.tags.isEmpty then []
      else
        (store.queryFacts (objectQuery config fact keyword)).filter fun candidate =>
          containsWord text keyword none candidate.object.toList

/-- `what`, else the sentence that the other fields make. -/
def Fact.embeddingText (fact : Fact) : String :=
  if fact.what = "" then fact.subject ++ " " ++ fact.verb ++ " " ++ fact.object
  else fact.what

/-- Another fact about the same subject, which is no candidate yet. -/
def inEmbeddingPool (text : TextFunctions) (fact : Fact) (seen : List String)
    (other : Fact) : Bool :=
  other.id ∉ seen && other.id ≠ fact.id && other.subject ≠ "" &&
    text.lower other.subject = text.lower fact.subject

def allFactsQuery : FactQuery := { limit := 10000 }

namespace CheckerRun

/-- `_get_all_facts` -/
def getAllFacts (run : CheckerRun) : List Fact × CheckerRun :=
  match run.allFactsCache with
  | some facts => (facts, run)
  | none =>
      let facts := run.store.queryFacts allFactsQuery
      (facts, { run with allFactsCache := some facts })

def embeddingCandidates (env : CheckerEnv) (fact : Fact) (seen : List String)
    (run : CheckerRun) : List Fact × CheckerRun :=
  match env.embed with
  | none => ([], run)
  | some embed =>
      if pyStrip fact.embeddingText = "" then ([], run)
      else
        let (allFacts, run) := run.getAllFacts
        let pool := allFacts.filter (inEmbeddingPool env.text fact seen)
        let ranked :=
          if pool.isEmpty then []
          else embed fact.embeddingText (pool.map Fact.embeddingText)
        ((ranked.filterMap (pool[·]?)).take 10, run)

/-- Candidates by tag, by a word of the object and by similarity. -/
def candidates (env : CheckerEnv) (config : SupersessionConfig) (fact : Fact)
    (run : CheckerRun) : List Fact × CheckerRun :=
  let tagged := tagCandidates config fact run.store
  let similar := (objectCandidates env.text config fact run.store).filter
    (·.id ∉ tagged.map (·.id))
  let found := tagged ++ similar
  let (embedded, run) := run.embeddingCandidates env fact (found.map (·.id))
  ((found ++ embedded).filter fun candidate =>
    candidate.id ≠ fact.id && candidate.id ∉ run.supersededIds, run)

end CheckerRun

/-! ## Checking without graph links -/

/-- The list of indices in a decoded reply. -/
def replyIndices : Option Json → List Json
  | some (.arr indices) => indices
  | some (.obj entries) =>
      (["updated", "superseded", "indices", "contradicted_or_updated",
        "result"].findSome? fun key =>
          match Json.get entries key with
          | some (.arr indices) => some indices
          | _ => none).getD []
  | _ => []

/-- The ids of the candidates that the reply names. -/
def parseResponse (candidates : List Fact) (reply : Option Json) :
    List String :=
  (replyIndices reply).filterMap fun index =>
    (index.index candidates).map (·.id)

/-- The date guard: `cand_by_id` keeps the last candidate with the id. -/
def refusedByDate (fact : Fact) (candidates : List Fact) (oldId : String) :
    Bool :=
  (candidates.reverse.find? (·.id = oldId)).any (·.laterThan fact)

/-- The ids that a checked fact replaces. -/
def safeIds (fact : Fact) (candidates : List Fact) (reply : Option Json) :
    List String :=
  (parseResponse candidates reply).filter
    fun oldId => !refusedByDate fact candidates oldId

def checkFact (env : CheckerEnv) (config : SupersessionConfig)
    (run : CheckerRun) (fact : Fact) : CheckerRun :=
  if run.raised || fact.id ∈ run.supersededIds || fact.subject = "" then run
  else
    let (candidates, run) := run.candidates env config fact
    if candidates.isEmpty then run
    else
      let (reply, run) := run.complete env
        (.checkBatch (fact.formatForPrompt env.text)
          (candidates.map (·.formatForPrompt env.text)))
      (safeIds fact candidates reply).foldl (CheckerRun.supersede fact) run

/-! ## Checking with graph links -/

def RELATION_TYPES : List String :=
  ["supersedes", "caused_by", "part_of", "contradicts", "same_as", "related_to"]

/-- `_resolve_ref`: `N0`, or `E` and the index of a candidate. -/
def resolveRef (text : TextFunctions) (newFact : Fact) (candidates : List Fact)
    (ref : String) : Option String :=
  let ref := text.upper (pyStrip ref)
  if ref = "N0" then some newFact.id
  else
    match ref.toList with
    | 'E' :: digits =>
        match text.parseInt (String.ofList digits) with
        | some (.ofNat i) => candidates[i]?.map (·.id)
        | _ => none
    | _ => none

/-- One entry of `links`: nothing if it raises, no link if it is skipped. -/
def parseLink (text : TextFunctions) (newFact : Fact) (candidates : List Fact) :
    Json → Option (Option FactLink)
  | .obj entries =>
      let get (key : String) : Json := (Json.get entries key).getD (.str "")
      match get "relation" with
      | .str relation =>
          let relation := text.lower relation
          let source := resolveRef text newFact candidates (text.str (get "source"))
          let target := resolveRef text newFact candidates (text.str (get "target"))
          if relation ∉ RELATION_TYPES then some none
          else
            match source, target with
            | some source, some target =>
                if source = "" ∨ target = "" ∨ source = target then some none
                else
                  match text.parseFloat
                    ((Json.get entries "confidence").getD (.float (8 / 10))) with
                  | none => none
                  | some confidence =>
                      some (some
                        { sourceFactId := source
                          targetFactId := target
                          relationType := relation
                          confidence := confidence
                          context := text.str (get "context") })
            | _, _ => some none
      | _ => none
  | _ => some none

def parseLinks (text : TextFunctions) (newFact : Fact) (candidates : List Fact) :
    List Json → Option (List FactLink)
  | [] => some []
  | entry :: entries => do
      let link ← parseLink text newFact candidates entry
      let links ← parseLinks text newFact candidates entries
      some (link.toList ++ links)

def arrayOf : Option Json → List Json
  | some (.arr elements) => elements
  | _ => []

/-- The ids under `superseded` in a decoded reply. -/
def supersededInReply (candidates : List Fact) : Option Json → List String
  | some (.obj entries) =>
      (arrayOf (Json.get entries "superseded")).filterMap fun index =>
        (index.index candidates).map (·.id)
  | _ => []

/-- The links of a decoded reply, unless reading them raises. -/
def linksInReply (text : TextFunctions) (newFact : Fact)
    (candidates : List Fact) : Option Json → Option (List FactLink)
  | some (.obj entries) =>
      parseLinks text newFact candidates (arrayOf (Json.get entries "links"))
  | _ => some []

def linkCandidates (config : SupersessionConfig) (fact : Fact)
    (store : FactStore) : List Fact :=
  (tagCandidates config fact store).filter (·.id ≠ fact.id)

namespace CheckerRun

def storeLinks (links : List FactLink) (run : CheckerRun) : CheckerRun :=
  match run.store.storeFactLinks links with
  | none => { run with raised := true }
  | some store =>
      { run with store := store, linksCreated := run.linksCreated + links.length }

end CheckerRun

def linkFact (env : CheckerEnv) (config : SupersessionConfig)
    (run : CheckerRun) (fact : Fact) : CheckerRun :=
  if run.raised || fact.subject = "" then run
  else
    let candidates := linkCandidates config fact run.store
    if candidates.isEmpty then run
    else
      let (reply, run) := run.complete env
        (.checkLinks (fact.formatForPrompt env.text)
          (candidates.map (·.formatForPrompt env.text)))
      match linksInReply env.text fact candidates reply with
      | none => run
      | some links =>
          let run := (supersededInReply candidates reply).foldl
            (CheckerRun.supersede fact) run
          if links.isEmpty then run else run.storeLinks links

/-- One round of the loop of `check_and_supersede`, or of the loop for links. -/
def factTurn (env : CheckerEnv) (config : SupersessionConfig)
    (graphLinks : Bool) : CheckerRun → Fact → CheckerRun :=
  if graphLinks then linkFact env config else checkFact env config

/-- `check_and_link`, which leaves facts to `check_and_supersede` without links. -/
def checkAndLink (env : CheckerEnv) (config : SupersessionConfig)
    (graphLinks : Bool) (newFacts : List Fact) (run : CheckerRun) :
    CheckerRun :=
  if !config.enabled || newFacts.isEmpty then run
  else newFacts.foldl (factTurn env config graphLinks) (promotePlannedFacts env run)

end VirtualContext
