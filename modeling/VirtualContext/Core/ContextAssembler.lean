import VirtualContext.Core.PagingManager
import VirtualContext.Core.ProtectedWindow
import VirtualContext.Ingest.Supersession
import VirtualContext.Library.Entries
import VirtualContext.Proxy.FillPass
import VirtualContext.Storage.Grouping

/-!
# The context assembler

The sections of the tags and the facts compete for a pool of tokens.  The text
is put together in the order of the priorities, and sections are dropped from
its end while it exceeds the budget.
-/

namespace VirtualContext

open VirtualContext.Library

/-! ## What is assembled -/

structure AssemblerConfig where
  coreContextMaxTokens : Int := 18000
  tagContextMaxTokens : Int := 30000
  factsMaxTokens : Int := 20000
  contextInjectionMaxTokens : Int := -1
  deriving DecidableEq, Repr

/-- A retrieved summary with the start of its segment. -/
structure DatedSummary extends StoredSummary where
  startTimestamp : String := ""
  deriving DecidableEq, Repr

/-- The tags queried and the related ones that were used are one list. -/
structure RetrievalResult where
  summaries : List DatedSummary := []
  facts : List Fact := []
  retrievalScores : Entries String ℚ := []
  expandedTags : List String := []

/-- The arguments of `assemble`; the conversation is given by its contents. -/
structure AssembleRequest where
  coreContext : String := ""
  retrieval : RetrievalResult
  conversationHistory : List String := []
  tokenBudget : Int
  contextHint : String := ""
  workingSet : Entries String WorkingSetEntry := []
  fullSegments : Entries String (List StoredSegment) := []
  maxContextTokens : Option Int := none

/-- The records that a section is made of, with the depth of the tag. -/
inductive SectionSource where
  | full (segs : List StoredSegment)
  | segments (segs : List StoredSegment)
  | summaries (sums : List DatedSummary)
  deriving DecidableEq, Repr

/-- The segments that the section renders. -/
def SectionSource.refs : SectionSource → List String
  | .full segs => segs.map (·.ref)
  | .segments segs => segs.map (·.ref)
  | .summaries sums => sums.map (·.ref)

inductive PoolKey where
  | tag (tag : String) (source : SectionSource)
  | fact (i : Nat)

structure PoolItem where
  score : ℚ
  key : PoolKey
  tokens : Int

/-- What the pool was filled with. -/
structure PoolState where
  tagTokens : Int := 0
  factsTokens : Int := 0
  poolUsed : Int := 0
  tagSections : Entries String SectionSource := []
  selectedFactIndices : List Nat := []

/-- The sections that are kept, and the text with them. -/
structure PrependState where
  tagSections : Entries String SectionSource
  tagTokens : Int
  prependText : String

/-- `AssembledContext`; a section is given by its records. -/
structure Assembled where
  coreContext : String
  tagSections : Entries String SectionSource
  factsText : String
  conversationHistory : List String
  totalTokens : Int
  prependText : String
  presentedSegmentRefs : List String
  selectedFacts : List Fact

/--
The assembler and what it calls: the priority by the tag rules, the tools with
outputs linked to a segment (if the store has any), and the share of a fact's
score that depends on the clock.
-/
structure ContextAssembler where
  config : AssemblerConfig := {}
  tokenCounter : String → Int
  tagPriority : String → Int
  toolOutputs : String → Option (List String × Nat)
  text : TextFunctions
  recency : Fact → ℚ

/-- `text[:n]` -/
def pySlice (text : String) (n : Int) : String :=
  String.ofList (text.toList.take (if 0 ≤ n then n else text.toList.length + n).toNat)

namespace ContextAssembler

variable (assembler : ContextAssembler) (request : AssembleRequest)

/-! ## Sections -/

def toolHint (dash ref : String) : String :=
  if ref = "" then ""
  else
    match assembler.toolOutputs ref with
    | some (names, count) =>
        "\n[Tools: " ++ (if names = [] then "tools" else ", ".intercalate names) ++ " " ++ dash ++
          " " ++ toString count ++ " outputs restorable via vc_restore_tool]"
    | none => ""

/-- One text of `format_tag_section`. -/
def summaryText (total idx : Nat) (s : DatedSummary) : String :=
  let label := "[" ++ toString (idx + 1) ++ "/" ++ toString total ++ "]" ++
    (if s.sessionDate = "" then "" else " [" ++ s.sessionDate ++ "]")
  let refs := (s.codeRefs.filter (·.file ≠ "")).map formatCodeRef
  label ++ "\n" ++ s.summary ++
    (if refs = [] then "" else "\n[refs: " ++ ", ".intercalate refs ++ "]") ++
    (match s.tags.filter (·.startsWith "tool_") with
      | [] => ""
      | tool :: _ =>
          "\n[tool output truncated — vc_expand_topic(\"" ++ tool ++ "\") for full result]") ++
    assembler.toolHint "--" s.ref

def formatTagSection (tag : String) (summaries : List DatedSummary) : String :=
  let summaries := orderBy (·.startTimestamp) summaries
  let allTags := orderBy id (appendMissing [] (summaries.flatMap (·.tags)))
  let tagsAttr := if allTags = [] then tag else ", ".intercalate allTags
  let body := "\n\n---\n\n".intercalate
    (summaries.mapIdx (assembler.summaryText summaries.length))
  "<virtual-context tags=\"" ++ tagsAttr ++ "\" segments=\"" ++ toString summaries.length ++
    "\">\n" ++ body ++ "\n</virtual-context>"

/-- The block of a segment, with the text that its depth shows. -/
def formatSegment (depth tag : String) (shown : StoredSegment → String) (seg : StoredSegment) :
    String :=
  let tagsAttr := if seg.tags = [] then tag else ", ".intercalate (orderBy id seg.tags)
  let session := if seg.metadata.sessionDate = "" then ""
    else " session=\"" ++ seg.metadata.sessionDate ++ "\""
  "<virtual-context tags=\"" ++ tagsAttr ++ "\" depth=\"" ++ depth ++ "\" ref=\"" ++ seg.ref ++
    "\"" ++ session ++ " created=\"" ++ seg.createdAt ++ "\">\n" ++ shown seg ++
    "\n</virtual-context>"

def formatSegmentsSection (tag : String) (segments : List StoredSegment) : String :=
  "\n\n".intercalate ((orderBy (·.createdAt) segments).map
    (formatSegment "segments" tag fun seg => seg.summary ++ assembler.toolHint "—" seg.ref))

def formatFullSection (tag : String) (segments : List StoredSegment) : String :=
  "\n\n".intercalate ((orderBy (·.createdAt) segments).map
    (formatSegment "full" tag fun seg => if seg.fullText = "" then seg.summary else seg.fullText))

def formatSection (tag : String) : SectionSource → String
  | .full segs => formatFullSection tag segs
  | .segments segs => assembler.formatSegmentsSection tag segs
  | .summaries sums => assembler.formatTagSection tag sums

/-! ## Candidates -/

/-- The summaries by their primary tags, and no summaries for other full segments. -/
def summariesByTag : Entries String (List DatedSummary) :=
  let groups := request.retrieval.summaries.foldl
    (fun (groups : Entries String (List DatedSummary)) s =>
      groups.set s.primaryTag ((groups.get s.primaryTag).getD [] ++ [s])) []
  request.fullSegments.keys.foldl (fun groups tag =>
    if (groups.get tag).isSome then groups else groups.set tag []) groups

def sortedTags : List String :=
  orderByDesc assembler.tagPriority (summariesByTag request).keys

/-- What a tag is shown with, if it is. -/
def sectionSource (tag : String) : Option SectionSource :=
  let depth := ((request.workingSet.get tag).map (·.depth)).getD .summary
  let sums := ((summariesByTag request).get tag).getD []
  match depth, request.fullSegments.get tag with
  | .none, _ => none
  | .full, some segs => some (.full segs)
  | .segments, some segs => some (.segments segs)
  | _, _ => if sums = [] then none else some (.summaries sums)

def builtSections : List (String × SectionSource) :=
  (assembler.sortedTags request).filterMap fun tag =>
    (sectionSource request tag).map (tag, ·)

def tagItems : List PoolItem :=
  (assembler.builtSections request).map fun (tag, source) =>
    { score := (request.retrieval.retrievalScores.get tag).getD (assembler.tagPriority tag)
      key := .tag tag source
      tokens := assembler.tokenCounter (assembler.formatSection tag source) }

/-- `format_for_prompt` -/
def factLine (fact : Fact) : String := "- " ++ fact.formatForPrompt assembler.text

def factItems : List PoolItem :=
  request.retrieval.facts.mapIdx fun i fact =>
    { score := ((appendMissing [] fact.tags).filter
        (· ∈ request.retrieval.expandedTags)).length + assembler.recency fact
      key := .fact i
      tokens := assembler.tokenCounter (assembler.factLine fact) }

/-! ## The pool -/

def core : String :=
  if assembler.tokenCounter request.coreContext ≤ assembler.config.coreContextMaxTokens then
    request.coreContext
  else pySlice request.coreContext (assembler.config.coreContextMaxTokens * 4)

def hintTokens : Int :=
  if request.contextHint = "" then 0 else assembler.tokenCounter request.contextHint

def pool : Int :=
  match request.maxContextTokens with
  | some maxTokens =>
      min assembler.config.contextInjectionMaxTokens
        (max 0 (maxTokens - assembler.tokenCounter (assembler.core request) -
          assembler.hintTokens request))
  | none => assembler.config.contextInjectionMaxTokens

/-- The body of the loop over the candidates. -/
def fillStep (pool : Int) (st : PoolState) (item : PoolItem) : PoolState :=
  match item.key with
  | .tag tag source =>
      if assembler.config.tagContextMaxTokens < st.tagTokens + item.tokens then st
      else if pool < st.poolUsed + item.tokens then st
      else
        { st with
          tagSections := st.tagSections.set tag source
          tagTokens := st.tagTokens + item.tokens
          poolUsed := st.poolUsed + item.tokens }
  | .fact i =>
      if assembler.config.factsMaxTokens < st.factsTokens + item.tokens then st
      else if pool < st.poolUsed + item.tokens then st
      else
        { st with
          selectedFactIndices := st.selectedFactIndices ++ [i]
          factsTokens := st.factsTokens + item.tokens
          poolUsed := st.poolUsed + item.tokens }

/-- The greedy fill, from the best score on. -/
def fillPool : PoolState :=
  (orderByDesc PoolItem.score (assembler.tagItems request ++ assembler.factItems request)).foldl
    (assembler.fillStep (assembler.pool request)) {}

/-! ## The text -/

def selectedFacts : List Fact :=
  (orderBy id (assembler.fillPool request).selectedFactIndices).filterMap
    (request.retrieval.facts[·]?)

/-- The lines that fit, up to the first that does not. -/
def factLines (maxTokens : Int) : Int → List Fact → List String
  | _, [] => []
  | tokensUsed, fact :: facts =>
      let line := assembler.factLine fact
      if maxTokens < tokensUsed + assembler.tokenCounter line then []
      else line :: factLines maxTokens (tokensUsed + assembler.tokenCounter line) facts

def formatFacts (facts : List Fact) (maxTokens : Int) : String :=
  let lines := assembler.factLines maxTokens (assembler.tokenCounter "<facts>\n</facts>") facts
  if lines = [] then "" else "<facts>\n" ++ "\n".intercalate lines ++ "\n</facts>"

def factsText : String :=
  assembler.formatFacts (assembler.selectedFacts request)
    ((assembler.fillPool request).factsTokens + 100)

/-- The parts of the text: core, hint, sections by priority, facts. -/
def prependParts (tagSections : Entries String SectionSource) : List String :=
  [assembler.core request, request.contextHint].filter (· ≠ "") ++
    (assembler.sortedTags request).filterMap (fun tag =>
      (tagSections.get tag).map (assembler.formatSection tag)) ++
    [assembler.factsText request].filter (· ≠ "")

def prependText (tagSections : Entries String SectionSource) : String :=
  "\n\n".intercalate (assembler.prependParts request tagSections)

/-- The hard cap: sections are dropped in this order until the text fits. -/
def dropTags : List String → PrependState → PrependState
  | [], st => st
  | dropTag :: tags, st =>
      match st.tagSections.get dropTag with
      | none => dropTags tags st
      | some source =>
          let tagSections := st.tagSections.filter (·.1 ≠ dropTag)
          let text := assembler.prependText request tagSections
          let st' : PrependState :=
            { tagSections
              tagTokens := st.tagTokens -
                assembler.tokenCounter (assembler.formatSection dropTag source)
              prependText := text }
          if assembler.tokenCounter text ≤ request.tokenBudget then st' else dropTags tags st'

def hardCap : PrependState :=
  let filled := assembler.fillPool request
  let text := assembler.prependText request filled.tagSections
  let st : PrependState :=
    { tagSections := filled.tagSections, tagTokens := filled.tagTokens, prependText := text }
  if request.tokenBudget < assembler.tokenCounter text then
    assembler.dropTags request (assembler.sortedTags request).reverse st
  else st

/-! ## The result -/

/-- The references of the tags that were selected, before the hard cap. -/
def presentedRefs (tagSections : Entries String SectionSource) : List String :=
  let ofSummaries := request.retrieval.summaries.filter fun s =>
    s.primaryTag ∈ tagSections.keys ∧ s.ref ≠ ""
  let ofSegments := (request.fullSegments.filter (·.1 ∈ tagSections.keys)).flatMap (·.2)
  appendMissing [] (ofSummaries.map (·.ref) ++ (ofSegments.map (·.ref)).filter (· ≠ ""))

/-- The newest messages that fit, from the newest one on. -/
def newestWithin (budget : Int) : Int → List String → List String
  | _, [] => []
  | tokensUsed, content :: contents =>
      if budget < tokensUsed + assembler.tokenCounter content then []
      else content :: newestWithin budget (tokensUsed + assembler.tokenCounter content) contents

def trimConversation (history : List String) (budget : Int) : List String :=
  if budget ≤ 0 then [] else (assembler.newestWithin budget 0 history.reverse).reverse

def assemble : Assembled :=
  let filled := assembler.fillPool request
  let capped := assembler.hardCap request
  let coreTokens := assembler.tokenCounter (assembler.core request)
  let factsTokens := if assembler.factsText request = "" then 0
    else assembler.tokenCounter (assembler.factsText request)
  let trimmed := assembler.trimConversation request.conversationHistory
    (request.tokenBudget - coreTokens - filled.tagTokens - assembler.hintTokens request -
      factsTokens)
  { coreContext := assembler.core request
    tagSections := capped.tagSections
    factsText := assembler.factsText request
    conversationHistory := trimmed
    totalTokens := coreTokens + capped.tagTokens + factsTokens +
      (trimmed.map assembler.tokenCounter).sum
    prependText := capped.prependText
    presentedSegmentRefs := presentedRefs request filled.tagSections
    selectedFacts := assembler.selectedFacts request }

end ContextAssembler

end VirtualContext
