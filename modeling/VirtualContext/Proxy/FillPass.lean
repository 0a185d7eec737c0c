import Mathlib.Data.List.Dedup
import VirtualContext.Proxy.ContextInjection

/-!
# The fill pass

`fill_pass` uses the tokens that a request has left: it injects summaries of
tags that the context does not cover yet, and then inserts turns that were
dropped.  Which turns these are is a parameter; they are only inserted.
-/

namespace VirtualContext

variable {ρ : Type}

/-! ## Sections -/

/-- A retrieved summary of a segment. -/
structure StoredSummary where
  ref : String := ""
  primaryTag : String := "_general"
  tags : List String := []
  summary : String := ""
  sessionDate : String := ""
  codeRefs : List CodeRef := []
  deriving DecidableEq, Repr

/-- `file[:line] [symbol]` -/
def formatCodeRef (ref : CodeRef) : String :=
  let label :=
    match ref.line with
    | some line => if 0 < line then ref.file ++ ":" ++ toString line else ref.file
    | none => ref.file
  let label := if ref.symbol = "" then label else pyStrip (label ++ " " ++ ref.symbol)
  pyStrip label

/-- `format_tag_section` of one summary, without a store. -/
def formatTagSection (tag : String) (s : StoredSummary) : Text :=
  let allTags := s.tags.dedup.mergeSort fun a b => decide (a ≤ b)
  let tagsAttr := if allTags = [] then tag else ", ".intercalate allTags
  let session := if s.sessionDate = "" then "" else " [" ++ s.sessionDate ++ "]"
  let refs := (s.codeRefs.filter fun ref => ref.file ≠ "").map formatCodeRef
  let refsLine := if refs = [] then "" else "\n[refs: " ++ ", ".intercalate refs ++ "]"
  let toolLine :=
    match s.tags.filter fun t => t.startsWith "tool_" with
    | [] => ""
    | tool :: _ =>
        "\n[tool output truncated — vc_expand_topic(\"" ++ tool ++ "\") for full result]"
  tagsFront ++ tagsAttr.toList ++ "\" segments=\"1\">\n".toList ++
    ("[1/1]" ++ session ++ "\n" ++ s.summary ++ refsLine ++ toolLine).toList ++ sectionBack

/-! ## The request -/

/-- `AssembledContext`, with the summaries that did not fit its budget. -/
structure AssembledContext where
  presentedSegmentRefs : List String := []
  presentedTags : List String := []
  overflowSummaries : List StoredSummary := []
  deriving DecidableEq, Repr

/-- The tag summaries are `none` without a store. -/
structure FillRequest where
  outboundTokens : Int
  targetTokens : Int
  assembled : Option AssembledContext := none
  tagSummaries : Option (List TagSummary) := none
  summaryRatio : ℚ := 3 / 5

def FillRequest.headroom (req : FillRequest) : Int :=
  req.targetTokens - req.outboundTokens

/-- `int(headroom * summary_ratio)` -/
def FillRequest.summaryBudget (req : FillRequest) : Int :=
  let product := (req.headroom : ℚ) * req.summaryRatio
  product.num.tdiv product.den

/-! ## Phase 1: summaries -/

/-- The source counts the sections; their texts are kept here as well. -/
structure FillState (β : Type) where
  body : β
  tokensUsed : Int := 0
  presentedRefs : List String := []
  coveredTags : List String := []
  sections : List Text := []

variable {β : Type} (inject : β → Text → β)

/-- `_append_to_context`, if the section fits. -/
def FillState.append (budget : Int) (st : FillState β) (text : Text)
    (refs tags : List String) : FillState β :=
  let tokens : Int := text.length / 4
  if st.tokensUsed + tokens > budget then st
  else
    { body := inject st.body text
      tokensUsed := st.tokensUsed + tokens
      presentedRefs := st.presentedRefs ++ refs
      coveredTags := st.coveredTags ++ tags
      sections := st.sections ++ [text] }

def FillState.addOverflow (budget : Int) (st : FillState β) (s : StoredSummary) :
    FillState β :=
  if s.primaryTag ∈ st.coveredTags then st
  else if s.ref ∈ st.presentedRefs then st
  else st.append inject budget (formatTagSection s.primaryTag s) [s.ref]
    (s.primaryTag :: s.tags)

def FillState.addBreadth (budget : Int) (st : FillState β) (ts : TagSummary) :
    FillState β :=
  if ts.tag ∈ st.coveredTags then st
  else if ts.sourceSegmentRefs ≠ [] ∧ ∀ ref ∈ ts.sourceSegmentRefs, ref ∈ st.presentedRefs
    then st
  else st.append inject budget
    (formatBreadthSection ts.tag.toList ts.summary.toList) ts.sourceSegmentRefs [ts.tag]

/-- `sorted(..., key=updated_at, reverse=True)` -/
def newestFirst (summaries : List TagSummary) : List TagSummary :=
  summaries.mergeSort fun a b => decide (b.updatedAt ≤ a.updatedAt)

def fillSummaries (req : FillRequest) (body : β) : FillState β :=
  let budget := req.summaryBudget
  let start : FillState β :=
    { body
      presentedRefs := (req.assembled.map (·.presentedSegmentRefs)).getD []
      coveredTags := (req.assembled.map (·.presentedTags)).getD [] }
  let st := ((req.assembled.map (·.overflowSummaries)).getD []).foldl
    (FillState.addOverflow inject budget) start
  match req.tagSummaries with
  | some summaries =>
      if st.tokensUsed < budget then
        (newestFirst summaries).foldl (FillState.addBreadth inject budget) st
      else st
  | none => st

/-! ## Phase 2: turns -/

/-- The length of the system and developer prefix. -/
def prefixLength {μ : Type} (roleOf : μ → Option String) (messages : List μ) : Nat :=
  (messages.takeWhile fun msg =>
    roleOf msg = some "system" || roleOf msg = some "developer").length

def insertAfterPrefix {μ : Type} (roleOf : μ → Option String) (messages items : List μ) :
    List μ :=
  messages.take (prefixLength roleOf messages) ++ items ++
    messages.drop (prefixLength roleOf messages)

def InputItem.role : InputItem ρ → Option String
  | .message msg => msg.role
  | .other _ => none

namespace ApiFormat

def Item (ρ : Type) : ApiFormat → Type
  | .anthropic => ChatMessage ρ
  | .openai => ChatMessage ρ
  | .gemini => GeminiMessage ρ
  | .openaiResponses => InputItem ρ

/-- A list that the body does not hold is inserted into in vain. -/
def insertTurn : (fmt : ApiFormat) → fmt.Body ρ → List (fmt.Item ρ) → fmt.Body ρ
  | .anthropic => fun (body : ChatBody ρ) items =>
      { body with messages := body.messages.map fun messages =>
          insertAfterPrefix ChatMessage.role messages items }
  | .openai => fun (body : ChatBody ρ) items =>
      { body with messages := body.messages.map fun messages =>
          insertAfterPrefix ChatMessage.role messages items }
  | .gemini => fun (body : GeminiBody ρ) items =>
      { body with contents := body.contents.map fun contents =>
          insertAfterPrefix GeminiMessage.role contents items }
  | .openaiResponses => fun (body : ResponsesBody ρ) items =>
      match body.input with
      | some (.items input) =>
          { body with input := some (.items (insertAfterPrefix InputItem.role input items)) }
      | _ => body

end ApiFormat

structure FillResult (β : Type) where
  body : β
  sections : List Text
  turnsAdded : Nat

/-- The restored turns depend on the body and the tokens that are left. -/
def fillPass (breakpoint : ρ) (fmt : ApiFormat)
    (restoredTurns : fmt.Body ρ → Int → List (List (fmt.Item ρ))) (body : fmt.Body ρ)
    (req : FillRequest) : FillResult (fmt.Body ρ) :=
  if req.headroom ≤ 0 then { body, sections := [], turnsAdded := 0 }
  else
    let st := fillSummaries (fmt.injectContext breakpoint) req body
    let turnBudget := req.headroom - st.tokensUsed
    let turns := if turnBudget > 200 then restoredTurns st.body turnBudget else []
    { body := turns.foldl fmt.insertTurn st.body
      sections := st.sections
      turnsAdded := turns.length }

end VirtualContext
