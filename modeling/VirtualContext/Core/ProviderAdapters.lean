import VirtualContext.Proxy.ContextInjection

/-!
# Provider adapters

The wire formats of the tool loop: what a response calls, how its output and the
results are appended to the request, and how earlier output is compressed.
-/

namespace VirtualContext

open VirtualContext.Library

/-! ## Wire data -/

/-- A dict in a content list, or a Gemini part. -/
inductive WireBlock (ρ : Type) where
  /-- `type` is missing in a part. -/
  | text (type : Option String) (text : Text) (rest : Fields ρ)
  | toolUse (id name : String) (input : ρ)
  | toolResult (toolUseId : String) (content : Text) (rest : Fields ρ)
  | functionCall (name : String) (args : ρ)
  | functionResponse (name : String) (response : Text) (rest : Fields ρ)
  | other (value : ρ)
  deriving DecidableEq, Repr

inductive WireContent (ρ : Type) where
  | text (text : Text)
  | blocks (blocks : List (WireBlock ρ))
  /-- Anything else, or no content. -/
  | other (value : Option ρ)
  deriving DecidableEq, Repr

/-- A tool call of a chat message. -/
structure ChatToolCall where
  id : String
  name : String
  arguments : Text
  deriving DecidableEq, Repr

/-- A message of `messages` or `contents`, or an item of `input`. -/
structure WireEntry (ρ : Type) where
  role : Option String := none
  type : Option String := none
  content : WireContent ρ := .other none
  toolCalls : List ChatToolCall := []
  toolCallId : Option String := none
  callId : Option String := none
  id : Option String := none
  name : Option String := none
  arguments : Option Text := none
  output : Option Text := none
  parts : List (WireBlock ρ) := []
  rest : Fields ρ := []
  deriving DecidableEq, Repr

structure ChatChoice (ρ : Type) where
  message : WireEntry ρ
  finishReason : String := "stop"
  assistant : message.role = some "assistant" := by rfl
  deriving DecidableEq, Repr

structure GeminiCandidate (ρ : Type) where
  parts : List (WireBlock ρ) := []
  finishReason : String := "STOP"
  deriving DecidableEq, Repr

/-- A decoded response; the lists of the other formats are missing. -/
structure ProviderResponse (ρ : Type) where
  content : List (WireBlock ρ) := []
  stopReason : String := "end_turn"
  choices : List (ChatChoice ρ) := []
  output : List (WireEntry ρ) := []
  failed : Bool := false
  candidates : List (GeminiCandidate ρ) := []
  deriving DecidableEq, Repr

/-- The input of a call, or the text of its arguments before it is decoded. -/
inductive ToolInput (ρ : Type) where
  | decoded (value : ρ)
  | arguments (text : Text)
  deriving DecidableEq, Repr

/-- A call as `{id, name, input}`. -/
structure ToolCall (ρ : Type) where
  id : String
  name : String
  input : ToolInput ρ
  deriving DecidableEq, Repr

inductive WireTool where
  | function (name : String)
  | declarations (names : List String)
  deriving DecidableEq, Repr

/-- What a provider formats a result as. -/
inductive WireResult (ρ : Type) where
  | block (block : WireBlock ρ)
  | entry (entry : WireEntry ρ)
  deriving DecidableEq, Repr

inductive Provider where
  | anthropic | openai | codex | gemini
  deriving DecidableEq, Repr

variable {ρ : Type}

namespace WireContent

def toBlocks : WireContent ρ → List (WireBlock ρ)
  | .blocks elements => elements
  | _ => []

end WireContent

namespace WireResult

def toBlock : WireResult ρ → Option (WireBlock ρ)
  | .block element => some element
  | .entry _ => none

def toEntry : WireResult ρ → Option (WireEntry ρ)
  | .block _ => none
  | .entry message => some message

/-- `_extract_call_ids` of one result; the content of a block is a text. -/
def callId : WireResult ρ → Option String
  | .block _ => none
  | .entry message =>
      (message.callId.filter (· ≠ "")).or (message.toolCallId.filter (· ≠ ""))

end WireResult

namespace ProviderResponse

variable (response : ProviderResponse ρ)

/-- The parts of the first candidate. -/
def parts : List (WireBlock ρ) := (response.candidates.head?.map (·.parts)).getD []

/-- The items of a Responses output that are calls. -/
def functionCalls : List (WireEntry ρ) :=
  response.output.filter (·.type = some "function_call")

end ProviderResponse

/-! ## Compression -/

def compressedMarker : Text := "[Previous reasoning compressed]".toList

/-- `text.startswith("[Previous")` -/
def isCompressed (text : Text) : Bool := "[Previous".toList.isPrefixOf text

/-- Compresses a text block, if `reads` says so. -/
def WireBlock.compress (reads : Option String → Text → Bool) : WireBlock ρ → WireBlock ρ
  | .text kind words rest =>
      if reads kind words && !isCompressed words then .text kind compressedMarker rest
      else .text kind words rest
  | element => element

/-! ## Anthropic -/

namespace AnthropicAdapter

def extractText (response : ProviderResponse ρ) : Text :=
  response.content.flatMap fun block =>
    match block with
    | .text (some "text") text _ => text
    | _ => []

def extractToolCalls (response : ProviderResponse ρ) : List (ToolCall ρ) :=
  response.content.filterMap fun block =>
    match block with
    | .toolUse id name input => some ⟨id, name, .decoded input⟩
    | _ => none

def isToolUseStop (response : ProviderResponse ρ) : Bool :=
  response.stopReason = "tool_use"

def getStopReason (response : ProviderResponse ρ) : String := response.stopReason

def buildToolResult (call : ToolCall ρ) (content : Text) : WireResult ρ :=
  .block (.toolResult call.id content [])

def outputEntries (response : ProviderResponse ρ) : List (WireEntry ρ) :=
  [{ role := some "assistant", content := .blocks response.content }]

def resultEntries (results : List (WireResult ρ)) : List (WireEntry ρ) :=
  [{ role := some "user", content := .blocks (results.filterMap (·.toBlock)) }]

def compressEntry (entry : WireEntry ρ) : WireEntry ρ :=
  match entry.content with
  | .blocks blocks =>
      if entry.role = some "assistant" then
        { entry with
          content := .blocks (blocks.map (·.compress fun type _ => type = some "text")) }
      else entry
  | _ => entry

def currentStart (ids : List String) (entries : List (WireEntry ρ)) : Nat :=
  entries.findIdx fun entry =>
    entry.role = some "user" && entry.content.toBlocks.any fun block =>
      match block with
      | .toolResult id _ _ => id ∈ ids
      | _ => false

end AnthropicAdapter

/-! ## OpenAI -/

namespace OpenAIAdapter

def extractText (response : ProviderResponse ρ) : Text :=
  match response.choices with
  | [] => []
  | choice :: _ =>
      match choice.message.content with
      | .text text => text
      | _ => []

def extractToolCalls (response : ProviderResponse ρ) : List (ToolCall ρ) :=
  match response.choices with
  | [] => []
  | choice :: _ => choice.message.toolCalls.map fun call =>
      ⟨call.id, call.name, .arguments call.arguments⟩

def isToolUseStop (response : ProviderResponse ρ) : Bool :=
  response.choices.head?.any (·.finishReason = "tool_calls")

def getStopReason (response : ProviderResponse ρ) : String :=
  match response.choices with
  | [] => "error"
  | choice :: _ =>
      if choice.finishReason = "stop" then "end_turn"
      else if choice.finishReason = "tool_calls" then "tool_use"
      else choice.finishReason

def buildToolResult (call : ToolCall ρ) (content : Text) : WireResult ρ :=
  .entry { role := some "tool", toolCallId := some call.id, content := .text content }

def outputEntries (response : ProviderResponse ρ) : List (WireEntry ρ) :=
  match response.choices with
  | [] => [{ role := some "assistant", content := .text [] }]
  | choice :: _ => [choice.message]

def resultEntries (results : List (WireResult ρ)) : List (WireEntry ρ) :=
  results.filterMap (·.toEntry)

def compressContent : WireContent ρ → WireContent ρ
  | .text text =>
      if text ≠ [] ∧ !isCompressed text then .text compressedMarker else .text text
  | content => content

def compressEntry (entry : WireEntry ρ) : WireEntry ρ :=
  if entry.role = some "assistant" then
    { entry with
      content := compressContent entry.content
      toolCalls := entry.toolCalls.map ({ · with arguments := "{}".toList }) }
  else entry

def currentStart (ids : List String) (entries : List (WireEntry ρ)) : Nat :=
  entries.findIdx fun entry =>
    entry.role = some "tool" && entry.toolCallId.any (· ∈ ids)

/-- `_VC_BLOCK_RE.sub(new_block, text, count=1)`, or the block in front. -/
def injectBlock (block text : Text) : Text :=
  match vcBlockRe.find text with
  | some (before, _, after) => before ++ block ++ after
  | none => if text = [] then block else block ++ "\n\n".toList ++ text

/-- The system message with a block in its text. -/
def injectSystem (block : Text) (entry : WireEntry ρ) : WireEntry ρ :=
  match entry.content with
  | .text text => { entry with content := .text (injectBlock block text) }
  | _ => entry

end OpenAIAdapter

/-! ## Codex -/

namespace OpenAICodexAdapter

def extractText (response : ProviderResponse ρ) : Text :=
  (response.output.filter (·.type = some "message")).flatMap fun item =>
    item.content.toBlocks.flatMap fun block =>
      match block with
      | .text (some "output_text") text _ => text
      | _ => []

/-- The calls of a response; `fresh` are the values of `uuid.uuid4()`. -/
def extractToolCalls (fresh : Nat → String) (response : ProviderResponse ρ) :
    List (ToolCall ρ) :=
  response.functionCalls.zipIdx.map fun entry =>
    ⟨(entry.1.callId.or entry.1.id).getD (fresh entry.2), entry.1.name.getD "",
      .arguments (entry.1.arguments.getD [])⟩

def isToolUseStop (response : ProviderResponse ρ) : Bool := !response.functionCalls.isEmpty

def getStopReason (response : ProviderResponse ρ) : String :=
  if response.failed then "error"
  else if isToolUseStop response then "tool_use"
  else "end_turn"

def buildToolResult (call : ToolCall ρ) (content : Text) : WireResult ρ :=
  .entry
    { type := some "function_call_output"
      callId := some call.id
      output := some content }

def outputEntries (response : ProviderResponse ρ) : List (WireEntry ρ) :=
  response.functionCalls.map fun item =>
    { type := some "function_call"
      callId := some ((item.callId.or item.id).getD "")
      name := some (item.name.getD "")
      arguments := some (item.arguments.getD "{}".toList) }

def resultEntries (results : List (WireResult ρ)) : List (WireEntry ρ) :=
  results.filterMap (·.toEntry)

def compressEntry (entry : WireEntry ρ) : WireEntry ρ :=
  if entry.type = some "function_call" then { entry with arguments := some "{}".toList }
  else
    match entry.content with
    | .blocks blocks =>
        if entry.type = some "message" ∧ entry.role = some "assistant" then
          { entry with
            content := .blocks (blocks.map
              (·.compress fun type text => type = some "output_text" && text ≠ [])) }
        else entry
    | _ => entry

def currentStart (ids : List String) (entries : List (WireEntry ρ)) : Nat :=
  entries.findIdx fun entry =>
    entry.type = some "function_call_output" && entry.callId.any (· ∈ ids)

end OpenAICodexAdapter

/-! ## Gemini -/

namespace GeminiAdapter

def extractText (response : ProviderResponse ρ) : Text :=
  response.parts.flatMap fun part =>
    match part with
    | .text _ text _ => text
    | _ => []

def functionCall? : WireBlock ρ → Option (String × ρ)
  | .functionCall name args => some (name, args)
  | _ => none

/-- The calls of a response, which have no identifiers of their own. -/
def extractToolCalls (fresh : Nat → String) (response : ProviderResponse ρ) :
    List (ToolCall ρ) :=
  (response.parts.filterMap functionCall?).zipIdx.map fun entry =>
    ⟨fresh entry.2, entry.1.1, .decoded entry.1.2⟩

def isToolUseStop (response : ProviderResponse ρ) : Bool :=
  response.parts.any fun part => (functionCall? part).isSome

def getStopReason (response : ProviderResponse ρ) : String :=
  if isToolUseStop response then "tool_use"
  else
    match response.candidates with
    | [] => "error"
    | candidate :: _ =>
        if candidate.finishReason = "STOP" then "end_turn"
        else candidate.finishReason.map Char.toLower

def buildToolResult (call : ToolCall ρ) (content : Text) : WireResult ρ :=
  .block (.functionResponse call.name content [])

def outputEntries (response : ProviderResponse ρ) : List (WireEntry ρ) :=
  [{ role := some "model", parts := response.parts }]

def resultEntries (results : List (WireResult ρ)) : List (WireEntry ρ) :=
  [{ role := some "user", parts := results.filterMap (·.toBlock) }]

def compressEntry (entry : WireEntry ρ) : WireEntry ρ :=
  if entry.role = some "model" then
    { entry with parts := entry.parts.map (·.compress fun _ _ => true) }
  else entry

/-- All but the last entry. -/
def currentStart (entries : List (WireEntry ρ)) : Nat := entries.length - 1

end GeminiAdapter

/-! ## The adapter of a provider -/

namespace Provider

variable (p : Provider)

def extractText (response : ProviderResponse ρ) : Text :=
  match p with
  | .anthropic => AnthropicAdapter.extractText response
  | .openai => OpenAIAdapter.extractText response
  | .codex => OpenAICodexAdapter.extractText response
  | .gemini => GeminiAdapter.extractText response

def extractToolCalls (fresh : Nat → String) (response : ProviderResponse ρ) :
    List (ToolCall ρ) :=
  match p with
  | .anthropic => AnthropicAdapter.extractToolCalls response
  | .openai => OpenAIAdapter.extractToolCalls response
  | .codex => OpenAICodexAdapter.extractToolCalls fresh response
  | .gemini => GeminiAdapter.extractToolCalls fresh response

def isToolUseStop (response : ProviderResponse ρ) : Bool :=
  match p with
  | .anthropic => AnthropicAdapter.isToolUseStop response
  | .openai => OpenAIAdapter.isToolUseStop response
  | .codex => OpenAICodexAdapter.isToolUseStop response
  | .gemini => GeminiAdapter.isToolUseStop response

def getStopReason (response : ProviderResponse ρ) : String :=
  match p with
  | .anthropic => AnthropicAdapter.getStopReason response
  | .openai => OpenAIAdapter.getStopReason response
  | .codex => OpenAICodexAdapter.getStopReason response
  | .gemini => GeminiAdapter.getStopReason response

def buildToolResult (call : ToolCall ρ) (content : Text) : WireResult ρ :=
  match p with
  | .anthropic => AnthropicAdapter.buildToolResult call content
  | .openai => OpenAIAdapter.buildToolResult call content
  | .codex => OpenAICodexAdapter.buildToolResult call content
  | .gemini => GeminiAdapter.buildToolResult call content

/-- The output of a response, as `build_continuation` appends it. -/
def outputEntries (response : ProviderResponse ρ) : List (WireEntry ρ) :=
  match p with
  | .anthropic => AnthropicAdapter.outputEntries response
  | .openai => OpenAIAdapter.outputEntries response
  | .codex => OpenAICodexAdapter.outputEntries response
  | .gemini => GeminiAdapter.outputEntries response

/-- The results, as `build_continuation` appends them. -/
def resultEntries (results : List (WireResult ρ)) : List (WireEntry ρ) :=
  match p with
  | .anthropic => AnthropicAdapter.resultEntries results
  | .openai => OpenAIAdapter.resultEntries results
  | .codex => OpenAICodexAdapter.resultEntries results
  | .gemini => GeminiAdapter.resultEntries results

/-- What `compress_previous_results` makes of one entry. -/
def compressEntry (entry : WireEntry ρ) : WireEntry ρ :=
  match p with
  | .anthropic => AnthropicAdapter.compressEntry entry
  | .openai => OpenAIAdapter.compressEntry entry
  | .codex => OpenAICodexAdapter.compressEntry entry
  | .gemini => GeminiAdapter.compressEntry entry

/-- The first place that `compress_previous_results` leaves. -/
def currentStart (ids : List String) (entries : List (WireEntry ρ)) : Nat :=
  match p with
  | .anthropic => AnthropicAdapter.currentStart ids entries
  | .openai => OpenAIAdapter.currentStart ids entries
  | .codex => OpenAICodexAdapter.currentStart ids entries
  | .gemini => GeminiAdapter.currentStart entries

end Provider

end VirtualContext
