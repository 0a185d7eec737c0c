import VirtualContext.Core.ToolLoop
import VirtualContext.Core.TurnTagIndex
import VirtualContext.Proxy.MessageBodies

/-!
# Tool outputs of a request

The messages of any format as far as tool calls and their outputs are read from
them, the turns they are grouped into, and the replacement of an output.
-/

namespace VirtualContext

open VirtualContext.Library

variable {ρ : Type}

/-! ## Messages -/

/-- An item in the content list of a result. -/
inductive OutputItem (ρ : Type) where
  | text (text : Text) (rest : Fields ρ)
  | string (text : Text)
  | other (value : ρ)
  deriving DecidableEq, Repr

inductive OutputContent (ρ : Type) where
  | text (text : Text)
  | items (items : List (OutputItem ρ))
  /-- Any other value; `none` is one that is false, or a missing one. -/
  | other (value : Option ρ)
  deriving DecidableEq, Repr

/-- The arguments of a call: a text, a dict, or another value. -/
inductive CallArguments (ρ : Type) where
  | text (text : Text)
  | fields (fields : List (Text × (Text ⊕ ρ)))
  | other (value : ρ)
  deriving DecidableEq, Repr

/-- An element of a content list, by the type of the dict. -/
inductive StubBlock (ρ : Type) where
  | text (type : String) (text : Text) (rest : Fields ρ)
  | toolUse (id name : String) (input : Option (CallArguments ρ)) (rest : Fields ρ)
  | toolResult (toolUseId : String) (content : OutputContent ρ) (rest : Fields ρ)
  | dict (type : Option String) (rest : Fields ρ)
  | other (value : ρ)
  deriving DecidableEq, Repr

inductive StubContent (ρ : Type) where
  | text (text : Text)
  | blocks (blocks : List (StubBlock ρ))
  | other (value : Option ρ)
  deriving DecidableEq, Repr

/-- A dict in `parts`. -/
structure StubPart (ρ : Type) where
  text : Option Text := none
  functionCall : Bool := false
  functionResponse : Bool := false
  rest : Fields ρ := []
  deriving DecidableEq, Repr

/-- A dict in `tool_calls`, whose function may be no dict. -/
structure StubToolCall (ρ : Type) where
  id : String := ""
  name : String := ""
  arguments : Option (CallArguments ρ) := none
  deriving DecidableEq, Repr

structure StubMessage (ρ : Type) where
  role : Option String := none
  type : Option String := none
  content : StubContent ρ := .other none
  toolCalls : List (StubToolCall ρ) := []
  toolCallId : String := ""
  callId : String := ""
  name : String := ""
  arguments : Option (CallArguments ρ) := none
  output : OutputContent ρ := .other none
  parts : List (StubPart ρ) := []
  rest : Fields ρ := []
  deriving DecidableEq, Repr

namespace StubBlock

def type? : StubBlock ρ → Option (Option String)
  | .text kind _ _ => some (some kind)
  | .toolUse .. => some (some "tool_use")
  | .toolResult .. => some (some "tool_result")
  | .dict kind _ => some kind
  | .other _ => none

def fields : StubBlock ρ → Fields ρ
  | .text _ _ rest => rest
  | .toolUse _ _ _ rest => rest
  | .toolResult _ _ rest => rest
  | .dict _ rest => rest
  | .other _ => []

/-- The text of a block of one of the text types. -/
def text? : StubBlock ρ → Option Text
  | .text kind words _ =>
      if kind ∈ ["text", "input_text", "output_text"] then some words else none
  | _ => none

def isToolResult : StubBlock ρ → Bool
  | .toolResult .. => true
  | _ => false

end StubBlock

def StubPart.text? (part : StubPart ρ) : Option Text :=
  if part.functionCall || part.functionResponse then none else part.text

namespace StubMessage

variable (msg : StubMessage ρ)

def blocks : List (StubBlock ρ) :=
  match msg.content with
  | .blocks blocks => blocks
  | _ => []

/-! ## Turns -/

/-- All parts that say anything are function responses. -/
def onlyFunctionResponses : Bool :=
  !msg.parts.isEmpty && msg.parts.all (·.functionResponse)

/-- A message of this kind begins a turn. -/
def isRealUser (fmt : ApiFormat) : Bool :=
  msg.role = some "user" &&
    match fmt with
    | .anthropic => !msg.blocks.any (·.isToolResult)
    | .gemini => !msg.onlyFunctionResponses
    | .openai | .openaiResponses => true

end StubMessage

/-- A message joins the last turn, unless it begins one. -/
def placeMessage (fmt : ApiFormat) (turns : List (List Nat)) (entry : StubMessage ρ × Nat) :
    List (List Nat) :=
  match turns.getLast? with
  | some turn =>
      if entry.1.isRealUser fmt then turns ++ [[entry.2]]
      else turns.dropLast ++ [turn ++ [entry.2]]
  | none => [[entry.2]]

def groupIntoTurns (fmt : ApiFormat) (messages : List (StubMessage ρ)) : List (List Nat) :=
  messages.zipIdx.foldl (placeMessage fmt) []

/-! ## Calls and outputs -/

namespace StubMessage

variable (msg : StubMessage ρ)

/-- The calls of one message, by their identifiers. -/
def toolCallInfos : List (StubToolCall ρ) :=
  (if msg.role = some "assistant" then
    msg.blocks.filterMap (fun block =>
      match block with
      | .toolUse id name input _ => some ⟨id, name, input⟩
      | _ => none) ++ msg.toolCalls
  else []) ++
    if msg.type = some "function_call" then [⟨msg.callId, msg.name, msg.arguments⟩] else []

end StubMessage

/-- Where an output is kept in its message. -/
inductive OutputCarrier where
  | anthropic (block : Nat)
  | openaiChat
  | openaiResponses
  deriving DecidableEq, Repr

structure ToolOutputInfo where
  callId : String
  /-- `none` is content that is no text. -/
  content : Option Text
  carrier : OutputCarrier
  msgIndex : Nat
  deriving DecidableEq, Repr

def OutputItem.text? : OutputItem ρ → Option Text
  | .text words _ => some words
  | .string words => some words
  | .other _ => none

/-- `"\n".join(parts)` -/
def joinLines : List Text → Text
  | [] => []
  | [text] => text
  | text :: texts => text ++ '\n' :: joinLines texts

/-- `_extract_tool_result_text` -/
def extractToolResultText : OutputContent ρ → Text
  | .text text => text
  | .items items => joinLines (items.filterMap (·.text?))
  | .other _ => []

/-- `msg.get("output", "") or ""` -/
def OutputContent.orEmpty : OutputContent ρ → Option Text
  | .text words => some words
  | .items list => if list.isEmpty then some [] else none
  | .other none => some []
  | .other (some _) => none

/-- `msg.get("content", "") or ""` -/
def StubContent.orEmpty : StubContent ρ → Option Text
  | .text words => some words
  | .blocks list => if list.isEmpty then some [] else none
  | .other none => some []
  | .other (some _) => none

namespace StubMessage

variable (msg : StubMessage ρ)

/-- The outputs of one message. -/
def toolOutputInfos (i : Nat) : List ToolOutputInfo :=
  (if msg.role = some "user" then
    msg.blocks.zipIdx.filterMap fun entry =>
      match entry.1 with
      | .toolResult id content _ =>
          some ⟨id, some (extractToolResultText content), .anthropic entry.2, i⟩
      | _ => none
  else []) ++
    (if msg.role = some "tool" then
      [⟨msg.toolCallId, msg.content.orEmpty, .openaiChat, i⟩] else []) ++
    if msg.type = some "function_call_output" then
      [⟨msg.callId, msg.output.orEmpty, .openaiResponses, i⟩] else []

/-- Writes a text where an output is kept. -/
def setOutput (carrier : OutputCarrier) (text : Text) : StubMessage ρ :=
  match carrier with
  | .anthropic n =>
      { msg with content := .blocks (msg.blocks.modify n fun block =>
          match block with
          | .toolResult id _ rest => .toolResult id (.text text) rest
          | block => block) }
  | .openaiChat => { msg with content := .text text }
  | .openaiResponses => { msg with output := .text text }

end StubMessage

def iterToolCalls (messages : List (StubMessage ρ)) : List (StubToolCall ρ) :=
  messages.flatMap (·.toolCallInfos)

def iterToolOutputs (messages : List (StubMessage ρ)) : List ToolOutputInfo :=
  messages.zipIdx.flatMap fun entry => entry.1.toolOutputInfos entry.2

def replaceToolOutputContent (messages : List (StubMessage ρ)) (output : ToolOutputInfo)
    (text : Text) : List (StubMessage ρ) :=
  messages.modify output.msgIndex (·.setOutput output.carrier text)

/-! ## Texts -/

/-- What is computed elsewhere: `str` of a value, the length of a message as JSON,
`_strip_envelope`, and the parts of `sha256` that identify a turn and an output. -/
structure StubEnv (ρ : Type) where
  printed : ρ → Text
  dumped : StubMessage ρ → Nat
  stripEnvelope : Text → Text
  turnHash : Text → HexDigest
  outputHash : Text → Text

/-- `" ".join(text.split())` -/
def collapseWhitespace (text : Text) : Text :=
  List.intercalate [' '] ((text.splitOnP isPySpace).filter (· ≠ []))

def summaryLength : Nat := 200

/-- `_summarise_arguments` -/
def summariseArguments (printed : ρ → Text) : Option (CallArguments ρ) → Text
  | none => []
  | some args =>
      let text :=
        match args with
        | .text text => text
        | .fields fields => List.intercalate [' '] (fields.map fun field =>
            field.1 ++ '=' :: field.2.elim id printed)
        | .other value => printed value
      let text := collapseWhitespace text
      if summaryLength < text.length then text.take summaryLength ++ "...".toList else text

namespace StubMessage

variable (msg : StubMessage ρ)

/-- `_is_tool_result_only_user` -/
def isToolResultOnlyUser : Bool :=
  (msg.role = some "user" || msg.role = some "human") &&
    (let types := msg.blocks.filterMap (·.type?)
    (!types.isEmpty && types.all (· = some "tool_result")) ||
      (msg.parts.any (·.functionResponse) &&
        !msg.parts.any fun part => part.text.isSome && !part.functionResponse))

/-- `_extract_text_for_stub_hash` -/
def textForStubHash (stripEnvelope : Text → Text) : Text :=
  let found :=
    match msg.content with
    | .text text => some text
    | _ => (msg.blocks.reverse.findSome? StubBlock.text?).or
        (msg.parts.reverse.findSome? StubPart.text?)
  (found.map fun text => pyStripChars (stripEnvelope text)).getD []

end StubMessage

end VirtualContext
