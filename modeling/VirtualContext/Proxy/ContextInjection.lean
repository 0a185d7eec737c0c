import VirtualContext.Library.Matching
import VirtualContext.Proxy.MessageBodies

/-!
# Context injection

`inject_context` puts a block of context where the model reads it: behind the
last user message (Anthropic), into the first system message (OpenAI) or into
the system instruction (Gemini, Responses).  All but the first take an earlier
block out.
-/

namespace VirtualContext

open Library

variable {ρ : Type}

/-! ## Blocks -/

def openingRe : Matcher Char Unit :=
  Matcher.fixed 18 ["<virtual-context>\n".toList, "<system-reminder>\n".toList]
    (by decide) (by decide)

def closingRe : Matcher Char Unit :=
  Matcher.fixed 19 ["\n</virtual-context>".toList, "\n</system-reminder>".toList]
    (by decide) (by decide)

/-- `_VC_BLOCK_RE` -/
def vcBlockRe : Matcher Char Unit :=
  Matcher.between openingRe closingRe Matcher.fixed_settled

/-- `_VC_BLOCK_RE.sub("", text, count=1).strip()` -/
def cleanBlock (text : Text) : Text := pyStripChars (vcBlockRe.removeFirst text)

def blockFront : Text := "<system-reminder>\n".toList

def blockBack : Text := "\n</system-reminder>".toList

def contextBlock (text : Text) : Text := blockFront ++ text ++ blockBack

def tagsFront : Text := "<virtual-context tags=\"".toList

def breadthAttribute : Text := "\" type=\"breadth\">\n".toList

def sectionBack : Text := "\n</virtual-context>".toList

/-- `_format_breadth_section` -/
def formatBreadthSection (tag summary : Text) : Text :=
  tagsFront ++ tag ++ breadthAttribute ++ summary ++ sectionBack

/-- Cleans a text and drops it if nothing is left of it. -/
def Element.clean (keepsOther : Bool) : Element ρ → Option (Element ρ)
  | .other value => if keepsOther then some (.other value) else none
  | .part p =>
      match p.text with
      | none => some (.part p)
      | some text =>
          let cleaned := cleanBlock text
          if cleaned = [] then none else some (.part { p with text := some cleaned })

/-- The context is a text of its own behind those that are left. -/
def injectIntoElements (keepsOther : Bool) (type : Option String)
    (elements : List (Element ρ)) (text : Text) : List (Element ρ) :=
  elements.filterMap (Element.clean keepsOther) ++
    [.part { type, text := some (contextBlock text) }]

/-! ## The formats -/

namespace AnthropicFormat

/-- `block[key] = value` -/
def setField (key : String) (value : ρ) (fields : Fields ρ) : Fields ρ :=
  if fields.any (·.1 == key) then
    fields.map fun field => if field.1 = key then (key, value) else field
  else fields ++ [(key, value)]

/-- Sets the cache breakpoint on the last block that is a dict. -/
def markLast (breakpoint : ρ) (blocks : List (Element ρ)) : List (Element ρ) :=
  (replaceLast (fun
    | .part p =>
        some (.part { p with rest := setField "cache_control" breakpoint p.rest })
    | .other _ => none) blocks).getD blocks

def injectIntoMessage (breakpoint : ρ) (text : Text) (msg : ChatMessage ρ) :
    ChatMessage ρ :=
  let block : Element ρ := .part { type := some "text", text := some (contextBlock text) }
  match msg.content.getD (.text []) with
  | .text [] => { msg with content := some (.elements [block]) }
  | .text content =>
      let old : Element ρ := .part {
        type := some "text"
        text := some content
        rest := [("cache_control", breakpoint)] }
      { msg with content := some (.elements [old, block]) }
  | .elements blocks =>
      { msg with content := some (.elements (markLast breakpoint blocks ++ [block])) }
  | .other _ => msg

def injectIfUser (breakpoint : ρ) (text : Text) (msg : ChatMessage ρ) :
    Option (ChatMessage ρ) :=
  if msg.role = some "user" then some (injectIntoMessage breakpoint text msg) else none

def injectContext (breakpoint : ρ) (body : ChatBody ρ) (text : Text) : ChatBody ρ :=
  if text = [] then body
  else
    let messages := body.messages.getD []
    let block : Element ρ :=
      .part { type := some "text", text := some (contextBlock text) }
    let new := (replaceLast (injectIfUser breakpoint text) messages).getD
      (messages ++ [{ role := some "user", content := some (.elements [block]) }])
    { body with messages := some new }

end AnthropicFormat

/-- The context is put behind the text that is left of the old one. -/
def injectIntoText (content text : Text) : Text :=
  let cleaned := cleanBlock content
  if cleaned = [] then contextBlock text
  else cleaned ++ "\n\n".toList ++ contextBlock text

namespace OpenAIFormat

def injectIntoMessage (text : Text) (msg : ChatMessage ρ) : ChatMessage ρ :=
  match msg.content.getD (.text []) with
  | .text content => { msg with content := some (.text (injectIntoText content text)) }
  | .elements blocks =>
      { msg with
        content := some (.elements (injectIntoElements true (some "text") blocks text)) }
  | .other _ => msg

def injectIfSystem (text : Text) (msg : ChatMessage ρ) : Option (ChatMessage ρ) :=
  if msg.role = some "system" then some (injectIntoMessage text msg) else none

def injectContext (body : ChatBody ρ) (text : Text) : ChatBody ρ :=
  if text = [] then body
  else
    let messages := body.messages.getD []
    let new := (replaceFirst (injectIfSystem text) messages).getD
      ({ role := some "system", content := some (.text (contextBlock text)) } ::
        messages)
    { body with messages := some new }

end OpenAIFormat

namespace GeminiFormat

def instructionParts (body : GeminiBody ρ) : List (Element ρ) :=
  (body.systemInstruction.bind (·.parts)).getD []

/-- The other fields of the system instruction are not copied. -/
def injectContext (body : GeminiBody ρ) (text : Text) : GeminiBody ρ :=
  if text = [] then body
  else
    let parts := injectIntoElements false none (instructionParts body) text
    { body with systemInstruction := some { parts := some parts } }

end GeminiFormat

namespace OpenAIResponsesFormat

/-- The context is put in front of what is left of the instructions. -/
def injectInFront (instructions text : Text) : Text :=
  let cleaned := cleanBlock instructions
  if cleaned = [] then contextBlock text
  else contextBlock text ++ "\n\n".toList ++ cleaned

/-- Instructions that are no text are replaced. -/
def injectContext (body : ResponsesBody ρ) (text : Text) : ResponsesBody ρ :=
  if text = [] then body
  else
    match body.instructions.getD (.text []) with
    | .text instructions =>
        { body with instructions := some (.text (injectInFront instructions text)) }
    | .other _ => { body with instructions := some (.text (contextBlock text)) }

end OpenAIResponsesFormat

/-! ## The texts of a body -/

def Element.text? : Element ρ → Option Text
  | .part p => p.text
  | .other _ => none

def Content.texts : Content ρ → List Text
  | .text t => [t]
  | .elements list => list.filterMap Element.text?
  | .other _ => []

def ChatMessage.allTexts (msg : ChatMessage ρ) : List Text :=
  (msg.content.map Content.texts).getD []

def ChatBody.allTexts (body : ChatBody ρ) : List Text :=
  (body.messages.getD []).flatMap ChatMessage.allTexts

def GeminiBody.allTexts (body : GeminiBody ρ) : List Text :=
  (GeminiFormat.instructionParts body).filterMap Element.text? ++ (body.contents.getD []).flatMap fun msg =>
    (msg.parts.getD []).filterMap Element.text?

def ResponsesBody.contextTexts (body : ResponsesBody ρ) : List Text :=
  match body.instructions with
  | some (.text text) => [text]
  | _ => []

def ResponsesBody.inputTexts (body : ResponsesBody ρ) : List Text :=
  match body.input with
  | some (.text text) => [text]
  | some (.items items) => items.flatMap fun
      | .message msg => msg.allTexts
      | .other _ => []
  | none => []

def ResponsesBody.allTexts (body : ResponsesBody ρ) : List Text :=
  body.contextTexts ++ body.inputTexts

namespace ApiFormat

def injectContext (breakpoint : ρ) : (fmt : ApiFormat) → fmt.Body ρ → Text → fmt.Body ρ
  | .anthropic => AnthropicFormat.injectContext breakpoint
  | .openai => OpenAIFormat.injectContext
  | .gemini => GeminiFormat.injectContext
  | .openaiResponses => OpenAIResponsesFormat.injectContext

def allTexts : (fmt : ApiFormat) → fmt.Body ρ → List Text
  | .anthropic => ChatBody.allTexts
  | .openai => ChatBody.allTexts
  | .gemini => GeminiBody.allTexts
  | .openaiResponses => ResponsesBody.allTexts

/-- The text stands somewhere in a text of the body. -/
def Holds (fmt : ApiFormat) (body : fmt.Body ρ) (text : Text) : Prop :=
  ∃ whole ∈ fmt.allTexts body, text <:+: whole

end ApiFormat

end VirtualContext
