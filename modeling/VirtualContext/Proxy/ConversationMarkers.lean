import VirtualContext.Library.Matching
import VirtualContext.Proxy.MessageBodies

/-!
# Conversation markers

A marker in an assistant text tells which conversation a request belongs to.
It is put into a response, comes back with the history of the client, and is
taken out before the request is sent on.
-/

namespace VirtualContext

open Library

variable {ρ : Type}

/-! ## The marker grammar -/

/-- `[a-f0-9-]` -/
def isIdChar (c : Char) : Bool :=
  decide ('a' ≤ c ∧ c ≤ 'f') || decide ('0' ≤ c ∧ c ≤ '9') || c == '-'

def IsId (id : Text) : Prop := id ≠ [] ∧ ∀ c ∈ id, isIdChar c = true

instance (id : Text) : Decidable (IsId id) :=
  have := List.decidableBAll (fun c => isIdChar c = true) id
  inferInstanceAs (Decidable (_ ∧ _))

/-- The words of `<!-- vc:(?:session|conversation)=([a-f0-9-]+) -->`. -/
def IsMarker (id word : Text) : Prop :=
  IsId id ∧
    (word = "<!-- vc:session=".toList ++ id ++ " -->".toList ∨
      word = "<!-- vc:conversation=".toList ++ id ++ " -->".toList)

/-- `([a-f0-9-]+) -->`: no shorter id is followed by a space. -/
def readId (text : Text) : Option (Text × Text) :=
  let id := text.takeWhile isIdChar
  if id = [] then none
  else
    ((text.dropWhile isIdChar).dropPrefix? " -->".toList).map fun rest =>
      (id, rest)

def readMarker (text : Text) : Option (Text × Text) :=
  ((text.dropPrefix? "<!-- vc:session=".toList).or
    (text.dropPrefix? "<!-- vc:conversation=".toList)).bind readId

theorem dropPrefix?_eq_some {text front rest : Text} :
    text.dropPrefix? front = some rest ↔ text = front ++ rest := by
  rw [List.dropPrefix?_eq_some_iff]
  simp

theorem readId_eq_some_iff {text id rest : Text} :
    readId text = some (id, rest) ↔ IsId id ∧ text = id ++ " -->".toList ++ rest := by
  constructor
  · intro h
    simp only [readId] at h
    split at h
    · cases h
    · rename_i hne
      obtain ⟨rest', hrest, heq⟩ := Option.map_eq_some_iff.mp h
      obtain ⟨rfl, rfl⟩ := Prod.mk.inj heq
      refine ⟨⟨hne, fun c hc => List.mem_takeWhile_imp hc⟩, ?_⟩
      rw [List.append_assoc, ← dropPrefix?_eq_some.mp hrest,
        List.takeWhile_append_dropWhile]
  · rintro ⟨⟨hne, hchars⟩, rfl⟩
    have hspace : isIdChar ' ' = false := by decide
    have htake : (id ++ " -->".toList ++ rest).takeWhile isIdChar = id := by
      rw [List.append_assoc, List.takeWhile_append_of_pos hchars]
      simp [hspace]
    have hdrop : (id ++ " -->".toList ++ rest).dropWhile isIdChar =
        " -->".toList ++ rest := by
      rw [List.append_assoc, List.dropWhile_append_of_pos hchars]
      simp [hspace]
    have hclose : (" -->".toList ++ rest).dropPrefix? " -->".toList = some rest :=
      dropPrefix?_eq_some.mpr rfl
    simp only [readId]
    rw [htake, hdrop, hclose, if_neg hne, Option.map_some]

/-- The two words before the id start differently. -/
theorem dropPrefix?_session_eq_none (rest : Text) :
    ("<!-- vc:conversation=".toList ++ rest).dropPrefix?
      "<!-- vc:session=".toList = none := by
  simp [List.dropPrefix?]

theorem readMarker_eq_some_iff (text id rest : Text) :
    readMarker text = some (id, rest) ↔
      ∃ word, IsMarker id word ∧ text = word ++ rest := by
  constructor
  · intro h
    obtain ⟨after, hafter, hread⟩ := Option.bind_eq_some_iff.mp h
    obtain ⟨hid, rfl⟩ := readId_eq_some_iff.mp hread
    rcases Option.or_eq_some_iff.mp hafter with hsession | ⟨-, hconversation⟩
    · refine ⟨_, ⟨hid, .inl rfl⟩, ?_⟩
      rw [dropPrefix?_eq_some.mp hsession]
      simp only [List.append_assoc]
    · refine ⟨_, ⟨hid, .inr rfl⟩, ?_⟩
      rw [dropPrefix?_eq_some.mp hconversation]
      simp only [List.append_assoc]
  · rintro ⟨word, ⟨hid, rfl | rfl⟩, rfl⟩
    · rw [readMarker, Option.bind_eq_some_iff]
      refine ⟨_, Option.or_eq_some_iff.mpr (.inl (dropPrefix?_eq_some.mpr ?_)),
        readId_eq_some_iff.mpr ⟨hid, rfl⟩⟩
      simp only [List.append_assoc]
    · rw [readMarker, Option.bind_eq_some_iff]
      simp only [List.append_assoc, dropPrefix?_session_eq_none, Option.none_or]
      refine ⟨_, dropPrefix?_eq_some.mpr rfl, readId_eq_some_iff.mpr ⟨hid, ?_⟩⟩
      simp only [List.append_assoc]

theorem IsMarker.ne_nil (id word : Text) (h : IsMarker id word) : word ≠ [] := by
  obtain ⟨-, rfl | rfl⟩ := h <;> simp

/-- `_VC_CONVERSATION_RE` -/
def vcConversationRe : Matcher Char Text where
  Word := IsMarker
  read := readMarker
  read_eq_some_iff := readMarker_eq_some_iff
  ne_nil := IsMarker.ne_nil

theorem vcConversationRe_avoids : vcConversationRe.Avoids '\n' := by
  rintro id word ⟨⟨-, hid⟩, hword⟩ hmem
  have hnot : isIdChar '\n' = false := by decide
  have hmem' : '\n' ∈ id := by
    rcases hword with rfl | rfl <;> simpa using hmem
  exact absurd (hid _ hmem') (by simp [hnot])

/-- What is appended to a response of the conversation. -/
def conversationMarker (id : Text) : Text :=
  '\n' :: ("<!-- vc:conversation=".toList ++ id ++ " -->".toList)

/-! ## Extraction -/

def Element.texts (reads : Part ρ → Option Text) (elements : List (Element ρ)) :
    List Text :=
  elements.filterMap (Element.read reads)

/-- The texts of a message in the order in which they are searched. -/
def ChatMessage.texts (reads : Part ρ → Option Text) (msg : ChatMessage ρ) :
    List Text :=
  match msg.content with
  | some (.text text) => [text]
  | some (.elements elements) => Element.texts reads elements
  | _ => []

/-- The first marker of the last message of the role that has one. -/
def latestMarker {μ : Type} (textsOf : μ → List Text) (messages : List μ) :
    Option Text :=
  messages.reverse.findSome? fun msg =>
    (textsOf msg).findSome? vcConversationRe.search

namespace AnthropicFormat

/-- A block of type `text`. -/
def reads (p : Part ρ) : Option Text :=
  if p.type = some "text" then some (p.text.getD []) else none

def assistantTexts (msg : ChatMessage ρ) : List Text :=
  if msg.role = some "assistant" then msg.texts reads else []

def extractConversationId (body : ChatBody ρ) : Option Text :=
  latestMarker assistantTexts (body.messages.getD [])

end AnthropicFormat

namespace OpenAIFormat

def extractConversationId (body : ChatBody ρ) : Option Text :=
  latestMarker AnthropicFormat.assistantTexts (body.messages.getD [])

end OpenAIFormat

namespace GeminiFormat

/-- A part with a `text`. -/
def reads (p : Part ρ) : Option Text := p.text

def modelTexts (msg : GeminiMessage ρ) : List Text :=
  if msg.role = some "model" then Element.texts reads (msg.parts.getD []) else []

def extractConversationId (body : GeminiBody ρ) : Option Text :=
  latestMarker modelTexts (body.contents.getD [])

end GeminiFormat

namespace OpenAIResponsesFormat

/-- A block whose text is there and not empty. -/
def reads (p : Part ρ) : Option Text := p.text.filter (· ≠ [])

def assistantTexts : InputItem ρ → List Text
  | .message msg => if msg.role = some "assistant" then msg.texts reads else []
  | .other _ => []

def extractConversationId (body : ResponsesBody ρ) : Option Text :=
  match body.input with
  | some (.items items) => latestMarker assistantTexts items
  | _ => none

end OpenAIResponsesFormat

/-! ## Injection -/

/-- `(block.get("text", "") or "") + marker` in an accepted block. -/
def Element.appendMarker (accepts : Part ρ → Bool) (marker : Text) :
    Element ρ → Option (Element ρ)
  | .part p =>
      if accepts p then some (.part { p with text := some (p.text.getD [] ++ marker) })
      else none
  | .other _ => none

namespace AnthropicFormat

/-- A missing list is not stored when it is appended to. -/
def injectConversationMarker (response : AnthropicResponse ρ) (marker : Text) :
    AnthropicResponse ρ :=
  match response.content with
  | none => response
  | some content =>
      let accepts (p : Part ρ) := p.type == some "text"
      let new := (replaceLast (Element.appendMarker accepts marker) content).getD
        (content ++ [.part { type := some "text", text := some marker }])
      { response with content := some new }

end AnthropicFormat

namespace OpenAIFormat

/-- A missing message is not stored when it is written to. -/
def injectConversationMarker (response : OpenAIResponse ρ) (marker : Text) :
    OpenAIResponse ρ :=
  match response.choices with
  | some ({ message := some msg, rest } :: choices) =>
      let msg := { msg with content := some (msg.content.getD [] ++ marker) }
      { response with choices := some ({ message := some msg, rest } :: choices) }
  | _ => response

end OpenAIFormat

namespace GeminiFormat

/-- A missing content or part list is not stored when it is appended to. -/
def injectConversationMarker (response : GeminiResponse ρ) (marker : Text) :
    GeminiResponse ρ :=
  match response.candidates with
  | some ({ content := some { role, parts := some parts, rest := fields }, rest } ::
      candidates) =>
      let accepts (p : Part ρ) := p.text.isSome
      let new := (replaceLast (Element.appendMarker accepts marker) parts).getD
        (parts ++ [.part { text := some marker }])
      let content := { role, parts := some new, rest := fields }
      { response with
        candidates := some ({ content := some content, rest } :: candidates) }
  | _ => response

end GeminiFormat

namespace OpenAIResponsesFormat

def isOutputText (p : Part ρ) : Bool := p.type == some "output_text"

/-- Appends to the last `output_text` block of an item. -/
def appendToItem (marker : Text) : InputItem ρ → Option (InputItem ρ)
  | .message msg =>
      match msg.content with
      | some (.elements elements) =>
          (replaceLast (Element.appendMarker isOutputText marker) elements).map
            fun new => .message { msg with content := some (.elements new) }
      | _ => none
  | .other _ => none

/-- The output item that holds a marker alone. -/
def markerItem (typeField : String × ρ) (marker : Text) : InputItem ρ :=
  .message {
    role := some "assistant"
    content := some (.elements
      [.part { type := some "output_text", text := some marker }])
    rest := [typeField] }

/-- `typeField` is the field `"type": "message"` of a new item. -/
def injectConversationMarker (typeField : String × ρ)
    (response : ResponsesResponse ρ) (marker : Text) : ResponsesResponse ρ :=
  match response.output with
  | none => response
  | some output =>
      let new := (replaceLast (appendToItem marker) output).getD
        (output ++ [markerItem typeField marker])
      { response with output := some new }

end OpenAIResponsesFormat

/-! ## Stripping -/

/-- `_VC_CONVERSATION_RE.sub("", text).rstrip()` -/
def cleanText (text : Text) : Text :=
  (vcConversationRe.removeAll text).rdropWhile isPySpace

/-- The cleaned text if it replaces the text, which an empty one may not. -/
def replacement (keepsBlank : Bool) (text : Text) : Option Text :=
  let cleaned := cleanText text
  if cleaned ≠ text ∧ ¬ (keepsBlank ∧ cleaned = []) then some cleaned else none

def Element.strip (reads : Part ρ → Option Text) (keepsBlank modified : Bool) :
    Element ρ → Element ρ × Bool
  | .part p =>
      match (reads p).bind (replacement keepsBlank) with
      | some cleaned => (.part { p with text := some cleaned }, true)
      | none => (.part p, modified)
  | .other value => (.other value, modified)

/-- Once something was replaced, every list is replaced by its copy. -/
def ChatMessage.strip (reads : Part ρ → Option Text) (keepsBlank : Bool)
    (modified : Bool) (msg : ChatMessage ρ) : ChatMessage ρ × Bool :=
  if msg.role ≠ some "assistant" then (msg, modified)
  else
    match msg.content with
    | some (.text text) =>
        match replacement keepsBlank text with
        | some cleaned => ({ msg with content := some (.text cleaned) }, true)
        | none => (msg, modified)
    | some (.elements elements) =>
        let (new, modified) :=
          runModified (Element.strip reads keepsBlank) modified elements
        (if modified then { msg with content := some (.elements new) } else msg,
          modified)
    | _ => (msg, modified)

namespace AnthropicFormat

def stripConversationMarkers (body : ChatBody ρ) : ChatBody ρ :=
  match body.messages with
  | none | some [] => body
  | some messages =>
      let (new, modified) := runModified (ChatMessage.strip reads true) false messages
      if modified then { body with messages := some new } else body

end AnthropicFormat

namespace OpenAIFormat

def stripConversationMarkers (body : ChatBody ρ) : ChatBody ρ :=
  AnthropicFormat.stripConversationMarkers body

end OpenAIFormat

namespace GeminiFormat

def stripMessage (modified : Bool) (msg : GeminiMessage ρ) :
    GeminiMessage ρ × Bool :=
  if msg.role ≠ some "model" then (msg, modified)
  else
    let (new, modified) :=
      runModified (Element.strip reads false) modified (msg.parts.getD [])
    (if modified then { msg with parts := some new } else msg, modified)

def stripConversationMarkers (body : GeminiBody ρ) : GeminiBody ρ :=
  match body.contents with
  | none | some [] => body
  | some contents =>
      let (new, modified) := runModified stripMessage false contents
      if modified then { body with contents := some new } else body

end GeminiFormat

namespace OpenAIResponsesFormat

def stripItem (modified : Bool) : InputItem ρ → InputItem ρ × Bool
  | .message msg =>
      let (new, modified) := msg.strip reads false modified
      (.message new, modified)
  | .other value => (.other value, modified)

def stripConversationMarkers (body : ResponsesBody ρ) : ResponsesBody ρ :=
  match body.input with
  | some (.items items) =>
      if items = [] then body
      else
        let (new, modified) := runModified stripItem false items
        if modified then { body with input := some (.items new) } else body
  | _ => body

end OpenAIResponsesFormat

end VirtualContext
