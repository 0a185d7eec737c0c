import Mathlib.Data.Prod.Lex
import VirtualContext.Library.Edits
import VirtualContext.Library.Ordered
import VirtualContext.Proxy.PayloadTokens
import VirtualContext.Proxy.ToolOutputs

/-!
# Reductions of a payload over its budget

The body is scanned for what can be reduced, a batch of it is planned, and the
reductions are made one after the other.  An item keeps the indexes of what was
scanned, so the reducers look it up again in the body as it is by then.
-/

namespace VirtualContext

open VirtualContext.Library

variable {ρ : Type}

/-! ## Bodies -/

structure BudgetMessage (ρ : Type) extends StubMessage ρ where
  /-- `content` is there, although it is false. -/
  nullContent : Bool := false
  /-- `output` is there, although it is false. -/
  nullOutput : Bool := false
  deriving DecidableEq, Repr

structure BudgetBody (ρ : Type) where
  /-- The blocks of `system`, if it is a list. -/
  system : Option (List (StubBlock ρ)) := none
  /-- The messages, or the text that the Responses API takes for them. -/
  input : List (BudgetMessage ρ) ⊕ Text
  deriving DecidableEq

namespace BudgetBody

variable (body : BudgetBody ρ)

/-- `get_messages`, which makes a new list of a text. -/
def messages : List (BudgetMessage ρ) :=
  match body.input with
  | .inl messages => messages
  | .inr text => [{ role := some "user", content := .text text }]

/-- What is done to the list of `get_messages`, as the body shows it. -/
def mutateMessages (f : List (BudgetMessage ρ) → List (BudgetMessage ρ)) : BudgetBody ρ :=
  match body.input with
  | .inl messages => { body with input := .inl (f messages) }
  | .inr _ => body

end BudgetBody

namespace BudgetMessage

variable (msg : BudgetMessage ρ)

/-- `isinstance(msg.get("content", ""), str)` -/
def hasTextContent : Bool :=
  match msg.content with
  | .text _ => true
  | .blocks _ => false
  | .other value => value.isNone && !msg.nullContent

/-- `"output" in item` -/
def hasOutput : Bool :=
  match msg.output with
  | .other none => msg.nullOutput
  | _ => true

end BudgetMessage

/-! ## Items -/

/-- Where a scanned value stands. -/
inductive Place where
  | system (block : Nat)
  | content (message : Nat)
  | output (message : Nat)
  | block (message block : Nat)
  | part (message part : Nat)
  deriving DecidableEq, Repr

namespace Place

def inSystem : Place → Bool
  | system _ => true
  | _ => false

/-- `msg_index`, which no one reads of a system block. -/
def msgIndex : Place → Nat
  | system _ => 0
  | content m => m
  | output m => m
  | block m _ => m
  | part m _ => m

/-- `block_index`, where `none` is -1. -/
def blockIndex : Place → Option Nat
  | system n => some n
  | content _ => none
  | output _ => none
  | block _ n => some n
  | part _ n => some n

/-- Without a block index the first output of the message is taken. -/
def accepts (place : Place) (output : ToolOutputInfo) : Bool :=
  match place.blockIndex with
  | some n => output.carrier = .anthropic n
  | none => true

end Place

inductive ReductionCategory where
  | thinkingSig
  | toolResult
  | toolResultLast2
  | vcContext
  | conversationText
  | image
  deriving DecidableEq, Repr

/-- Of the place only the location and the indexes are recorded, and the
reducers read nothing else of it. -/
structure ReducibleItem where
  place : Place
  category : ReductionCategory
  sizeBytes : Nat
  deriving DecidableEq, Repr

/-! ## Values read -/

/-- The media in a dict. -/
structure MediaFields where
  /-- The data of a `source` of the type base64. -/
  base64 : Option Text := none
  /-- The media type of the `source` names JPEG. -/
  isJpeg : Bool := false
  /-- `url` of a dict `image_url`. -/
  nestedUrl : Option Text := none
  /-- An `image_url` that is a text. -/
  imageUrl : Option Text := none
  /-- The data of a dict `inline_data`. -/
  inlineData : Option Text := none

/-- How values are read that are kept as they are, the digest that names a stored
output, and what Pillow makes of image data. -/
structure BudgetEnv (ρ : Type) where
  media : Fields ρ → MediaFields
  signature : Fields ρ → Text
  thinking : Fields ρ → Text
  printed : OutputContent ρ → Text
  toolRef : Text → Text
  shrinkImage : Text → Option (Text × String)
  setSource : Fields ρ → Text → String → Fields ρ

/-- The text of a dict, which is empty if there is none. -/
def StubBlock.words : StubBlock ρ → Text
  | .text _ words _ => words
  | _ => []

def StubBlock.isDict : StubBlock ρ → Bool
  | .other _ => false
  | _ => true

def StubBlock.kind (block : StubBlock ρ) : Option String := block.type?.join

/-- `" ".join(texts)` -/
def joinTexts (texts : List Text) : Text := List.intercalate [' '] texts

def blocksText (blocks : List (StubBlock ρ)) : Text :=
  joinTexts ((blocks.filter (·.isDict)).map (·.words))

namespace BudgetMessage

variable (env : BudgetEnv ρ) (msg : BudgetMessage ρ)

def contentText : Text :=
  match msg.content with
  | .text words => words
  | .blocks blocks => blocksText blocks
  | .other _ => []

/-- `str(item["output"])` -/
def outputText : Text :=
  match msg.output with
  | .text words => words
  | output => env.printed output

/-- `extract_text_from_item` -/
def extractText : ApiFormat → Text
  | .anthropic => msg.contentText
  | .openai => msg.contentText
  | .gemini => joinTexts (msg.parts.filterMap (·.text))
  | .openaiResponses => if msg.hasOutput then msg.outputText env else msg.contentText

end BudgetMessage

/-- The data behind `;base64,` of a data URI. -/
def dataOfUrl (url : Text) : Option Text :=
  if "data:".toList.isPrefixOf url then
    (splitOnce MediaScan.base64Marker url).map (·.2)
  else none

namespace MediaFields

variable (media : MediaFields)

/-- `_detect_media_block` -/
def isMedia (kind : Option String) : Bool :=
  (kind = some "image" && media.base64.isSome) ||
    (kind = some "image_url" && (media.nestedUrl.bind dataOfUrl).isSome)

def dataSize (kind : Option String) : Nat :=
  match media.base64 with
  | some data => data.length
  | none =>
      let data :=
        if kind = some "image_url" then media.nestedUrl.bind dataOfUrl
        else if kind = some "input_image" then media.imageUrl.bind dataOfUrl
        else media.inlineData
      (data.map (·.length)).getD 0

end MediaFields

/-! ## Scan -/

section

variable (env : BudgetEnv ρ) (fmt : ApiFormat)

def contextTopicsTag : Text := "<context-topics".toList

def isVcContext (text : Text) : Bool :=
  occursIn contextTopicsTag text ||
    (occursIn "system-reminder".toList text && occursIn "context-topics".toList text)

def systemItems (system : List (StubBlock ρ)) : List ReducibleItem :=
  system.zipIdx.filterMap fun entry =>
    if entry.1.isDict && isVcContext entry.1.words then
      some ⟨.system entry.2, .vcContext, entry.1.words.length⟩
    else none

/-- The first message of the last two turns. -/
def last2Start (messages : List (BudgetMessage ρ)) : Nat :=
  let turns := groupIntoTurns fmt (messages.map (·.toStubMessage))
  if 3 ≤ turns.length then
    ((turns[turns.length - 2]?).bind List.head?).getD 0
  else 0

def ToolOutputInfo.place (output : ToolOutputInfo) : Place :=
  match output.carrier with
  | .anthropic n => .block output.msgIndex n
  | .openaiChat => .content output.msgIndex
  | .openaiResponses => .output output.msgIndex

def restoreToolName : Text := "vc_restore_tool".toList

def toolItem (start : Nat) (output : ToolOutputInfo) : Option ReducibleItem :=
  match output.content with
  | some words =>
      if words.length < 100 || occursIn restoreToolName words then none
      else
        some ⟨output.place,
          if start ≤ output.msgIndex then .toolResultLast2 else .toolResult,
          words.length⟩
  | none => none

def toolItems (messages : List (BudgetMessage ρ)) : List ReducibleItem :=
  (iterToolOutputs (messages.map (·.toStubMessage))).filterMap
    (toolItem (last2Start fmt messages))

namespace BudgetMessage

variable (msg : BudgetMessage ρ)

/-- `iter_media_blocks` in one message. -/
def mediaPlaces (m : Nat) : List (Place × Nat) :=
  match fmt with
  | .gemini =>
      (msg.parts.zipIdx.filter fun entry =>
        (env.media entry.1.rest).inlineData.isSome).map fun entry =>
          (.part m entry.2, entry.2)
  | .openaiResponses =>
      (msg.blocks.zipIdx.filter fun entry =>
        entry.1.isDict && (entry.1.kind = some "input_image" ||
          (env.media entry.1.fields).isMedia entry.1.kind)).map fun entry =>
            (.block m entry.2, entry.2)
  | _ =>
      (msg.blocks.zipIdx.filter fun entry =>
        entry.1.isDict && (env.media entry.1.fields).isMedia entry.1.kind).map
          fun entry => (.block m entry.2, entry.2)

/-- `msg.get("parts") or msg.get("content", [])`, and the data at an index of it. -/
def mediaSize (n : Nat) : Nat :=
  if msg.parts.isEmpty then
    ((msg.blocks[n]?).map fun block =>
      if block.isDict then (env.media block.fields).dataSize block.kind else 0).getD 0
  else
    ((msg.parts[n]?).map fun part => (env.media part.rest).dataSize none).getD 0

def mediaItems (m : Nat) : List ReducibleItem :=
  (msg.mediaPlaces env fmt m).filterMap fun found =>
    if 10000 < msg.mediaSize env found.2 then
      some ⟨found.1, .image, msg.mediaSize env found.2⟩
    else none

def thinkingItems (m : Nat) : List ReducibleItem :=
  if fmt = .anthropic then
    msg.blocks.zipIdx.filterMap fun entry =>
      if entry.1.kind = some "thinking" && !(env.signature entry.1.fields).isEmpty then
        some ⟨.block m entry.2, .thinkingSig, (env.signature entry.1.fields).length⟩
      else none
  else []

def compactedMarker : Text := "[Compacted turn".toList

/-- The message is the stub of a compacted turn. -/
def isCompactedStub : Bool :=
  let text := msg.extractText env fmt
  occursIn compactedMarker text &&
    (occursIn restoreToolName text ||
      (msg.hasTextContent && occursIn compactedMarker msg.contentText))

def textBlockItems (m : Nat) (blocks : List (StubBlock ρ)) : List ReducibleItem :=
  let text := blocksText blocks
  if occursIn compactedMarker text && occursIn restoreToolName text then []
  else
    blocks.zipIdx.filterMap fun entry =>
      if (entry.1.kind = some "text" || entry.1.kind = some "output_text") &&
          !occursIn compactedMarker entry.1.words && 100 < entry.1.words.length then
        some ⟨.block m entry.2, .conversationText, entry.1.words.length⟩
      else none

def textItems (m : Nat) : List ReducibleItem :=
  if (msg.extractText env fmt).length ≤ 100 || msg.isCompactedStub env fmt then []
  else if msg.hasTextContent then
    [⟨.content m, .conversationText, msg.contentText.length⟩]
  else
    match msg.content with
    | .blocks blocks => textBlockItems m blocks
    | _ =>
        match msg.output with
        | .text words =>
            if 100 < words.length then [⟨.output m, .conversationText, words.length⟩]
            else []
        | _ => []

end BudgetMessage

/-- What is found of every message, by its index. -/
def inMessages (find : BudgetMessage ρ → Nat → List ReducibleItem)
    (messages : List (BudgetMessage ρ)) : List ReducibleItem :=
  messages.zipIdx.flatMap fun entry => find entry.1 entry.2

/-- The indexes of an item are registered. -/
def isSeen (items : List ReducibleItem) (place : Place) : Bool :=
  items.any fun item => !item.place.inSystem &&
    item.place.msgIndex = place.msgIndex && item.place.blockIndex = place.blockIndex

def addUnseen (items : List ReducibleItem) (item : ReducibleItem) : List ReducibleItem :=
  if isSeen items item.place then items else items ++ [item]

/-- All but the tool outputs are registered once. -/
def scanReducibleItems (body : BudgetBody ρ) : List ReducibleItem :=
  if body.messages.isEmpty then []
  else
    (inMessages (·.mediaItems env fmt) body.messages ++
        inMessages (·.thinkingItems env fmt) body.messages ++
        inMessages (·.textItems env fmt) body.messages).foldl addUnseen
      (systemItems (body.system.getD []) ++ toolItems fmt body.messages)

end

/-! ## Plan -/

/-- `_estimated_reduction_bytes` -/
def ReducibleItem.estimatedBytes (item : ReducibleItem) : Nat :=
  match item.category with
  | .thinkingSig => item.sizeBytes
  | .toolResult | .conversationText => item.sizeBytes - 480
  | .toolResultLast2 => item.sizeBytes - 520
  | .vcContext | .image => item.sizeBytes / 2

/-- `max(math.ceil(_estimated_reduction_bytes(item) / 4), 1)` -/
def ReducibleItem.estimatedTokens (item : ReducibleItem) : Nat :=
  max ((item.estimatedBytes + 3) / 4) 1

/-- Items are taken until they cover the deficit or fill the slots. -/
def coverDeficit : (deficit slots : Nat) → List ReducibleItem → List ReducibleItem
  | _, _, [] => []
  | _, 0, _ => []
  | deficit, slots + 1, item :: items =>
      item ::
        if deficit ≤ item.estimatedTokens then []
        else coverDeficit (deficit - item.estimatedTokens) slots items

/-- `_plan_budget_reductions` -/
def planBudgetReductions (items : List ReducibleItem) (deficit slots : Nat) :
    List ReducibleItem :=
  if deficit = 0 then []
  else
    coverDeficit deficit slots
      (orderByDesc (fun item => toLex (item.estimatedBytes, item.sizeBytes)) items)

/-- `_mutation_safe_reduction_order` -/
def mutationSafeReductionOrder (items : List ReducibleItem) : List ReducibleItem :=
  orderByDesc (fun item => item.place.blockIndex.getD 0)
      (items.filter (·.place.inSystem)) ++
    orderByDesc
      (fun item => toLex (item.place.msgIndex, item.place.blockIndex.getD 1000000))
      (items.filter (!·.place.inSystem))

/-- The planned reductions, in the order in which they are applied. -/
def plannedReductions (env : BudgetEnv ρ) (fmt : ApiFormat) (body : BudgetBody ρ)
    (deficit slots : Nat) : List ReducibleItem :=
  mutationSafeReductionOrder
    (planBudgetReductions (scanReducibleItems env fmt body) deficit slots)

/-! ## Reducers -/

/-- The two ends of a text. -/
def headAndTail (text : Text) : Text :=
  text.take 200 ++ "\n\n[... ".toList ++ Nat.toDigits 10 (text.length - 400) ++
    " chars truncated ...]\n\n".toList ++ text.drop (text.length - 200)

section

variable (env : BudgetEnv ρ) (item : ReducibleItem)

/-- The new text, `none` if it stays, and the bytes freed. -/
abbrev TextReduction := Option Text × Int

def freedBy (text new : Text) : Int := (text.length : Int) - new.length

/-- `_reduce_tool_result` -/
def reduceToolResult (text : Text) : TextReduction :=
  let stub := "[budget-reduced tool output ref=".toList ++ env.toolRef text ++
    " | call vc_restore_tool(ref=\"".toList ++ env.toolRef text ++ "\")]".toList
  (some stub, (item.sizeBytes : Int) - stub.length)

/-- `_reduce_tool_result_last2`, and `_reduce_conversation_text`. -/
def truncateText (text : Text) : TextReduction :=
  if text.length ≤ 500 then (none, 0)
  else (some (headAndTail text), freedBy text (headAndTail text))

def reduceToolResultLast2 (text : Text) : TextReduction := truncateText text

def reduceConversationText (text : Text) : TextReduction := truncateText text

/-- `_reduce_vc_context` -/
def reduceVcContext (text : Text) : TextReduction :=
  if text.length ≤ 500 then (none, 0)
  else
    let truncated := text.take (text.length / 2) ++
      "\n[... VC context truncated to fit budget ...]".toList
    (some truncated, freedBy text truncated)

def reduceText (text : Text) : TextReduction :=
  match item.category with
  | .toolResult => reduceToolResult env item text
  | .toolResultLast2 => reduceToolResultLast2 text
  | .vcContext => reduceVcContext text
  | .conversationText => reduceConversationText text
  | .thinkingSig | .image => (none, 0)

def StubBlock.setFields (block : StubBlock ρ) (fields : Fields ρ) : StubBlock ρ :=
  match block with
  | .text kind words _ => .text kind words fields
  | .toolUse id name input _ => .toolUse id name input fields
  | .toolResult id content _ => .toolResult id content fields
  | .dict kind _ => .dict kind fields
  | .other value => .other value

/-- `_reduce_image`; small JPEG data counts as compressed. -/
def reduceImage (block : StubBlock ρ) : StubBlock ρ × Int :=
  let media := env.media block.fields
  if item.sizeBytes < 200000 && media.isJpeg then (block, 0)
  else
    match media.base64.bind fun data => (env.shrinkImage data).map (data, ·) with
    | some (data, small, kind) =>
        (block.setFields (env.setSource block.fields small kind), freedBy data small)
    | none => (block, 0)

/-- `_reduce_thinking_sig` takes the block out. -/
def reduceThinkingSig (block : StubBlock ρ) : Option (StubBlock ρ) × Int :=
  (none, (env.signature block.fields).length + (env.thinking block.fields).length)

def reduceBlock (block : StubBlock ρ) : Option (StubBlock ρ) × Int :=
  match item.category with
  | .thinkingSig => reduceThinkingSig env block
  | .image => ((reduceImage env item block).1, (reduceImage env item block).2)
  | .toolResult | .toolResultLast2 =>
      match block with
      | .toolResult id content rest =>
          let reduced := reduceText env item (extractToolResultText content)
          (some ((reduced.1.map fun text => .toolResult id (.text text) rest).getD block),
            reduced.2)
      | _ => (some block, 0)
  | .vcContext | .conversationText =>
      match block with
      | .text kind words rest =>
          let reduced := reduceText env item words
          (some (.text kind (reduced.1.getD words) rest), reduced.2)
      | _ => (some block, 0)

def reduceContent (content : StubContent ρ) : StubContent ρ × Int :=
  let reduced := reduceText env item (content.orEmpty.getD [])
  ((reduced.1.map .text).getD content, reduced.2)

def reduceOutput (output : OutputContent ρ) : OutputContent ρ × Int :=
  let reduced := reduceText env item (output.orEmpty.getD [])
  ((reduced.1.map .text).getD output, reduced.2)

end

/-! ## Application -/

/-- What stands at a place; a content is taken as a whole only if it is no list. -/
inductive PlaceValue (ρ : Type) where
  | block (block : StubBlock ρ)
  | content (content : StubContent ρ)
  | output (output : OutputContent ρ)
  | part (part : StubPart ρ)
  deriving DecidableEq

namespace BudgetMessage

variable (msg : BudgetMessage ρ)

def plainContent? : Option (StubContent ρ) :=
  match msg.content with
  | .blocks _ => none
  | content => some content

def valueAt : Place → Option (PlaceValue ρ)
  | .system _ => none
  | .content _ => msg.plainContent?.map .content
  | .output _ => some (.output msg.output)
  | .block _ n => (msg.blocks[n]?).map .block
  | .part _ n => (msg.parts[n]?).map .part

end BudgetMessage

namespace BudgetBody

variable (env : BudgetEnv ρ) (body : BudgetBody ρ) (item : ReducibleItem)

def valueAt : Place → Option (PlaceValue ρ)
  | .system n => ((body.system.getD [])[n]?).map .block
  | place => (body.messages[place.msgIndex]?).bind (·.valueAt place)

/-- A place with something at it. -/
def holding (place : Place) : Option Place :=
  if (body.valueAt place).isSome then some place else none

/-- `_find_tool_output_info` -/
def findToolOutputInfo : Option ToolOutputInfo :=
  (iterToolOutputs (body.messages.map (·.toStubMessage))).find? fun output =>
    output.msgIndex = item.place.msgIndex && item.place.accepts output

/-- Where the reducer of an item goes. -/
def target : Option Place :=
  match item.category with
  | .toolResult | .toolResultLast2 => (body.findToolOutputInfo item).map (·.place)
  | .vcContext => item.place.blockIndex.bind fun n => body.holding (.system n)
  | .thinkingSig | .image =>
      item.place.blockIndex.bind fun n => body.holding (.block item.place.msgIndex n)
  | .conversationText =>
      match item.place.blockIndex with
      | some n => body.holding (.block item.place.msgIndex n)
      | none =>
          (body.messages[item.place.msgIndex]?).bind fun msg =>
            if msg.hasTextContent then some (.content item.place.msgIndex) else none

end BudgetBody

def StubContent.editBlock (f : StubBlock ρ → Option (StubBlock ρ)) (n : Nat) :
    StubContent ρ → StubContent ρ
  | .blocks list => .blocks (editAt f n list)
  | content => content

section

variable (env : BudgetEnv ρ) (item : ReducibleItem)

/-- The reduction is made at a place of the message. -/
def BudgetMessage.reduceAt (msg : BudgetMessage ρ) : Place → BudgetMessage ρ
  | .content _ => { msg with content := (reduceContent env item msg.content).1 }
  | .output _ => { msg with output := (reduceOutput env item msg.output).1 }
  | .block _ n =>
      { msg with content := msg.content.editBlock (fun block => (reduceBlock env item block).1) n }
  | .system _ | .part _ _ => msg

def BudgetBody.reduceAt (body : BudgetBody ρ) : Place → BudgetBody ρ
  | .system n =>
      { body with system :=
          body.system.map (editAt (fun block => (reduceBlock env item block).1) n) }
  | place =>
      body.mutateMessages fun messages =>
        messages.modify place.msgIndex fun msg => msg.reduceAt env item place

/-- The bytes that a reducer reports. -/
def PlaceValue.freed : PlaceValue ρ → Int
  | .block value => (reduceBlock env item value).2
  | .content value => (reduceContent env item value).2
  | .output value => (reduceOutput env item value).2
  | .part _ => 0

/-- `apply_reduction` -/
def applyReduction (body : BudgetBody ρ) : BudgetBody ρ × Int :=
  match body.target item with
  | some place =>
      (body.reduceAt env item place,
        ((body.valueAt place).map (PlaceValue.freed env item)).getD 0)
  | none => (body, 0)

end

/-- Only reductions that free bytes count, and the last slot ends the round. -/
def applyReductions (env : BudgetEnv ρ) :
    (slots : Nat) → List ReducibleItem → BudgetBody ρ → BudgetBody ρ
  | _, [], body => body
  | slots, item :: items, body =>
      let reduced := applyReduction env item body
      if reduced.2 ≤ 0 then applyReductions env slots items reduced.1
      else if slots ≤ 1 then reduced.1
      else applyReductions env (slots - 1) items reduced.1

/-- A round of `enforce_payload_budget`, with the tokens over the budget and the
reductions left. -/
def reduceRound (env : BudgetEnv ρ) (fmt : ApiFormat) (deficit slots : Nat)
    (body : BudgetBody ρ) : BudgetBody ρ :=
  applyReductions env slots (plannedReductions env fmt body deficit slots) body

end VirtualContext
