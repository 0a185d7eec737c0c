import VirtualContext.Core.ToolLoop
import VirtualContext.Library.Entries
import VirtualContext.Proxy.SseEvents

/-!
# The interception of a stream

With paging on, the events of a response are passed on to the client one by one.  Calls
of the proxy's own tools are held back, until the response says whether it only called
these.  An exception, which ends the stream, is `none`.
-/

namespace VirtualContext

open VirtualContext.Library

/-- `json.loads`, where `none` is a `JSONDecodeError`. -/
structure StreamEnv where
  loads : List Char → Option Json

/-- A call of one of the proxy's tools. -/
structure VcTool where
  id : Json
  name : Json
  input : Json

/-- A call that is not read to its end. -/
structure CurrentTool where
  id : Json
  name : Json
  inputParts : List Json

structure StreamState where
  vcTools : List VcTool := []
  nonVcTools : List (Json × Json) := []
  allContentBlocks : List Json := []
  forwardedBlockCount : Nat := 0
  suppressing : Bool := false
  currentVcTool : Option CurrentTool := none
  currentTextParts : List Json := []
  needContinuation : Bool := false
  textChunks : List Json := []

/-- What happens to an event: it is passed on, it is held back, or it is passed on after
all events that were held back. -/
inductive Verdict where
  | forward
  | hold
  | release

/-! ## The events of the Messages API -/

/-- `is_vc_tool` of a decoded name; a list or a `dict` has no hash. -/
def isVcToolName : Json → Option Bool
  | .str name => some (isVcTool name)
  | .arr _ => none
  | .obj _ => none
  | _ => some false

/-- `content_block_start` -/
def contentBlockStart (s : StreamState) (data : Json) : Option (StreamState × Verdict) := do
  let block ← data.getDefault "content_block" (.obj [])
  let btype ← block.getDefault "type" (.str "")
  if btype.isStr "tool_use" then
    let isVc ← isVcToolName (← block.getDefault "name" (.str ""))
    let id ← block.subscript "id"
    let name ← block.subscript "name"
    if isVc then
      some ({ s with suppressing := true, currentVcTool := some ⟨id, name, []⟩ }, .hold)
    else
      some ({ s with nonVcTools := s.nonVcTools ++ [(id, name)] }, .forward)
  else if btype.isStr "text" then
    some ({ s with currentTextParts := [] }, .forward)
  else
    some (s, .forward)

/-- A text that is not empty is part of the answer. -/
def appendText (s : StreamState) (text : Json) : StreamState :=
  if text.truthy then
    { s with textChunks := s.textChunks ++ [text],
             currentTextParts := s.currentTextParts ++ [text] }
  else s

/-- `content_block_delta` -/
def contentBlockDelta (s : StreamState) (data : Json) : Option (StreamState × Verdict) := do
  let delta ← data.getDefault "delta" (.obj [])
  if s.suppressing then
    let kind ← delta.getDefault "type" .null
    if kind.isStr "input_json_delta" then
      let tool ← s.currentVcTool
      let part ← delta.getDefault "partial_json" (.str "")
      let tool := { tool with inputParts := tool.inputParts ++ [part] }
      some ({ s with currentVcTool := some tool }, .hold)
    else
      some (s, .hold)
  else
    let text ← delta.getDefault "text" (.str "")
    some (appendText s text, .forward)

/-- `content_block_stop` -/
def contentBlockStop (env : StreamEnv) (s : StreamState) : Option (StreamState × Verdict) :=
  if s.suppressing then
    match s.currentVcTool with
    | none => some ({ s with suppressing := false }, .hold)
    | some tool => do
        let inputStr ← Json.joinText tool.inputParts
        let input := (env.loads inputStr.toList).getD (.obj [])
        some ({ s with
          vcTools := s.vcTools ++ [⟨tool.id, tool.name, input⟩]
          allContentBlocks := s.allContentBlocks ++ [.obj [("type", .str "tool_use"),
            ("id", tool.id), ("name", tool.name), ("input", input)]]
          currentVcTool := none
          suppressing := false }, .hold)
  else do
    let text ← Json.joinText s.currentTextParts
    let blocks := if s.currentTextParts = [] then [] else
      [.obj [("type", .str "text"), ("text", .str text)]]
    some ({ s with
      allContentBlocks := s.allContentBlocks ++ blocks
      currentTextParts := []
      forwardedBlockCount := s.forwardedBlockCount + 1 }, .forward)

/-- What the end of a response decides: other tools than the proxy's, and everything is
passed on after all; only the proxy's tools, and the proxy goes on itself. -/
def settleTools (s : StreamState) (others : Bool) : StreamState × Verdict :=
  if others then ({ s with vcTools := [], needContinuation := false }, .release)
  else ({ s with needContinuation := true }, .hold)

/-- `message_delta` -/
def messageDelta (s : StreamState) (data : Json) : Option (StreamState × Verdict) := do
  let delta ← data.getDefault "delta" (.obj [])
  let stopReason ← delta.getDefault "stop_reason" .null
  if stopReason.isStr "tool_use" ∧ s.vcTools ≠ [] then
    some (settleTools s (s.nonVcTools ≠ []))
  else
    some (s, .forward)

/-- `message_stop` -/
def messageStop (s : StreamState) : StreamState × Verdict :=
  (s, if s.needContinuation then .hold else .forward)

/-! ## The events of the Responses API -/

/-- `item.get("call_id", item.get("id", ""))` -/
def callIdOf (item : Json) : Option Json := do
  item.getDefault "call_id" (← item.getDefault "id" (.str ""))

/-- `response.output_item.added` -/
def outputItemAdded (s : StreamState) (data : Json) : Option (StreamState × Verdict) := do
  let item ← data.getDefault "item" (.obj [])
  let itype ← item.getDefault "type" (.str "")
  if itype.isStr "function_call" then
    let isVc ← isVcToolName (← item.getDefault "name" (.str ""))
    let callId ← callIdOf item
    if isVc then
      let name ← item.subscript "name"
      some ({ s with suppressing := true, currentVcTool := some ⟨callId, name, []⟩ }, .hold)
    else
      let name ← item.getDefault "name" (.str "")
      some ({ s with nonVcTools := s.nonVcTools ++ [(callId, name)] }, .forward)
  else
    some (s, .forward)

/-- `response.function_call_arguments.delta` -/
def argumentsDelta (s : StreamState) (data : Json) : Option (StreamState × Verdict) :=
  match s.suppressing, s.currentVcTool with
  | true, some tool => do
      let part ← data.getDefault "delta" (.str "")
      let tool := { tool with inputParts := tool.inputParts ++ [part] }
      some ({ s with currentVcTool := some tool }, .hold)
  | _, _ => some (s, .forward)

/-- `response.function_call_arguments.done` -/
def argumentsDone (env : StreamEnv) (s : StreamState) (data : Json) :
    Option (StreamState × Verdict) :=
  match s.suppressing, s.currentVcTool with
  | true, some tool => do
      let joined ← Json.joinText tool.inputParts
      let args ← data.getDefault "arguments" (.str joined)
      -- only a string can be decoded
      let argsStr ← match args with
        | .str text => some text
        | _ => none
      some ({ s with
        vcTools := s.vcTools ++
          [⟨tool.id, tool.name, (env.loads argsStr.toList).getD (.obj [])⟩]
        allContentBlocks := s.allContentBlocks ++ [.obj [("type", .str "function_call"),
          ("call_id", tool.id), ("name", tool.name), ("arguments", args)]]
        currentVcTool := none
        suppressing := false }, .hold)
  | _, _ => some (s, .forward)

/-- `response.output_text.delta` -/
def outputTextDelta (s : StreamState) (data : Json) : Option (StreamState × Verdict) := do
  let text ← data.getDefault "delta" (.str "")
  some (appendText s text, .forward)

/-- `response.output_item.done` -/
def outputItemDone (s : StreamState) (data : Json) : Option (StreamState × Verdict) :=
  if s.suppressing then some (s, .hold)
  else do
    let item ← data.getDefault "item" (.obj [])
    let itype ← item.getDefault "type" .null
    if itype.isStr "message" ∧ s.currentTextParts ≠ [] then
      let text ← Json.joinText s.currentTextParts
      some ({ s with
        allContentBlocks := s.allContentBlocks ++ [.obj [("type", .str "message"),
          ("role", .str "assistant"), ("content", .arr [.obj [("type", .str "output_text"),
            ("text", .str text)]])]]
        currentTextParts := []
        forwardedBlockCount := s.forwardedBlockCount + 1 }, .forward)
    else
      some (s, .forward)

/-- The elements a `for` takes from a value. -/
def iterated : Json → Option (List Json)
  | .arr elements => some elements
  | .obj entries => some (entries.map fun entry => .str entry.1)
  | .str s => some (s.toList.map fun c => .str (String.singleton c))
  | _ => none

/-- `any(..)`, which stops at the first element that is one. -/
def anyItem (p : Json → Option Bool) : List Json → Option Bool
  | [] => some false
  | item :: items => do if ← p item then some true else anyItem p items

/-- Whether an output item calls a tool that is one of the proxy's, or that is none. -/
def callsTool (vc : Bool) (item : Json) : Option Bool := do
  let itype ← item.getDefault "type" .null
  if itype.isStr "function_call" then
    let isVc ← isVcToolName (← item.getDefault "name" (.str ""))
    some (isVc == vc)
  else
    some false

/-- `response.completed` -/
def responseCompleted (s : StreamState) (data : Json) : Option (StreamState × Verdict) := do
  let response ← data.getDefault "response" (.obj [])
  let output ← iterated (← response.getDefault "output" (.arr []))
  let hasVc ← anyItem (callsTool true) output
  if hasVc ∧ s.vcTools ≠ [] then
    let hasNonVc ← anyItem (callsTool false) output
    some (settleTools s hasNonVc)
  else
    some (s, .forward)

/-! ## One event -/

/-- `key in value` -/
def hasKey (value : Json) (key : String) : Option Bool :=
  match value with
  | .obj entries => some (entries.any fun entry => entry.1 == key)
  | .arr elements => some (elements.any fun element => element.isStr key)
  | .str s => some (findPart key.toList s.toList).isSome
  | _ => none

/-- `value or 0` -/
def orZero (value : Json) : Json := if value.truthy then value else .int 0

/-- `_extract_usage` -/
def extractUsage (msgUsage : Json) (target : Entries String Json) :
    Option (Entries String Json) := do
  if ← hasKey msgUsage "input_tokens" then
    let uncached ← msgUsage.subscript "input_tokens"
    let cacheCreate := orZero (← msgUsage.getDefault "cache_creation_input_tokens" (.int 0))
    let cacheRead := orZero (← msgUsage.getDefault "cache_read_input_tokens" (.int 0))
    let total ← (← uncached.plus cacheCreate).plus cacheRead
    some ((((target.set "input_tokens" total).set "input_tokens_uncached" uncached).set
      "cache_creation_input_tokens" cacheCreate).set "cache_read_input_tokens" cacheRead)
  else
    some target

/-- The tokens that an event counts. -/
def readUsage (data dtype : Json) (usage : Entries String Json) :
    Option (Entries String Json) := do
  if dtype.isStr "message_start" then
    let message ← data.getDefault "message" (.obj [])
    extractUsage (← message.getDefault "usage" (.obj [])) usage
  else if dtype.isStr "message_delta" then
    let deltaUsage ← data.getDefault "usage" (.obj [])
    if ← hasKey deltaUsage "output_tokens" then
      some (usage.set "output_tokens" (← deltaUsage.subscript "output_tokens"))
    else
      some usage
  else
    some usage

/-- What the event of a type does. -/
def dispatch (env : StreamEnv) (s : StreamState) (data dtype : Json) :
    Option (StreamState × Verdict) :=
  if dtype.isStr "content_block_start" then contentBlockStart s data
  else if dtype.isStr "content_block_delta" then contentBlockDelta s data
  else if dtype.isStr "content_block_stop" then contentBlockStop env s
  else if dtype.isStr "message_delta" then messageDelta s data
  else if dtype.isStr "message_stop" then some (messageStop s)
  else if dtype.isStr "response.output_item.added" then outputItemAdded s data
  else if dtype.isStr "response.function_call_arguments.delta" then argumentsDelta s data
  else if dtype.isStr "response.function_call_arguments.done" then argumentsDone env s data
  else if dtype.isStr "response.output_text.delta" then outputTextDelta s data
  else if dtype.isStr "response.output_item.done" then outputItemDone s data
  else if dtype.isStr "response.completed" then responseCompleted s data
  else some (s, .forward)

/-- The interception with the events that are held back and the tokens counted. -/
structure Interception where
  state : StreamState := {}
  suppressedRaw : List Bytes := []
  usage : Entries String Json := []

/-- What is held back after an event, and what is passed on. -/
def Verdict.settle (held : List Bytes) (rawBytes : Bytes) : Verdict → List Bytes × List Bytes
  | .forward => (held, [rawBytes])
  | .hold => (held ++ [rawBytes], [])
  | .release => ([], held ++ [rawBytes])

/-- An event that carries no data to decode. -/
def IsBlank (event : SseEvent) : Prop :=
  event.dataStr = [] ∨ pyStripChars event.dataStr = "[DONE]".toList

instance (event : SseEvent) : Decidable (IsBlank event) := inferInstanceAs (Decidable (_ ∨ _))

/-- One event, and what the client receives for it. -/
def receive (env : StreamEnv) (s : Interception) (event : SseEvent) :
    Option (Interception × List Bytes) :=
  if IsBlank event then some (s, [event.rawBytes])
  else
    match env.loads event.dataStr with
    | none => some (s, [event.rawBytes])
    | some data => do
        let dtype ← data.getDefault "type" (.str "")
        let usage ← readUsage data dtype s.usage
        let (state, verdict) ← dispatch env s.state data dtype
        let settled := verdict.settle s.suppressedRaw event.rawBytes
        some ({ state, suppressedRaw := settled.1, usage }, settled.2)

/-! ## The whole stream -/

/-- The events one after the other: what the client receives, and the state at the end
unless an exception was raised. -/
def receiveAll (env : StreamEnv) : Interception → List SseEvent → List Bytes × Option Interception
  | s, [] => ([], some s)
  | s, event :: events =>
      match receive env s event with
      | none => ([], none)
      | some (s, out) =>
          let later := receiveAll env s events
          (out ++ later.1, later.2)

/-- The chunks one after the other, with the bytes of the event that is not complete. -/
def interceptChunks (env : StreamEnv) : Interception → Bytes → List Bytes →
    List Bytes × Option (Interception × Bytes)
  | s, buf, [] => ([], some (s, buf))
  | s, buf, chunk :: chunks =>
      let parsed := parseSseEvents (buf ++ chunk)
      match receiveAll env s parsed.1 with
      | (out, none) => (out, none)
      | (out, some s) =>
          let later := interceptChunks env s parsed.2 chunks
          (out ++ later.1, later.2)

end VirtualContext
