import VirtualContext.Proxy.SseEmission
import VirtualContext.Proxy.StreamMessages

/-!
# The continuation of a stream

When a response only called the proxy's own tools, the proxy runs them and asks the
model to go on, a few times at most.  What it answers is written into the client's
stream, in blocks that are numbered after those that were passed on.
-/

namespace VirtualContext

open VirtualContext.Library

/-- The body of a request. -/
abbrev RequestBody := Entries String Json

/-- What a continuation asks: the tools, which may restore what was removed from a body, the
engine for the body with the context of this turn, where `none` is an empty context, and the
model for a status and its answer. -/
structure ContinuationEnv where
  execute : (round : Nat) → VcTool → RequestBody → String × RequestBody
  reassembled : (round : Nat) → RequestBody → Option RequestBody
  reply : (round : Nat) → RequestBody → Nat × Json

/-- `_MAX_CONTINUATION_LOOPS` -/
def maxContinuationLoops : Nat := 5

/-! ## Requests -/

def toolResult (tool : VcTool) (result : String) : Json :=
  .obj [("type", .str "tool_result"), ("tool_use_id", tool.id), ("content", .str result)]

/-- The tools one after the other on a body: their results, and the body they leave. -/
def runTools (execute : VcTool → RequestBody → String × RequestBody) :
    List VcTool → RequestBody → List Json × RequestBody
  | [], body => ([], body)
  | tool :: tools, body =>
      let (result, body) := execute tool body
      let (results, body) := runTools execute tools body
      (toolResult tool result :: results, body)

/-- The answers of an assistant and the results of the tools it called. -/
def exchangeMessages (assistantContent : Json) (toolResults : List Json) : List Json :=
  [.obj [("role", .str "assistant"), ("content", assistantContent)],
    .obj [("role", .str "user"), ("content", .arr toolResults)]]

/-- `body[key] = original[key]`, if it is there. -/
def copyKey (original : RequestBody) (key : String) (body : RequestBody) : RequestBody :=
  match original.get key with
  | some value => body.set key value
  | none => body

/-- `build_continuation_request` of the Messages API -/
def buildContinuationRequest (original : RequestBody) (assistantContent : Json)
    (toolResults : List Json) : Option RequestBody := do
  let messages ← iterated ((original.get "messages").getD (.arr []))
  let body : RequestBody := [("model", (original.get "model").getD .null),
    ("max_tokens", (original.get "max_tokens").getD (.int 4096)), ("stream", .bool false),
    ("messages", .arr (messages ++ exchangeMessages assistantContent toolResults))]
  some (copyKey original "tools" (copyKey original "system" body))

/-- `body["messages"].append(..)` for both messages. -/
def appendExchange (body : RequestBody) (assistantContent : Json) (toolResults : List Json) :
    Option RequestBody :=
  match body.get "messages" with
  | some (.arr messages) =>
      some (body.set "messages" (.arr (messages ++ exchangeMessages assistantContent toolResults)))
  | _ => none

structure ContinuationState where
  body : RequestBody
  contBody : Option RequestBody := none
  contData : Option Json := none
  loopContentBlocks : Json := .arr []
  vcTools : List VcTool
  forwardedBlockCount : Nat
  textChunks : List Json
  emitted : List Emission := []
  requests : List RequestBody := []

/-- The request of a round, and the client's body after it.  Later rounds only read the system
of what is assembled from that body, so it does not matter that the requests share its messages. -/
def continuationRequest (env : ContinuationEnv) (allContentBlocks : List Json) (round : Nat)
    (s : ContinuationState) : Option RequestBody × RequestBody :=
  match s.contBody with
  | none =>
      let (toolResults, body) := runTools (env.execute round) s.vcTools s.body
      let reassembledBody := (env.reassembled round body).getD body
      (buildContinuationRequest reassembledBody (.arr allContentBlocks) toolResults, body)
  | some contBody =>
      let (toolResults, contBody) := runTools (env.execute round) s.vcTools contBody
      let contBody := match env.reassembled round s.body with
        | some reassembled => copyKey reassembled "system" contBody
        | none => contBody
      (appendExchange contBody s.loopContentBlocks toolResults, s.body)

/-! ## Replies -/

/-- The blocks of a type. -/
def blocksOfType (kind : String) : List Json → Option (List Json)
  | [] => some []
  | block :: blocks => do
      let btype ← block.getDefault "type" .null
      let rest ← blocksOfType kind blocks
      some (if btype.isStr kind then block :: rest else rest)

/-- The calls of the proxy's tools, and those of other tools. -/
def splitCalls : List Json → Option (List Json × List Json)
  | [] => some ([], [])
  | block :: blocks => do
      let isVc ← isVcToolName (← block.getDefault "name" (.str ""))
      let (vc, others) ← splitCalls blocks
      some (if isVc then (block :: vc, others) else (vc, block :: others))

/-- What a reply says: why it stops, its texts, and the tools it calls. -/
structure ReplyParts where
  stopReason : Json
  content : Json
  textBlocks : List Json
  vcNext : List Json
  nonVc : List Json

def replyParts (data : Json) : Option ReplyParts := do
  let stopReason ← data.getDefault "stop_reason" (.str "end_turn")
  let content ← data.getDefault "content" (.arr [])
  let blocks ← iterated content
  let textBlocks ← blocksOfType "text" blocks
  let toolBlocks ← blocksOfType "tool_use" blocks
  let (vcNext, nonVc) ← splitCalls toolBlocks
  some { stopReason, content, textBlocks, vcNext, nonVc }

def vcCallOf (block : Json) : Option VcTool := do
  let id ← block.subscript "id"
  let name ← block.subscript "name"
  let input ← block.getDefault "input" (.obj [])
  some ⟨id, name, input⟩

def vcCallsOf : List Json → Option (List VcTool)
  | [] => some []
  | block :: blocks => do
      let call ← vcCallOf block
      let calls ← vcCallsOf blocks
      some (call :: calls)

/-- The text after `<thinking>...</thinking>` at its start. -/
def dropThinking (text : List Char) : List Char :=
  if "<thinking>".toList.isPrefixOf text then
    match findPart "</thinking>".toList (text.drop 10) with
    | some i => (text.drop (10 + i + 11)).dropWhile isPySpace
    | none => text
  else text

/-- The text of a block is written to the client, unless it is blank; `false` if an exception
is raised. -/
def emitTextBlock (s : ContinuationState) (block : Json) : ContinuationState × Bool :=
  match block.getDefault "text" (.str "") with
  | some (.str text) =>
      let rest := dropThinking text.toList
      if pyStripChars rest = [] then (s, true)
      else
        let rest := String.ofList rest
        ({ s with
          textChunks := s.textChunks ++ [.str rest]
          emitted := s.emitted ++ [.text rest s.forwardedBlockCount]
          forwardedBlockCount := s.forwardedBlockCount + 1 }, true)
  | some text => (s, !text.truthy)
  | none => (s, false)

def emitTextBlocks : ContinuationState → List Json → ContinuationState × Bool
  | s, [] => (s, true)
  | s, block :: blocks =>
      match emitTextBlock s block with
      | (s, false) => (s, false)
      | (s, true) => emitTextBlocks s blocks

/-- The calls of other tools are written to the client. -/
def emitToolUses (s : ContinuationState) (blocks : List Json) : ContinuationState :=
  blocks.foldl (fun s block =>
    let tool := match block with
      | .obj entries => entries
      | _ => []
    { s with
      emitted := s.emitted ++ [.toolUse tool s.forwardedBlockCount]
      forwardedBlockCount := s.forwardedBlockCount + 1 }) s

/-- What is done with a reply. -/
inductive RoundEnd where
  | again
  | done
  | raised

/-- More calls of the proxy's tools, and of no others, are another round. -/
def takeContinuation (s : ContinuationState) (data : Json) : ContinuationState × RoundEnd :=
  let s := { s with contData := some data }
  match replyParts data with
  | none => (s, .raised)
  | some parts =>
      match emitTextBlocks { s with loopContentBlocks := parts.content } parts.textBlocks with
      | (s, false) => (s, .raised)
      | (s, true) =>
          if parts.stopReason.isStr "tool_use" ∧ parts.vcNext ≠ [] ∧ parts.nonVc = [] then
            match vcCallsOf parts.vcNext with
            | none => (s, .raised)
            | some vcTools => ({ s with vcTools }, .again)
          else
            (emitToolUses s parts.nonVc, .done)

/-! ## Rounds -/

/-- So many rounds at most; `false` if an exception was raised. -/
def continuationRounds (env : ContinuationEnv) (allContentBlocks : List Json) :
    (fuel round : Nat) → ContinuationState → ContinuationState × Bool
  | 0, _, s => (s, true)
  | fuel + 1, round, s =>
      match continuationRequest env allContentBlocks round s with
      | (none, body) => ({ s with body }, false)
      | (some request, body) =>
          let s := { s with body, contBody := some request, requests := s.requests ++ [request] }
          let reply := env.reply round request
          if reply.1 ≥ 300 then (s, true)
          else
            match takeContinuation s reply.2 with
            | (s, .again) => continuationRounds env allContentBlocks fuel (round + 1) s
            | (s, .done) => (s, true)
            | (s, .raised) => (s, false)

/-- Whether a block calls a tool that is none of the proxy's. -/
def callsOtherTool (block : Json) : Option Bool := do
  let btype ← block.getDefault "type" .null
  if btype.isStr "tool_use" then
    let isVc ← isVcToolName (← block.getDefault "name" (.str ""))
    some (!isVc)
  else
    some false

/-- The reason and the usage that the client's stream ends with. -/
def endingOf (contData : Option Json) : Option (String × Json) :=
  match contData with
  | none => some ("end_turn", .null)
  | some data =>
      if data.truthy then do
        let usage ← data.getDefault "usage" .null
        let rawStop ← data.getDefault "stop_reason" (.str "end_turn")
        let content ← iterated (← data.getDefault "content" (.arr []))
        let nonVcForwarded ← anyItem callsOtherTool content
        some (if rawStop.isStr "tool_use" && nonVcForwarded then "tool_use" else "end_turn", usage)
      else some ("end_turn", .null)

/-- The state that a stream leaves to its continuation. -/
def ContinuationState.start (body : RequestBody) (s : StreamState) : ContinuationState where
  body
  vcTools := s.vcTools
  forwardedBlockCount := s.forwardedBlockCount
  textChunks := s.textChunks

/-- The continuation phase: nothing unless the response only called the proxy's tools. -/
def continueStream (env : ContinuationEnv) (body : RequestBody) (s : StreamState) :
    ContinuationState × Bool :=
  if s.needContinuation ∧ s.vcTools ≠ [] then
    match continuationRounds env s.allContentBlocks maxContinuationLoops 0 (.start body s) with
    | (s, false) => (s, false)
    | (s, true) =>
        match endingOf s.contData with
        | none => (s, false)
        | some (stopReason, usage) =>
            ({ s with emitted := s.emitted ++ [.messageEnd stopReason usage] }, true)
  else (.start body s, true)

end VirtualContext
