import VirtualContext.Core.ProviderAdapters

/-!
# The tool loop

`run_tool_loop` answers the calls of a response and sends the request again, at
most so often.  The continuation shares the entries of the original request
unless the adapter copies them; what is written to a shared entry is written to
the original.
-/

namespace VirtualContext

open VirtualContext.Library

variable {ρ : Type}

def vcToolNames : List String :=
  ["vc_expand_topic", "vc_find_quote", "vc_find_session", "vc_search_summaries",
    "vc_query_facts", "vc_recall_all", "vc_remember_when", "vc_restore_tool"]

def isVcTool (name : String) : Bool := name ∈ vcToolNames

/-- `_WORKING_SET_TOOLS` -/
def workingSetTools : List String := ["vc_expand_topic"]

def redundantSearchThreshold : Nat := 3

def suppressionMarker : Text := "[Older session (".toList

def foundMarker : Text := "\"found\": true".toList

/-- `word in text` -/
def occursIn (word : Text) : Text → Bool
  | [] => word.isEmpty
  | c :: text => word.isPrefixOf (c :: text) || occursIn word text

/-! ## Bodies -/

/-- The parts of a request that the loop may change in place. -/
structure ToolRequest (ρ : Type) where
  entries : List (WireEntry ρ)
  tools : Option (List WireTool) := none
  deriving DecidableEq, Repr

/-- A continuation body; `none` is what it shares with the original. -/
structure Continuation (ρ : Type) where
  front : List (WireEntry ρ) := []
  copied : Option (List (WireEntry ρ)) := none
  tail : List (WireEntry ρ) := []
  ownTools : Option (Option (List WireTool)) := none

/-- The original request as it is now, and the continuation of it. -/
structure LoopBodies (ρ : Type) where
  original : ToolRequest ρ
  cont : Continuation ρ

namespace LoopBodies

variable (bodies : LoopBodies ρ)

def history : List (WireEntry ρ) := bodies.cont.copied.getD bodies.original.entries

def entries : List (WireEntry ρ) :=
  bodies.cont.front ++ bodies.history ++ bodies.cont.tail

def tools : Option (List WireTool) := bodies.cont.ownTools.getD bodies.original.tools

/-- The body as it is sent. -/
def request : ToolRequest ρ := { entries := bodies.entries, tools := bodies.tools }

/-- Writes to the entries of the history. -/
def setHistory (history : List (WireEntry ρ)) : LoopBodies ρ :=
  match bodies.cont.copied with
  | none => { bodies with original := { bodies.original with entries := history } }
  | some _ => { bodies with cont := { bodies.cont with copied := some history } }

def setTools (tools : List WireTool) : LoopBodies ρ :=
  match bodies.cont.ownTools, bodies.original.tools with
  | none, some _ =>
      { bodies with original := { bodies.original with tools := some tools } }
  | _, _ => { bodies with cont := { bodies.cont with ownTools := some (some tools) } }

/-- `strip_tools` -/
def stripTools : LoopBodies ρ :=
  { bodies with cont := { bodies.cont with ownTools := some none } }

def append (entries : List (WireEntry ρ)) : LoopBodies ρ :=
  { bodies with cont := { bodies.cont with tail := bodies.cont.tail ++ entries } }

end LoopBodies

/-- Changes the first entries of a list. -/
def mapUpTo {α : Type} (n : Nat) (f : α → α) (list : List α) : List α :=
  (list.take n).map f ++ list.drop n

namespace Provider

variable (p : Provider)

/-- The fresh body of `build_continuation`. -/
def startContinuation (original : ToolRequest ρ) : LoopBodies ρ where
  original := original
  cont :=
    match p with
    | .anthropic | .openai => {}
    | .codex => { ownTools := some original.tools }
    | .gemini => { copied := some original.entries, ownTools := some original.tools }

def buildContinuation (original : ToolRequest ρ) (cont : Option (Continuation ρ))
    (response : ProviderResponse ρ) (results : List (WireResult ρ)) : LoopBodies ρ :=
  let bodies :=
    match cont with
    | none => p.startContinuation original
    | some cont => { original := original, cont := cont }
  bodies.append (p.outputEntries response ++ p.resultEntries results)

/-- Entries before the current round are compressed in place. -/
def compressPreviousResults (ids : List String) (bodies : LoopBodies ρ) : LoopBodies ρ :=
  let start := p.currentStart ids bodies.entries
  let front := bodies.cont.front
  let history := bodies.history
  let compressed := { bodies with
    cont := { bodies.cont with
      front := mapUpTo start p.compressEntry front
      tail := mapUpTo (start - front.length - history.length) p.compressEntry
        bodies.cont.tail } }
  compressed.setHistory (mapUpTo (start - front.length) p.compressEntry history)

end Provider

namespace LoopBodies

/-- Writes to the first entry, wherever it is kept. -/
def modifyFirst (f : WireEntry ρ → WireEntry ρ) (bodies : LoopBodies ρ) : LoopBodies ρ :=
  match bodies.cont.front, bodies.history with
  | entry :: front, _ => { bodies with cont := { bodies.cont with front := f entry :: front } }
  | [], entry :: history => bodies.setHistory (f entry :: history)
  | [], [] => { bodies with cont := { bodies.cont with tail := bodies.cont.tail.modifyHead f } }

def insertFirst (entry : WireEntry ρ) (bodies : LoopBodies ρ) : LoopBodies ρ :=
  { bodies with cont := { bodies.cont with front := entry :: bodies.cont.front } }

end LoopBodies

namespace Provider

variable (p : Provider)

/-- `inject_context`; only a chat has its system text among the entries. -/
def injectContext (prepend : Text) (bodies : LoopBodies ρ) : LoopBodies ρ :=
  let block := contextBlock prepend
  match p with
  | .openai =>
      if bodies.entries.head?.any (·.role = some "system") then
        bodies.modifyFirst (OpenAIAdapter.injectSystem block)
      else bodies.insertFirst { role := some "system", content := .text block }
  | _ => bodies

/-- `add_tool_defs` of the definition of `vc_find_session`. -/
def addFindSession (bodies : LoopBodies ρ) : LoopBodies ρ :=
  let tools := bodies.tools.getD []
  match p, tools with
  | .gemini, .declarations names :: tools =>
      bodies.setTools (.declarations (names ++ ["vc_find_session"]) :: tools)
  | .gemini, tools => bodies.setTools (tools ++ [.declarations ["vc_find_session"]])
  | _, tools => bodies.setTools (tools ++ [.function "vc_find_session"])

def nudge : Text :=
  "You have gathered enough information. Answer the original question now in 1-2 sentences.".toList

/-- The user message that asks for a text, where a format has one. -/
def nudgeEntries : List (WireEntry ρ) :=
  match p with
  | .anthropic | .openai => [{ role := some "user", content := .text nudge }]
  | .codex => []
  | .gemini => [{ role := some "user", parts := [.text none nudge []] }]

end Provider

/-! ## The loop -/

/-- What the loop gets from outside: tool results and the hints behind them, in the
order of execution, reassembled contexts by round, the replies of the provider by
request (`none` is a failure), and `uuid4` values by response. -/
structure LoopEnv (ρ : Type) where
  results : Nat → Text
  hints : Nat → Text
  reassembled : Nat → Text
  replies : Nat → Option (ProviderResponse ρ)
  fresh : Nat → Nat → String
  fresh_ne (response call : Nat) : fresh response call ≠ ""

structure ToolCallRecord (ρ : Type) where
  toolName : String
  toolInput : ToolInput ρ
  resultJson : Text
  deriving DecidableEq, Repr

/-- The label that a request is sent with. -/
inductive RequestLabel where
  | continuation | forcedRedundant | forcedExhausted
  deriving DecidableEq, Repr

structure ToolLoopResult (ρ : Type) where
  text : Text := []
  toolCalls : List (ToolCallRecord ρ) := []
  continuationCount : Nat := 0
  stopReason : String := "end_turn"
  rawRequests : List (ToolRequest ρ) := []
  /-- The labels of the requests, which are only logged. -/
  labels : List RequestLabel := []
  rawResponses : List (ProviderResponse ρ) := []
  deriving DecidableEq, Repr

structure LoopState (ρ : Type) where
  original : ToolRequest ρ
  cont : Option (Continuation ρ) := none
  currentResponse : ProviderResponse ρ
  vcTools : List (ToolCall ρ)
  stopReason : String
  findSessionInjected : Bool := false
  result : ToolLoopResult ρ

section

variable (env : LoopEnv ρ) (p : Provider)

/-- Executes the calls in order and records them; hints follow the results of a round. -/
def executeTools (hinted : Bool) : List (ToolCall ρ) → ToolLoopResult ρ →
    List (WireResult ρ) × ToolLoopResult ρ
  | [], result => ([], result)
  | call :: calls, result =>
      let n := result.toolCalls.length
      let content := env.results n
      let (results, result) := executeTools hinted calls { result with
        toolCalls := result.toolCalls ++
          [{ toolName := call.name, toolInput := call.input, resultJson := content }] }
      (p.buildToolResult call (if hinted then content ++ env.hints n else content) :: results,
        result)

/-- Captures and sends a request. -/
def sendRequest (label : RequestLabel) (request : ToolRequest ρ)
    (result : ToolLoopResult ρ) : Option (ProviderResponse ρ) × ToolLoopResult ρ :=
  (env.replies result.rawRequests.length, { result with
    continuationCount := result.continuationCount + 1
    rawRequests := result.rawRequests ++ [request]
    labels := result.labels ++ [label] })

/-- Takes in what a response says. -/
def readReply (reply : ProviderResponse ρ) (result : ToolLoopResult ρ) : ToolLoopResult ρ :=
  { result with
    rawResponses := result.rawResponses ++ [reply]
    text := result.text ++ p.extractText reply }

/-- `_execute_pending_tools` and `_force_text_response` -/
def forceTextResponse (label : RequestLabel) (s : LoopState ρ) : LoopState ρ :=
  let (results, result) := executeTools env p false s.vcTools s.result
  let bodies := p.buildContinuation s.original s.cont s.currentResponse results
  let bodies := p.compressPreviousResults (results.filterMap (·.callId)) bodies
  let bodies := bodies.stripTools.append p.nudgeEntries
  let (reply, result) := sendRequest env label bodies.request result
  let result :=
    match reply with
    | none => { result with stopReason := "error" }
    | some reply => { readReply p reply result with stopReason := p.getStopReason reply }
  { s with original := bodies.original, cont := some bodies.cont, result := result }

/-- The body of a round: the calls are answered in a new or the old continuation. -/
def roundBodies (round : Nat) (s : LoopState ρ) (results : List (WireResult ρ))
    (result : ToolLoopResult ρ) : LoopBodies ρ × Bool :=
  let bodies := p.buildContinuation s.original s.cont s.currentResponse results
  let bodies := p.compressPreviousResults (results.filterMap (·.callId)) bodies
  let prepend :=
    if s.vcTools.any (·.name ∈ workingSetTools) then env.reassembled round else []
  let bodies := if prepend = [] then bodies else p.injectContext prepend bodies
  let recent := result.toolCalls.drop (result.toolCalls.length - s.vcTools.length)
  let suppressed := !s.findSessionInjected &&
    recent.any fun record => occursIn suppressionMarker record.resultJson
  (if suppressed then p.addFindSession bodies else bodies,
    s.findSessionInjected || suppressed)

/-- The last rounds only found quotes. -/
def isRedundant (round : Nat) (s : LoopState ρ) : Bool :=
  let calls := s.result.toolCalls
  let recent := calls.drop
    (calls.length - redundantSearchThreshold * max s.vcTools.length 1)
  redundantSearchThreshold - 1 ≤ round &&
    recent.all (·.toolName = "vc_find_quote") &&
    recent.all (fun record => occursIn foundMarker record.resultJson) &&
    redundantSearchThreshold ≤ recent.length

/-- The calls are executed and their results are sent. -/
def sendRound (round : Nat) (s : LoopState ρ) : Option (ProviderResponse ρ) × LoopState ρ :=
  let (results, result) := executeTools env p true s.vcTools s.result
  let (bodies, injected) := roundBodies env p round s results result
  let (reply, result) := sendRequest env .continuation bodies.request result
  (reply, { s with
    original := bodies.original
    cont := some bodies.cont
    findSessionInjected := injected
    result := result })

/-- The state with a reply as the current response. -/
def receiveReply (round : Nat) (reply : ProviderResponse ρ) (s : LoopState ρ) :
    LoopState ρ :=
  { s with
    currentResponse := reply
    vcTools := (p.extractToolCalls (env.fresh (round + 1)) reply).filter (isVcTool ·.name)
    stopReason := p.getStopReason reply
    result := readReply p reply s.result }

/-- What a reply makes of the loop; `true` if it goes on. -/
def takeReply (round : Nat) (reply : ProviderResponse ρ) (s : LoopState ρ) :
    Bool × LoopState ρ :=
  let calls := p.extractToolCalls (env.fresh (round + 1)) reply
  let s := receiveReply env p round reply s
  if p.isToolUseStop reply ∧ s.vcTools ≠ [] ∧ calls.all (isVcTool ·.name) then
    if isRedundant round s then
      let s := forceTextResponse env p .forcedRedundant s
      (false, if s.result.stopReason ≠ "error" then
        { s with result := { s.result with stopReason := "redundant_loop" } } else s)
    else (true, s)
  else (false, { s with result := { s.result with stopReason := s.stopReason } })

/-- One round; `true` if the loop goes on. -/
def loopRound (round : Nat) (s : LoopState ρ) : Bool × LoopState ρ :=
  match sendRound env p round s with
  | (none, s) => (false, { s with result := { s.result with stopReason := "error" } })
  | (some reply, s) => takeReply env p round reply s

/-- The rounds that are left, and the end when all of them went on. -/
def loopRounds : (remaining round : Nat) → LoopState ρ → LoopState ρ
  | 0, _, s =>
      if pyStripChars s.result.text = [] then forceTextResponse env p .forcedExhausted s
      else { s with result := { s.result with stopReason := s.stopReason } }
  | remaining + 1, round, s =>
      match loopRound env p round s with
      | (false, s) => s
      | (true, s) => loopRounds remaining (round + 1) s

/-- `run_tool_loop`, with what it leaves of the original request. -/
def runToolLoop (maxLoops : Nat) (initial : ProviderResponse ρ)
    (original : ToolRequest ρ) : ToolRequest ρ × ToolLoopResult ρ :=
  let calls := p.extractToolCalls (env.fresh 0) initial
  let vcTools := calls.filter (isVcTool ·.name)
  let result : ToolLoopResult ρ :=
    { text := p.extractText initial, rawResponses := [initial] }
  if vcTools = [] ∨ !calls.all (isVcTool ·.name) then
    (original, { result with stopReason := p.getStopReason initial })
  else
    let s := loopRounds env p maxLoops 0
      { original := original
        currentResponse := initial
        vcTools := vcTools
        stopReason := p.getStopReason initial
        result := result }
    (s.original, s.result)

end

end VirtualContext
