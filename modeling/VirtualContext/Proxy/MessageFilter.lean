import VirtualContext.Core.TurnTagIndex
import VirtualContext.Library.Alternation
import VirtualContext.Library.Entries
import VirtualContext.Library.Saturation
import VirtualContext.Proxy.MessageBodies

/-!
# Filtering the messages of a request

History is grouped into chains of a user message, its answer and tool rounds.
Chains are kept by tags, and with them all that tool identifiers tie to them.
The messages that are left are then made to alternate in their roles.
-/

namespace VirtualContext

open VirtualContext.Library

/-! ## Messages -/

/-- A dict in a content list; `none` is a missing key. -/
structure PayloadBlock (ρ : Type) where
  type : Option String := none
  id : Option String := none
  toolUseId : Option String := none
  rest : ρ
  deriving DecidableEq, Repr

inductive PayloadElement (ρ : Type) where
  | block (block : PayloadBlock ρ)
  | other (value : ρ)
  deriving DecidableEq, Repr

inductive PayloadContent (ρ : Type) where
  | elements (elements : List (PayloadElement ρ))
  | other (value : ρ)
  deriving DecidableEq, Repr

/-- A message or bare item of any format, as far as the filter reads it. -/
structure PayloadMessage (ρ : Type) where
  role : Option String
  /-- The type of a bare item. -/
  type : Option String := none
  content : PayloadContent ρ
  /-- The identifiers of the dicts in `tool_calls`. -/
  toolCalls : List (Option String) := []
  toolCallId : Option String := none
  /-- Some part has a `functionCall` or a `functionResponse`. -/
  functionPart : Bool := false
  rest : ρ
  deriving DecidableEq, Repr

def ApiFormat.assistantRole : ApiFormat → String
  | .gemini => "model"
  | _ => "assistant"

namespace PayloadMessage

variable {ρ : Type} (msg : PayloadMessage ρ)

def elements : List (PayloadElement ρ) :=
  match msg.content with
  | .elements elements => elements
  | .other _ => []

/-- The identifiers of the tool calls of a message. -/
def toolUses : List String :=
  msg.elements.filterMap (fun element =>
    match element with
    | .block block => if block.type = some "tool_use" then block.id else none
    | .other _ => none) ++ msg.toolCalls.filterMap id

/-- The identifiers of the calls whose results are in a message. -/
def toolResults : List String :=
  msg.elements.filterMap (fun element =>
    match element with
    | .block block => if block.type = some "tool_result" then block.toolUseId else none
    | .other _ => none) ++
    (if msg.role = some "tool" then msg.toolCallId.toList else [])

def isThinking : PayloadElement ρ → Bool
  | .block block => block.type = some "thinking"
  | .other _ => false

/-- What `_strip_thinking_blocks` makes of one message. -/
def stripThinking : PayloadMessage ρ :=
  match msg.content with
  | .elements elements =>
      if msg.role = some "assistant" then
        { msg with content := .elements (elements.filter (!isThinking ·)) }
      else msg
  | .other _ => msg

/-- A bare item of a tool round of the Responses API. -/
def isBareToolItem : Bool :=
  msg.role = none &&
    (msg.type = some "function_call" || msg.type = some "function_call_output")

/-- The signals of `_chain_has_tool_activity`. -/
def hasToolActivity : Bool :=
  msg.role = some "tool" || !msg.toolCalls.isEmpty ||
    (msg.type = some "function_call" || msg.type = some "function_call_output") ||
    msg.functionPart

end PayloadMessage

/-! ## Chains -/

section Chains

variable {ρ : Type} (assistantRole : String)

/-- The messages that the tool rounds at the start of a list take, if any. -/
def toolRounds : (fuel : Nat) → List (PayloadMessage ρ) → Nat
  | 0, _ => 0
  | fuel + 1, messages =>
      if messages.length < 2 then 0
      else
        let batch := (messages.takeWhile (·.role = some "tool")).length
        let bare := (messages.takeWhile (·.isBareToolItem)).length
        let size := if batch = 0 then bare else batch
        if size = 0 then 0
        else if (messages[size]?).any (·.role = some assistantRole) then
          size + 1 + toolRounds fuel (messages.drop (size + 1))
        else 0

/-- The chains of a history, as the indices of their messages. -/
def groupChains : (fuel index : Nat) → List (PayloadMessage ρ) → List (List Nat)
  | fuel + 1, index, user :: answer :: messages =>
      if user.role = some "user" ∧ answer.role = some assistantRole then
        let rounds := toolRounds assistantRole messages.length messages
        List.range' index (2 + rounds) ::
          groupChains fuel (index + (2 + rounds)) (messages.drop rounds)
      else groupChains fuel (index + 1) (answer :: messages)
  | _, _, _ => []

end Chains

/-! ## The selection -/

inductive PreCompactionMode where
  | off | conservative | aggressive
  deriving DecidableEq, Repr

/-- The arguments of `filter_body_messages` beside the messages. -/
structure FilterArgs where
  format : ApiFormat := .anthropic
  turnTagIndex : TurnTagIndex
  matchedTags : List String
  recentTurns : Int := 3
  compactedTurn : Int := 0
  preCompactionMode : PreCompactionMode := .aggressive

namespace FilterArgs

variable (args : FilterArgs)

/-- No filtering before a compaction. -/
def isOff : Bool := args.compactedTurn = 0 && args.preCompactionMode = .off

/-- The number of recent turns after the mode was looked at. -/
def recentLimit : Int :=
  if args.compactedTurn = 0 ∧ args.preCompactionMode = .conservative then
    args.recentTurns * 2
  else args.recentTurns

/-- Whether a chain is kept for its tags, its place or its tools. -/
def keepsChain (total protectedCount : Int) (pairIdx : Nat) (hasTools : Bool) : Bool :=
  if total - protectedCount ≤ pairIdx then true
  else if hasTools then true
  else if 0 < args.compactedTurn ∧ pairIdx < args.compactedTurn then false
  else
    match args.turnTagIndex.getTagsForLogicalTurn pairIdx with
    | none => true
    | some entry => "rule" ∈ entry.tags || entry.tags.any (· ∈ args.matchedTags)

end FilterArgs

/-- The indices of the messages that have an identifier; the last one counts. -/
def toolMap {ρ : Type} (ids : PayloadMessage ρ → List String)
    (history : List (PayloadMessage ρ)) : Entries String Nat :=
  Entries.setAll [] (history.zipIdx.flatMap fun entry => (ids entry.1).map (·, entry.2))

/-- The other messages of the chain of a message. -/
def chainPeers (chains : List (List Nat)) (index : Nat) : List Nat :=
  ((chains.reverse.find? (index ∈ ·)).getD []).filter (· ≠ index)

/-- A kept end of a tool call keeps the other end. -/
def keepPair (results : Entries String Nat) (keep : List Nat) (use : String × Nat) :
    List Nat :=
  match results.get use.1 with
  | none => keep
  | some result =>
      let keep := if use.2 ∈ keep then addNew keep result else keep
      if result ∈ keep then addNew keep use.2 else keep

def keepPeers (chains : List (List Nat)) (keep : List Nat) (index : Nat) : List Nat :=
  addAll keep (chainPeers chains index)

/-- One pass of the referential integrity. -/
def integrityPass (uses results : Entries String Nat) (chains : List (List Nat))
    (keep : List Nat) : List Nat :=
  let keep := uses.foldl (keepPair results) keep
  keep.foldl (keepPeers chains) keep

/-- One turn of the backfill, and whether it added a message before the kept one. -/
def backfillTo (chains : List (List Nat)) (keep : List Nat) (changed : Bool)
    (index : Nat) : List Nat × Bool :=
  let filled := addAll keep (List.range (index + 1))
  ((List.range (index + 1)).foldl (keepPeers chains) filled, changed || filled ≠ keep)

/-- The walk over what was kept, up to the first user message. -/
def backfill {ρ : Type} (history : List (PayloadMessage ρ)) (chains : List (List Nat)) :
    List Nat → List Nat → Bool → List Nat × Bool
  | [], keep, changed => (keep, changed)
  | index :: indices, keep, changed =>
      if (history[index]?).any (·.role = some "user") then (keep, changed)
      else
        let (keep, changed) := backfillTo chains keep changed index
        backfill history chains indices keep changed

/-- What is selected of a list of messages. -/
structure FilterSelection (ρ : Type) where
  system : List (PayloadMessage ρ)
  history : List (PayloadMessage ρ)
  /-- The trailing user message. -/
  current : Option (PayloadMessage ρ)
  chains : List (List Nat)
  keptChains : List (List Nat)

namespace FilterSelection

variable {ρ : Type} (selection : FilterSelection ρ)

def uses : Entries String Nat := toolMap PayloadMessage.toolUses selection.history

def results : Entries String Nat := toolMap PayloadMessage.toolResults selection.history

/-- Unpaired messages and the chains that are kept. -/
def initialKeep : List Nat :=
  addAll (addAll [] ((List.range selection.history.length).filter
    fun index => selection.chains.all (index ∉ ·))) selection.keptChains.flatten

def close (keep : List Nat) : List Nat :=
  saturate (integrityPass selection.uses selection.results selection.chains)
    (selection.history.length + 1) keep

/-- The messages of the history that are kept. -/
def keep : List Nat :=
  let closed := selection.close selection.initialKeep
  let sorted := (List.range selection.history.length).filter (· ∈ closed)
  let (filled, changed) :=
    backfill selection.history selection.chains sorted closed false
  if changed then selection.close filled else filled

end FilterSelection

/-- The selection, unless the body is returned before. -/
def selectMessages {ρ : Type} (args : FilterArgs) (messages : List (PayloadMessage ρ)) :
    Option (FilterSelection ρ) :=
  if messages = [] ∨ args.isOff then none
  else
    let system := messages.takeWhile (·.role = some "system")
    let chat := messages.drop system.length
    if chat = [] then none
    else
      let current := chat.getLast?.filter (·.role = some "user")
      let history := if current.isSome then chat.dropLast else chat
      let chains := groupChains args.format.assistantRole history.length 0 history
      let protectedCount := min args.recentLimit chains.length
      if chains.length ≤ protectedCount ∨ args.turnTagIndex.entries = [] then none
      else
        let hasTools (chain : List Nat) : Bool :=
          chain.any fun index => (history[index]?).any (·.hasToolActivity)
        some
          { system := system
            history := history
            current := current
            chains := chains
            keptChains := (chains.zipIdx.filter fun entry =>
              args.keepsChain chains.length protectedCount entry.2
                (hasTools entry.1)).map (·.1) }

/-! ## What is sent -/

/-- A kept message, with its place in the body. -/
structure FilterSlot (ρ : Type) where
  position : Nat
  critical : Bool := false
  message : PayloadMessage ρ
  deriving DecidableEq, Repr

namespace FilterSlot

variable {ρ : Type}

def role (slot : FilterSlot ρ) : Option String := slot.message.role

end FilterSlot

namespace FilterSelection

variable {ρ : Type} (selection : FilterSelection ρ)

/-- The messages of tool calls both ends of which are kept. -/
def criticalIndices : List Nat :=
  selection.uses.flatMap fun use =>
    match selection.results.get use.1 with
    | none => []
    | some result =>
        if use.2 ∈ selection.keep ∧ result ∈ selection.keep then [use.2, result] else []

def slots : List (FilterSlot ρ) :=
  selection.system.zipIdx.map (fun entry => { position := entry.2, message := entry.1 }) ++
    (selection.history.zipIdx.filter (·.2 ∈ selection.keep)).map (fun entry =>
      { position := selection.system.length + entry.2
        critical := entry.2 ∈ selection.criticalIndices
        message := entry.1 }) ++
    selection.current.toList.map fun message =>
      { position := selection.system.length + selection.history.length
        message := message }

/-- The slots before their roles are made to alternate. -/
def kept : List (FilterSlot ρ) :=
  if selection.keep.length < selection.history.length then
    selection.slots.map fun slot => { slot with message := slot.message.stripThinking }
  else selection.slots

def alternating : List (FilterSlot ρ) :=
  alternate FilterSlot.role FilterSlot.critical selection.kept

/-- The safety net: results whose call is not sent. -/
def orphaned : List String :=
  let sent := selection.alternating.map (·.message)
  (sent.flatMap (·.toolResults)).filter fun id => id ∉ sent.flatMap (·.toolUses)

def keptUserCount : Int :=
  selection.alternating.countP (·.role = some "user") -
    (if selection.current.isSome then 1 else 0)

def dropped : Nat := (selection.chains.length - selection.keptUserCount).toNat

end FilterSelection

/-- The slots that are sent, unless the body is returned as it is. -/
def filteredSlots {ρ : Type} (args : FilterArgs) (messages : List (PayloadMessage ρ)) :
    Option (FilterSelection ρ) :=
  (selectMessages args messages).filter fun selection =>
    selection.orphaned.isEmpty && selection.dropped ≠ 0

def filterBodyMessages {ρ : Type} (args : FilterArgs) (messages : List (PayloadMessage ρ)) :
    List (PayloadMessage ρ) × Nat :=
  match filteredSlots args messages with
  | none => (messages, 0)
  | some selection => (selection.alternating.map (·.message), selection.dropped)

end VirtualContext
