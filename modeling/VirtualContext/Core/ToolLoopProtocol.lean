import Mathlib.Data.List.DropRight
import VirtualContext.Core.ToolLoop

/-!
# Calls and results in the tool loop

The requests are read as a sequence of calls and results.  Every round appends
the calls of a response and then their results in the same order, whatever is
compressed or written in front of them.
-/

namespace VirtualContext

open VirtualContext.Library

variable {ρ : Type}

/-! ## Events -/

/-- What an entry says to the provider about calls. -/
inductive WireEvent where
  | call (key : String)
  | result (key : String)
  | other
  deriving DecidableEq, Repr

namespace AnthropicAdapter

def blockEvent (output : Bool) : WireBlock ρ → Option WireEvent
  | .toolUse id _ _ => if output then some (.call id) else none
  | .toolResult id _ _ => if output then none else some (.result id)
  | _ => none

def keyedEvents (entry : WireEntry ρ) : List WireEvent :=
  entry.content.toBlocks.filterMap (blockEvent (entry.role = some "assistant"))

end AnthropicAdapter

namespace OpenAIAdapter

def keyedEvents (entry : WireEntry ρ) : List WireEvent :=
  if entry.toolCalls ≠ [] then entry.toolCalls.map (.call ·.id)
  else if entry.role = some "tool" then entry.toolCallId.toList.map .result
  else []

end OpenAIAdapter

namespace OpenAICodexAdapter

def keyedEvents (entry : WireEntry ρ) : List WireEvent :=
  if entry.type = some "function_call" then [.call (entry.callId.getD "")]
  else if entry.type = some "function_call_output" then [.result (entry.callId.getD "")]
  else []

end OpenAICodexAdapter

namespace GeminiAdapter

def partEvent (output : Bool) : WireBlock ρ → Option WireEvent
  | .functionCall name _ => if output then some (.call name) else none
  | .functionResponse name _ _ => if output then none else some (.result name)
  | _ => none

def keyedEvents (entry : WireEntry ρ) : List WireEvent :=
  entry.parts.filterMap (partEvent (entry.role = some "model"))

end GeminiAdapter

namespace Provider

variable (p : Provider)

def keyedEvents (entry : WireEntry ρ) : List WireEvent :=
  match p with
  | .anthropic => AnthropicAdapter.keyedEvents entry
  | .openai => OpenAIAdapter.keyedEvents entry
  | .codex => OpenAICodexAdapter.keyedEvents entry
  | .gemini => GeminiAdapter.keyedEvents entry

def events (entry : WireEntry ρ) : List WireEvent :=
  if p.keyedEvents entry = [] then [.other] else p.keyedEvents entry

/-- What a call and its result are matched by. -/
def callKey (call : ToolCall ρ) : String :=
  match p with
  | .gemini => call.name
  | _ => call.id

/-- The calls of a response and then their results. -/
def answeredCalls (calls : List (ToolCall ρ)) : List WireEvent :=
  calls.map (fun call => .call (p.callKey call)) ++
    calls.map fun call => .result (p.callKey call)

/-- The keys of the calls, as the continuation writes them. -/
def writtenKeys (fresh : Nat → String) (response : ProviderResponse ρ) : List String :=
  match p with
  | .codex => response.functionCalls.map fun item => (item.callId.or item.id).getD ""
  | _ => (p.extractToolCalls fresh response).map p.callKey

/-- What a round appends. -/
def writtenEvents (fresh : Nat → String) (response : ProviderResponse ρ) :
    List WireEvent :=
  (p.writtenKeys fresh response).map .call ++
    (p.extractToolCalls fresh response).map fun call => .result (p.callKey call)

/-- Every call of a Responses output has an identifier. -/
def NamesCalls (response : ProviderResponse ρ) : Prop :=
  p = .codex → ∀ item ∈ response.functionCalls, (item.callId.or item.id).isSome

end Provider

/-! ### Compression keeps the events -/

theorem filterMap_compress {α : Type} {f : WireBlock ρ → Option α}
    (hf : ∀ type text rest, f (.text type text rest) = none)
    (reads : Option String → Text → Bool) (blocks : List (WireBlock ρ)) :
    (blocks.map (·.compress reads)).filterMap f = blocks.filterMap f := by
  rw [List.filterMap_map]
  refine List.filterMap_congr fun block _ => ?_
  cases block with
  | text type text rest =>
      simp only [Function.comp_apply, WireBlock.compress]
      split_ifs
      · rw [hf, hf]
      · rfl
  | _ => rfl

theorem AnthropicAdapter.keyedEvents_compressEntry (entry : WireEntry ρ) :
    keyedEvents (compressEntry entry) = keyedEvents entry := by
  unfold compressEntry
  split
  · rename_i blocks hcontent
    split_ifs
    · simp only [keyedEvents, hcontent]
      exact filterMap_compress (fun _ _ _ => rfl) _ _
    · rfl
  · rfl

theorem OpenAIAdapter.keyedEvents_compressEntry (entry : WireEntry ρ) :
    keyedEvents (compressEntry entry) = keyedEvents entry := by
  unfold compressEntry
  split_ifs
  · simp only [keyedEvents, ne_eq, List.map_eq_nil_iff, List.map_map]
    rfl
  · rfl

theorem OpenAICodexAdapter.keyedEvents_compressEntry (entry : WireEntry ρ) :
    keyedEvents (compressEntry entry) = keyedEvents entry := by
  unfold compressEntry
  split_ifs
  · rfl
  · split
    · rfl
    · rfl
  · split
    · rfl
    · rfl

theorem GeminiAdapter.keyedEvents_compressEntry (entry : WireEntry ρ) :
    keyedEvents (compressEntry entry) = keyedEvents entry := by
  unfold compressEntry
  split_ifs
  · exact filterMap_compress (fun _ _ _ => rfl) _ _
  · rfl

namespace Provider

variable (p : Provider)

theorem keyedEvents_compressEntry (entry : WireEntry ρ) :
    p.keyedEvents (p.compressEntry entry) = p.keyedEvents entry := by
  cases p with
  | anthropic => exact AnthropicAdapter.keyedEvents_compressEntry entry
  | openai => exact OpenAIAdapter.keyedEvents_compressEntry entry
  | codex => exact OpenAICodexAdapter.keyedEvents_compressEntry entry
  | gemini => exact GeminiAdapter.keyedEvents_compressEntry entry

theorem events_compressEntry (entry : WireEntry ρ) :
    p.events (p.compressEntry entry) = p.events entry := by
  rw [events, keyedEvents_compressEntry]
  rfl

theorem flatMap_events_mapUpTo (n : Nat) (entries : List (WireEntry ρ)) :
    (mapUpTo n p.compressEntry entries).flatMap p.events = entries.flatMap p.events := by
  rw [mapUpTo, List.flatMap_append, List.flatMap_map]
  simp only [events_compressEntry]
  rw [← List.flatMap_append, List.take_append_drop]

/-! ### What a round appends -/

variable {fresh : Nat → String} {response : ProviderResponse ρ}

theorem flatMap_events_of_keyed {entry : WireEntry ρ} {keys : List WireEvent}
    (h : p.keyedEvents entry = keys) (hkeys : keys ≠ []) :
    [entry].flatMap p.events = keys := by
  rw [List.flatMap_singleton, events, h, if_neg hkeys]

theorem flatMap_events_outputEntries (h : p.extractToolCalls fresh response ≠ []) :
    (p.outputEntries response).flatMap p.events =
      (p.writtenKeys fresh response).map .call := by
  cases p with
  | anthropic =>
      refine flatMap_events_of_keyed _ ?_ (by simpa [writtenKeys] using h)
      simp only [keyedEvents, AnthropicAdapter.keyedEvents, WireContent.toBlocks, writtenKeys,
        extractToolCalls, AnthropicAdapter.extractToolCalls, List.map_filterMap]
      refine List.filterMap_congr fun block _ => ?_
      cases block <;> rfl
  | openai =>
      unfold outputEntries OpenAIAdapter.outputEntries
      cases hchoices : response.choices with
      | nil => simp [extractToolCalls, OpenAIAdapter.extractToolCalls, hchoices] at h
      | cons choice choices =>
          simp only [extractToolCalls, OpenAIAdapter.extractToolCalls, hchoices, ne_eq,
            List.map_eq_nil_iff] at h
          refine flatMap_events_of_keyed _ ?_ ?_
          · simp only [keyedEvents, OpenAIAdapter.keyedEvents, ne_eq, h, not_false_eq_true,
              if_true, writtenKeys, extractToolCalls, OpenAIAdapter.extractToolCalls,
              hchoices, List.map_map]
            rfl
          · simpa [writtenKeys, extractToolCalls, OpenAIAdapter.extractToolCalls,
              hchoices] using h
  | codex =>
      simp only [outputEntries, OpenAICodexAdapter.outputEntries, writtenKeys,
        List.flatMap_map, List.map_map]
      rw [List.map_eq_flatMap]
      refine List.flatMap_congr fun item _ => ?_
      simp [events, keyedEvents, OpenAICodexAdapter.keyedEvents]
  | gemini =>
      refine flatMap_events_of_keyed _ ?_ (by simpa [writtenKeys] using h)
      have hnames (calls : List (String × ρ)) :
          calls.zipIdx.map (fun entry => WireEvent.call entry.1.1) =
            calls.map fun call => .call call.1 := by
        conv_rhs => rw [← List.zipIdx_map_fst 0 calls, List.map_map]
        rfl
      simp only [keyedEvents, GeminiAdapter.keyedEvents, writtenKeys, extractToolCalls,
        GeminiAdapter.extractToolCalls, List.map_map]
      refine Eq.trans ?_ (hnames _).symm
      rw [List.map_filterMap]
      refine List.filterMap_congr fun part _ => ?_
      cases part <;> rfl

/-- Results of calls, in their order. -/
def Answers (calls : List (ToolCall ρ)) (results : List (WireResult ρ)) : Prop :=
  List.Forall₂ (fun call result => ∃ content, result = p.buildToolResult call content)
    calls results

variable {p} in
theorem Answers.blocks {calls : List (ToolCall ρ)} {results : List (WireResult ρ)}
    (h : p.Answers calls results) {block : ToolCall ρ → Text → WireBlock ρ}
    (hblock : ∀ call content, p.buildToolResult call content = .block (block call content))
    {event : WireBlock ρ → Option WireEvent} {key : ToolCall ρ → String}
    (hevent : ∀ call content, event (block call content) = some (.result (key call))) :
    (results.filterMap (·.toBlock)).filterMap event =
      calls.map fun call => .result (key call) := by
  induction h with
  | nil => rfl
  | @cons call _ calls results hresult _ ih =>
      obtain ⟨content, rfl⟩ := hresult
      rw [hblock]
      change (block call content :: results.filterMap (·.toBlock)).filterMap event = _
      rw [List.filterMap_cons_some (hevent call content), List.map_cons, ih]

variable {p} in
theorem Answers.entries {calls : List (ToolCall ρ)} {results : List (WireResult ρ)}
    (h : p.Answers calls results) {entry : ToolCall ρ → Text → WireEntry ρ}
    (hentry : ∀ call content, p.buildToolResult call content = .entry (entry call content))
    {key : ToolCall ρ → String}
    (hevent : ∀ call content, p.events (entry call content) = [.result (key call)]) :
    (results.filterMap (·.toEntry)).flatMap p.events =
      calls.map fun call => .result (key call) := by
  induction h with
  | nil => rfl
  | @cons call _ calls results hresult _ ih =>
      obtain ⟨content, rfl⟩ := hresult
      rw [hentry]
      change (entry call content :: results.filterMap (·.toEntry)).flatMap p.events = _
      rw [List.flatMap_cons, hevent, List.map_cons, ih, List.singleton_append]

theorem flatMap_events_resultEntries {calls : List (ToolCall ρ)} (hcalls : calls ≠ [])
    {results : List (WireResult ρ)} (h : p.Answers calls results) :
    (p.resultEntries results).flatMap p.events =
      calls.map fun call => .result (p.callKey call) := by
  cases p with
  | anthropic =>
      refine flatMap_events_of_keyed _ ?_ (by simpa using hcalls)
      exact h.blocks (fun _ _ => rfl) fun _ _ => rfl
  | openai =>
      refine h.entries (fun _ _ => rfl) fun call content => ?_
      simp [events, keyedEvents, OpenAIAdapter.keyedEvents, callKey]
  | codex =>
      refine h.entries (fun _ _ => rfl) fun call content => ?_
      simp [events, keyedEvents, OpenAICodexAdapter.keyedEvents, callKey]
  | gemini =>
      refine flatMap_events_of_keyed _ ?_ (by simpa using hcalls)
      exact h.blocks (fun _ _ => rfl) fun _ _ => rfl

theorem flatMap_events_nudgeEntries :
    ∀ event ∈ (p.nudgeEntries (ρ := ρ)).flatMap p.events, event = .other := by
  cases p <;> simp [nudgeEntries, events, keyedEvents, AnthropicAdapter.keyedEvents,
    OpenAIAdapter.keyedEvents, GeminiAdapter.keyedEvents, WireContent.toBlocks,
    GeminiAdapter.partEvent]

end Provider

/-! ## Bodies -/

namespace LoopBodies

variable (p : Provider) (bodies : LoopBodies ρ)

/-- What the rounds have said so far. -/
def tailEvents : List WireEvent := bodies.cont.tail.flatMap p.events

theorem tailEvents_suffix : ∃ before, bodies.entries.flatMap p.events =
    before ++ bodies.tailEvents p :=
  ⟨(bodies.cont.front ++ bodies.history).flatMap p.events, List.flatMap_append⟩

theorem tail_setHistory (history : List (WireEntry ρ)) :
    (bodies.setHistory history).cont.tail = bodies.cont.tail := by
  unfold setHistory
  split <;> rfl

theorem tail_setTools (tools : List WireTool) :
    (bodies.setTools tools).cont.tail = bodies.cont.tail := by
  unfold setTools
  split <;> rfl

theorem tailEvents_append (entries : List (WireEntry ρ)) :
    (bodies.append entries).tailEvents p =
      bodies.tailEvents p ++ entries.flatMap p.events := List.flatMap_append

theorem tailEvents_compress (ids : List String) :
    (p.compressPreviousResults ids bodies).tailEvents p = bodies.tailEvents p := by
  unfold tailEvents Provider.compressPreviousResults
  dsimp only
  rw [tail_setHistory]
  exact p.flatMap_events_mapUpTo _ _

theorem tailEvents_addFindSession :
    (p.addFindSession bodies).tailEvents p = bodies.tailEvents p := by
  unfold tailEvents Provider.addFindSession
  dsimp only
  split <;> rw [tail_setTools]

theorem tailEvents_injectContext (prepend : Text) :
    (p.injectContext prepend bodies).tailEvents p = bodies.tailEvents p := by
  unfold Provider.injectContext
  dsimp only
  split
  · split_ifs
    · unfold modifyFirst
      split
      · rfl
      · rw [tailEvents, tail_setHistory]
        rfl
      · unfold tailEvents
        dsimp only
        cases bodies.cont.tail with
        | nil => rfl
        | cons entry entries =>
            have hevents : Provider.openai.events
                (OpenAIAdapter.injectSystem (contextBlock prepend) entry) =
                  Provider.openai.events entry := by
              unfold OpenAIAdapter.injectSystem
              split <;> rfl
            rw [List.modifyHead_cons, List.flatMap_cons, hevents, List.flatMap_cons]
    · rfl
  · rfl

end LoopBodies

/-! ## What has been answered -/

section

variable (env : LoopEnv ρ) (p : Provider)

/-- The calls of responses, counted from the first one. -/
def callsOf (responses : List (ProviderResponse ρ)) : List (ToolCall ρ) :=
  responses.zipIdx.flatMap fun entry => p.extractToolCalls (env.fresh entry.2) entry.1

/-- Each response with its calls and then their results. -/
def expectedEvents (responses : List (ProviderResponse ρ)) : List WireEvent :=
  responses.zipIdx.flatMap fun entry =>
    p.answeredCalls (p.extractToolCalls (env.fresh entry.2) entry.1)

def writtenEvents (responses : List (ProviderResponse ρ)) : List WireEvent :=
  responses.zipIdx.flatMap fun entry => p.writtenEvents (env.fresh entry.2) entry.1

/-- The name and the input of a call. -/
def ToolCall.asked (call : ToolCall ρ) : String × ToolInput ρ := (call.name, call.input)

def ToolCallRecord.asked (record : ToolCallRecord ρ) : String × ToolInput ρ :=
  (record.toolName, record.toolInput)

/-- The responses that were answered so far. -/
def ToolLoopResult.answered (result : ToolLoopResult ρ) : List (ProviderResponse ρ) :=
  result.rawResponses.take result.rawRequests.length

/-- What holds of a result whenever a request has been sent. -/
structure AnsweredSoFar (result : ToolLoopResult ρ) : Prop where
  length_le : result.rawRequests.length ≤ result.rawResponses.length
  sent : ∀ k request, result.rawRequests[k]? = some request → ∃ before after,
    request.entries.flatMap p.events =
      before ++ writtenEvents env p (result.rawResponses.take (k + 1)) ++ after ∧
        ∀ event ∈ after, event = .other
  executed : result.toolCalls.map (·.asked) = (callsOf env p result.answered).map (·.asked)
  onlyVc : ∀ entry ∈ result.answered.zipIdx,
    p.extractToolCalls (env.fresh entry.2) entry.1 ≠ [] ∧
      ∀ call ∈ p.extractToolCalls (env.fresh entry.2) entry.1, isVcTool call.name

/-- The state after the last response was answered. -/
structure Answered (s : LoopState ρ) : Prop where
  soFar : AnsweredSoFar env p s.result
  length_eq : s.result.rawResponses.length = s.result.rawRequests.length
  tail : ((s.cont.map (·.tail)).getD []).flatMap p.events =
    writtenEvents env p s.result.rawResponses

/-- The state before a response is answered. -/
structure Pending (s : LoopState ρ) : Prop where
  soFar : AnsweredSoFar env p s.result
  responses : s.result.rawResponses = s.result.answered ++ [s.currentResponse]
  calls : s.vcTools =
    p.extractToolCalls (env.fresh s.result.rawRequests.length) s.currentResponse
  ne_nil : s.vcTools ≠ []
  onlyVc : ∀ call ∈ s.vcTools, isVcTool call.name
  tail : ((s.cont.map (·.tail)).getD []).flatMap p.events =
    writtenEvents env p s.result.answered

end

section

variable {env : LoopEnv ρ} {p : Provider} {s : LoopState ρ}

variable (env p) in
theorem executeTools_spec (hinted : Bool) (calls : List (ToolCall ρ))
    (result : ToolLoopResult ρ) :
    p.Answers calls (executeTools env p hinted calls result).1 ∧
      ∃ records, (executeTools env p hinted calls result).2 =
          { result with toolCalls := result.toolCalls ++ records } ∧
        records.map (·.asked) = calls.map (·.asked) := by
  induction calls generalizing result with
  | nil => exact ⟨.nil, [], by simp [executeTools], rfl⟩
  | cons call calls ih =>
      let record : ToolCallRecord ρ :=
        { toolName := call.name
          toolInput := call.input
          resultJson := env.results result.toolCalls.length }
      obtain ⟨hanswers, records, hresult, hrecords⟩ :=
        ih { result with toolCalls := result.toolCalls ++ [record] }
      refine ⟨.cons ⟨_, rfl⟩ hanswers, record :: records, ?_, ?_⟩
      · rw [executeTools]
        dsimp only
        rw [hresult, List.append_assoc]
        rfl
      · rw [List.map_cons, hrecords]
        rfl

theorem answered_length (h : Pending env p s) :
    s.result.answered.length = s.result.rawRequests.length := by
  rw [ToolLoopResult.answered, List.length_take, Nat.min_eq_left h.soFar.length_le]

/-- One more response, behind those that were answered. -/
theorem zipIdx_concat_answered (h : Pending env p s) :
    (s.result.answered ++ [s.currentResponse]).zipIdx =
      s.result.answered.zipIdx ++ [(s.currentResponse, s.result.rawRequests.length)] := by
  rw [List.zipIdx_append, answered_length h, Nat.zero_add]
  rfl

/-- A pending response is answered by a request that ends with its calls and results. -/
theorem Pending.answer (h : Pending env p s) {result : ToolLoopResult ρ}
    {request : ToolRequest ρ} {records : List (ToolCallRecord ρ)}
    {more : List (ProviderResponse ρ)}
    (hrequests : result.rawRequests = s.result.rawRequests ++ [request])
    (hresponses : result.rawResponses = s.result.rawResponses ++ more)
    (hcalls : result.toolCalls = s.result.toolCalls ++ records)
    (hrecords : records.map (·.asked) = s.vcTools.map (·.asked))
    (hevents : ∃ before after, request.entries.flatMap p.events =
      before ++ writtenEvents env p (s.result.answered ++ [s.currentResponse]) ++ after ∧
        ∀ event ∈ after, event = .other) : AnsweredSoFar env p result := by
  have hlength := answered_length h
  have htake (k : Nat) (hk : k ≤ s.result.rawRequests.length) :
      result.rawResponses.take (k + 1) = s.result.rawResponses.take (k + 1) := by
    rw [hresponses, List.take_append_of_le_length]
    rw [h.responses, List.length_append, hlength, List.length_singleton]
    omega
  have hanswered : result.answered = s.result.answered ++ [s.currentResponse] := by
    rw [ToolLoopResult.answered, hrequests, List.length_append, List.length_singleton,
      htake _ (Nat.le_refl _)]
    conv_lhs => rw [h.responses]
    rw [List.take_of_length_le]
    rw [List.length_append, hlength, List.length_singleton]
  refine ⟨?_, fun k sent hsent => ?_, ?_, fun entry hentry => ?_⟩
  · rw [hrequests, hresponses, List.length_append, List.length_append, h.responses,
      List.length_append, hlength, List.length_singleton, List.length_singleton]
    omega
  · rw [hrequests] at hsent
    rcases Nat.lt_or_ge k s.result.rawRequests.length with hlt | hge
    · rw [List.getElem?_append_left hlt] at hsent
      rw [htake k (Nat.le_of_lt hlt)]
      exact h.soFar.sent k sent hsent
    · have hk := (List.getElem?_eq_some_iff.mp hsent).1
      rw [List.length_append, List.length_singleton] at hk
      have heq : k = s.result.rawRequests.length := by omega
      rw [heq, List.getElem?_concat_length, Option.some.injEq] at hsent
      have hall : result.rawResponses.take (k + 1) =
          s.result.answered ++ [s.currentResponse] := by
        rw [← hanswered, ToolLoopResult.answered, hrequests, List.length_append,
          List.length_singleton, heq]
      rw [hall, ← hsent]
      exact hevents
  · rw [hcalls, List.map_append, h.soFar.executed, hrecords, hanswered, callsOf, callsOf,
      zipIdx_concat_answered h, List.flatMap_append, List.map_append,
      List.flatMap_singleton, ← h.calls]
  · rw [hanswered, zipIdx_concat_answered h] at hentry
    rcases List.mem_append.mp hentry with hmem | hmem
    · exact h.soFar.onlyVc entry hmem
    · rw [List.mem_singleton.mp hmem, ← h.calls]
      exact ⟨h.ne_nil, h.onlyVc⟩

/-! ### Rounds -/

theorem tailEvents_buildContinuation (h : Pending env p s)
    {results : List (WireResult ρ)} (hresults : p.Answers s.vcTools results) :
    (p.buildContinuation s.original s.cont s.currentResponse results).tailEvents p =
      writtenEvents env p (s.result.answered ++ [s.currentResponse]) := by
  have hne := h.ne_nil
  rw [h.calls] at hne hresults
  unfold Provider.buildContinuation
  rw [LoopBodies.tailEvents_append, List.flatMap_append,
    p.flatMap_events_outputEntries hne, p.flatMap_events_resultEntries hne hresults,
    writtenEvents, zipIdx_concat_answered h, List.flatMap_append, List.flatMap_singleton]
  have htail := h.tail
  unfold writtenEvents at htail
  rw [← htail]
  cases hcont : s.cont with
  | none => cases p <;> rfl
  | some cont => rfl

theorem tailEvents_roundBodies (h : Pending env p s) (round : Nat)
    {results : List (WireResult ρ)} (hresults : p.Answers s.vcTools results)
    (result : ToolLoopResult ρ) :
    (roundBodies env p round s results result).1.tailEvents p =
      writtenEvents env p (s.result.answered ++ [s.currentResponse]) := by
  rw [← tailEvents_buildContinuation h hresults, roundBodies]
  dsimp only
  split_ifs <;> simp only [LoopBodies.tailEvents_addFindSession,
    LoopBodies.tailEvents_injectContext, LoopBodies.tailEvents_compress]

theorem forceTextResponse_spec (h : Pending env p s) (label : RequestLabel) :
    AnsweredSoFar env p (forceTextResponse env p label s).result ∧
      (forceTextResponse env p label s).result.rawRequests.length =
        s.result.rawRequests.length + 1 := by
  obtain ⟨hanswers, records, hexecuted, hrecords⟩ :=
    executeTools_spec env p false s.vcTools s.result
  unfold forceTextResponse
  generalize executeTools env p false s.vcTools s.result = pair at hanswers hexecuted
  obtain ⟨results, result⟩ := pair
  obtain rfl := hexecuted
  dsimp only [sendRequest]
  have htail := tailEvents_buildContinuation h hanswers
  rw [← LoopBodies.tailEvents_compress p _ (results.filterMap (·.callId))] at htail
  generalize p.compressPreviousResults (results.filterMap (·.callId))
    (p.buildContinuation s.original s.cont s.currentResponse results) = bodies at htail
  have hevents : ∃ before after,
      (bodies.stripTools.append p.nudgeEntries).request.entries.flatMap p.events =
        before ++ writtenEvents env p (s.result.answered ++ [s.currentResponse]) ++ after ∧
          ∀ event ∈ after, event = .other := by
    obtain ⟨before, hbefore⟩ :=
      LoopBodies.tailEvents_suffix p (bodies.stripTools.append p.nudgeEntries)
    refine ⟨before, (p.nudgeEntries (ρ := ρ)).flatMap p.events, ?_,
      p.flatMap_events_nudgeEntries⟩
    rw [List.append_assoc, ← htail]
    exact hbefore.trans (congrArg _ (LoopBodies.tailEvents_append p _ _))
  split
  · exact ⟨h.answer rfl (List.append_nil _).symm rfl hrecords hevents, by simp⟩
  · exact ⟨h.answer rfl rfl rfl hrecords hevents, by simp [readReply]⟩

theorem sendRound_spec (h : Pending env p s) (round : Nat) :
    Answered env p (sendRound env p round s).2 ∧
      (sendRound env p round s).2.result.rawRequests.length =
        s.result.rawRequests.length + 1 := by
  obtain ⟨hanswers, records, hexecuted, hrecords⟩ :=
    executeTools_spec env p true s.vcTools s.result
  unfold sendRound
  generalize executeTools env p true s.vcTools s.result = pair at hanswers hexecuted
  obtain ⟨results, result⟩ := pair
  dsimp only [sendRequest] at hanswers hexecuted ⊢
  have htail := tailEvents_roundBodies h round hanswers result
  generalize roundBodies env p round s results result = built at htail
  obtain ⟨bodies, injected⟩ := built
  obtain rfl := hexecuted
  dsimp only at htail ⊢
  have hevents : ∃ before after, bodies.request.entries.flatMap p.events =
      before ++ writtenEvents env p (s.result.answered ++ [s.currentResponse]) ++ after ∧
        ∀ event ∈ after, event = .other := by
    obtain ⟨before, hbefore⟩ := LoopBodies.tailEvents_suffix p bodies
    refine ⟨before, [], ?_, by simp⟩
    rw [List.append_nil, ← htail]
    exact hbefore
  refine ⟨⟨h.answer rfl (List.append_nil _).symm rfl hrecords hevents, ?_, ?_⟩, by simp⟩
  · dsimp only
    rw [h.responses, List.length_append, answered_length h, List.length_append]
    rfl
  · dsimp only
    rw [h.responses, ← htail]
    rfl

theorem AnsweredSoFar.stop {result : ToolLoopResult ρ} (h : AnsweredSoFar env p result)
    (reason : String) : AnsweredSoFar env p { result with stopReason := reason } :=
  ⟨h.length_le, h.sent, h.executed, h.onlyVc⟩

theorem Answered.answered_eq (h : Answered env p s) :
    s.result.answered = s.result.rawResponses := by
  rw [ToolLoopResult.answered, ← h.length_eq, List.take_length]

/-- A reply that is read has not been answered yet. -/
theorem Answered.answered_readReply (h : Answered env p s) (reply : ProviderResponse ρ) :
    (readReply p reply s.result).answered = s.result.rawResponses := by
  rw [ToolLoopResult.answered, readReply]
  dsimp only
  rw [← h.length_eq, List.take_left]

theorem Answered.readReply (h : Answered env p s) (reply : ProviderResponse ρ) :
    AnsweredSoFar env p (readReply p reply s.result) := by
  have hanswered := (h.answered_readReply reply).trans h.answered_eq.symm
  refine ⟨?_, fun k request hget => ?_, ?_, ?_⟩
  · have hle := h.soFar.length_le
    simp only [VirtualContext.readReply, List.length_append]
    omega
  · have hlt := (List.getElem?_eq_some_iff.mp hget).1
    have htake : (VirtualContext.readReply p reply s.result).rawResponses.take (k + 1) =
        s.result.rawResponses.take (k + 1) := by
      refine List.take_append_of_le_length ?_
      rw [h.length_eq]
      exact hlt
    rw [htake]
    exact h.soFar.sent k request hget
  · rw [hanswered]
    exact h.soFar.executed
  · rw [hanswered]
    exact h.soFar.onlyVc

theorem pending_receiveReply (h : Answered env p s) {round : Nat}
    (hround : s.result.rawRequests.length = round + 1) {reply : ProviderResponse ρ}
    (hne : (receiveReply env p round reply s).vcTools ≠ [])
    (hall : (p.extractToolCalls (env.fresh (round + 1)) reply).all (isVcTool ·.name)) :
    Pending env p (receiveReply env p round reply s) where
  soFar := h.readReply reply
  responses := by
    have hanswered := h.answered_readReply reply
    rw [receiveReply, hanswered]
    rfl
  calls := by
    have hself := List.filter_eq_self.mpr (List.all_eq_true.mp hall)
    rw [receiveReply]
    dsimp only
    rw [hself, readReply]
    dsimp only
    rw [hround]
  ne_nil := hne
  onlyVc call hcall := by simpa using (List.mem_filter.mp hcall).2
  tail := by
    have hanswered := h.answered_readReply reply
    rw [receiveReply, hanswered]
    exact h.tail

theorem takeReply_spec (h : Answered env p s) {round : Nat}
    (hround : s.result.rawRequests.length = round + 1) (reply : ProviderResponse ρ) :
    AnsweredSoFar env p (takeReply env p round reply s).2.result ∧
      ((takeReply env p round reply s).1 = true →
        Pending env p (takeReply env p round reply s).2 ∧
          (takeReply env p round reply s).2.result.rawRequests.length = round + 1) ∧
      (takeReply env p round reply s).2.result.rawRequests.length ≤ round + 2 := by
  have hsoFar : AnsweredSoFar env p (receiveReply env p round reply s).result :=
    h.readReply reply
  have hlength : (receiveReply env p round reply s).result.rawRequests.length = round + 1 :=
    hround
  unfold takeReply
  dsimp only
  by_cases hagain : p.isToolUseStop reply = true ∧
      (receiveReply env p round reply s).vcTools ≠ [] ∧
        (p.extractToolCalls (env.fresh (round + 1)) reply).all (isVcTool ·.name) = true
  · have hpending := pending_receiveReply h hround hagain.2.1 hagain.2.2
    rw [if_pos hagain]
    by_cases hredundant : isRedundant round (receiveReply env p round reply s) = true
    · obtain ⟨hforced, hcount⟩ := forceTextResponse_spec hpending .forcedRedundant
      rw [hlength] at hcount
      rw [if_pos hredundant]
      refine ⟨?_, fun hgo => (Bool.false_ne_true hgo).elim, ?_⟩
      · dsimp only
        split_ifs
        · exact hforced.stop _
        · exact hforced
      · dsimp only
        split_ifs <;> exact hcount.le
    · rw [if_neg hredundant]
      exact ⟨hsoFar, fun _ => ⟨hpending, hlength⟩, by rw [hlength]; omega⟩
  · rw [if_neg hagain]
    refine ⟨hsoFar.stop _, fun hgo => (Bool.false_ne_true hgo).elim, ?_⟩
    change (receiveReply env p round reply s).result.rawRequests.length ≤ _
    omega

theorem loopRound_spec (h : Pending env p s) {round : Nat}
    (hround : s.result.rawRequests.length = round) :
    AnsweredSoFar env p (loopRound env p round s).2.result ∧
      ((loopRound env p round s).1 = true →
        Pending env p (loopRound env p round s).2 ∧
          (loopRound env p round s).2.result.rawRequests.length = round + 1) ∧
      (loopRound env p round s).2.result.rawRequests.length ≤ round + 2 := by
  obtain ⟨hanswered, hlength⟩ := sendRound_spec h round
  rw [hround] at hlength
  unfold loopRound
  generalize sendRound env p round s = sent at hanswered hlength
  obtain ⟨reply, sent⟩ := sent
  cases reply with
  | none =>
      refine ⟨hanswered.soFar.stop _, fun hgo => (Bool.false_ne_true hgo).elim, ?_⟩
      change sent.result.rawRequests.length ≤ _
      dsimp only at hlength
      omega
  | some reply => exact takeReply_spec hanswered hlength reply

/-- A whole loop, from the number of rounds that are left. -/
theorem loopRounds_spec (remaining : Nat) {round : Nat} (h : Pending env p s)
    (hround : s.result.rawRequests.length = round) :
    AnsweredSoFar env p (loopRounds env p remaining round s).result ∧
      (loopRounds env p remaining round s).result.rawRequests.length ≤
        round + remaining + 1 := by
  induction remaining generalizing round s with
  | zero =>
      rw [loopRounds]
      split_ifs
      · obtain ⟨hforced, hcount⟩ := forceTextResponse_spec h .forcedExhausted
        exact ⟨hforced, by omega⟩
      · refine ⟨h.soFar.stop _, ?_⟩
        change s.result.rawRequests.length ≤ _
        omega
  | succ remaining ih =>
      have hstep := loopRound_spec h hround
      rw [loopRounds]
      generalize loopRound env p round s = next at hstep
      obtain ⟨go, next⟩ := next
      obtain ⟨hsoFar, hgo, hcount⟩ := hstep
      cases go with
      | false =>
          refine ⟨hsoFar, ?_⟩
          dsimp only at hcount ⊢
          omega
      | true =>
          obtain ⟨hpending, hlength⟩ := hgo rfl
          obtain ⟨hanswered, hbound⟩ := ih hpending hlength
          exact ⟨hanswered, by dsimp only at hbound ⊢; omega⟩

theorem runToolLoop_spec (env : LoopEnv ρ) (p : Provider) (maxLoops : Nat)
    (initial : ProviderResponse ρ) (original : ToolRequest ρ) :
    AnsweredSoFar env p (runToolLoop env p maxLoops initial original).2 ∧
      (runToolLoop env p maxLoops initial original).2.rawRequests.length ≤ maxLoops + 1 := by
  have hnone (text : Text) (reason : String) : AnsweredSoFar env p
      ({ text := text, stopReason := reason, rawResponses := [initial] } :
        ToolLoopResult ρ) :=
    ⟨Nat.zero_le _, fun k request h => by simp at h, rfl, by simp [ToolLoopResult.answered]⟩
  unfold runToolLoop
  dsimp only
  split_ifs with hbail
  · exact ⟨hnone _ _, Nat.zero_le _⟩
  · obtain ⟨hne, hall⟩ := not_or.mp hbail
    simp only [Bool.not_eq_true', Bool.not_eq_false] at hall
    have hself := List.filter_eq_self.mpr (List.all_eq_true.mp hall)
    have hpending : Pending env p
        { original := original
          currentResponse := initial
          vcTools := (p.extractToolCalls (env.fresh 0) initial).filter (isVcTool ·.name)
          stopReason := p.getStopReason initial
          result := { text := p.extractText initial, rawResponses := [initial] } } :=
      ⟨hnone _ _, rfl, hself, hne, fun call hcall => by simpa using (List.mem_filter.mp hcall).2,
        rfl⟩
    obtain ⟨hanswered, hcount⟩ := loopRounds_spec maxLoops hpending (show _ = 0 from rfl)
    exact ⟨hanswered, by dsimp only; omega⟩

end

/-! ## Pairing -/

/-- Every request pairs the calls it answers, at most so many are sent, every call is
executed once, and only calls of the context are answered. -/
structure LoopProtocol (env : LoopEnv ρ) (p : Provider) (maxLoops : Nat)
    (result : ToolLoopResult ρ) : Prop where
  length_le : result.rawRequests.length ≤ result.rawResponses.length
  sent_le : result.rawRequests.length ≤ maxLoops + 1
  paired : ∀ k request, result.rawRequests[k]? = some request →
    expectedEvents env p (result.rawResponses.take (k + 1)) <:+
      (request.entries.flatMap p.events).rdropWhile (· = .other)
  executed : result.toolCalls.map (·.asked) = (callsOf env p result.answered).map (·.asked)
  onlyVc : ∀ call ∈ callsOf env p result.answered, isVcTool call.name

namespace Provider

variable {p : Provider} {fresh : Nat → String} {response : ProviderResponse ρ}

theorem length_writtenKeys (p : Provider) (fresh : Nat → String)
    (response : ProviderResponse ρ) :
    (p.writtenKeys fresh response).length = (p.extractToolCalls fresh response).length := by
  cases p <;> simp [writtenKeys, extractToolCalls, OpenAICodexAdapter.extractToolCalls]

theorem length_writtenEvents (p : Provider) (fresh : Nat → String)
    (response : ProviderResponse ρ) :
    (p.writtenEvents fresh response).length =
      (p.answeredCalls (p.extractToolCalls fresh response)).length := by
  simp [writtenEvents, answeredCalls, length_writtenKeys]

theorem writtenEvents_eq_iff (hfresh : ∀ i, fresh i ≠ "") :
    p.writtenEvents fresh response = p.answeredCalls (p.extractToolCalls fresh response) ↔
      p.NamesCalls response := by
  rw [writtenEvents, answeredCalls, List.append_left_inj]
  cases p with
  | codex =>
      have hkeys : (writtenKeys .codex fresh response).map WireEvent.call =
          response.functionCalls.zipIdx.map fun entry =>
            .call ((entry.1.callId.or entry.1.id).getD "") := by
        conv_lhs => rw [writtenKeys, ← List.zipIdx_map_fst 0 response.functionCalls,
          List.map_map, List.map_map]
        rfl
      rw [hkeys]
      simp only [extractToolCalls, OpenAICodexAdapter.extractToolCalls, List.map_map,
        List.map_inj_left, Function.comp_apply, callKey, WireEvent.call.injEq]
      constructor
      · intro h _ item hitem
        obtain ⟨i, hi⟩ := List.mem_iff_getElem?.mp hitem
        have heq := h (item, i) (List.mem_zipIdx_iff_getElem?.mpr hi)
        dsimp only at heq
        cases hid : item.callId.or item.id with
        | none =>
            rw [hid] at heq
            exact absurd heq.symm (hfresh i)
        | some id => rfl
      · intro h entry hentry
        have hmem := List.mem_of_getElem? (List.mem_zipIdx_iff_getElem?.mp hentry)
        obtain ⟨id, hid⟩ := Option.isSome_iff_exists.mp (h rfl entry.1 hmem)
        rw [hid]
        rfl
  | anthropic => exact iff_of_true (by simp only [writtenKeys, List.map_map]; rfl) nofun
  | openai => exact iff_of_true (by simp only [writtenKeys, List.map_map]; rfl) nofun
  | gemini => exact iff_of_true (by simp only [writtenKeys, List.map_map]; rfl) nofun

end Provider

/-- Blocks of the same lengths are joined to the same list only if they agree. -/
theorem flatMap_eq_iff_of_length {α β : Type} {f g : α → List β} {list : List α}
    (h : ∀ a ∈ list, (f a).length = (g a).length) :
    list.flatMap f = list.flatMap g ↔ ∀ a ∈ list, f a = g a := by
  induction list with
  | nil => simp
  | cons a list ih =>
      have hrest := ih fun b hb => h b (List.mem_cons_of_mem a hb)
      rw [List.flatMap_cons, List.flatMap_cons, List.forall_mem_cons, ← hrest]
      exact ⟨fun heq => List.append_inj heq (h a List.mem_cons_self),
        fun heq => heq.1 ▸ heq.2 ▸ rfl⟩

theorem rdropWhile_append_of_forall {α : Type} {q : α → Bool} (list : List α)
    {after : List α} (h : ∀ a ∈ after, q a) :
    (list ++ after).rdropWhile q = list.rdropWhile q := by
  induction after using List.reverseRecOn with
  | nil => rw [List.append_nil]
  | append_singleton after a ih =>
      rw [← List.append_assoc, List.rdropWhile_concat_pos _ _ _ (h a (by simp))]
      exact ih fun b hb => h b (List.mem_append_left _ hb)

section

variable {env : LoopEnv ρ} {p : Provider}

variable (env p) in
theorem writtenEvents_eq_expected_iff (responses : List (ProviderResponse ρ)) :
    writtenEvents env p responses = expectedEvents env p responses ↔
      ∀ response ∈ responses, p.NamesCalls response := by
  unfold writtenEvents expectedEvents
  rw [flatMap_eq_iff_of_length fun entry _ => p.length_writtenEvents _ _]
  constructor
  · intro h response hresponse
    obtain ⟨i, hi⟩ := List.mem_iff_getElem?.mp hresponse
    exact (Provider.writtenEvents_eq_iff (env.fresh_ne i)).mp
      (h (response, i) (List.mem_zipIdx_iff_getElem?.mpr hi))
  · intro h entry hentry
    have hmem := List.mem_of_getElem? (List.mem_zipIdx_iff_getElem?.mp hentry)
    exact (Provider.writtenEvents_eq_iff (env.fresh_ne entry.2)).mpr (h entry.1 hmem)

theorem length_writtenEvents (env : LoopEnv ρ) (p : Provider)
    (responses : List (ProviderResponse ρ)) :
    (writtenEvents env p responses).length = (expectedEvents env p responses).length := by
  rw [writtenEvents, expectedEvents, List.length_flatMap, List.length_flatMap]
  simp only [Provider.length_writtenEvents]

/-- What was written ends with a result. -/
theorem rdropWhile_written {responses : List (ProviderResponse ρ)}
    (hne : responses ≠ [])
    (hcalls : ∀ entry ∈ responses.zipIdx,
      p.extractToolCalls (env.fresh entry.2) entry.1 ≠ [])
    (before : List WireEvent) {after : List WireEvent} (hafter : ∀ event ∈ after, event = .other) :
    (before ++ writtenEvents env p responses ++ after).rdropWhile (· = .other) =
      before ++ writtenEvents env p responses := by
  rw [rdropWhile_append_of_forall _ fun event hevent => by simpa using hafter event hevent]
  obtain ⟨front, last, rfl⟩ := List.eq_nil_or_concat' responses |>.resolve_left hne
  have hlast := hcalls (last, front.length) (List.mem_zipIdx_iff_getElem?.mpr (by simp))
  dsimp only at hlast
  obtain ⟨calls, call, heq⟩ := List.eq_nil_or_concat' _ |>.resolve_left hlast
  have hwritten : ∃ written key,
      writtenEvents env p (front ++ [last]) = written ++ [.result key] := by
    rw [writtenEvents, List.zipIdx_append, List.flatMap_append, Nat.zero_add,
      List.zipIdx_singleton, List.flatMap_singleton, Provider.writtenEvents]
    dsimp only
    rw [heq, List.map_append, List.map_singleton, ← List.append_assoc, ← List.append_assoc]
    exact ⟨_, _, rfl⟩
  obtain ⟨written, key, hwritten⟩ := hwritten
  rw [hwritten, ← List.append_assoc]
  exact List.rdropWhile_concat_neg _ _ _ (by simp)

end

theorem loop_protocol_iff (env : LoopEnv ρ) (p : Provider) (maxLoops : Nat)
    (initial : ProviderResponse ρ) (original : ToolRequest ρ) :
    LoopProtocol env p maxLoops (runToolLoop env p maxLoops initial original).2 ↔
      ∀ response ∈ (runToolLoop env p maxLoops initial original).2.answered,
        p.NamesCalls response := by
  obtain ⟨hsoFar, hcount⟩ := runToolLoop_spec env p maxLoops initial original
  generalize (runToolLoop env p maxLoops initial original).2 = result at hsoFar hcount
  have hdrop (k : Nat) (request : ToolRequest ρ) (h : result.rawRequests[k]? = some request) :
      ∃ before, (request.entries.flatMap p.events).rdropWhile (· = .other) =
        before ++ writtenEvents env p (result.rawResponses.take (k + 1)) := by
    have hlt := (List.getElem?_eq_some_iff.mp h).1
    have hle := hsoFar.length_le
    obtain ⟨before, after, hevents, hafter⟩ := hsoFar.sent k request h
    rw [hevents]
    refine ⟨before, rdropWhile_written ?_ (fun entry hentry => ?_) before hafter⟩
    · refine List.ne_nil_of_length_pos ?_
      rw [List.length_take]
      omega
    · refine (hsoFar.onlyVc entry ?_).1
      have hprefix : result.rawResponses.take (k + 1) <+: result.answered :=
        List.take_prefix_take_left (by omega)
      obtain ⟨rest, hrest⟩ := hprefix
      rw [← hrest, List.zipIdx_append]
      exact List.mem_append_left _ hentry
  constructor
  · intro h
    rw [← writtenEvents_eq_expected_iff]
    rcases Nat.eq_zero_or_pos result.rawRequests.length with hzero | hpos
    · have hnil : result.answered = [] := by rw [ToolLoopResult.answered, hzero, List.take_zero]
      rw [hnil]
      rfl
    · obtain ⟨request, hget⟩ : ∃ request,
          result.rawRequests[result.rawRequests.length - 1]? = some request :=
        ⟨_, List.getElem?_eq_getElem (by omega)⟩
      have hall : result.rawResponses.take (result.rawRequests.length - 1 + 1) =
          result.answered := by rw [Nat.sub_add_cancel hpos, ToolLoopResult.answered]
      obtain ⟨before, heq⟩ := hdrop _ request hget
      have hsuffix := h.paired _ request hget
      rw [heq, hall] at hsuffix
      have hlength := length_writtenEvents env p result.answered
      exact ((List.suffix_of_suffix_length_le (List.suffix_append _ _) hsuffix
        hlength.le).eq_of_length hlength)
  · intro h
    refine ⟨hsoFar.length_le, hcount, fun k request hget => ?_, hsoFar.executed,
      fun call hcall => ?_⟩
    · obtain ⟨before, heq⟩ := hdrop k request hget
      have hlt := (List.getElem?_eq_some_iff.mp hget).1
      have hwritten := (writtenEvents_eq_expected_iff env p
        (result.rawResponses.take (k + 1))).mpr fun response hresponse =>
          h response ((List.take_subset_take_left _ (by omega)) hresponse)
      rw [heq, hwritten]
      exact List.suffix_append _ _
    · obtain ⟨entry, hentry, hmem⟩ := List.mem_flatMap.mp hcall
      exact (hsoFar.onlyVc entry hentry).2 call hmem

/-- A call without an identifier is sent with an empty one, its result with a new one. -/
def namelessCall : ProviderResponse String :=
  { output :=
      [{ type := some "function_call"
         name := some "vc_recall_all"
         arguments := some "{}".toList }] }

/-- The tools find nothing, and the first request fails. -/
def silentEnv : LoopEnv String where
  results _ := "{}".toList
  hints _ := []
  reassembled _ := []
  replies _ := none
  fresh _ _ := "3f1c"
  fresh_ne _ _ := by decide

theorem nameless_call_unpaired :
    ¬LoopProtocol silentEnv .codex 10
      (runToolLoop silentEnv .codex 10 namelessCall { entries := [] }).2 := by
  intro h
  have hpaired := h.paired 0 _ rfl
  exact absurd hpaired (by decide +kernel)

end VirtualContext
