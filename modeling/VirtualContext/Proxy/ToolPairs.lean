import VirtualContext.Library.Runs
import VirtualContext.Proxy.ToolOutputs

/-!
# Tool pairs in turns

A turn is cut off before every message that asks something.  A result that
comes in such a message is cut off from its call.
-/

namespace VirtualContext

open VirtualContext.Library

variable {ρ : Type}

/-! ## Calls and results -/

namespace StubMessage

variable (msg : StubMessage ρ)

def carriesCall : ApiFormat → Bool
  | .anthropic => msg.blocks.any (·.type? = some (some "tool_use"))
  | .openai => !msg.toolCalls.isEmpty
  | .gemini => msg.parts.any (·.functionCall)
  | .openaiResponses => msg.type = some "function_call"

def carriesResult : ApiFormat → Bool
  | .anthropic => msg.blocks.any (·.isToolResult)
  | .openai => msg.role = some "tool"
  | .gemini => msg.parts.any (·.functionResponse)
  | .openaiResponses => msg.type = some "function_call_output"

/-- Items without a role are the assistant's, if they are no results. -/
def isAssistant : ApiFormat → Bool
  | .anthropic | .openai => msg.role = some "assistant"
  | .gemini => msg.role = some "model"
  | .openaiResponses => msg.role = some "assistant" || msg.role = none

/-- A message that carries a result and is taken for a request. -/
def asksWithResult : ApiFormat → Bool
  | .anthropic | .openai => false
  | .gemini =>
      msg.role = some "user" && msg.parts.any (·.functionResponse) &&
        msg.parts.any fun part => !part.functionResponse
  | .openaiResponses => msg.role = some "user" && msg.type = some "function_call_output"

theorem carriesResult_and_isRealUser (fmt : ApiFormat) :
    (msg.carriesResult fmt && msg.isRealUser fmt) = msg.asksWithResult fmt := by
  cases fmt with
  | anthropic =>
      rw [carriesResult, isRealUser, asksWithResult]
      cases msg.blocks.any (·.isToolResult) <;> simp
  | openai =>
      rw [carriesResult, isRealUser, asksWithResult]
      by_cases hrole : msg.role = some "tool" <;> simp [hrole]
  | gemini =>
      simp only [carriesResult, isRealUser, asksWithResult, onlyFunctionResponses]
      cases hparts : msg.parts with
      | nil => simp
      | cons part parts =>
          rw [List.isEmpty_cons, Bool.not_false, Bool.true_and, List.not_all_eq_any_not]
          rw [Bool.and_left_comm, ← Bool.and_assoc]
  | openaiResponses =>
      simp only [carriesResult, isRealUser, asksWithResult, Bool.and_true]
      exact Bool.and_comm _ _

theorem isRealUser_of_isAssistant {fmt : ApiFormat} (h : msg.isAssistant fmt = true) :
    msg.isRealUser fmt = false := by
  have hrole : msg.role ≠ some "user" := by
    intro hrole
    cases fmt <;> simp [isAssistant, hrole] at h
  simp [isRealUser, hrole]

end StubMessage

/-- A result at one index answers a call at an earlier one, with nothing but messages of the
assistant and other results between them. -/
structure ToolExchange (fmt : ApiFormat) (messages : List (StubMessage ρ)) (call result : Nat) :
    Prop where
  before : call < result
  calls : ∃ msg, messages[call]? = some msg ∧ msg.carriesCall fmt = true
  answers : ∃ msg, messages[result]? = some msg ∧ msg.carriesResult fmt = true
  between : ∀ index msg, call < index → index < result → messages[index]? = some msg →
    msg.isAssistant fmt = true ∨ msg.carriesResult fmt = true

/-- No turn is cut off between a call and its result. -/
def KeepsExchanges (turns : List (List Nat)) (pairs : Nat → Nat → Prop) : Prop :=
  ∀ call result, pairs call result → ∃ turn ∈ turns, call ∈ turn ∧ result ∈ turn

/-- No result of a pair comes in a request. -/
def ResultsApart (fmt : ApiFormat) (messages : List (StubMessage ρ))
    (pairs : Nat → Nat → Prop) : Prop :=
  ∀ call result, pairs call result → ∀ index msg, call < index → index ≤ result →
    messages[index]? = some msg → msg.asksWithResult fmt = false

/-! ## Turns by their indices -/

section

variable {fmt : ApiFormat} {messages : List (StubMessage ρ)}

/-- The message at an index begins a turn. -/
def beginsTurn (fmt : ApiFormat) (messages : List (StubMessage ρ)) (index : Nat) : Bool :=
  messages[index]?.any (·.isRealUser fmt)

theorem foldl_placeMessage {entries : List (StubMessage ρ × Nat)}
    (h : ∀ entry ∈ entries, messages[entry.2]? = some entry.1) (turns : List (List Nat)) :
    entries.foldl (placeMessage fmt) turns =
      (entries.map (·.2)).foldl (placeItem (beginsTurn fmt messages)) turns := by
  induction entries generalizing turns with
  | nil => rfl
  | cons entry entries ih =>
      have hbegins : beginsTurn fmt messages entry.2 = entry.1.isRealUser fmt := by
        rw [beginsTurn, h entry List.mem_cons_self, Option.any_some]
      have hplace : placeMessage fmt turns entry =
          placeItem (beginsTurn fmt messages) turns entry.2 := by
        rw [placeMessage, placeItem, hbegins]
        cases turns.getLast? <;> rfl
      rw [List.foldl_cons, List.map_cons, List.foldl_cons, hplace]
      exact ih (fun other hother => h other (List.mem_cons_of_mem entry hother)) _

theorem groupIntoTurns_eq :
    groupIntoTurns fmt messages =
      groupRuns (beginsTurn fmt messages) (List.range messages.length) := by
  rw [groupIntoTurns, foldl_placeMessage fun entry hentry => List.mem_zipIdx_iff_getElem?.mp hentry,
    List.zipIdx_map_snd, groupRuns, List.range_eq_range']

/-- Every message is in one turn, in the order of the messages. -/
theorem flatten_groupIntoTurns :
    (groupIntoTurns fmt messages).flatten = List.range messages.length := by
  rw [groupIntoTurns_eq, flatten_groupRuns]

theorem ToolExchange.together_iff {call result : Nat} (h : ToolExchange fmt messages call result) :
    (∃ turn ∈ groupIntoTurns fmt messages, call ∈ turn ∧ result ∈ turn) ↔
      ∀ index msg, call < index → index ≤ result → messages[index]? = some msg →
        msg.asksWithResult fmt = false := by
  obtain ⟨resultMsg, hresult, hcarries⟩ := h.answers
  have hlength : result < messages.length := (List.getElem?_eq_some_iff.mp hresult).1
  have hflatten : (groupIntoTurns fmt messages).flatten = List.range messages.length :=
    flatten_groupIntoTurns
  have horder : (groupIntoTurns fmt messages).flatten.Pairwise (· < ·) := by
    rw [hflatten]
    exact List.pairwise_lt_range
  have hruns : IsRuns (beginsTurn fmt messages) (groupIntoTurns fmt messages) := by
    rw [groupIntoTurns_eq]
    exact groupRuns_isRuns _
  have hmem (index : Nat) (hle : index ≤ result) :
      index ∈ (groupIntoTurns fmt messages).flatten := by
    rw [hflatten, List.mem_range]
    omega
  rw [hruns.together_iff horder (hmem call (by have := h.before; omega)) (hmem result le_rfl)
    h.before]
  constructor
  · intro hnone index msg hafter hbefore hmsg
    have hbegins := hnone index (hmem index hbefore) hafter hbefore
    rw [beginsTurn, hmsg, Option.any_some] at hbegins
    rw [← msg.carriesResult_and_isRealUser, hbegins, Bool.and_false]
  · intro hapart index hindex hafter hbefore
    have hlt : index < messages.length := by omega
    have hmsg : messages[index]? = some messages[index] := List.getElem?_eq_getElem hlt
    have hasks := hapart index _ hafter hbefore hmsg
    rw [beginsTurn, hmsg, Option.any_some]
    rw [← StubMessage.carriesResult_and_isRealUser] at hasks
    rcases hbefore.lt_or_eq with hinner | rfl
    · rcases h.between index _ hafter hinner hmsg with hassistant | hresult
      · exact StubMessage.isRealUser_of_isAssistant _ hassistant
      · rwa [hresult, Bool.true_and] at hasks
    · obtain rfl := Option.some.inj (hmsg.symm.trans hresult)
      rwa [hcarries, Bool.true_and] at hasks

/-- The turns hold every message in order, and they keep calls and results together exactly
if no result of a pair comes in a request. -/
theorem turns_keep_pairs_iff (fmt : ApiFormat) (messages : List (StubMessage ρ))
    (belongs : Nat → Nat → Prop) :
    (groupIntoTurns fmt messages).flatten = List.range messages.length ∧
      (KeepsExchanges (groupIntoTurns fmt messages)
          (fun call result => ToolExchange fmt messages call result ∧ belongs call result) ↔
        ResultsApart fmt messages
          (fun call result => ToolExchange fmt messages call result ∧ belongs call result)) := by
  refine ⟨flatten_groupIntoTurns, ?_⟩
  constructor
  · intro hkeeps call result hpair
    exact hpair.1.together_iff.mp (hkeeps call result hpair)
  · intro hapart call result hpair
    exact hpair.1.together_iff.mpr (hapart call result hpair)

end

/-! ## A response beside a text -/

def responseWithText : List (StubMessage Unit) :=
  [{ role := some "user", parts := [{ text := some "read it".toList }] },
    { role := some "model", parts := [{ functionCall := true }] },
    { role := some "user"
      parts := [{ functionResponse := true }, { text := some "and be quick".toList }] }]

/-- The response is cut off from its call by the text beside it. -/
theorem response_cut_off :
    ¬ ∀ (fmt : ApiFormat) (messages : List (StubMessage Unit)) (belongs : Nat → Nat → Prop),
      (groupIntoTurns fmt messages).flatten = List.range messages.length ∧
        KeepsExchanges (groupIntoTurns fmt messages)
          fun call result => ToolExchange fmt messages call result ∧ belongs call result := by
  intro h
  have hpair : ToolExchange .gemini responseWithText 1 2 :=
    ⟨by decide, ⟨_, rfl, rfl⟩, ⟨_, rfl, rfl⟩, fun index _ hafter hbefore => by omega⟩
  obtain ⟨turn, hturn, hcall, hresult⟩ :=
    (h .gemini responseWithText fun call result => call = 1 ∧ result = 2).2 1 2
      ⟨hpair, rfl, rfl⟩
  have hturns : groupIntoTurns .gemini responseWithText = [[0, 1], [2]] := by decide
  rw [hturns] at hturn
  revert turn
  decide

end VirtualContext
