import VirtualContext.Core.ToolLoopProtocol

/-!
# The history in the tool loop

The loop leaves the history of a request alone exactly when every step of it finds
nothing there to compress, no system text to rewrite or to insert, and no shared
list of tools to extend.
-/

namespace VirtualContext

open VirtualContext.Library

variable {ρ : Type}

/-! ## Changing the first entries -/

section

variable {α : Type} {f : α → α}

theorem mapUpTo_append (n : Nat) (front back : List α) :
    mapUpTo n f (front ++ back) = mapUpTo n f front ++ mapUpTo (n - front.length) f back := by
  rcases Nat.le_total n front.length with hle | hle
  · have hzero : n - front.length = 0 := by omega
    simp [mapUpTo, List.take_append_of_le_length hle, List.drop_append_of_le_length hle, hzero]
  · simp [mapUpTo, List.take_append, List.drop_append, List.take_of_length_le hle,
      List.drop_of_length_le hle]

theorem mapUpTo_eq_self_iff (n : Nat) (list : List α) :
    mapUpTo n f list = list ↔ ∀ a ∈ list.take n, f a = a := by
  unfold mapUpTo
  conv_lhs =>
    rhs
    rw [← List.take_append_drop n list]
  rw [List.append_left_inj]
  constructor
  · intro h a ha
    exact List.map_eq_map_iff.mp (h.trans (List.map_id _).symm) a ha
  · intro h
    exact (List.map_congr_left h).trans (List.map_id _)

theorem mapUpTo_cons (n : Nat) (a : α) (list : List α) :
    mapUpTo n f (a :: list) = (if n = 0 then a else f a) :: mapUpTo (n - 1) f list := by
  cases n <;> simp [mapUpTo]

theorem length_mapUpTo (n : Nat) (list : List α) : (mapUpTo n f list).length = list.length := by
  rw [mapUpTo, List.length_append, List.length_map, ← List.length_append,
    List.take_append_drop]

theorem mapUpTo_of_length_le {n : Nat} {list : List α} (h : list.length ≤ n) :
    mapUpTo n f list = mapUpTo list.length f list := by
  rw [mapUpTo, mapUpTo, List.take_of_length_le h, List.drop_of_length_le h,
    List.take_length, List.drop_length]

/-- What follows a list does not matter for how far its start reaches. -/
theorem mapUpTo_findIdx_append (q : α → Bool) (front back : List α) :
    mapUpTo ((front ++ back).findIdx q) f front = mapUpTo (front.findIdx q) f front := by
  rw [List.findIdx_append]
  split_ifs with h
  · rfl
  · have hlength : front.findIdx q = front.length := by
      rw [List.findIdx_eq_length]
      simpa using h
    rw [hlength]
    exact mapUpTo_of_length_le (Nat.le_add_left _ _)

end

/-! ## Compression -/

theorem isCompressed_marker : isCompressed compressedMarker = true := by decide

theorem WireBlock.compress_compress (reads : Option String → Text → Bool)
    (block : WireBlock ρ) : (block.compress reads).compress reads = block.compress reads := by
  cases block with
  | text type text rest =>
      by_cases h : (reads type text && !isCompressed text) = true
      · simp [compress, h, isCompressed_marker]
      · simp [compress, h]
  | _ => rfl

theorem map_compress_compress (reads : Option String → Text → Bool)
    (blocks : List (WireBlock ρ)) :
    (blocks.map (·.compress reads)).map (·.compress reads) = blocks.map (·.compress reads) := by
  rw [List.map_map]
  exact List.map_congr_left fun block _ => block.compress_compress reads

theorem AnthropicAdapter.compressEntry_compressEntry (entry : WireEntry ρ) :
    compressEntry (compressEntry entry) = compressEntry entry := by
  cases hcontent : entry.content with
  | blocks blocks =>
      by_cases hrole : entry.role = some "assistant"
      · have heq : compressEntry entry = { entry with
            content := .blocks (blocks.map (·.compress fun type _ => type = some "text")) } := by
          simp [compressEntry, hcontent, hrole]
        rw [heq]
        simp [compressEntry, hrole, WireBlock.compress_compress]
      · simp [compressEntry, hcontent, hrole]
  | text text => simp [compressEntry, hcontent]
  | other value => simp [compressEntry, hcontent]

theorem OpenAIAdapter.compressContent_compressContent (content : WireContent ρ) :
    compressContent (compressContent content) = compressContent content := by
  cases content with
  | text text =>
      by_cases h : text ≠ [] ∧ (!isCompressed text) = true
      · simp [compressContent, h, isCompressed_marker]
      · simp only [compressContent, if_neg h]
  | _ => rfl

theorem OpenAIAdapter.compressEntry_compressEntry (entry : WireEntry ρ) :
    compressEntry (compressEntry entry) = compressEntry entry := by
  by_cases hrole : entry.role = some "assistant"
  · simp [compressEntry, hrole, compressContent_compressContent]
  · simp [compressEntry, hrole]

theorem OpenAICodexAdapter.compressEntry_compressEntry (entry : WireEntry ρ) :
    compressEntry (compressEntry entry) = compressEntry entry := by
  by_cases hcall : entry.type = some "function_call"
  · simp [compressEntry, hcall]
  · cases hcontent : entry.content with
    | blocks blocks =>
        by_cases hrole : entry.type = some "message" ∧ entry.role = some "assistant"
        · simp [compressEntry, hcontent, hrole, WireBlock.compress_compress]
        · simp [compressEntry, hcall, hcontent, hrole]
    | text text => simp [compressEntry, hcall, hcontent]
    | other value => simp [compressEntry, hcall, hcontent]

theorem GeminiAdapter.compressEntry_compressEntry (entry : WireEntry ρ) :
    compressEntry (compressEntry entry) = compressEntry entry := by
  by_cases hrole : entry.role = some "model"
  · simp [compressEntry, hrole, WireBlock.compress_compress]
  · simp [compressEntry, hrole]

namespace Provider

variable (p : Provider)

theorem compressEntry_compressEntry (entry : WireEntry ρ) :
    p.compressEntry (p.compressEntry entry) = p.compressEntry entry := by
  cases p with
  | anthropic => exact AnthropicAdapter.compressEntry_compressEntry entry
  | openai => exact OpenAIAdapter.compressEntry_compressEntry entry
  | codex => exact OpenAICodexAdapter.compressEntry_compressEntry entry
  | gemini => exact GeminiAdapter.compressEntry_compressEntry entry

variable {p} in
theorem Answers.exists_of_mem {calls : List (ToolCall ρ)} {results : List (WireResult ρ)}
    (h : p.Answers calls results) {result : WireResult ρ} (hresult : result ∈ results) :
    ∃ call ∈ calls, ∃ content, result = p.buildToolResult call content := by
  induction h with
  | nil => cases hresult
  | cons hfirst _ ih =>
      rcases List.mem_cons.mp hresult with rfl | hmem
      · exact ⟨_, List.mem_cons_self, hfirst⟩
      · obtain ⟨call, hcall, hcontent⟩ := ih hmem
        exact ⟨call, List.mem_cons_of_mem _ hcall, hcontent⟩

variable {p} in
/-- Results are not compressed. -/
theorem compressEntry_of_mem_resultEntries {calls : List (ToolCall ρ)}
    {results : List (WireResult ρ)} (h : p.Answers calls results) {entry : WireEntry ρ}
    (hentry : entry ∈ p.resultEntries results) : p.compressEntry entry = entry := by
  cases p with
  | anthropic =>
      rw [List.mem_singleton.mp hentry]
      rfl
  | gemini =>
      rw [List.mem_singleton.mp hentry]
      rfl
  | openai =>
      obtain ⟨result, hresult, hto⟩ := List.mem_filterMap.mp hentry
      obtain ⟨call, -, content, rfl⟩ := h.exists_of_mem hresult
      obtain rfl := Option.some.inj hto
      rfl
  | codex =>
      obtain ⟨result, hresult, hto⟩ := List.mem_filterMap.mp hentry
      obtain ⟨call, -, content, rfl⟩ := h.exists_of_mem hresult
      obtain rfl := Option.some.inj hto
      rfl

/-- The identifiers that mark the results of calls in a request. -/
def resultIds (calls : List (ToolCall ρ)) : List String :=
  match p with
  | .openai | .codex => (calls.map (·.id)).filter (· ≠ "")
  | _ => []

theorem callId_buildToolResult (call : ToolCall ρ) (content : Text) :
    (p.buildToolResult call content).callId.toList = p.resultIds [call] := by
  cases p with
  | anthropic => rfl
  | gemini => rfl
  | openai =>
      by_cases hid : call.id = "" <;>
        simp [buildToolResult, OpenAIAdapter.buildToolResult, WireResult.callId, resultIds, hid]
  | codex =>
      by_cases hid : call.id = "" <;>
        simp [buildToolResult, OpenAICodexAdapter.buildToolResult, WireResult.callId,
          resultIds, hid]

theorem resultIds_cons (call : ToolCall ρ) (calls : List (ToolCall ρ)) :
    p.resultIds (call :: calls) = p.resultIds [call] ++ p.resultIds calls := by
  cases p with
  | anthropic => rfl
  | gemini => rfl
  | openai => exact List.filter_append (p := fun id => decide (id ≠ "")) [call.id] _
  | codex => exact List.filter_append (p := fun id => decide (id ≠ "")) [call.id] _

variable {p} in
theorem filterMap_callId {calls : List (ToolCall ρ)} {results : List (WireResult ρ)}
    (h : p.Answers calls results) : results.filterMap (·.callId) = p.resultIds calls := by
  induction h with
  | nil => cases p <;> rfl
  | @cons call result calls results hresult _ ih =>
      obtain ⟨content, rfl⟩ := hresult
      rw [resultIds_cons, ← ih, ← callId_buildToolResult p call content, List.filterMap_cons]
      split
      · rename_i hnone
        rw [hnone]
        rfl
      · rename_i id hsome
        rw [hsome]
        rfl

/-- The list of tools is that of the original request. -/
def sharesTools : Bool :=
  match p with
  | .anthropic | .openai => true
  | _ => false

/-- How far a history is compressed, where nothing of it is of the current round. -/
def reach (ids : List String) (history : List (WireEntry ρ)) : Nat :=
  match p with
  | .gemini => history.length
  | _ => p.currentStart ids history

theorem mapUpTo_currentStart (ids : List String) (history : List (WireEntry ρ))
    {tail : List (WireEntry ρ)} (htail : tail ≠ []) :
    mapUpTo (p.currentStart ids (history ++ tail)) p.compressEntry history =
      mapUpTo (p.reach ids history) p.compressEntry history := by
  cases p with
  | anthropic => exact mapUpTo_findIdx_append _ _ _
  | openai => exact mapUpTo_findIdx_append _ _ _
  | codex => exact mapUpTo_findIdx_append _ _ _
  | gemini =>
      have hpos := List.length_pos_of_ne_nil htail
      refine mapUpTo_of_length_le ?_
      rw [currentStart, GeminiAdapter.currentStart, List.length_append]
      omega

end Provider

/-! ## The entries of the rounds -/

/-- An entry as it was produced, or its compression. -/
def MaybeCompressed (p : Provider) (produced sent : WireEntry ρ) : Prop :=
  sent = produced ∨ sent = p.compressEntry produced

/-- The entries of answered responses; only their output may be compressed. -/
inductive LoopEntries (env : LoopEnv ρ) (p : Provider) :
    List (ProviderResponse ρ) → List (WireEntry ρ) → Prop
  | nil : LoopEntries env p [] []
  | round {responses : List (ProviderResponse ρ)} {entries outputs : List (WireEntry ρ)}
      {results : List (WireResult ρ)} (response : ProviderResponse ρ) :
      LoopEntries env p responses entries →
      List.Forall₂ (MaybeCompressed p) (p.outputEntries response) outputs →
      p.Answers (p.extractToolCalls (env.fresh responses.length) response) results →
      LoopEntries env p (responses ++ [response])
        (entries ++ outputs ++ p.resultEntries results)

section

variable {env : LoopEnv ρ} {p : Provider}

theorem forall₂_maybeCompressed_mapUpTo {produced sent : List (WireEntry ρ)}
    (h : List.Forall₂ (MaybeCompressed p) produced sent) (n : Nat) :
    List.Forall₂ (MaybeCompressed p) produced (mapUpTo n p.compressEntry sent) := by
  induction h generalizing n with
  | nil => simp [mapUpTo]
  | cons hfirst hrest ih =>
      cases n with
      | zero => exact .cons hfirst hrest
      | succ n =>
          refine .cons ?_ (ih n)
          rcases hfirst with rfl | rfl
          · exact .inr rfl
          · exact .inr (p.compressEntry_compressEntry _)

theorem loopEntries_mapUpTo {responses : List (ProviderResponse ρ)}
    {entries : List (WireEntry ρ)} (h : LoopEntries env p responses entries) (n : Nat) :
    LoopEntries env p responses (mapUpTo n p.compressEntry entries) := by
  induction h generalizing n with
  | nil =>
      rw [mapUpTo, List.take_nil, List.drop_nil]
      exact .nil
  | round response _ houtputs hanswers ih =>
      rw [mapUpTo_append, mapUpTo_append, (mapUpTo_eq_self_iff _ (p.resultEntries _)).mpr
        fun entry hentry => Provider.compressEntry_of_mem_resultEntries hanswers
          (List.mem_of_mem_take hentry)]
      exact .round response (ih _) (forall₂_maybeCompressed_mapUpTo houtputs _) hanswers

theorem forall₂_maybeCompressed_refl (entries : List (WireEntry ρ)) :
    List.Forall₂ (MaybeCompressed p) entries entries :=
  List.forall₂_same.mpr fun _ _ => .inl rfl

theorem role_of_mem_outputEntries {response : ProviderResponse ρ} {entry : WireEntry ρ}
    (h : entry ∈ Provider.openai.outputEntries response) :
    entry.role = some "assistant" := by
  unfold Provider.outputEntries OpenAIAdapter.outputEntries at h
  cases hchoices : response.choices with
  | nil =>
      rw [hchoices] at h
      rw [List.mem_singleton.mp h]
  | cons choice choices =>
      rw [hchoices] at h
      rw [List.mem_singleton.mp h]
      exact choice.assistant

/-- A chat of answered responses begins with an assistant message. -/
theorem role_head_loopEntries {responses : List (ProviderResponse ρ)}
    {entries : List (WireEntry ρ)} (h : LoopEntries env .openai responses entries) :
    (responses = [] ∧ entries = []) ∨
      ∃ first rest, entries = first :: rest ∧ first.role = some "assistant" := by
  generalize hp : Provider.openai = p at h
  induction h with
  | nil => exact .inl ⟨rfl, rfl⟩
  | @round responses entries outputs results response _ houtputs _ ih =>
      subst hp
      rcases ih with ⟨-, rfl⟩ | ⟨first, rest, rfl, hrole⟩
      · obtain ⟨message, hmessage⟩ : ∃ message,
            Provider.openai.outputEntries response = [message] := by
          unfold Provider.outputEntries OpenAIAdapter.outputEntries
          cases response.choices <;> exact ⟨_, rfl⟩
        have hassistant : message.role = some "assistant" := role_of_mem_outputEntries
          (hmessage ▸ List.mem_singleton_self message)
        rw [hmessage] at houtputs
        obtain ⟨sent, rest, hsent, hrest, rfl⟩ := List.forall₂_cons_left_iff.mp houtputs
        refine .inr ⟨sent, rest ++ _, rfl, ?_⟩
        rcases hsent with rfl | rfl
        · exact hassistant
        · simp [Provider.compressEntry, OpenAIAdapter.compressEntry, hassistant]
      · exact .inr ⟨first, rest ++ outputs ++ Provider.openai.resultEntries results, by simp, hrole⟩

end

/-! ## Bodies -/

namespace LoopBodies

variable {bodies : LoopBodies ρ} {p : Provider}

@[simp] theorem history_setHistory (history : List (WireEntry ρ)) :
    (bodies.setHistory history).history = history := by
  unfold setHistory
  split
  · rename_i hcopied
    simp [LoopBodies.history, hcopied]
  · rfl

@[simp] theorem front_setHistory (history : List (WireEntry ρ)) :
    (bodies.setHistory history).cont.front = bodies.cont.front := by
  unfold setHistory
  split <;> rfl

@[simp] theorem ownTools_setHistory (history : List (WireEntry ρ)) :
    (bodies.setHistory history).cont.ownTools = bodies.cont.ownTools := by
  unfold setHistory
  split <;> rfl

@[simp] theorem originalTools_setHistory (history : List (WireEntry ρ)) :
    (bodies.setHistory history).original.tools = bodies.original.tools := by
  unfold setHistory
  split <;> rfl

variable (bodies) in
/-- Writing what is there changes nothing. -/
theorem setHistory_self : bodies.setHistory bodies.history = bodies := by
  unfold setHistory
  split
  · rename_i hcopied
    simp [LoopBodies.history, hcopied]
  · rename_i copied hcopied
    obtain ⟨original, front, copied, tail, ownTools⟩ := bodies
    dsimp only at hcopied
    subst hcopied
    rfl

/-- The history of a continuation is that of a request, with nothing in front of it. -/
structure Keeps (original : ToolRequest ρ) (p : Provider) (bodies : LoopBodies ρ) : Prop where
  original_eq : bodies.original = original
  front_eq : bodies.cont.front = []
  history_eq : bodies.history = original.entries
  tools_shared : p.sharesTools → original.tools.isSome → bodies.cont.ownTools = none
  tools_own : ¬p.sharesTools → bodies.cont.ownTools.isSome

namespace Keeps

variable {original : ToolRequest ρ} (h : bodies.Keeps original p)

include h in
theorem entries_eq : bodies.entries = original.entries ++ bodies.cont.tail := by
  rw [LoopBodies.entries, h.front_eq, h.history_eq]
  rfl

include h in
protected theorem append (entries : List (WireEntry ρ)) : (bodies.append entries).Keeps original p :=
  ⟨h.original_eq, h.front_eq, h.history_eq, h.tools_shared, h.tools_own⟩

/-! ### Compression -/

variable (ids : List String)

/-- What is compressed of the history. -/
def compressedHistory (p : Provider) (ids : List String) (history : List (WireEntry ρ)) :
    List (WireEntry ρ) := mapUpTo (p.reach ids history) p.compressEntry history

include h in
theorem compress_parts (htail : bodies.cont.tail ≠ []) :
    (p.compressPreviousResults ids bodies).cont.front = [] ∧
      (p.compressPreviousResults ids bodies).history =
        compressedHistory p ids original.entries ∧
      (∃ n, (p.compressPreviousResults ids bodies).cont.tail =
        mapUpTo n p.compressEntry bodies.cont.tail) ∧
      (p.compressPreviousResults ids bodies).cont.ownTools = bodies.cont.ownTools ∧
      (p.compressPreviousResults ids bodies).original.tools = original.tools := by
  unfold Provider.compressPreviousResults
  dsimp only
  refine ⟨?_, ?_, ?_, ?_, ?_⟩
  · rw [front_setHistory, h.front_eq]
    simp [mapUpTo]
  · rw [history_setHistory, h.front_eq, h.history_eq, h.entries_eq, List.length_nil,
      Nat.sub_zero, p.mapUpTo_currentStart ids _ htail]
    rfl
  · rw [tail_setHistory]
    exact ⟨_, rfl⟩
  · rw [ownTools_setHistory]
  · rw [originalTools_setHistory, h.original_eq]

include h in
/-- Where nothing of the history is compressed, it stays. -/
theorem compress (htail : bodies.cont.tail ≠ [])
    (hspared : compressedHistory p ids original.entries = original.entries) :
    (p.compressPreviousResults ids bodies).Keeps original p := by
  obtain ⟨hfront, hhistory, -, htools, -⟩ := h.compress_parts ids htail
  refine ⟨?_, hfront, hhistory.trans hspared, fun hshares hsome => ?_, fun hown => ?_⟩
  · have hsame : mapUpTo (p.currentStart ids bodies.entries - bodies.cont.front.length)
        p.compressEntry bodies.history = bodies.history := by
      rw [h.front_eq, h.history_eq, h.entries_eq, List.length_nil, Nat.sub_zero,
        p.mapUpTo_currentStart ids _ htail]
      exact hspared
    unfold Provider.compressPreviousResults
    dsimp only
    rw [hsame]
    have hself := setHistory_self { bodies with
      cont := { bodies.cont with
        front := mapUpTo (p.currentStart ids bodies.entries) p.compressEntry bodies.cont.front
        tail := mapUpTo (p.currentStart ids bodies.entries - bodies.cont.front.length -
          bodies.history.length) p.compressEntry bodies.cont.tail } }
    exact (congrArg LoopBodies.original hself).trans h.original_eq
  · rw [htools]
    exact h.tools_shared hshares hsome
  · rw [htools]
    exact h.tools_own hown

/-! ### The system message -/

/-- The system text stays what it is. -/
def SystemSpared (original : ToolRequest ρ) (prepend : Text) : Prop :=
  ∃ first rest, original.entries = first :: rest ∧ first.role = some "system" ∧
    OpenAIAdapter.injectSystem (contextBlock prepend) first = first

include h in
theorem injectContext {prepend : Text} (hspared : p = .openai → SystemSpared original prepend) :
    p.injectContext prepend bodies = bodies := by
  unfold Provider.injectContext
  cases p with
  | openai =>
      obtain ⟨first, rest, hentries, hrole, hsame⟩ := hspared rfl
      have hhead : bodies.entries.head?.any (·.role = some "system") = true := by
        rw [h.entries_eq, hentries]
        simp [hrole]
      dsimp only
      rw [if_pos hhead]
      unfold modifyFirst
      rw [h.front_eq, h.history_eq, hentries]
      dsimp only
      rw [hsame, ← hentries, ← h.history_eq]
      exact setHistory_self bodies
  | _ => rfl

/-- Whatever was in a system message, its role does not change. -/
theorem role_compressEntry (entry : WireEntry ρ) :
    (Provider.openai.compressEntry entry).role = entry.role := by
  unfold Provider.compressEntry OpenAIAdapter.compressEntry
  split_ifs <;> rfl

theorem compressedHistory_cons (first : WireEntry ρ) (rest : List (WireEntry ρ)) :
    ∃ first' rest', compressedHistory .openai ids (first :: rest) = first' :: rest' ∧
      rest'.length = rest.length ∧ first'.role = first.role ∧
      (first.role = some "system" → first' = first) := by
  rw [compressedHistory, mapUpTo_cons]
  refine ⟨_, _, rfl, length_mapUpTo _ _, ?_, fun hsystem => ?_⟩
  · split_ifs
    · rfl
    · exact role_compressEntry first
  · split_ifs
    · rfl
    · simp [Provider.compressEntry, OpenAIAdapter.compressEntry, hsystem]

/-- If the history is still in front after an injection, it was spared before. -/
theorem spared_of_injectContext {prepend : Text} {after : LoopBodies ρ}
    (hfront : after.cont.front = [])
    (hhistory : after.history = compressedHistory .openai ids original.entries)
    (htail : ∃ first rest, after.cont.tail = first :: rest ∧ first.role = some "assistant")
    (hkept : (Provider.openai.injectContext prepend after).entries.take
      original.entries.length = original.entries)
    (hloop : original.entries = [] →
      ∀ first ∈ (Provider.openai.injectContext prepend after).entries.head?,
        first.role ≠ some "system") :
    compressedHistory .openai ids original.entries = original.entries ∧
      SystemSpared original prepend := by
  obtain ⟨answer, later, htail, hanswer⟩ := htail
  have hentries : after.entries =
      compressedHistory .openai ids original.entries ++ answer :: later := by
    rw [LoopBodies.entries, hfront, hhistory, htail]
    rfl
  unfold Provider.injectContext at hkept hloop
  dsimp only at hkept hloop
  by_cases hhead : after.entries.head?.any (·.role = some "system") = true
  · rw [if_pos hhead] at hkept
    cases horiginal : original.entries with
    | nil =>
        rw [hentries, horiginal, compressedHistory, mapUpTo, List.take_nil, List.drop_nil] at hhead
        simp [hanswer] at hhead
    | cons first rest =>
        obtain ⟨first', rest', hcompressed, hlength, hfirst, hsame⟩ :=
          compressedHistory_cons ids first rest
        rw [← horiginal] at hcompressed
        have hrole : first.role = some "system" := by
          rw [hentries, hcompressed] at hhead
          simpa [hfirst] using hhead
        obtain rfl := hsame hrole
        have hmodified : (after.modifyFirst
            (OpenAIAdapter.injectSystem (contextBlock prepend))).entries =
              OpenAIAdapter.injectSystem (contextBlock prepend) first' ::
                (rest' ++ answer :: later) := by
          unfold modifyFirst
          rw [hfront, hhistory, hcompressed]
          dsimp only
          rw [LoopBodies.entries, front_setHistory, history_setHistory, tail_setHistory, hfront,
            htail]
          rfl
        rw [hmodified, horiginal, List.length_cons, List.take_succ_cons, ← hlength,
          List.take_left, List.cons.injEq] at hkept
        rw [← horiginal, hcompressed, horiginal, hkept.2]
        exact ⟨rfl, first', rest, horiginal, hrole, hkept.1⟩
  · rw [if_neg hhead] at hkept hloop
    cases horiginal : original.entries with
    | nil => exact absurd rfl (hloop horiginal _ rfl)
    | cons first rest =>
        obtain ⟨first', rest', hcompressed, -, hrole, -⟩ := compressedHistory_cons ids first rest
        have hblock : (after.insertFirst
            { role := some "system", content := .text (contextBlock prepend) }).entries =
              { role := some "system", content := .text (contextBlock prepend) } ::
                after.entries := by
          rw [LoopBodies.entries, LoopBodies.entries]
          rfl
        rw [hblock, horiginal, List.length_cons, List.take_succ_cons, List.cons.injEq] at hkept
        rw [hentries, horiginal, hcompressed] at hhead
        exact absurd (by simp [hrole, ← hkept.1]) hhead

end Keeps

end LoopBodies

end VirtualContext
