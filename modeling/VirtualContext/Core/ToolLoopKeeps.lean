import VirtualContext.Core.ToolLoopHistory

/-!
# What the tool loop keeps

A round keeps the history exactly when it spares it, and what one round has done to
the tools or to a sent request no later round undoes.
-/

namespace VirtualContext

open VirtualContext.Library

variable {ρ : Type}

/-! ## Kept and spared -/

section

variable (env : LoopEnv ρ) (p : Provider) (original : ToolRequest ρ)

/-- A request begins with the history; the rounds and a nudge follow it. -/
structure SentKept (responses : List (ProviderResponse ρ)) (label : RequestLabel)
    (request : ToolRequest ρ) : Prop where
  history : request.entries.take original.entries.length = original.entries
  loop : ∃ loop, LoopEntries env p responses loop ∧
    request.entries.drop original.entries.length =
      loop ++ if label = .continuation then [] else p.nudgeEntries

/-- Every request keeps the history, and so does the original request. -/
structure KeepsHistory (after : ToolRequest ρ × ToolLoopResult ρ) : Prop where
  original_eq : after.1 = original
  labelled : after.2.labels.length = after.2.rawRequests.length
  sent : ∀ k request label, after.2.rawRequests[k]? = some request →
    after.2.labels[k]? = some label →
      SentKept env p original (after.2.rawResponses.take (k + 1)) label request

/-- Answering a response compresses nothing of the history, leaves its system text
and needs no further tool in a shared list. -/
structure StepSpares (before : List (ProviderResponse ρ)) (response : ProviderResponse ρ)
    (label : RequestLabel) : Prop where
  history : ∀ entry ∈ original.entries.take (p.reach
      (p.resultIds (p.extractToolCalls (env.fresh before.length) response)) original.entries),
    p.compressEntry entry = entry
  system : p = .openai → label = .continuation →
    (∃ call ∈ p.extractToolCalls (env.fresh before.length) response,
      call.name ∈ workingSetTools) →
    env.reassembled before.length ≠ [] →
      LoopBodies.Keeps.SystemSpared original (env.reassembled before.length)
  tools : p.sharesTools → original.tools.isSome → label = .continuation →
    ∀ i < (p.extractToolCalls (env.fresh before.length) response).length,
      occursIn suppressionMarker
        (env.results ((callsOf env p before).length + i)) = false

end

/-! ## Tools are only added -/

namespace ToolRequest

/-- The size of the list of tools. -/
def toolCount (request : ToolRequest ρ) : Nat := (request.tools.getD []).length

end ToolRequest

namespace LoopBodies

variable {bodies : LoopBodies ρ} {p : Provider}

theorem originalTools_compress (ids : List String) :
    (p.compressPreviousResults ids bodies).original.tools = bodies.original.tools := by
  unfold Provider.compressPreviousResults
  dsimp only
  rw [originalTools_setHistory]

variable (bodies p) in
theorem parts_injectContext (prepend : Text) :
    (p.injectContext prepend bodies).original.tools = bodies.original.tools ∧
      (p.injectContext prepend bodies).cont.ownTools = bodies.cont.ownTools := by
  unfold Provider.injectContext
  dsimp only
  split
  · split_ifs
    · unfold modifyFirst
      split
      · exact ⟨rfl, rfl⟩
      · exact ⟨originalTools_setHistory _, ownTools_setHistory _⟩
      · exact ⟨rfl, rfl⟩
    · exact ⟨rfl, rfl⟩
  · exact ⟨rfl, rfl⟩

theorem toolCount_setTools {tools : List WireTool}
    (h : (bodies.tools.getD []).length ≤ tools.length) :
    bodies.original.toolCount ≤ (bodies.setTools tools).original.toolCount := by
  unfold setTools
  split
  · rename_i howned horiginal
    rw [LoopBodies.tools, howned] at h
    exact h
  · exact Nat.le_refl _

theorem toolCount_addFindSession :
    bodies.original.toolCount ≤ (p.addFindSession bodies).original.toolCount := by
  unfold Provider.addFindSession
  dsimp only
  split
  · rename_i names tools htools
    exact toolCount_setTools (by rw [htools]; rfl)
  · exact toolCount_setTools (by simp)
  · exact toolCount_setTools (by simp)

/-- A shared list of tools becomes longer. -/
theorem toolCount_lt_addFindSession (hshares : p.sharesTools)
    (hsome : bodies.original.tools.isSome) (howned : bodies.cont.ownTools = none) :
    bodies.original.toolCount < (p.addFindSession bodies).original.toolCount := by
  obtain ⟨tools, htools⟩ := Option.isSome_iff_exists.mp hsome
  have hgrows : bodies.original.toolCount <
      (bodies.setTools (bodies.tools.getD [] ++ [.function "vc_find_session"])).original.toolCount := by
    unfold setTools
    rw [howned, htools, LoopBodies.tools, howned]
    simp [ToolRequest.toolCount, htools]
  cases p with
  | anthropic => exact hgrows
  | openai => exact hgrows
  | codex => exact absurd hshares (by decide)
  | gemini => exact absurd hshares (by decide)

theorem tail_addFindSession : (p.addFindSession bodies).cont.tail = bodies.cont.tail := by
  unfold Provider.addFindSession
  dsimp only
  split <;> exact tail_setTools _ _

namespace Keeps

variable {original : ToolRequest ρ}

theorem rebuild (h : bodies.Keeps original p) :
    ({ original := original, cont := bodies.cont } : LoopBodies ρ).Keeps original p := by
  obtain ⟨kept, cont⟩ := bodies
  obtain rfl := h.original_eq
  exact h

/-- A list of tools that is not shared grows in the continuation. -/
theorem addFindSession (h : bodies.Keeps original p)
    (hfree : ¬(p.sharesTools ∧ original.tools.isSome)) :
    (p.addFindSession bodies).Keeps original p := by
  have hset (tools : List WireTool) : (bodies.setTools tools).Keeps original p := by
    have hown : bodies.setTools tools =
        { bodies with cont := { bodies.cont with ownTools := some (some tools) } } := by
      unfold setTools
      split
      · rename_i howned horiginal
        rw [h.original_eq] at horiginal
        by_cases hshares : p.sharesTools = true
        · exact absurd ⟨hshares, by rw [horiginal]; rfl⟩ hfree
        · exact absurd (h.tools_own hshares) (by rw [howned]; simp)
      · rfl
    rw [hown]
    exact ⟨h.original_eq, h.front_eq, h.history_eq,
      fun hshares hsome => absurd ⟨hshares, hsome⟩ hfree, fun _ => rfl⟩
  unfold Provider.addFindSession
  dsimp only
  split <;> exact hset _

theorem entries_setTools (tools : List WireTool) :
    (bodies.setTools tools).entries = bodies.entries := by
  unfold setTools
  split <;> rfl

theorem entries_addFindSession : (p.addFindSession bodies).entries = bodies.entries := by
  unfold Provider.addFindSession
  dsimp only
  split <;> exact entries_setTools _

/-! ### Compression and injection -/

section

variable {env : LoopEnv ρ} (h : bodies.Keeps original p) (ids : List String)
  {responses : List (ProviderResponse ρ)}

variable (p original) in
theorem length_compressedHistory :
    (compressedHistory p ids original.entries).length = original.entries.length :=
  length_mapUpTo _ _

theorem compressedHistory_eq_self_iff :
    compressedHistory p ids original.entries = original.entries ↔
      ∀ entry ∈ original.entries.take (p.reach ids original.entries),
        p.compressEntry entry = entry := mapUpTo_eq_self_iff _ _

include h in
theorem loopEntries_compress (htail : LoopEntries env p responses bodies.cont.tail)
    (hne : bodies.cont.tail ≠ []) :
    LoopEntries env p responses (p.compressPreviousResults ids bodies).cont.tail := by
  obtain ⟨-, -, ⟨n, hcompressed⟩, -, -⟩ := h.compress_parts ids hne
  rw [hcompressed]
  exact loopEntries_mapUpTo htail n

include h in
theorem entries_compress (hne : bodies.cont.tail ≠ []) :
    (p.compressPreviousResults ids bodies).entries =
      compressedHistory p ids original.entries ++
        (p.compressPreviousResults ids bodies).cont.tail := by
  obtain ⟨hfront, hhistory, -, -, -⟩ := h.compress_parts ids hne
  rw [LoopBodies.entries, hfront, hhistory]
  rfl

include h in
/-- A forced request keeps the history exactly when none of it is compressed. -/
theorem sentKept_forced_iff (htail : LoopEntries env p responses bodies.cont.tail)
    (hne : bodies.cont.tail ≠ []) {label : RequestLabel} (hlabel : label ≠ .continuation) :
    SentKept env p original responses label
        ((p.compressPreviousResults ids bodies).stripTools.append p.nudgeEntries).request ↔
      compressedHistory p ids original.entries = original.entries := by
  have hentries : ((p.compressPreviousResults ids bodies).stripTools.append
      p.nudgeEntries).request.entries = compressedHistory p ids original.entries ++
        ((p.compressPreviousResults ids bodies).cont.tail ++ p.nudgeEntries) := by
    rw [← List.append_assoc, ← h.entries_compress ids hne]
    exact (List.append_assoc _ _ _).symm
  have hlength := length_compressedHistory p original ids
  constructor
  · intro hkept
    have hhistory := hkept.history
    rwa [hentries, ← hlength, List.take_left] at hhistory
  · intro hspared
    refine ⟨?_, _, h.loopEntries_compress ids htail hne, ?_⟩
    · rw [hentries, ← hlength, List.take_left, hspared]
    · rw [hentries, ← hlength, List.drop_left, if_neg hlabel]

/-- The last steps of a round: the context is injected and a tool is added. -/
def finish (p : Provider) (prepend : Text) (suppressed : Bool) (after : LoopBodies ρ) :
    LoopBodies ρ :=
  let injected := if prepend = [] then after else p.injectContext prepend after
  if suppressed then p.addFindSession injected else injected

theorem toolCount_finish (prepend : Text) (suppressed : Bool) (after : LoopBodies ρ) :
    after.original.toolCount ≤ (finish p prepend suppressed after).original.toolCount := by
  have hinjected : after.original.toolCount =
      (if prepend = [] then after else p.injectContext prepend after).original.toolCount := by
    split_ifs
    · rfl
    · rw [ToolRequest.toolCount, ToolRequest.toolCount, (parts_injectContext after p prepend).1]
  unfold finish
  dsimp only
  split
  · rw [hinjected]
    exact toolCount_addFindSession
  · exact hinjected.le

theorem entries_finish (prepend : Text) (suppressed : Bool) (after : LoopBodies ρ) :
    (finish p prepend suppressed after).entries =
      (if prepend = [] then after else p.injectContext prepend after).entries := by
  unfold finish
  dsimp only
  split
  · exact entries_addFindSession
  · rfl

/-- What a round has to spare at its end. -/
structure Spares (p : Provider) (original : ToolRequest ρ) (ids : List String)
    (prepend : Text) (suppressed : Bool) : Prop where
  history : compressedHistory p ids original.entries = original.entries
  system : p = .openai → prepend ≠ [] → SystemSpared original prepend
  tools : p.sharesTools → original.tools.isSome → suppressed = false

include h in
/-- A round that spares the history keeps it. -/
theorem finish_keeps (htail : LoopEntries env p responses bodies.cont.tail)
    (hne : bodies.cont.tail ≠ []) {prepend : Text} {suppressed : Bool}
    (hspared : Spares p original ids prepend suppressed) :
    (finish p prepend suppressed (p.compressPreviousResults ids bodies)).Keeps original p ∧
      LoopEntries env p responses
        (finish p prepend suppressed (p.compressPreviousResults ids bodies)).cont.tail := by
  have hkept := h.compress ids hne hspared.history
  have hcompressed := h.loopEntries_compress ids htail hne
  have hinjected : (if prepend = [] then p.compressPreviousResults ids bodies
      else p.injectContext prepend (p.compressPreviousResults ids bodies)) =
        p.compressPreviousResults ids bodies := by
    split_ifs with hprepend
    · rfl
    · exact hkept.injectContext fun hp => hspared.system hp hprepend
  unfold finish
  rw [hinjected]
  dsimp only
  split_ifs with hsuppressed
  · have hfree : ¬(p.sharesTools ∧ original.tools.isSome) := fun hshared =>
      absurd (hspared.tools hshared.1 hshared.2) (by simp [hsuppressed])
    refine ⟨hkept.addFindSession hfree, ?_⟩
    rw [tail_addFindSession]
    exact hcompressed
  · exact ⟨hkept, hcompressed⟩

/-- A body that keeps the history is sent with it in front. -/
theorem sentKept (h : bodies.Keeps original p)
    (htail : LoopEntries env p responses bodies.cont.tail) :
    SentKept env p original responses .continuation bodies.request := by
  refine ⟨?_, _, htail, ?_⟩
  · rw [LoopBodies.request, h.entries_eq, List.take_left]
  · rw [LoopBodies.request, h.entries_eq, List.drop_left, if_pos rfl, List.append_nil]

include h in
/-- A round that keeps the history and adds no tool to the original has spared it. -/
theorem spares_of_sentKept (htail : LoopEntries env p responses bodies.cont.tail)
    (hne : bodies.cont.tail ≠ []) (hresponses : responses ≠ []) {prepend : Text}
    {suppressed : Bool}
    (hsent : SentKept env p original responses .continuation
      (finish p prepend suppressed (p.compressPreviousResults ids bodies)).request)
    (htools : (finish p prepend suppressed
      (p.compressPreviousResults ids bodies)).original.toolCount ≤ original.toolCount) :
    Spares p original ids prepend suppressed := by
  obtain ⟨hfront, hhistory, -, howned, horiginal⟩ := h.compress_parts ids hne
  have hcompressed := h.loopEntries_compress ids htail hne
  have hentries := h.entries_compress ids hne
  have hlength := length_compressedHistory p original ids
  generalize p.compressPreviousResults ids bodies = after at *
  have hkept := hsent.history
  obtain ⟨loop, hloop, hdrop⟩ := hsent.loop
  rw [if_pos rfl, List.append_nil] at hdrop
  change List.take _ (finish p prepend suppressed after).entries = _ at hkept
  change List.drop _ (finish p prepend suppressed after).entries = _ at hdrop
  rw [entries_finish] at hkept hdrop
  have hsame (heq : (if prepend = [] then after else p.injectContext prepend after) = after) :
      compressedHistory p ids original.entries = original.entries := by
    rwa [heq, hentries, ← hlength, List.take_left] at hkept
  have hspared : compressedHistory p ids original.entries = original.entries ∧
      (p = .openai → prepend ≠ [] → SystemSpared original prepend) := by
    by_cases hprepend : prepend = []
    · exact ⟨hsame (if_pos hprepend), fun _ hne => absurd hprepend hne⟩
    · cases p with
      | openai =>
          rw [if_neg hprepend] at hkept hdrop
          obtain ⟨hnil, -⟩ | ⟨first, rest, heq, hrole⟩ := role_head_loopEntries hcompressed
          · exact absurd hnil hresponses
          · have hboth := spared_of_injectContext ids hfront hhistory ⟨first, rest, heq, hrole⟩
              hkept fun hnil sent hhead hsystem => by
                rw [hnil, List.length_nil, List.drop_zero] at hdrop
                rw [hdrop] at hhead
                obtain ⟨hempty, -⟩ | ⟨answer, later, hanswer, hassistant⟩ :=
                  role_head_loopEntries hloop
                · exact absurd hempty hresponses
                · rw [hanswer, List.head?_cons, Option.mem_some_iff] at hhead
                  rw [← hhead, hassistant] at hsystem
                  exact absurd hsystem (by decide)
            exact ⟨hboth.1, fun _ _ => hboth.2⟩
      | anthropic => exact ⟨hsame (if_neg hprepend), nofun⟩
      | codex => exact ⟨hsame (if_neg hprepend), nofun⟩
      | gemini => exact ⟨hsame (if_neg hprepend), nofun⟩
  refine ⟨hspared.1, hspared.2, fun hshares hsome => Bool.eq_false_iff.mpr fun hsuppressed => ?_⟩
  have hparts : (if prepend = [] then after else p.injectContext prepend after).original.tools =
      original.tools ∧
      (if prepend = [] then after else p.injectContext prepend after).cont.ownTools = none := by
    have hnone := howned.trans (h.tools_shared hshares hsome)
    split_ifs
    · exact ⟨horiginal, hnone⟩
    · obtain ⟨htoolsOf, hownOf⟩ := parts_injectContext after p prepend
      exact ⟨htoolsOf.trans horiginal, hownOf.trans hnone⟩
  unfold finish at htools
  rw [if_pos hsuppressed] at htools
  have hgrows := toolCount_lt_addFindSession hshares (hparts.1 ▸ hsome) hparts.2
  have hcount : (if prepend = [] then after
      else p.injectContext prepend after).original.toolCount = original.toolCount := by
    rw [ToolRequest.toolCount, hparts.1, ToolRequest.toolCount]
  omega

end

end Keeps

end LoopBodies

/-! ## One round -/

section

variable {env : LoopEnv ρ} {p : Provider} {original : ToolRequest ρ} {s : LoopState ρ}

/-- The state after rounds that kept the history. -/
structure HistoryKept (env : LoopEnv ρ) (p : Provider) (original : ToolRequest ρ)
    (answered : List (ProviderResponse ρ)) (s : LoopState ρ) : Prop where
  original_eq : s.original = original
  cont : ∀ cont, s.cont = some cont →
    ({ original := original, cont := cont } : LoopBodies ρ).Keeps original p
  entries : LoopEntries env p answered ((s.cont.map (·.tail)).getD [])
  injected : p.sharesTools → original.tools.isSome → s.findSessionInjected = false
  labelled : s.result.labels.length = s.result.rawRequests.length

theorem keeps_startContinuation (p : Provider) (original : ToolRequest ρ) :
    (p.startContinuation original).Keeps original p := by
  cases p with
  | anthropic => exact ⟨rfl, rfl, rfl, fun _ _ => rfl, fun h => absurd rfl h⟩
  | openai => exact ⟨rfl, rfl, rfl, fun _ _ => rfl, fun h => absurd rfl h⟩
  | codex => exact ⟨rfl, rfl, rfl, fun h => absurd h (by decide), fun _ => rfl⟩
  | gemini => exact ⟨rfl, rfl, rfl, fun h => absurd h (by decide), fun _ => rfl⟩

/-- The body of a round, with the calls and the results of its response. -/
theorem HistoryKept.build (h : HistoryKept env p original s.result.answered s)
    (hpending : Pending env p s) {results : List (WireResult ρ)}
    (hresults : p.Answers s.vcTools results) :
    (p.buildContinuation s.original s.cont s.currentResponse results).Keeps original p ∧
      LoopEntries env p (s.result.answered ++ [s.currentResponse])
        (p.buildContinuation s.original s.cont s.currentResponse results).cont.tail ∧
      (p.buildContinuation s.original s.cont s.currentResponse results).cont.tail ≠ [] := by
  have hne : p.outputEntries s.currentResponse ++ p.resultEntries results ≠ [] := by
    intro hnil
    have hevents := p.flatMap_events_resultEntries hpending.ne_nil hresults
    rw [(List.append_eq_nil_iff.mp hnil).2] at hevents
    exact hpending.ne_nil (List.map_eq_nil_iff.mp hevents.symm)
  have hanswers : p.Answers (p.extractToolCalls (env.fresh s.result.answered.length)
      s.currentResponse) results := by
    rw [answered_length hpending, ← hpending.calls]
    exact hresults
  have hentries := LoopEntries.round s.currentResponse h.entries
    (forall₂_maybeCompressed_refl _) hanswers
  unfold Provider.buildContinuation
  rw [h.original_eq]
  cases hcont : s.cont with
  | none =>
      rw [hcont] at hentries
      refine ⟨(keeps_startContinuation p original).append _, ?_, ?_⟩
      · cases p <;> exact hentries
      · exact List.append_ne_nil_of_right_ne_nil _ hne
  | some cont =>
      rw [hcont] at hentries
      refine ⟨(h.cont cont hcont).append _, ?_, ?_⟩
      · rw [List.append_assoc] at hentries
        exact hentries
      · exact List.append_ne_nil_of_right_ne_nil _ hne

/-- The records of a round keep the results in the order of execution. -/
theorem executeTools_records (hinted : Bool) (calls : List (ToolCall ρ))
    (result : ToolLoopResult ρ) :
    ∃ records, (executeTools env p hinted calls result).2.toolCalls =
        result.toolCalls ++ records ∧
      records.map (·.resultJson) =
        (List.range' result.toolCalls.length calls.length).map env.results := by
  induction calls generalizing result with
  | nil => exact ⟨[], (List.append_nil _).symm, rfl⟩
  | cons call calls ih =>
      let record : ToolCallRecord ρ :=
        { toolName := call.name
          toolInput := call.input
          resultJson := env.results result.toolCalls.length }
      obtain ⟨records, hcalls, hresults⟩ :=
        ih { result with toolCalls := result.toolCalls ++ [record] }
      refine ⟨record :: records, ?_, ?_⟩
      · rw [executeTools]
        dsimp only
        rw [hcalls, List.append_assoc]
        rfl
      · rw [List.map_cons, hresults, List.length_append, List.length_singleton,
          List.length_cons, List.range'_succ, List.map_cons]

variable (env p) in
/-- No result of the round speaks of older sessions. -/
theorem any_recent_eq_false_iff (calls : List (ToolCall ρ)) (result : ToolLoopResult ρ) :
    (((executeTools env p true calls result).2.toolCalls.drop
      ((executeTools env p true calls result).2.toolCalls.length - calls.length)).any
        fun record => occursIn suppressionMarker record.resultJson) = false ↔
      ∀ i < calls.length,
        occursIn suppressionMarker (env.results (result.toolCalls.length + i)) = false := by
  obtain ⟨records, hcalls, hresults⟩ := executeTools_records true calls result
  have hlength : records.length = calls.length := by
    rw [← List.length_map (·.resultJson), hresults, List.length_map, List.length_range']
  rw [hcalls, List.length_append, hlength, Nat.add_sub_cancel, List.drop_left]
  have hany : (records.any fun record => occursIn suppressionMarker record.resultJson) =
      (records.map (·.resultJson)).any (occursIn suppressionMarker) := by
    rw [List.any_map]
    rfl
  rw [hany, hresults, List.any_map, List.any_eq_false]
  constructor
  · intro h i hi
    exact Bool.eq_false_iff.mpr (h _ (List.mem_range'.mpr ⟨i, hi, by omega⟩))
  · intro h n hn
    obtain ⟨i, hi, rfl⟩ := List.mem_range'.mp hn
    rw [Nat.one_mul]
    exact Bool.eq_false_iff.mp (h i hi)

/-- The context that a round injects. -/
def roundPrepend (env : LoopEnv ρ) (round : Nat) (calls : List (ToolCall ρ)) : Text :=
  if calls.any (·.name ∈ workingSetTools) then env.reassembled round else []

theorem length_toolCalls (hpending : Pending env p s) :
    s.result.toolCalls.length = (callsOf env p s.result.answered).length := by
  rw [← List.length_map (·.asked), hpending.soFar.executed, List.length_map]

/-- A forced answer spares the history if it compresses nothing of it. -/
theorem stepSpares_forced_iff (hpending : Pending env p s) {label : RequestLabel}
    (hlabel : label ≠ .continuation) :
    StepSpares env p original s.result.answered s.currentResponse label ↔
      LoopBodies.Keeps.compressedHistory p (p.resultIds s.vcTools) original.entries =
        original.entries := by
  rw [LoopBodies.Keeps.compressedHistory_eq_self_iff, hpending.calls,
    ← answered_length hpending]
  exact ⟨fun h => h.history, fun h => ⟨h, fun _ heq => absurd heq hlabel,
    fun _ _ heq => absurd heq hlabel⟩⟩

variable (original) in
theorem stepSpares_continuation_iff (hpending : Pending env p s) {round : Nat}
    (hround : s.result.rawRequests.length = round) (suppressed : Bool)
    (hsuppressed : p.sharesTools → original.tools.isSome → (suppressed = false ↔
      ∀ i < s.vcTools.length, occursIn suppressionMarker
        (env.results (s.result.toolCalls.length + i)) = false)) :
    StepSpares env p original s.result.answered s.currentResponse .continuation ↔
      LoopBodies.Keeps.Spares p original (p.resultIds s.vcTools)
        (roundPrepend env round s.vcTools) suppressed := by
  have hcalls : p.extractToolCalls (env.fresh s.result.answered.length) s.currentResponse =
      s.vcTools := by rw [answered_length hpending, hpending.calls]
  have hlength : s.result.answered.length = round := by rw [answered_length hpending, hround]
  constructor
  · intro h
    refine ⟨?_, fun hp hprepend => ?_, fun hshares hsome => ?_⟩
    · rw [LoopBodies.Keeps.compressedHistory_eq_self_iff, ← hcalls]
      exact h.history
    · unfold roundPrepend at hprepend ⊢
      split_ifs at hprepend ⊢ with hany
      · obtain ⟨call, hcall, hname⟩ := List.any_eq_true.mp hany
        have hsystem := h.system hp rfl
        rw [hcalls, hlength] at hsystem
        exact hsystem ⟨call, hcall, of_decide_eq_true hname⟩ hprepend
      · exact absurd rfl hprepend
    · rw [hsuppressed hshares hsome, length_toolCalls hpending, ← hcalls]
      exact h.tools hshares hsome rfl
  · intro h
    refine ⟨?_, fun hp _ hany hne => ?_, fun hshares hsome _ => ?_⟩
    · rw [← LoopBodies.Keeps.compressedHistory_eq_self_iff, hcalls]
      exact h.history
    · rw [hcalls] at hany
      rw [hlength] at hne ⊢
      have hprepend : roundPrepend env round s.vcTools = env.reassembled round := by
        obtain ⟨call, hcall, hname⟩ := hany
        exact if_pos (List.any_eq_true.mpr ⟨call, hcall, decide_eq_true hname⟩)
      rw [← hprepend] at hne ⊢
      exact h.system hp hne
    · rw [hcalls, ← length_toolCalls hpending]
      exact (hsuppressed hshares hsome).mp (h.tools hshares hsome)

/-- A request is sent, and nothing that was captured before is changed. -/
structure SendsOne (before after : ToolLoopResult ρ) (label : RequestLabel)
    (request : ToolRequest ρ) : Prop where
  requests : after.rawRequests = before.rawRequests ++ [request]
  labels : after.labels = before.labels ++ [label]
  responses : before.rawResponses <+: after.rawResponses

theorem sendRound_keeps (h : HistoryKept env p original s.result.answered s)
    (hpending : Pending env p s) {round : Nat}
    (hround : s.result.rawRequests.length = round) :
    ∃ request, SendsOne s.result (sendRound env p round s).2.result .continuation request ∧
      (SentKept env p original (s.result.answered ++ [s.currentResponse]) .continuation
          request →
        (sendRound env p round s).2.original.toolCount ≤ original.toolCount →
        StepSpares env p original s.result.answered s.currentResponse .continuation) ∧
      (StepSpares env p original s.result.answered s.currentResponse .continuation →
        SentKept env p original (s.result.answered ++ [s.currentResponse]) .continuation
            request ∧
          HistoryKept env p original (s.result.answered ++ [s.currentResponse])
            (sendRound env p round s).2) := by
  obtain ⟨hanswers, records, hexecuted, -⟩ :=
    executeTools_spec env p true s.vcTools s.result
  have hrecent := any_recent_eq_false_iff env p s.vcTools s.result
  unfold sendRound
  generalize executeTools env p true s.vcTools s.result = pair at hanswers hexecuted hrecent
  obtain ⟨results, result⟩ := pair
  dsimp only [sendRequest] at hanswers hexecuted hrecent ⊢
  obtain ⟨hkeeps, htail, hne⟩ := h.build hpending hanswers
  have hids := Provider.filterMap_callId hanswers
  let suppressed : Bool := !s.findSessionInjected &&
    (result.toolCalls.drop (result.toolCalls.length - s.vcTools.length)).any
      fun record => occursIn suppressionMarker record.resultJson
  have hspares := stepSpares_continuation_iff original hpending hround
    suppressed fun hshares hsome => by
      rw [← hrecent]
      simp [suppressed, h.injected hshares hsome]
  have hfinish : roundBodies env p round s results result =
      (LoopBodies.Keeps.finish p (roundPrepend env round s.vcTools) suppressed
        (p.compressPreviousResults (p.resultIds s.vcTools)
          (p.buildContinuation s.original s.cont s.currentResponse results)),
        s.findSessionInjected || suppressed) := by
    rw [← hids]
    rfl
  rw [hfinish, hexecuted]
  dsimp only
  refine ⟨_, ⟨rfl, rfl, List.prefix_rfl⟩, fun hsent htools => ?_, fun hspared => ?_⟩
  · exact hspares.mpr (hkeeps.spares_of_sentKept _ htail hne (by simp) hsent htools)
  · obtain ⟨hkept, hentries⟩ := hkeeps.finish_keeps _ htail hne (hspares.mp hspared)
    refine ⟨hkept.sentKept hentries, hkept.original_eq, fun cont hcont => ?_, hentries,
      fun hshares hsome => ?_, ?_⟩
    · obtain rfl := Option.some.inj hcont
      exact hkept.rebuild
    · dsimp only
      rw [h.injected hshares hsome, (hspares.mp hspared).tools hshares hsome]
      rfl
    · simp [h.labelled]

theorem forceTextResponse_keeps (h : HistoryKept env p original s.result.answered s)
    (hpending : Pending env p s) {label : RequestLabel} (hlabel : label ≠ .continuation) :
    ∃ request, SendsOne s.result (forceTextResponse env p label s).result label request ∧
      (SentKept env p original (s.result.answered ++ [s.currentResponse]) label request ↔
        StepSpares env p original s.result.answered s.currentResponse label) ∧
      (StepSpares env p original s.result.answered s.currentResponse label →
        (forceTextResponse env p label s).original = original) := by
  obtain ⟨hanswers, records, hexecuted, -⟩ :=
    executeTools_spec env p false s.vcTools s.result
  unfold forceTextResponse
  generalize executeTools env p false s.vcTools s.result = pair at hanswers hexecuted
  obtain ⟨results, result⟩ := pair
  dsimp only [sendRequest] at hanswers hexecuted ⊢
  obtain ⟨hkeeps, htail, hne⟩ := h.build hpending hanswers
  rw [Provider.filterMap_callId hanswers, stepSpares_forced_iff hpending hlabel]
  refine ⟨_, ⟨?_, ?_, ?_⟩, hkeeps.sentKept_forced_iff _ htail hne hlabel, fun hspared =>
    (hkeeps.compress _ hne hspared).original_eq⟩
  · rw [hexecuted]
    split <;> rfl
  · rw [hexecuted]
    split <;> rfl
  · rw [hexecuted]
    split
    · exact List.prefix_rfl
    · exact List.prefix_append _ _

/-! ## Whole runs -/

/-- What was captured stays, and no tool of the original is lost. -/
structure Extends (before after : LoopState ρ) : Prop where
  requests : before.result.rawRequests <+: after.result.rawRequests
  labels : before.result.labels <+: after.result.labels
  responses : before.result.rawResponses <+: after.result.rawResponses
  labelled : before.result.labels.length = before.result.rawRequests.length →
    after.result.labels.length = after.result.rawRequests.length
  tools : before.original.toolCount ≤ after.original.toolCount

theorem Extends.refl (s : LoopState ρ) : Extends s s :=
  ⟨List.prefix_rfl, List.prefix_rfl, List.prefix_rfl, id, Nat.le_refl _⟩

theorem Extends.trans {a b c : LoopState ρ} (hab : Extends a b) (hbc : Extends b c) :
    Extends a c :=
  ⟨hab.requests.trans hbc.requests, hab.labels.trans hbc.labels,
    hab.responses.trans hbc.responses, hbc.labelled ∘ hab.labelled,
    hab.tools.trans hbc.tools⟩

theorem Extends.stop {s t : LoopState ρ} (h : Extends s t) (reason : String) :
    Extends s { t with result := { t.result with stopReason := reason } } :=
  ⟨h.requests, h.labels, h.responses, h.labelled, h.tools⟩

theorem toolCount_compress (ids : List String) (bodies : LoopBodies ρ) :
    (p.compressPreviousResults ids bodies).original.toolCount = bodies.original.toolCount := by
  rw [ToolRequest.toolCount, LoopBodies.originalTools_compress, ToolRequest.toolCount]

theorem toolCount_buildContinuation (s : LoopState ρ) (results : List (WireResult ρ)) :
    (p.buildContinuation s.original s.cont s.currentResponse results).original.toolCount =
      s.original.toolCount := by
  unfold Provider.buildContinuation
  cases s.cont with
  | none => cases p <;> rfl
  | some cont => rfl

theorem toolCount_roundBodies (round : Nat) (s : LoopState ρ) (results : List (WireResult ρ))
    (result : ToolLoopResult ρ) :
    s.original.toolCount ≤
      (roundBodies env p round s results result).1.original.toolCount := by
  rw [← toolCount_buildContinuation (p := p) s results,
    ← toolCount_compress (p := p) (results.filterMap (·.callId))]
  exact LoopBodies.Keeps.toolCount_finish (roundPrepend env round s.vcTools) _ _

variable (env p)

theorem executeTools_captured (hinted : Bool) (calls : List (ToolCall ρ))
    (result : ToolLoopResult ρ) :
    ∃ results records, executeTools env p hinted calls result =
      (results, { result with toolCalls := result.toolCalls ++ records }) := by
  obtain ⟨-, records, h, -⟩ := executeTools_spec env p hinted calls result
  exact ⟨_, records, Prod.ext rfl h⟩

theorem forceTextResponse_extends (label : RequestLabel) (s : LoopState ρ) :
    Extends s (forceTextResponse env p label s) := by
  obtain ⟨results, records, hexecuted⟩ :=
    executeTools_captured env p false s.vcTools s.result
  unfold forceTextResponse
  rw [hexecuted]
  dsimp only [sendRequest]
  refine ⟨?_, ?_, ?_, ?_, ?_⟩
  · split <;> exact List.prefix_append _ _
  · split <;> exact List.prefix_append _ _
  · split
    · exact List.prefix_rfl
    · exact List.prefix_append _ _
  · intro hlabelled
    split <;> simp [readReply, hlabelled]
  · exact ((toolCount_compress _ _).trans (toolCount_buildContinuation s _)).ge

theorem sendRound_extends (round : Nat) (s : LoopState ρ) :
    Extends s (sendRound env p round s).2 := by
  obtain ⟨results, records, hexecuted⟩ :=
    executeTools_captured env p true s.vcTools s.result
  unfold sendRound
  rw [hexecuted]
  exact ⟨List.prefix_append _ _, List.prefix_append _ _, List.prefix_rfl,
    fun hlabelled => by simp [sendRequest, hlabelled], toolCount_roundBodies _ _ _ _⟩

theorem receiveReply_extends (round : Nat) (reply : ProviderResponse ρ) (s : LoopState ρ) :
    Extends s (receiveReply env p round reply s) :=
  ⟨List.prefix_rfl, List.prefix_rfl, List.prefix_append _ _, id, Nat.le_refl _⟩

theorem takeReply_extends (round : Nat) (reply : ProviderResponse ρ) (s : LoopState ρ) :
    Extends s (takeReply env p round reply s).2 := by
  have hreceived := receiveReply_extends env p round reply s
  have hforced := hreceived.trans (forceTextResponse_extends env p
    .forcedRedundant (receiveReply env p round reply s))
  unfold takeReply
  dsimp only
  split_ifs
  · exact hforced.stop _
  · exact hforced
  · exact hreceived
  · exact hreceived.stop _

theorem loopRound_extends (round : Nat) (s : LoopState ρ) :
    Extends s (loopRound env p round s).2 := by
  have hsent := sendRound_extends env p round s
  unfold loopRound
  generalize sendRound env p round s = pair at hsent
  obtain ⟨reply, sent⟩ := pair
  cases reply with
  | none => exact hsent.stop _
  | some reply => exact hsent.trans (takeReply_extends env p round reply sent)

theorem loopRounds_extends (remaining round : Nat) (s : LoopState ρ) :
    Extends s (loopRounds env p remaining round s) := by
  induction remaining generalizing round s with
  | zero =>
      rw [loopRounds]
      split_ifs
      · exact forceTextResponse_extends env p _ s
      · exact (Extends.refl s).stop _
  | succ remaining ih =>
      have hstep := loopRound_extends env p round s
      rw [loopRounds]
      generalize loopRound env p round s = pair at hstep
      obtain ⟨go, next⟩ := pair
      cases go with
      | false => exact hstep
      | true => exact hstep.trans (ih (round + 1) next)

variable {env p}

/-! ### From one step on -/

theorem getElem?_of_isPrefix {α : Type} {front list : List α} (h : front <+: list) {n : Nat}
    {a : α} (ha : front[n]? = some a) : list[n]? = some a := by
  obtain ⟨rest, rfl⟩ := h
  rw [List.getElem?_append_left (List.getElem?_eq_some_iff.mp ha).1, ha]

/-- The requests from one on keep the history, and so does the original request. -/
structure KeptFrom (env : LoopEnv ρ) (p : Provider) (original : ToolRequest ρ) (n : Nat)
    (after : LoopState ρ) : Prop where
  original_eq : after.original = original
  sent : ∀ k request label, n ≤ k → after.result.rawRequests[k]? = some request →
    after.result.labels[k]? = some label →
      SentKept env p original (after.result.rawResponses.take (k + 1)) label request

/-- The steps from one on spare the history. -/
def SparedFrom (env : LoopEnv ρ) (p : Provider) (original : ToolRequest ρ) (n : Nat)
    (after : LoopState ρ) : Prop :=
  ∀ k label response, n ≤ k → after.result.labels[k]? = some label →
    after.result.rawResponses[k]? = some response →
      StepSpares env p original (after.result.rawResponses.take k) response label

theorem keptFrom_iff_of_done {after : LoopState ρ} {n : Nat} (horiginal : after.original = original)
    (hlabels : after.result.labels.length = n) :
    KeptFrom env p original n after ↔ SparedFrom env p original n after := by
  have hnone (k : Nat) (label : RequestLabel) (hk : n ≤ k)
      (h : after.result.labels[k]? = some label) : False := by
    have hlt := (List.getElem?_eq_some_iff.mp h).1
    omega
  exact iff_of_true ⟨horiginal, fun k _ label hk _ h => (hnone k label hk h).elim⟩
    fun k label _ hk h => (hnone k label hk h).elim

/-- One request after the other: a request, and then the rest of the run. -/
theorem keptFrom_iff_of_step (hpending : Pending env p s)
    (hlabelled : s.result.labels.length = s.result.rawRequests.length)
    {sent after : LoopState ρ} {label : RequestLabel} {request : ToolRequest ρ}
    (hsends : SendsOne s.result sent.result label request) (hextends : Extends sent after)
    (hspared : SentKept env p original (s.result.answered ++ [s.currentResponse]) label
        request → sent.original.toolCount ≤ original.toolCount →
      StepSpares env p original s.result.answered s.currentResponse label)
    (hkept : StepSpares env p original s.result.answered s.currentResponse label →
      SentKept env p original (s.result.answered ++ [s.currentResponse]) label request)
    {n : Nat} (hn : s.result.rawRequests.length = n)
    (hrest : StepSpares env p original s.result.answered s.currentResponse label →
      (KeptFrom env p original (n + 1) after ↔ SparedFrom env p original (n + 1) after)) :
    KeptFrom env p original n after ↔ SparedFrom env p original n after := by
  have hlength := answered_length hpending
  have hrequest : after.result.rawRequests[n]? = some request := by
    refine getElem?_of_isPrefix hextends.requests ?_
    rw [hsends.requests, ← hn, List.getElem?_concat_length]
  have hlabel : after.result.labels[n]? = some label := by
    refine getElem?_of_isPrefix hextends.labels ?_
    rw [hsends.labels, ← hn, ← hlabelled, List.getElem?_concat_length]
  obtain ⟨more, hmore⟩ := hsends.responses.trans hextends.responses
  rw [hpending.responses] at hmore
  have htake : after.result.rawResponses.take n = s.result.answered := by
    rw [← hmore, List.append_assoc, ← hn, ← hlength, List.take_left]
  have htakeNext : after.result.rawResponses.take (n + 1) =
      s.result.answered ++ [s.currentResponse] := by
    have hnext : (s.result.answered ++ [s.currentResponse]).length = n + 1 := by
      rw [List.length_append, hlength, hn, List.length_singleton]
    rw [← hmore, ← hnext, List.take_left]
  have hresponse : after.result.rawResponses[n]? = some s.currentResponse := by
    rw [← hmore, List.append_assoc, ← hn, ← hlength, List.getElem?_append_right (Nat.le_refl _),
      Nat.sub_self]
    rfl
  constructor
  · intro h k found response hk hfound hat
    have hfirst := h.sent n request label (Nat.le_refl _) hrequest hlabel
    rw [htakeNext] at hfirst
    have hspares := hspared hfirst (h.original_eq ▸ hextends.tools)
    rcases Nat.eq_or_lt_of_le hk with rfl | hlt
    · rw [hlabel, Option.some.injEq] at hfound
      rw [hresponse, Option.some.injEq] at hat
      rw [htake, ← hfound, ← hat]
      exact hspares
    · exact (hrest hspares).mp ⟨h.original_eq,
        fun k request label hle => h.sent k request label (by omega)⟩ k found response hlt
          hfound hat
  · intro h
    have hspares := h n label s.currentResponse (Nat.le_refl _) hlabel hresponse
    rw [htake] at hspares
    have hlater := (hrest hspares).mpr
      fun k label response hle => h k label response (by omega)
    refine ⟨hlater.original_eq, fun k found foundLabel hk hfound hat => ?_⟩
    rcases Nat.eq_or_lt_of_le hk with rfl | hlt
    · rw [hrequest, Option.some.injEq] at hfound
      rw [hlabel, Option.some.injEq] at hat
      rw [htakeNext, ← hfound, ← hat]
      exact hkept hspares
    · exact hlater.sent k found foundLabel hlt hfound hat

/-- A forced answer is the last step. -/
theorem forceTextResponse_keptFrom_iff (h : HistoryKept env p original s.result.answered s)
    (hpending : Pending env p s) {label : RequestLabel} (hlabel : label ≠ .continuation)
    {n : Nat} (hn : s.result.rawRequests.length = n) (reason : Option String) :
    let forced := forceTextResponse env p label s
    let after := { forced with result :=
      { forced.result with stopReason := reason.getD forced.result.stopReason } }
    KeptFrom env p original n after ↔ SparedFrom env p original n after := by
  obtain ⟨request, hsends, hiff, horiginal⟩ := forceTextResponse_keeps h hpending hlabel
  refine keptFrom_iff_of_step hpending h.labelled hsends ((Extends.refl _).stop _)
    (fun hsent _ => hiff.mp hsent) hiff.mpr hn fun hspares => ?_
  refine keptFrom_iff_of_done (horiginal hspares) ?_
  change (forceTextResponse env p label s).result.labels.length = _
  rw [hsends.labels, List.length_append, h.labelled, hn]
  rfl

theorem HistoryKept.receive {answered : List (ProviderResponse ρ)}
    (h : HistoryKept env p original answered s) (round : Nat) (reply : ProviderResponse ρ) :
    HistoryKept env p original answered (receiveReply env p round reply s) :=
  ⟨h.original_eq, h.cont, h.entries, h.injected, h.labelled⟩

theorem takeReply_keeps (h : HistoryKept env p original s.result.rawResponses s)
    (hanswered : Answered env p s) {round : Nat}
    (hround : s.result.rawRequests.length = round + 1) (reply : ProviderResponse ρ) :
    ((takeReply env p round reply s).1 = true →
      HistoryKept env p original (takeReply env p round reply s).2.result.answered
        (takeReply env p round reply s).2) ∧
    ((takeReply env p round reply s).1 = false →
      (KeptFrom env p original (round + 1) (takeReply env p round reply s).2 ↔
        SparedFrom env p original (round + 1) (takeReply env p round reply s).2)) := by
  have hreceived : HistoryKept env p original
      (receiveReply env p round reply s).result.answered (receiveReply env p round reply s) := by
    rw [receiveReply]
    dsimp only
    rw [hanswered.answered_readReply reply]
    exact h.receive round reply
  unfold takeReply
  dsimp only
  by_cases hagain : p.isToolUseStop reply = true ∧
      (receiveReply env p round reply s).vcTools ≠ [] ∧
        (p.extractToolCalls (env.fresh (round + 1)) reply).all (isVcTool ·.name) = true
  · have hpending := pending_receiveReply hanswered hround hagain.2.1 hagain.2.2
    rw [if_pos hagain]
    by_cases hredundant : isRedundant round (receiveReply env p round reply s) = true
    · rw [if_pos hredundant]
      refine ⟨fun hgo => absurd hgo Bool.false_ne_true, fun _ => ?_⟩
      have hforced := forceTextResponse_keptFrom_iff hreceived hpending
        (show RequestLabel.forcedRedundant ≠ .continuation by decide) hround
      dsimp only
      split_ifs
      · exact hforced (some "redundant_loop")
      · exact hforced none
    · rw [if_neg hredundant]
      exact ⟨fun _ => hreceived, fun hstop => absurd hstop.symm Bool.false_ne_true⟩
  · rw [if_neg hagain]
    refine ⟨fun hgo => absurd hgo Bool.false_ne_true, fun _ => ?_⟩
    exact keptFrom_iff_of_done hreceived.original_eq (hreceived.labelled.trans hround)

theorem loopRounds_keptFrom_iff (remaining : Nat) {round : Nat}
    (h : HistoryKept env p original s.result.answered s) (hpending : Pending env p s)
    (hround : s.result.rawRequests.length = round) :
    KeptFrom env p original round (loopRounds env p remaining round s) ↔
      SparedFrom env p original round (loopRounds env p remaining round s) := by
  induction remaining generalizing round s with
  | zero =>
      rw [loopRounds]
      split_ifs
      · exact forceTextResponse_keptFrom_iff h hpending (by decide) hround none
      · exact keptFrom_iff_of_done h.original_eq (h.labelled.trans hround)
  | succ remaining ih =>
      obtain ⟨request, hsends, hspared, hkept⟩ := sendRound_keeps h hpending hround
      obtain ⟨hanswered, hlength⟩ := sendRound_spec hpending round
      rw [hround] at hlength
      have hafter (hspares) := (hkept hspares).2
      have hall (hspares) := (hkept hspares).1
      rw [loopRounds, loopRound]
      generalize sendRound env p round s = pair at *
      obtain ⟨reply, sent⟩ := pair
      dsimp only at hsends hspared hanswered hlength hafter ⊢
      have hresponses : s.result.answered ++ [s.currentResponse] =
          sent.result.rawResponses := by
        rw [← hpending.responses]
        refine hsends.responses.eq_of_length ?_
        rw [hanswered.length_eq, hlength, hpending.responses, List.length_append,
          answered_length hpending, hround]
        rfl
      cases reply with
      | none =>
          refine keptFrom_iff_of_step hpending h.labelled hsends ((Extends.refl sent).stop _)
            hspared hall hround fun hspares => ?_
          exact keptFrom_iff_of_done (hafter hspares).original_eq
            ((hafter hspares).labelled.trans hlength)
      | some reply =>
          have htaken := takeReply_extends env p round reply sent
          obtain ⟨-, hnext, -⟩ := takeReply_spec hanswered hlength reply
          have hkeeps (hspares) := takeReply_keeps (hresponses ▸ hafter hspares) hanswered
            hlength reply
          dsimp only
          generalize takeReply env p round reply sent = pair at *
          obtain ⟨go, next⟩ := pair
          cases go with
          | false =>
              exact keptFrom_iff_of_step hpending h.labelled hsends htaken hspared hall hround
                fun hspares => (hkeeps hspares).2 rfl
          | true =>
              have hlater := htaken.trans (loopRounds_extends env p remaining
                (round + 1) next)
              obtain ⟨hpendingNext, hlengthNext⟩ := hnext rfl
              exact keptFrom_iff_of_step hpending h.labelled hsends hlater hspared hall hround
                fun hspares => ih ((hkeeps hspares).1 rfl) hpendingNext hlengthNext

end

theorem loop_keeps_history_iff (env : LoopEnv ρ) (p : Provider) (maxLoops : Nat)
    (initial : ProviderResponse ρ) (original : ToolRequest ρ) :
    KeepsHistory env p original (runToolLoop env p maxLoops initial original) ↔
      ∀ k label response, (runToolLoop env p maxLoops initial original).2.labels[k]? = some label →
        (runToolLoop env p maxLoops initial original).2.rawResponses[k]? = some response →
          StepSpares env p original
            ((runToolLoop env p maxLoops initial original).2.rawResponses.take k) response
            label := by
  unfold runToolLoop
  dsimp only
  split_ifs with hbail
  · refine iff_of_true ⟨rfl, rfl, fun k request label hrequest => ?_⟩ fun k label _ hlabel => ?_
    · simp at hrequest
    · simp at hlabel
  · obtain ⟨hne, hall⟩ := not_or.mp hbail
    simp only [Bool.not_eq_true', Bool.not_eq_false] at hall
    have hself := List.filter_eq_self.mpr (List.all_eq_true.mp hall)
    generalize hstart : ({
      original := original
      currentResponse := initial
      vcTools := (p.extractToolCalls (env.fresh 0) initial).filter (isVcTool ·.name)
      stopReason := p.getStopReason initial
      result := { text := p.extractText initial, rawResponses := [initial] } } :
        LoopState ρ) = s
    have hpending : Pending env p s := by
      subst hstart
      refine ⟨⟨Nat.zero_le _, fun k request h => ?_, rfl, ?_⟩, rfl, hself, hne,
        fun call hcall => by simpa using (List.mem_filter.mp hcall).2, rfl⟩
      · simp at h
      · simp [ToolLoopResult.answered]
    have hkept : HistoryKept env p original s.result.answered s := by
      subst hstart
      refine ⟨rfl, ?_, .nil, fun _ _ => rfl, rfl⟩
      intro cont hcont
      cases hcont
    have hlabelled := (loopRounds_extends env p maxLoops 0 s).labelled
      hkept.labelled
    have hiff := loopRounds_keptFrom_iff maxLoops hkept hpending (by subst hstart; rfl)
    constructor
    · intro h k label response hlabel hresponse
      exact hiff.mp ⟨h.original_eq, fun k request label _ => h.sent k request label⟩ k label
        response (Nat.zero_le k) hlabel hresponse
    · intro h
      have hfrom := hiff.mpr fun k label response _ => h k label response
      exact ⟨hfrom.original_eq, hlabelled,
        fun k request label => hfrom.sent k request label (Nat.zero_le k)⟩

/-- A conversation with an earlier answer. -/
def chatHistory : ToolRequest String where
  entries :=
    [{ role := some "user", content := .text "What is in the report?".toList },
      { role := some "assistant"
        content := .blocks [.text (some "text") "It lists three risks.".toList []] },
      { role := some "user", content := .text "Which one is the largest?".toList }]

def recallAll : ProviderResponse String where
  content := [.toolUse "toolu_1" "vc_recall_all" "{}"]
  stopReason := "tool_use"

theorem earlier_answer_compressed :
    ¬KeepsHistory silentEnv .anthropic chatHistory
      (runToolLoop silentEnv .anthropic 10 recallAll chatHistory) := by
  intro h
  exact absurd h.original_eq (by decide +kernel)

end VirtualContext
