import VirtualContext.Proxy.StreamContinuation

/-!
# The requests and the blocks of a continuation

Every request of a continuation extends the one before it, and answers each tool that
was called.  The client's blocks are numbered without a gap just when no block was
passed on after one that was held back.
-/

namespace VirtualContext

open VirtualContext.Library

/-! ## Requests -/

/-- The calls in the content of an assistant. -/
def toolUseIds (content : List Json) : List Json :=
  content.filterMap fun block =>
    match block.getDefault "type" .null with
    | some btype => if btype.isStr "tool_use" then block.subscript "id" else none
    | none => none

/-- The calls that results answer. -/
def toolResultIds (toolResults : List Json) : List Json :=
  toolResults.filterMap (·.subscript "tool_use_id")

/-- A request whose messages are those of a body and one more exchange: every call of the
assistant has its result, in the order of the calls. -/
def Answers (toolResults : List Json) (target request : RequestBody) : Prop :=
  ∃ content messages, toolUseIds content = toolResultIds toolResults ∧
    iterated ((target.get "messages").getD (.arr [])) = some messages ∧
    request.get "messages" = some (.arr (messages ++ exchangeMessages (.arr content) toolResults))

/-- Each request answers the calls that followed the one before it, on its messages as the
tools left them. -/
inductive Continues (env : ContinuationEnv) : (round : Nat) → RequestBody → List RequestBody → Prop
  | nil {round : Nat} {last : RequestBody} : Continues env round last []
  | cons {round : Nat} {last request : RequestBody} {requests : List RequestBody}
      (tools : List VcTool)
      (answers : Answers (runTools (env.execute round) tools last).1
        (runTools (env.execute round) tools last).2 request)
      (rest : Continues env (round + 1) request requests) :
      Continues env round last (request :: requests)

/-- The first request starts from what is assembled from the body of the client. -/
def ContinuesBody (env : ContinuationEnv) (tools : List VcTool) (body : RequestBody) :
    List RequestBody → Prop
  | [] => True
  | request :: requests =>
      Answers (runTools (env.execute 0) tools body).1
        ((env.reassembled 0 (runTools (env.execute 0) tools body).2).getD
          (runTools (env.execute 0) tools body).2) request ∧
        Continues env 1 request requests

variable {env : ContinuationEnv} {allContentBlocks : List Json} {s s' s'' : ContinuationState}

theorem toolResultIds_runTools (execute : VcTool → RequestBody → String × RequestBody)
    (tools : List VcTool) (body : RequestBody) :
    toolResultIds (runTools execute tools body).1 = tools.map (·.id) := by
  induction tools generalizing body with
  | nil => rfl
  | cons tool tools ih =>
      rw [runTools, toolResultIds, List.filterMap_cons, ← toolResultIds, ih]
      simp [toolResult, Json.subscript, Json.get]

theorem get_copyKey {original body : RequestBody} {key other : String} (h : key ≠ other) :
    (copyKey original key body).get other = body.get other := by
  rw [copyKey]
  cases original.get key with
  | none => rfl
  | some value =>
      dsimp only
      rw [Entries.get_set, if_neg h]

theorem answers_buildContinuationRequest {original request : RequestBody}
    {content results : List Json} (hids : toolUseIds content = toolResultIds results)
    (h : buildContinuationRequest original (.arr content) results = some request) :
    Answers results original request := by
  simp only [buildContinuationRequest, Option.bind_eq_bind, Option.bind_eq_some_iff] at h
  obtain ⟨messages, hmessages, h⟩ := h
  refine ⟨content, messages, hids, hmessages, ?_⟩
  rw [← Option.some.inj h, get_copyKey (by decide), get_copyKey (by decide)]
  simp [Entries.get]

theorem answers_appendExchange {target contBody request : RequestBody}
    {content results : List Json} (hids : toolUseIds content = toolResultIds results)
    (hget : contBody.get "messages" = target.get "messages")
    (h : appendExchange contBody (.arr content) results = some request) :
    Answers results target request := by
  rw [appendExchange, hget] at h
  split at h
  · next messages hmessages =>
    refine ⟨content, messages, hids, by rw [hmessages]; rfl, ?_⟩
    rw [← Option.some.inj h, Entries.get_set, if_pos rfl]
  · cases h

/-! ## Replies -/

theorem toolUseIds_blocksOfType {blocks toolBlocks : List Json}
    (h : blocksOfType "tool_use" blocks = some toolBlocks) :
    toolUseIds blocks = toolBlocks.filterMap (·.subscript "id") := by
  induction blocks generalizing toolBlocks with
  | nil =>
      obtain rfl := Option.some.inj h
      rfl
  | cons block blocks ih =>
      simp only [blocksOfType, Option.bind_eq_bind, Option.bind_eq_some_iff] at h
      obtain ⟨btype, hbtype, rest, hrest, h⟩ := h
      have hids := ih hrest
      rw [toolUseIds] at hids ⊢
      rw [List.filterMap_cons, hids, ← Option.some.inj h]
      simp only [hbtype]
      split_ifs with htool
      · rw [List.filterMap_cons]
      · rfl

theorem splitCalls_others_nil {blocks vc : List Json} (h : splitCalls blocks = some (vc, [])) :
    vc = blocks := by
  induction blocks generalizing vc with
  | nil => cases h; rfl
  | cons block blocks ih =>
      simp only [splitCalls, Option.bind_eq_bind, Option.bind_eq_some_iff] at h
      obtain ⟨name, -, isVc, -, ⟨vc', others⟩, hrest, h⟩ := h
      cases isVc with
      | true =>
          obtain ⟨rfl, rfl⟩ := Prod.mk.inj (Option.some.inj h)
          rw [ih hrest]
      | false => simp at h

theorem ids_vcCallsOf {blocks : List Json} {calls : List VcTool}
    (h : vcCallsOf blocks = some calls) :
    blocks.filterMap (·.subscript "id") = calls.map (·.id) := by
  induction blocks generalizing calls with
  | nil =>
      obtain rfl := Option.some.inj h
      rfl
  | cons block blocks ih =>
      simp only [vcCallsOf, vcCallOf, Option.bind_eq_bind, Option.bind_eq_some_iff] at h
      obtain ⟨call, ⟨id, hid, name, -, input, -, hcall⟩, rest, hrest, h⟩ := h
      rw [List.filterMap_cons, hid, ih hrest, ← Option.some.inj h, ← Option.some.inj hcall]
      rfl

theorem arr_of_iterated {value : Json} {blocks toolBlocks : List Json} {kind : String}
    (hiterated : iterated value = some blocks) (htools : blocksOfType kind blocks = some toolBlocks)
    (hne : toolBlocks ≠ []) : value = .arr blocks := by
  have hstrings (texts : List String) (h : blocks = texts.map .str) : False := by
    cases texts with
    | nil =>
        rw [h] at htools
        exact hne (Option.some.inj htools).symm
    | cons text texts =>
        rw [h] at htools
        simp [blocksOfType, Json.getDefault] at htools
  cases value with
  | arr elements => rw [Option.some.inj hiterated]
  | obj entries =>
      refine absurd ?_ (hstrings (entries.map (·.1)))
      rw [← Option.some.inj hiterated, List.map_map]
      rfl
  | str text =>
      refine absurd ?_ (hstrings (text.toList.map String.singleton))
      rw [← Option.some.inj hiterated, List.map_map]
      rfl
  | _ => cases hiterated

/-! ## Blocks -/

/-- The block that is written; the end of a message is none. -/
def Emission.block : Emission → Option Nat
  | .text _ blockIndex => some blockIndex
  | .toolUse _ blockIndex => some blockIndex
  | .responsesText _ itemIndex => some itemIndex
  | .responsesToolUse _ itemIndex => some itemIndex
  | .responseDone _ _ => none
  | .messageEnd _ _ => none

/-- Blocks with the numbers from `first` on. -/
def AreBlocks (first : Nat) (emissions : List Emission) : Prop :=
  emissions.map (·.block) = (List.range' first emissions.length).map some

/-- A state and what it is after blocks were written. -/
structure Writes (s s' : ContinuationState) : Prop where
  contBody : s'.contBody = s.contBody
  requests : s'.requests = s.requests
  contData : s'.contData = s.contData
  loopContentBlocks : s'.loopContentBlocks = s.loopContentBlocks
  emitted : ∃ emissions, s'.emitted = s.emitted ++ emissions ∧
    AreBlocks s.forwardedBlockCount emissions ∧
    s'.forwardedBlockCount = s.forwardedBlockCount + emissions.length

theorem AreBlocks.append {first : Nat} {emissions more : List Emission}
    (h : AreBlocks first emissions) (hmore : AreBlocks (first + emissions.length) more) :
    AreBlocks first (emissions ++ more) := by
  rw [AreBlocks, List.map_append, h, hmore, ← List.map_append, List.length_append,
    List.range'_append_1]

theorem Writes.refl (s : ContinuationState) : Writes s s :=
  ⟨rfl, rfl, rfl, rfl, [], (List.append_nil _).symm, rfl, rfl⟩

theorem Writes.trans (h : Writes s s') (h' : Writes s' s'') : Writes s s'' where
  contBody := h'.contBody.trans h.contBody
  requests := h'.requests.trans h.requests
  contData := h'.contData.trans h.contData
  loopContentBlocks := h'.loopContentBlocks.trans h.loopContentBlocks
  emitted := by
    obtain ⟨emissions, hemitted, hblocks, hcount⟩ := h.emitted
    obtain ⟨more, hmore, hblocks', hcount'⟩ := h'.emitted
    rw [hcount] at hblocks' hcount'
    refine ⟨emissions ++ more, ?_, hblocks.append hblocks', ?_⟩
    · rw [hmore, hemitted, List.append_assoc]
    · rw [hcount', List.length_append, Nat.add_assoc]

theorem writes_emitTextBlock (s : ContinuationState) (block : Json) :
    Writes s (emitTextBlock s block).1 := by
  unfold emitTextBlock
  split
  · dsimp only
    split_ifs
    · exact Writes.refl s
    · exact ⟨rfl, rfl, rfl, rfl, [.text _ _], rfl, rfl, rfl⟩
  · exact Writes.refl s
  · exact Writes.refl s

theorem writes_emitTextBlocks (s : ContinuationState) (blocks : List Json) :
    Writes s (emitTextBlocks s blocks).1 := by
  induction blocks generalizing s with
  | nil => exact Writes.refl s
  | cons block blocks ih =>
      rw [emitTextBlocks]
      have hblock := writes_emitTextBlock s block
      generalize emitTextBlock s block = result at hblock ⊢
      rcases result with ⟨t, _ | _⟩
      · exact hblock
      · exact hblock.trans (ih t)

theorem writes_emitToolUses (s : ContinuationState) (blocks : List Json) :
    Writes s (emitToolUses s blocks) := by
  induction blocks generalizing s with
  | nil => exact Writes.refl s
  | cons block blocks ih =>
      rw [emitToolUses, List.foldl_cons, ← emitToolUses]
      refine Writes.trans ?_ (ih _)
      exact ⟨rfl, rfl, rfl, rfl, [.toolUse _ _], rfl, rfl, rfl⟩

/-- The last that was written is a call of one of the client's tools. -/
def LastIsCall (s : ContinuationState) : Prop :=
  ∃ tool blockIndex, s.emitted.getLast? = some (.toolUse tool blockIndex)

/-- The client is told that its tools are called. -/
def EndsForTool (contData : Option Json) : Prop :=
  ∃ usage, endingOf contData = some ("tool_use", usage)

theorem lastIsCall_emitToolUses {blocks : List Json} (h : blocks ≠ []) (s : ContinuationState) :
    LastIsCall (emitToolUses s blocks) := by
  obtain ⟨earlier, block, rfl⟩ := (List.eq_nil_or_concat blocks).resolve_left h
  rw [emitToolUses, List.concat_eq_append, List.foldl_append, List.foldl_cons, List.foldl_nil]
  exact ⟨_, _, List.getLast?_concat ..⟩

theorem others_of_anyItem {blocks tools vc nonVc : List Json}
    (htools : blocksOfType "tool_use" blocks = some tools)
    (hsplit : splitCalls tools = some (vc, nonVc))
    (hany : anyItem callsOtherTool blocks = some true) : nonVc ≠ [] := by
  induction blocks generalizing tools vc nonVc with
  | nil => cases hany
  | cons block blocks ih =>
      simp only [blocksOfType, Option.bind_eq_bind, Option.bind_eq_some_iff] at htools
      obtain ⟨btype, hbtype, rest, hrest, htools⟩ := htools
      simp only [anyItem, callsOtherTool, hbtype, Option.bind_eq_bind, Option.bind_some] at hany
      split_ifs at htools hany with htool
      · obtain rfl := Option.some.inj htools
        simp only [splitCalls, Option.bind_eq_bind, Option.bind_eq_some_iff] at hsplit
        obtain ⟨name, hname, isVc, hisVc, ⟨vc', others⟩, hothers, hsplit⟩ := hsplit
        cases isVc with
        | false =>
            obtain ⟨-, rfl⟩ := Prod.mk.inj (Option.some.inj hsplit)
            exact List.cons_ne_nil _ _
        | true =>
            obtain ⟨-, rfl⟩ := Prod.mk.inj (Option.some.inj hsplit)
            simp only [hname, hisVc, Option.bind_some, Bool.not_true, Bool.false_eq_true,
              if_false] at hany
            exact ih hrest hothers hany
      · obtain rfl := Option.some.inj htools
        exact ih hrest hsplit (by simpa using hany)

theorem others_of_endsForTool {data : Json} {parts : ReplyParts}
    (hparts : replyParts data = some parts) (h : EndsForTool (some data)) : parts.nonVc ≠ [] := by
  simp only [replyParts, Option.bind_eq_bind, Option.bind_eq_some_iff] at hparts
  obtain ⟨stopReason, -, content, hcontent, blocks, hblocks, texts, -, tools, htools,
    ⟨vcNext, nonVc⟩, hsplit, hparts⟩ := hparts
  obtain rfl := Option.some.inj hparts
  obtain ⟨usage, h⟩ := h
  rw [endingOf] at h
  split_ifs at h
  · simp only [hcontent, hblocks, Option.bind_eq_bind, Option.bind_some,
      Option.bind_eq_some_iff] at h
    obtain ⟨_, -, rawStop, -, others, hany, h⟩ := h
    cases others with
    | true => exact others_of_anyItem htools hsplit hany
    | false => simp at h
  · simp at h

/-- A reply writes blocks.  It leaves calls to answer if it asks for another round; if it is the
last one and says that other tools are called, then it wrote such a call. -/
theorem takeContinuation_cases {data : Json} {roundEnd : RoundEnd}
    (h : takeContinuation s data = (s', roundEnd)) :
    ∃ content, Writes { s with contData := some data, loopContentBlocks := content } s' ∧
      match roundEnd with
      | .again => ¬ EndsForTool (some data) ∧ ∃ blocks, content = .arr blocks ∧
          toolUseIds blocks = s'.vcTools.map (·.id)
      | .done => EndsForTool (some data) → LastIsCall s'
      | .raised => True := by
  rw [takeContinuation] at h
  dsimp only at h
  cases hparts : replyParts data with
  | none =>
      rw [hparts] at h
      obtain ⟨rfl, rfl⟩ := Prod.mk.inj h
      exact ⟨s.loopContentBlocks, Writes.refl _, trivial⟩
  | some parts =>
      rw [hparts] at h
      have hwrites := writes_emitTextBlocks
        { s with contData := some data, loopContentBlocks := parts.content } parts.textBlocks
      have hothers := others_of_endsForTool hparts
      dsimp only at h
      refine ⟨parts.content, ?_⟩
      cases hemit : emitTextBlocks
        { s with contData := some data, loopContentBlocks := parts.content } parts.textBlocks with
      | mk t ok =>
          rw [hemit] at h hwrites
          cases ok with
          | false =>
              obtain ⟨rfl, rfl⟩ := Prod.mk.inj h
              exact ⟨hwrites, trivial⟩
          | true =>
              dsimp only at h
              rcases ite_eq_iff.mp h with ⟨⟨-, hvc, hnil⟩, h⟩ | ⟨-, h⟩
              · cases hcalls : vcCallsOf parts.vcNext with
                | none =>
                    rw [hcalls] at h
                    obtain ⟨rfl, rfl⟩ := Prod.mk.inj h
                    exact ⟨hwrites, trivial⟩
                | some calls =>
                    rw [hcalls] at h
                    obtain ⟨rfl, rfl⟩ := Prod.mk.inj h
                    refine ⟨⟨hwrites.1, hwrites.2, hwrites.3, hwrites.4, hwrites.5⟩,
                      fun hends => hothers hends hnil, ?_⟩
                    simp only [replyParts, Option.bind_eq_bind, Option.bind_eq_some_iff] at hparts
                    obtain ⟨stopReason, -, content, -, blocks, hblocks, texts, -, tools, htools,
                      ⟨vcNext, nonVc⟩, hsplit, hparts⟩ := hparts
                    obtain rfl := Option.some.inj hparts
                    obtain rfl : nonVc = [] := hnil
                    obtain rfl := splitCalls_others_nil hsplit
                    refine ⟨blocks, arr_of_iterated hblocks htools hvc, ?_⟩
                    exact (toolUseIds_blocksOfType htools).trans (ids_vcCallsOf hcalls)
              · obtain ⟨rfl, rfl⟩ := Prod.mk.inj h
                exact ⟨hwrites.trans (writes_emitToolUses t parts.nonVc),
                  fun hends => lastIsCall_emitToolUses (hothers hends) t⟩

/-! ## Rounds -/

/-- The state when a request is sent. -/
def ContinuationState.sends (s : ContinuationState) (request body : RequestBody) :
    ContinuationState :=
  { s with body, contBody := some request, requests := s.requests ++ [request] }

/-- A round sends its request and writes what is answered; then it ends the continuation, or
leaves more calls to answer. -/
theorem continuationRounds_succ {round : Nat} {request body : RequestBody}
    (h : continuationRequest env allContentBlocks round s = (some request, body)) (fuel : Nat) :
    ∃ contData content t,
      Writes { s.sends request body with contData, loopContentBlocks := content } t ∧
      (((continuationRounds env allContentBlocks (fuel + 1) round s).1 = t ∧
        ((continuationRounds env allContentBlocks (fuel + 1) round s).2 = true →
          ¬ EndsForTool s.contData → EndsForTool contData → LastIsCall t)) ∨
        continuationRounds env allContentBlocks (fuel + 1) round s =
            continuationRounds env allContentBlocks fuel (round + 1) t ∧
          ¬ EndsForTool contData ∧
          ∃ blocks, content = .arr blocks ∧ toolUseIds blocks = t.vcTools.map (·.id)) := by
  rw [continuationRounds, h]
  dsimp only
  split_ifs
  · exact ⟨s.contData, s.loopContentBlocks, _, Writes.refl _,
      Or.inl ⟨rfl, fun _ hnot hends => absurd hends hnot⟩⟩
  · cases htake : takeContinuation (s.sends request body) (env.reply round request).2 with
    | mk t roundEnd =>
        obtain ⟨content, hwrites, hend⟩ := takeContinuation_cases htake
        rw [ContinuationState.sends] at htake
        rw [htake]
        refine ⟨_, content, t, hwrites, ?_⟩
        cases roundEnd with
        | again => exact Or.inr ⟨rfl, hend⟩
        | done => exact Or.inl ⟨rfl, fun _ _ => hend⟩
        | raised => exact Or.inl ⟨rfl, nofun⟩

theorem rounds_continue {fuel round : Nat} {last : RequestBody} {content : List Json}
    (hbody : s.contBody = some last) (hcontent : s.loopContentBlocks = .arr content)
    (hids : toolUseIds content = s.vcTools.map (·.id)) :
    ∃ more, (continuationRounds env allContentBlocks fuel round s).1.requests =
        s.requests ++ more ∧ more.length ≤ fuel ∧ Continues env round last more := by
  induction fuel generalizing round s last content with
  | zero => exact ⟨[], (List.append_nil _).symm, Nat.le_refl 0, .nil⟩
  | succ fuel ih =>
      cases hrequest : continuationRequest env allContentBlocks round s with
      | mk made body =>
          cases made with
          | none =>
              refine ⟨[], ?_, Nat.zero_le _, .nil⟩
              rw [continuationRounds, hrequest, List.append_nil]
          | some request =>
              have hanswers : Answers (runTools (env.execute round) s.vcTools last).1
                  (runTools (env.execute round) s.vcTools last).2 request := by
                simp only [continuationRequest, hbody, hcontent, Prod.mk.injEq] at hrequest
                refine answers_appendExchange
                  (hids.trans (toolResultIds_runTools _ _ _).symm) ?_ hrequest.1
                cases env.reassembled round s.body with
                | none => rfl
                | some reassembled => exact get_copyKey (by decide)
              obtain ⟨data, reply, t, hwrites, ⟨hdone, -⟩ | ⟨hrounds, -, blocks, rfl, hcalls⟩⟩ :=
                continuationRounds_succ hrequest fuel
              · exact ⟨[request], (congrArg _ hdone).trans hwrites.requests, by simp,
                  .cons s.vcTools hanswers .nil⟩
              · obtain ⟨more, hmore, hlength, hcontinues⟩ :=
                  ih hwrites.contBody hwrites.loopContentBlocks hcalls
                refine ⟨request :: more, ?_, by simpa using hlength,
                  .cons s.vcTools hanswers hcontinues⟩
                rw [hrounds, hmore, hwrites.requests, ContinuationState.sends, List.append_assoc,
                  List.singleton_append]

theorem rounds_continue_body (env : ContinuationEnv) (fuel : Nat) (hbody : s.contBody = none)
    (hrequests : s.requests = []) (hids : toolUseIds allContentBlocks = s.vcTools.map (·.id)) :
    (continuationRounds env allContentBlocks fuel 0 s).1.requests.length ≤ fuel ∧
      ContinuesBody env s.vcTools s.body
        (continuationRounds env allContentBlocks fuel 0 s).1.requests := by
  cases fuel with
  | zero => rw [continuationRounds, hrequests]; exact ⟨Nat.le_refl 0, trivial⟩
  | succ fuel =>
      cases hrequest : continuationRequest env allContentBlocks 0 s with
      | mk made body =>
          cases made with
          | none =>
              rw [continuationRounds, hrequest]
              dsimp only
              rw [hrequests]
              exact ⟨Nat.zero_le _, trivial⟩
          | some request =>
              have hanswers : Answers (runTools (env.execute 0) s.vcTools s.body).1
                  ((env.reassembled 0 (runTools (env.execute 0) s.vcTools s.body).2).getD
                    (runTools (env.execute 0) s.vcTools s.body).2) request := by
                simp only [continuationRequest, hbody, Prod.mk.injEq] at hrequest
                exact answers_buildContinuationRequest
                  (hids.trans (toolResultIds_runTools _ _ _).symm) hrequest.1
              obtain ⟨data, reply, t, hwrites, ⟨hdone, -⟩ | ⟨hrounds, -, blocks, rfl, hcalls⟩⟩ :=
                continuationRounds_succ hrequest fuel
              · rw [hdone, hwrites.requests, ContinuationState.sends, hrequests]
                exact ⟨by simp, hanswers, .nil⟩
              · obtain ⟨more, hmore, hlength, hcontinues⟩ :=
                  rounds_continue hwrites.contBody hwrites.loopContentBlocks hcalls
                rw [hrounds, hmore, hwrites.requests, ContinuationState.sends, hrequests]
                exact ⟨by simpa using hlength, hanswers, hcontinues⟩

/-- All that a continuation has written are blocks, numbered from `first` on. -/
structure NumberedFrom (first : Nat) (s : ContinuationState) : Prop where
  blocks : AreBlocks first s.emitted
  count : s.forwardedBlockCount = first + s.emitted.length

theorem NumberedFrom.writes {first : Nat} (h : NumberedFrom first s) (hwrites : Writes s s') :
    NumberedFrom first s' := by
  obtain ⟨emissions, hemitted, hblocks, hcount⟩ := hwrites.emitted
  rw [h.count] at hblocks hcount
  exact ⟨hemitted ▸ h.blocks.append hblocks, by
    rw [hcount, hemitted, List.length_append, Nat.add_assoc]⟩

/-- The rounds only write blocks, and if nothing is raised and the client is told that its tools
are called, then the last block is such a call. -/
theorem NumberedFrom.rounds {first : Nat} (h : NumberedFrom first s) (env : ContinuationEnv)
    (allContentBlocks : List Json) (fuel round : Nat) (hends : ¬ EndsForTool s.contData) :
    NumberedFrom first (continuationRounds env allContentBlocks fuel round s).1 ∧
      ((continuationRounds env allContentBlocks fuel round s).2 = true →
        EndsForTool (continuationRounds env allContentBlocks fuel round s).1.contData →
          LastIsCall (continuationRounds env allContentBlocks fuel round s).1) := by
  induction fuel generalizing round s with
  | zero => exact ⟨h, fun _ htool => absurd htool hends⟩
  | succ fuel ih =>
      cases hrequest : continuationRequest env allContentBlocks round s with
      | mk made body =>
          cases made with
          | none =>
              rw [continuationRounds, hrequest]
              exact ⟨⟨h.blocks, h.count⟩, nofun⟩
          | some request =>
              obtain ⟨data, reply, t, hwrites, hend⟩ := continuationRounds_succ hrequest fuel
              have hsends : NumberedFrom first { s.sends request body with
                  contData := data, loopContentBlocks := reply } := ⟨h.blocks, h.count⟩
              have ht := hsends.writes hwrites
              have hdata : t.contData = data := hwrites.contData
              rcases hend with ⟨hdone, hlast⟩ | ⟨hrounds, hnot, -⟩
              · rw [hdone]
                exact ⟨ht, fun hok htool => hlast hok hends (hdata ▸ htool)⟩
              · rw [hrounds]
                exact ih ht _ (hdata ▸ hnot)

theorem toolUseIds_append (content more : List Json) :
    toolUseIds (content ++ more) = toolUseIds content ++ toolUseIds more :=
  List.filterMap_append

/-- What a continuation is told of a message calls what its tools answer. -/
theorem toolUseIds_content (senv : StreamEnv) (blocks : List BlockEvents) :
    toolUseIds (blocks.flatMap (·.content senv)) =
      (blocks.filterMap (·.vcCall senv)).map (·.id) := by
  induction blocks with
  | nil => rfl
  | cons block blocks ih =>
      have hblock : toolUseIds (block.content senv) = (block.vcCall senv).toList.map (·.id) := by
        rw [BlockEvents.content]
        cases block.vcCall senv with
        | some call => rfl
        | none =>
            dsimp only
            split_ifs <;> rfl
      rw [List.flatMap_cons, toolUseIds_append, hblock, ih, List.filterMap_cons]
      cases block.vcCall senv <;> rfl

theorem continueStream_requests (env : ContinuationEnv) (body : RequestBody) (s : StreamState) :
    (continueStream env body s).1.requests =
      if s.needContinuation ∧ s.vcTools ≠ [] then
        (continuationRounds env s.allContentBlocks maxContinuationLoops 0
          (ContinuationState.start body s)).1.requests
      else [] := by
  rw [continueStream]
  split_ifs
  · cases hrounds : continuationRounds env s.allContentBlocks maxContinuationLoops 0
      (ContinuationState.start body s) with
    | mk t ok =>
        cases ok with
        | false => rfl
        | true =>
            dsimp only
            cases endingOf t.contData <;> rfl
  · rfl

theorem needsContinuation_iff (senv : StreamEnv) (message : StreamMessage) :
    ((message.finalState senv).needContinuation ∧ (message.finalState senv).vcTools ≠ []) ↔
      message.CallsProxy senv ∧ message.otherCalls = [] := by
  constructor
  · exact fun h => of_decide_eq_true h.1
  · intro h
    refine ⟨decide_eq_true h, ?_⟩
    rw [StreamMessage.finalState, if_neg (fun hboth => hboth.2 h.2)]
    exact h.1.2

/-- After a message there are at most five requests, and each answers every call of the message
before it, in order; there are none unless the message only called the proxy's tools. -/
theorem continuation_answers (env : ContinuationEnv) (senv : StreamEnv) (message : StreamMessage)
    (body : RequestBody) :
    (continueStream env body (message.finalState senv)).1.requests.length ≤ maxContinuationLoops ∧
      ContinuesBody env (message.vcCalls senv) body
        (continueStream env body (message.finalState senv)).1.requests ∧
      (¬ (message.CallsProxy senv ∧ message.otherCalls = []) →
        (continueStream env body (message.finalState senv)).1.requests = []) := by
  rw [continueStream_requests]
  by_cases h : message.CallsProxy senv ∧ message.otherCalls = []
  · have hvc : (message.finalState senv).vcTools = message.vcCalls senv := by
      simp [StreamMessage.finalState, h.2]
    rw [if_pos ((needsContinuation_iff senv message).mpr h)]
    have hrounds := rounds_continue_body env maxContinuationLoops
      (s := .start body (message.finalState senv)) rfl rfl
      ((toolUseIds_content senv message.blocks).trans (congrArg _ hvc.symm))
    exact ⟨hrounds.1, hvc ▸ hrounds.2, fun hnot => absurd h hnot⟩
  · rw [if_neg (mt (needsContinuation_iff senv message).mp h)]
    exact ⟨Nat.zero_le _, trivial, fun _ => rfl⟩

/-! ## What the client receives -/

/-- The places of the blocks that the client receives from the stream. -/
def StreamMessage.shownPlaces (message : StreamMessage) : List Nat :=
  (message.blocks.zipIdx.filter (!·.1.head.isVc)).map (·.2)

/-- Places from `k` on have no gap just when no block follows one that is held back. -/
theorem shownPlaces_from (blocks : List BlockEvents) (k : Nat) :
    ((blocks.zipIdx k).filter (!·.1.head.isVc)).map (·.2) =
        List.range' k (blocks.countP (!·.head.isVc)) ↔
      blocks.Pairwise fun earlier later => earlier.head.isVc → later.head.isVc := by
  induction blocks generalizing k with
  | nil => simp
  | cons block blocks ih =>
      rw [List.zipIdx_cons, List.filter_cons, List.countP_cons, List.pairwise_cons, ← ih (k + 1)]
      cases hvc : block.head.isVc with
      | false => simp [List.range'_succ]
      | true =>
          simp only [Bool.not_true, Bool.false_eq_true, if_false, Nat.add_zero, forall_const]
          have hzero : blocks.countP (!·.head.isVc) = 0 ↔
              ∀ later ∈ blocks, later.head.isVc = true := by
            simp [List.countP_eq_zero]
          rw [← hzero]
          constructor
          · intro h
            cases hcount : blocks.countP (!·.head.isVc) with
            | zero => exact ⟨rfl, by rw [h, hcount]; rfl⟩
            | succ n =>
                -- the place `k` of the block that is held back would be one that is shown
                have hk : k ∈ List.range' k (blocks.countP (!·.head.isVc)) := by
                  rw [hcount, List.range'_succ]
                  exact List.mem_cons_self
                rw [← h] at hk
                obtain ⟨⟨later, i⟩, hmem, rfl⟩ := List.mem_map.mp hk
                have hle := List.le_snd_of_mem_zipIdx (List.mem_filter.mp hmem).1
                exact absurd hle (Nat.not_succ_le_self _)
          · rintro ⟨hcount, h⟩
            rw [h, hcount]
            rfl

/-- A continuation writes blocks, and then one end of the message unless it was broken off. -/
theorem continueStream_emitted (env : ContinuationEnv) (body : RequestBody) (s : StreamState)
    (h : s.needContinuation ∧ s.vcTools ≠ []) :
    ∃ blocks, AreBlocks s.forwardedBlockCount blocks ∧
      ((continueStream env body s).2 = true ∧ (∃ stopReason usage,
          (continueStream env body s).1.emitted = blocks ++ [.messageEnd stopReason usage] ∧
          (stopReason = "tool_use" → ∃ tool i, blocks.getLast? = some (.toolUse tool i))) ∨
        (continueStream env body s).2 = false ∧
          (continueStream env body s).1.emitted = blocks) := by
  have hstart : NumberedFrom s.forwardedBlockCount (.start body s) := ⟨rfl, rfl⟩
  have hnot : ¬ EndsForTool (ContinuationState.start body s).contData := by
    rintro ⟨usage, hends⟩
    simp [ContinuationState.start, endingOf] at hends
  obtain ⟨hnumbered, hlast⟩ :=
    hstart.rounds env s.allContentBlocks maxContinuationLoops 0 hnot
  rw [continueStream, if_pos h]
  cases hend : continuationRounds env s.allContentBlocks maxContinuationLoops 0
    (.start body s) with
  | mk t ok =>
      rw [hend] at hnumbered hlast
      refine ⟨t.emitted, hnumbered.blocks, ?_⟩
      cases ok with
      | false => exact Or.inr ⟨rfl, rfl⟩
      | true =>
          dsimp only at hlast ⊢
          cases hending : endingOf t.contData with
          | none => exact Or.inr ⟨rfl, rfl⟩
          | some ending =>
              refine Or.inl ⟨rfl, ending.1, ending.2, rfl, fun htool => hlast rfl ⟨ending.2, ?_⟩⟩
              rw [hending, ← htool]

theorem length_shownPlaces (senv : StreamEnv) (message : StreamMessage) :
    message.shownPlaces.length = (message.finalState senv).forwardedBlockCount := by
  have hfst : message.blocks.zipIdx.map (·.1) = message.blocks := List.zipIdx_map_fst 0 _
  rw [StreamMessage.shownPlaces, List.length_map, ← List.countP_eq_length_filter]
  conv_rhs => rw [StreamMessage.finalState, ← hfst, List.countP_map]
  rfl

theorem AreBlocks.filterMap {first : Nat} {blocks : List Emission} (h : AreBlocks first blocks) :
    blocks.filterMap (·.block) = List.range' first blocks.length := by
  have hmap : blocks.filterMap (·.block) = (blocks.map (·.block)).filterMap id := by
    rw [List.filterMap_map]
    rfl
  rw [hmap, h, List.filterMap_map]
  exact List.filterMap_some

/-- The places of all blocks that the client receives. -/
def clientPlaces (env : ContinuationEnv) (senv : StreamEnv) (message : StreamMessage)
    (body : RequestBody) : List Nat :=
  message.shownPlaces ++
    (continueStream env body (message.finalState senv)).1.emitted.filterMap (·.block)

theorem places_continueStream (env : ContinuationEnv) (body : RequestBody) (s : StreamState) :
    ∃ n, (continueStream env body s).1.emitted.filterMap (·.block) =
      List.range' s.forwardedBlockCount n := by
  by_cases h : s.needContinuation ∧ s.vcTools ≠ []
  · obtain ⟨blocks, hblocks, ⟨-, _, _, hemitted, -⟩ | ⟨-, hemitted⟩⟩ :=
      continueStream_emitted env body s h
    · refine ⟨blocks.length, ?_⟩
      rw [hemitted, List.filterMap_append, hblocks.filterMap]
      simp [Emission.block]
    · exact ⟨blocks.length, by rw [hemitted, hblocks.filterMap]⟩
  · exact ⟨0, by rw [continueStream, if_neg h]; rfl⟩

end VirtualContext
