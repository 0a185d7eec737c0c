import VirtualContext.Proxy.FilteredMessages

/-!
# When the filter keeps what it must

Pinned messages, the two ends of a tool call and the number of dropped chains:
each is right exactly when the alternation of the roles lets some messages stand.
-/

namespace VirtualContext

open VirtualContext.Library

variable {ρ : Type}

/-! ## Small bodies -/

def textMessage (role text : String) : PayloadMessage String :=
  { role := some role, content := .other text, rest := "" }

/-- An answer that is one tool call. -/
def callMessage (id : String) : PayloadMessage String :=
  { role := some "assistant"
    content := .elements [.block { type := some "tool_use", id := some id, rest := "" }]
    rest := "" }

def resultMessage (id : String) : PayloadMessage String :=
  { role := some "user"
    content := .elements
      [.block { type := some "tool_result", toolUseId := some id, rest := "" }]
    rest := "" }

def bareItem (type : String) : PayloadMessage String :=
  { role := none, type := some type, content := .other "", rest := "" }

/-- One turn is compacted and one is recent; there is an entry for the first. -/
def pagedArgs (format : ApiFormat) : FilterArgs where
  format := format
  turnTagIndex := TurnTagIndex.empty.append
    { turnNumber := 0
      tags := ["auth"]
      timestamp := newYear }
  matchedTags := []
  recentTurns := 1
  compactedTurn := 1

/-- The user writes twice before an answer. -/
def secondThought : List (PayloadMessage String) :=
  [textMessage "user" "set up auth", textMessage "assistant" "done",
    textMessage "user" "and tests", textMessage "assistant" "done",
    textMessage "user" "wait", textMessage "user" "use pytest"]

/-- A user message comes between a tool call and its result. -/
def lateResult : List (PayloadMessage String) :=
  [textMessage "user" "set up auth", textMessage "assistant" "done",
    textMessage "user" "and tests", callMessage "call_1",
    textMessage "user" "wait", resultMessage "call_1"]

/-- The result follows its call. -/
def promptResult : List (PayloadMessage String) :=
  [textMessage "user" "set up auth", textMessage "assistant" "done",
    textMessage "user" "and tests", callMessage "call_1", resultMessage "call_1"]

/-- A user message is answered by a bare tool call. -/
def bareRound : List (PayloadMessage String) :=
  [textMessage "user" "set up auth", textMessage "assistant" "done",
    textMessage "user" "and tests", bareItem "function_call",
    bareItem "function_call_output", textMessage "assistant" "done",
    textMessage "user" "run them", textMessage "assistant" "done",
    textMessage "user" "thanks"]

/-- The user message is answered at once. -/
def plainTurns : List (PayloadMessage String) :=
  [textMessage "user" "set up auth", textMessage "assistant" "done",
    textMessage "user" "and tests", textMessage "assistant" "done",
    textMessage "user" "thanks"]

/-! ## Pinned messages -/

/-- The leading system messages, the trailing user message and the recent chains. -/
def Pinned (args : FilterArgs) (messages : List (PayloadMessage ρ)) (position : Nat) :
    Prop :=
  position < leadingSystem messages ∨
    ((trailingUser messages).isSome ∧ position + 1 = messages.length) ∨
    ∃ chain ∈ (bodyChains args messages).drop
        ((bodyChains args messages).length - args.recentTurns.toNat),
      ∃ index ∈ chain, position = leadingSystem messages + index

/-- The messages that are returned are some of the body, in its order and perhaps
without their thinking, with every pinned one. -/
structure KeepsPinned (args : FilterArgs) (messages : List (PayloadMessage ρ)) : Prop where
  returned : (returnedSlots args messages).map (·.message) =
    (filterBodyMessages args messages).1
  ordered : (returnedSlots args messages).Pairwise fun slot later =>
    slot.position < later.position
  ofBody : ∀ slot ∈ returnedSlots args messages, ∃ original,
    messages[slot.position]? = some original ∧
      (slot.message = original ∨ slot.message = original.stripThinking)
  pinned : ∀ position, Pinned args messages position →
    ∃ slot ∈ returnedSlots args messages, slot.position = position
  trailing : (trailingUser messages).isSome →
    (returnedSlots args messages).getLast?.map (·.position) = some (messages.length - 1)

/-- Where a body is replaced, no pinned message among the kept ones gives way to
its neighbours. -/
def PinnedStand (args : FilterArgs) (messages : List (PayloadMessage ρ)) : Prop :=
  ∀ selection, selectMessages args messages = some selection → selection.Sends →
    ∀ before slot after, selection.kept = before ++ slot :: after →
      Pinned args messages slot.position →
        stands FilterSlot.role FilterSlot.critical before.getLast? slot after

variable {args : FilterArgs} {messages : List (PayloadMessage ρ)}

theorem lt_length_of_pinned {position : Nat} (h : Pinned args messages position) :
    position < messages.length := by
  have hlength := congrArg List.length (body_parts messages)
  rw [List.length_append, List.length_append] at hlength
  change leadingSystem messages + _ + _ = _ at hlength
  rcases h with hsystem | ⟨-, htrailing⟩ | ⟨chain, hchain, index, hindex, rfl⟩
  · omega
  · omega
  · have hordered := groupChains_ordered args.format.assistantRole
      (bodyHistory messages).length 0 (bodyHistory messages)
    have hlt := (hordered.within chain (List.mem_of_mem_drop hchain) index hindex).2
    omega

/-- In increasing order, the largest of all comes last. -/
theorem getLast?_position {slots : List (FilterSlot ρ)} {top : Nat}
    (hordered : slots.Pairwise fun slot later => slot.position < later.position)
    (hmem : ∃ slot ∈ slots, slot.position = top)
    (hle : ∀ slot ∈ slots, slot.position ≤ top) :
    slots.getLast?.map (·.position) = some top := by
  obtain ⟨slot, hslot, rfl⟩ := hmem
  obtain ⟨before, after, rfl⟩ := List.append_of_mem hslot
  cases after with
  | nil => simp
  | cons next after =>
      have hlast := List.pairwise_append.mp hordered
      have hlt := List.rel_of_pairwise_cons hlast.2.1 (List.mem_cons_self (a := next))
      have hbound := hle next (by simp)
      omega

/-- What is pinned is kept, whatever the tags say. -/
theorem kept_of_pinned {selection : FilterSelection ρ}
    (hselect : selectMessages args messages = some selection) {position : Nat}
    (h : Pinned args messages position) : ∃ slot ∈ selection.kept, slot.position = position := by
  have hfrom := selectedFrom hselect
  have hgrouped := hfrom.grouped
  rw [selection.exists_kept_iff (FilterSelection.keep_closed hgrouped).1.within]
  have hsystem : selection.system.length = leadingSystem messages := by
    rw [hfrom.system, leadingSystem]
  have hlength := congrArg List.length (selection.body_eq_of_selectedFrom hfrom)
  rw [FilterSelection.body, List.length_append, List.length_append] at hlength
  rcases h with hlt | ⟨htrailing, hlast⟩ | ⟨chain, hchain, index, hindex, rfl⟩
  · exact .inl (hsystem ▸ hlt)
  · rw [← hfrom.current] at htrailing
    obtain ⟨message, hmessage⟩ := Option.isSome_iff_exists.mp htrailing
    rw [hmessage] at hlength
    simp only [Option.toList_some, List.length_cons, List.length_nil] at hlength
    exact .inr (.inr ⟨htrailing, by omega⟩)
  · have hlimit : args.recentTurns.toNat ≤ args.recentLimit.toNat := by
      unfold FilterArgs.recentLimit
      split_ifs <;> omega
    have hrecent : chain ∈ selection.keptChains := by
      refine hfrom.recent ?_
      rw [hfrom.chains]
      refine (List.drop_sublist_drop_left _ ?_).subset hchain
      omega
    exact .inr (.inl ⟨index, FilterSelection.keep_of_keptChains hgrouped hrecent hindex,
      by rw [hsystem]⟩)

/-- Each identifier is in one message at most. -/
def OneEach (ids : PayloadMessage ρ → List String) (messages : List (PayloadMessage ρ)) :
    Prop :=
  messages.Pairwise fun msg later => ∀ id ∈ ids msg, id ∉ ids later

instance (ids : PayloadMessage ρ → List String) (messages : List (PayloadMessage ρ)) :
    Decidable (OneEach ids messages) := by
  unfold OneEach
  infer_instance

/-- The places of a tool call and of its result. -/
structure ToolPair (messages : List (PayloadMessage ρ)) (id : String) (use result : Nat) :
    Prop where
  use : ∃ msg, messages[use]? = some msg ∧ id ∈ msg.toolUses
  result : ∃ msg, messages[result]? = some msg ∧ id ∈ msg.toolResults

/-- Of a tool call and its result, both are returned or neither. -/
structure KeepsPairs (args : FilterArgs) (messages : List (PayloadMessage ρ)) : Prop where
  returned : (returnedSlots args messages).map (·.message) =
    (filterBodyMessages args messages).1
  pairs : ∀ id use result, ToolPair messages id use result →
    ((∃ slot ∈ returnedSlots args messages, slot.position = use) ↔
      ∃ slot ∈ returnedSlots args messages, slot.position = result)

def InHistory (messages : List (PayloadMessage ρ)) (position : Nat) : Prop :=
  leadingSystem messages ≤ position ∧
    position < leadingSystem messages + (bodyHistory messages).length

/-- Where a body is replaced and an end of a tool call is the trailing user message
or a leading system message, the result stands if the call does. -/
def PairsStand (args : FilterArgs) (messages : List (PayloadMessage ρ)) : Prop :=
  ∀ selection, selectMessages args messages = some selection → selection.Sends →
    ∀ id use result, ToolPair messages id use result →
      ¬(InHistory messages use ∧ InHistory messages result) →
        selection.StandsAt use → selection.StandsAt result

theorem eq_of_oneEach {ids : PayloadMessage ρ → List String} (h : OneEach ids messages)
    {i j : Nat} {msg other : PayloadMessage ρ} {id : String}
    (hi : messages[i]? = some msg) (hj : messages[j]? = some other)
    (hid : id ∈ ids msg) (hid' : id ∈ ids other) : i = j := by
  obtain ⟨hltI, rfl⟩ := List.getElem?_eq_some_iff.mp hi
  obtain ⟨hltJ, rfl⟩ := List.getElem?_eq_some_iff.mp hj
  have hpairs := List.pairwise_iff_getElem.mp h
  rcases Nat.lt_trichotomy i j with hlt | heq | hlt
  · exact absurd hid' (hpairs i j hltI hltJ hlt id hid)
  · exact heq
  · exact absurd hid (hpairs j i hltJ hltI hlt id hid')

section

variable {selection : FilterSelection ρ} {id : String} {use result : Nat}

/-- The message of a place in the history. -/
theorem getElem?_history (hfrom : SelectedFrom args messages selection) {index : Nat}
    (hindex : index < selection.history.length) :
    messages[selection.system.length + index]? = selection.history[index]? := by
  rw [← selection.body_eq_of_selectedFrom hfrom, FilterSelection.body,
    List.getElem?_append_left (by rw [List.length_append]; omega),
    List.getElem?_append_right (Nat.le_add_right _ _), Nat.add_sub_cancel_left]

theorem get_toolMap_of_oneEach {ids : PayloadMessage ρ → List String}
    (hfrom : SelectedFrom args messages selection) (hone : OneEach ids messages)
    {index : Nat} (hindex : index < selection.history.length)
    {msg : PayloadMessage ρ}
    (hget : messages[selection.system.length + index]? = some msg) (hid : id ∈ ids msg) :
    (toolMap ids selection.history).get id = some index := by
  have hget' := hget
  rw [getElem?_history hfrom hindex] at hget'
  refine get_toolMap hget' hid fun i other hother hmem => ?_
  have hlt := (List.getElem?_eq_some_iff.mp hother).1
  rw [← getElem?_history hfrom hlt] at hother
  exact Nat.add_left_cancel (eq_of_oneEach hone hother hget hmem hid)

/-- In the history, a call that is kept keeps its result, and both stand. -/
theorem standsAt_of_history (hselect : selectMessages args messages = some selection)
    (huses : OneEach PayloadMessage.toolUses messages)
    (hresults : OneEach PayloadMessage.toolResults messages)
    (hpair : ToolPair messages id use result) (huse : InHistory messages use)
    (hresult : InHistory messages result) (h : selection.StandsAt use) :
    selection.StandsAt result := by
  have hfrom := selectedFrom hselect
  have hclosed := (FilterSelection.keep_closed hfrom.grouped).1
  have hsystem : leadingSystem messages = selection.system.length := by
    rw [hfrom.system, leadingSystem]
  unfold InHistory at huse hresult
  rw [hsystem, ← hfrom.history] at huse hresult
  obtain ⟨i, rfl⟩ := Nat.exists_eq_add_of_le huse.1
  obtain ⟨j, rfl⟩ := Nat.exists_eq_add_of_le hresult.1
  obtain ⟨⟨msg, hmsg, hcall⟩, ⟨other, hother, hanswer⟩⟩ := hpair
  have hi : i < selection.history.length := by omega
  have hj : j < selection.history.length := by omega
  have hcalled : selection.uses.get id = some i :=
    get_toolMap_of_oneEach hfrom huses hi hmsg hcall
  have hanswered : selection.results.get id = some j :=
    get_toolMap_of_oneEach hfrom hresults hj hother hanswer
  have hkeptUse : i ∈ selection.keep := by
    obtain ⟨slot, hslot, hposition⟩ := (selection.standsAt_iff _).mp h
    rw [← FilterSelection.alternating_eq_standing] at hslot
    exact selection.index_of_keepsAt hi ((selection.exists_kept_iff hclosed.within _).mp
      ⟨slot, (alternate_sublist _).subset hslot, hposition⟩)
  have hmem := Entries.mem_of_get hcalled
  have hkeptResult : j ∈ selection.keep := (hclosed.pairs _ hmem j hanswered).mp hkeptUse
  have hcritical : j ∈ selection.criticalIndices := by
    refine List.mem_flatMap.mpr ⟨(id, i), hmem, ?_⟩
    dsimp only
    rw [hanswered]
    simp [hkeptUse, hkeptResult]
  obtain ⟨slot, hslot, hposition⟩ := (selection.exists_kept_iff hclosed.within
    (selection.system.length + j)).mpr (.inr (.inl ⟨j, hkeptResult, rfl⟩))
  rw [selection.standsAt_iff, ← FilterSelection.alternating_eq_standing]
  exact ⟨slot, mem_alternate_of_critical selection.kept_nodup hslot
    (selection.critical_of_mem_kept hslot hj hposition hcritical), hposition⟩

/-- No result is sent without its call. -/
theorem standsAt_of_answered (hselect : selectMessages args messages = some selection)
    (hsends : selection.Sends) (huses : OneEach PayloadMessage.toolUses messages)
    (hpair : ToolPair messages id use result) (h : selection.StandsAt result) :
    selection.StandsAt use := by
  have hreturned := returnedSlots_of_sends hselect hsends
  rw [selection.standsAt_iff] at h ⊢
  obtain ⟨⟨msg, hmsg, hcall⟩, ⟨answer, hanswer, hmem⟩⟩ := hpair
  obtain ⟨slot, hslot, rfl⟩ := h
  have hid : id ∈ slot.message.toolResults := by
    obtain ⟨original, hget, hmessage⟩ := message_of_mem_returnedSlots
      (hreturned.symm ▸ hslot : slot ∈ returnedSlots args messages)
    obtain rfl := Option.some.inj (hanswer.symm.trans hget)
    rcases hmessage with heq | heq
    · rw [heq]
      exact hmem
    · rw [heq, PayloadMessage.toolResults_stripThinking]
      exact hmem
  obtain ⟨other, hother, hused⟩ := hsends.answered slot hslot id hid
  refine ⟨other, hother, ?_⟩
  obtain ⟨original, hget, hmessage⟩ := message_of_mem_returnedSlots
    (hreturned.symm ▸ hother : other ∈ returnedSlots args messages)
  refine eq_of_oneEach huses hget hmsg ?_ hcall
  rcases hmessage with heq | heq
  · rw [heq] at hused
    exact hused
  · rw [heq, PayloadMessage.toolUses_stripThinking] at hused
    exact hused

end

/-- The chains that are not kept. -/
def FilterSelection.excluded (selection : FilterSelection ρ) : List (List Nat) :=
  selection.chains.filter fun chain => chain.any (· ∉ selection.keep)

/-- What is not kept is not returned, and is counted. -/
structure OmitsExcluded (args : FilterArgs) (messages : List (PayloadMessage ρ))
    (selection : FilterSelection ρ) : Prop where
  returned : (returnedSlots args messages).map (·.message) =
    (filterBodyMessages args messages).1
  omitted : ∀ chain ∈ selection.excluded, ∀ index ∈ chain,
    ∀ slot ∈ returnedSlots args messages, slot.position ≠ leadingSystem messages + index
  counted : (filterBodyMessages args messages).2 = selection.excluded.length

end VirtualContext
