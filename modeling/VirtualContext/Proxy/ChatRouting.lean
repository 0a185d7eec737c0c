import VirtualContext.Library.Reach
import VirtualContext.Proxy.SessionRegistry

/-!
# Routing by chat id

Calls of `get_or_create` without a conversation id, one after the other.  A chat
that is registered is found by its chat id.  One that is not can be matched by a
hash first, and is then not registered.
-/

namespace VirtualContext

open VirtualContext.Library

variable {ρ η : Type} [DecidableEq η]

/-! ## Calls one after the other -/

namespace SessionRegistry

variable (aliases : ConversationAliases) (setup : EngineSetup)
  (registry : SessionRegistry η)

/-- The steps of a call that no other call comes between. -/
def routeFrom : Nat → RoutingCall η → Option (SessionRegistry η × ProxyState)
  | 0, _ => none
  | steps + 1, call =>
      match registry.advance aliases setup call with
      | .pending call => routeFrom steps call
      | .routed registry state => some (registry, state)
      | .failed => none

/-- `get_or_create`; `none` if no engine can be made. -/
def getOrCreate (requested : Option ConversationId) (keys : RoutingKeys η) :
    Option (SessionRegistry η × ProxyState) :=
  registry.routeFrom aliases setup 5 (beginCall aliases requested keys)

/-- What a body without a conversation id is matched by. -/
def byBody (keys : RoutingKeys η) : Option (ConversationId × ProxyState) :=
  registry.byChatId keys <|> registry.bySysHash keys <|> registry.byLastMessage keys

/-- The outcomes of a call without a conversation id. -/
inductive RoutedByBody (keys : RoutingKeys η) : SessionRegistry η → ProxyState → Prop where
  | matched {sid : ConversationId} {state : ProxyState}
      (found : registry.byBody keys = some (sid, state)) :
      RoutedByBody keys (registry.updateLastMessageHash keys sid) state
  | claimed {sid : ConversationId} {state : ProxyState}
      (unmatched : registry.byBody keys = none)
      (found : registry.unclaimed = some (sid, state)) :
      RoutedByBody keys (registry.register keys sid) state
  | created {conversationId : ConversationId}
      (unmatched : registry.byBody keys = none)
      (claimed : registry.unclaimed = none)
      (engine : engineConversationId aliases setup none = some conversationId) :
      RoutedByBody keys (registry.create keys conversationId).1
        (registry.create keys conversationId).2

variable {aliases setup registry}

theorem byMarker_none : registry.byMarker none = none := rfl

theorem getOrCreate_spec {keys : RoutingKeys η} {registry' : SessionRegistry η}
    {state : ProxyState}
    (h : registry.getOrCreate aliases setup none keys = some (registry', state)) :
    RoutedByBody aliases setup registry keys registry' state := by
  cases hchat : registry.byChatId keys with
  | some found =>
      simp [getOrCreate, routeFrom, beginCall, advance, byMarker_none, hchat, orElse] at h
      obtain ⟨rfl, rfl⟩ := h
      exact .matched (by simp [byBody, hchat])
  | none =>
  cases hsys : registry.bySysHash keys with
  | some found =>
      simp [getOrCreate, routeFrom, beginCall, advance, byMarker_none, hchat, hsys,
        orElse] at h
      obtain ⟨rfl, rfl⟩ := h
      exact .matched (by simp [byBody, hchat, hsys])
  | none =>
  cases hlast : registry.byLastMessage keys with
  | some found =>
      simp [getOrCreate, routeFrom, beginCall, advance, byMarker_none, hchat, hsys, hlast,
        orElse] at h
      obtain ⟨rfl, rfl⟩ := h
      exact .matched (by simp [byBody, hchat, hsys, hlast])
  | none =>
      have hunmatched : registry.byBody keys = none := by
        simp [byBody, hchat, hsys, hlast]
      simp only [getOrCreate, routeFrom, beginCall, advance, Option.filter_none,
        Option.map_none, byMarker_none, hchat, hsys, hlast, orElse_none,
        claimOrCreate] at h
      cases hunclaimed : registry.unclaimed with
      | some found =>
          simp only [hunclaimed] at h
          obtain ⟨rfl, rfl⟩ := Prod.mk.inj (Option.some.inj h)
          exact .claimed hunmatched hunclaimed
      | none =>
          simp only [hunclaimed] at h
          cases hengine : engineConversationId aliases setup none with
          | none => simp [hengine] at h
          | some conversationId =>
              simp only [hengine] at h
              obtain ⟨rfl, rfl⟩ := Prod.mk.inj (Option.some.inj h)
              exact .created hunmatched hunclaimed hengine

/-- What a body is matched by is live. -/
theorem get_of_byBody {keys : RoutingKeys η} {sid : ConversationId} {state : ProxyState}
    (h : registry.byBody keys = some (sid, state)) :
    registry.conversations.get sid = some state := by
  simp only [byBody, Option.orElse_eq_some] at h
  rcases h with h | ⟨-, h | ⟨-, h⟩⟩
  all_goals
    obtain ⟨-, -, -, hget⟩ := get_of_lookup h
    exact hget

/-- No chat is registered for a session that is not claimed. -/
theorem not_registered_of_unclaimed {sid : ConversationId} {state : ProxyState}
    (h : registry.unclaimed = some (sid, state)) :
    (sid, state) ∈ registry.conversations ∧ ∀ chatId, registry.chatIds.get chatId ≠ some sid := by
  refine ⟨List.mem_of_find?_eq_some h, fun chatId hget => ?_⟩
  have hunclaimed := List.find?_some h
  simp only [isClaimed, Bool.not_or, Bool.and_eq_true, Bool.not_eq_true', List.any_eq_false,
    decide_eq_true_eq] at hunclaimed
  exact hunclaimed.2 _ (Entries.mem_of_get hget) rfl

end SessionRegistry

/-! ## Runs -/

/-- A body with a chat id was routed. -/
structure ChatRoute where
  chatId : String
  state : ProxyState
  deriving DecidableEq, Repr

structure ChatSystem (η : Type) where
  registry : SessionRegistry η
  routed : List ChatRoute := []
  removed : List Nat := []
  deriving DecidableEq, Repr

inductive ChatStep (ρ : Type) where
  | call (body : Option (RoutedBody ρ)) (setup : EngineSetup)
  | remove (conversationId : ConversationId)
  deriving DecidableEq, Repr

namespace ChatSystem

variable (aliases : ConversationAliases) (loads : Text → Option Json) (hash : Text → η)

def step (s : ChatSystem η) : ChatStep ρ → Option (ChatSystem η)
  | .call body setup =>
      let keys := routingKeys loads hash body
      match s.registry.getOrCreate aliases setup none keys with
      | none => some s
      | some (registry, state) =>
          some { s with
            registry := registry
            routed := s.routed ++ keys.chatId.toList.map (⟨·, state⟩) }
  | .remove conversationId =>
      some { s with
        registry := s.registry.removeConversation conversationId
        removed := s.removed ++
          (s.registry.conversations.get conversationId).toList.map (·.number) }

/-! ## The property and its condition -/

/-- The registry of a proxy that has started, perhaps with its default session. -/
def Start (s : ChatSystem η) : Prop :=
  ∃ default : Option ConversationId, s = { registry := {
    conversations := default.toList.map fun conversationId =>
      (conversationId, ⟨0, conversationId⟩)
    states := 1 } }

structure IsolatesChats (s : ChatSystem η) : Prop where
  apart : ∀ route ∈ s.routed, ∀ route' ∈ s.routed,
    route.state = route'.state → route.chatId = route'.chatId
  together : ∀ route ∈ s.routed, ∀ route' ∈ s.routed,
    route.chatId = route'.chatId →
      route.state.number ∉ s.removed → route'.state.number ∉ s.removed →
        route.state = route'.state

/--
A body whose chat id is not registered for a live session is matched by no hash,
and no session is created for the id of a live one.
-/
def RegistersChats (s : ChatSystem η) : ChatStep ρ → Prop
  | .call body setup =>
      let keys := routingKeys loads hash body
      (keys.chatId ≠ none → s.registry.byChatId keys = none →
        s.registry.byBody keys = none) ∧
      (s.registry.byBody keys = none → s.registry.unclaimed = none →
        ∀ conversationId ∈ engineConversationId aliases setup none,
          conversationId ∉ Entries.keys s.registry.conversations)
  | .remove _ => True

instance (s : ChatSystem η) :
    ∀ step : ChatStep ρ, Decidable (RegistersChats aliases loads hash s step)
  | .call _ _ => inferInstanceAs (Decidable ((_ → _) ∧ (_ → _)))
  | .remove _ => isTrue trivial

/-! ## The invariant -/

variable {aliases loads hash} {s s' : ChatSystem η}

structure ChatInvariant (s : ChatSystem η) : Prop where
  keys : (Entries.keys s.registry.conversations).Nodup
  chats : (Entries.keys s.registry.chatIds).Nodup
  named : ∀ entry ∈ s.registry.conversations,
    entry.2.conversationId = entry.1 ∧ entry.2.number < s.registry.states
  registered : ∀ chatId sid, s.registry.chatIds.get chatId = some sid →
    ∃ state, s.registry.conversations.get sid = some state
  injective : ∀ chatId chatId' sid, s.registry.chatIds.get chatId = some sid →
    s.registry.chatIds.get chatId' = some sid → chatId = chatId'
  routed : ∀ route ∈ s.routed,
    s.registry.conversations.get route.state.conversationId = some route.state →
      s.registry.chatIds.get route.chatId = some route.state.conversationId
  live : ∀ route ∈ s.routed, route.state.number ∉ s.removed →
    s.registry.conversations.get route.state.conversationId = some route.state
  fresh : ∀ route ∈ s.routed, route.state.number < s.registry.states
  apart : ∀ route ∈ s.routed, ∀ route' ∈ s.routed,
    route.state = route'.state → route.chatId = route'.chatId

namespace ChatInvariant

theorem isolatesChats (h : ChatInvariant s) : IsolatesChats s where
  apart := h.apart
  together := by
    intro route hroute route' hroute' hchat hlive hlive'
    have hget := h.live route hroute hlive
    have hget' := h.live route' hroute' hlive'
    have hregistered := h.routed route hroute hget
    have hregistered' := h.routed route' hroute' hget'
    rw [hchat, hregistered'] at hregistered
    rw [← Option.some.inj hregistered, hget'] at hget
    exact (Option.some.inj hget).symm

theorem start (h : Start s) : ChatInvariant s := by
  obtain ⟨default, rfl⟩ := h
  refine ⟨?_, List.nodup_nil, ?_, by simp [Entries.get], by simp [Entries.get], by simp,
    by simp, by simp, by simp⟩
  · cases default <;> simp [Entries.keys]
  · cases default with
    | none => simp
    | some conversationId =>
        intro entry hentry
        obtain rfl := List.mem_singleton.1 hentry
        exact ⟨rfl, Nat.zero_lt_one⟩

/-- The call had no chat id, or the chat is registered for the session it got. -/
theorem append (h : ChatInvariant s) {state : ProxyState} {chatId : Option String}
    (hlive : s.registry.conversations.get state.conversationId = some state)
    (hchat : ∀ c ∈ chatId, s.registry.chatIds.get c = some state.conversationId) :
    ChatInvariant { s with routed := s.routed ++ chatId.toList.map (⟨·, state⟩) } := by
  have hnew : ∀ route ∈ chatId.toList.map (ChatRoute.mk · state),
      route.state = state ∧ s.registry.chatIds.get route.chatId =
        some state.conversationId := by
    intro route hroute
    obtain ⟨c, hc, rfl⟩ := List.mem_map.1 hroute
    exact ⟨rfl, hchat c (by simpa using hc)⟩
  refine ⟨h.keys, h.chats, h.named, h.registered, h.injective, ?_, ?_, ?_, ?_⟩
  · intro route hroute hget
    rcases List.mem_append.1 hroute with hroute | hroute
    · exact h.routed route hroute hget
    · obtain ⟨heq, hregistered⟩ := hnew route hroute
      rw [heq]
      exact hregistered
  · intro route hroute hnumber
    rcases List.mem_append.1 hroute with hroute | hroute
    · exact h.live route hroute hnumber
    · obtain ⟨heq, -⟩ := hnew route hroute
      rw [heq]
      exact hlive
  · intro route hroute
    rcases List.mem_append.1 hroute with hroute | hroute
    · exact h.fresh route hroute
    · obtain ⟨heq, -⟩ := hnew route hroute
      rw [heq]
      exact (h.named _ (Entries.mem_of_get hlive)).2
  · -- both are registered for the one session, if it is the session of either
    have hregistered : ∀ route ∈ s.routed ++ chatId.toList.map (ChatRoute.mk · state),
        route.state = state →
          s.registry.chatIds.get route.chatId = some state.conversationId := by
      intro route hroute heq
      rcases List.mem_append.1 hroute with hroute | hroute
      · rw [← heq]
        exact h.routed route hroute (heq ▸ hlive)
      · exact (hnew route hroute).2
    intro route hroute route' hroute' heq
    by_cases hstate : route.state = state
    · exact h.injective _ _ _ (hregistered route hroute hstate)
        (hregistered route' hroute' (heq ▸ hstate))
    · rcases List.mem_append.1 hroute with hroute | hroute
      · rcases List.mem_append.1 hroute' with hroute' | hroute'
        · exact h.apart route hroute route' hroute' heq
        · exact absurd (heq.trans (hnew route' hroute').1) hstate
      · exact absurd (hnew route hroute).1 hstate

/-- The hashes play no part. -/
theorem of_registry (h : ChatInvariant s) {registry : SessionRegistry η}
    (hconversations : registry.conversations = s.registry.conversations)
    (hchats : registry.chatIds = s.registry.chatIds)
    (hstates : registry.states = s.registry.states) :
    ChatInvariant { s with registry := registry } := by
  refine ⟨?_, ?_, ?_, ?_, ?_, ?_, ?_, ?_, h.apart⟩
  · exact hconversations ▸ h.keys
  · exact hchats ▸ h.chats
  · simpa only [hconversations, hstates] using h.named
  · simpa only [hconversations, hchats] using h.registered
  · simpa only [hchats] using h.injective
  · simpa only [hconversations, hchats] using h.routed
  · simpa only [hconversations] using h.live
  · simpa only [hstates] using h.fresh

/-- A chat that is not registered is registered for a session that has no chat. -/
theorem register (h : ChatInvariant s) {keys : RoutingKeys η} {sid : ConversationId}
    {state : ProxyState} (hlive : s.registry.conversations.get sid = some state)
    (hfree : ∀ chatId, s.registry.chatIds.get chatId ≠ some sid)
    (hnew : ∀ c ∈ keys.chatId, s.registry.chatIds.get c = none) :
    ChatInvariant { s with registry := s.registry.register keys sid } ∧
      ∀ c ∈ keys.chatId, (s.registry.register keys sid).chatIds.get c = some sid := by
  obtain ⟨chatId, sysHash, msgHash, lastHash⟩ := keys
  cases chatId with
  | none =>
      refine ⟨h.of_registry (by simp) ?_ (by simp), nofun⟩
      simp [SessionRegistry.register]
  | some c =>
      have hc : s.registry.chatIds.get c = none := hnew c rfl
      have hchats : (s.registry.register ⟨some c, sysHash, msgHash, lastHash⟩ sid).chatIds =
          s.registry.chatIds.set c sid := by
        simp [SessionRegistry.register]
      refine ⟨⟨by simpa using h.keys, ?_, by simpa using h.named, ?_, ?_, ?_,
        by simpa using h.live, by simpa using h.fresh, h.apart⟩, ?_⟩
      · rw [hchats]
        exact Entries.nodup_set h.chats _ _
      · intro chatId sid' hget
        rw [hchats, Entries.get_set] at hget
        simp only [SessionRegistry.register_conversations]
        split at hget
        next =>
          obtain rfl := Option.some.inj hget
          exact ⟨state, hlive⟩
        next => exact h.registered chatId sid' hget
      · intro chatId chatId' sid' hget hget'
        rw [hchats, Entries.get_set] at hget hget'
        split at hget
        next heq =>
          obtain rfl := Option.some.inj hget
          split at hget'
          next heq' => exact heq.symm.trans heq'
          next => exact absurd hget' (hfree chatId')
        next =>
          split at hget'
          next =>
            obtain rfl := Option.some.inj hget'
            exact absurd hget (hfree chatId)
          next => exact h.injective chatId chatId' sid' hget hget'
      · intro route hroute hget
        simp only [SessionRegistry.register_conversations] at hget
        have hregistered := h.routed route hroute hget
        have hne : c ≠ route.chatId := by
          rintro rfl
          rw [hc] at hregistered
          cases hregistered
        rw [hchats, Entries.get_set, if_neg hne]
        exact hregistered
      · intro c' hc'
        obtain rfl := Option.some.inj hc'
        rw [hchats, Entries.get_set, if_pos rfl]

/-- A session is made for an id that no live one has. -/
theorem insert (h : ChatInvariant s) {conversationId : ConversationId}
    (hnew : conversationId ∉ Entries.keys s.registry.conversations) :
    ChatInvariant { s with registry := { s.registry with
      conversations :=
        s.registry.conversations.set conversationId ⟨s.registry.states, conversationId⟩
      states := s.registry.states + 1 } } := by
  have hget : ∀ sid state, s.registry.conversations.get sid = some state →
      (s.registry.conversations.set conversationId
        ⟨s.registry.states, conversationId⟩).get sid = some state := by
    intro sid state hget
    have hne : conversationId ≠ sid := by
      rintro rfl
      exact hnew (List.mem_map_of_mem (Entries.mem_of_get hget))
    rw [Entries.get_set, if_neg hne]
    exact hget
  refine ⟨Entries.nodup_set h.keys _ _, h.chats, ?_, ?_, h.injective, ?_, ?_, ?_, h.apart⟩
  · intro entry hentry
    rcases Entries.mem_set hentry with rfl | hentry
    · exact ⟨rfl, Nat.lt_succ_self _⟩
    · exact ⟨(h.named entry hentry).1, Nat.lt_succ_of_lt (h.named entry hentry).2⟩
  · intro chatId sid hchat
    obtain ⟨state, hstate⟩ := h.registered chatId sid hchat
    exact ⟨state, hget sid state hstate⟩
  · intro route hroute hlive
    rw [Entries.get_set] at hlive
    split at hlive
    next heq =>
      -- the number of the new session is fresh
      have hnumber := h.fresh route hroute
      rw [← Option.some.inj hlive] at hnumber
      exact absurd hnumber (Nat.lt_irrefl _)
    next => exact h.routed route hroute hlive
  · intro route hroute hnumber
    exact hget _ _ (h.live route hroute hnumber)
  · intro route hroute
    exact Nat.lt_succ_of_lt (h.fresh route hroute)

theorem call (h : ChatInvariant s) {body : Option (RoutedBody ρ)} {setup : EngineSetup}
    (hregisters : RegistersChats aliases loads hash s (.call body setup))
    {registry : SessionRegistry η} {state : ProxyState}
    (hcall : s.registry.getOrCreate aliases setup none (routingKeys loads hash body) =
      some (registry, state)) :
    ChatInvariant { s with
      registry := registry
      routed := s.routed ++
        (routingKeys loads hash body).chatId.toList.map (⟨·, state⟩) } := by
  obtain ⟨hhash, hcreate⟩ := hregisters
  generalize routingKeys loads hash body = keys at hhash hcreate hcall ⊢
  have hnew : s.registry.byBody keys = none →
      ∀ c ∈ keys.chatId, s.registry.chatIds.get c = none := by
    intro hnone c hc
    cases hget : s.registry.chatIds.get c with
    | none => rfl
    | some sid =>
        obtain ⟨state, hstate⟩ := h.registered c sid hget
        have hfound : s.registry.byChatId keys = some (sid, state) := by
          simp [SessionRegistry.byChatId, SessionRegistry.lookup, Option.mem_def.1 hc,
            hget, hstate]
        simp [SessionRegistry.byBody, hfound] at hnone
  cases SessionRegistry.getOrCreate_spec hcall with
  | @matched sid state found =>
      have hlive := SessionRegistry.get_of_byBody found
      obtain rfl : state.conversationId = sid := (h.named _ (Entries.mem_of_get hlive)).1
      have hsame : ChatInvariant { s with
          registry := s.registry.updateLastMessageHash keys state.conversationId } :=
        h.of_registry (by simp) (by simp) (by simp)
      refine hsame.append (by simpa using hlive) fun c hc => ?_
      cases hchat : s.registry.byChatId keys with
      | none =>
          have hsome : keys.chatId ≠ none := by simp [Option.mem_def.1 hc]
          rw [hhash hsome hchat] at found
          cases found
      | some session =>
          have heq : session = (state.conversationId, state) := by
            simpa [SessionRegistry.byBody, hchat] using found
          rw [heq] at hchat
          obtain ⟨c', hc', hget, -⟩ := SessionRegistry.get_of_lookup hchat
          obtain rfl : c = c' := by simpa [Option.mem_def.1 hc] using hc'
          simpa using hget
  | @claimed sid state unmatched found =>
      obtain ⟨hmem, hfree⟩ := SessionRegistry.not_registered_of_unclaimed found
      have hlive := Entries.get_of_mem h.keys hmem
      obtain rfl : state.conversationId = sid := (h.named _ hmem).1
      obtain ⟨hregister, hchat⟩ := h.register hlive hfree (hnew unmatched)
      exact hregister.append (by simpa using hlive) hchat
  | @created conversationId unmatched claimed engine =>
      have hfresh := hcreate unmatched claimed _ engine
      have hinsert := h.insert hfresh
      have hfree : ∀ chatId, s.registry.chatIds.get chatId ≠ some conversationId := by
        intro chatId hget
        obtain ⟨state, hstate⟩ := h.registered chatId _ hget
        exact hfresh (List.mem_map_of_mem (Entries.mem_of_get hstate))
      have hlive : (s.registry.conversations.set conversationId
          ⟨s.registry.states, conversationId⟩).get conversationId =
            some ⟨s.registry.states, conversationId⟩ := by
        rw [Entries.get_set, if_pos rfl]
      obtain ⟨hregister, hchat⟩ := hinsert.register hlive hfree (hnew unmatched)
      exact hregister.append (by simpa [SessionRegistry.create] using hlive) hchat

theorem remove (h : ChatInvariant s) (conversationId : ConversationId)
    (hstep : s' = { s with
      registry := s.registry.removeConversation conversationId
      removed := s.removed ++
        (s.registry.conversations.get conversationId).toList.map (·.number) }) :
    ChatInvariant s' := by
  subst hstep
  have hconversation : ∀ sid, sid ≠ conversationId →
      (s.registry.removeConversation conversationId).conversations.get sid =
        s.registry.conversations.get sid := by
    intro sid hne
    exact Entries.get_filter fun _ _ => by simpa using hne
  have hof : ∀ {sid state},
      (s.registry.removeConversation conversationId).conversations.get sid = some state →
        sid ≠ conversationId ∧ s.registry.conversations.get sid = some state := by
    intro sid state hget
    have hmem := List.mem_filter.1 (Entries.mem_of_get hget)
    exact ⟨by simpa using hmem.2, Entries.get_of_mem h.keys hmem.1⟩
  have hchat : ∀ chatId sid,
      (s.registry.removeConversation conversationId).chatIds.get chatId = some sid ↔
        sid ≠ conversationId ∧ s.registry.chatIds.get chatId = some sid := by
    intro chatId sid
    constructor
    · intro hget
      have hmem := List.mem_filter.1 (Entries.mem_of_get hget)
      exact ⟨by simpa using hmem.2, Entries.get_of_mem h.chats hmem.1⟩
    · rintro ⟨hne, hget⟩
      refine (Entries.get_filter fun sid' hsid' => ?_).trans hget
      obtain rfl : sid' = sid := by
        simpa [hget] using (Entries.get_of_mem h.chats hsid').symm
      simpa using hne
  refine ⟨h.keys.sublist (List.filter_sublist.map _),
    h.chats.sublist (List.filter_sublist.map _), ?_, ?_, ?_, ?_, ?_, h.fresh, h.apart⟩
  · exact fun entry hentry => h.named entry (List.mem_filter.1 hentry).1
  · intro chatId sid hget
    obtain ⟨hne, hget⟩ := (hchat chatId sid).1 hget
    obtain ⟨state, hstate⟩ := h.registered chatId sid hget
    exact ⟨state, (hconversation sid hne).trans hstate⟩
  · intro chatId chatId' sid hget hget'
    exact h.injective chatId chatId' sid ((hchat chatId sid).1 hget).2
      ((hchat chatId' sid).1 hget').2
  · intro route hroute hget
    obtain ⟨hne, hget⟩ := hof hget
    exact (hchat _ _).2 ⟨hne, h.routed route hroute hget⟩
  · intro route hroute hnumber
    simp only [List.mem_append, not_or] at hnumber
    have hget := h.live route hroute hnumber.1
    have hne : route.state.conversationId ≠ conversationId := by
      rintro rfl
      exact hnumber.2 (by simp [hget])
    exact (hconversation _ hne).trans hget

theorem step (h : ChatInvariant s) {step : ChatStep ρ}
    (hregisters : RegistersChats aliases loads hash s step)
    (hstep : s.step aliases loads hash step = some s') : ChatInvariant s' := by
  cases step with
  | call body setup =>
      simp only [ChatSystem.step] at hstep
      split at hstep
      next =>
        obtain rfl := Option.some.inj hstep
        exact h
      next hcall =>
        obtain rfl := Option.some.inj hstep
        exact h.call hregisters hcall
  | remove conversationId => exact h.remove conversationId (Option.some.inj hstep).symm

end ChatInvariant

variable (aliases loads hash) in
/--
In every run in which a hash matches no body with a chat id that is not
registered, and no session is created in the place of a live one, chats with
different ids never get the same session, and a chat gets the same one while it
is not removed.
-/
theorem isolatesChats_of_registers :
    ∀ s, Reach Start (StepWhere (step (ρ := ρ) aliases loads hash)
      (RegistersChats aliases loads hash)) s → IsolatesChats s := by
  intro s reach
  have hinvariant : ChatInvariant s :=
    reach.invariant (fun _ => .start) fun _ _ hs ⟨_, hregisters, hstep⟩ =>
      hs.step hregisters hstep
  exact hinvariant.isolatesChats

/-! ## Examples -/

/-- The decoding of the blocks of the examples, which name a chat. -/
def loadsChat (block : Text) : Option Json :=
  if block = "\x7b\"chat_id\": \"A\"\x7d".toList then
    some (.obj [("chat_id", .str "A")])
  else if block = "\x7b\"chat_id\": \"B\"\x7d".toList then
    some (.obj [("chat_id", .str "B")])
  else none

/-- A body whose system prompt names a chat. -/
def chatBody (chatId : String) (texts : List String) : RoutedBody Unit where
  system := some (.text ("```json\n\x7b\"chat_id\": \"".toList ++ chatId.toList ++
    "\"\x7d\n```".toList))
  messages := texts.map fun text =>
    { role := some "user", content := some (.text text.toList) }

example : (chatBody "A" []).extractChatId loadsChat = some "A" := by decide

/-- The steps of runs without aliases, where a text is its own hash. -/
def plainStep (s : ChatSystem Text) : ChatStep Unit → Option (ChatSystem Text) :=
  s.step .empty loadsChat id

def twoChats : List (ChatStep Unit) :=
  [.call (some (chatBody "A" ["hi"])) ⟨"a", true⟩,
    .call (some (chatBody "B" ["hi"])) ⟨"b", true⟩,
    .call (some (chatBody "A" ["hi", "go on"])) ⟨"c", true⟩]

theorem isolatesChats_twoChats :
    ∃ s, runSteps plainStep { registry := { states := 1 } } twoChats = some s ∧
      s.routed = [⟨"A", ⟨1, "a"⟩⟩, ⟨"B", ⟨2, "b"⟩⟩, ⟨"A", ⟨1, "a"⟩⟩] ∧ IsolatesChats s := by
  refine ⟨_, rfl, by decide, isolatesChats_of_registers (ρ := Unit) .empty
    loadsChat id _ (Reach.of_run twoChats (.start ⟨none, rfl⟩) ?_ rfl)⟩
  decide

/-- The message of `B` but one was said last in `A`. -/
def sharedMessage : List (ChatStep Unit) :=
  [.call (some (chatBody "A" ["hi"])) ⟨"a", true⟩,
    .call (some (chatBody "B" ["hi", "go on"])) ⟨"b", true⟩,
    .call (some (chatBody "B" ["go on", "thanks"])) ⟨"b", true⟩,
    .call (some (chatBody "B" ["hello", "thanks"])) ⟨"b", true⟩]

theorem chats_share_session :
    ¬ (∀ s, Reach Start (StepWhere plainStep fun _ _ => True) s → IsolatesChats s) := by
  intro h
  have hrun : ∃ s, runSteps plainStep { registry := { states := 1 } } sharedMessage =
      some s ∧ s.routed = [⟨"A", ⟨1, "a"⟩⟩, ⟨"B", ⟨1, "a"⟩⟩, ⟨"B", ⟨1, "a"⟩⟩,
        ⟨"B", ⟨2, "b"⟩⟩] := ⟨_, rfl, by decide⟩
  obtain ⟨s, hrun, hrouted⟩ := hrun
  have hisolates := h s (Reach.of_run _ (.start ⟨none, rfl⟩) (by decide) hrun)
  have hchat := hisolates.apart ⟨"A", ⟨1, "a"⟩⟩ (by simp [hrouted]) ⟨"B", ⟨1, "a"⟩⟩
    (by simp [hrouted]) rfl
  exact absurd hchat (by decide)

end ChatSystem

end VirtualContext
