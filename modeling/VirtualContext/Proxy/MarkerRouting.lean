import VirtualContext.Library.Reach
import VirtualContext.Proxy.SessionRegistry

/-!
# Routing by conversation id

Calls of `get_or_create` and removals in any order.  A call whose conversation id
no live session has is routed by what its body looks like, and claims a session
of any id; and the conversation id is not looked up again under the lock.
-/

namespace VirtualContext

open VirtualContext.Library

variable {ρ η : Type} [DecidableEq η]

/-! ## Concurrent calls -/

/-- A call with an explicit conversation id that returned. -/
structure MarkerRoute where
  requested : ConversationId
  state : ProxyState
  deriving DecidableEq, Repr

/-- The registry, the calls that are under way, and what was routed and removed. -/
structure RoutingSystem (η : Type) where
  registry : SessionRegistry η
  calls : List (RoutingCall η) := []
  routed : List MarkerRoute := []
  removed : List Nat := []
  deriving DecidableEq, Repr

inductive RoutingStep (ρ : Type) where
  | call (requested : Option ConversationId) (body : Option (RoutedBody ρ))
  /-- The next step of one of the calls. -/
  | advance (call : Nat) (setup : EngineSetup)
  | remove (conversationId : ConversationId)
  deriving DecidableEq, Repr

namespace RoutingSystem

variable (aliases : ConversationAliases) (loads : Text → Option Json) (hash : Text → η)

/-- What a step of a call leaves of the system. -/
def apply (s : RoutingSystem η) (position : Nat) (call : RoutingCall η) :
    Routing η → RoutingSystem η
  | .pending call' => { s with calls := s.calls.set position call' }
  | .routed registry state =>
      { s with
        registry := registry
        calls := s.calls.eraseIdx position
        routed := s.routed ++ call.requested.toList.map (⟨·, state⟩) }
  | .failed => { s with calls := s.calls.eraseIdx position }

def step (s : RoutingSystem η) : RoutingStep ρ → Option (RoutingSystem η)
  | .call requested body =>
      some { s with
        calls := s.calls ++
          [SessionRegistry.beginCall aliases requested (routingKeys loads hash body)] }
  | .advance position setup =>
      s.calls[position]?.map fun call =>
        s.apply position call (s.registry.advance aliases setup call)
  | .remove conversationId =>
      some { s with
        registry := s.registry.removeConversation conversationId
        removed := s.removed ++
          (s.registry.conversations.get conversationId).toList.map (·.number) }

/-! ## The property and its condition -/

/-- The aliases lead from the one conversation id to the other, and end there. -/
def ResolvesTo (conversationId resolved : ConversationId) : Prop :=
  ∃ hops, EndsAt aliases.resolveConversationAlias conversationId hops resolved

/-- The registry of a proxy that has started, perhaps with its default session. -/
def Start (s : RoutingSystem η) : Prop :=
  ∃ default : Option ConversationId,
    (∀ conversationId ∈ default, aliases.resolveConversationAlias conversationId = none) ∧
      s = { registry := {
        conversations := default.toList.map fun conversationId =>
          (conversationId, ⟨0, conversationId⟩)
        states := 1 } }

structure RoutesMarkers (s : RoutingSystem η) : Prop where
  resolved : ∀ route ∈ s.routed,
    ResolvesTo aliases route.requested route.state.conversationId
  same : ∀ route ∈ s.routed, ∀ route' ∈ s.routed, ∀ resolved,
    ResolvesTo aliases route.requested resolved →
      ResolvesTo aliases route'.requested resolved →
        route.state.number ∉ s.removed → route'.state.number ∉ s.removed →
          route.state = route'.state

/--
A call with an explicit conversation id that no live session has is matched to,
or claims, no session of another id, and no session is created for the id of a
live one.
-/
def MatchesMarkers (s : RoutingSystem η) : RoutingStep ρ → Prop
  | .advance position setup =>
      ∀ call ∈ s.calls[position]?,
        (∀ requested ∈ call.requested, ∀ session ∈ s.registry.matched call,
          ResolvesTo aliases requested session.1) ∧
        (call.next = .locked → s.registry.matched call = none →
          ∀ conversationId ∈ engineConversationId aliases setup call.conversationId,
            conversationId ∉ Entries.keys s.registry.conversations)
  | _ => True

/-- A case of the condition: nothing is matched. -/
def MatchesNothing (s : RoutingSystem η) : RoutingStep ρ → Bool
  | .advance position setup =>
      s.calls[position]?.all fun call =>
        s.registry.matched call = none ∧ (call.next = .locked →
          (engineConversationId aliases setup call.conversationId).all
            (· ∉ Entries.keys s.registry.conversations))
  | _ => true

/-! ## The invariant -/

variable {aliases loads hash} {s s' : RoutingSystem η}

structure MarkerInvariant (aliases : ConversationAliases) (s : RoutingSystem η) :
    Prop where
  keys : (Entries.keys s.registry.conversations).Nodup
  named : ∀ entry ∈ s.registry.conversations, entry.2.conversationId = entry.1 ∧
    aliases.resolveConversationAlias entry.1 = none
  calls : ∀ call ∈ s.calls, call.conversationId =
    call.requested.map fun conversationId =>
      (aliases.resolveConversationAlias conversationId).getD conversationId
  resolved : ∀ route ∈ s.routed,
    ResolvesTo aliases route.requested route.state.conversationId
  live : ∀ route ∈ s.routed, route.state.number ∉ s.removed →
    s.registry.conversations.get route.state.conversationId = some route.state

namespace MarkerInvariant

theorem routesMarkers (h : MarkerInvariant aliases s) : RoutesMarkers aliases s where
  resolved := h.resolved
  same := by
    rintro route hroute route' hroute' resolved ⟨hops, hends⟩ ⟨hops', hends'⟩ hlive hlive'
    obtain ⟨k, hk⟩ := h.resolved route hroute
    obtain ⟨k', hk'⟩ := h.resolved route' hroute'
    have hid : route.state.conversationId = resolved := (hk.unique hends).2
    have hid' : route'.state.conversationId = resolved := (hk'.unique hends').2
    have hget := h.live route hroute hlive
    have hget' := h.live route' hroute' hlive'
    rw [hid] at hget
    rw [hid'] at hget'
    exact Option.some.inj (hget.symm.trans hget')

end MarkerInvariant

/-! ## Engines -/

theorem resolvesTo_of_walk {x y : ConversationId} {maxHops : Nat}
    (h : walkConversationAliasChain aliases x maxHops = .ok y) : ResolvesTo aliases x y := by
  by_cases hne : x = ""
  · subst hne
    obtain rfl : "" = y := by simpa [walkConversationAliasChain] using h
    exact ⟨0, rfl, ConversationAliases.resolve_empty⟩
  · have houtcome := walk_outcome aliases x hne maxHops
    rw [h] at houtcome
    cases houtcome with
    | ended hk hends => exact ⟨_, hends⟩

/-- The redirect of a conversation id resolves as it does. -/
theorem ResolvesTo.of_redirect {x y : ConversationId}
    (h : ResolvesTo aliases ((aliases.resolveConversationAlias x).getD x) y) :
    ResolvesTo aliases x y := by
  obtain ⟨hops, hends⟩ := h
  cases hx : aliases.resolveConversationAlias x with
  | none =>
      rw [hx] at hends
      exact ⟨hops, hends⟩
  | some z =>
      rw [hx] at hends
      exact ⟨hops + 1, hends.cons hx⟩

theorem engine_resolvesTo {setup : EngineSetup} {conversationId : Option ConversationId}
    {resolved : ConversationId}
    (h : engineConversationId aliases setup conversationId = some resolved) :
    ResolvesTo aliases (conversationId.getD setup.conversationId) resolved := by
  simp only [engineConversationId] at h
  split at h
  next => cases h
  next hwalk =>
    split at h
    next => cases h
    next =>
      obtain rfl := Option.some.inj h
      exact resolvesTo_of_walk hwalk

/-! ## Steps -/

namespace MarkerInvariant

theorem start (h : Start aliases s) : MarkerInvariant aliases s := by
  obtain ⟨default, hdefault, rfl⟩ := h
  refine ⟨?_, ?_, by simp, by simp, by simp⟩
  · cases default <;> simp [Entries.keys]
  · cases default with
    | none => simp
    | some conversationId =>
        intro entry hentry
        obtain rfl := List.mem_singleton.1 hentry
        exact ⟨rfl, hdefault conversationId rfl⟩

/-- A live session is returned. -/
theorem route (h : MarkerInvariant aliases s) {position : Nat} {call : RoutingCall η}
    {sid : ConversationId} {state : ProxyState} {registry : SessionRegistry η}
    (hlive : (sid, state) ∈ s.registry.conversations)
    (hresolves : ∀ requested ∈ call.requested, ResolvesTo aliases requested sid)
    (hsame : registry.conversations = s.registry.conversations) :
    MarkerInvariant aliases (s.apply position call (.routed registry state)) := by
  have hid : state.conversationId = sid := (h.named _ hlive).1
  refine ⟨?_, ?_, fun call' hcall' => ?_, fun route hroute => ?_, fun route hroute hnumber => ?_⟩
  · rw [RoutingSystem.apply, hsame]
    exact h.keys
  · rw [RoutingSystem.apply, hsame]
    exact h.named
  · exact h.calls call' (List.mem_of_mem_eraseIdx hcall')
  · rcases List.mem_append.1 hroute with hroute | hroute
    · exact h.resolved route hroute
    · obtain ⟨requested, hrequested, rfl⟩ := List.mem_map.1 hroute
      rw [hid]
      exact hresolves requested (by simpa using hrequested)
  · rw [RoutingSystem.apply, hsame]
    rcases List.mem_append.1 hroute with hroute | hroute
    · exact h.live route hroute hnumber
    · obtain ⟨requested, hrequested, rfl⟩ := List.mem_map.1 hroute
      rw [hid]
      exact Entries.get_of_mem h.keys hlive

/-- A session is created for an id that no live one has. -/
theorem create (h : MarkerInvariant aliases s) {position : Nat} {call : RoutingCall η}
    {conversationId : ConversationId}
    (hend : aliases.resolveConversationAlias conversationId = none)
    (hresolves : ∀ requested ∈ call.requested, ResolvesTo aliases requested conversationId)
    (hnew : conversationId ∉ Entries.keys s.registry.conversations) :
    MarkerInvariant aliases (s.apply position call
      (.routed (s.registry.create call.keys conversationId).1
        (s.registry.create call.keys conversationId).2)) := by
  have hconversations : (s.registry.create call.keys conversationId).1.conversations =
      s.registry.conversations.set conversationId ⟨s.registry.states, conversationId⟩ := by
    simp [SessionRegistry.create]
  refine ⟨?_, fun entry hentry => ?_, fun call' hcall' => ?_, fun route hroute => ?_,
    fun route hroute hnumber => ?_⟩
  · rw [RoutingSystem.apply, hconversations]
    exact Entries.nodup_set h.keys _ _
  · rw [RoutingSystem.apply, hconversations] at hentry
    rcases Entries.mem_set hentry with rfl | hentry
    · exact ⟨rfl, hend⟩
    · exact h.named entry hentry
  · exact h.calls call' (List.mem_of_mem_eraseIdx hcall')
  · rcases List.mem_append.1 hroute with hroute | hroute
    · exact h.resolved route hroute
    · obtain ⟨requested, hrequested, rfl⟩ := List.mem_map.1 hroute
      exact hresolves requested (by simpa using hrequested)
  · rw [RoutingSystem.apply, hconversations, Entries.get_set]
    rcases List.mem_append.1 hroute with hroute | hroute
    · have hget := h.live route hroute hnumber
      have hne : conversationId ≠ route.state.conversationId := by
        rintro rfl
        exact hnew (List.mem_map_of_mem (Entries.mem_of_get hget))
      rw [if_neg hne]
      exact hget
    · obtain ⟨requested, hrequested, rfl⟩ := List.mem_map.1 hroute
      exact if_pos rfl

theorem advance (h : MarkerInvariant aliases s) {position : Nat} {setup : EngineSetup}
    {call : RoutingCall η} (hcall : s.calls[position]? = some call)
    (hmatches : MatchesMarkers aliases s (.advance position setup : RoutingStep ρ)) :
    MarkerInvariant aliases
      (s.apply position call (s.registry.advance aliases setup call)) := by
  obtain ⟨hmatched, hcreated⟩ := hmatches call hcall
  have hredirect := h.calls call (List.mem_of_getElem? hcall)
  have hspec := SessionRegistry.advance_spec aliases setup s.registry call
  generalize s.registry.advance aliases setup call = outcome at hspec ⊢
  cases hspec with
  | pending next =>
      refine ⟨h.keys, h.named, fun call' hcall' => ?_, h.resolved, h.live⟩
      rcases List.mem_or_eq_of_mem_set hcall' with hcall' | rfl
      · exact h.calls call' hcall'
      · exact hredirect
  | @marker sid state registry' found same count =>
      obtain ⟨redirected, hredirected, hfound⟩ := Option.bind_eq_some_iff.1 found
      have hlive := List.mem_of_find?_eq_some hfound
      have hid : state.conversationId = redirected := by
        simpa using List.find?_some hfound
      refine h.route hlive (fun requested hrequested => .of_redirect ?_) same
      rw [hrequested, hredirected, Option.map_some, Option.some.injEq] at hredirect
      rw [← hredirect, ← hid, (h.named _ hlive).1]
      exact ⟨0, rfl, (h.named _ hlive).2⟩
  | @matched sid state registry' found same count =>
      exact h.route (SessionRegistry.mem_of_matched found)
        (fun requested hrequested => hmatched requested hrequested _ found) same
  | created locked unmatched engine =>
      have hresolves := engine_resolvesTo engine
      refine h.create ?_ (fun requested hrequested => .of_redirect ?_)
        (hcreated locked unmatched _ engine)
      · obtain ⟨hops, -, hend⟩ := hresolves
        exact hend
      · rw [hrequested] at hredirect
        rw [hredirect] at hresolves
        exact hresolves
  | failed =>
      exact ⟨h.keys, h.named, fun call' hcall' =>
        h.calls call' (List.mem_of_mem_eraseIdx hcall'), h.resolved, h.live⟩

theorem remove (h : MarkerInvariant aliases s) (conversationId : ConversationId)
    (hstep : s' = { s with
      registry := s.registry.removeConversation conversationId
      removed := s.removed ++
        (s.registry.conversations.get conversationId).toList.map (·.number) }) :
    MarkerInvariant aliases s' := by
  subst hstep
  refine ⟨?_, fun entry hentry => ?_, h.calls, h.resolved, fun route hroute hnumber => ?_⟩
  · exact h.keys.sublist (List.filter_sublist.map _)
  · exact h.named entry (List.mem_filter.1 hentry).1
  · simp only [List.mem_append, not_or] at hnumber
    have hget := h.live route hroute hnumber.1
    have hne : route.state.conversationId ≠ conversationId := by
      rintro rfl
      exact hnumber.2 (by simp [hget])
    exact (Entries.get_filter fun _ _ => by simpa using hne).trans hget

theorem step (h : MarkerInvariant aliases s) {step : RoutingStep ρ}
    (hmatches : MatchesMarkers aliases s step)
    (hstep : s.step aliases loads hash step = some s') : MarkerInvariant aliases s' := by
  cases step with
  | call requested body =>
      obtain rfl := Option.some.inj hstep
      refine ⟨h.keys, h.named, fun call hcall => ?_, h.resolved, h.live⟩
      rcases List.mem_append.1 hcall with hcall | hcall
      · exact h.calls call hcall
      · obtain rfl := List.mem_singleton.1 hcall
        rfl
  | advance position setup =>
      obtain ⟨call, hcall, rfl⟩ := Option.map_eq_some_iff.1 hstep
      exact h.advance hcall hmatches
  | remove conversationId =>
      exact h.remove conversationId (Option.some.inj hstep).symm

end MarkerInvariant

variable (aliases loads hash) in
/--
In every run that matches a call with an explicit conversation id only to the
session of its id, and creates no session in the place of a live one, calls with
a conversation id get the session that it resolves to, and the same one while it
is not removed.
-/
theorem routesMarkers_of_matches :
    ∀ s, Reach (Start aliases) (StepWhere (step (ρ := ρ) aliases loads hash)
      (MatchesMarkers aliases)) s → RoutesMarkers aliases s := by
  intro s reach
  have hinvariant : MarkerInvariant aliases s :=
    reach.invariant (fun _ => .start) fun _ _ hs ⟨_, hmatches, hstep⟩ =>
      hs.step hmatches hstep
  exact hinvariant.routesMarkers

/-! ## Examples -/

/-- No conversation has an alias. -/
def noAliases : ConversationAliases := .empty

/-- The steps of runs without JSON blocks, where a text is its own hash. -/
def plainStep (s : RoutingSystem Text) : RoutingStep Unit → Option (RoutingSystem Text) :=
  s.step noAliases (fun _ => none) id

/-- A body with messages of the user. -/
def userBody (texts : List String) : RoutedBody Unit where
  messages := texts.map fun text => { role := some "user", content := some (.text text.toList) }

theorem matchesMarkers_of_nothing {step : RoutingStep ρ}
    (h : MatchesNothing aliases s step = true) : MatchesMarkers aliases s step := by
  cases step with
  | advance position setup =>
      intro call hcall
      simp only [MatchesNothing, Option.all_eq_true, decide_eq_true_eq] at h
      obtain ⟨hmatched, hcreated⟩ := h call hcall
      refine ⟨fun requested hrequested session hsession => ?_, fun hlocked _ => hcreated hlocked⟩
      rw [hmatched] at hsession
      cases hsession
  | _ => trivial

/-- A first call creates `B`, the next one finds it. -/
def sameConversation : List (RoutingStep Unit) :=
  .call (some "B") none :: List.replicate 5 (.advance 0 ⟨"", true⟩) ++
    [.call (some "B") (some (userBody ["hi"])), .advance 0 ⟨"", true⟩]

theorem routesMarkers_sameConversation :
    ∃ s, runSteps plainStep { registry := { states := 1 } } sameConversation = some s ∧
      s.routed = [⟨"B", ⟨1, "B"⟩⟩, ⟨"B", ⟨1, "B"⟩⟩] ∧ RoutesMarkers noAliases s := by
  refine ⟨_, rfl, rfl, routesMarkers_of_matches (ρ := Unit) noAliases
    (fun _ => none) id _ (Reach.of_run sameConversation (.start ⟨none, nofun, rfl⟩) ?_ rfl)⟩
  have hnothing : Meets plainStep (fun s step => MatchesNothing noAliases s step = true)
      { registry := { states := 1 } } sameConversation := by decide
  exact hnothing.mono fun _ _ => matchesMarkers_of_nothing

/-- `B` is asked for, and what was said before was said last in `A`. -/
def sameMessage : List (RoutingStep Unit) :=
  .call none (some (userBody ["hi"])) :: List.replicate 5 (.advance 0 ⟨"A", true⟩) ++
    .call (some "B") (some (userBody ["hi", "go on"])) ::
      List.replicate 4 (.advance 0 ⟨"A", true⟩)

/-- Two calls for `B` miss the session of each other. -/
def concurrentCalls : List (RoutingStep Unit) :=
  [.call (some "B") (some (userBody ["hi"])), .call (some "B") (some (userBody ["hi"])),
    .advance 1 ⟨"", true⟩] ++ List.replicate 9 (.advance 0 ⟨"", true⟩)

theorem routed_to_other_conversation :
    ¬ (∀ s, Reach (Start noAliases) (StepWhere plainStep fun _ _ => True) s →
      ∀ route ∈ s.routed, ResolvesTo noAliases route.requested route.state.conversationId) ∧
    ¬ (∀ s, Reach (Start noAliases) (StepWhere plainStep fun _ _ => True) s →
      RoutesMarkers noAliases s) := by
  have hstart : Reach (Start noAliases) (StepWhere plainStep fun _ _ => True)
      { registry := { states := 1 } } := .start ⟨none, nofun, rfl⟩
  refine ⟨fun h => ?_, fun h => ?_⟩
  · have hrun : ∃ s, runSteps plainStep { registry := { states := 1 } } sameMessage =
        some s ∧ s.routed = [⟨"B", ⟨1, "A"⟩⟩] := ⟨_, rfl, by decide⟩
    obtain ⟨s, hrun, hrouted⟩ := hrun
    have hroute := h s (Reach.of_run _ hstart (by decide) hrun) ⟨"B", ⟨1, "A"⟩⟩
      (by simp [hrouted])
    obtain ⟨hops, hends⟩ := hroute
    have hself : EndsAt noAliases.resolveConversationAlias "B" 0 "B" := ⟨rfl, rfl⟩
    exact absurd (hself.unique hends).2 (by decide)
  · have hrun : ∃ s, runSteps plainStep { registry := { states := 1 } } concurrentCalls =
        some s ∧ s.routed = [⟨"B", ⟨1, "B"⟩⟩, ⟨"B", ⟨2, "B"⟩⟩] ∧ s.removed = [] :=
      ⟨_, rfl, by decide, rfl⟩
    obtain ⟨s, hrun, hrouted, hremoved⟩ := hrun
    have hroutes := h s (Reach.of_run _ hstart (by decide) hrun)
    have hself : ResolvesTo noAliases "B" "B" := ⟨0, rfl, rfl⟩
    have hsame := hroutes.same ⟨"B", ⟨1, "B"⟩⟩ (by simp [hrouted]) ⟨"B", ⟨2, "B"⟩⟩
      (by simp [hrouted]) "B" hself hself (by simp [hremoved]) (by simp [hremoved])
    exact absurd hsame (by decide)

end RoutingSystem

end VirtualContext
