import VirtualContext.Core.AliasResolution
import VirtualContext.Library.Entries
import VirtualContext.Library.Json
import VirtualContext.Proxy.MessageBodies

/-!
# The registry of conversations

`get_or_create` routes a request to the `ProxyState` of its conversation: by the
conversation id of the request, by the chat id or the hash of its system prompt,
by the hash of its last user message but one.  A request that nothing matches
claims a session that no table names, or creates one.  Every lookup and the
locked section is one step.
-/

namespace VirtualContext

open VirtualContext.Library

/-! ## Bodies -/

/-- A request body as far as it is routed by; other content is `null`. -/
structure RoutedBody (ρ : Type) where
  system : Option (Content ρ) := none
  messages : List (ChatMessage ρ) := []
  deriving DecidableEq, Repr

section Bodies

variable {ρ η : Type}

/-- `b.get("text", "")` of a dict of type `text`. -/
def Part.textBlock (part : Part ρ) : Option Text :=
  if part.type = some "text" then some (part.text.getD []) else none

/-- The text of a content, the texts of its blocks joined by the separator. -/
def Content.joinedText (separator : Text) : Content ρ → Text
  | .text content => content
  | .elements blocks =>
      separator.intercalate (blocks.filterMap (Element.read Part.textBlock))
  | .other _ => []

namespace RoutedBody

variable (body : RoutedBody ρ)

/-- The system prompt, of Anthropic or else of OpenAI. -/
def systemText (separator : Text) : Text :=
  let text := (body.system.map (Content.joinedText separator)).getD []
  if text ≠ [] then text
  else
    match body.messages.find? fun message =>
        message.role = some "system" ∨ message.role = some "developer" with
    | none => []
    | some message => (message.content.map (Content.joinedText separator)).getD []

/-- `_compute_system_hash`; `none` is the empty string. -/
def computeSystemHash (hash : Text → η) : Option η :=
  let text := body.systemText [' ']
  if text = [] then none else some (hash text)

/-- `_hash_user_message`; `none` is the empty string. -/
def hashUserMessage (hash : Text → η) (position : Nat) : Option η :=
  let userMessages := body.messages.filter (·.role = some "user")
  match userMessages.reverse[position]? with
  | none => none
  | some message =>
      let content := (message.content.map (Content.joinedText [' '])).getD []
      if content = [] then none else some (hash content)

end RoutedBody

/-- The text up to the first closing fence, and what follows the fence. -/
def untilFence : Text → Option (Text × Text)
  | [] => none
  | c :: cs =>
      if "\n```".toList.isPrefixOf (c :: cs) then some ([], cs.drop 3)
      else (untilFence cs).map fun (block, rest) => (c :: block, rest)

/-- `\s*\n(.*?)\n```` from here on; the spaces are matched greedily. -/
def fencedBlock : Text → Option (Text × Text)
  | [] => none
  | c :: cs =>
      if isPySpace c then
        (fencedBlock cs).orElse fun _ => if c = '\n' then untilFence cs else none
      else none

/-- The blocks that `_SYS_JSON_BLOCK_RE.finditer` finds, past `skip` characters. -/
def jsonBlocks : (skip : Nat) → Text → List Text
  | _, [] => []
  | skip + 1, _ :: cs => jsonBlocks skip cs
  | 0, c :: cs =>
      if "```json".toList.isPrefixOf (c :: cs) then
        match fencedBlock (cs.drop 6) with
        | some (block, rest) => block :: jsonBlocks (cs.length - rest.length) cs
        | none => jsonBlocks 0 cs
      else jsonBlocks 0 cs

/-- The chat id that a decoded block gives. -/
def Json.chatId : Json → Option String
  | .obj entries =>
      match Json.get entries "chat_id" with
      | some (.str chatId) => some chatId
      | _ => none
  | _ => none

/-- `_extract_chat_id`; `none` is the empty string. -/
def RoutedBody.extractChatId (loads : Text → Option Json) (body : RoutedBody ρ) :
    Option String :=
  let blocks := jsonBlocks 0 (body.systemText ['\n'])
  match blocks.findSome? fun block => (loads block).bind Json.chatId with
  | some chatId => if chatId = "" then none else some chatId
  | none => none

/-- What a request is routed by, and the hash of its last user message. -/
structure RoutingKeys (η : Type) where
  chatId : Option String := none
  sysHash : Option η := none
  msgHash : Option η := none
  lastHash : Option η := none
  deriving DecidableEq, Repr

def routingKeys (loads : Text → Option Json) (hash : Text → η) :
    Option (RoutedBody ρ) → RoutingKeys η
  | none => {}
  | some body =>
      { chatId := body.extractChatId loads
        sysHash := body.computeSystemHash hash
        msgHash := body.hashUserMessage hash 1
        lastHash := body.hashUserMessage hash 0 }

end Bodies

/-! ## The registry -/

/-- A `ProxyState` object, with the conversation id of its engine. -/
structure ProxyState where
  number : Nat
  conversationId : ConversationId
  deriving DecidableEq, Repr

structure SessionRegistry (η : Type) where
  conversations : Entries ConversationId ProxyState := []
  sysHashes : Entries η ConversationId := []
  chatIds : Entries String ConversationId := []
  lastMsgHashes : Entries η ConversationId := []
  /-- The number of the next object. -/
  states : Nat := 0
  deriving DecidableEq, Repr

/-- What the configuration and the store say when an engine is made. -/
structure EngineSetup where
  conversationId : ConversationId
  attachable : Bool := true
  deriving DecidableEq, Repr

/-- The default bound of `walk_conversation_alias_chain`. -/
def engineMaxHops : Nat := 8

/-- The conversation id of a new engine, unless its construction fails. -/
def engineConversationId (aliases : ConversationAliases) (setup : EngineSetup)
    (conversationId : Option ConversationId) : Option ConversationId :=
  let raw := conversationId.getD setup.conversationId
  match walkConversationAliasChain aliases raw engineMaxHops with
  | .error _ => none
  | .ok resolved => if resolved ≠ raw ∧ ¬ setup.attachable then none else some resolved

namespace SessionRegistry

variable {η : Type} [DecidableEq η] (registry : SessionRegistry η)

/-- `update_last_message_hash` -/
def updateLastMessageHash (keys : RoutingKeys η) (conversationId : ConversationId) :
    SessionRegistry η :=
  match keys.lastHash with
  | none => registry
  | some lastHash =>
      { registry with
        lastMsgHashes := registry.lastMsgHashes.set lastHash conversationId }

/-- The live session that a table names for a key. -/
def lookup {κ : Type} [DecidableEq κ] (table : Entries κ ConversationId)
    (key : Option κ) : Option (ConversationId × ProxyState) :=
  key.bind fun key => (table.get key).bind fun sid =>
    (registry.conversations.get sid).map fun state => (sid, state)

def byMarker (conversationId : Option ConversationId) :
    Option (ConversationId × ProxyState) :=
  conversationId.bind fun conversationId =>
    registry.conversations.find? (·.2.conversationId = conversationId)

def byChatId (keys : RoutingKeys η) : Option (ConversationId × ProxyState) :=
  registry.lookup registry.chatIds keys.chatId

def bySysHash (keys : RoutingKeys η) : Option (ConversationId × ProxyState) :=
  registry.lookup registry.sysHashes keys.sysHash

def byLastMessage (keys : RoutingKeys η) : Option (ConversationId × ProxyState) :=
  registry.lookup registry.lastMsgHashes keys.msgHash

/-- `sid in claimed_sids` -/
def isClaimed (sid : ConversationId) : Bool :=
  registry.sysHashes.any (·.2 = sid) || registry.lastMsgHashes.any (·.2 = sid) ||
    registry.chatIds.any (·.2 = sid)

def unclaimed : Option (ConversationId × ProxyState) :=
  registry.conversations.find? fun entry => !registry.isClaimed entry.1

/-- The tables that a claimed or created session is put into. -/
def register (keys : RoutingKeys η) (sid : ConversationId) : SessionRegistry η :=
  updateLastMessageHash
    { registry with
      chatIds := keys.chatId.elim registry.chatIds (registry.chatIds.set · sid)
      sysHashes := keys.sysHash.elim registry.sysHashes (registry.sysHashes.set · sid) }
    keys sid

/-- A new session, in the place of the one that has its conversation id. -/
def create (keys : RoutingKeys η) (conversationId : ConversationId) :
    SessionRegistry η × ProxyState :=
  let state := ⟨registry.states, conversationId⟩
  (register
    { registry with
      conversations := registry.conversations.set conversationId state
      states := registry.states + 1 }
    keys conversationId, state)

/-! ## Calls -/

/-- The step that a call of `get_or_create` makes next. -/
inductive Lookup where
  | marker | chatId | sysHash | lastMessage | locked
  deriving DecidableEq, Repr

end SessionRegistry

/--
A call of `get_or_create`, with its conversation id as given and as redirected;
`none` is an empty one.
-/
structure RoutingCall (η : Type) where
  requested : Option ConversationId
  conversationId : Option ConversationId
  keys : RoutingKeys η
  next : SessionRegistry.Lookup := .marker
  deriving DecidableEq, Repr

/-- What comes of a step of a call. -/
inductive Routing (η : Type) where
  | pending (call : RoutingCall η)
  | routed (registry : SessionRegistry η) (state : ProxyState)
  | failed
  deriving DecidableEq, Repr

namespace SessionRegistry

variable {η : Type} [DecidableEq η] (registry : SessionRegistry η)

/-- The alias of an explicit conversation id is followed once. -/
def beginCall (aliases : ConversationAliases) (requested : Option ConversationId)
    (keys : RoutingKeys η) : RoutingCall η where
  requested := requested.filter (· ≠ "")
  conversationId :=
    (requested.filter (· ≠ "")).map fun conversationId =>
      (aliases.resolveConversationAlias conversationId).getD conversationId
  keys := keys

/-- The session that was looked up is returned, or the next step is made. -/
def orElse (found : Option (ConversationId × ProxyState)) (keys : RoutingKeys η)
    (next : Routing η) : Routing η :=
  match found with
  | some (sid, state) => .routed (registry.updateLastMessageHash keys sid) state
  | none => next

/-- The last part of the locked section: a session is claimed or created. -/
def claimOrCreate (aliases : ConversationAliases) (setup : EngineSetup)
    (call : RoutingCall η) : Routing η :=
  match registry.unclaimed with
  | some (sid, state) => .routed (registry.register call.keys sid) state
  | none =>
      match engineConversationId aliases setup call.conversationId with
      | none => .failed
      | some conversationId =>
          let (registry, state) := registry.create call.keys conversationId
          .routed registry state

/-- One step of `get_or_create`. -/
def advance (aliases : ConversationAliases) (setup : EngineSetup)
    (call : RoutingCall η) : Routing η :=
  let keys := call.keys
  match call.next with
  | .marker =>
      registry.orElse (registry.byMarker call.conversationId) keys
        (.pending { call with next := .chatId })
  | .chatId =>
      registry.orElse (registry.byChatId keys) keys
        (.pending { call with next := .sysHash })
  | .sysHash =>
      registry.orElse (registry.bySysHash keys) keys
        (.pending { call with next := .lastMessage })
  | .lastMessage =>
      registry.orElse (registry.byLastMessage keys) keys
        (.pending { call with next := .locked })
  | .locked =>
      registry.orElse (registry.byChatId keys) keys <|
        registry.orElse (registry.bySysHash keys) keys <|
          registry.orElse (registry.byLastMessage keys) keys <|
            registry.claimOrCreate aliases setup call

/-- The session that the lookups of a step after the first find, or that is claimed. -/
def matched (call : RoutingCall η) : Option (ConversationId × ProxyState) :=
  match call.next with
  | .marker => none
  | .chatId => registry.byChatId call.keys
  | .sysHash => registry.bySysHash call.keys
  | .lastMessage => registry.byLastMessage call.keys
  | .locked =>
      registry.byChatId call.keys <|> registry.bySysHash call.keys <|>
        registry.byLastMessage call.keys <|> registry.unclaimed

/-- `remove_conversation` -/
def removeConversation (conversationId : ConversationId) : SessionRegistry η :=
  { registry with
    conversations := registry.conversations.filter (·.1 ≠ conversationId)
    sysHashes := registry.sysHashes.filter (·.2 ≠ conversationId)
    chatIds := registry.chatIds.filter (·.2 ≠ conversationId)
    lastMsgHashes := registry.lastMsgHashes.filter (·.2 ≠ conversationId) }

/-! ## What a step of a call can do -/

variable {registry}

@[simp] theorem updateLastMessageHash_conversations (keys : RoutingKeys η)
    (sid : ConversationId) :
    (registry.updateLastMessageHash keys sid).conversations = registry.conversations := by
  unfold updateLastMessageHash
  split <;> rfl

@[simp] theorem updateLastMessageHash_chatIds (keys : RoutingKeys η)
    (sid : ConversationId) :
    (registry.updateLastMessageHash keys sid).chatIds = registry.chatIds := by
  unfold updateLastMessageHash
  split <;> rfl

@[simp] theorem updateLastMessageHash_states (keys : RoutingKeys η)
    (sid : ConversationId) :
    (registry.updateLastMessageHash keys sid).states = registry.states := by
  unfold updateLastMessageHash
  split <;> rfl

@[simp] theorem register_conversations (keys : RoutingKeys η) (sid : ConversationId) :
    (registry.register keys sid).conversations = registry.conversations := by
  simp [register]

@[simp] theorem register_states (keys : RoutingKeys η) (sid : ConversationId) :
    (registry.register keys sid).states = registry.states := by
  simp [register]

@[simp] theorem orElse_none (keys : RoutingKeys η) (next : Routing η) :
    registry.orElse none keys next = next := rfl

/-- What a table names is live. -/
theorem get_of_lookup {κ : Type} [DecidableEq κ] {table : Entries κ ConversationId}
    {key : Option κ} {sid : ConversationId} {state : ProxyState}
    (h : registry.lookup table key = some (sid, state)) :
    ∃ k, key = some k ∧ table.get k = some sid ∧
      registry.conversations.get sid = some state := by
  obtain ⟨k, hk, h⟩ := Option.bind_eq_some_iff.1 h
  obtain ⟨sid', hsid, h⟩ := Option.bind_eq_some_iff.1 h
  obtain ⟨state', hstate, heq⟩ := Option.map_eq_some_iff.1 h
  obtain ⟨rfl, rfl⟩ := Prod.mk.inj heq
  exact ⟨k, hk, hsid, hstate⟩

/-- What the lookups find is live. -/
theorem mem_of_matched {call : RoutingCall η} {session : ConversationId × ProxyState}
    (h : registry.matched call = some session) : session ∈ registry.conversations := by
  have hlookup : ∀ {κ : Type} [DecidableEq κ] {table : Entries κ ConversationId}
      {key : Option κ}, registry.lookup table key = some session →
        session ∈ registry.conversations := by
    intro κ _ table key hfound
    obtain ⟨k, -, -, hget⟩ := get_of_lookup hfound
    exact Entries.mem_of_get hget
  obtain ⟨requested, conversationId, keys, next⟩ := call
  cases next with
  | marker => cases h
  | chatId => exact hlookup h
  | sysHash => exact hlookup h
  | lastMessage => exact hlookup h
  | locked =>
      simp only [matched, Option.orElse_eq_some] at h
      rcases h with h | ⟨-, h | ⟨-, h | ⟨-, h⟩⟩⟩
      · exact hlookup h
      · exact hlookup h
      · exact hlookup h
      · exact List.mem_of_find?_eq_some h

/-- The outcomes of a step, with what they leave of the sessions. -/
inductive Advanced (aliases : ConversationAliases) (setup : EngineSetup)
    (registry : SessionRegistry η) (call : RoutingCall η) : Routing η → Prop where
  | pending (next : Lookup) : Advanced aliases setup registry call
      (.pending { call with next })
  | marker {sid : ConversationId} {state : ProxyState} {registry' : SessionRegistry η}
      (found : registry.byMarker call.conversationId = some (sid, state))
      (same : registry'.conversations = registry.conversations)
      (count : registry'.states = registry.states) :
      Advanced aliases setup registry call (.routed registry' state)
  | matched {sid : ConversationId} {state : ProxyState} {registry' : SessionRegistry η}
      (found : registry.matched call = some (sid, state))
      (same : registry'.conversations = registry.conversations)
      (count : registry'.states = registry.states) :
      Advanced aliases setup registry call (.routed registry' state)
  | created {conversationId : ConversationId} (locked : call.next = .locked)
      (unmatched : registry.matched call = none)
      (engine : engineConversationId aliases setup call.conversationId =
        some conversationId) :
      Advanced aliases setup registry call
        (.routed (registry.create call.keys conversationId).1
          (registry.create call.keys conversationId).2)
  | failed : Advanced aliases setup registry call .failed

theorem advance_spec (aliases : ConversationAliases) (setup : EngineSetup)
    (registry : SessionRegistry η) (call : RoutingCall η) :
    Advanced aliases setup registry call (registry.advance aliases setup call) := by
  have hmatched : ∀ {found next}, registry.matched call = found →
      (found = none → Advanced aliases setup registry call next) →
        Advanced aliases setup registry call (registry.orElse found call.keys next) := by
    intro found next hfound hnext
    cases found with
    | none => exact hnext rfl
    | some found => exact .matched hfound (by simp) (by simp)
  obtain ⟨requested, conversationId, keys, next⟩ := call
  cases next with
  | marker =>
      rw [advance]
      cases hfound : registry.byMarker conversationId with
      | none => exact .pending .chatId
      | some found => exact .marker hfound (by simp) (by simp)
  | chatId => exact hmatched rfl fun _ => .pending .sysHash
  | sysHash => exact hmatched rfl fun _ => .pending .lastMessage
  | lastMessage => exact hmatched rfl fun _ => .pending .locked
  | locked =>
      cases hchat : registry.byChatId keys with
      | some found =>
          simp only [advance, hchat]
          exact hmatched (by simp [matched, hchat]) nofun
      | none =>
      cases hsys : registry.bySysHash keys with
      | some found =>
          simp only [advance, hchat, hsys, orElse_none]
          exact hmatched (by simp [matched, hchat, hsys]) nofun
      | none =>
      cases hlast : registry.byLastMessage keys with
      | some found =>
          simp only [advance, hchat, hsys, hlast, orElse_none]
          exact hmatched (by simp [matched, hchat, hsys, hlast]) nofun
      | none =>
      cases hunclaimed : registry.unclaimed with
      | some found =>
          have hfound : registry.matched ⟨requested, conversationId, keys, .locked⟩ =
              some (found.1, found.2) := by
            simp [matched, hchat, hsys, hlast, hunclaimed]
          simp only [advance, hchat, hsys, hlast, orElse_none, claimOrCreate, hunclaimed]
          exact .matched hfound (by simp) (by simp)
      | none =>
          simp only [advance, hchat, hsys, hlast, orElse_none, claimOrCreate, hunclaimed]
          split
          next => exact .failed
          next hengine =>
            exact .created rfl (by simp [matched, hchat, hsys, hlast, hunclaimed]) hengine

end SessionRegistry

end VirtualContext
