import Mathlib.Algebra.GroupWithZero.Nat
import Mathlib.Data.List.Chain
import VirtualContext.Library.JsonDumps
import VirtualContext.Library.PrefixCache
import VirtualContext.Proxy.MessageBodies

/-!
# Counting the tokens of a payload

The body without its messages and each message are counted on their own, and the
counts of an earlier body are used again: that of the shell if its fingerprint
is the same, those of the messages as far as their fingerprints are.
Fingerprints are taken with the keys sorted, counts are not.
-/

namespace VirtualContext

open VirtualContext.Library

abbrev JsonBody := Fields Json

/-! ## Bodies -/

namespace JsonBody

def setKey (body : JsonBody) (key : String) (value : Json) : JsonBody :=
  body.map fun entry => if entry.1 = key then (key, value) else entry

/-- `_message_key` -/
def messageKey (body : JsonBody) : String :=
  (["messages", "input", "contents"].find? fun key => (Json.get body key).isSome).getD ""

/-- `_body_without_messages` -/
def withoutMessages (body : JsonBody) : JsonBody :=
  if messageKey body = "" then body else setKey body (messageKey body) (.arr [])

end JsonBody

def ApiFormat.messagesKey : ApiFormat → String
  | .anthropic => "messages"
  | .openai => "messages"
  | .gemini => "contents"
  | .openaiResponses => "input"

/-- `get_messages`; the Responses API also takes a text. -/
def ApiFormat.getMessages (fmt : ApiFormat) (body : JsonBody) : List Json :=
  match fmt, Json.get body fmt.messagesKey with
  | _, some (.arr messages) => messages
  | .openaiResponses, some (.str text) =>
      [.obj [("role", .str "user"), ("content", .str text)]]
  | _, _ => []

/-! ## Media -/

/-- Media by their data and type, or by a data URI cut at `;base64,`. -/
inductive MediaData where
  | typed (data : Json) (mediaType : Option Json)
  | uri (header data : Text)

def splitOnce (separator : Text) : Text → Option (Text × Text)
  | [] => none
  | c :: text =>
      if separator.isPrefixOf (c :: text) then
        some ([], (c :: text).drop separator.length)
      else (splitOnce separator text).map fun parts => (c :: parts.1, parts.2)

namespace MediaScan

def isText (value : Option Json) (text : String) : Bool :=
  match value with
  | some (.str s) => s = text
  | _ => false

def isTrue : Option Json → Bool
  | none => false
  | some .null => false
  | some (.bool value) => value
  | some (.int value) => value ≠ 0
  | some (.float value) => value ≠ 0
  | some (.str s) => s ≠ ""
  | some (.arr elements) => !elements.isEmpty
  | some (.obj entries) => !entries.isEmpty

/-- The entries of a value that is a dict. -/
def entries : Option Json → Fields Json
  | some (.obj entries) => entries
  | _ => []

def isDict : Option Json → Bool
  | some (.obj _) => true
  | _ => false

def base64Marker : Text := ";base64,".toList

/-- A data URI, cut in two. -/
def dataUri? : Option Json → Option (Text × Text)
  | some (.str s) =>
      if "data:".toList.isPrefixOf s.toList then splitOnce base64Marker s.toList else none
  | _ => none

mutual

/-- `_iter_nested_dicts` -/
def nestedDicts : Json → List (Fields Json)
  | .obj entries => entries :: nestedEntries entries
  | .arr elements => nestedElements elements
  | _ => []

def nestedElements : List Json → List (Fields Json)
  | [] => []
  | value :: rest => nestedDicts value ++ nestedElements rest

def nestedEntries : List (String × Json) → List (Fields Json)
  | [] => []
  | (_, value) :: rest => nestedDicts value ++ nestedEntries rest

end

/-- `_extract_media_from_block` of the base class. -/
def extractMedia (block : Fields Json) : Option MediaData :=
  let source := Json.get block "source"
  let data := Json.get (entries source) "data"
  if isText (Json.get (entries source) "type") "base64" && isTrue data then
    data.map fun data => .typed data (Json.get (entries source) "media_type")
  else if isText (Json.get block "type") "image_url" then
    (dataUri? (Json.get (entries (Json.get block "image_url")) "url")).map fun parts =>
      .uri parts.1 parts.2
  else none

/-- `_extract_media_from_block` of Gemini. -/
def extractInlineData (block : Fields Json) : Option MediaData :=
  let inline := entries (Json.get block "inline_data")
  let data := Json.get inline "data"
  if isTrue data then
    data.map fun data => .typed data (Json.get inline "mime_type")
  else none

/-- The data of a text behind `;base64,` is cut off. -/
def blankUri (uri : Text × Text) : Json :=
  .str (String.ofList (uri.1 ++ base64Marker))

/-- The changes that `_blank_non_token_fields_in_value` makes to one dict, if it makes any. -/
def blankMedia (block : Fields Json) : Option (Fields Json) :=
  let source := Json.get block "source"
  let imageUrl := Json.get block "image_url"
  let inline := Json.get block "inline_data"
  if isText (Json.get (entries source) "type") "base64" &&
      isTrue (Json.get (entries source) "data") then
    some (JsonBody.setKey block "source"
      (.obj (JsonBody.setKey (entries source) "data" (.str ""))))
  else if isText (Json.get block "type") "image_url" then
    match Json.get (entries imageUrl) "url" with
    | some (.str url) =>
        (splitOnce base64Marker url.toList).map fun uri =>
          JsonBody.setKey block "image_url"
            (.obj (JsonBody.setKey (entries imageUrl) "url" (blankUri uri)))
    | _ => none
  else if inline.isSome then
    if isTrue (Json.get (entries inline) "data") then
      some (JsonBody.setKey block "inline_data"
        (.obj (JsonBody.setKey (entries inline) "data" (.str ""))))
    else none
  else if isText (Json.get block "type") "input_image" then
    (dataUri? imageUrl).map fun uri =>
      JsonBody.setKey block "image_url" (blankUri uri)
  else none

/-- The signature of a thinking block is no text of the prompt. -/
def blankSignature (block : Fields Json) : Option (Fields Json) :=
  match Json.get block "signature" with
  | some (.str signature) =>
      if isText (Json.get block "type") "thinking" && signature ≠ "" then
        some (JsonBody.setKey block "signature" (.str ""))
      else none
  | _ => none

/-- The changes to one dict, and whether there are any. -/
def blankDict (block : Fields Json) : Fields Json × Bool :=
  let media := blankMedia block
  let signature := blankSignature (media.getD block)
  ((signature.or media).getD block, media.isSome || signature.isSome)

mutual

/-- `_blank_non_token_fields_in_value`.  The source changes a dict before those in it;
no change of the one touches what the other reads. -/
def blank : Json → Json × Bool
  | .obj entries =>
      let inner := blankEntries entries
      let outer := blankDict inner.1
      (.obj outer.1, inner.2 || outer.2)
  | .arr elements =>
      let inner := blankElements elements
      (.arr inner.1, inner.2)
  | value => (value, false)

def blankElements : List Json → List Json × Bool
  | [] => ([], false)
  | value :: rest =>
      ((blank value).1 :: (blankElements rest).1, (blank value).2 || (blankElements rest).2)

def blankEntries : List (String × Json) → List (String × Json) × Bool
  | [] => ([], false)
  | (key, value) :: rest =>
      ((key, (blank value).1) :: (blankEntries rest).1,
        (blank value).2 || (blankEntries rest).2)

end

end MediaScan

/-! ## Estimates -/

/-- What a format counts with.  The base class has its own estimates, others override them. -/
structure TokenEstimators where
  count : Text → Nat
  payloadTokens : JsonBody → Nat
  messageTokens : Json → Nat

/-- What is computed elsewhere: `repr` of a float, and the first digits of `sha256`. -/
structure FingerprintEnv (φ : Type) where
  floatRepr : ℚ → Text
  sha256 : Text → φ

section

variable {φ : Type} (env : FingerprintEnv φ)

/-- `_collect_media_from_value` of the formats that do not override the estimates. -/
def collectMedia (fmt : ApiFormat) (value : Json) : List MediaData :=
  (MediaScan.nestedDicts value).filterMap
    (if fmt = .gemini then MediaScan.extractInlineData else MediaScan.extractMedia)

/-- The messages of a body without what is not counted as text. -/
def blankMessages (fmt : ApiFormat) (body : JsonBody) : JsonBody × Bool :=
  match Json.get body fmt.messagesKey with
  | some (.arr messages) =>
      let inner := MediaScan.blankElements messages
      (JsonBody.setKey body fmt.messagesKey (.arr inner.1), inner.2)
  | _ => (body, false)

/-- The estimates of the base class, for the formats OpenAI Chat and Gemini. -/
def baseEstimators (fmt : ApiFormat) (count : Text → Nat) (mediaTokens : MediaData → Nat) :
    TokenEstimators where
  count := count
  payloadTokens body :=
    let media := (fmt.getMessages body).flatMap (collectMedia fmt)
    let blanked := blankMessages fmt body
    if media.isEmpty && !blanked.2 then count (Json.dumps env.floatRepr (.obj body))
    else
      max 1 (count (Json.dumps env.floatRepr (.obj blanked.1)) + (media.map mediaTokens).sum)
  messageTokens msg :=
    let media := collectMedia fmt msg
    let blanked := MediaScan.blank msg
    if media.isEmpty && !blanked.2 then count (Json.dumps env.floatRepr msg)
    else max 1 (count (Json.dumps env.floatRepr blanked.1) + (media.map mediaTokens).sum)

/-- The text of a value that a fingerprint is taken of. -/
def sortedDump (value : Json) : Text := Json.dumps env.floatRepr value.sortKeys

/-- `_fingerprint_payload_shell` and `_fingerprint_message_for_cache` -/
def fingerprint (value : Json) : φ := env.sha256 (sortedDump env value)

/-- The fingerprints of the messages stand with their tokens. -/
structure PayloadTokenCache (φ : Type) where
  formatName : ApiFormat
  messageKey : String
  shellFingerprint : φ
  shellTokens : Nat
  messages : List (φ × Nat)
  separatorTokens : Nat
  totalTokens : Nat
  deriving DecidableEq, Repr

structure PayloadTokenEstimate (φ : Type) where
  totalTokens : Nat
  cache : PayloadTokenCache φ
  reusedPrefixMessages : Nat
  recountedMessages : Nat
  shellCacheHit : Bool
  deriving DecidableEq, Repr

variable [DecidableEq φ] (est : TokenEstimators) (fmt : ApiFormat)

def estimatePayloadTokensSegmented (body : JsonBody) (cache : Option (PayloadTokenCache φ)) :
    PayloadTokenEstimate φ :=
  let messages := fmt.getMessages body
  let messageKey := body.messageKey
  let shell := body.withoutMessages
  let shellFingerprint := fingerprint env (.obj shell)
  let reusable := cache.filter fun cache =>
    cache.formatName = fmt && cache.messageKey = messageKey
  let shellHit := reusable.filter fun cache => cache.shellFingerprint = shellFingerprint
  let shellTokens :=
    match shellHit with
    | some cache => cache.shellTokens
    | none => est.payloadTokens shell
  let cached := (reusable.map (·.messages)).getD []
  let reused := reusedPrefix (fingerprint env) cached messages
  let counted := reused ++
    countAll (fingerprint env) est.messageTokens (messages.drop reused.length)
  let separatorTokens := est.count (List.replicate (messages.length - 1) ',')
  let totalTokens := shellTokens + (counted.map (·.2)).sum + separatorTokens
  { totalTokens
    cache :=
      { formatName := fmt
        messageKey
        shellFingerprint
        shellTokens
        messages := counted
        separatorTokens
        totalTokens }
    reusedPrefixMessages := reused.length
    recountedMessages := messages.length - reused.length
    shellCacheHit := shellHit.isSome }

/-- The cache after a run of requests, each counted with the cache of the last. -/
def cacheAfter (bodies : List JsonBody) : Option (PayloadTokenCache φ) :=
  bodies.foldl (fun cache body =>
    some (estimatePayloadTokensSegmented env est fmt body cache).cache) none

end

/-! ## Warm and cold -/

section

variable {φ : Type} [DecidableEq φ]

/-- The same total, and the same cache for the next request. -/
def PayloadTokenEstimate.Agrees (warm cold : PayloadTokenEstimate φ) : Prop :=
  warm.totalTokens = cold.totalTokens ∧ warm.cache = cold.cache

instance (warm cold : PayloadTokenEstimate φ) : Decidable (warm.Agrees cold) :=
  inferInstanceAs (Decidable (_ ∧ _))

variable (env : FingerprintEnv φ) (est : TokenEstimators) (fmt : ApiFormat)

/-- Shells and shared messages that only differ in the order of their keys have the same
counts. -/
def SameCounts (earlier body : JsonBody) : Prop :=
  earlier.messageKey = body.messageKey →
    (sortedDump env (.obj earlier.withoutMessages) =
        sortedDump env (.obj body.withoutMessages) →
      est.payloadTokens earlier.withoutMessages = est.payloadTokens body.withoutMessages) ∧
    ∀ pair ∈ sharedPrefix (sortedDump env) (fmt.getMessages earlier) (fmt.getMessages body),
      est.messageTokens pair.1 = est.messageTokens pair.2

variable {env est fmt}

/-- An estimate is told by the shell's tokens and the messages' tokens. -/
theorem agrees_cold_iff (body : JsonBody) (cache : Option (PayloadTokenCache φ)) :
    (estimatePayloadTokensSegmented env est fmt body cache).Agrees
        (estimatePayloadTokensSegmented env est fmt body none) ↔
      (estimatePayloadTokensSegmented env est fmt body cache).cache.shellTokens =
          est.payloadTokens body.withoutMessages ∧
        (estimatePayloadTokensSegmented env est fmt body cache).cache.messages =
          countAll (fingerprint env) est.messageTokens (fmt.getMessages body) := by
  have hcold : (estimatePayloadTokensSegmented env est fmt body none).cache.messages =
      countAll (fingerprint env) est.messageTokens (fmt.getMessages body) :=
    recount_nil (fmt.getMessages body)
  constructor
  · rintro ⟨-, hcache⟩
    rw [hcache]
    exact ⟨rfl, hcold⟩
  · rintro ⟨hshell, hmessages⟩
    have htotal : (estimatePayloadTokensSegmented env est fmt body cache).totalTokens =
        (estimatePayloadTokensSegmented env est fmt body none).totalTokens := by
      change (estimatePayloadTokensSegmented env est fmt body cache).cache.shellTokens +
          ((estimatePayloadTokensSegmented env est fmt body cache).cache.messages.map
            (·.2)).sum + _ =
        (estimatePayloadTokensSegmented env est fmt body none).cache.shellTokens +
          ((estimatePayloadTokensSegmented env est fmt body none).cache.messages.map
            (·.2)).sum + _
      rw [hshell, hmessages, hcold]
      rfl
    refine ⟨htotal, ?_⟩
    have hfields : ∀ c c' : PayloadTokenCache φ, c.formatName = c'.formatName →
        c.messageKey = c'.messageKey → c.shellFingerprint = c'.shellFingerprint →
        c.shellTokens = c'.shellTokens → c.messages = c'.messages →
        c.separatorTokens = c'.separatorTokens → c.totalTokens = c'.totalTokens → c = c' := by
      rintro ⟨⟩ ⟨⟩ rfl rfl rfl rfl rfl rfl rfl
      rfl
    exact hfields _ _ rfl rfl rfl hshell (hmessages.trans hcold.symm) rfl htotal

/-- The counts of one earlier body. -/
theorem warm_agrees_iff (hsha : Function.Injective env.sha256) (earlier body : JsonBody) :
    (estimatePayloadTokensSegmented env est fmt body
        (some (estimatePayloadTokensSegmented env est fmt earlier none).cache)).Agrees
        (estimatePayloadTokensSegmented env est fmt body none) ↔
      SameCounts env est fmt earlier body := by
  have hsame (value value' : Json) : fingerprint env value = fingerprint env value' ↔
      sortedDump env value = sortedDump env value' := hsha.eq_iff
  have hcold : (estimatePayloadTokensSegmented env est fmt earlier none).cache.messages =
      countAll (fingerprint env) est.messageTokens (fmt.getMessages earlier) :=
    recount_nil (fmt.getMessages earlier)
  rw [agrees_cold_iff]
  generalize hcache : (estimatePayloadTokensSegmented env est fmt earlier none).cache = cache
  have hformat : cache.formatName = fmt := by rw [← hcache]; rfl
  have hkey : cache.messageKey = earlier.messageKey := by rw [← hcache]; rfl
  have hprint : cache.shellFingerprint =
    fingerprint env (.obj earlier.withoutMessages) := by rw [← hcache]; rfl
  have htokens : cache.shellTokens = est.payloadTokens earlier.withoutMessages := by
    rw [← hcache]; rfl
  rw [hcache] at hcold
  rw [SameCounts]
  by_cases hkeys : earlier.messageKey = body.messageKey
  · have hreusable : (some cache).filter (fun cache =>
        cache.formatName = fmt && cache.messageKey = body.messageKey) = some cache := by
      simp [Option.filter, hformat, hkey, hkeys]
    have hmessages : (estimatePayloadTokensSegmented env est fmt body (some cache)).cache.messages =
        recount (fingerprint env) est.messageTokens cache.messages (fmt.getMessages body) := by
      simp only [estimatePayloadTokensSegmented, hreusable]
      rfl
    have hshell : (estimatePayloadTokensSegmented env est fmt body
        (some cache)).cache.shellTokens =
          if sortedDump env (.obj earlier.withoutMessages) =
            sortedDump env (.obj body.withoutMessages) then
            est.payloadTokens earlier.withoutMessages
          else est.payloadTokens body.withoutMessages := by
      simp only [estimatePayloadTokensSegmented, hreusable]
      split_ifs with hdump
      · rw [Option.filter_some_pos (by simpa [hprint] using (hsame _ _).mpr hdump)]
        exact htokens
      · rw [Option.filter_some_neg (by simpa [hprint] using fun h => hdump ((hsame _ _).mp h))]
    rw [hmessages, hcold, recount_eq_iff, hshell, imp_iff_right hkeys]
    refine and_congr ?_ ?_
    · split_ifs with hdump
      · exact (imp_iff_right hdump).symm
      · exact iff_of_true rfl fun h => absurd h hdump
    · have hshared : sharedPrefix (fingerprint env) (fmt.getMessages earlier)
          (fmt.getMessages body) = sharedPrefix (sortedDump env) (fmt.getMessages earlier)
          (fmt.getMessages body) := by
        simp only [sharedPrefix, hsame]
      rw [hshared]
  · have hreusable : (some cache).filter (fun cache =>
        cache.formatName = fmt && cache.messageKey = body.messageKey) = none := by
      simp [Option.filter, hkey, hkeys]
    refine iff_of_true ⟨?_, ?_⟩ fun h => absurd h hkeys
    · simp only [estimatePayloadTokensSegmented, hreusable]
      rfl
    · simp only [estimatePayloadTokensSegmented, hreusable]
      exact recount_nil (fmt.getMessages body)

end

/--
Whatever bodies were counted before, every estimate of a run is the same as without a
cache exactly if, from each body to the next, only what has the same tokens is told to
be the same by its sorted keys.
-/
theorem cached_run_agrees_iff {φ : Type} [DecidableEq φ] (env : FingerprintEnv φ)
    (est : TokenEstimators) (fmt : ApiFormat) (bodies : List JsonBody)
    (hsha : Function.Injective env.sha256) :
    (∀ earlier body, earlier ++ [body] <+: bodies →
      (estimatePayloadTokensSegmented env est fmt body (cacheAfter env est fmt earlier)).Agrees
        (estimatePayloadTokensSegmented env est fmt body none)) ↔
      bodies.IsChain (SameCounts env est fmt) := by
  have hafter (earlier : List JsonBody) (body : JsonBody) :
      cacheAfter env est fmt (earlier ++ [body]) =
        some (estimatePayloadTokensSegmented env est fmt body
          (cacheAfter env est fmt earlier)).cache := by
    rw [cacheAfter, List.foldl_append]
    rfl
  induction bodies using List.reverseRecOn with
  | nil => simp
  | append_singleton bodies body ih =>
      rw [List.isChain_append]
      constructor
      · intro hall
        have hbefore := ih.mp fun earlier other hin =>
          hall earlier other (hin.trans (List.prefix_append _ _))
        refine ⟨hbefore, List.isChain_singleton _, fun last hlast other hother => ?_⟩
        obtain rfl := Option.some.inj hother
        obtain ⟨front, rfl⟩ := List.getLast?_eq_some_iff.mp hlast
        have hnext := hall (front ++ [last]) body List.prefix_rfl
        have hcold := (hall front last (List.prefix_append _ _)).2
        rw [hafter, hcold, warm_agrees_iff hsha] at hnext
        exact hnext
      · rintro ⟨hbefore, -, hlast⟩ earlier other hin
        have hall := ih.mpr hbefore
        rcases List.prefix_concat_iff.mp hin with hwhole | hshorter
        · obtain ⟨rfl, hother⟩ := List.append_inj' hwhole rfl
          obtain rfl := (List.cons.inj hother).1
          cases earlier using List.reverseRecOn with
          | nil => exact ⟨rfl, rfl⟩
          | append_singleton front last =>
              have hcold := (hall front last List.prefix_rfl).2
              rw [hafter, hcold, warm_agrees_iff hsha]
              exact hlast last (by simp) other rfl
        · exact hall earlier other hshorter

/-! ## The order of keys -/

/-- Fingerprints that are the dumps themselves. -/
def wholeDumps : FingerprintEnv Text where
  floatRepr _ := []
  sha256 text := text

/-- A role at the start makes one token with what is before it. -/
def startCounter (text : Text) : Nat :=
  if "\x7b\"role".toList.isPrefixOf text then text.length / 4 else text.length / 4 + 1

def chatBody (messages : List Json) : JsonBody :=
  [("model", .str "gpt-4o"), ("messages", .arr messages)]

def roleFirst : Json := .obj [("role", .str "user"), ("content", .str "hi")]

def contentFirst : Json := .obj [("content", .str "hi"), ("role", .str "user")]

/-- The second body has the keys of its message in another order, and other tokens. -/
theorem reordered_keys_differ :
    let est := baseEstimators wholeDumps .openai startCounter fun _ => 0
    let cache := cacheAfter wholeDumps est .openai [chatBody [roleFirst]]
    (estimatePayloadTokensSegmented wholeDumps est .openai (chatBody [contentFirst])
        cache).totalTokens ≠
      (estimatePayloadTokensSegmented wholeDumps est .openai (chatBody [contentFirst])
        none).totalTokens := by
  decide +kernel

/-- A history that only grows is counted right. -/
theorem cached_run_agrees_iff_grown :
    let est := baseEstimators wholeDumps .openai startCounter fun _ => 0
    (estimatePayloadTokensSegmented wholeDumps est .openai (chatBody [roleFirst, contentFirst])
        (cacheAfter wholeDumps est .openai [chatBody [roleFirst]])).Agrees
      (estimatePayloadTokensSegmented wholeDumps est .openai
        (chatBody [roleFirst, contentFirst]) none) := by
  intro est
  refine (cached_run_agrees_iff wholeDumps est .openai
    [chatBody [roleFirst], chatBody [roleFirst, contentFirst]] fun _ _ h => h).mpr ?_
    [chatBody [roleFirst]] _ List.prefix_rfl
  refine List.isChain_pair.mpr fun _ => ⟨fun _ => rfl, ?_⟩
  decide +kernel

end VirtualContext
