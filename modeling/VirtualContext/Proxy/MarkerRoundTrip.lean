import VirtualContext.Proxy.MarkerStripping

/-!
# The way of a conversation marker

What is injected into a response is extracted from the history that the client
sends back, if no other marker of the response is read before it, and stripping
takes the markers out of the assistant texts and changes nothing else.
-/

namespace VirtualContext

open Library

variable {ρ : Type}

/-! ## Reading an injected marker -/

/-- The word that the proxy writes. -/
theorem word_conversation {id : Text} (hid : IsId id) :
    vcConversationRe.Word id
      ("<!-- vc:conversation=".toList ++ id ++ " -->".toList) :=
  ⟨hid, .inr rfl⟩

/-- A marker is read unless the text has one before it. -/
theorem search_append_marker {id : Text} (hid : IsId id) (text : Text) :
    vcConversationRe.search (text ++ conversationMarker id) =
      (vcConversationRe.search text).or (some id) := by
  have hword : vcConversationRe.search
      ("<!-- vc:conversation=".toList ++ id ++ " -->".toList) = some id := by
    have hfind := Matcher.find_word (word_conversation hid) []
    rw [List.append_nil] at hfind
    rw [Matcher.search, hfind, Option.map_some]
  rw [conversationMarker, Matcher.search_append_cons vcConversationRe_avoids, hword]

/-- No text has the marker of another conversation in front. -/
def OnlyMarker (id : Text) (texts : List Text) : Prop :=
  ∀ text ∈ texts, ∀ other, vcConversationRe.search text = some other → other = id

theorem OnlyMarker.left {id : Text} {texts more : List Text}
    (h : OnlyMarker id (texts ++ more)) : OnlyMarker id texts :=
  fun text htext => h text (List.mem_append_left _ htext)

theorem OnlyMarker.right {id : Text} {texts more : List Text}
    (h : OnlyMarker id (texts ++ more)) : OnlyMarker id more :=
  fun text htext => h text (List.mem_append_right _ htext)

theorem findSome?_eq_of_only {α β : Type} {f : α → Option β} {b : β}
    {before after : List α} {a : α}
    (hbefore : ∀ x ∈ before, ∀ other, f x = some other → other = b)
    (ha : f a = some b) : (before ++ a :: after).findSome? f = some b := by
  induction before with
  | nil => simp [ha]
  | cons x before ih =>
      have hrest := ih fun y hy => hbefore y (List.mem_cons_of_mem _ hy)
      cases hx : f x with
      | none => simpa [hx] using hrest
      | some other =>
          have := hbefore x List.mem_cons_self other hx
          simp [hx, this]

theorem OnlyMarker.findSome? {id : Text} {texts : List Text}
    (h : OnlyMarker id texts) :
    ∀ other, texts.findSome? vcConversationRe.search = some other → other = id := by
  intro other hother
  obtain ⟨text, htext, hsearch⟩ := List.exists_of_findSome?_eq_some hother
  exact h text htext other hsearch

/-- The marker appended to one of the texts is found first. -/
theorem findSome?_marked {id : Text} (hid : IsId id) {before : List Text}
    (after : List Text) {text : Text} (hbefore : OnlyMarker id before)
    (htext : ∀ other, vcConversationRe.search text = some other → other = id) :
    (before ++ (text ++ conversationMarker id) :: after).findSome?
      vcConversationRe.search = some id := by
  refine findSome?_eq_of_only hbefore ?_
  rw [search_append_marker hid]
  cases hsearch : vcConversationRe.search text with
  | none => rfl
  | some other => rw [htext other hsearch]; rfl

theorem findSome?_marker_alone {id : Text} (hid : IsId id) {before : List Text}
    (hbefore : OnlyMarker id before) :
    (before ++ [conversationMarker id]).findSome? vcConversationRe.search =
      some id := by
  have hempty : ∀ other, vcConversationRe.search [] = some other → other = id := by
    intro other h
    cases h
  have := findSome?_marked hid [] hbefore hempty
  rwa [List.nil_append] at this

theorem conversationMarker_ne_nil (id : Text) : conversationMarker id ≠ [] :=
  List.cons_ne_nil _ _

theorem OnlyMarker.of_subset {id : Text} {texts more : List Text}
    (h : OnlyMarker id more) (hsub : texts ⊆ more) : OnlyMarker id texts :=
  fun text htext => h text (hsub htext)

/-! ## Injecting into a content list -/

section

variable {reads : Part ρ → Option Text} {accepts : Part ρ → Bool}

def Element.accepted (accepts : Part ρ → Bool) : Element ρ → Bool
  | .part p => accepts p
  | .other _ => false

/-- The elements up to the last one that a marker can be appended to. -/
def Element.upTo (accepts : Part ρ → Bool) (elements : List (Element ρ)) :
    List (Element ρ) :=
  elements.rdropWhile fun e => !e.accepted accepts

/-- A format reads the texts that it appends to. -/
structure ReadsWritten (reads : Part ρ → Option Text) (accepts : Part ρ → Bool) :
    Prop where
  written : ∀ p text, accepts p = true → text ≠ [] →
    reads { p with text := some text } = some text
  old : ∀ p, accepts p = true →
    reads p = some (p.text.getD []) ∨ p.text.getD [] = []

theorem Element.appendMarker_eq_some {marker : Text} {e new : Element ρ}
    (h : e.appendMarker accepts marker = some new) :
    ∃ p, e = .part p ∧ accepts p = true ∧
      new = .part { p with text := some (p.text.getD [] ++ marker) } := by
  cases e with
  | other value => cases h
  | part p =>
      rw [appendMarker] at h
      split at h
      · rename_i haccepts
        exact ⟨p, rfl, haccepts, (Option.some.inj h).symm⟩
      · cases h

theorem Element.appendMarker_eq_none_iff {marker : Text} {e : Element ρ} :
    e.appendMarker accepts marker = none ↔ e.accepted accepts = false := by
  cases e <;> simp [appendMarker, accepted]

theorem rdropWhile_of_last {α : Type} {p : α → Bool} (before : List α)
    {after : List α} {a : α} (ha : p a = false) (hafter : ∀ x ∈ after, p x = true) :
    (before ++ a :: after).rdropWhile p = before ++ [a] ∧
      (before ++ a :: after).rtakeWhile p = after := by
  have hreverse : (before ++ a :: after).reverse =
      after.reverse ++ a :: before.reverse := by simp
  have hafter' : ∀ x ∈ after.reverse, p x = true := by simpa using hafter
  constructor
  · rw [List.rdropWhile, hreverse, List.dropWhile_append_of_pos hafter']
    simp [ha]
  · rw [List.rtakeWhile, hreverse, List.takeWhile_append_of_pos hafter']
    simp [ha]

/-- Where a list is read after a marker was appended to one of its texts. -/
theorem texts_replaceLast (hr : ReadsWritten reads accepts) {id : Text}
    {elements new : List (Element ρ)}
    (h : replaceLast (Element.appendMarker accepts (conversationMarker id))
      elements = some new)
    (honly : OnlyMarker id (Element.texts reads (Element.upTo accepts elements)))
    (hid : IsId id) :
    (Element.texts reads new).findSome? vcConversationRe.search = some id := by
  obtain ⟨before, e, e', after, rfl, he, hafter, rfl⟩ := replaceLast_eq_some h
  obtain ⟨p, rfl, haccepts, rfl⟩ := Element.appendMarker_eq_some he
  have hlast : Element.upTo accepts (before ++ .part p :: after) =
      before ++ [.part p] := by
    refine (rdropWhile_of_last before ?_ ?_).1
    · simp [Element.accepted, haccepts]
    · intro x hx
      rw [Element.appendMarker_eq_none_iff.mp (hafter x hx)]
      rfl
  rw [hlast, Element.texts, List.filterMap_append] at honly
  have hwritten : Element.read reads
      (.part { p with text := some (p.text.getD [] ++ conversationMarker id) }) =
        some (p.text.getD [] ++ conversationMarker id) :=
    hr.written p _ haccepts (by simp [conversationMarker_ne_nil])
  have htext : ∀ other, vcConversationRe.search (p.text.getD []) = some other →
      other = id := by
    rcases hr.old p haccepts with hreads | hempty
    · exact honly.right _ (by simp [Element.read, hreads])
    · rw [hempty]
      intro other hother
      cases hother
  rw [Element.texts, List.filterMap_append, List.filterMap_cons_some hwritten]
  exact findSome?_marked hid _ honly.left htext

theorem Element.upTo_subset (elements : List (Element ρ)) :
    Element.texts reads (Element.upTo accepts elements) ⊆
      Element.texts reads elements :=
  List.filterMap_subset _ (List.rdropWhile_prefix _ _).subset

end

/-! ## The history that the client sends back -/

theorem latestMarker_append {μ : Type} (textsOf : μ → List Text)
    (messages more : List μ) :
    latestMarker textsOf (messages ++ more) =
      (latestMarker textsOf more).or (latestMarker textsOf messages) := by
  rw [latestMarker, List.reverse_append, List.findSome?_append]
  rfl

theorem latestMarker_concat {μ : Type} {textsOf : μ → List Text}
    {messages : List μ} {msg : μ} {id : Text}
    (h : (textsOf msg).findSome? vcConversationRe.search = some id) :
    latestMarker textsOf (messages ++ [msg]) = some id := by
  rw [latestMarker_append]
  simp [latestMarker, h]

namespace AnthropicFormat

/-- The texts of a response that are read before the end of the injected one. -/
def textsBefore (response : AnthropicResponse ρ) : List Text :=
  Element.texts reads (response.content.getD [])

def echo (history : ChatBody ρ) (response : AnthropicResponse ρ) : ChatBody ρ :=
  let msg : ChatMessage ρ :=
    { role := some "assistant", content := response.content.map .elements }
  { history with messages := some (history.messages.getD [] ++ [msg]) }

theorem readsWritten : ReadsWritten (@reads ρ) fun p => p.type == some "text" where
  written p text haccepts _ := by
    simp only [beq_iff_eq] at haccepts
    simp [reads, haccepts]
  old p haccepts := by
    simp only [beq_iff_eq] at haccepts
    exact .inl (by simp [reads, haccepts])

theorem extract_echo {id : Text} (hid : IsId id) (history : ChatBody ρ)
    {response : AnthropicResponse ρ} {content : List (Element ρ)}
    (hcontent : response.content = some content)
    (honly : OnlyMarker id (textsBefore response)) :
    extractConversationId (echo history
      (injectConversationMarker response (conversationMarker id))) = some id := by
  rw [textsBefore, hcontent, Option.getD_some] at honly
  rw [extractConversationId, injectConversationMarker, hcontent]
  refine latestMarker_concat ?_
  simp only [assistantTexts, ChatMessage.texts, Option.map_some, if_true]
  cases hreplace : replaceLast
      (Element.appendMarker (fun p => p.type == some "text") (conversationMarker id))
      content with
  | some new =>
      exact texts_replaceLast readsWritten hreplace
        (honly.of_subset (Element.upTo_subset content)) hid
  | none =>
      rw [Option.getD_none, Element.texts, List.filterMap_append]
      exact findSome?_marker_alone hid honly

end AnthropicFormat

namespace OpenAIFormat

def textsBefore (response : OpenAIResponse ρ) : List Text :=
  match response.choices with
  | some ({ message := some msg, .. } :: _) => [msg.content.getD []]
  | _ => []

/-- The message of the first choice; without one nothing is sent back. -/
def echo (history : ChatBody ρ) (response : OpenAIResponse ρ) : ChatBody ρ :=
  match response.choices with
  | some ({ message := some msg, .. } :: _) =>
      let msg : ChatMessage ρ :=
        { role := some "assistant", content := msg.content.map .text, rest := msg.rest }
      { history with messages := some (history.messages.getD [] ++ [msg]) }
  | _ => history

theorem extract_echo {id : Text} (hid : IsId id) (history : ChatBody ρ)
    {response : OpenAIResponse ρ} {msg : ChoiceMessage ρ} {rest : Fields ρ}
    {choices : List (Choice ρ)}
    (hchoices : response.choices = some ({ message := some msg, rest } :: choices))
    (honly : OnlyMarker id (textsBefore response)) :
    extractConversationId (echo history
      (injectConversationMarker response (conversationMarker id))) = some id := by
  have htext : OnlyMarker id [msg.content.getD []] := by
    simpa [textsBefore, hchoices] using honly
  rw [extractConversationId, injectConversationMarker, hchoices]
  refine latestMarker_concat ?_
  have hnone : OnlyMarker id [] := fun text htext => absurd htext List.not_mem_nil
  have hmarked := findSome?_marked hid [] hnone (htext _ List.mem_cons_self)
  simpa [AnthropicFormat.assistantTexts, ChatMessage.texts] using hmarked

end OpenAIFormat

namespace GeminiFormat

def textsBefore (response : GeminiResponse ρ) : List Text :=
  match response.candidates with
  | some ({ content := some { parts := some parts, .. }, .. } :: _) =>
      Element.texts reads parts
  | _ => []

def echo (history : GeminiBody ρ) (response : GeminiResponse ρ) : GeminiBody ρ :=
  match response.candidates with
  | some ({ content := some content, .. } :: _) =>
      let msg : GeminiMessage ρ := { content with role := some "model" }
      { history with contents := some (history.contents.getD [] ++ [msg]) }
  | _ => history

theorem readsWritten : ReadsWritten (@reads ρ) fun p => p.text.isSome where
  written p text _ _ := rfl
  old p haccepts := by
    obtain ⟨text, htext⟩ := Option.isSome_iff_exists.mp haccepts
    exact .inl (by simp [reads, htext])

theorem extract_echo {id : Text} (hid : IsId id) (history : GeminiBody ρ)
    {response : GeminiResponse ρ} {role : Option String} {parts : List (Element ρ)}
    {fields rest : Fields ρ} {candidates : List (Candidate ρ)}
    (hcandidates : response.candidates =
      some ({ content := some { role, parts := some parts, rest := fields }, rest } ::
        candidates))
    (honly : OnlyMarker id (textsBefore response)) :
    extractConversationId (echo history
      (injectConversationMarker response (conversationMarker id))) = some id := by
  have htexts : OnlyMarker id (Element.texts reads parts) := by
    simpa [textsBefore, hcandidates] using honly
  rw [extractConversationId, injectConversationMarker, hcandidates]
  refine latestMarker_concat ?_
  simp only [modelTexts, if_true, Option.getD_some]
  cases hreplace : replaceLast
      (Element.appendMarker (fun p => p.text.isSome) (conversationMarker id))
      parts with
  | some new =>
      exact texts_replaceLast readsWritten hreplace
        (htexts.of_subset (Element.upTo_subset parts)) hid
  | none =>
      rw [Option.getD_none, Element.texts, List.filterMap_append]
      exact findSome?_marker_alone hid htexts

end GeminiFormat

namespace OpenAIResponsesFormat

def hasOutputText : InputItem ρ → Bool
  | .message { content := some (.elements elements), .. } =>
      elements.any (Element.accepted isOutputText)
  | _ => false

def textsUpTo : InputItem ρ → List Text
  | .message { content := some (.elements elements), .. } =>
      Element.texts reads (Element.upTo isOutputText elements)
  | _ => []

/-- Later items are read first, and then the item of the injected block. -/
def textsBefore (response : ResponsesResponse ρ) : List Text :=
  let output := response.output.getD []
  match (output.rdropWhile fun item => !hasOutputText item).getLast? with
  | some item =>
      (output.rtakeWhile fun item => !hasOutputText item).flatMap assistantTexts ++
        textsUpTo item
  | none => []

/-- An input text is the same as one message of the user. -/
def inputItems : Option (ResponsesInput ρ) → List (InputItem ρ)
  | none => []
  | some (.text text) =>
      [.message { role := some "user", content := some (.text text) }]
  | some (.items items) => items

/-- The output items come back as they are. -/
def echo (history : ResponsesBody ρ) (response : ResponsesResponse ρ) :
    ResponsesBody ρ :=
  { history with
    input := some (.items (inputItems history.input ++ response.output.getD [])) }

/-- Only messages of the assistant have `output_text` blocks. -/
def WellFormed (response : ResponsesResponse ρ) : Prop :=
  ∀ msg, .message msg ∈ response.output.getD [] →
    hasOutputText (.message msg) = true → msg.role = some "assistant"

theorem readsWritten : ReadsWritten (@reads ρ) isOutputText where
  written p text _ hne := by simp [reads, hne]
  old p _ := by
    cases htext : p.text with
    | none => exact .inr rfl
    | some text =>
        by_cases hne : text = []
        · exact .inr (by simp [hne])
        · exact .inl (by simp [reads, htext, hne])

theorem appendToItem_eq_some {marker : Text} {item new : InputItem ρ}
    (h : appendToItem marker item = some new) :
    ∃ msg elements news, item = .message msg ∧
      msg.content = some (.elements elements) ∧
      replaceLast (Element.appendMarker isOutputText marker) elements = some news ∧
      new = .message { msg with content := some (.elements news) } := by
  cases item with
  | other value => cases h
  | message msg =>
      rw [appendToItem] at h
      split at h
      · rename_i elements hcontent
        obtain ⟨news, hnews, rfl⟩ := Option.map_eq_some_iff.mp h
        exact ⟨msg, elements, news, rfl, hcontent, hnews, rfl⟩
      · cases h

/-- A marker is appended to the items that have a block for it. -/
theorem appendToItem_isSome (marker : Text) (item : InputItem ρ) :
    (appendToItem marker item).isSome = hasOutputText item := by
  cases item with
  | other value => rfl
  | message msg =>
      obtain ⟨role, content, rest⟩ := msg
      match content with
      | none => rfl
      | some (.text text) => rfl
      | some (.other value) => rfl
      | some (.elements elements) =>
          rw [Bool.eq_iff_iff, ← not_iff_not]
          simp [appendToItem, hasOutputText, replaceLast_eq_none_iff,
            Element.appendMarker_eq_none_iff]

theorem extract_echo_of_replaced {id : Text} (hid : IsId id)
    {items output new : List (InputItem ρ)} {response : ResponsesResponse ρ}
    (houtput : response.output = some output) (hwell : WellFormed response)
    (honly : OnlyMarker id (textsBefore response))
    (hreplace : replaceLast (appendToItem (conversationMarker id)) output = some new) :
    latestMarker assistantTexts (items ++ new) = some id := by
  obtain ⟨before, item, item', after, rfl, hitem, hafter, rfl⟩ :=
    replaceLast_eq_some hreplace
  have hhas : hasOutputText item = true := by
    rw [← appendToItem_isSome (conversationMarker id), hitem]
    rfl
  have hnot : ∀ x ∈ after, (!hasOutputText x) = true := by
    intro x hx
    rw [← appendToItem_isSome (conversationMarker id), hafter x hx]
    rfl
  have hlast : (!hasOutputText item) = false := by rw [hhas]; rfl
  obtain ⟨hdrop, htake⟩ := rdropWhile_of_last (p := fun x => !hasOutputText x)
    before hlast hnot
  have htexts : textsBefore response =
      after.flatMap assistantTexts ++ textsUpTo item := by
    simp only [textsBefore, houtput, Option.getD_some]
    rw [hdrop, htake, List.getLast?_concat]
  rw [htexts] at honly
  obtain ⟨msg, elements, news, rfl, hcontent, hnews, rfl⟩ := appendToItem_eq_some hitem
  have hrole : msg.role = some "assistant" :=
    hwell msg (by simp [houtput]) hhas
  have hupTo : textsUpTo (.message msg) =
      Element.texts reads (Element.upTo isOutputText elements) := by
    obtain ⟨role, content, rest⟩ := msg
    cases hcontent
    rfl
  rw [hupTo] at honly
  have hfound := texts_replaceLast readsWritten hnews honly.right hid
  rw [latestMarker]
  have hreverse : (items ++ (before ++
      .message { msg with content := some (.elements news) } :: after)).reverse =
        after.reverse ++ .message { msg with content := some (.elements news) } ::
          (items ++ before).reverse := by simp
  rw [hreverse]
  refine findSome?_eq_of_only ?_ ?_
  · intro x hx other hother
    have htexts : OnlyMarker id (assistantTexts x) :=
      honly.left.of_subset fun text htext =>
        List.mem_flatMap.mpr ⟨x, List.mem_reverse.mp hx, htext⟩
    exact htexts.findSome? other hother
  · simpa [assistantTexts, ChatMessage.texts, hrole] using hfound

theorem extract_echo {id : Text} (hid : IsId id) (typeField : String × ρ)
    (history : ResponsesBody ρ) {response : ResponsesResponse ρ}
    {output : List (InputItem ρ)} (houtput : response.output = some output)
    (hwell : WellFormed response) (honly : OnlyMarker id (textsBefore response)) :
    extractConversationId (echo history (injectConversationMarker typeField response
      (conversationMarker id))) = some id := by
  simp only [extractConversationId, echo, injectConversationMarker, houtput,
    Option.getD_some]
  cases hreplace : replaceLast (appendToItem (conversationMarker id)) output with
  | some new => exact extract_echo_of_replaced hid houtput hwell honly hreplace
  | none =>
      rw [Option.getD_none, ← List.append_assoc]
      refine latestMarker_concat ?_
      have hnone : OnlyMarker id [] := fun text htext => absurd htext List.not_mem_nil
      have hread : Element.read (@reads ρ) (.part
          { type := some "output_text", text := some (conversationMarker id) }) =
            some (conversationMarker id) :=
        readsWritten.written { type := some "output_text" } _ rfl
          (conversationMarker_ne_nil id)
      simp only [markerItem, assistantTexts, ChatMessage.texts, Element.texts, if_true]
      rw [List.filterMap_cons_some hread]
      exact findSome?_marker_alone hid hnone

end OpenAIResponsesFormat

/-! ## All formats -/

namespace ApiFormat

def extractConversationId : (fmt : ApiFormat) → fmt.Body ρ → Option Text
  | .anthropic => AnthropicFormat.extractConversationId
  | .openai => OpenAIFormat.extractConversationId
  | .gemini => GeminiFormat.extractConversationId
  | .openaiResponses => OpenAIResponsesFormat.extractConversationId

def injectConversationMarker (typeField : String × ρ) :
    (fmt : ApiFormat) → fmt.Response ρ → Text → fmt.Response ρ
  | .anthropic => AnthropicFormat.injectConversationMarker
  | .openai => OpenAIFormat.injectConversationMarker
  | .gemini => GeminiFormat.injectConversationMarker
  | .openaiResponses => OpenAIResponsesFormat.injectConversationMarker typeField

def stripConversationMarkers : (fmt : ApiFormat) → fmt.Body ρ → fmt.Body ρ
  | .anthropic => AnthropicFormat.stripConversationMarkers
  | .openai => OpenAIFormat.stripConversationMarkers
  | .gemini => GeminiFormat.stripConversationMarkers
  | .openaiResponses => OpenAIResponsesFormat.stripConversationMarkers

def echo : (fmt : ApiFormat) → fmt.Body ρ → fmt.Response ρ → fmt.Body ρ
  | .anthropic => AnthropicFormat.echo
  | .openai => OpenAIFormat.echo
  | .gemini => GeminiFormat.echo
  | .openaiResponses => OpenAIResponsesFormat.echo

def textsBefore : (fmt : ApiFormat) → fmt.Response ρ → List Text
  | .anthropic => AnthropicFormat.textsBefore
  | .openai => OpenAIFormat.textsBefore
  | .gemini => GeminiFormat.textsBefore
  | .openaiResponses => OpenAIResponsesFormat.textsBefore

/-- The response holds what the marker is written into. -/
def Carries : (fmt : ApiFormat) → fmt.Response ρ → Prop
  | .anthropic => fun response : AnthropicResponse ρ =>
      ∃ content, response.content = some content
  | .openai => fun response : OpenAIResponse ρ =>
      ∃ msg rest choices,
        response.choices = some ({ message := some msg, rest } :: choices)
  | .gemini => fun response : GeminiResponse ρ =>
      ∃ role parts fields rest candidates, response.candidates =
        some ({ content := some { role, parts := some parts, rest := fields }, rest } ::
          candidates)
  | .openaiResponses => fun response : ResponsesResponse ρ =>
      (∃ output, response.output = some output) ∧
        OpenAIResponsesFormat.WellFormed response

def mapAssistantTexts (f : Text → Text) : (fmt : ApiFormat) → fmt.Body ρ → fmt.Body ρ
  | .anthropic => AnthropicFormat.mapAssistantTexts f
  | .openai => AnthropicFormat.mapAssistantTexts f
  | .gemini => GeminiFormat.mapAssistantTexts f
  | .openaiResponses => OpenAIResponsesFormat.mapAssistantTexts f

/-- The body, in which missing parts are the same as none. -/
def view : (fmt : ApiFormat) → fmt.Body ρ → fmt.Body ρ
  | .gemini => GeminiFormat.view
  | .anthropic | .openai | .openaiResponses => id

/-- A text is not emptied by stripping it. -/
def keepsBlank : ApiFormat → Bool
  | .anthropic | .openai => true
  | .gemini | .openaiResponses => false

theorem extract_echo (typeField : String × ρ) (fmt : ApiFormat)
    (history : fmt.Body ρ) (response : fmt.Response ρ) {id : Text} (hid : IsId id)
    (hcarries : fmt.Carries response) (honly : OnlyMarker id (fmt.textsBefore response)) :
    fmt.extractConversationId (fmt.echo history
      (fmt.injectConversationMarker typeField response (conversationMarker id))) =
        some id := by
  cases fmt with
  | anthropic =>
      obtain ⟨content, hcontent⟩ := hcarries
      exact AnthropicFormat.extract_echo hid history hcontent honly
  | openai =>
      obtain ⟨msg, rest, choices, hchoices⟩ := hcarries
      exact OpenAIFormat.extract_echo hid history hchoices honly
  | gemini =>
      obtain ⟨role, parts, fields, rest, candidates, hcandidates⟩ := hcarries
      exact GeminiFormat.extract_echo hid history hcandidates honly
  | openaiResponses =>
      obtain ⟨⟨output, houtput⟩, hwell⟩ := hcarries
      exact OpenAIResponsesFormat.extract_echo hid typeField history houtput hwell honly

theorem strip_eq (fmt : ApiFormat) (body : fmt.Body ρ) :
    fmt.view (fmt.stripConversationMarkers body) =
      fmt.view (fmt.mapAssistantTexts (strippedText fmt.keepsBlank) body) := by
  cases fmt with
  | anthropic => exact AnthropicFormat.strip_eq body
  | openai => exact OpenAIFormat.strip_eq body
  | gemini => exact GeminiFormat.strip_eq body
  | openaiResponses => exact OpenAIResponsesFormat.strip_eq body

/-- The last item of a response whose first item has a marker of its own. -/
def twoItems : ResponsesResponse Unit where
  output := some
    [.message {
      role := some "assistant"
      content := some (.elements [.part {
        type := some "output_text"
        text := some "<!-- vc:conversation=a -->".toList }]) },
    .message {
      role := some "assistant"
      content := some (.elements [.part {
        type := some "output_text", text := some "b".toList }]) }]

/-- A text of the assistant with the marker of another conversation. -/
def staleResponse : AnthropicResponse Unit where
  content := some [.part {
    type := some "text", text := some "<!-- vc:conversation=a -->".toList }]

end ApiFormat

end VirtualContext
