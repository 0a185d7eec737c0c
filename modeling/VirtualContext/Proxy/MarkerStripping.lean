import VirtualContext.Proxy.ConversationMarkers

/-!
# Stripping conversation markers

Stripping replaces each assistant text by what is left of it without its
markers, and nothing else.  The flag that the runs carry along has no effect,
but for a Gemini message without parts, which may get an empty list of them.
-/

namespace VirtualContext

open Library

variable {ρ : Type}

/-! ## One text -/

/-- The text that stands in a body after it was stripped. -/
def strippedText (keepsBlank : Bool) (text : Text) : Text :=
  (replacement keepsBlank text).getD text

@[simp] theorem cleanText_nil : cleanText [] = [] := rfl

@[simp] theorem replacement_nil (keepsBlank : Bool) :
    replacement keepsBlank [] = none := by
  simp [replacement]

theorem strippedText_of_some {keepsBlank : Bool} {text cleaned : Text}
    (h : replacement keepsBlank text = some cleaned) :
    strippedText keepsBlank text = cleaned := by
  rw [strippedText, h, Option.getD_some]

theorem strippedText_of_none {keepsBlank : Bool} {text : Text}
    (h : replacement keepsBlank text = none) :
    strippedText keepsBlank text = text := by
  rw [strippedText, h, Option.getD_none]

theorem strippedText_cases (keepsBlank : Bool) (text : Text) :
    strippedText keepsBlank text = cleanText text ∨
      keepsBlank = true ∧ cleanText text = [] ∧
        strippedText keepsBlank text = text := by
  by_cases hsame : cleanText text = text
  · left
    simp [strippedText, replacement, hsame]
  · by_cases hblank : keepsBlank = true ∧ cleanText text = []
    · right
      refine ⟨hblank.1, hblank.2, strippedText_of_none ?_⟩
      simp [replacement, hblank.1, hblank.2]
    · left
      refine strippedText_of_some ?_
      simp only [replacement]
      exact if_pos ⟨hsame, hblank⟩

/--
The text is cut at its markers and trimmed at its end, or it is kept as it is if
that leaves nothing and the format keeps such texts.
-/
def StripsTo (keepsBlank : Bool) (text stripped : Text) : Prop :=
  ∃ pieces, vcConversationRe.Splits text pieces ∧
    (∀ piece ∈ pieces, vcConversationRe.Clean piece) ∧
    (stripped = pieces.flatten.rdropWhile isPySpace ∨
      keepsBlank = true ∧ pieces.flatten.rdropWhile isPySpace = [] ∧
        stripped = text) ∧
    (vcConversationRe.Follows '\n' text →
      vcConversationRe.Clean (pieces.flatten.rdropWhile isPySpace))

theorem stripsTo_strippedText (keepsBlank : Bool) (text : Text) :
    StripsTo keepsBlank text (strippedText keepsBlank text) := by
  obtain ⟨pieces, hpieces⟩ := vcConversationRe.splits_exists text
  have hclean : cleanText text = pieces.flatten.rdropWhile isPySpace := by
    rw [cleanText, hpieces.removeAll]
  refine ⟨pieces, hpieces, hpieces.clean, ?_, fun hfollows => ?_⟩
  · rw [← hclean]
    exact strippedText_cases keepsBlank text
  · have hflatten := hpieces.clean_flatten vcConversationRe_avoids hfollows
    exact hflatten.of_prefix (List.rdropWhile_prefix _ _)

/-! ## One message -/

section

variable (reads : Part ρ → Option Text) (f : Text → Text)

def Element.mapText : Element ρ → Element ρ
  | .part p =>
      if (reads p).isSome then .part { p with text := p.text.map f } else .part p
  | .other value => .other value

/-- The function on the texts of an assistant message. -/
def ChatMessage.mapTexts (msg : ChatMessage ρ) : ChatMessage ρ :=
  if msg.role = some "assistant" then
    match msg.content with
    | some (.text text) => { msg with content := some (.text (f text)) }
    | some (.elements elements) =>
        { msg with
          content := some (.elements (elements.map (Element.mapText reads f))) }
    | _ => msg
  else msg

variable (keepsBlank : Bool)

def Element.changes (e : Element ρ) : Bool :=
  ((e.read reads).bind (replacement keepsBlank)).isSome

def ChatMessage.changes (msg : ChatMessage ρ) : Bool :=
  decide (msg.role = some "assistant") &&
    match msg.content with
    | some (.text text) => (replacement keepsBlank text).isSome
    | some (.elements elements) => elements.any (Element.changes reads keepsBlank)
    | _ => false

end

/-- What is read is the text of the dict, or nothing where it has none. -/
def ReadsText (reads : Part ρ → Option Text) : Prop :=
  ∀ p text, reads p = some text → p.text.getD [] = text

section

variable {reads : Part ρ → Option Text} {keepsBlank : Bool}

theorem Element.mapText_of_unchanged (hreads : ReadsText reads) {e : Element ρ}
    (h : e.changes reads keepsBlank = false) :
    e.mapText reads (strippedText keepsBlank) = e := by
  cases e with
  | other value => rfl
  | part p =>
      obtain ⟨type, text, rest⟩ := p
      rw [mapText]
      split
      · rename_i hsome
        obtain ⟨found, hfound⟩ := Option.isSome_iff_exists.mp hsome
        cases text with
        | none => rfl
        | some text =>
            have htext : text = found := hreads _ _ hfound
            simp only [changes, read, hfound, Option.bind_some,
              Option.isSome_eq_false_iff, Option.isNone_iff_eq_none, ← htext] at h
            simp [strippedText_of_none h]
      · rfl

theorem Element.strip_eq (hreads : ReadsText reads) (modified : Bool) (e : Element ρ) :
    e.strip reads keepsBlank modified =
      (e.mapText reads (strippedText keepsBlank),
        modified || e.changes reads keepsBlank) := by
  cases hchanges : e.changes reads keepsBlank with
  | false =>
      rw [mapText_of_unchanged hreads hchanges]
      cases e with
      | other value => simp [strip]
      | part p =>
          have hnone : (reads p).bind (replacement keepsBlank) = none := by
            simpa [changes, read] using hchanges
          simp [strip, hnone]
  | true =>
      cases e with
      | other value => cases hchanges
      | part p =>
          obtain ⟨cleaned, hcleaned⟩ := Option.isSome_iff_exists.mp hchanges
          obtain ⟨text, hread, hreplace⟩ := Option.bind_eq_some_iff.mp hcleaned
          have hread' : reads p = some text := hread
          have htext : p.text = some text := by
            cases hp : p.text with
            | none =>
                have hempty := hreads p text hread'
                rw [hp, Option.getD_none] at hempty
                rw [← hempty, replacement_nil] at hreplace
                cases hreplace
            | some _ => simpa [hp] using hreads p text hread'
          simp [strip, mapText, hread', hreplace, htext, strippedText_of_some hreplace]

theorem ChatMessage.mapTexts_of_unchanged (hreads : ReadsText reads)
    {msg : ChatMessage ρ} (h : msg.changes reads keepsBlank = false) :
    msg.mapTexts reads (strippedText keepsBlank) = msg := by
  obtain ⟨role, content, rest⟩ := msg
  rw [mapTexts]
  split
  · rename_i hrole
    simp only at hrole
    subst hrole
    match content with
    | none => rfl
    | some (.other value) => rfl
    | some (.text text) =>
        have hnone : replacement keepsBlank text = none := by
          simpa [changes] using h
        simp [strippedText_of_none hnone]
    | some (.elements elements) =>
        have hnone : ∀ e ∈ elements, e.changes reads keepsBlank = false := by
          simpa [changes] using h
        have hsame : elements.map (Element.mapText reads (strippedText keepsBlank)) =
            elements :=
          (List.map_congr_left fun e he =>
            Element.mapText_of_unchanged hreads (hnone e he)).trans (List.map_id _)
        simp [hsame]
  · rfl

theorem ChatMessage.strip_eq (hreads : ReadsText reads) (modified : Bool)
    (msg : ChatMessage ρ) :
    msg.strip reads keepsBlank modified =
      (msg.mapTexts reads (strippedText keepsBlank),
        modified || msg.changes reads keepsBlank) := by
  obtain ⟨role, content, rest⟩ := msg
  by_cases hrole : role = some "assistant"
  · subst hrole
    match content with
    | none => simp [strip, mapTexts, changes]
    | some (.other value) => simp [strip, mapTexts, changes]
    | some (.text text) =>
        cases hreplace : replacement keepsBlank text with
        | some cleaned =>
            simp [strip, mapTexts, changes, hreplace, strippedText_of_some hreplace]
        | none =>
            simp [strip, mapTexts, changes, hreplace, strippedText_of_none hreplace]
    | some (.elements elements) =>
        have hrun := runModified_eq (@Element.strip_eq ρ reads keepsBlank hreads)
          modified elements
        simp only [strip, hrun, ne_eq, not_true_eq_false, if_false]
        cases hflag : modified || elements.any (Element.changes reads keepsBlank) with
        | true => simpa [mapTexts, changes] using hflag
        | false =>
            obtain ⟨hmodified, hany⟩ := Bool.or_eq_false_iff.mp hflag
            have hchanges : changes reads keepsBlank
                { role := some "assistant", content := some (.elements elements),
                  rest } = false := by
              simpa [changes] using hany
            rw [mapTexts_of_unchanged hreads hchanges, hchanges, hmodified]
            rfl
  · simp [strip, mapTexts, changes, hrole]

end

/-! ## Whole bodies -/

namespace AnthropicFormat

def mapAssistantTexts (f : Text → Text) (body : ChatBody ρ) : ChatBody ρ :=
  { body with messages := body.messages.map (List.map (ChatMessage.mapTexts reads f)) }

theorem readsText : ReadsText (@reads ρ) := by
  intro p text hread
  simp only [reads] at hread
  split at hread
  · exact Option.some.inj hread
  · cases hread

theorem strip_eq (body : ChatBody ρ) :
    stripConversationMarkers body = mapAssistantTexts (strippedText true) body := by
  obtain ⟨messages, rest⟩ := body
  match messages with
  | none => rfl
  | some [] => rfl
  | some (msg :: messages) =>
      have hrun := runModified_eq (@ChatMessage.strip_eq ρ _ true readsText) false
        (msg :: messages)
      rw [Bool.false_or] at hrun
      simp only [stripConversationMarkers, hrun]
      split
      · rfl
      · rename_i hunchanged
        have hnone : ∀ x ∈ msg :: messages, ChatMessage.changes reads true x = false := by
          simpa using hunchanged
        have hsame : (msg :: messages).map
            (ChatMessage.mapTexts reads (strippedText true)) = msg :: messages :=
          (List.map_congr_left fun x hx =>
            ChatMessage.mapTexts_of_unchanged readsText (hnone x hx)).trans
              (List.map_id _)
        rw [mapAssistantTexts, Option.map_some, hsame]

end AnthropicFormat

namespace OpenAIFormat

theorem strip_eq (body : ChatBody ρ) :
    stripConversationMarkers body =
      AnthropicFormat.mapAssistantTexts (strippedText true) body :=
  AnthropicFormat.strip_eq body

end OpenAIFormat

namespace OpenAIResponsesFormat

def mapItem (f : Text → Text) : InputItem ρ → InputItem ρ
  | .message msg => .message (msg.mapTexts reads f)
  | .other value => .other value

def mapAssistantTexts (f : Text → Text) (body : ResponsesBody ρ) : ResponsesBody ρ :=
  match body.input with
  | some (.items items) => { body with input := some (.items (items.map (mapItem f))) }
  | _ => body

theorem readsText : ReadsText (@reads ρ) := by
  intro p text hread
  rw [(Option.filter_eq_some_iff.mp hread).1, Option.getD_some]

def itemChanges : InputItem ρ → Bool
  | .message msg => msg.changes reads false
  | .other _ => false

theorem stripItem_eq (modified : Bool) (item : InputItem ρ) :
    stripItem modified item =
      (mapItem (strippedText false) item, modified || itemChanges item) := by
  cases item with
  | message msg => simp [stripItem, mapItem, itemChanges, msg.strip_eq readsText]
  | other value => simp [stripItem, mapItem, itemChanges]

theorem mapItem_of_unchanged {item : InputItem ρ} (h : itemChanges item = false) :
    mapItem (strippedText false) item = item := by
  cases item with
  | message msg => exact congrArg _ (ChatMessage.mapTexts_of_unchanged readsText h)
  | other value => rfl

theorem strip_eq (body : ResponsesBody ρ) :
    stripConversationMarkers body = mapAssistantTexts (strippedText false) body := by
  obtain ⟨input, rest⟩ := body
  match input with
  | none => rfl
  | some (.text text) => rfl
  | some (.items []) => rfl
  | some (.items (item :: items)) =>
      have hrun := runModified_eq (@stripItem_eq ρ) false (item :: items)
      rw [Bool.false_or] at hrun
      simp only [stripConversationMarkers, hrun, reduceCtorEq, if_false]
      split
      · rfl
      · rename_i hunchanged
        have hnone : ∀ x ∈ item :: items, itemChanges x = false := by
          simpa using hunchanged
        have hsame : (item :: items).map (mapItem (strippedText false)) =
            item :: items :=
          (List.map_congr_left fun x hx => mapItem_of_unchanged (hnone x hx)).trans
            (List.map_id _)
        simp only [mapAssistantTexts, hsame]

end OpenAIResponsesFormat

namespace GeminiFormat

def mapMessage (f : Text → Text) (msg : GeminiMessage ρ) : GeminiMessage ρ :=
  if msg.role = some "model" then
    { msg with parts := msg.parts.map (List.map (Element.mapText reads f)) }
  else msg

def mapAssistantTexts (f : Text → Text) (body : GeminiBody ρ) : GeminiBody ρ :=
  { body with contents := body.contents.map (List.map (mapMessage f)) }

/-- Missing parts are the same as none. -/
def viewMessage (msg : GeminiMessage ρ) : GeminiMessage ρ :=
  { msg with parts := some (msg.parts.getD []) }

def view (body : GeminiBody ρ) : GeminiBody ρ :=
  { body with contents := body.contents.map (List.map viewMessage) }

def messageChanges (msg : GeminiMessage ρ) : Bool :=
  decide (msg.role = some "model") &&
    (msg.parts.getD []).any (Element.changes reads false)

theorem readsText : ReadsText (@reads ρ) := by
  intro p text hread
  rw [show p.text = some text from hread, Option.getD_some]

theorem mapMessage_of_unchanged {msg : GeminiMessage ρ}
    (h : messageChanges msg = false) :
    mapMessage (strippedText false) msg = msg := by
  obtain ⟨role, parts, rest⟩ := msg
  rw [mapMessage]
  split
  · rename_i hrole
    simp only at hrole
    subst hrole
    cases parts with
    | none => rfl
    | some parts =>
        have hnone : ∀ e ∈ parts, e.changes reads false = false := by
          simpa [messageChanges] using h
        have hsame : parts.map (Element.mapText reads (strippedText false)) = parts :=
          (List.map_congr_left fun e he =>
            Element.mapText_of_unchanged readsText (hnone e he)).trans (List.map_id _)
        rw [Option.map_some, hsame]
  · rfl

theorem stripMessage_eq (modified : Bool) (msg : GeminiMessage ρ) :
    viewMessage (stripMessage modified msg).1 =
        viewMessage (mapMessage (strippedText false) msg) ∧
      (stripMessage modified msg).2 = (modified || messageChanges msg) := by
  by_cases hrole : msg.role = some "model"
  · have hrun := runModified_eq (@Element.strip_eq ρ _ false readsText) modified
      (msg.parts.getD [])
    have hstrip : stripMessage modified msg =
        (if modified || messageChanges msg then
          { msg with parts := some ((msg.parts.getD []).map
            (Element.mapText reads (strippedText false))) } else msg,
          modified || messageChanges msg) := by
      simp [stripMessage, hrole, hrun, messageChanges]
    rw [hstrip]
    refine ⟨?_, rfl⟩
    split
    · cases hparts : msg.parts <;> simp [viewMessage, mapMessage, hrole, hparts]
    · rename_i hunchanged
      rw [Bool.or_eq_true, not_or] at hunchanged
      rw [mapMessage_of_unchanged (Bool.not_eq_true _ ▸ hunchanged.2)]
  · simp [stripMessage, mapMessage, messageChanges, hrole]

theorem strip_eq (body : GeminiBody ρ) :
    view (stripConversationMarkers body) =
      view (mapAssistantTexts (strippedText false) body) := by
  obtain ⟨contents, rest⟩ := body
  match contents with
  | none => rfl
  | some [] => rfl
  | some (msg :: contents) =>
      obtain ⟨hviews, hflag⟩ := runModified_map (@stripMessage_eq ρ) false
        (msg :: contents)
      rw [Bool.false_or] at hflag
      simp only [stripConversationMarkers]
      split
      · simp only [view, mapAssistantTexts, Option.map_some, hviews]
      · rename_i hunchanged
        rw [hflag] at hunchanged
        have hnone : ∀ x ∈ msg :: contents, messageChanges x = false := by
          simpa using hunchanged
        have hsame : (msg :: contents).map (mapMessage (strippedText false)) =
            msg :: contents :=
          (List.map_congr_left fun x hx => mapMessage_of_unchanged (hnone x hx)).trans
            (List.map_id _)
        simp only [mapAssistantTexts, Option.map_some, hsame]

end GeminiFormat

end VirtualContext
