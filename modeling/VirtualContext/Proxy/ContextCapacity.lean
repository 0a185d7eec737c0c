import VirtualContext.Proxy.InjectedContext

/-!
# How much context a body keeps

The number of pieces of context that can be injected into a body one after the
other such that all of them stay, whatever their texts are.
-/

namespace VirtualContext

open Library

variable {ρ : Type}

/-! ## Content lists -/

def elementTexts (elements : List (Element ρ)) : List Text :=
  elements.filterMap Element.text?

@[simp] theorem elementTexts_append (elements more : List (Element ρ)) :
    elementTexts (elements ++ more) = elementTexts elements ++ elementTexts more :=
  List.filterMap_append

theorem elementTexts_block (type : Option String) (text : Text) :
    elementTexts [(.part { type, text := some (contextBlock text) } : Element ρ)] =
      [contextBlock text] := rfl

theorem zerosOf_clean_le (keepsOther : Bool) (elements : List (Element ρ)) :
    zerosOf (elementTexts (elements.filterMap (Element.clean keepsOther))) ≤
      zerosOf (elementTexts elements) := by
  induction elements with
  | nil => exact Nat.le_refl 0
  | cons e elements ih =>
      match e with
      | .other value => cases keepsOther <;>
            simpa [Element.clean, Element.text?, elementTexts, List.filterMap_cons] using ih
      | .part { text := none, .. } =>
          simpa [Element.clean, Element.text?, elementTexts, List.filterMap_cons] using ih
      | .part { text := some text, .. } =>
          have hclean := zeros_cleanBlock_le text
          by_cases hempty : cleanBlock text = []
          · simp [Element.clean, Element.text?, elementTexts, hempty] at ih ⊢
            omega
          · simp [Element.clean, Element.text?, elementTexts, hempty] at ih ⊢
            omega

theorem zerosOf_injectIntoElements (keepsOther : Bool) (type : Option String)
    (elements : List (Element ρ)) (text : Text) :
    zerosOf (elementTexts (injectIntoElements keepsOther type elements text)) =
      zerosOf (elementTexts (elements.filterMap (Element.clean keepsOther))) +
        zeros text := by
  rw [injectIntoElements, elementTexts_append, elementTexts_block, zerosOf_append]
  simp [zeros_contextBlock]

theorem zeros_cleanBlock_zeroSection (n : Nat) (rest : Text) :
    zeros (cleanBlock (contextBlock (zeroSection n) ++ rest)) ≤ zeros rest := by
  have hnil : vcBlockRe.Clean [] := Matcher.find_eq_none_iff.mp Matcher.find_nil
  have hremoved := zeros_removeFirst_le hnil n rest
  have hstrip := zeros_le (pyStripChars_sublist
    (vcBlockRe.removeFirst (contextBlock (zeroSection n) ++ rest)))
  rw [List.nil_append] at hremoved
  have hzero : zeros [] = 0 := rfl
  rw [cleanBlock]
  omega

/-- The next injection takes the section out of a content list. -/
theorem zerosOf_lost_elements (keepsOther : Bool) (type : Option String) (n : Nat)
    (elements : List (Element ρ)) (text : Text) :
    zerosOf (elementTexts (injectIntoElements keepsOther type
      (injectIntoElements keepsOther type elements (zeroSection n)) text)) ≤
        zerosOf (elementTexts elements) + zeros text := by
  have hempty := zeros_cleanBlock_zeroSection n []
  rw [List.append_nil] at hempty
  have hblock : zerosOf (elementTexts ([(.part
      { type, text := some (contextBlock (zeroSection n)) } : Element ρ)].filterMap
        (Element.clean keepsOther))) = 0 := by
    have hzero : zeros [] = 0 := rfl
    by_cases hclean : cleanBlock (contextBlock (zeroSection n)) = []
    · simp [Element.clean, elementTexts, hclean]
    · simp [Element.clean, Element.text?, elementTexts, hclean]
      omega
  have hfirst := zerosOf_clean_le keepsOther
    (elements.filterMap (Element.clean keepsOther))
  have hsecond := zerosOf_clean_le keepsOther elements
  rw [zerosOf_injectIntoElements, injectIntoElements, List.filterMap_append,
    elementTexts_append, zerosOf_append, hblock]
  omega

theorem block_mem_injectIntoElements (keepsOther : Bool) (type : Option String)
    (elements : List (Element ρ)) (text : Text) :
    contextBlock text ∈
      elementTexts (injectIntoElements keepsOther type elements text) := by
  rw [injectIntoElements, elementTexts_append, elementTexts_block]
  exact List.mem_append_right _ List.mem_cons_self

theorem infix_contextBlock (text : Text) : text <:+: contextBlock text :=
  ⟨blockFront, blockBack, rfl⟩

theorem zeroSection_ne_nil (n : Nat) : zeroSection n ≠ [] := by
  have htags : tagsFront ≠ [] := by decide
  intro h
  simp only [zeroSection, formatBreadthSection, List.append_eq_nil_iff] at h
  exact htags h.1.1.1.1

theorem zerosOf_foldl_le {β : Type} {inject : β → Text → β} {allTexts : β → List Text}
    (hstep : ∀ body text,
      zerosOf (allTexts (inject body text)) ≤ zerosOf (allTexts body) + zeros text)
    (texts : List Text) (body : β) :
    zerosOf (allTexts (texts.foldl inject body)) ≤
      zerosOf (allTexts body) + zerosOf texts := by
  induction texts generalizing body with
  | nil => simp
  | cons text texts ih =>
      have hfirst := hstep body text
      have hrest := ih (inject body text)
      rw [List.foldl_cons, zerosOf_cons]
      omega

/-! ## Gemini -/

namespace GeminiFormat

theorem injectContext_of_ne_nil (body : GeminiBody ρ) {text : Text} (h : text ≠ []) :
    injectContext body text =
      let parts := injectIntoElements false none (instructionParts body) text
      { body with systemInstruction := some { parts := some parts } } := by
  simp [injectContext, h]

theorem zerosOf_injectContext_le (body : GeminiBody ρ) (text : Text) :
    zerosOf (injectContext body text).allTexts ≤ zerosOf body.allTexts + zeros text := by
  by_cases h : text = []
  · simp [injectContext, h]
  · have hinject := zerosOf_injectIntoElements false none (instructionParts body) text
    have hclean := zerosOf_clean_le false (instructionParts body)
    rw [injectContext_of_ne_nil body h]
    simp only [GeminiBody.allTexts, zerosOf_append]
    simp only [elementTexts, instructionParts, Option.bind_some, Option.getD_some]
      at hinject hclean ⊢
    omega

theorem zerosOf_lost (body : GeminiBody ρ) (n : Nat) {text : Text} (h : text ≠ [])
    (hsection : zeroSection n ≠ []) :
    zerosOf (injectContext (injectContext body (zeroSection n)) text).allTexts ≤
      zerosOf body.allTexts + zeros text := by
  have hlost := zerosOf_lost_elements false none n (instructionParts body) text
  rw [injectContext_of_ne_nil body hsection, injectContext_of_ne_nil _ h]
  simp only [GeminiBody.allTexts, zerosOf_append]
  simp only [elementTexts, instructionParts, Option.bind_some, Option.getD_some]
    at hlost ⊢
  omega

theorem holds_injectContext (body : GeminiBody ρ) {text : Text} (h : text ≠ []) :
    contextBlock text ∈ (injectContext body text).allTexts := by
  rw [injectContext_of_ne_nil body h]
  exact List.mem_append_left _ (block_mem_injectIntoElements false none _ text)

/-- A section is lost by the next injection. -/
theorem zerosOf_run_le (body : GeminiBody ρ) {texts : List Text}
    (htexts : ∀ text ∈ texts, text ≠ []) (n : Nat) (h : ¬ texts.length + 1 ≤ 1) :
    zerosOf ((zeroSection n :: texts).foldl injectContext body).allTexts ≤
      zerosOf body.allTexts + zerosOf texts := by
  cases texts with
  | nil => exact absurd (Nat.le_refl 1) h
  | cons text texts =>
      have hlost := zerosOf_lost body n (htexts text List.mem_cons_self)
        (zeroSection_ne_nil n)
      have hrest := zerosOf_foldl_le zerosOf_injectContext_le texts
        (injectContext (injectContext body (zeroSection n)) text)
      rw [List.foldl_cons, List.foldl_cons, zerosOf_cons]
      omega

end GeminiFormat

/-! ## Responses -/

namespace OpenAIResponsesFormat

theorem zeros_injectInFront_le (instructions text : Text) :
    zeros (injectInFront instructions text) ≤
      zeros (cleanBlock instructions) + zeros text := by
  have hgap : zeros "\n\n".toList = 0 := by decide
  rw [injectInFront]
  split
  · rw [zeros_contextBlock]
    omega
  · rw [zeros_append, zeros_append, zeros_contextBlock, hgap]
    omega

/-- The next injection takes the section off the front. -/
theorem zeros_lost_injectInFront (n : Nat) (instructions text : Text) :
    zeros (injectInFront (injectInFront instructions (zeroSection n)) text) ≤
      zeros (cleanBlock instructions) + zeros text := by
  have hgap : zeros "\n\n".toList = 0 := by decide
  have hinject := zeros_injectInFront_le (injectInFront instructions (zeroSection n)) text
  have hlost : zeros (cleanBlock (injectInFront instructions (zeroSection n))) ≤
      zeros (cleanBlock instructions) := by
    rw [injectInFront]
    split
    · have hblock := zeros_cleanBlock_zeroSection n []
      have hzero : zeros [] = 0 := rfl
      rw [List.append_nil] at hblock
      omega
    · have hblock := zeros_cleanBlock_zeroSection n
        ("\n\n".toList ++ cleanBlock instructions)
      rw [zeros_append, hgap, ← List.append_assoc] at hblock
      omega
  omega

theorem blockFront_injectInFront (instructions text : Text) :
    contextBlock text <:+: injectInFront instructions text := by
  rw [injectInFront]
  split
  · exact List.infix_refl _
  · exact ⟨[], "\n\n".toList ++ cleanBlock instructions, by simp⟩

theorem injectContext_instructions (body : ResponsesBody ρ) {text : Text}
    (h : text ≠ []) :
    ∃ old, injectContext body text =
        { body with instructions := some (.text (injectInFront old text)) } ∧
      zeros old ≤ zerosOf body.contextTexts := by
  match hinstructions : body.instructions with
  | none =>
      refine ⟨[], ?_, Nat.zero_le _⟩
      simp [injectContext, h, hinstructions]
  | some (.text old) =>
      refine ⟨old, ?_, ?_⟩
      · simp [injectContext, h, hinstructions]
      · simp [ResponsesBody.contextTexts, hinstructions]
  | some (.other value) =>
      refine ⟨[], ?_, Nat.zero_le _⟩
      have hempty : cleanBlock [] = [] := rfl
      simp [injectContext, h, hinstructions, injectInFront, hempty]

theorem zerosOf_injectContext_le (body : ResponsesBody ρ) (text : Text) :
    zerosOf (injectContext body text).allTexts ≤ zerosOf body.allTexts + zeros text := by
  by_cases h : text = []
  · simp [injectContext, h]
  · obtain ⟨old, hinject, hold⟩ := injectContext_instructions body h
    have hnew := zeros_injectInFront_le old text
    have hclean := zeros_cleanBlock_le old
    rw [hinject]
    simp only [ResponsesBody.allTexts, zerosOf_append]
    simp only [ResponsesBody.contextTexts, ResponsesBody.inputTexts, zerosOf_cons,
      zerosOf_nil] at hold ⊢
    omega

theorem zerosOf_lost (body : ResponsesBody ρ) (n : Nat) {text : Text} (h : text ≠ [])
    (hsection : zeroSection n ≠ []) :
    zerosOf (injectContext (injectContext body (zeroSection n)) text).allTexts ≤
      zerosOf body.allTexts + zeros text := by
  obtain ⟨old, hinject, hold⟩ := injectContext_instructions body hsection
  have hlost := zeros_lost_injectInFront n old text
  have hclean := zeros_cleanBlock_le old
  rw [hinject]
  simp only [injectContext, if_neg h, Option.getD_some, ResponsesBody.allTexts,
    zerosOf_append]
  simp only [ResponsesBody.contextTexts, ResponsesBody.inputTexts, zerosOf_cons,
    zerosOf_nil] at hold ⊢
  omega

theorem holds_injectContext (body : ResponsesBody ρ) {text : Text} (h : text ≠ []) :
    ∃ whole ∈ (injectContext body text).allTexts, contextBlock text <:+: whole := by
  obtain ⟨old, hinject, -⟩ := injectContext_instructions body h
  rw [hinject]
  exact ⟨_, List.mem_append_left _ List.mem_cons_self, blockFront_injectInFront old text⟩

/-- A section is lost by the next injection. -/
theorem zerosOf_run_le (body : ResponsesBody ρ) {texts : List Text}
    (htexts : ∀ text ∈ texts, text ≠ []) (n : Nat) (h : ¬ texts.length + 1 ≤ 1) :
    zerosOf ((zeroSection n :: texts).foldl injectContext body).allTexts ≤
      zerosOf body.allTexts + zerosOf texts := by
  cases texts with
  | nil => exact absurd (Nat.le_refl 1) h
  | cons text texts =>
      have hlost := zerosOf_lost body n (htexts text List.mem_cons_self)
        (zeroSection_ne_nil n)
      have hrest := zerosOf_foldl_le zerosOf_injectContext_le texts
        (injectContext (injectContext body (zeroSection n)) text)
      rw [List.foldl_cons, List.foldl_cons, zerosOf_cons]
      omega

end OpenAIResponsesFormat

/-! ## Chat bodies -/

/-- The body with a message between others. -/
def ChatBody.withMessage (body : ChatBody ρ) (before after : List (ChatMessage ρ))
    (msg : ChatMessage ρ) : ChatBody ρ :=
  { body with messages := some (before ++ msg :: after) }

theorem ChatBody.zerosOf_withMessage (body : ChatBody ρ)
    (before after : List (ChatMessage ρ)) (msg : ChatMessage ρ) :
    zerosOf (body.withMessage before after msg).allTexts =
      zerosOf (before.flatMap ChatMessage.allTexts) + zerosOf msg.allTexts +
        zerosOf (after.flatMap ChatMessage.allTexts) := by
  simp only [withMessage, allTexts, Option.getD_some, List.flatMap_append,
    List.flatMap_cons, zerosOf_append]
  omega

theorem ChatBody.mem_withMessage {body : ChatBody ρ}
    {before after : List (ChatMessage ρ)} {msg : ChatMessage ρ} {text : Text}
    (h : text ∈ msg.allTexts) : text ∈ (body.withMessage before after msg).allTexts := by
  simp only [withMessage, allTexts, Option.getD_some, List.flatMap_append,
    List.flatMap_cons, List.mem_append]
  exact .inr (.inl h)

/-- Injections reach the same message again and again. -/
theorem ChatBody.foldl_withMessage {inject : ChatBody ρ → Text → ChatBody ρ}
    {injectIntoMessage : Text → ChatMessage ρ → ChatMessage ρ} {body : ChatBody ρ}
    {before after : List (ChatMessage ρ)} {role : Option String}
    (hrole : ∀ text msg, (injectIntoMessage text msg).role = msg.role)
    (hstep : ∀ text msg, text ≠ [] → msg.role = role →
      inject (body.withMessage before after msg) text =
        body.withMessage before after (injectIntoMessage text msg))
    {texts : List Text} (htexts : ∀ text ∈ texts, text ≠ []) {msg : ChatMessage ρ}
    (hmsg : msg.role = role) :
    texts.foldl inject (body.withMessage before after msg) =
      body.withMessage before after
        (texts.foldl (fun msg text => injectIntoMessage text msg) msg) := by
  induction texts generalizing msg with
  | nil => rfl
  | cons text texts ih =>
      have hrest := ih (fun t ht => htexts t (List.mem_cons_of_mem _ ht))
        ((hrole text msg).trans hmsg)
      rw [List.foldl_cons, List.foldl_cons,
        hstep text msg (htexts text List.mem_cons_self) hmsg, hrest]

/-! ## OpenAI -/

namespace OpenAIFormat

/-- The content of the first system message. -/
def contextContent (body : ChatBody ρ) : Content ρ :=
  (((body.messages.getD []).find? fun msg => msg.role = some "system").bind
    (·.content)).getD (.text [])

/-- How often context can be injected into the content. -/
def Keeps : Content ρ → Nat → Prop
  | .text content, n => n = 0 ∨ Absorbs (n - 1) (beforeContext content)
  | .elements _, n => n ≤ 1
  | .other _, n => n = 0

theorem role_injectIntoMessage (text : Text) (msg : ChatMessage ρ) :
    (injectIntoMessage text msg).role = msg.role := by
  rw [injectIntoMessage]
  split <;> rfl

theorem injectContext_withMessage (body : ChatBody ρ)
    {before : List (ChatMessage ρ)} (hbefore : ∀ x ∈ before, x.role ≠ some "system")
    (after : List (ChatMessage ρ)) (text : Text) (msg : ChatMessage ρ) (h : text ≠ [])
    (hrole : msg.role = some "system") :
    injectContext (body.withMessage before after msg) text =
      body.withMessage before after (injectIntoMessage text msg) := by
  have hnone : ∀ x ∈ before, injectIfSystem text x = none :=
    fun x hx => if_neg (hbefore x hx)
  have hsome : injectIfSystem text msg = some (injectIntoMessage text msg) :=
    if_pos hrole
  simp only [injectContext, if_neg h, ChatBody.withMessage, Option.getD_some]
  rw [replaceFirst_append hnone hsome after, Option.getD_some]

/-- The message that context is injected into, a new one if there is none. -/
theorem injectContext_slot (body : ChatBody ρ) :
    ∃ before msg after, (∀ x ∈ before, x.role ≠ some "system") ∧
      msg.role = some "system" ∧ msg.content.getD (.text []) = contextContent body ∧
      zerosOf (body.withMessage before after msg).allTexts = zerosOf body.allTexts ∧
      ∀ text, text ≠ [] → injectContext body text =
        body.withMessage before after (injectIntoMessage text msg) := by
  cases hfind : (body.messages.getD []).find? fun msg => msg.role = some "system" with
  | none =>
      have hnone : ∀ x ∈ body.messages.getD [], x.role ≠ some "system" := by
        simpa using hfind
      refine ⟨[], { role := some "system", content := some (.text []) },
        body.messages.getD [], by simp, rfl, ?_, ?_, ?_⟩
      · simp [contextContent, hfind]
      · rw [ChatBody.zerosOf_withMessage]
        have hempty : zeros [] = 0 := rfl
        simp [ChatMessage.allTexts, Content.texts, ChatBody.allTexts, hempty]
      · intro text h
        have hreplace : replaceFirst (injectIfSystem text) (body.messages.getD []) =
            none :=
          replaceFirst_eq_none_iff.mpr fun x hx => if_neg (hnone x hx)
        have hempty : cleanBlock [] = [] := rfl
        simp [injectContext, h, hreplace, ChatBody.withMessage, injectIntoMessage,
          injectIntoText, hempty]
  | some msg =>
      obtain ⟨hrole, before, after, hmessages, hbefore⟩ :=
        List.find?_eq_some_iff_append.mp hfind
      simp only [decide_eq_true_eq] at hrole
      have hbefore' : ∀ x ∈ before, x.role ≠ some "system" := by simpa using hbefore
      obtain ⟨messages, rest⟩ := body
      cases messages with
      | none => simp at hmessages
      | some messages =>
          simp only [Option.getD_some] at hmessages
          subst hmessages
          refine ⟨before, msg, after, hbefore', hrole, ?_, rfl, ?_⟩
          · simp only [contextContent, hfind, Option.bind_some]
          · exact fun text h =>
              injectContext_withMessage ⟨_, rest⟩ hbefore' after text msg h hrole

theorem foldl_text (texts : List Text) (msg : ChatMessage ρ) (content : Text) :
    texts.foldl (fun msg text => injectIntoMessage text msg)
        { msg with content := some (.text content) } =
      { msg with content := some (.text (texts.foldl injectIntoText content)) } := by
  induction texts generalizing content with
  | nil => rfl
  | cons text texts ih => exact ih (injectIntoText content text)

theorem foldl_elements (texts : List Text) (msg : ChatMessage ρ)
    (elements : List (Element ρ)) :
    texts.foldl (fun msg text => injectIntoMessage text msg)
        { msg with content := some (.elements elements) } =
      { msg with content := some (.elements
        (texts.foldl (injectIntoElements true (some "text")) elements)) } := by
  induction texts generalizing elements with
  | nil => rfl
  | cons text texts ih => exact ih (injectIntoElements true (some "text") elements text)

theorem zerosOf_foldl_elements_le (texts : List Text) (elements : List (Element ρ)) :
    zerosOf (elementTexts
        (texts.foldl (injectIntoElements true (some "text")) elements)) ≤
      zerosOf (elementTexts elements) + zerosOf texts := by
  induction texts generalizing elements with
  | nil => simp
  | cons text texts ih =>
      have hinject := zerosOf_injectIntoElements true (some "text") elements text
      have hclean := zerosOf_clean_le true elements
      have hrest := ih (injectIntoElements true (some "text") elements text)
      rw [List.foldl_cons, zerosOf_cons]
      omega

theorem zeros_beforeContext_le (content : Text) :
    zeros (beforeContext content) ≤ zeros content := by
  have hclean := zeros_cleanBlock_le content
  have hgap : zeros "\n\n".toList = 0 := by decide
  have hzero : zeros [] = 0 := rfl
  rw [beforeContext]
  split
  · omega
  · rw [zeros_append, hgap]
    omega

/-- The first section is lost if the content does not keep as many pieces. -/
theorem zerosOf_lost {msg : ChatMessage ρ} {texts : List Text} (n : Nat)
    (h : ¬ Keeps (msg.content.getD (.text [])) (texts.length + 1)) :
    zerosOf (texts.foldl (fun msg text => injectIntoMessage text msg)
      (injectIntoMessage (zeroSection n) msg)).allTexts ≤
        zerosOf msg.allTexts + zerosOf texts := by
  have htext : ∀ content, ¬ Keeps (.text content : Content ρ) (texts.length + 1) →
      zeros (texts.foldl injectIntoText (injectIntoText content (zeroSection n))) ≤
        zeros content + zerosOf texts := by
    intro content hcontent
    have habsorbs : ¬ Absorbs texts.length (beforeContext content) :=
      fun habsorbs => hcontent (.inr habsorbs)
    have hsolid := contextBlock_solid (zeroSection n)
    rw [← List.append_nil (contextBlock (zeroSection n))] at hsolid
    have hlost := zeros_lost_le hsolid habsorbs
    have hbefore := zeros_beforeContext_le content
    have hzero : zeros [] = 0 := rfl
    rw [List.append_nil] at hlost
    rw [injectIntoText_eq]
    omega
  obtain ⟨role, content, rest⟩ := msg
  match content with
  | none =>
      have hlost := htext [] h
      have hzero : zeros [] = 0 := rfl
      rw [show injectIntoMessage (zeroSection n) ⟨role, none, rest⟩ =
        { (⟨role, none, rest⟩ : ChatMessage ρ) with
          content := some (.text (injectIntoText [] (zeroSection n))) } from rfl,
        foldl_text]
      simp only [ChatMessage.allTexts, Content.texts, Option.map_some, Option.map_none,
        Option.getD_some, Option.getD_none, zerosOf_cons, zerosOf_nil]
      omega
  | some (.text content) =>
      have hlost := htext content h
      rw [show injectIntoMessage (zeroSection n) ⟨role, some (.text content), rest⟩ =
        { (⟨role, some (.text content), rest⟩ : ChatMessage ρ) with
          content := some (.text (injectIntoText content (zeroSection n))) } from rfl,
        foldl_text]
      simp only [ChatMessage.allTexts, Content.texts, Option.map_some,
        Option.getD_some, zerosOf_cons, zerosOf_nil]
      omega
  | some (.elements elements) =>
      cases texts with
      | nil => exact absurd (Nat.le_refl 1) h
      | cons text texts =>
          have hlost := zerosOf_lost_elements true (some "text") n elements text
          have hrest := zerosOf_foldl_elements_le texts
            (injectIntoElements true (some "text")
              (injectIntoElements true (some "text") elements (zeroSection n)) text)
          rw [show injectIntoMessage (zeroSection n)
              ⟨role, some (.elements elements), rest⟩ =
            { (⟨role, some (.elements elements), rest⟩ : ChatMessage ρ) with
              content := some (.elements
                (injectIntoElements true (some "text") elements (zeroSection n))) }
              from rfl, foldl_elements]
          simp only [ChatMessage.allTexts, Content.texts, Option.map_some,
            Option.getD_some, zerosOf_cons]
          simp only [List.foldl_cons, elementTexts] at hlost hrest ⊢
          omega
  | some (.other value) =>
      have hsame : texts.foldl (fun msg text => injectIntoMessage text msg)
          (⟨role, some (.other value), rest⟩ : ChatMessage ρ) =
            ⟨role, some (.other value), rest⟩ := by
        clear h htext
        induction texts with
        | nil => rfl
        | cons text texts ih => exact ih
      rw [show injectIntoMessage (zeroSection n) ⟨role, some (.other value), rest⟩ =
        (⟨role, some (.other value), rest⟩ : ChatMessage ρ) from rfl, hsame]
      omega

/-- All pieces stay in content that keeps as many. -/
theorem holds_of_keeps {msg : ChatMessage ρ} {text : Text} {texts : List Text}
    (h : Keeps (msg.content.getD (.text [])) (texts.length + 1)) :
    ∀ piece ∈ text :: texts,
      ∃ whole ∈ (texts.foldl (fun msg text => injectIntoMessage text msg)
        (injectIntoMessage text msg)).allTexts, contextBlock piece <:+: whole := by
  have htext : ∀ content, Keeps (.text content : Content ρ) (texts.length + 1) →
      ∀ piece ∈ text :: texts, contextBlock piece <:+:
        texts.foldl injectIntoText (injectIntoText content text) := by
    intro content hcontent piece hpiece
    have habsorbs : Absorbs texts.length (beforeContext content) := by
      rcases hcontent with hzero | habsorbs
      · cases hzero
      · exact habsorbs
    obtain ⟨front, hfold⟩ := foldl_injectIntoText (contextBlock_solid text) habsorbs
    rw [injectIntoText_eq, hfold]
    rcases List.mem_cons.mp hpiece with rfl | hmem
    · exact ⟨front, joinedBlocks texts, rfl⟩
    · obtain ⟨earlier, later, rfl⟩ := List.append_of_mem hmem
      refine ⟨front ++ contextBlock text ++ joinedBlocks earlier ++ "\n\n".toList,
        joinedBlocks later, ?_⟩
      simp only [joinedBlocks, List.flatMap_append, List.flatMap_cons, List.append_assoc]
  obtain ⟨role, content, rest⟩ := msg
  cases content with
  | none =>
      intro piece hpiece
      rw [show injectIntoMessage text ⟨role, none, rest⟩ =
        { (⟨role, none, rest⟩ : ChatMessage ρ) with
          content := some (.text (injectIntoText [] text)) } from rfl, foldl_text]
      exact ⟨_, List.mem_cons_self, htext [] h piece hpiece⟩
  | some content =>
      cases content with
      | text content =>
          intro piece hpiece
          rw [show injectIntoMessage text ⟨role, some (.text content), rest⟩ =
            { (⟨role, some (.text content), rest⟩ : ChatMessage ρ) with
              content := some (.text (injectIntoText content text)) } from rfl, foldl_text]
          exact ⟨_, List.mem_cons_self, htext content h piece hpiece⟩
      | elements elements =>
          have hlength : texts.length + 1 ≤ 1 := h
          have hnil : texts = [] := List.length_eq_zero_iff.mp (by omega)
          subst hnil
          intro piece hpiece
          rw [List.mem_singleton] at hpiece
          subst hpiece
          exact ⟨_, block_mem_injectIntoElements true (some "text") elements piece,
            List.infix_refl _⟩
      | other value =>
          have hzero : texts.length + 1 = 0 := h
          omega

theorem foldl_injectContext (body : ChatBody ρ) {before after : List (ChatMessage ρ)}
    {msg : ChatMessage ρ} (hbefore : ∀ x ∈ before, x.role ≠ some "system")
    (hrole : msg.role = some "system")
    (hinject : ∀ text, text ≠ [] → injectContext body text =
      body.withMessage before after (injectIntoMessage text msg))
    {text : Text} {texts : List Text} (hall : ∀ piece ∈ text :: texts, piece ≠ []) :
    (text :: texts).foldl injectContext body =
      body.withMessage before after
        (texts.foldl (fun msg text => injectIntoMessage text msg)
          (injectIntoMessage text msg)) := by
  have hrest := fun t ht => hall t (List.mem_cons_of_mem _ ht)
  rw [List.foldl_cons, hinject text (hall text List.mem_cons_self)]
  exact ChatBody.foldl_withMessage role_injectIntoMessage
    (injectContext_withMessage body hbefore after) hrest
    ((role_injectIntoMessage text msg).trans hrole)

theorem holds_run (body : ChatBody ρ) {text : Text} {texts : List Text}
    (hall : ∀ piece ∈ text :: texts, piece ≠ [])
    (h : Keeps (contextContent body) (texts.length + 1)) :
    ∀ piece ∈ text :: texts, ∃ whole ∈
      ((text :: texts).foldl injectContext body).allTexts,
        contextBlock piece <:+: whole := by
  obtain ⟨before, msg, after, hbefore, hrole, hcontent, -, hinject⟩ :=
    injectContext_slot body
  rw [← hcontent] at h
  intro piece hpiece
  obtain ⟨whole, hwhole, hblock⟩ := holds_of_keeps h piece hpiece
  refine ⟨whole, ?_, hblock⟩
  rw [foldl_injectContext body hbefore hrole hinject hall]
  exact ChatBody.mem_withMessage hwhole

theorem zerosOf_run_le (body : ChatBody ρ) {texts : List Text}
    (htexts : ∀ text ∈ texts, text ≠ []) (n : Nat)
    (h : ¬ Keeps (contextContent body) (texts.length + 1)) :
    zerosOf ((zeroSection n :: texts).foldl injectContext body).allTexts ≤
      zerosOf body.allTexts + zerosOf texts := by
  obtain ⟨before, msg, after, hbefore, hrole, hcontent, hzeros, hinject⟩ :=
    injectContext_slot body
  rw [← hcontent] at h
  have hlost := zerosOf_lost n h
  rw [foldl_injectContext body hbefore hrole hinject
    (List.forall_mem_cons.mpr ⟨zeroSection_ne_nil n, htexts⟩), ← hzeros,
    ChatBody.zerosOf_withMessage, ChatBody.zerosOf_withMessage]
  omega

end OpenAIFormat

/-! ## Anthropic -/

namespace AnthropicFormat

/-- The content of the last user message. -/
def contextContent (body : ChatBody ρ) : Content ρ :=
  (((body.messages.getD []).reverse.find? fun msg => msg.role = some "user").bind
    (·.content)).getD (.text [])

/-- Blocks are never taken out, but content that is no text is left alone. -/
def Keeps : Content ρ → Nat → Prop
  | .other _, n => n = 0
  | _, _ => True

variable (breakpoint : ρ)

theorem role_injectIntoMessage (text : Text) (msg : ChatMessage ρ) :
    (injectIntoMessage breakpoint text msg).role = msg.role := by
  rw [injectIntoMessage]
  split <;> rfl

theorem injectContext_withMessage (body : ChatBody ρ) (before : List (ChatMessage ρ))
    {after : List (ChatMessage ρ)} (hafter : ∀ x ∈ after, x.role ≠ some "user")
    (text : Text) (msg : ChatMessage ρ) (h : text ≠ [])
    (hrole : msg.role = some "user") :
    injectContext breakpoint (body.withMessage before after msg) text =
      body.withMessage before after (injectIntoMessage breakpoint text msg) := by
  have hnone : ∀ x ∈ after, injectIfUser breakpoint text x = none :=
    fun x hx => if_neg (hafter x hx)
  have hsome : injectIfUser breakpoint text msg =
      some (injectIntoMessage breakpoint text msg) := if_pos hrole
  simp only [injectContext, if_neg h, ChatBody.withMessage, Option.getD_some]
  rw [replaceLast_append hnone hsome before, Option.getD_some]

theorem injectContext_slot (body : ChatBody ρ) :
    ∃ before msg after, (∀ x ∈ after, x.role ≠ some "user") ∧
      msg.role = some "user" ∧ msg.content.getD (.text []) = contextContent body ∧
      zerosOf (body.withMessage before after msg).allTexts = zerosOf body.allTexts ∧
      ∀ text, text ≠ [] → injectContext breakpoint body text =
        body.withMessage before after (injectIntoMessage breakpoint text msg) := by
  cases hfind : (body.messages.getD []).reverse.find? fun msg =>
      msg.role = some "user" with
  | none =>
      have hnone : ∀ x ∈ body.messages.getD [], x.role ≠ some "user" := by
        simpa using hfind
      refine ⟨body.messages.getD [], { role := some "user", content := some (.text []) },
        [], by simp, rfl, ?_, ?_, ?_⟩
      · simp [contextContent, hfind]
      · rw [ChatBody.zerosOf_withMessage]
        have hempty : zeros [] = 0 := rfl
        simp [ChatMessage.allTexts, Content.texts, ChatBody.allTexts, hempty]
      · intro text h
        have hreplace : replaceLast (injectIfUser breakpoint text)
            (body.messages.getD []) = none :=
          replaceLast_eq_none_iff.mpr fun x hx => if_neg (hnone x hx)
        simp [injectContext, h, hreplace, ChatBody.withMessage, injectIntoMessage]
  | some msg =>
      obtain ⟨hrole, after, before, hmessages, hafter⟩ :=
        List.find?_eq_some_iff_append.mp hfind
      simp only [decide_eq_true_eq] at hrole
      have hafter' : ∀ x ∈ after.reverse, x.role ≠ some "user" := by simpa using hafter
      obtain ⟨messages, rest⟩ := body
      cases messages with
      | none => simp at hmessages
      | some messages =>
          simp only [Option.getD_some] at hmessages
          have hsplit : messages = before.reverse ++ msg :: after.reverse := by
            rw [← List.reverse_reverse messages, hmessages]
            simp
          subst hsplit
          refine ⟨before.reverse, msg, after.reverse, hafter', hrole, ?_, rfl, ?_⟩
          · simp only [contextContent, hfind, Option.bind_some]
          · exact fun text h => injectContext_withMessage breakpoint ⟨_, rest⟩ _ hafter'
              text msg h hrole

theorem elementTexts_replaceLast {f : Element ρ → Option (Element ρ)}
    (hf : ∀ e new, f e = some new → new.text? = e.text?)
    {elements new : List (Element ρ)} (h : replaceLast f elements = some new) :
    elementTexts new = elementTexts elements := by
  obtain ⟨before, e, e', after, rfl, he, -, rfl⟩ := replaceLast_eq_some h
  simp only [elementTexts, List.filterMap_append, List.filterMap_cons, hf e e' he]

theorem elementTexts_markLast (elements : List (Element ρ)) :
    elementTexts (markLast breakpoint elements) = elementTexts elements := by
  rw [markLast]
  cases hreplace : replaceLast _ elements with
  | none => rfl
  | some new =>
      refine elementTexts_replaceLast ?_ hreplace
      intro e e' he
      cases e with
      | part p => cases he; rfl
      | other value => cases he

theorem foldl_elements (texts : List Text) (msg : ChatMessage ρ)
    (elements : List (Element ρ)) :
    ∃ new, texts.foldl (fun msg text => injectIntoMessage breakpoint text msg)
        { msg with content := some (.elements elements) } =
          { msg with content := some (.elements new) } ∧
      elementTexts new = elementTexts elements ++ texts.map contextBlock := by
  induction texts generalizing elements with
  | nil => exact ⟨elements, rfl, by simp⟩
  | cons text texts ih =>
      obtain ⟨new, hfold, htexts⟩ := ih (markLast breakpoint elements ++
        [.part { type := some "text", text := some (contextBlock text) }])
      refine ⟨new, hfold, ?_⟩
      rw [htexts, elementTexts_append, elementTexts_markLast, elementTexts_block]
      simp

theorem injectIntoMessage_content (text : Text) {msg : ChatMessage ρ}
    (h : Keeps (msg.content.getD (.text [])) 1) :
    ∃ elements, injectIntoMessage breakpoint text msg =
        { msg with content := some (.elements elements) } ∧
      contextBlock text ∈ elementTexts elements := by
  obtain ⟨role, content, rest⟩ := msg
  match content with
  | none => exact ⟨_, rfl, List.mem_cons_self⟩
  | some (.text []) => exact ⟨_, rfl, List.mem_cons_self⟩
  | some (.text (c :: content)) =>
      exact ⟨_, rfl, List.mem_cons_of_mem _ List.mem_cons_self⟩
  | some (.elements elements) =>
      refine ⟨_, rfl, ?_⟩
      rw [elementTexts_append, elementTexts_block]
      exact List.mem_append_right _ List.mem_cons_self
  | some (.other value) => cases h

theorem holds_of_keeps {msg : ChatMessage ρ} {text : Text} {texts : List Text}
    (h : Keeps (msg.content.getD (.text [])) (texts.length + 1)) :
    ∀ piece ∈ text :: texts, contextBlock piece ∈
      (texts.foldl (fun msg text => injectIntoMessage breakpoint text msg)
        (injectIntoMessage breakpoint text msg)).allTexts := by
  have hone : Keeps (msg.content.getD (.text [])) 1 := by
    cases hcontent : msg.content.getD (.text []) with
    | other value =>
        rw [hcontent] at h
        cases h
    | text content => trivial
    | elements elements => trivial
  obtain ⟨elements, hinject, hmem⟩ := injectIntoMessage_content breakpoint text hone
  obtain ⟨new, hfold, htexts⟩ := foldl_elements breakpoint texts msg elements
  intro piece hpiece
  rw [hinject, hfold]
  show contextBlock piece ∈ elementTexts new
  rw [htexts]
  rcases List.mem_cons.mp hpiece with rfl | hmore
  · exact List.mem_append_left _ hmem
  · exact List.mem_append_right _ (List.mem_map_of_mem hmore)

theorem foldl_of_not_keeps {msg : ChatMessage ρ} {n : Nat}
    (h : ¬ Keeps (msg.content.getD (.text [])) n) (texts : List Text) :
    texts.foldl (fun msg text => injectIntoMessage breakpoint text msg) msg = msg := by
  obtain ⟨role, content, rest⟩ := msg
  match content with
  | none => exact absurd trivial h
  | some (.text content) => exact absurd trivial h
  | some (.elements elements) => exact absurd trivial h
  | some (.other value) =>
      clear h
      induction texts with
      | nil => rfl
      | cons text texts ih => exact ih

theorem foldl_injectContext (body : ChatBody ρ) {before after : List (ChatMessage ρ)}
    {msg : ChatMessage ρ} (hafter : ∀ x ∈ after, x.role ≠ some "user")
    (hrole : msg.role = some "user")
    (hinject : ∀ text, text ≠ [] → injectContext breakpoint body text =
      body.withMessage before after (injectIntoMessage breakpoint text msg))
    {text : Text} {texts : List Text} (hall : ∀ piece ∈ text :: texts, piece ≠ []) :
    (text :: texts).foldl (injectContext breakpoint) body =
      body.withMessage before after
        (texts.foldl (fun msg text => injectIntoMessage breakpoint text msg)
          (injectIntoMessage breakpoint text msg)) := by
  have hrest := fun t ht => hall t (List.mem_cons_of_mem _ ht)
  rw [List.foldl_cons, hinject text (hall text List.mem_cons_self)]
  exact ChatBody.foldl_withMessage (role_injectIntoMessage breakpoint)
    (injectContext_withMessage breakpoint body before hafter) hrest
    ((role_injectIntoMessage breakpoint text msg).trans hrole)

theorem holds_run (body : ChatBody ρ) {text : Text} {texts : List Text}
    (hall : ∀ piece ∈ text :: texts, piece ≠ [])
    (h : Keeps (contextContent body) (texts.length + 1)) :
    ∀ piece ∈ text :: texts, contextBlock piece ∈
      ((text :: texts).foldl (injectContext breakpoint) body).allTexts := by
  obtain ⟨before, msg, after, hafter, hrole, hcontent, -, hinject⟩ :=
    injectContext_slot breakpoint body
  rw [← hcontent] at h
  intro piece hpiece
  rw [foldl_injectContext breakpoint body hafter hrole hinject hall]
  exact ChatBody.mem_withMessage (holds_of_keeps breakpoint h piece hpiece)

theorem zerosOf_run_le (body : ChatBody ρ) {texts : List Text}
    (htexts : ∀ text ∈ texts, text ≠ []) (n : Nat)
    (h : ¬ Keeps (contextContent body) (texts.length + 1)) :
    zerosOf ((zeroSection n :: texts).foldl (injectContext breakpoint)
      body).allTexts ≤ zerosOf body.allTexts + zerosOf texts := by
  obtain ⟨before, msg, after, hafter, hrole, hcontent, hzeros, hinject⟩ :=
    injectContext_slot breakpoint body
  rw [← hcontent] at h
  have hsame := foldl_of_not_keeps breakpoint h (zeroSection n :: texts)
  rw [List.foldl_cons] at hsame
  rw [foldl_injectContext breakpoint body hafter hrole hinject
    (List.forall_mem_cons.mpr ⟨zeroSection_ne_nil n, htexts⟩), hsame, hzeros]
  omega

end AnthropicFormat

/-! ## All formats -/

namespace ApiFormat

/-- So many pieces of context can be injected such that all stay. -/
def Keeps : (fmt : ApiFormat) → fmt.Body ρ → Nat → Prop
  | .anthropic => fun (body : ChatBody ρ) n =>
      AnthropicFormat.Keeps (AnthropicFormat.contextContent body) n
  | .openai => fun (body : ChatBody ρ) n =>
      OpenAIFormat.Keeps (OpenAIFormat.contextContent body) n
  | .gemini => fun _ n => n ≤ 1
  | .openaiResponses => fun _ n => n ≤ 1

variable (breakpoint : ρ)

theorem holds_of_keeps (fmt : ApiFormat) (body : fmt.Body ρ) {texts : List Text}
    (htexts : ∀ text ∈ texts, text ≠ []) (h : fmt.Keeps body texts.length) :
    ∀ piece ∈ texts,
      fmt.Holds (texts.foldl (fmt.injectContext breakpoint) body) piece := by
  cases texts with
  | nil => intro piece hpiece; cases hpiece
  | cons text texts =>
      have htext := htexts text List.mem_cons_self
      intro piece hpiece
      have hinfix := infix_contextBlock piece
      cases fmt with
      | anthropic =>
          exact ⟨_, AnthropicFormat.holds_run breakpoint body htexts h piece hpiece,
            hinfix⟩
      | openai =>
          obtain ⟨whole, hwhole, hblock⟩ :=
            OpenAIFormat.holds_run body htexts h piece hpiece
          exact ⟨whole, hwhole, hinfix.trans hblock⟩
      | gemini =>
          have hlength : texts.length + 1 ≤ 1 := h
          have hnil : texts = [] := List.length_eq_zero_iff.mp (by omega)
          subst hnil
          rw [List.mem_singleton] at hpiece
          subst hpiece
          exact ⟨_, GeminiFormat.holds_injectContext body htext, hinfix⟩
      | openaiResponses =>
          have hlength : texts.length + 1 ≤ 1 := h
          have hnil : texts = [] := List.length_eq_zero_iff.mp (by omega)
          subst hnil
          rw [List.mem_singleton] at hpiece
          subst hpiece
          obtain ⟨whole, hwhole, hblock⟩ :=
            OpenAIResponsesFormat.holds_injectContext body htext
          exact ⟨whole, hwhole, hinfix.trans hblock⟩

/-- Where the body does not keep as many pieces, the first section is lost. -/
theorem zerosOf_lost (fmt : ApiFormat) (body : fmt.Body ρ) {texts : List Text}
    (htexts : ∀ text ∈ texts, text ≠ []) (n : Nat)
    (h : ¬ fmt.Keeps body (texts.length + 1)) :
    zerosOf (fmt.allTexts
      ((zeroSection n :: texts).foldl (fmt.injectContext breakpoint) body)) ≤
        zerosOf (fmt.allTexts body) + zerosOf texts := by
  cases fmt with
  | anthropic => exact AnthropicFormat.zerosOf_run_le breakpoint body htexts n h
  | openai => exact OpenAIFormat.zerosOf_run_le body htexts n h
  | gemini => exact GeminiFormat.zerosOf_run_le body htexts n h
  | openaiResponses => exact OpenAIResponsesFormat.zerosOf_run_le body htexts n h

end ApiFormat

end VirtualContext
