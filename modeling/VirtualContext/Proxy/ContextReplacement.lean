import VirtualContext.Library.Trimming
import VirtualContext.Proxy.ContextCapacity

/-!
# Replacing injected context

Before context is injected, the block of an earlier injection is taken out.  It
is taken out as a whole unless a tag in it or before it looks like its own.
-/

namespace VirtualContext

open Library

variable {ρ : Type}

/-! ## Tags -/

theorem openingRe_endsWith : openingRe.EndsWith '\n' := by
  intro found word hword
  have hwords : ∀ word ∈ ["<virtual-context>\n".toList, "<system-reminder>\n".toList],
      word = word.dropLast ++ ['\n'] ∧ '\n' ∉ word.dropLast := by
    decide
  obtain ⟨hlast, hnot⟩ := hwords word hword
  exact ⟨word.dropLast, hlast, hnot⟩

theorem closingRe_beginsWith : closingRe.BeginsWith '\n' := by
  intro found word hword
  have hwords : ∀ word ∈ ["\n</virtual-context>".toList, "\n</system-reminder>".toList],
      word = '\n' :: word.tail ∧ '\n' ∉ word.tail := by
    decide
  obtain ⟨hhead, hnot⟩ := hwords word hword
  exact ⟨word.tail, hhead, hnot⟩

theorem openingRe_settled : openingRe.Settled := Matcher.fixed_settled

theorem closingRe_settled : closingRe.Settled := Matcher.fixed_settled

theorem blockFront_word : openingRe.Word () blockFront :=
  List.mem_cons_of_mem _ (List.mem_singleton_self _)

theorem blockBack_word : closingRe.Word () blockBack :=
  List.mem_cons_of_mem _ (List.mem_singleton_self _)

/-- What is left behind the first closing tag of a block with some context. -/
def leftOver (context rest : Text) : Text :=
  match closingRe.find context with
  | none => rest
  | some (_, _, after) => after ++ blockBack ++ rest

theorem find_closing (context rest : Text) :
    ∃ front, closingRe.find (context ++ blockBack ++ rest) =
      some (front, (), leftOver context rest) := by
  rw [leftOver]
  cases hfind : closingRe.find context with
  | none =>
      have hclean := Matcher.find_eq_none_iff.mp hfind
      have hback : blockBack ++ rest = '\n' :: ("</system-reminder>".toList ++ rest) := rfl
      have hword := Matcher.find_word blockBack_word rest
      refine ⟨context ++ [], ?_⟩
      rw [List.append_assoc, hback, closingRe_beginsWith.find_append hclean, ← hback, hword]
      rfl
  | some result =>
      obtain ⟨front, found, after⟩ := result
      refine ⟨front, ?_⟩
      rw [List.append_assoc, closingRe_settled.find_append hfind, ← List.append_assoc]

/-- The block goes from its first opening tag to the first closing tag behind it. -/
theorem cleanBlock_of_find {text before inner front after : Text} {found found' : Unit}
    (hopen : openingRe.find text = some (before, found, inner))
    (hclose : closingRe.find inner = some (front, found', after)) :
    cleanBlock text = pyStripChars (before ++ after) := by
  have hfind : vcBlockRe.find text = some (before, (), after) :=
    Matcher.between_find hopen hclose
  rw [cleanBlock, Matcher.removeFirst, hfind]

theorem find_contextBlock (context rest : Text) :
    openingRe.find (contextBlock context ++ rest) =
      some ([], (), context ++ blockBack ++ rest) := by
  have hassoc : contextBlock context ++ rest = blockFront ++ (context ++ blockBack ++ rest) := by
    simp only [contextBlock, List.append_assoc]
  rw [hassoc]
  exact Matcher.find_word blockFront_word _

/-! ## Texts -/

theorem removeFirst_of_clean {text : Text} (h : vcBlockRe.Clean text) :
    vcBlockRe.removeFirst text = text := by
  rw [Matcher.removeFirst, Matcher.find_eq_none_iff.mpr h]

theorem cleanBlock_of_clean {text : Text} (h : vcBlockRe.Clean text) :
    cleanBlock text = pyStripChars text := by
  rw [cleanBlock, removeFirst_of_clean h]

theorem clean_strip {text : Text} (h : vcBlockRe.Clean text) :
    vcBlockRe.Clean (pyStripChars text) := by
  obtain ⟨before, after, heq⟩ : pyStripChars text <:+: text := trim_infix
  rw [← heq] at h
  exact h.left.right

def solids (text : Text) : Nat := text.countP fun c => !isPySpace c

theorem solids_strip (text : Text) : solids (pyStripChars text) = solids text :=
  countP_trim text

theorem solids_append (text more : Text) : solids (text ++ more) = solids text + solids more :=
  List.countP_append

theorem solids_opening {word : Text} {found : Unit} (h : openingRe.Word found word) :
    0 < solids word := by
  have hwords : ∀ word ∈ ["<virtual-context>\n".toList, "<system-reminder>\n".toList],
      0 < solids word := by
    decide
  exact hwords word h

theorem solids_blockBack : solids blockBack = 18 := by decide

/-- Whether a block behind a text is taken out again, so that the text stays. -/
def Restored (content context : Text) : Prop :=
  match openingRe.find (pyStripChars content ++ ['\n']) with
  | none => closingRe.find context = none
  | some (before, _, _) =>
      ∃ front found after, closingRe.find ('\n' :: context) = some (front, found, after) ∧
        pyStripChars (before ++ after ++ blockBack) = pyStripChars content

theorem find_beforeContext {content : Text} (hcontent : vcBlockRe.Clean content)
    (hnone : openingRe.find (pyStripChars content ++ ['\n']) = none) (rest : Text) :
    openingRe.find (beforeContext content ++ contextBlock rest) =
      some (beforeContext content, (), rest ++ blockBack) := by
  have hblock := find_contextBlock rest []
  simp only [List.append_nil] at hblock
  simp only [beforeContext, cleanBlock_of_clean hcontent]
  split
  next => exact hblock
  next =>
    have hgap : pyStripChars content ++ "\n\n".toList ++ contextBlock rest =
        pyStripChars content ++ '\n' :: ([] ++ '\n' :: contextBlock rest) := by
      rw [List.append_assoc]
      rfl
    have hline : openingRe.Clean ([] ++ ['\n']) :=
      Matcher.find_eq_none_iff.mp (by decide)
    rw [hgap, openingRe_endsWith.find_append (Matcher.find_eq_none_iff.mp hnone),
      openingRe_endsWith.find_append hline, hblock]
    simp only [Option.map_some]
    rfl

theorem isPySpace_gap : ∀ c ∈ "\n\n".toList, isPySpace c = true :=
  List.all_eq_true.mp (by decide +kernel)

theorem strip_beforeContext {content : Text} (hcontent : vcBlockRe.Clean content) :
    pyStripChars (beforeContext content) = pyStripChars content := by
  simp only [beforeContext, cleanBlock_of_clean hcontent]
  split
  next hempty => rw [hempty]; rfl
  next =>
    exact (trim_append_right isPySpace_gap _).trans trim_trim

/-- No closing tag follows an opening one in a text without blocks. -/
theorem clean_behind_opening {text before after : Text} {found : Unit}
    (htext : vcBlockRe.Clean text)
    (hfind : openingRe.find (text ++ ['\n']) = some (before, found, after)) :
    closingRe.Clean after := by
  obtain ⟨word, hword, heq⟩ := Matcher.find_eq_some hfind
  rcases List.eq_nil_or_concat after with rfl | ⟨inner, c, rfl⟩
  · exact Matcher.find_eq_none_iff.mp Matcher.find_nil
  · rw [List.concat_eq_append, ← List.append_assoc] at heq
    obtain ⟨rfl, hlast⟩ := List.append_inj' heq rfl
    have hinner : closingRe.Clean inner := by
      refine Matcher.find_eq_none_iff.mp (Option.eq_none_iff_forall_ne_some.mpr ?_)
      rintro ⟨front, found', rest⟩ hclose
      have hopen := Matcher.find_word hword inner
      have hblock : vcBlockRe.find (word ++ inner) = some ([], (), rest) :=
        Matcher.between_find hopen hclose
      have hright : vcBlockRe.Clean (word ++ inner) := by
        rw [List.append_assoc] at htext
        exact htext.right
      rw [Matcher.find_eq_none_iff.mpr hright] at hblock
      cases hblock
    rw [List.concat_eq_append, ← hlast]
    refine Matcher.find_eq_none_iff.mp ?_
    rw [closingRe_beginsWith.find_append hinner]
    rfl

theorem find_behind_opening {content before inner : Text} {found : Unit}
    (hcontent : vcBlockRe.Clean content)
    (hfind : openingRe.find (pyStripChars content ++ ['\n']) = some (before, found, inner))
    (context : Text) :
    cleanBlock (injectIntoText content context) =
      pyStripChars (before ++ leftOver ('\n' :: context) []) := by
  have hne : pyStripChars content ≠ [] := by
    intro hempty
    have hnone : openingRe.find ([] ++ ['\n']) = none := by decide
    rw [hempty, hnone] at hfind
    cases hfind
  have htext : injectIntoText content context =
      (pyStripChars content ++ ['\n']) ++ '\n' :: contextBlock context := by
    simp only [injectIntoText, cleanBlock_of_clean hcontent, if_neg hne]
    rw [List.append_assoc, List.append_assoc]
    rfl
  have hopen := openingRe_settled.find_append hfind ('\n' :: contextBlock context)
  rw [← htext] at hopen
  have hinner := clean_behind_opening (clean_strip hcontent) hfind
  have hfront : closingRe.Clean (inner ++ "\n<system-reminder>".toList) := by
    refine Matcher.find_eq_none_iff.mp ?_
    have hbreak : "\n<system-reminder>".toList = '\n' :: "<system-reminder>".toList := rfl
    have hnone : closingRe.find ('\n' :: "<system-reminder>".toList) = none := by decide
    rw [hbreak, closingRe_beginsWith.find_append hinner, hnone]
    rfl
  obtain ⟨front, hclose⟩ := find_closing ('\n' :: context) []
  have hbehind : inner ++ '\n' :: contextBlock context =
      (inner ++ "\n<system-reminder>".toList) ++ '\n' :: (context ++ blockBack) := by
    rw [List.append_assoc]
    rfl
  rw [List.append_nil, List.cons_append] at hclose
  have hcloses := closingRe_beginsWith.find_append hfront (context ++ blockBack)
  rw [← hbehind, hclose, Option.map_some] at hcloses
  exact cleanBlock_of_find hopen hcloses

/-- Taking the block out gives the text back exactly if it is restored. -/
theorem cleanBlock_injectIntoText_iff {content : Text} (hcontent : vcBlockRe.Clean content)
    (context : Text) :
    cleanBlock (injectIntoText content context) = cleanBlock content ↔
      Restored content context := by
  rw [Restored, cleanBlock_of_clean hcontent]
  cases hfind : openingRe.find (pyStripChars content ++ ['\n']) with
  | none =>
      obtain ⟨front, hclose⟩ := find_closing context []
      rw [List.append_nil] at hclose
      rw [injectIntoText_eq, cleanBlock_of_find (find_beforeContext hcontent hfind context) hclose]
      simp only [leftOver]
      cases closingRe.find context with
      | none =>
          rw [List.append_nil]
          exact iff_of_true (strip_beforeContext hcontent) rfl
      | some result =>
          obtain ⟨front, found, after⟩ := result
          refine iff_of_false (fun heq => ?_) (by simp)
          have hsolids := congrArg solids heq
          rw [solids_strip, ← strip_beforeContext hcontent, solids_strip] at hsolids
          simp only [solids_append, solids_blockBack] at hsolids
          omega
  | some result =>
      obtain ⟨before, found, inner⟩ := result
      rw [find_behind_opening hcontent hfind]
      simp only [leftOver]
      cases closingRe.find ('\n' :: context) with
      | none =>
          refine iff_of_false (fun heq => ?_) (by simp)
          obtain ⟨word, hword, htext⟩ := Matcher.find_eq_some hfind
          have hword := solids_opening hword
          have hline : solids ['\n'] = 0 := by decide
          have hparts := congrArg solids htext
          simp only [solids_append, solids_strip, hline] at hparts
          have hsolids := congrArg solids heq
          rw [List.append_nil, solids_strip, solids_strip] at hsolids
          omega
      | some result =>
          obtain ⟨front, found', after⟩ := result
          simp

/-! ## Injecting twice -/

theorem cleanBlock_contextBlock_iff (context : Text) :
    cleanBlock (contextBlock context) = [] ↔ closingRe.find context = none := by
  have hnil : cleanBlock [] = [] := by decide
  have hbefore : beforeContext [] = [] := by rw [beforeContext, hnil, if_pos rfl]
  have hnone : openingRe.find (pyStripChars [] ++ ['\n']) = none := by decide
  have hiff := cleanBlock_injectIntoText_iff (Matcher.find_eq_none_iff.mp Matcher.find_nil) context
  rwa [injectIntoText_eq, hbefore, List.nil_append, hnil, Restored, hnone] at hiff

theorem beforeContext_inj {content content' : Text} :
    beforeContext content = beforeContext content' ↔ cleanBlock content = cleanBlock content' := by
  constructor
  · intro h
    simp only [beforeContext] at h
    split_ifs at h with hempty hempty' hempty'
    · rw [hempty, hempty']
    · cases hcleaned : cleanBlock content' <;> simp [hcleaned] at h
    · cases hcleaned : cleanBlock content <;> simp [hcleaned] at h
    · exact List.append_cancel_right h
  · intro h
    simp only [beforeContext, h]

theorem injectIntoText_twice_iff {content : Text} (hcontent : vcBlockRe.Clean content)
    (x y : Text) :
    injectIntoText (injectIntoText content x) y = injectIntoText content y ↔
      Restored content x := by
  rw [injectIntoText_eq (injectIntoText content x), injectIntoText_eq content y,
    List.append_left_inj, beforeContext_inj, cleanBlock_injectIntoText_iff hcontent]

theorem Element.clean_clean {keepsOther : Bool} {element cleaned : Element ρ}
    (htext : ∀ text ∈ element.text?, vcBlockRe.Clean text)
    (h : element.clean keepsOther = some cleaned) :
    cleaned.clean keepsOther = some cleaned := by
  cases element with
  | other value =>
      rw [Element.clean] at h
      split_ifs at h with hkeeps
      rw [← Option.some.inj h, Element.clean, if_pos hkeeps]
  | part p =>
      cases hp : p.text with
      | none =>
          simp only [Element.clean, hp, Option.some.injEq] at h
          rw [← h]
          simp only [Element.clean, hp]
      | some text =>
          have hclean : vcBlockRe.Clean text := htext text hp
          simp only [Element.clean, hp] at h
          split_ifs at h with hempty
          have hagain : cleanBlock (cleanBlock text) = cleanBlock text := by
            rw [cleanBlock_of_clean hclean, cleanBlock_of_clean (clean_strip hclean)]
            exact trim_trim
          rw [← Option.some.inj h]
          simp only [Element.clean, hagain, if_neg hempty]

theorem filterMap_clean_twice {keepsOther : Bool} {elements : List (Element ρ)}
    (h : ∀ text ∈ elements.filterMap Element.text?, vcBlockRe.Clean text) :
    (elements.filterMap (Element.clean keepsOther)).filterMap (Element.clean keepsOther) =
      elements.filterMap (Element.clean keepsOther) := by
  rw [List.filterMap_filterMap]
  refine List.filterMap_congr fun element helement => ?_
  cases hclean : element.clean keepsOther with
  | none => rfl
  | some cleaned =>
      refine Element.clean_clean (fun text htext => ?_) hclean
      exact h text (List.mem_filterMap.mpr ⟨element, helement, htext⟩)

theorem injectIntoElements_twice_iff {keepsOther : Bool} {type : Option String}
    {elements : List (Element ρ)}
    (h : ∀ text ∈ elements.filterMap Element.text?, vcBlockRe.Clean text) (x y : Text) :
    injectIntoElements keepsOther type (injectIntoElements keepsOther type elements x) y =
        injectIntoElements keepsOther type elements y ↔
      closingRe.find x = none := by
  simp only [injectIntoElements, List.filterMap_append, filterMap_clean_twice h]
  rw [List.append_left_inj, List.append_right_eq_self, ← cleanBlock_contextBlock_iff]
  simp only [List.filterMap_cons, List.filterMap_nil, Element.clean]
  by_cases hempty : cleanBlock (contextBlock x) = [] <;> simp [hempty]

theorem not_clean_of_contextBlock {text whole : Text} (h : contextBlock text <:+: whole) :
    ¬ vcBlockRe.Clean whole := by
  intro hclean
  obtain ⟨word, rest, hword, hblock⟩ := contextBlock_word text
  obtain ⟨before, after, heq⟩ := h
  exact hclean before () word (rest ++ after) (by rw [← heq, hblock]; simp) hword

/-! ## The formats -/

namespace OpenAIFormat

/-- Whether the second text replaces the first one in the content of the system message. -/
def Replaces : Content ρ → Text → Text → Prop
  | .text content, x, y => x = [] ∨ y ≠ [] ∧ Restored content x
  | .elements _, x, y => x = [] ∨ y ≠ [] ∧ closingRe.find x = none
  | .other _, _, _ => True

theorem injectIntoMessage_twice_iff {msg : ChatMessage ρ}
    (h : ∀ text ∈ msg.allTexts, vcBlockRe.Clean text) {x y : Text} (hx : x ≠ []) (hy : y ≠ []) :
    injectIntoMessage y (injectIntoMessage x msg) = injectIntoMessage y msg ↔
      Replaces (msg.content.getD (.text [])) x y := by
  obtain ⟨role, content, rest⟩ := msg
  have htext : ∀ text, vcBlockRe.Clean text →
      (injectIntoText (injectIntoText text x) y = injectIntoText text y ↔
        Replaces (.text text : Content ρ) x y) := by
    intro text hclean
    rw [injectIntoText_twice_iff hclean, Replaces]
    simp [hx, hy]
  cases content with
  | none =>
      have hiff := htext [] (Matcher.find_eq_none_iff.mp Matcher.find_nil)
      simpa only [injectIntoMessage, Option.getD_none, Option.getD_some, ChatMessage.mk.injEq,
        Option.some.injEq, Content.text.injEq, true_and, and_true] using hiff
  | some content =>
      cases content with
      | text content =>
          have hiff := htext content (h content List.mem_cons_self)
          simpa only [injectIntoMessage, Option.getD_some, ChatMessage.mk.injEq,
            Option.some.injEq, Content.text.injEq, true_and, and_true] using hiff
      | elements elements =>
          have hiff := @injectIntoElements_twice_iff ρ true (some "text") elements h x y
          simp only [injectIntoMessage, Option.getD_some, ChatMessage.mk.injEq,
            Option.some.injEq, Content.elements.injEq, true_and, and_true, hiff, Replaces]
          simp [hx, hy]
      | other value => exact iff_of_true rfl trivial

/-- Content that is neither a text nor a list is left alone. -/
theorem injectContext_other (body : ChatBody ρ) {value : ρ}
    (h : contextContent body = .other value) (text : Text) : injectContext body text = body := by
  rw [contextContent] at h
  cases hfind : (body.messages.getD []).find? fun msg => msg.role = some "system" with
  | none =>
      rw [hfind] at h
      cases h
  | some msg =>
      rw [hfind, Option.bind_some] at h
      obtain ⟨hrole, before, after, hmessages, hbefore⟩ :=
        List.find?_eq_some_iff_append.mp hfind
      have hnone : ∀ x ∈ before, injectIfSystem text x = none := by
        intro x hx
        have hnot := hbefore x hx
        exact if_neg (by simpa using hnot)
      have hsome : injectIfSystem text msg = some msg := by
        rw [injectIfSystem, if_pos (by simpa using hrole), injectIntoMessage, h]
      obtain ⟨messages, rest⟩ := body
      cases messages with
      | none => simp at hmessages
      | some messages =>
          rw [Option.getD_some] at hmessages
          subst hmessages
          simp only [injectContext, Option.getD_some, replaceFirst_append hnone hsome after]
          split <;> rfl

theorem texts_of_contextContent {body : ChatBody ρ}
    (h : ∀ text ∈ body.allTexts, vcBlockRe.Clean text) :
    ∀ text ∈ (contextContent body).texts, vcBlockRe.Clean text := by
  rw [contextContent]
  cases hfind : (body.messages.getD []).find? fun msg => msg.role = some "system" with
  | none =>
      intro text htext
      rw [List.mem_singleton.mp htext]
      exact Matcher.find_eq_none_iff.mp Matcher.find_nil
  | some msg =>
      rw [Option.bind_some]
      intro text htext
      cases hcontent : msg.content with
      | none =>
          rw [hcontent] at htext
          rw [List.mem_singleton.mp htext]
          exact Matcher.find_eq_none_iff.mp Matcher.find_nil
      | some content =>
          rw [hcontent, Option.getD_some] at htext
          refine h text (List.mem_flatMap.mpr ⟨msg, List.mem_of_find?_eq_some hfind, ?_⟩)
          rw [ChatMessage.allTexts, hcontent]
          exact htext

theorem injectContext_twice_iff {body : ChatBody ρ}
    (h : ∀ text ∈ body.allTexts, vcBlockRe.Clean text) (x y : Text) :
    injectContext (injectContext body x) y = injectContext body y ↔
      Replaces (contextContent body) x y := by
  by_cases hother : ∃ value, contextContent body = .other value
  · obtain ⟨value, hother⟩ := hother
    rw [injectContext_other body hother x, hother]
    exact iff_of_true rfl trivial
  by_cases hx : x = []
  · have hsame : injectContext body x = body := by rw [injectContext, if_pos hx]
    rw [hsame, hx]
    refine iff_of_true rfl ?_
    cases hcontent : contextContent body with
    | text content => exact .inl rfl
    | elements elements => exact .inl rfl
    | other value => exact trivial
  obtain ⟨before, msg, after, hbefore, hrole, hcontent, -, hinject⟩ := injectContext_slot body
  by_cases hy : y = []
  · refine iff_of_false (fun heq => ?_) ?_
    · rw [hy, injectContext.eq_1 _ [], if_pos rfl, injectContext.eq_1 _ [], if_pos rfl] at heq
      have hkeeps : Keeps (contextContent body) 1 := by
        cases hkind : contextContent body with
        | text content => exact .inr trivial
        | elements elements => exact Nat.le_refl 1
        | other value => exact absurd ⟨value, hkind⟩ hother
      obtain ⟨whole, hwhole, hinfix⟩ :=
        holds_run body (List.forall_mem_singleton.mpr hx) hkeeps x (List.mem_singleton_self x)
      rw [List.foldl_cons, List.foldl_nil, heq] at hwhole
      exact not_clean_of_contextBlock hinfix (h whole hwhole)
    · cases hkind : contextContent body with
      | text content => simp [Replaces, hx, hy]
      | elements elements => simp [Replaces, hx, hy]
      | other value => exact absurd ⟨value, hkind⟩ hother
  · have hrole' : (injectIntoMessage x msg).role = some "system" :=
      (role_injectIntoMessage x msg).trans hrole
    rw [hinject x hx, injectContext_withMessage body hbefore after y _ hy hrole', hinject y hy,
      ← hcontent, ← injectIntoMessage_twice_iff ?_ hx hy]
    · simp only [ChatBody.withMessage, ChatBody.mk.injEq, Option.some.injEq,
        List.append_cancel_left_eq, List.cons.injEq, and_true]
    · intro text htext
      refine texts_of_contextContent h text ?_
      rw [← hcontent]
      cases hkind : msg.content with
      | none => simp [ChatMessage.allTexts, hkind] at htext
      | some content => simpa [ChatMessage.allTexts, hkind] using htext

end OpenAIFormat

namespace GeminiFormat

theorem injectContext_twice_iff {body : GeminiBody ρ}
    (h : ∀ text ∈ body.allTexts, vcBlockRe.Clean text) (x y : Text) :
    injectContext (injectContext body x) y = injectContext body y ↔
      x = [] ∨ y ≠ [] ∧ closingRe.find x = none := by
  by_cases hx : x = []
  · simp [injectContext, hx]
  by_cases hy : y = []
  · refine iff_of_false (fun heq => ?_) (by simp [hx, hy])
    rw [hy, injectContext.eq_1 _ [], if_pos rfl, injectContext.eq_1 _ [], if_pos rfl] at heq
    have hblock := holds_injectContext body hx
    rw [heq] at hblock
    exact not_clean_of_contextBlock List.infix_rfl (h _ hblock)
  · have htexts : ∀ text ∈ (instructionParts body).filterMap Element.text?,
        vcBlockRe.Clean text := fun text htext => h text (List.mem_append_left _ htext)
    have hiff := @injectIntoElements_twice_iff ρ false none (instructionParts body) htexts x y
    rw [injectContext_of_ne_nil body hx, injectContext_of_ne_nil _ hy,
      injectContext_of_ne_nil body hy]
    simp only [instructionParts, Option.bind_some, Option.getD_some, GeminiBody.mk.injEq,
      Option.some.injEq, GeminiInstruction.mk.injEq, true_and, and_true] at hiff ⊢
    rw [hiff]
    simp [hx, hy]

end GeminiFormat

namespace OpenAIResponsesFormat

/-- Behind the block the instructions are left as they are. -/
theorem cleanBlock_injectInFront_iff {instructions : Text}
    (h : vcBlockRe.Clean instructions) (context : Text) :
    cleanBlock (injectInFront instructions context) = cleanBlock instructions ↔
      closingRe.find context = none := by
  rw [cleanBlock_of_clean h]
  simp only [injectInFront, cleanBlock_of_clean h]
  split
  next hempty => rw [hempty, cleanBlock_contextBlock_iff]
  next hne =>
    have hassoc : contextBlock context ++ "\n\n".toList ++ pyStripChars instructions =
        contextBlock context ++ ("\n\n".toList ++ pyStripChars instructions) :=
      List.append_assoc _ _ _
    obtain ⟨front, hclose⟩ := find_closing context ("\n\n".toList ++ pyStripChars instructions)
    rw [hassoc, cleanBlock_of_find (find_contextBlock context _) hclose, List.nil_append]
    simp only [leftOver]
    have hgap : solids "\n\n".toList = 0 := by decide
    cases closingRe.find context with
    | none =>
        exact iff_of_true ((trim_append_left isPySpace_gap _).trans trim_trim) rfl
    | some result =>
        obtain ⟨front, found, after⟩ := result
        refine iff_of_false (fun heq => ?_) (by simp)
        have hsolids := congrArg solids heq
        simp only [solids_strip, solids_append, solids_blockBack, hgap] at hsolids
        omega

theorem injectInFront_inj {instructions instructions' context : Text} :
    injectInFront instructions context = injectInFront instructions' context ↔
      cleanBlock instructions = cleanBlock instructions' := by
  constructor
  · intro h
    simp only [injectInFront] at h
    split_ifs at h with hempty hempty' hempty'
    · rw [hempty, hempty']
    · rw [List.append_assoc] at h
      simp at h
    · rw [List.append_assoc] at h
      simp at h
    · exact List.append_cancel_left h
  · intro h
    simp only [injectInFront, h]

/-- The instructions if they are a text. -/
def oldInstructions (body : ResponsesBody ρ) : Text :=
  match body.instructions with
  | some (.text instructions) => instructions
  | _ => []

theorem injectContext_eq (body : ResponsesBody ρ) {text : Text} (h : text ≠ []) :
    injectContext body text =
      { body with instructions := some (.text (injectInFront (oldInstructions body) text)) } := by
  have hempty : cleanBlock [] = [] := by decide
  match hinstructions : body.instructions with
  | none => simp [injectContext, h, hinstructions, oldInstructions]
  | some (.text old) => simp [injectContext, h, hinstructions, oldInstructions]
  | some (.other value) =>
      simp [injectContext, h, hinstructions, oldInstructions, injectInFront, hempty]

theorem oldInstructions_clean {body : ResponsesBody ρ}
    (h : ∀ text ∈ body.allTexts, vcBlockRe.Clean text) :
    vcBlockRe.Clean (oldInstructions body) := by
  rw [oldInstructions]
  split
  next instructions hinstructions =>
    refine h instructions (List.mem_append_left _ ?_)
    rw [ResponsesBody.contextTexts, hinstructions]
    exact List.mem_singleton_self instructions
  next => exact Matcher.find_eq_none_iff.mp Matcher.find_nil

theorem injectContext_twice_iff {body : ResponsesBody ρ}
    (h : ∀ text ∈ body.allTexts, vcBlockRe.Clean text) (x y : Text) :
    injectContext (injectContext body x) y = injectContext body y ↔
      x = [] ∨ y ≠ [] ∧ closingRe.find x = none := by
  by_cases hx : x = []
  · simp [injectContext, hx]
  by_cases hy : y = []
  · refine iff_of_false (fun heq => ?_) (by simp [hx, hy])
    rw [hy, injectContext.eq_1 _ [], if_pos rfl, injectContext.eq_1 _ [], if_pos rfl] at heq
    have hinstructions := congrArg ResponsesBody.instructions heq
    rw [injectContext_eq body hx] at hinstructions
    have htext : injectInFront (oldInstructions body) x ∈ body.allTexts := by
      refine List.mem_append_left _ ?_
      rw [ResponsesBody.contextTexts, ← hinstructions]
      exact List.mem_singleton_self _
    exact not_clean_of_contextBlock (blockFront_injectInFront _ x) (h _ htext)
  · rw [injectContext_eq body hx, injectContext_eq _ hy, injectContext_eq body hy]
    simp only [oldInstructions, ResponsesBody.mk.injEq, Option.some.injEq,
      Instructions.text.injEq, true_and, and_true]
    rw [← oldInstructions, injectInFront_inj,
      cleanBlock_injectInFront_iff (oldInstructions_clean h)]
    simp [hx, hy]

end OpenAIResponsesFormat

/-! ## Any format -/

namespace ApiFormat

/-- Whether the second text replaces the first one; Anthropic bodies only gain context. -/
def ReplacesContext : (fmt : ApiFormat) → fmt.Body ρ → Text → Text → Prop
  | .anthropic, _, _, _ => False
  | .openai, body, x, y => OpenAIFormat.Replaces (OpenAIFormat.contextContent body) x y
  | .gemini, _, x, y => x = [] ∨ y ≠ [] ∧ closingRe.find x = none
  | .openaiResponses, _, x, y => x = [] ∨ y ≠ [] ∧ closingRe.find x = none

/-- In a body without blocks, the second text takes the place of the first one exactly if
the block of the first one is taken out as a whole. -/
theorem injection_replaces_iff (fmt : ApiFormat) (hfmt : fmt ≠ .anthropic) (breakpoint : ρ)
    (body : fmt.Body ρ) (hbody : ∀ text ∈ fmt.allTexts body, vcBlockRe.Clean text)
    (x y : Text) :
    fmt.injectContext breakpoint (fmt.injectContext breakpoint body x) y =
        fmt.injectContext breakpoint body y ↔
      fmt.ReplacesContext body x y := by
  cases fmt with
  | anthropic => exact absurd rfl hfmt
  | openai => exact OpenAIFormat.injectContext_twice_iff hbody x y
  | gemini => exact GeminiFormat.injectContext_twice_iff hbody x y
  | openaiResponses => exact OpenAIResponsesFormat.injectContext_twice_iff hbody x y

/-! ## A section of the assembler -/

def oneSection : Text := formatBreadthSection "db".toList "indexes".toList

/-- The section ends the block at its own tag, and the end of the block stays. -/
theorem section_is_left :
    ¬ ∀ (fmt : ApiFormat), fmt ≠ .anthropic → ∀ (body : fmt.Body Unit),
      (∀ text ∈ fmt.allTexts body, vcBlockRe.Clean text) → ∀ x y : Text,
        fmt.injectContext () (fmt.injectContext () body x) y = fmt.injectContext () body y := by
  intro h
  have hsame : OpenAIFormat.injectContext (OpenAIFormat.injectContext { messages := some [] }
      oneSection) "note".toList =
        OpenAIFormat.injectContext ({ messages := some [] } : ChatBody Unit) "note".toList :=
    h .openai (by decide) { messages := some [] } (by simp [allTexts, ChatBody.allTexts])
      oneSection "note".toList
  exact absurd hsame (by decide +kernel)

theorem restored_note : Restored [] "note".toList := by
  have hnone : openingRe.find (pyStripChars [] ++ ['\n']) = none := by decide
  rw [Restored, hnone]
  decide

/-- Context without sections is replaced. -/
theorem injection_replaces_note :
    ApiFormat.openai.injectContext () (ApiFormat.openai.injectContext ()
        ({ messages := some [] } : ChatBody Unit) "note".toList) oneSection =
      ApiFormat.openai.injectContext () ({ messages := some [] } : ChatBody Unit) oneSection :=
  (injection_replaces_iff .openai (by decide) () { messages := some [] }
    (by simp [allTexts, ChatBody.allTexts]) "note".toList oneSection).mpr
    (.inr ⟨by decide, restored_note⟩)

end ApiFormat

end VirtualContext
