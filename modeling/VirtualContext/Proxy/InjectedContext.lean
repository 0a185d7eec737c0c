import Mathlib.Algebra.GroupWithZero.Nat
import VirtualContext.Proxy.ContextInjection

/-!
# What repeated injections keep

Several pieces of context are injected into a body one after the other.  They
all stay only behind user messages and in a system text that has enough blocks
of its own to lose.
-/

namespace VirtualContext

open Library

variable {ρ : Type}

/-! ## Blocks at the front of a text -/

theorem vcBlockRe_settled : vcBlockRe.Settled :=
  Matcher.between_settled Matcher.fixed_settled

/-- What stands before the context that is injected first. -/
def beforeContext (content : Text) : Text :=
  let cleaned := cleanBlock content
  if cleaned = [] then [] else cleaned ++ "\n\n".toList

theorem injectIntoText_eq (content text : Text) :
    injectIntoText content text = beforeContext content ++ contextBlock text := by
  simp only [injectIntoText, beforeContext]
  split <;> rfl

/-- A text that `strip` does not change, whatever stands before it. -/
structure Solid (text : Text) : Prop where
  head : ∃ c rest, text = c :: rest ∧ isPySpace c = false
  last : ∃ front c, text = front ++ [c] ∧ isPySpace c = false

theorem Solid.strip {text : Text} (h : Solid text) (before : Text) :
    pyStripChars (before ++ text) = before.dropWhile isPySpace ++ text := by
  obtain ⟨c, rest, hhead, hc⟩ := h.head
  obtain ⟨front, d, hlast, hd⟩ := h.last
  have hdrop : (before ++ text).dropWhile isPySpace =
      before.dropWhile isPySpace ++ text := by
    rw [List.dropWhile_append]
    split
    · rename_i hempty
      rw [List.isEmpty_iff.mp hempty, hhead]
      simp [hc]
    · rfl
  rw [pyStripChars, hdrop, hlast, ← List.append_assoc, List.reverse_append]
  simp [hd]

theorem Solid.append {text more : Text} (h : Solid text) (hmore : Solid more)
    (between : Text) : Solid (text ++ between ++ more) := by
  obtain ⟨c, rest, hhead, hc⟩ := h.head
  obtain ⟨front, d, hlast, hd⟩ := hmore.last
  refine ⟨⟨c, rest ++ between ++ more, by simp [hhead], hc⟩,
    ⟨text ++ between ++ front, d, by simp [hlast], hd⟩⟩

theorem blockFront_eq : blockFront = '<' :: "system-reminder>\n".toList := by
  decide

theorem blockBack_eq : blockBack = "\n</system-reminder".toList ++ ['>'] := by
  decide

theorem contextBlock_solid (text : Text) : Solid (contextBlock text) := by
  constructor
  · rw [contextBlock, blockFront_eq]
    exact ⟨'<', _, rfl, by decide⟩
  · rw [contextBlock, blockBack_eq, ← List.append_assoc]
    exact ⟨_, '>', rfl, by decide⟩

/-- The block that the text loses is one of its own each time. -/
def Absorbs : Nat → Text → Prop
  | 0, _ => True
  | n + 1, text => vcBlockRe.find text ≠ none ∧
      Absorbs n ((vcBlockRe.removeFirst text).dropWhile isPySpace)

instance decidableAbsorbs : (n : Nat) → (text : Text) → Decidable (Absorbs n text)
  | 0, _ => .isTrue trivial
  | n + 1, text =>
      have := decidableAbsorbs n ((vcBlockRe.removeFirst text).dropWhile isPySpace)
      inferInstanceAs (Decidable (_ ∧ _))

def joinedBlocks (texts : List Text) : Text :=
  texts.flatMap fun text => "\n\n".toList ++ contextBlock text

/-- An injection after another one, into a text with a block to lose. -/
theorem injectIntoText_of_find {before solid : Text} (hsolid : Solid solid)
    (hfind : vcBlockRe.find before ≠ none) (text : Text) :
    injectIntoText (before ++ solid) text =
      (vcBlockRe.removeFirst before).dropWhile isPySpace ++
        (solid ++ "\n\n".toList ++ contextBlock text) := by
  have hclean : ¬ vcBlockRe.Clean before := fun h =>
    hfind (Matcher.find_eq_none_iff.mpr h)
  have hremoved : cleanBlock (before ++ solid) =
      (vcBlockRe.removeFirst before).dropWhile isPySpace ++ solid := by
    rw [cleanBlock, vcBlockRe_settled.removeFirst_append hclean, hsolid.strip]
  have hne : cleanBlock (before ++ solid) ≠ [] := by
    obtain ⟨c, rest, hhead, -⟩ := hsolid.head
    rw [hremoved, hhead]
    simp
  simp only [injectIntoText, if_neg hne]
  rw [hremoved]
  simp only [List.append_assoc]

/-- All context stays in a text with blocks enough of its own. -/
theorem foldl_injectIntoText {before solid : Text} {texts : List Text}
    (hsolid : Solid solid) (h : Absorbs texts.length before) :
    ∃ front, texts.foldl injectIntoText (before ++ solid) =
      front ++ solid ++ joinedBlocks texts := by
  induction texts generalizing before solid with
  | nil => exact ⟨before, by simp [joinedBlocks]⟩
  | cons text texts ih =>
      obtain ⟨hfind, hrest⟩ := h
      have hmore := hsolid.append (contextBlock_solid text) "\n\n".toList
      obtain ⟨front, hfold⟩ := ih hmore hrest
      refine ⟨front, ?_⟩
      rw [List.foldl_cons, injectIntoText_of_find hsolid hfind, hfold]
      simp [joinedBlocks]

/-! ## Context that is taken out -/

theorem closing_spec {found : Unit} {back : Text} (h : closingRe.Word found back) :
    (∃ front, back = front ++ ['>']) ∧ '/' ∈ back ∧
      ∀ rest ∈ back.tails, rest.head? = some '<' → '/' ∈ rest := by
  have hwords : ∀ word ∈ ["\n</virtual-context>".toList, "\n</system-reminder>".toList],
      word = word.dropLast ++ ['>'] ∧ '/' ∈ word ∧
        ∀ rest ∈ word.tails, rest.head? = some '<' → '/' ∈ rest := by
    decide
  obtain ⟨hlast, hslash, htails⟩ := hwords back h
  exact ⟨⟨_, hlast⟩, hslash, htails⟩

theorem block_last {found : Unit} {word : Text} (h : vcBlockRe.Word found word) :
    ∃ front, word = front ++ ['>'] := by
  obtain ⟨front, before, back, _, _, -, hback, -, rfl⟩ := h
  obtain ⟨⟨rest, rfl⟩, -, -⟩ := closing_spec hback
  exact ⟨front ++ before ++ rest, by simp⟩

/-- Text that no block can end in. -/
theorem clean_append_of_noSlash {text more : Text} (htext : vcBlockRe.Clean text)
    (hhead : more.head? = some '<') (hslash : '/' ∉ more) :
    vcBlockRe.Clean (text ++ more) := by
  rintro before found word rest hsplit hword
  have hblock := hword
  obtain ⟨front, inner, back, _, _, -, hback, -, rfl⟩ := hblock
  obtain ⟨-, hbackSlash, htails⟩ := closing_spec hback
  have hnot : ∀ after, text ≠ before ++ (front ++ inner ++ back) ++ after :=
    fun after heq => htext before found _ after heq hword
  rcases List.append_eq_append_iff.mp hsplit with
    ⟨piece, hpiece, hmore⟩ | ⟨after, hafter, -⟩
  · have hpiece' : (before ++ front ++ inner) ++ back = text ++ piece := by
      rw [← hpiece]
      simp
    rcases List.append_eq_append_iff.mp hpiece' with
      ⟨cut, hcut, hbackEq⟩ | ⟨cut, hcut, hpieceEq⟩
    · cases piece with
      | nil => exact hnot [] (by simp [hcut, hbackEq])
      | cons c piece =>
          rw [hmore, List.cons_append, List.head?_cons, Option.some.injEq] at hhead
          have hmem := htails (c :: piece)
            ((List.mem_tails _ _).mpr ⟨cut, hbackEq.symm⟩) (by rw [hhead]; rfl)
          exact hslash (hmore ▸ List.mem_append_left _ hmem)
    · exact hslash (by simp [hmore, hpieceEq, hbackSlash])
  · exact hnot after hafter

/-- A context block starts with a block in the sense of the pattern. -/
theorem contextBlock_word (text : Text) :
    ∃ word rest, vcBlockRe.Word () word ∧ contextBlock text = word ++ rest := by
  have hback : closingRe.Word () blockBack :=
    List.mem_cons_of_mem _ (List.mem_singleton_self _)
  have hfront : openingRe.Word () blockFront :=
    List.mem_cons_of_mem _ (List.mem_singleton_self _)
  obtain ⟨before, found, after, hfind, -⟩ := Matcher.find_prefix hback text []
  rw [List.append_nil] at hfind
  have hread : vcBlockRe.read (contextBlock text) = some ((), after) := by
    have hopen := Matcher.read_word hfront (text ++ blockBack)
    simp only [vcBlockRe, Matcher.between, contextBlock, List.append_assoc, hopen,
      Option.bind_some, hfind, Option.map_some]
  obtain ⟨word, hword, heq⟩ := (vcBlockRe.read_eq_some_iff _ _ _).mp hread
  exact ⟨word, after, hword, heq⟩

def zeros (text : Text) : Nat := text.count '0'

/-- A section whose tag is a row of zeros. -/
def zeroSection (n : Nat) : Text := formatBreadthSection (List.replicate n '0') []

def zeroHead : Text := blockFront ++ tagsFront

def zeroTail : Text := breadthAttribute ++ sectionBack ++ blockBack

theorem contextBlock_zeroSection (n : Nat) :
    contextBlock (zeroSection n) = zeroHead ++ List.replicate n '0' ++ zeroTail := by
  simp only [contextBlock, zeroSection, formatBreadthSection, zeroHead, zeroTail,
    List.append_assoc, List.nil_append]

theorem zeroHead_spec : zeroHead.head? = some '<' ∧ '/' ∉ zeroHead := by
  decide

theorem zeros_append (text more : Text) : zeros (text ++ more) = zeros text + zeros more :=
  List.count_append

theorem zeros_le {text more : Text} (h : text.Sublist more) : zeros text ≤ zeros more :=
  h.count_le '0'

/-- Without a block before it, the section is taken out with all its zeros. -/
theorem zeros_removeFirst_le {before : Text} (hbefore : vcBlockRe.Clean before) (n : Nat)
    (rest : Text) :
    zeros (vcBlockRe.removeFirst (before ++ contextBlock (zeroSection n) ++ rest)) ≤
      zeros before + zeros rest := by
  obtain ⟨word0, rest0, hword0, hblock⟩ := contextBlock_word (zeroSection n)
  obtain ⟨front, found, after, hfind, left, hleft⟩ :=
    Matcher.find_prefix hword0 before (rest0 ++ rest)
  have htext : before ++ word0 ++ (rest0 ++ rest) =
      before ++ contextBlock (zeroSection n) ++ rest := by
    simp only [hblock, List.append_assoc]
  rw [htext] at hfind
  obtain ⟨word, hword, hsplit⟩ := Matcher.find_eq_some hfind
  have hclean := clean_append_of_noSlash hbefore zeroHead_spec.1 zeroHead_spec.2
  have hinside : ∀ tail, left ++ zeroHead ≠ word ++ tail := by
    intro tail heq
    refine hclean front found word tail ?_ hword
    rw [← hleft, List.append_assoc, heq, List.append_assoc]
  -- The word ends behind the zeros: it has no end in them or before them.
  have hcover : (left ++ zeroHead ++ List.replicate n '0') ++ (zeroTail ++ rest) =
      word ++ after := by
    rw [contextBlock_zeroSection, ← hleft] at hsplit
    simpa only [List.append_assoc, List.append_cancel_left_eq] using hsplit
  have hafter : after <:+ zeroTail ++ rest := by
    rcases List.append_eq_append_iff.mp hcover with
      ⟨piece, -, htail⟩ | ⟨piece, hpiece, htail⟩
    · exact ⟨piece, htail.symm⟩
    · rcases List.append_eq_append_iff.mp hpiece with
        ⟨row, hrow, hzeros⟩ | ⟨row, hrow, -⟩
      · cases hlast : row.getLast? with
        | none =>
            rw [List.getLast?_eq_none_iff] at hlast
            exact absurd (by simp [hrow, hlast]) (hinside [])
        | some c =>
            obtain ⟨ends, hends⟩ := block_last hword
            have hc : c = '>' := by
              have hget : word.getLast? = some c := by
                rw [hrow, List.getLast?_append, hlast]
                rfl
              rw [hends, List.getLast?_concat] at hget
              exact (Option.some.inj hget).symm
            have hmem : c ∈ List.replicate n '0' := by
              rw [hzeros]
              exact List.mem_append_left _ (List.mem_of_getLast? hlast)
            rw [List.eq_of_mem_replicate hmem] at hc
            cases hc
      · exact absurd hrow (hinside row)
  have htailZeros : zeros zeroTail = 0 := by decide
  have hafterZeros := zeros_le hafter.sublist
  rw [zeros_append, htailZeros, Nat.zero_add] at hafterZeros
  have hfrontZeros : zeros front ≤ zeros before :=
    zeros_le (List.IsPrefix.sublist ⟨left, hleft⟩)
  rw [Matcher.removeFirst, hfind]
  simp only [zeros_append]
  exact Nat.add_le_add hfrontZeros hafterZeros

theorem removeFirst_sublist (text : Text) :
    (vcBlockRe.removeFirst text).Sublist text := by
  rw [Matcher.removeFirst]
  cases hfind : vcBlockRe.find text with
  | none => exact List.Sublist.refl text
  | some result =>
      obtain ⟨before, found, after⟩ := result
      obtain ⟨word, -, rfl⟩ := Matcher.find_eq_some hfind
      exact (List.sublist_append_left before word).append_right after

theorem pyStripChars_sublist (text : Text) : (pyStripChars text).Sublist text := by
  have htrim : ∀ list : Text, (list.dropWhile isPySpace).Sublist list :=
    fun list => List.dropWhile_sublist _
  have hfront := (htrim (text.dropWhile isPySpace).reverse).reverse
  rw [List.reverse_reverse] at hfront
  exact hfront.trans (htrim text)

theorem zeros_cleanBlock_le (text : Text) : zeros (cleanBlock text) ≤ zeros text :=
  zeros_le ((pyStripChars_sublist _).trans (removeFirst_sublist text))

theorem zeros_contextBlock (text : Text) : zeros (contextBlock text) = zeros text := by
  have hfront : zeros blockFront = 0 := by decide
  have hback : zeros blockBack = 0 := by decide
  rw [contextBlock, zeros_append, zeros_append, hfront, hback]
  omega

theorem zeros_injectIntoText_le (content text : Text) :
    zeros (injectIntoText content text) ≤ zeros (cleanBlock content) + zeros text := by
  have hgap : zeros "\n\n".toList = 0 := by decide
  rw [injectIntoText]
  split
  · rw [zeros_contextBlock]
    omega
  · rw [zeros_append, zeros_append, zeros_contextBlock, hgap]
    omega

def zerosOf (texts : List Text) : Nat := (texts.map zeros).sum

@[simp] theorem zerosOf_nil : zerosOf [] = 0 := rfl

@[simp] theorem zerosOf_cons (text : Text) (texts : List Text) :
    zerosOf (text :: texts) = zeros text + zerosOf texts := by
  simp [zerosOf]

@[simp] theorem zerosOf_append (texts more : List Text) :
    zerosOf (texts ++ more) = zerosOf texts + zerosOf more := by
  simp [zerosOf]

theorem zeros_foldl_injectIntoText_le (content : Text) (texts : List Text) :
    zeros (texts.foldl injectIntoText content) ≤ zeros content + zerosOf texts := by
  induction texts generalizing content with
  | nil => simp
  | cons text texts ih =>
      have hclean := zeros_cleanBlock_le content
      have hinject := zeros_injectIntoText_le content text
      have hrest := ih (injectIntoText content text)
      rw [List.foldl_cons, zerosOf_cons]
      omega

/-- The section is lost once the text before it has no block left. -/
theorem zeros_lost_le {before after : Text} {n : Nat} {texts : List Text}
    (hsolid : Solid (contextBlock (zeroSection n) ++ after))
    (h : ¬ Absorbs texts.length before) :
    zeros (texts.foldl injectIntoText
      (before ++ (contextBlock (zeroSection n) ++ after))) ≤
        zeros before + zeros after + zerosOf texts := by
  induction texts generalizing before after with
  | nil => exact absurd trivial h
  | cons text texts ih =>
      rw [List.foldl_cons, zerosOf_cons]
      by_cases hfind : vcBlockRe.find before = none
      · have hclean := Matcher.find_eq_none_iff.mp hfind
        have hremoved := zeros_removeFirst_le hclean n after
        rw [List.append_assoc] at hremoved
        have hstrip := zeros_le (pyStripChars_sublist
          (vcBlockRe.removeFirst (before ++ (contextBlock (zeroSection n) ++ after))))
        have hinject := zeros_injectIntoText_le
          (before ++ (contextBlock (zeroSection n) ++ after)) text
        rw [cleanBlock] at hinject
        have hrest := zeros_foldl_injectIntoText_le
          (injectIntoText (before ++ (contextBlock (zeroSection n) ++ after)) text) texts
        omega
      · have hrest : ¬ Absorbs texts.length
            ((vcBlockRe.removeFirst before).dropWhile isPySpace) :=
          fun habsorbs => h ⟨hfind, habsorbs⟩
        have hmore := hsolid.append (contextBlock_solid text) "\n\n".toList
        have hmore' : Solid (contextBlock (zeroSection n) ++
            (after ++ "\n\n".toList ++ contextBlock text)) := by
          simpa only [List.append_assoc] using hmore
        have hstep := ih hmore' hrest
        have hfront : zeros ((vcBlockRe.removeFirst before).dropWhile isPySpace) ≤
            zeros before :=
          zeros_le ((List.dropWhile_sublist _).trans (removeFirst_sublist before))
        have hgap : zeros "\n\n".toList = 0 := by decide
        rw [injectIntoText_of_find hsolid hfind]
        rw [zeros_append, zeros_append, zeros_contextBlock, hgap] at hstep
        simp only [List.append_assoc] at hstep ⊢
        omega

theorem zeros_le_zerosOf {text : Text} {texts : List Text} (h : text ∈ texts) :
    zeros text ≤ zerosOf texts := by
  induction texts with
  | nil => cases h
  | cons first texts ih =>
      rw [zerosOf_cons]
      rcases List.mem_cons.mp h with rfl | hmem
      · omega
      · have := ih hmem
        omega

/-- A section of so many zeros does not stand in texts of fewer. -/
theorem not_infix_of_zeros {texts : List Text} {n : Nat} (h : zerosOf texts < n) :
    ¬ ∃ whole ∈ texts, zeroSection n <:+: whole := by
  rintro ⟨whole, hwhole, hinfix⟩
  have hle := zeros_le hinfix.sublist
  have hsum := zeros_le_zerosOf hwhole
  have hcount : n ≤ zeros (zeroSection n) := by
    simp only [zeroSection, formatBreadthSection, zeros_append]
    have : zeros (List.replicate n '0') = n := by simp [zeros]
    omega
  omega

end VirtualContext
