import Mathlib.Data.List.Basic
import Mathlib.Data.List.Infix

/-!
# Matching words in texts

A matcher reads a word of its language off the front of a text.  A search finds
the leftmost word, and a substitution takes the first word or all words out.
-/

namespace VirtualContext.Library

/--
A language of nonempty words of which at most one is read off the front of a
text, with what the word captures.
-/
structure Matcher (α β : Type*) where
  Word : β → List α → Prop
  read : List α → Option (β × List α)
  read_eq_some_iff : ∀ text found rest, read text = some (found, rest) ↔
    ∃ word, Word found word ∧ text = word ++ rest
  ne_nil : ∀ found word, Word found word → word ≠ []

namespace Matcher

variable {α β : Type*} (m : Matcher α β)

/-! ## Searching -/

/-- The leftmost word, with the texts before and after it. -/
def find : List α → Option (List α × β × List α)
  | [] => none
  | c :: text =>
      match m.read (c :: text) with
      | some (found, rest) => some ([], found, rest)
      | none => (find text).map fun (before, found, rest) =>
          (c :: before, found, rest)

def search (text : List α) : Option β :=
  (m.find text).map fun (_, found, _) => found

/-- No word stands anywhere in the text. -/
def Clean (text : List α) : Prop :=
  ∀ before found word rest, text = before ++ word ++ rest → ¬ m.Word found word

variable {m}

theorem read_word {found : β} {word : List α} (h : m.Word found word)
    (rest : List α) : m.read (word ++ rest) = some (found, rest) :=
  (m.read_eq_some_iff _ _ _).mpr ⟨word, h, rfl⟩

@[simp] theorem find_nil : m.find [] = none := rfl

theorem find_cons_of_some {c : α} {text rest : List α} {found : β}
    (h : m.read (c :: text) = some (found, rest)) :
    m.find (c :: text) = some ([], found, rest) := by
  simp [find, h]

theorem find_cons_of_none {c : α} {text : List α}
    (h : m.read (c :: text) = none) :
    m.find (c :: text) = (m.find text).map fun (before, found, rest) =>
      (c :: before, found, rest) := by
  simp [find, h]

/-- A word at the front is the leftmost one. -/
theorem find_word {found : β} {word : List α} (h : m.Word found word)
    (rest : List α) : m.find (word ++ rest) = some ([], found, rest) := by
  have hread := read_word h rest
  cases word with
  | nil => exact absurd rfl (m.ne_nil found [] h)
  | cons c word => exact find_cons_of_some hread

theorem find_eq_some {text before rest : List α} {found : β}
    (h : m.find text = some (before, found, rest)) :
    ∃ word, m.Word found word ∧ text = before ++ word ++ rest := by
  induction text generalizing before with
  | nil => simp at h
  | cons c text ih =>
      cases hread : m.read (c :: text) with
      | some result =>
          obtain ⟨found', rest'⟩ := result
          rw [find_cons_of_some hread] at h
          cases h
          obtain ⟨word, hword, htext⟩ := (m.read_eq_some_iff _ _ _).mp hread
          exact ⟨word, hword, by simpa using htext⟩
      | none =>
          rw [find_cons_of_none hread] at h
          obtain ⟨⟨before', found', rest'⟩, hfind, heq⟩ :=
            Option.map_eq_some_iff.mp h
          cases heq
          obtain ⟨word, hword, htext⟩ := ih hfind
          exact ⟨word, hword, by simp [htext]⟩

/-! ## Texts without words -/

theorem Clean.left {text rest : List α} (h : m.Clean (text ++ rest)) :
    m.Clean text := by
  intro before found word after htext
  refine h before found word (after ++ rest) ?_
  simp [htext]

theorem Clean.right {before text : List α} (h : m.Clean (before ++ text)) :
    m.Clean text := by
  intro front found word after htext
  refine h (before ++ front) found word after ?_
  simp [htext]

theorem Clean.of_prefix {text front : List α} (h : m.Clean text)
    (hfront : front <+: text) : m.Clean front := by
  obtain ⟨rest, rfl⟩ := hfront
  exact h.left

theorem clean_cons_iff {c : α} {text : List α} :
    m.Clean (c :: text) ↔ m.read (c :: text) = none ∧ m.Clean text := by
  refine ⟨fun h => ⟨?_, Clean.right (show m.Clean ([c] ++ text) from h)⟩,
    fun ⟨hread, h⟩ => ?_⟩
  · rw [Option.eq_none_iff_forall_ne_some]
    rintro ⟨found, rest⟩ hread
    obtain ⟨word, hword, htext⟩ := (m.read_eq_some_iff _ _ _).mp hread
    exact h [] found word rest (by simpa using htext) hword
  · intro before found word rest htext hword
    cases before with
    | nil =>
        rw [List.nil_append] at htext
        rw [htext, read_word hword] at hread
        cases hread
    | cons d before =>
        injection htext with _ htext
        exact h before found word rest htext hword

theorem find_eq_none_iff {text : List α} : m.find text = none ↔ m.Clean text := by
  induction text with
  | nil =>
      refine ⟨fun _ => ?_, fun _ => rfl⟩
      intro before found word rest htext hword
      have : word = [] := by
        simp only [List.nil_eq, List.append_eq_nil_iff] at htext
        exact htext.1.2
      exact m.ne_nil found word hword this
  | cons c text ih =>
      rw [clean_cons_iff, ← ih]
      cases hread : m.read (c :: text) with
      | some result =>
          obtain ⟨found, rest⟩ := result
          simp [find_cons_of_some hread]
      | none => simp [find_cons_of_none hread]

theorem search_eq_none_iff {text : List α} :
    m.search text = none ↔ m.Clean text := by
  rw [← find_eq_none_iff, search, Option.map_eq_none_iff]

/-- No word stands before the leftmost one. -/
theorem Clean.of_find {text before rest : List α} {found : β}
    (h : m.find text = some (before, found, rest)) : m.Clean before := by
  induction text generalizing before with
  | nil => simp at h
  | cons c text ih =>
      cases hread : m.read (c :: text) with
      | some result =>
          obtain ⟨found', rest'⟩ := result
          rw [find_cons_of_some hread] at h
          cases h
          exact find_eq_none_iff.mp find_nil
      | none =>
          have hcons := h
          rw [find_cons_of_none hread] at h
          obtain ⟨⟨before', found', rest'⟩, hfind, heq⟩ :=
            Option.map_eq_some_iff.mp h
          cases heq
          obtain ⟨word, -, htext⟩ := find_eq_some hcons
          refine clean_cons_iff.mpr ⟨?_, ih hfind⟩
          rw [Option.eq_none_iff_forall_ne_some]
          rintro ⟨found', after⟩ hafter
          obtain ⟨word', hword', heq⟩ := (m.read_eq_some_iff _ _ _).mp hafter
          have hfull := read_word hword' (after ++ word ++ rest)
          rw [← List.append_assoc, ← List.append_assoc, ← heq, ← htext, hread]
            at hfull
          cases hfull

/-! ## Separators -/

variable (m) in
/-- No word contains the symbol. -/
def Avoids (c : α) : Prop := ∀ found word, m.Word found word → c ∉ word

variable {c : α}

/-- What stands before a separator is read as if the text ended there. -/
theorem read_append_cons (h : m.Avoids c) (text rest : List α) :
    m.read (text ++ c :: rest) =
      (m.read text).map fun (found, after) => (found, after ++ c :: rest) := by
  cases hread : m.read text with
  | some result =>
      obtain ⟨found, after⟩ := result
      obtain ⟨word, hword, rfl⟩ := (m.read_eq_some_iff _ _ _).mp hread
      rw [List.append_assoc]
      exact read_word hword _
  | none =>
      rw [Option.map_none, Option.eq_none_iff_forall_ne_some]
      rintro ⟨found, after⟩ hsome
      obtain ⟨word, hword, heq⟩ := (m.read_eq_some_iff _ _ _).mp hsome
      have hclean : ¬ ∃ back, text = word ++ back := by
        rintro ⟨back, htext⟩
        rw [htext, read_word hword] at hread
        cases hread
      rcases List.append_eq_append_iff.mp heq with
        ⟨front, hfront, hrest⟩ | ⟨back, htext, -⟩
      · cases front with
        | nil => exact hclean ⟨[], by simpa using hfront.symm⟩
        | cons d front =>
            injection hrest with hd
            exact h found word hword (by simp [hfront, hd])
      · exact hclean ⟨back, htext⟩

theorem read_separator (h : m.Avoids c) (rest : List α) :
    m.read (c :: rest) = none := by
  have hnil : m.read [] = none := by
    rw [Option.eq_none_iff_forall_ne_some]
    rintro ⟨found, after⟩ hsome
    obtain ⟨word, hword, heq⟩ := (m.read_eq_some_iff _ _ _).mp hsome
    exact m.ne_nil found word hword (List.append_eq_nil_iff.mp heq.symm).1
  simpa [hnil] using read_append_cons h [] rest

theorem find_append_cons (h : m.Avoids c) (text rest : List α) :
    m.find (text ++ c :: rest) =
      match m.find text with
      | some (before, found, after) => some (before, found, after ++ c :: rest)
      | none => (m.find rest).map fun (before, found, after) =>
          (text ++ c :: before, found, after) := by
  induction text with
  | nil => exact find_cons_of_none (read_separator h rest)
  | cons d text ih =>
      have hread := read_append_cons h (d :: text) rest
      rw [List.cons_append] at hread ⊢
      cases hfront : m.read (d :: text) with
      | some result =>
          obtain ⟨found, after⟩ := result
          rw [hfront] at hread
          rw [find_cons_of_some hread, find_cons_of_some hfront]
      | none =>
          rw [hfront] at hread
          rw [find_cons_of_none hread, find_cons_of_none hfront, ih]
          cases m.find text <;> simp [Function.comp_def]

/-- The leftmost word stands before a separator unless no word does. -/
theorem search_append_cons (h : m.Avoids c) (text rest : List α) :
    m.search (text ++ c :: rest) = (m.search text).or (m.search rest) := by
  rw [search, find_append_cons h, search, search]
  cases m.find text <;> simp [Function.comp_def]

theorem Clean.append_cons (h : m.Avoids c) {text rest : List α}
    (htext : m.Clean text) (hrest : m.Clean rest) :
    m.Clean (text ++ c :: rest) := by
  rw [← search_eq_none_iff] at htext hrest ⊢
  rw [search_append_cons h, htext, hrest]
  rfl

/-! ## Taking words out -/

variable (m) in
/-- Takes the leftmost word out. -/
def removeFirst (text : List α) : List α :=
  match m.find text with
  | some (before, _, rest) => before ++ rest
  | none => text

variable (m) in
/-- Takes words out from left to right, after as many symbols of a word. -/
def removeFrom : Nat → List α → List α
  | _, [] => []
  | skip + 1, _ :: text => removeFrom skip text
  | 0, c :: text =>
      match m.read (c :: text) with
      | some (_, rest) => removeFrom (text.length - rest.length) text
      | none => c :: removeFrom 0 text

variable (m) in
def removeAll (text : List α) : List α := m.removeFrom 0 text

theorem removeFrom_eq_drop (skip : Nat) (text : List α) :
    m.removeFrom skip text = m.removeAll (text.drop skip) := by
  induction skip generalizing text with
  | zero => rfl
  | succ skip ih =>
      cases text with
      | nil => rfl
      | cons c text => exact ih text

theorem removeAll_word {found : β} {word : List α} (h : m.Word found word)
    (rest : List α) : m.removeAll (word ++ rest) = m.removeAll rest := by
  have hread := read_word h rest
  cases word with
  | nil => exact absurd rfl (m.ne_nil found [] h)
  | cons c word =>
      rw [List.cons_append] at hread ⊢
      rw [removeAll, removeFrom, hread]
      simp only [List.length_append, Nat.add_sub_cancel]
      rw [removeFrom_eq_drop, List.drop_left]

theorem removeAll_cons {text : List α} (h : m.read (c :: text) = none) :
    m.removeAll (c :: text) = c :: m.removeAll text := by
  rw [removeAll, removeFrom, h]
  rfl

theorem removeAll_of_find {text before rest : List α} {found : β}
    (h : m.find text = some (before, found, rest)) :
    m.removeAll text = before ++ m.removeAll rest := by
  induction text generalizing before with
  | nil => simp at h
  | cons c text ih =>
      cases hread : m.read (c :: text) with
      | some result =>
          obtain ⟨found', rest'⟩ := result
          obtain ⟨word, hword, htext⟩ := (m.read_eq_some_iff _ _ _).mp hread
          rw [find_cons_of_some hread] at h
          cases h
          rw [htext, removeAll_word hword]
          rfl
      | none =>
          rw [find_cons_of_none hread] at h
          obtain ⟨⟨before', found', rest'⟩, hfind, heq⟩ :=
            Option.map_eq_some_iff.mp h
          cases heq
          rw [removeAll_cons hread, ih hfind]
          rfl

theorem removeAll_of_clean {text : List α} (h : m.Clean text) :
    m.removeAll text = text := by
  induction text with
  | nil => rfl
  | cons c text ih =>
      obtain ⟨hread, hclean⟩ := clean_cons_iff.mp h
      rw [removeAll_cons hread, ih hclean]

/-! ## The pieces of a text -/

variable (m) in
/-- The pieces that the words of a text leave, in order. -/
inductive Splits : List α → List (List α) → Prop
  | last {text : List α} : m.Clean text → Splits text [text]
  | cut {text before rest : List α} {found : β} {pieces : List (List α)} :
      m.find text = some (before, found, rest) → Splits rest pieces →
      Splits text (before :: pieces)

variable (m) in
theorem splits_exists (text : List α) : ∃ pieces, m.Splits text pieces := by
  induction hlength : text.length using Nat.strong_induction_on
    generalizing text with
  | _ length ih =>
      cases hfind : m.find text with
      | none => exact ⟨[text], .last (find_eq_none_iff.mp hfind)⟩
      | some result =>
          obtain ⟨before, found, rest⟩ := result
          obtain ⟨word, hword, htext⟩ := find_eq_some hfind
          have hpos := List.length_pos_iff.mpr (m.ne_nil found word hword)
          have hshort : rest.length < length := by
            rw [← hlength, htext, List.length_append, List.length_append]
            omega
          obtain ⟨pieces, hpieces⟩ := ih _ hshort rest rfl
          exact ⟨before :: pieces, .cut hfind hpieces⟩

theorem Splits.clean {text : List α} {pieces : List (List α)}
    (h : m.Splits text pieces) : ∀ piece ∈ pieces, m.Clean piece := by
  induction h with
  | last hclean => simpa using hclean
  | cut hfind _ ih => simpa using ⟨Clean.of_find hfind, ih⟩

theorem Splits.removeAll {text : List α} {pieces : List (List α)}
    (h : m.Splits text pieces) : m.removeAll text = pieces.flatten := by
  induction h with
  | last hclean => simpa using removeAll_of_clean hclean
  | cut hfind _ ih => rw [removeAll_of_find hfind, ih, List.flatten_cons]

variable (m) in
/-- Every word stands at the front or right after the symbol. -/
def Follows (c : α) (text : List α) : Prop :=
  ∀ before found word rest, text = before ++ word ++ rest →
    m.Word found word → before = [] ∨ before.getLast? = some c

theorem Follows.right {before word rest : List α}
    (h : m.Follows c (before ++ word ++ rest)) : m.Follows c rest := by
  intro front found' word' after hrest hword'
  rcases h (before ++ word ++ front) found' word' after
    (by simp [hrest]) hword' with hnil | hlast
  · exact .inl (List.append_eq_nil_iff.mp hnil).2
  · rw [List.getLast?_append] at hlast
    cases hfront : front.getLast? with
    | some d =>
        rw [hfront] at hlast
        exact .inr (by simpa using hlast)
    | none => exact .inl (List.getLast?_eq_none_iff.mp hfront)

/-- No new word is joined where the words follow a separator. -/
theorem Splits.clean_flatten (h : m.Avoids c) {text : List α}
    {pieces : List (List α)} (hsplits : m.Splits text pieces)
    (hfollows : m.Follows c text) : m.Clean pieces.flatten := by
  induction hsplits with
  | last hclean => simpa using hclean
  | @cut text before rest found pieces hfind _ ih =>
      obtain ⟨word, hword, rfl⟩ := find_eq_some hfind
      have hrest := ih hfollows.right
      rcases hfollows before found word rest rfl hword with rfl | hlast
      · simpa using hrest
      · obtain ⟨front, rfl⟩ := List.getLast?_eq_some_iff.mp hlast
        have hfront : m.Clean front := (Clean.of_find hfind).left
        simpa using hfront.append_cons h hrest

/-- Nothing is left of the words if they follow a separator. -/
theorem clean_removeAll (h : m.Avoids c) {text : List α}
    (hfollows : m.Follows c text) : m.Clean (m.removeAll text) := by
  obtain ⟨pieces, hpieces⟩ := m.splits_exists text
  rw [hpieces.removeAll]
  exact hpieces.clean_flatten h hfollows

/-! ## Matchers that do not look beyond a word -/

/-- The leftmost word starts no later than any other. -/
theorem find_prefix {found : β} {word : List α} (hword : m.Word found word)
    (xs rest : List α) :
    ∃ before found' after, m.find (xs ++ word ++ rest) = some (before, found', after) ∧
      before <+: xs := by
  induction xs with
  | nil => exact ⟨[], found, rest, find_word hword rest, List.prefix_refl _⟩
  | cons c xs ih =>
      rw [List.cons_append, List.cons_append]
      cases hread : m.read (c :: (xs ++ word ++ rest)) with
      | some result =>
          obtain ⟨found', after⟩ := result
          exact ⟨[], found', after, find_cons_of_some hread, List.nil_prefix⟩
      | none =>
          obtain ⟨before, found', after, hfind, hprefix⟩ := ih
          refine ⟨c :: before, found', after, ?_, List.cons_prefix_cons.mpr ⟨rfl, hprefix⟩⟩
          rw [find_cons_of_none hread, hfind]
          rfl

variable (m) in
/-- What is read from a place before a word does not depend on what follows it. -/
def Settled : Prop :=
  ∀ found word, m.Word found word → ∀ xs rest,
    m.read (xs ++ word ++ rest) =
      (m.read (xs ++ word)).map fun (found, after) => (found, after ++ rest)

theorem Settled.find (h : m.Settled) {found : β} {word : List α}
    (hword : m.Word found word) (xs rest : List α) :
    m.find (xs ++ word ++ rest) =
      (m.find (xs ++ word)).map fun (before, found, after) =>
        (before, found, after ++ rest) := by
  induction xs with
  | nil =>
      have hfind := find_word hword []
      rw [List.append_nil] at hfind
      rw [List.nil_append, find_word hword rest, hfind]
      rfl
  | cons c xs ih =>
      have hread := h found word hword (c :: xs) rest
      simp only [List.cons_append] at hread ⊢
      cases hfront : m.read (c :: (xs ++ word)) with
      | some result =>
          obtain ⟨found', after⟩ := result
          rw [hfront] at hread
          rw [find_cons_of_some hread, find_cons_of_some hfront]
          rfl
      | none =>
          rw [hfront] at hread
          rw [find_cons_of_none hread, find_cons_of_none hfront, ih]
          simp [Function.comp_def]

/-- The leftmost word stays where it is when the text goes on. -/
theorem Settled.find_append (h : m.Settled) {text before after : List α} {found : β}
    (hfind : m.find text = some (before, found, after)) (rest : List α) :
    m.find (text ++ rest) = some (before, found, after ++ rest) := by
  obtain ⟨word, hword, rfl⟩ := find_eq_some hfind
  have hlonger := h.find hword before (after ++ rest)
  have hshort := h.find hword before after
  rw [hfind] at hshort
  obtain ⟨⟨before', found', after'⟩, hend, heq⟩ :=
    Option.map_eq_some_iff.mp hshort.symm
  simp only [Prod.mk.injEq, List.append_left_eq_self] at heq
  obtain ⟨rfl, rfl, rfl⟩ := heq
  rw [List.append_assoc, hlonger, hend]
  rfl

theorem Settled.removeFirst_append (h : m.Settled) {text : List α}
    (htext : ¬ m.Clean text) (rest : List α) :
    m.removeFirst (text ++ rest) = m.removeFirst text ++ rest := by
  cases hfind : m.find text with
  | none => exact absurd (find_eq_none_iff.mp hfind) htext
  | some result =>
      obtain ⟨before, found, after⟩ := result
      rw [Matcher.removeFirst, Matcher.removeFirst, h.find_append hfind rest, hfind]
      simp

/-! ## Fixed words -/

/-- Reads one of some words of the same length. -/
def fixed [DecidableEq α] (length : Nat) (words : List (List α))
    (hlength : ∀ word ∈ words, word.length = length) (hpos : 0 < length) :
    Matcher α Unit where
  Word _ word := word ∈ words
  read text := if text.take length ∈ words then some ((), text.drop length) else none
  read_eq_some_iff text found rest := by
    constructor
    · intro h
      split at h
      · rename_i hmem
        cases h
        exact ⟨_, hmem, (List.take_append_drop length text).symm⟩
      · cases h
    · rintro ⟨word, hmem, rfl⟩
      rw [List.take_left' (hlength word hmem), List.drop_left' (hlength word hmem),
        if_pos hmem]
  ne_nil _ word hmem hnil := by
    have := hlength word hmem
    rw [hnil, List.length_nil] at this
    omega

theorem fixed_settled [DecidableEq α] {length : Nat} {words : List (List α)}
    {hlength : ∀ word ∈ words, word.length = length} {hpos : 0 < length} :
    (fixed length words hlength hpos).Settled := by
  intro found word hmem xs rest
  have hle : length ≤ (xs ++ word).length := by
    rw [List.length_append, hlength word hmem]
    omega
  simp only [fixed, List.take_append_of_le_length hle, List.drop_append_of_le_length hle]
  split <;> rfl

/-! ## Words between an opening and a closing one -/

/-- Reads an opening word and everything through the first closing word. -/
def between (opening closing : Matcher α β) (hsettled : closing.Settled) :
    Matcher α Unit where
  Word _ word := ∃ (front before back : List α) (found found' : β),
    opening.Word found front ∧ closing.Word found' back ∧
      closing.find (before ++ back) = some (before, found', []) ∧
      word = front ++ before ++ back
  read text := (opening.read text).bind fun (_, rest) =>
    (closing.find rest).map fun (_, _, after) => ((), after)
  read_eq_some_iff text found rest := by
    constructor
    · intro h
      obtain ⟨⟨first, inner⟩, hopen, h⟩ := Option.bind_eq_some_iff.mp h
      obtain ⟨⟨before, last, after⟩, hfind, h⟩ := Option.map_eq_some_iff.mp h
      cases h
      obtain ⟨front, hfront, rfl⟩ := (opening.read_eq_some_iff _ _ _).mp hopen
      obtain ⟨back, hback, rfl⟩ := find_eq_some hfind
      have hend := hsettled.find hback before rest
      rw [hfind] at hend
      obtain ⟨⟨before', last', after'⟩, hshort, heq⟩ :=
        Option.map_eq_some_iff.mp hend.symm
      simp only [Prod.mk.injEq, List.append_left_eq_self] at heq
      obtain ⟨rfl, rfl, rfl⟩ := heq
      exact ⟨_, ⟨front, before', back, first, last', hfront, hback, hshort, rfl⟩,
        by simp⟩
    · rintro ⟨word, ⟨front, before, back, first, last, hfront, hback, hfind, rfl⟩, rfl⟩
      have hlong := hsettled.find hback before rest
      rw [hfind] at hlong
      rw [List.append_assoc, List.append_assoc, read_word hfront, Option.bind_some]
      simp only [← List.append_assoc, hlong]
      rfl
  ne_nil := by
    rintro found word ⟨front, before, back, first, last, hfront, -, -, rfl⟩ hnil
    simp only [List.append_eq_nil_iff] at hnil
    exact opening.ne_nil first front hfront hnil.1.1

theorem between_settled {opening closing : Matcher α β} {hsettled : closing.Settled}
    (hopening : opening.Settled) : (between opening closing hsettled).Settled := by
  rintro found word ⟨front, before, back, first, last, hfront, hback, hfind, rfl⟩ xs rest
  have hlong := hopening first front hfront xs (before ++ back ++ rest)
  have hshort := hopening first front hfront xs (before ++ back)
  simp only [between]
  rw [show xs ++ (front ++ before ++ back) ++ rest =
      xs ++ front ++ (before ++ back ++ rest) by simp,
    show xs ++ (front ++ before ++ back) = xs ++ front ++ (before ++ back) by simp,
    hlong, hshort]
  cases opening.read (xs ++ front) with
  | none => rfl
  | some result =>
      obtain ⟨first', inner⟩ := result
      have hclose := hsettled.find hback (inner ++ before) rest
      simp only [Option.map_some, Option.bind_some]
      rw [show inner ++ (before ++ back ++ rest) = inner ++ before ++ back ++ rest by simp,
        show inner ++ (before ++ back) = inner ++ before ++ back by simp, hclose]
      simp [Function.comp_def]

/-- Where an opening word and a closing one behind it are found, all between goes with them. -/
theorem between_find {opening closing : Matcher α β} {hsettled : closing.Settled}
    {text before inner front after : List α} {found found' : β}
    (hopen : opening.find text = some (before, found, inner))
    (hclose : closing.find inner = some (front, found', after)) :
    (between opening closing hsettled).find text = some (before, (), after) := by
  induction text generalizing before with
  | nil => simp at hopen
  | cons c text ih =>
      cases hread : opening.read (c :: text) with
      | some result =>
          obtain ⟨first, rest⟩ := result
          rw [find_cons_of_some hread] at hopen
          cases hopen
          refine find_cons_of_some ?_
          simp only [between, hread, Option.bind_some, hclose, Option.map_some]
      | none =>
          rw [find_cons_of_none hread] at hopen
          obtain ⟨⟨before', found', rest'⟩, hfind, heq⟩ := Option.map_eq_some_iff.mp hopen
          cases heq
          have hnone : (between opening closing hsettled).read (c :: text) = none := by
            simp only [between, hread, Option.bind_none]
          rw [find_cons_of_none hnone, ih hfind]
          rfl

/-! ## Words that begin or end with a symbol -/

section

variable {c : α}

variable (m) in
/-- The symbol stands at the front of every word, and nowhere else in it. -/
def BeginsWith (c : α) : Prop :=
  ∀ found word, m.Word found word → ∃ rest, word = c :: rest ∧ c ∉ rest

variable (m) in
/-- The symbol stands at the end of every word, and nowhere else in it. -/
def EndsWith (c : α) : Prop :=
  ∀ found word, m.Word found word → ∃ front, word = front ++ [c] ∧ c ∉ front

theorem BeginsWith.read_append (h : m.BeginsWith c) {text : List α} (hne : text ≠ [])
    (hnone : m.read text = none) (rest : List α) : m.read (text ++ c :: rest) = none := by
  rw [Option.eq_none_iff_forall_ne_some]
  rintro ⟨found, after⟩ hsome
  obtain ⟨word, hword, heq⟩ := (m.read_eq_some_iff _ _ _).mp hsome
  have hclean : ∀ back, text ≠ word ++ back := by
    intro back htext
    rw [htext, read_word hword] at hnone
    cases hnone
  rcases List.append_eq_append_iff.mp heq with ⟨front, hfront, hrest⟩ | ⟨back, htext, -⟩
  · obtain ⟨tail, htail, hnot⟩ := h found word hword
    obtain ⟨d, text, rfl⟩ := List.exists_cons_of_ne_nil hne
    cases front with
    | nil => exact hclean [] (by simpa using hfront.symm)
    | cons e front =>
        injection hrest with hd
        rw [htail, List.cons_append, List.cons.injEq] at hfront
        exact hnot (by simp [hfront.2, hd])
  · exact hclean back htext

/-- Behind a clean text, the search goes on where the symbol stands. -/
theorem BeginsWith.find_append (h : m.BeginsWith c) {text : List α} (hclean : m.Clean text)
    (rest : List α) :
    m.find (text ++ c :: rest) = (m.find (c :: rest)).map fun (before, found, after) =>
      (text ++ before, found, after) := by
  induction text with
  | nil => simp
  | cons d text ih =>
      obtain ⟨hnone, htext⟩ := clean_cons_iff.mp hclean
      have hread := h.read_append (List.cons_ne_nil d text) hnone rest
      rw [List.cons_append] at hread ⊢
      rw [find_cons_of_none hread, ih htext, Option.map_map]
      rfl

theorem EndsWith.read_append (h : m.EndsWith c) {text : List α}
    (hnone : m.read (text ++ [c]) = none) (rest : List α) :
    m.read (text ++ c :: rest) = none := by
  rw [Option.eq_none_iff_forall_ne_some]
  rintro ⟨found, after⟩ hsome
  obtain ⟨word, hword, heq⟩ := (m.read_eq_some_iff _ _ _).mp hsome
  have hclean : ∀ back, text ++ [c] ≠ word ++ back := by
    intro back htext
    rw [htext, read_word hword] at hnone
    cases hnone
  rw [List.append_cons] at heq
  rcases List.append_eq_append_iff.mp heq with ⟨more, hmore, -⟩ | ⟨back, htext, -⟩
  · obtain ⟨front, hfront, hnot⟩ := h found word hword
    rcases List.eq_nil_or_concat more with rfl | ⟨more, d, rfl⟩
    · exact hclean [] (by simpa using hmore.symm)
    · rw [hfront, List.concat_eq_append, ← List.append_assoc] at hmore
      exact hnot (by simp [(List.append_inj' hmore rfl).1])
  · exact hclean back htext

/-- Behind a text that is clean together with the symbol, the search goes on. -/
theorem EndsWith.find_append (h : m.EndsWith c) {text : List α} (hclean : m.Clean (text ++ [c]))
    (rest : List α) :
    m.find (text ++ c :: rest) = (m.find rest).map fun (before, found, after) =>
      (text ++ c :: before, found, after) := by
  induction text with
  | nil =>
      have hread : m.read ([] ++ c :: rest) = none :=
        h.read_append (clean_cons_iff.mp hclean).1 rest
      rw [List.nil_append] at hread ⊢
      rw [find_cons_of_none hread]
      rfl
  | cons d text ih =>
      obtain ⟨hnone, htext⟩ := clean_cons_iff.mp hclean
      have hread : m.read (d :: text ++ c :: rest) = none := h.read_append hnone rest
      rw [List.cons_append] at hread ⊢
      rw [find_cons_of_none hread, ih htext, Option.map_map]
      rfl

end

end Matcher

end VirtualContext.Library
