import VirtualContext.Library.Regex

/-!
# Phrases in a text

A text is a word, maybe empty, and then separators with a word after each.  A phrase
between word boundaries is found where its own words and separators are, and it
is replaced word by word.
-/

namespace VirtualContext.Library

variable {α : Type}

/-! ## Words and separators -/

/-- The first word of a text, and the separators with the words after them. -/
abbrev Spaced (α : Type) := List α × List (α × List α)

namespace Spaced

def words (s : Spaced α) : List (List α) := s.1 :: s.2.map Prod.snd

/-- The text again. -/
def join (s : Spaced α) : List α := s.1 ++ s.2.flatMap fun part => part.1 :: part.2

end Spaced

section

variable (p : α → Bool)

def spaced : List α → Spaced α
  | [] => ([], [])
  | c :: text =>
      if p c then (c :: (spaced text).1, (spaced text).2)
      else ([], (c, (spaced text).1) :: (spaced text).2)

variable {p}

theorem spaced_cons_of_word {c : α} (hc : p c = true) (text : List α) :
    spaced p (c :: text) = (c :: (spaced p text).1, (spaced p text).2) := if_pos hc

theorem spaced_cons_of_not_word {c : α} (hc : p c = false) (text : List α) :
    spaced p (c :: text) = ([], (c, (spaced p text).1) :: (spaced p text).2) :=
  if_neg (by rw [hc]; exact Bool.false_ne_true)

theorem join_spaced (text : List α) : (spaced p text).join = text := by
  induction text with
  | nil => rfl
  | cons c text ih =>
      cases hc : p c with
      | true =>
          rw [spaced_cons_of_word hc]
          exact congrArg (c :: ·) ih
      | false =>
          rw [spaced_cons_of_not_word hc]
          exact congrArg (c :: ·) ih

theorem spaced_injective {text text' : List α} (h : spaced p text = spaced p text') :
    text = text' := by
  rw [← join_spaced (p := p) text, h, join_spaced]

theorem spaced_congr {q : α → Bool} {text : List α} (h : ∀ c ∈ text, p c = q c) :
    spaced p text = spaced q text := by
  induction text with
  | nil => rfl
  | cons c text ih =>
      obtain ⟨hc, htext⟩ := List.forall_mem_cons.mp h
      rw [spaced, spaced, hc, ih htext]

/-- A text that starts with a separator goes on after the words before it. -/
theorem spaced_append {left right : List α} (h : (spaced p right).1 = []) :
    spaced p (left ++ right) =
      ((spaced p left).1, (spaced p left).2 ++ (spaced p right).2) := by
  induction left with
  | nil => exact Prod.ext h rfl
  | cons c left ih =>
      rw [List.cons_append]
      cases hc : p c with
      | true => rw [spaced_cons_of_word hc, spaced_cons_of_word hc, ih]
      | false => rw [spaced_cons_of_not_word hc, spaced_cons_of_not_word hc, ih, List.cons_append]

theorem spaced_fst_eq_nil_iff {text : List α} :
    (spaced p text).1 = [] ↔ text.head?.any p = false := by
  cases text with
  | nil => exact iff_of_true rfl rfl
  | cons c text =>
      cases hc : p c with
      | true =>
          rw [spaced_cons_of_word hc, List.head?_cons, Option.any_some, hc]
          exact iff_of_false (List.cons_ne_nil _ _) nofun
      | false =>
          rw [spaced_cons_of_not_word hc, List.head?_cons, Option.any_some, hc]
          exact iff_of_true rfl rfl

/-- A word and what follows it. -/
theorem spaced_word_append {word rest : List α} (hword : ∀ c ∈ word, p c = true) :
    spaced p (word ++ rest) = (word ++ (spaced p rest).1, (spaced p rest).2) := by
  induction word with
  | nil => rfl
  | cons c word ih =>
      obtain ⟨hc, hword⟩ := List.forall_mem_cons.mp hword
      rw [List.cons_append, spaced_cons_of_word hc, ih hword]
      rfl

theorem spaced_words_of_word {word : List α} (hword : ∀ c ∈ word, p c = true) :
    (spaced p word).words = [word] := by
  have h : spaced p (word ++ []) = (word ++ (spaced p []).1, (spaced p []).2) :=
    spaced_word_append hword
  rw [List.append_nil] at h
  rw [h]
  exact congrArg (· :: []) (List.append_nil word)

theorem spaced_words_word_sep {word rest : List α} {s : α} (hword : ∀ c ∈ word, p c = true)
    (hs : p s = false) :
    (spaced p (word ++ s :: rest)).words = word :: (spaced p rest).words := by
  rw [spaced_word_append hword, spaced_cons_of_not_word hs]
  exact congrArg (· :: (spaced p rest).words) (List.append_nil word)

end

/-! ## Fitting words -/

section

variable (same : α → α → Bool)

/-- The letters are the same, one by one. -/
def spells : List α → List α → Bool
  | [], [] => true
  | a :: u, b :: w => same a b && spells u w
  | _, _ => false

/-- The text begins with the letters. -/
def startsLike : List α → List α → Bool
  | [], _ => true
  | _ :: _, [] => false
  | a :: u, b :: text => same a b && startsLike u text

def fitsParts : List (α × List α) → List (α × List α) → Bool
  | [], _ => true
  | _ :: _, [] => false
  | (s, u) :: parts, (s', w) :: parts' =>
      same s s' && spells same u w && fitsParts parts parts'

/-- The words of a phrase, with its separators, are the first ones of a text. -/
def fits (phrase text : Spaced α) : Bool :=
  spells same phrase.1 text.1 && fitsParts same phrase.2 text.2

variable {same}

theorem spells_nil_right {u : List α} : spells same u [] = true ↔ u = [] := by
  cases u with
  | nil => exact iff_of_true rfl rfl
  | cons a u => exact iff_of_false nofun (List.cons_ne_nil _ _)

theorem spells_unique {u u' w : List α}
    (hunique : ∀ a ∈ u, ∀ b ∈ u', ∀ c, same a c = true → same b c = true → a = b)
    (h : spells same u w = true) (h' : spells same u' w = true) : u = u' := by
  induction w generalizing u u' with
  | nil => rw [spells_nil_right.mp h, spells_nil_right.mp h']
  | cons c w ih =>
      cases u with
      | nil => cases h
      | cons a u =>
          cases u' with
          | nil => cases h'
          | cons b u' =>
              obtain ⟨ha, hu⟩ := Bool.and_eq_true_iff.mp h
              obtain ⟨hb, hu'⟩ := Bool.and_eq_true_iff.mp h'
              have hrest := ih (fun a ha b hb => hunique a (List.mem_cons_of_mem _ ha) b
                (List.mem_cons_of_mem _ hb)) hu hu'
              rw [hunique a List.mem_cons_self b List.mem_cons_self c ha hb, hrest]

theorem spells_refl {u : List α} (h : ∀ a ∈ u, same a a = true) : spells same u u = true := by
  induction u with
  | nil => rfl
  | cons a u ih =>
      obtain ⟨ha, hu⟩ := List.forall_mem_cons.mp h
      exact Bool.and_eq_true_iff.mpr ⟨ha, ih hu⟩

/-- A phrase that ends with its letters ends at the end of a word. -/
theorem fits_spaced_iff {p : α → Bool} {phrase text : List α}
    (hsame : ∀ a ∈ phrase, ∀ b, same a b = true → p b = p a) :
    fits same (spaced p phrase) (spaced p text) = true ↔
      startsLike same phrase text = true ∧ (text.drop phrase.length).head?.any p = false := by
  induction phrase generalizing text with
  | nil =>
      rw [List.length_nil, List.drop_zero, ← spaced_fst_eq_nil_iff]
      cases hfirst : (spaced p text).1 with
      | nil => simp [fits, spaced, spells, fitsParts, startsLike, hfirst]
      | cons c word => simp [fits, spaced, spells, hfirst]
  | cons a phrase ih =>
      obtain ⟨ha, hphrase⟩ := List.forall_mem_cons.mp hsame
      cases text with
      | nil =>
          refine iff_of_false (fun h => ?_) (fun h => Bool.false_ne_true h.1)
          cases hword : p a with
          | true => simp [fits, spaced, hword, spells] at h
          | false => simp [fits, spaced, hword, spells, fitsParts] at h
      | cons b text =>
          rw [startsLike, List.length_cons, List.drop_succ_cons, Bool.and_eq_true, and_assoc,
            ← ih hphrase]
          by_cases hab : same a b = true
          · have hpb := ha b hab
            cases hword : p a with
            | true =>
                rw [hword] at hpb
                rw [spaced_cons_of_word hword, spaced_cons_of_word hpb]
                simp [fits, spells, hab]
            | false =>
                rw [hword] at hpb
                rw [spaced_cons_of_not_word hword, spaced_cons_of_not_word hpb]
                simp [fits, spells, fitsParts, hab]
          · refine iff_of_false (fun h => ?_) (fun h => hab h.1)
            cases hword : p a with
            | true =>
                rw [spaced_cons_of_word hword] at h
                cases hpb : p b with
                | true =>
                    rw [spaced_cons_of_word hpb] at h
                    simp [fits, spells, hab] at h
                | false =>
                    rw [spaced_cons_of_not_word hpb] at h
                    simp [fits, spells] at h
            | false =>
                rw [spaced_cons_of_not_word hword] at h
                cases hpb : p b with
                | true =>
                    rw [spaced_cons_of_word hpb] at h
                    simp [fits, spells] at h
                | false =>
                    rw [spaced_cons_of_not_word hpb] at h
                    simp [fits, spells, fitsParts, hab] at h

end

/-! ## Phrases between word boundaries -/

section

variable (p : α → Bool) (same : α → α → Bool)

/-- The letters, each up to what counts as the same. -/
def spelled : List α → Regex α
  | [] => .upTo 0 fun _ => true
  | a :: w => .seq (.char (same a)) (spelled w)

/-- `\bphrase\b` -/
def phrase (w : List α) : Regex α := .seq (.boundary p) (.seq (spelled same w) (.boundary p))

/-- A phrase begins and ends with a word, and letters of words are alike only to such. -/
structure IsPhrase (w : List α) : Prop where
  first : w.head?.any p = true
  last : w.getLast?.any p = true
  same : ∀ a ∈ w, ∀ b, same a b = true → p b = p a

variable {p same} {w before text : List α} [DecidableEq α]

theorem run_spelled : (spelled same w).run before text =
    if startsLike same w text = true then
      [((text.take w.length).reverse ++ before, text.drop w.length)] else [] := by
  induction w generalizing before text with
  | nil => cases text <;> rfl
  | cons a w ih =>
      cases text with
      | nil => rfl
      | cons b text =>
          cases hab : same a b with
          | true =>
              have hrun : (spelled same (a :: w)).run before (b :: text) =
                  (spelled same w).run (b :: before) text := by
                simp [spelled, Regex.run, hab]
              rw [hrun, ih]
              simp [startsLike, hab]
          | false => simp [spelled, Regex.run, startsLike, hab]

theorem startsLike_of_mem_run {q : List α × List α}
    (h : q ∈ (spelled same w).run before text) : startsLike same w text = true := by
  rw [run_spelled] at h
  split_ifs at h with hstarts
  · exact hstarts
  · cases h

theorem startsLike_head (h : startsLike same w text = true) (hw : IsPhrase p same w) :
    text.head?.any p = true := by
  cases w with
  | nil => exact absurd hw.first Bool.false_ne_true
  | cons a w =>
      cases text with
      | nil => cases h
      | cons b text =>
          have hab := (Bool.and_eq_true_iff.mp h).1
          exact (hw.same a List.mem_cons_self b hab).trans hw.first

theorem startsLike_getLast (h : startsLike same w text = true)
    (hsame : ∀ a ∈ w, ∀ b, same a b = true → p b = p a) :
    (text.take w.length).getLast?.any p = w.getLast?.any p := by
  induction w generalizing text with
  | nil => simp
  | cons a w ih =>
      obtain ⟨ha, hw⟩ := List.forall_mem_cons.mp hsame
      cases text with
      | nil => cases h
      | cons b text =>
          obtain ⟨hab, hrest⟩ := Bool.and_eq_true_iff.mp h
          have hlast := ih hrest hw
          cases w with
          | nil => simp [ha b hab]
          | cons a' w =>
              cases text with
              | nil => cases hrest
              | cons b' text => simpa using hlast

/-- A phrase is found at the end of a separator, where its words are. -/
theorem run_phrase (hw : IsPhrase p same w) : (phrase p same w).run before text =
    if before.head?.any p = false ∧ fits same (spaced p w) (spaced p text) = true then
      [((text.take w.length).reverse ++ before, text.drop w.length)] else [] := by
  simp only [fits_spaced_iff hw.same]
  by_cases hstarts : startsLike same w text = true
  · have hfirst := startsLike_head hstarts hw
    have hlast : ((text.take w.length).reverse ++ before).head?.any p = true := by
      have hend := (startsLike_getLast hstarts hw.same).trans hw.last
      rw [List.head?_append, List.head?_reverse]
      cases hlast : (text.take w.length).getLast? with
      | none => simp [hlast] at hend
      | some b => simpa [hlast] using hend
    have hboundary {left right : List α} (h : left.head?.any p = true) :
        (Regex.boundary p).run left right =
          if right.head?.any p = false then [(left, right)] else [] := by
      cases hright : right.head?.any p <;> simp [Regex.run, h, hright]
    have hfront : (Regex.boundary p).run before text =
        if before.head?.any p = false then [(before, text)] else [] := by
      cases hbefore : before.head?.any p <;> simp [Regex.run, hfirst, hbefore]
    rw [phrase, Regex.run_seq, hfront]
    by_cases hbefore : before.head?.any p = false
    · rw [if_pos hbefore, List.flatMap_singleton, Regex.run_seq, run_spelled, if_pos hstarts,
        List.flatMap_singleton, hboundary hlast]
      simp [hbefore, hstarts]
    · rw [if_neg hbefore, if_neg fun h => hbefore h.1]
      rfl
  · have hnone (before : List α) : (spelled same w).run before text = [] := by
      rw [run_spelled, if_neg hstarts]
    rw [if_neg fun h => hstarts h.2.1, phrase, Regex.run_seq]
    refine List.flatMap_eq_nil_iff.mpr fun q hq => ?_
    have hsame : q = (before, text) := by
      simp only [Regex.run] at hq
      split_ifs at hq
      · exact List.mem_singleton.mp hq
      · cases hq
    rw [hsame, Regex.run_seq, hnone]
    rfl

/-- What follows a phrase begins with a separator. -/
theorem spaced_drop (hsame : ∀ a ∈ w, ∀ b, same a b = true → p b = p a)
    (h : fits same (spaced p w) (spaced p text) = true) :
    spaced p (text.drop w.length) = ([], (spaced p text).2.drop (spaced p w).2.length) := by
  induction w generalizing text with
  | nil =>
      have hfirst := (fits_spaced_iff hsame).mp h
      rw [List.length_nil, List.drop_zero] at hfirst ⊢
      exact Prod.ext (spaced_fst_eq_nil_iff.mpr hfirst.2) rfl
  | cons a w ih =>
      obtain ⟨ha, hw⟩ := List.forall_mem_cons.mp hsame
      obtain ⟨hstarts, hend⟩ := (fits_spaced_iff hsame).mp h
      cases text with
      | nil => cases hstarts
      | cons b text =>
          obtain ⟨hab, hstarts⟩ := Bool.and_eq_true_iff.mp hstarts
          rw [List.length_cons, List.drop_succ_cons] at hend ⊢
          rw [ih hw ((fits_spaced_iff hw).mpr ⟨hstarts, hend⟩)]
          have hpb := ha b hab
          cases hword : p a with
          | true =>
              rw [hword] at hpb
              rw [spaced_cons_of_word hword, spaced_cons_of_word hpb]
          | false =>
              rw [hword] at hpb
              rw [spaced_cons_of_not_word hword, spaced_cons_of_not_word hpb]
              rfl

end

/-! ## Counting and replacing word by word -/

section

variable (same : α → α → Bool)

/-- The words after separators at which the phrase is found. -/
def countParts (w : Spaced α) : List (α × List α) → Nat
  | [] => 0
  | part :: parts => (if fits same w (part.2, parts) then 1 else 0) + countParts w parts

def countSpaced (w text : Spaced α) : Nat :=
  (if fits same w text then 1 else 0) + countParts same w text.2

/-- The text with the new words in the place of the first phrase. -/
def replaceParts (w new : Spaced α) : List α → List (α × List α) → Spaced α
  | word, [] =>
      if fits same w (word, []) then new else (word, [])
  | word, part :: parts =>
      if fits same w (word, part :: parts) then
        (new.1, new.2 ++ (part :: parts).drop w.2.length)
      else
        let rest := replaceParts w new part.2 parts
        (word, (part.1, rest.1) :: rest.2)

def replaceSpaced (w new text : Spaced α) : Spaced α := replaceParts same w new text.1 text.2

/-- The words after separators, if the phrase does not begin before them. -/
def replaceAfter (w new : Spaced α) : List (α × List α) → List (α × List α)
  | [] => []
  | part :: parts =>
      let rest := replaceParts same w new part.2 parts
      (part.1, rest.1) :: rest.2

variable {same} {p : α → Bool} {w new text : List α}

theorem replaceParts_of_fits {w new : Spaced α} {word : List α} {parts : List (α × List α)}
    (h : fits same w (word, parts) = true) :
    replaceParts same w new word parts = (new.1, new.2 ++ parts.drop w.2.length) := by
  cases parts with
  | nil =>
      rw [replaceParts, if_pos h, List.drop_nil, List.append_nil]
  | cons part parts => rw [replaceParts, if_pos h]

theorem replaceParts_of_not_fits {w new : Spaced α} {word : List α}
    {parts : List (α × List α)} (h : fits same w (word, parts) = false) :
    replaceParts same w new word parts = (word, replaceAfter same w new parts) := by
  have hnot : ¬ fits same w (word, parts) = true := by
    rw [h]
    exact Bool.false_ne_true
  cases parts with
  | nil => rw [replaceParts, if_neg hnot, replaceAfter]
  | cons part parts => rw [replaceParts, if_neg hnot, replaceAfter]

variable [DecidableEq α]

theorem run_phrase_isEmpty (hw : IsPhrase p same w) (before : List α) :
    ((phrase p same w).run before text).isEmpty =
      !(!before.head?.any p && fits same (spaced p w) (spaced p text)) := by
  rw [run_phrase hw]
  cases before.head?.any p <;> cases fits same (spaced p w) (spaced p text) <;> rfl

/-- Behind a letter of a word a phrase does not begin. -/
theorem countFrom_phrase (hw : IsPhrase p same w) (before : List α) :
    (phrase p same w).countFrom before text =
      if before.head?.any p then countParts same (spaced p w) (spaced p text).2
      else countSpaced same (spaced p w) (spaced p text) := by
  have hhere (before text : List α) :
      (if ((phrase p same w).run before text).isEmpty then 0 else 1) =
        if before.head?.any p then 0
        else if fits same (spaced p w) (spaced p text) then 1 else 0 := by
    rw [run_phrase_isEmpty hw]
    cases before.head?.any p <;> cases fits same (spaced p w) (spaced p text) <;> rfl
  induction text generalizing before with
  | nil =>
      rw [Regex.countFrom, hhere]
      rfl
  | cons c text ih =>
      rw [Regex.countFrom, hhere, ih, List.head?_cons, Option.any_some]
      cases hc : p c with
      | true =>
          rw [spaced_cons_of_word hc]
          cases before.head?.any p <;> simp [countSpaced]
      | false =>
          rw [spaced_cons_of_not_word hc]
          cases before.head?.any p <;> simp [countSpaced, countParts]

theorem count_phrase (hw : IsPhrase p same w) :
    (phrase p same w).count text = countSpaced same (spaced p w) (spaced p text) :=
  countFrom_phrase hw []

theorem run_phrase_head? (hw : IsPhrase p same w) (before : List α) :
    ((phrase p same w).run before text).head? =
      if before.head?.any p = false ∧ fits same (spaced p w) (spaced p text) = true then
        some ((text.take w.length).reverse ++ before, text.drop w.length) else none := by
  rw [run_phrase hw]
  split_ifs <;> rfl

theorem spaced_replaceFirstFrom (hw : IsPhrase p same w) (before : List α) :
    spaced p ((phrase p same w).replaceFirstFrom new before text) =
      if before.head?.any p then
        ((spaced p text).1, replaceAfter same (spaced p w) (spaced p new) (spaced p text).2)
      else replaceSpaced same (spaced p w) (spaced p new) (spaced p text) := by
  -- where the phrase is found, the rest of the text begins with a separator
  have hfound {text : List α} (hfits : fits same (spaced p w) (spaced p text) = true) :
      spaced p (new ++ text.drop w.length) =
        replaceSpaced same (spaced p w) (spaced p new) (spaced p text) := by
    have hrest := spaced_drop hw.same hfits
    rw [spaced_append (congrArg Prod.fst hrest), hrest]
    exact (replaceParts_of_fits hfits).symm
  induction text generalizing before with
  | nil =>
      unfold Regex.replaceFirstFrom
      rw [run_phrase_head? hw]
      cases hbefore : before.head?.any p with
      | true => rfl
      | false =>
          cases hfits : fits same (spaced p w) (spaced p []) with
          | true => exact hfound hfits
          | false => exact (replaceParts_of_not_fits hfits).symm
  | cons c text ih =>
      unfold Regex.replaceFirstFrom
      rw [run_phrase_head? hw]
      by_cases hhere : before.head?.any p = false ∧
          fits same (spaced p w) (spaced p (c :: text)) = true
      · rw [if_pos hhere, hhere.1]
        exact hfound hhere.2
      · rw [if_neg hhere]
        have hstay : (if before.head?.any p then
              ((spaced p (c :: text)).1,
                replaceAfter same (spaced p w) (spaced p new) (spaced p (c :: text)).2)
            else replaceSpaced same (spaced p w) (spaced p new) (spaced p (c :: text))) =
            ((spaced p (c :: text)).1,
              replaceAfter same (spaced p w) (spaced p new) (spaced p (c :: text)).2) := by
          cases hbefore : before.head?.any p with
          | true => rfl
          | false =>
              refine replaceParts_of_not_fits ?_
              simpa [hbefore] using hhere
        have hrest := ih (c :: before)
        rw [List.head?_cons, Option.any_some] at hrest
        rw [hstay]
        dsimp only
        cases hc : p c with
        | true =>
            rw [hc, if_pos rfl] at hrest
            rw [spaced_cons_of_word hc, spaced_cons_of_word hc, hrest]
        | false =>
            rw [hc, if_neg Bool.false_ne_true] at hrest
            rw [spaced_cons_of_not_word hc, spaced_cons_of_not_word hc, hrest]
            rfl

theorem spaced_replaceFirst (hw : IsPhrase p same w) :
    spaced p ((phrase p same w).replaceFirst new text) =
      replaceSpaced same (spaced p w) (spaced p new) (spaced p text) :=
  spaced_replaceFirstFrom hw []

end

end VirtualContext.Library
