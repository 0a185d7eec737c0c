import Mathlib
import VirtualContext.Ingest.DateResolver

/-!
# The words of dates

Relative dates are phrases of a vocabulary, and no word of a calendar date is one of
theirs.
-/

namespace VirtualContext

open VirtualContext.Library

namespace DateResolver

/-! ## Characters -/

/-- What is known of ASCII. -/
structure ReadsAscii (classes : CharClasses) : Prop where
  isWord : ∀ c : Char, c.toNat < 128 → classes.isWord c = (c.isAlphanum || c = '_')
  space : ∀ c, isPySpace c = true → classes.isWord c = false
  sameLetter : ∀ c d : Char, c.toNat < 128 → d.toNat < 128 →
    classes.sameLetter c d = decide (c.toLower = d.toLower)
  sameWord : ∀ c d : Char, c.toNat < 128 → classes.sameLetter c d = true →
    classes.isWord d = classes.isWord c
  sameOnce : ∀ c c' d : Char, c.toNat < 128 → c'.toNat < 128 →
    classes.sameLetter c d = true → classes.sameLetter c' d = true → c.toLower = c'.toLower
  lower : ∀ s : String, s.toList.all (·.toNat < 128) = true → classes.lower s = s.toLower

theorem forall_ascii {P : Char → Prop} (h : ∀ n < 128, P (Char.ofNat n)) {c : Char}
    (hc : c.toNat < 128) : P c := Char.ofNat_toNat c ▸ h c.toNat hc

theorem isWord_toLower (c : Char) :
    asciiClasses.isWord c.toLower = asciiClasses.isWord c := by
  by_cases hc : c.toNat < 128
  · exact forall_ascii (P := fun c => asciiClasses.isWord c.toLower = asciiClasses.isWord c)
      (by decide) hc
  · have hupper : ¬ (c.val ≥ 'A'.val ∧ c.val ≤ 'Z'.val) := by
      rintro ⟨-, hle⟩
      have := UInt32.le_iff_toNat_le.mp hle
      exact hc (Nat.lt_of_le_of_lt this (by decide))
    rw [Char.toLower, dif_neg hupper]

theorem not_isWord_of_space {c : Char} (h : isPySpace c = true) :
    asciiClasses.isWord c = false := by
  by_cases hc : c.toNat < 128
  · exact forall_ascii (P := fun c => isPySpace c = true → asciiClasses.isWord c = false)
      (by decide) hc h
  · have hlt (d : Char) (hd : d.toNat < 128) : d.val < c.val :=
      UInt32.not_le.mp fun hle => hc (Nat.lt_of_le_of_lt (UInt32.le_iff_toNat_le.mp hle) hd)
    have hz : 122 < c.val := hlt 'z' (by decide)
    have hZ : 90 < c.val := hlt 'Z' (by decide)
    have h9 : 57 < c.val := hlt '9' (by decide)
    have hscore : c ≠ '_' := by
      rintro rfl
      exact hc (by decide)
    simp [asciiClasses, Char.isAlphanum, Char.isAlpha, Char.isUpper, Char.isLower, Char.isDigit,
      hz, hZ, h9, hscore]

theorem readsAscii : ReadsAscii asciiClasses where
  isWord c _ := rfl
  space _ h := not_isWord_of_space h
  sameLetter c d _ _ := rfl
  sameWord c d _ h := by
    rw [← isWord_toLower, ← isWord_toLower c]
    exact congrArg _ (of_decide_eq_true h).symm
  sameOnce c c' d _ _ h h' := (of_decide_eq_true h).trans (of_decide_eq_true h').symm
  lower s _ := rfl

/-! ## The expressions do not overlap -/

def isPlain (c : Char) : Bool := c.toNat < 128 && c.toLower = c

/-- Phrases in lower case, none of which begins inside one of them. -/
def isVocabulary (table : List (List Char)) : Bool :=
  table.all fun w => w.all isPlain && w.head?.any asciiClasses.isWord &&
    w.getLast?.any asciiClasses.isWord && table.all fun v =>
      (spaced asciiClasses.isWord v).2.all
          (fun part => (spaced asciiClasses.isWord w).1 ≠ part.2) &&
        ((spaced asciiClasses.isWord w).1 ≠ (spaced asciiClasses.isWord v).1 ||
          (spaced asciiClasses.isWord w).2.length = (spaced asciiClasses.isWord v).2.length)

theorem vocabulary_of_plain {isWord : Char → Bool} {same : Char → Char → Bool}
    {table : List (List Char)} (hcheck : isVocabulary table = true)
    (hword : ∀ c, isPlain c = true → isWord c = asciiClasses.isWord c)
    (hrefl : ∀ c, isPlain c = true → same c c = true)
    (hunique : ∀ c c' d, isPlain c = true → isPlain c' = true → same c d = true →
      same c' d = true → c = c')
    (hsame : ∀ c d, isPlain c = true → same c d = true → isWord d = isWord c) :
    Vocabulary isWord same table := by
  simp only [isVocabulary, List.all_eq_true, Bool.and_eq_true, Bool.or_eq_true,
    decide_eq_true_eq] at hcheck
  have hspaced {w : List Char} (hw : w ∈ table) :
      spaced isWord w = spaced asciiClasses.isWord w :=
    spaced_congr fun c hc => hword c ((hcheck w hw).1.1.1 c hc)
  refine ⟨fun w hw => ⟨?_, ?_, fun c hc d => hsame c d ((hcheck w hw).1.1.1 c hc)⟩,
    fun w hw c hc => hrefl c ((hcheck w hw).1.1.1 c hc),
    fun w hw v hv c hc c' hc' d => hunique c c' d ((hcheck w hw).1.1.1 c hc)
      ((hcheck v hv).1.1.1 c' hc'), fun w hw v hv part hpart => ?_, fun w hw v hv heq => ?_⟩
  · obtain ⟨c, hc, hfirst⟩ := (Option.any_eq_true _ _).mp (hcheck w hw).1.1.2
    rw [hc, Option.any_some, hword c ((hcheck w hw).1.1.1 c (List.mem_of_mem_head? hc))]
    exact hfirst
  · obtain ⟨c, hc, hlast⟩ := (Option.any_eq_true _ _).mp (hcheck w hw).1.2
    rw [hc, Option.any_some, hword c ((hcheck w hw).1.1.1 c (List.mem_of_mem_getLast? hc))]
    exact hlast
  · rw [hspaced hv] at hpart
    rw [hspaced hw]
    exact ((hcheck w hw).2 v hv).1 part hpart
  · rw [hspaced hw, hspaced hv] at heq
    rw [hspaced hw, hspaced hv]
    exact ((hcheck w hw).2 v hv).2.resolve_left fun hne => hne heq

section

variable {classes : CharClasses} (hclasses : ReadsAscii classes)

include hclasses

theorem sameLetter_unique {c c' d : Char} (hc : isPlain c = true) (hc' : isPlain c' = true)
    (h : classes.sameLetter c d = true) (h' : classes.sameLetter c' d = true) : c = c' := by
  simp only [isPlain, Bool.and_eq_true, decide_eq_true_eq] at hc hc'
  exact hc.2.symm.trans ((hclasses.sameOnce c c' d hc.1 hc'.1 h h').trans hc'.2)

theorem spaced_of_plain {name : List Char} (hplain : name.all isPlain = true) :
    spaced classes.isWord name = spaced asciiClasses.isWord name := by
  refine spaced_congr fun c hc => ?_
  have hc := List.all_eq_true.mp hplain c hc
  simp only [isPlain, Bool.and_eq_true, decide_eq_true_eq] at hc
  exact hclasses.isWord c hc.1

theorem vocabulary_of_chars {table : List (List Char)} (hcheck : isVocabulary table = true) :
    Vocabulary classes.isWord classes.sameLetter table := by
  refine vocabulary_of_plain hcheck (fun c hc => ?_) (fun c hc => ?_)
    (fun c c' d => sameLetter_unique hclasses) (fun c d hc => ?_)
  all_goals simp only [isPlain, Bool.and_eq_true, decide_eq_true_eq] at hc
  · exact hclasses.isWord c hc.1
  · exact (hclasses.sameLetter c c hc.1 hc.1).trans (decide_eq_true rfl)
  · exact hclasses.sameWord c d hc.1

theorem exact_vocabulary_of_chars {table : List (List Char)}
    (hcheck : isVocabulary table = true) :
    Vocabulary classes.isWord (fun c d => decide (c = d)) table := by
  refine vocabulary_of_plain hcheck (fun c hc => ?_) (fun c hc => decide_eq_true rfl)
    (fun c c' d _ _ h h' => (of_decide_eq_true h).trans (of_decide_eq_true h').symm)
    (fun c d _ h => congrArg _ (of_decide_eq_true h).symm)
  simp only [isPlain, Bool.and_eq_true, decide_eq_true_eq] at hc
  exact hclasses.isWord c hc.1

end

/-! ## The words of a date -/

/-- The words of the expressions, and of those that are no offsets. -/
def expressionWords : List String :=
  ["yesterday", "tomorrow", "last", "next", "week", "month", "year", "night", "weekend"]

def otherWords : List String :=
  ["monday", "tuesday", "wednesday", "thursday", "friday", "saturday", "sunday", "night",
   "weekend", "recently", "ago", "past"]

def reservedWords : List (List Char) := (expressionWords ++ otherWords).map (·.toList)

def dateWords : List (List Char) := ("on" :: "in" :: monthNames).map (·.toList)

/-- Words that dates are made of. -/
def IsDateWord (x : List Char) : Prop :=
  x = [] ∨ x ∈ dateWords ∨ x ≠ [] ∧ ∀ c ∈ x, c.isDigit = true

theorem isDigit_digits {width n : Nat} : ∀ c ∈ digits width n, c.isDigit = true := by
  induction width generalizing n with
  | zero => simp [digits]
  | succ width ih =>
      intro c hc
      rcases List.mem_append.mp hc with hc | hc
      · exact ih c hc
      · rw [List.mem_singleton.mp hc]
        exact (digitChar_spec n).1

theorem digits_ne_nil {width n : Nat} : digits (width + 1) n ≠ [] := by
  simp [digits]

theorem words_of_tables :
    (dateWords.all (fun x => x.all fun c => c.toNat < 128 && asciiClasses.isWord c) = true ∧
      reservedWords.all (fun u => u.all isPlain && u.head?.any Char.isAlpha) = true ∧
      reservedWords.all (fun u => dateWords.all fun x =>
        !spells asciiClasses.sameLetter u x) = true) ∧
    isVocabulary ((textReplacements.map Prod.fst).map (·.toList)) = true ∧
      isVocabulary ((simpleOffsets.map Prod.fst).map (·.toList)) = true := by
  decide +kernel

theorem isVocabulary_tables :
    isVocabulary ((textReplacements.map Prod.fst).map (·.toList)) = true ∧
      isVocabulary ((simpleOffsets.map Prod.fst).map (·.toList)) = true :=
  words_of_tables.2

theorem dateWords_ascii :
    dateWords.all (fun x => x.all fun c => c.toNat < 128 && asciiClasses.isWord c) = true :=
  words_of_tables.1.1

theorem reservedWords_plain :
    reservedWords.all (fun u => u.all isPlain && u.head?.any Char.isAlpha) = true :=
  words_of_tables.1.2.1

theorem dateWords_not_reserved : reservedWords.all (fun u => dateWords.all fun x =>
    !spells asciiClasses.sameLetter u x) = true :=
  words_of_tables.1.2.2

theorem digit_lt_128 {c : Char} (h : c.isDigit = true) : c.toNat < 128 := by
  simp only [Char.isDigit, Bool.and_eq_true, decide_eq_true_eq] at h
  exact Nat.lt_of_le_of_lt (UInt32.le_iff_toNat_le.mp h.2) (by decide)

theorem digit_toLower {c : Char} (h : c.isDigit = true) :
    c.toLower = c ∧ c.isAlpha = false ∧ asciiClasses.isWord c = true :=
  forall_ascii (P := fun c => c.isDigit = true →
    c.toLower = c ∧ c.isAlpha = false ∧ asciiClasses.isWord c = true) (by decide)
    (digit_lt_128 h) h

theorem monthName_mem (date : CalendarDate) : monthName date ∈ dateWords := by
  obtain ⟨-, hmonth, -⟩ := date.valid
  have hlt : date.month - 1 < monthNames.length := by
    have hlength : monthNames.length = 12 := rfl
    omega
  have hget : monthNames.getD (date.month - 1) "" ∈ monthNames := by
    rw [List.getD_eq_getElem?_getD, List.getElem?_eq_getElem hlt, Option.getD_some]
    exact List.getElem_mem hlt
  exact List.mem_map_of_mem (List.mem_cons_of_mem _ (List.mem_cons_of_mem _ hget))

section

variable {classes : CharClasses} (hclasses : ReadsAscii classes)

include hclasses

theorem spells_ascii {u x : List Char} (hu : ∀ c ∈ u, c.toNat < 128)
    (hx : ∀ c ∈ x, c.toNat < 128) :
    spells classes.sameLetter u x = spells asciiClasses.sameLetter u x := by
  induction u generalizing x with
  | nil => cases x <;> rfl
  | cons a u ih =>
      obtain ⟨ha, hu⟩ := List.forall_mem_cons.mp hu
      cases x with
      | nil => rfl
      | cons b x =>
          obtain ⟨hb, hx⟩ := List.forall_mem_cons.mp hx
          rw [spells, spells, ih hu hx, hclasses.sameLetter a b ha hb]
          rfl

/-- No word of a date is a reserved one. -/
theorem not_spells_of_isDateWord {u x : List Char} (hu : u ∈ reservedWords)
    (hx : IsDateWord x) : spells classes.sameLetter u x = false := by
  have hplain := List.all_eq_true.mp reservedWords_plain u hu
  obtain ⟨hletters, hfirst⟩ := Bool.and_eq_true_iff.mp hplain
  have hascii : ∀ c ∈ u, c.toNat < 128 := fun c hc => by
    have hc := List.all_eq_true.mp hletters c hc
    simp only [isPlain, Bool.and_eq_true, decide_eq_true_eq] at hc
    exact hc.1
  rcases hx with rfl | hx | ⟨hne, hdigits⟩
  · cases u with
    | nil => exact absurd hfirst Bool.false_ne_true
    | cons a u => rfl
  · have hxs := List.all_eq_true.mp dateWords_ascii x hx
    have hxascii : ∀ c ∈ x, c.toNat < 128 := fun c hc => by
      have hc := List.all_eq_true.mp hxs c hc
      simp only [Bool.and_eq_true, decide_eq_true_eq] at hc
      exact hc.1
    rw [spells_ascii hclasses hascii hxascii]
    simpa using List.all_eq_true.mp (List.all_eq_true.mp dateWords_not_reserved u hu) x hx
  · cases u with
    | nil => exact absurd hfirst Bool.false_ne_true
    | cons a u =>
        cases x with
        | nil => exact absurd rfl hne
        | cons b x =>
            have hdigit := hdigits b List.mem_cons_self
            obtain ⟨hlower, halpha, -⟩ := digit_toLower hdigit
            have ha := List.all_eq_true.mp hletters a List.mem_cons_self
            simp only [isPlain, Bool.and_eq_true, decide_eq_true_eq] at ha
            have hdiffer : classes.sameLetter a b = false := by
              rw [hclasses.sameLetter a b ha.1 (digit_lt_128 hdigit)]
              refine decide_eq_false fun heq => ?_
              rw [ha.2, hlower] at heq
              rw [List.head?_cons, Option.any_some, heq, halpha] at hfirst
              exact Bool.false_ne_true hfirst
            rw [spells, hdiffer, Bool.false_and]

theorem isWord_of_isDateWord {x : List Char} (hx : IsDateWord x) :
    ∀ c ∈ x, classes.isWord c = true := by
  intro c hc
  rcases hx with rfl | hx | ⟨-, hdigits⟩
  · cases hc
  · have hword := List.all_eq_true.mp (List.all_eq_true.mp dateWords_ascii x hx) c hc
    simp only [Bool.and_eq_true, decide_eq_true_eq] at hword
    rw [hclasses.isWord c hword.1]
    exact hword.2
  · have hdigit := hdigits c hc
    rw [hclasses.isWord c (digit_lt_128 hdigit)]
    exact (digit_toLower hdigit).2.2

theorem not_isWord_of_sep {c : Char} (hc : c = ' ' ∨ c = ',') : classes.isWord c = false := by
  rcases hc with rfl | rfl
  · exact hclasses.isWord ' ' (by decide)
  · exact hclasses.isWord ',' (by decide)

/-- A text of words of a date, each with one separator behind it but the last. -/
theorem words_of_dateText (parts : List (List Char × Char)) {last : List Char}
    (hparts : ∀ part ∈ parts, IsDateWord part.1 ∧ (part.2 = ' ' ∨ part.2 = ','))
    (hlast : IsDateWord last) :
    ∀ x ∈ (spaced classes.isWord
        (parts.flatMap (fun part => part.1 ++ [part.2]) ++ last)).words, IsDateWord x := by
  induction parts with
  | nil =>
      rw [List.flatMap_nil, List.nil_append,
        spaced_words_of_word (isWord_of_isDateWord hclasses hlast)]
      exact List.forall_mem_singleton.mpr hlast
  | cons part parts ih =>
      obtain ⟨⟨hword, hsep⟩, hparts⟩ := List.forall_mem_cons.mp hparts
      rw [List.flatMap_cons, List.append_assoc, List.append_assoc, List.singleton_append,
        spaced_words_word_sep (isWord_of_isDateWord hclasses hword)
          (not_isWord_of_sep hclasses hsep)]
      exact List.forall_mem_cons.mpr ⟨hword, ih hparts⟩

theorem words_offsetText (offset : Int) (target : CalendarDate) :
    ∀ x ∈ (spaced classes.isWord (offsetText offset target)).words, IsDateWord x := by
  have hempty : IsDateWord [] := .inl rfl
  have hon : IsDateWord ['o', 'n'] := .inr (.inl (by simp [dateWords]))
  have hin : IsDateWord ['i', 'n'] := .inr (.inl (by simp [dateWords]))
  have hmonth : IsDateWord (monthName target) := .inr (.inl (monthName_mem target))
  have hday : IsDateWord (dayNumber target) := by
    unfold dayNumber
    split_ifs
    · exact .inr (.inr ⟨digits_ne_nil, isDigit_digits⟩)
    · exact .inr (.inr ⟨digits_ne_nil, isDigit_digits⟩)
  have hyear : IsDateWord (yearNumber target) := .inr (.inr ⟨digits_ne_nil, isDigit_digits⟩)
  unfold offsetText
  split_ifs
  · have h := words_of_dateText hclasses
      [(['o', 'n'], ' '), (monthName target, ' '), (dayNumber target, ','), ([], ' ')]
      (by simp [hon, hmonth, hday, hempty]) hyear
    simpa [dayText] using h
  · have h := words_of_dateText hclasses [(['i', 'n'], ' '), (monthName target, ' ')]
      (by simp [hin, hmonth]) hyear
    simpa [monthText] using h
  · have h := words_of_dateText hclasses [(['i', 'n'], ' ')] (by simp [hin]) hyear
    simpa using h

end

end DateResolver

end VirtualContext
