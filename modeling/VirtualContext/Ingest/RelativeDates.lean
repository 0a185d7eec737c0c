import Mathlib.Data.List.Find
import VirtualContext.Ingest.DateWords
import VirtualContext.Library.Ordered

/-!
# What relative dates are resolved to

Months and years of a fixed number of days hit the calendar on most days of a year.
A text is free of relative dates after one pass just when none of them is repeated.
-/

namespace VirtualContext

open VirtualContext.Library

namespace DateResolver

/-! ## Texts without other expressions -/

/-- No word of the text is a day of the week or one of the other reserved words. -/
def OnlyOffsets (classes : CharClasses) (text : List Char) : Prop :=
  ∀ x ∈ (spaced classes.isWord text).words, ∀ u ∈ otherWords,
    spells classes.sameLetter u.toList x = false

/-- The words of the expressions that a text may be made of. -/
def resolvableWords : List String :=
  ["yesterday", "tomorrow", "last", "next", "week", "month", "year"]

/-- Every word of the text is one of those of the expressions. -/
def MadeOfExpressions (classes : CharClasses) (text : List Char) : Prop :=
  ∀ x ∈ (spaced classes.isWord text).words, x = [] ∨
    ∃ u ∈ resolvableWords, spells classes.sameLetter u.toList x = true

/-- The phrase in lower case has a word that is reserved. -/
def hasOtherWord (name : List Char) : Bool :=
  isVocabulary [name] && (spaced asciiClasses.isWord name).words.any fun u =>
    (otherWords.map (·.toList)).contains u

def offsetNames : List String := textReplacements.map Prod.fst

/-- The relative dates that a text may be made of. -/
def relativeExpressions : List String :=
  ["yesterday", "tomorrow", "last week", "next week", "last month", "next month", "last year",
   "next year"]

def offsetOf (name : String) : Int := (textReplacements.lookup name).getD 0

/-- The months and years around a day. -/
def calendarNames : List String := ["last month", "next month", "last year", "next year"]

/-- What is read off the tables, in one computation. -/
theorem tables_spec :
    (vagueTerms ++ dayNames).all (fun term => hasOtherWord term.toList) = true ∧
    ((resolvableWords ++ otherWords).all (fun u => u.toList.all isPlain) = true ∧
      ∀ u ∈ "" :: resolvableWords, u ∉ otherWords) ∧
    (offsetNames.Nodup ∧ offsetNames.all (fun name => name.toList.all isPlain &&
      (spaced asciiClasses.isWord name.toList).words.all reservedWords.contains) = true) ∧
    ((∀ entry ∈ textReplacements, entry.1 ∈ relativeExpressions ∧ offsetOf entry.1 = entry.2 ∨
        hasOtherWord entry.1.toList = true) ∧
      ∀ name ∈ relativeExpressions, (name, offsetOf name) ∈ textReplacements) ∧
    (∀ name ∈ calendarNames, (name, offsetOf name) ∈ textReplacements ∧
      simpleOffsets.find? (·.1 = name) = some (name, offsetOf name) ∧ name.toLower = name ∧
      otherWords.all (fun u => (spaced asciiClasses.isWord name.toList).words.all fun x =>
        !spells asciiClasses.sameLetter u.toList x) = true) ∧
    offsetOf "last month" = -30 ∧ offsetOf "next month" = 30 ∧
      offsetOf "last year" = -365 ∧ offsetOf "next year" = 365 := by
  decide +kernel

theorem otherTerms_other :
    (vagueTerms ++ dayNames).all (fun term => hasOtherWord term.toList) = true :=
  tables_spec.1

theorem resolvableWords_spec :
    (resolvableWords ++ otherWords).all (fun u => u.toList.all isPlain) = true ∧
      ∀ u ∈ "" :: resolvableWords, u ∉ otherWords :=
  tables_spec.2.1

theorem run_anyOf {rs : List (Regex Char)} {before text : List Char} :
    (anyOf rs).run before text = rs.flatMap fun r => r.run before text := by
  induction rs with
  | nil => cases text <;> rfl
  | cons r rs ih =>
      rw [List.flatMap_cons, ← ih]
      rfl

section

variable {classes : CharClasses} (hclasses : ReadsAscii classes)

include hclasses

theorem onlyOffsets_of_madeOf {text : List Char} (h : MadeOfExpressions classes text) :
    OnlyOffsets classes text := by
  intro x hx w hw
  have hplain {u : String} (hu : u ∈ resolvableWords ++ otherWords) :
      ∀ c ∈ u.toList, isPlain c = true :=
    List.all_eq_true.mp (List.all_eq_true.mp resolvableWords_spec.1 u hu)
  refine Bool.eq_false_iff.mpr fun hspells => ?_
  rcases h x hx with rfl | ⟨u, hu, hword⟩
  · have hempty := String.toList_eq_nil_iff.mp (spells_nil_right.mp hspells)
    exact resolvableWords_spec.2 "" List.mem_cons_self (hempty ▸ hw)
  · have hunique : ∀ a ∈ u.toList, ∀ b ∈ w.toList, ∀ c, classes.sameLetter a c = true →
        classes.sameLetter b c = true → a = b := fun a ha b hb c =>
      sameLetter_unique hclasses (hplain (List.mem_append_left _ hu) a ha)
        (hplain (List.mem_append_right _ hw) b hb)
    have heq := String.toList_inj.mp (spells_unique hunique hword hspells)
    exact resolvableWords_spec.2 u (List.mem_cons_of_mem _ hu) (heq ▸ hw)

theorem not_foundIn_of_other {text name : List Char} (honly : OnlyOffsets classes text)
    (hcheck : hasOtherWord name = true) :
    ¬ (phrase classes.isWord classes.sameLetter name).FoundIn text := by
  intro hfound
  obtain ⟨hvocabulary, hother⟩ := Bool.and_eq_true_iff.mp hcheck
  have hphrase := (vocabulary_of_chars hclasses hvocabulary).isPhrase name List.mem_cons_self
  have hplain : name.all isPlain = true := by
    simp only [isVocabulary, List.all_cons, Bool.and_eq_true] at hvocabulary
    exact hvocabulary.1.1.1.1
  have hspaced := spaced_of_plain hclasses hplain
  obtain ⟨u, hu, hreserved⟩ := List.any_eq_true.mp hother
  obtain ⟨word, hword, rfl⟩ := List.mem_map.mp (List.contains_iff_mem.mp hreserved)
  obtain ⟨x, hx, hspells⟩ := words_of_foundIn hphrase hfound _ (hspaced ▸ hu)
  exact Bool.false_ne_true ((honly x hx word hword).symm.trans hspells)

theorem vagueTerm_not_found {text : List Char} (honly : OnlyOffsets classes text) :
    (vagueTerm classes).search text = false := by
  rw [Bool.eq_false_iff, Ne, Regex.search_iff]
  rintro ⟨front, rest, rfl, hmatch⟩
  obtain ⟨q, hq⟩ := List.exists_mem_of_ne_nil _ hmatch
  obtain ⟨start, hstart, hq⟩ := Regex.mem_run_seq.mp hq
  obtain ⟨stop, hstop, hq⟩ := Regex.mem_run_seq.mp hq
  rw [run_anyOf] at hstop
  obtain ⟨r, hr, hstop⟩ := List.mem_flatMap.mp hstop
  obtain ⟨term, hterm, rfl⟩ := List.mem_map.mp hr
  refine not_foundIn_of_other hclasses honly (List.all_eq_true.mp otherTerms_other term
    (List.mem_append_left _ hterm))
    ⟨front, rest, rfl, List.ne_nil_of_mem (a := q) ?_⟩
  exact Regex.mem_run_seq.mpr ⟨start, hstart, Regex.mem_run_seq.mpr ⟨stop, hstop, hq⟩⟩

theorem lastDay_not_found {text : List Char} (honly : OnlyOffsets classes text) {day : String}
    (hday : day ∈ dayNames) : (lastDay classes day).search text = false := by
  rw [Bool.eq_false_iff, Ne, Regex.search_iff]
  rintro ⟨front, rest, rfl, hmatch⟩
  obtain ⟨q, hq⟩ := List.exists_mem_of_ne_nil _ hmatch
  obtain ⟨start, hstart, hq⟩ := Regex.mem_run_seq.mp hq
  obtain ⟨last, hlast, hq⟩ := Regex.mem_run_seq.mp hq
  obtain ⟨spaces, hspaces, hq⟩ := Regex.mem_run_seq.mp hq
  have hcheck := List.all_eq_true.mp otherTerms_other day (List.mem_append_right _ hday)
  have hphrase := (vocabulary_of_chars hclasses (Bool.and_eq_true_iff.mp hcheck).1).isPhrase
    day.toList List.mem_cons_self
  -- the day stands behind a space, which is a word boundary
  have hboundary : spaces ∈ (Regex.boundary classes.isWord).run spaces.1 spaces.2 := by
    obtain ⟨stop, hstop, -⟩ := Regex.mem_run_seq.mp hq
    have hfirst := startsLike_head (startsLike_of_mem_run hstop) hphrase
    have hbefore : spaces.1.head?.any classes.isWord = false := by
      obtain ⟨c, hc, hspace⟩ := (Option.any_eq_true _ _).mp (Regex.head?_run_plus_char hspaces)
      rw [hc]
      exact hclasses.space c hspace
    rw [Regex.run, hbefore, hfirst, if_pos Bool.false_ne_true]
    exact List.mem_singleton_self _
  have hposition : spaces.1.reverse ++ spaces.2 = front ++ rest := by
    have hstarts := Regex.text_run _ hstart
    rw [List.reverse_reverse] at hstarts
    exact (Regex.text_run _ hspaces).trans ((Regex.text_run _ hlast).trans hstarts)
  refine not_foundIn_of_other hclasses honly hcheck ⟨spaces.1.reverse, spaces.2,
    hposition.symm, List.ne_nil_of_mem (a := q) ?_⟩
  rw [List.reverse_reverse]
  exact Regex.mem_run_seq.mpr ⟨spaces, hboundary, hq⟩

end

/-! ## The replacements of a text -/

theorem nodup_offsetNames : offsetNames.Nodup := tables_spec.2.2.1.1

theorem words_offsetNames : offsetNames.all (fun name => name.toList.all isPlain &&
    (spaced asciiClasses.isWord name.toList).words.all reservedWords.contains) = true :=
  tables_spec.2.2.1.2

/-- An expression of the table, with the date that takes its place. -/
def IsOffset (classes : CharClasses) (ref : SessionTime) (r : Replacement) : Prop :=
  ∃ offset target, (r.pattern, offset) ∈ textReplacements ∧
    ref.date.addDays offset = some target ∧ r.regex = expression classes r.pattern ∧
    r.text = offsetText offset target

section

variable {classes : CharClasses} {ref : SessionTime} {text : List Char}

theorem not_any_pattern {replacements : List Replacement} {name : String}
    (h : ∀ r ∈ replacements, r.pattern ≠ name) :
    replacements.any (·.pattern = name) = false := by
  refine Bool.eq_false_iff.mpr fun hany => ?_
  obtain ⟨r, hr, heq⟩ := List.any_eq_true.mp hany
  exact h r hr (of_decide_eq_true heq)

theorem addOffsets_of_inRange {table : List (String × Int)} {replacements : List Replacement}
    (hnames : (table.map Prod.fst).Nodup)
    (hfresh : ∀ r ∈ replacements, r.pattern ∉ table.map Prod.fst)
    (hsub : ∀ entry ∈ table, entry ∈ textReplacements)
    (hrange : ∀ entry ∈ table, (expression classes entry.1).search text = true →
      (ref.date.addDays entry.2).isSome) :
    ∃ found, addOffsets classes ref text table replacements = some (replacements ++ found) ∧
      found.map (·.pattern) =
        (table.map Prod.fst).filter (fun name => (expression classes name).search text) ∧
      ∀ r ∈ found, IsOffset classes ref r := by
  induction table generalizing replacements with
  | nil => exact ⟨[], by rw [addOffsets, List.append_nil], rfl, by simp⟩
  | cons entry table ih =>
      obtain ⟨name, offset⟩ := entry
      obtain ⟨hname, hsub⟩ := List.forall_mem_cons.mp hsub
      obtain ⟨hhere, hrange⟩ := List.forall_mem_cons.mp hrange
      rw [List.map_cons, List.nodup_cons] at hnames
      rw [List.map_cons] at hfresh
      have hlater : ∀ r ∈ replacements, r.pattern ∉ table.map Prod.fst := fun r hr hmem =>
        hfresh r hr (List.mem_cons_of_mem _ hmem)
      have hnew := not_any_pattern fun r hr heq => hfresh r hr (heq ▸ List.mem_cons_self)
      rw [addOffsets, hnew, Bool.not_false, Bool.and_true, List.map_cons, List.filter_cons]
      cases hsearch : (expression classes name).search text with
      | false =>
          rw [if_neg Bool.false_ne_true, if_neg Bool.false_ne_true]
          exact ih hnames.2 hlater hsub hrange
      | true =>
          obtain ⟨target, htarget⟩ := Option.isSome_iff_exists.mp (hhere hsearch)
          let new : Replacement :=
            { pattern := name
              regex := expression classes name
              text := offsetText offset target }
          have hfresh' : ∀ r ∈ replacements ++ [new], r.pattern ∉ table.map Prod.fst := by
            intro r hr
            rcases List.mem_append.mp hr with hr | hr
            · exact hlater r hr
            · rw [List.mem_singleton.mp hr]
              exact hnames.1
          obtain ⟨found, hadded, hpatterns, hoffsets⟩ := ih hnames.2 hfresh' hsub hrange
          refine ⟨new :: found, ?_, ?_, List.forall_mem_cons.mpr
            ⟨⟨offset, target, hname, htarget, rfl, rfl⟩, hoffsets⟩⟩
          · rw [if_pos rfl]
            rw [htarget]
            dsimp only
            rw [hadded, List.append_assoc]
            rfl
          · rw [if_pos rfl, List.map_cons, hpatterns]

theorem exists_addOffsets
    (hrange : ∀ entry ∈ textReplacements, (expression classes entry.1).search text = true →
      (ref.date.addDays entry.2).isSome) :
    ∃ found, addOffsets classes ref text textReplacements [] = some found ∧
      found.map (·.pattern) =
        offsetNames.filter (fun name => (expression classes name).search text) ∧
      ∀ r ∈ found, IsOffset classes ref r :=
  addOffsets_of_inRange nodup_offsetNames (by simp) (fun _ hentry => hentry) hrange

theorem addOffsets_of_not_found
    (hnone : ∀ name ∈ offsetNames, (expression classes name).search text = false) :
    addOffsets classes ref text textReplacements [] = some [] := by
  have hrange : ∀ entry ∈ textReplacements, (expression classes entry.1).search text = true →
      (ref.date.addDays entry.2).isSome := fun entry hentry hfound =>
    absurd ((hnone _ (List.mem_map_of_mem hentry)).symm.trans hfound) Bool.false_ne_true
  obtain ⟨found, hadded, hpatterns, -⟩ := exists_addOffsets hrange
  have hempty : found = [] := by
    rw [← List.map_eq_nil_iff, hpatterns, List.filter_eq_nil_iff]
    intro name hname
    rw [hnone name hname]
    exact Bool.false_ne_true
  rw [hadded, hempty]

theorem inRange_of_addOffsets {table : List (String × Int)}
    {replacements replacements' : List Replacement}
    (hnames : (table.map Prod.fst).Nodup)
    (hfresh : ∀ r ∈ replacements, r.pattern ∉ table.map Prod.fst)
    (h : addOffsets classes ref text table replacements = some replacements') :
    ∀ entry ∈ table, (expression classes entry.1).search text = true →
      (ref.date.addDays entry.2).isSome := by
  induction table generalizing replacements with
  | nil => simp
  | cons entry table ih =>
      obtain ⟨name, offset⟩ := entry
      rw [List.map_cons, List.nodup_cons] at hnames
      rw [List.map_cons] at hfresh
      have hlater : ∀ r ∈ replacements, r.pattern ∉ table.map Prod.fst := fun r hr hmem =>
        hfresh r hr (List.mem_cons_of_mem _ hmem)
      have hnew := not_any_pattern fun r hr heq => hfresh r hr (heq ▸ List.mem_cons_self)
      rw [addOffsets, hnew, Bool.not_false, Bool.and_true] at h
      cases hsearch : (expression classes name).search text with
      | false =>
          rw [hsearch, if_neg Bool.false_ne_true] at h
          refine List.forall_mem_cons.mpr ⟨fun hfound => ?_, ih hnames.2 hlater h⟩
          exact absurd (hsearch.symm.trans hfound) Bool.false_ne_true
      | true =>
          rw [hsearch, if_pos rfl] at h
          cases htarget : ref.date.addDays offset with
          | none =>
              rw [htarget] at h
              cases h
          | some target =>
              rw [htarget] at h
              refine List.forall_mem_cons.mpr ⟨fun _ => by rw [htarget]; rfl,
                ih hnames.2 (fun r hr => ?_) h⟩
              rcases List.mem_append.mp hr with hr | hr
              · exact hlater r hr
              · rw [List.mem_singleton.mp hr]
                exact hnames.1

end

/-! ## One pass over a text -/

section

variable {classes : CharClasses} (hclasses : ReadsAscii classes)

include hclasses

theorem offsetVocabulary : Vocabulary classes.isWord classes.sameLetter
    ((textReplacements.map Prod.fst).map (·.toList)) :=
  vocabulary_of_chars hclasses isVocabulary_tables.1

theorem isPhrase_of_name {name : String} (hname : name ∈ offsetNames) :
    IsPhrase classes.isWord classes.sameLetter name.toList :=
  (offsetVocabulary hclasses).isPhrase _ (List.mem_map_of_mem hname)

theorem neutral_offsetText {name : String} (hname : name ∈ offsetNames) (offset : Int)
    (target : CalendarDate) :
    Neutral classes.sameLetter (spaced classes.isWord name.toList)
      (spaced classes.isWord (offsetText offset target)).words := by
  intro u hu x hx
  have hcheck := List.all_eq_true.mp words_offsetNames name hname
  obtain ⟨hplain, hwords⟩ := Bool.and_eq_true_iff.mp hcheck
  rw [spaced_of_plain hclasses hplain] at hu
  have hreserved := List.contains_iff_mem.mp (List.all_eq_true.mp hwords u hu)
  exact not_spells_of_isDateWord hclasses hreserved (words_offsetText hclasses _ _ x hx)

/-- A pass takes away one occurrence of each expression that it replaces. -/
theorem count_replaceEach {ref : SessionTime} {replacements : List Replacement}
    {text : List Char}
    (hoffsets : ∀ r ∈ replacements, IsOffset classes ref r)
    (hnodup : (replacements.map (·.pattern)).Nodup) {name : String}
    (hname : name ∈ offsetNames) :
    (expression classes name).count (replaceEach text replacements) =
      (expression classes name).count text -
        if name ∈ replacements.map (·.pattern) then 1 else 0 := by
  induction replacements generalizing text with
  | nil => rfl
  | cons r replacements ih =>
      obtain ⟨⟨offset, target, hentry, -, hregex, htext⟩, hoffsets⟩ :=
        List.forall_mem_cons.mp hoffsets
      have hr : r.pattern ∈ offsetNames := List.mem_map.mpr ⟨_, hentry, rfl⟩
      rw [List.map_cons, List.nodup_cons] at hnodup
      have hneutral := neutral_offsetText hclasses hname offset target
      have hstep := (offsetVocabulary hclasses).count_replaceFirst (List.mem_map_of_mem hr)
        (List.mem_map_of_mem hname) text hneutral
      have hinjective : name.toList = r.pattern.toList ↔ name = r.pattern := String.toList_inj
      change (expression classes name).count (replaceEach (r.regex.replaceFirst r.text text)
        replacements) = _
      rw [ih hoffsets hnodup.2, hregex, htext]
      simp only [expression, List.map_cons, List.mem_cons]
      by_cases heq : name = r.pattern
      · subst heq
        rw [if_pos rfl] at hstep
        rw [if_neg hnodup.1, if_pos (Or.inl rfl), Nat.sub_zero]
        split_ifs at hstep <;> omega
      · rw [if_neg (hinjective.not.mpr heq), ite_self, Nat.add_zero] at hstep
        simp only [heq, false_or]
        rw [hstep]

theorem onlyOffsets_replaceEach {ref : SessionTime} {replacements : List Replacement}
    {text : List Char}
    (hoffsets : ∀ r ∈ replacements, IsOffset classes ref r) (honly : OnlyOffsets classes text) :
    OnlyOffsets classes (replaceEach text replacements) := by
  induction replacements generalizing text with
  | nil => exact honly
  | cons r replacements ih =>
      obtain ⟨⟨offset, target, hentry, -, hregex, htext⟩, hoffsets⟩ :=
        List.forall_mem_cons.mp hoffsets
      have hr : r.pattern ∈ offsetNames := List.mem_map.mpr ⟨_, hentry, rfl⟩
      refine ih hoffsets fun x hx u hu => ?_
      dsimp only at hx
      rw [hregex, htext, expression, spaced_replaceFirst (isPhrase_of_name hclasses hr)] at hx
      rcases words_replaceParts hx with hold | hnew
      · exact honly x hold u hu
      · exact not_spells_of_isDateWord hclasses
          (List.mem_map_of_mem (List.mem_append_right _ hu)) (words_offsetText hclasses _ _ x hnew)

theorem not_found_of_empty (name : String) (hname : name ∈ offsetNames) :
    (expression classes name).search [] = false :=
  Bool.eq_false_iff.mpr fun h =>
    not_foundIn_nil (isPhrase_of_name hclasses hname) (Regex.search_iff.mp h)

theorem dayReplacements_eq_nil {dateparser : String → SessionTime → Option CalendarDate}
    {ref : SessionTime} {text : List Char} (honly : OnlyOffsets classes text) :
    dayReplacements classes dateparser ref text = [] := by
  refine List.filterMap_eq_nil_iff.mpr fun day hday => ?_
  rw [lastDay_not_found hclasses honly hday, if_neg Bool.false_ne_true]

/-- Without other expressions only the offsets count. -/
theorem normalizeFactText_eq {dateparser : String → SessionTime → Option CalendarDate}
    {ref : SessionTime} {text session : String} (honly : OnlyOffsets classes text.toList)
    (hsession : parseSessionDate classes session = some ref) :
    normalizeFactText classes dateparser text session =
      (addOffsets classes ref text.toList textReplacements []).map fun replacements =>
        String.ofList (replaceEach text.toList replacements) := by
  have hne : session ≠ "" := by
    rintro rfl
    cases hsession
  unfold normalizeFactText
  by_cases htext : text = ""
  · subst htext
    rw [if_pos (.inl rfl)]
    change _ = (addOffsets classes ref [] textReplacements []).map _
    rw [addOffsets_of_not_found fun name hname => not_found_of_empty hclasses name hname]
    rfl
  · rw [if_neg (not_or.mpr ⟨htext, hne⟩), hsession]
    dsimp only
    rw [vagueTerm_not_found hclasses honly, if_neg Bool.false_ne_true,
      dayReplacements_eq_nil hclasses honly]

end

/-! ## Texts after one pass -/

section

variable (classes : CharClasses) (dateparser : String → SessionTime → Option CalendarDate)

/-- No relative date is left, and another pass at another session changes nothing. -/
def LeavesNothing (text session : String) : Prop :=
  ∃ result, normalizeFactText classes dateparser text session = some result ∧
    (∀ name ∈ relativeExpressions, ¬ (expression classes name).FoundIn result.toList) ∧
    ∀ later, normalizeFactText classes dateparser result later = some result

/-- No relative date is repeated, and there is a day for each one. -/
def ResolvableOnce (ref : SessionTime) (text : List Char) : Prop :=
  ∀ name ∈ relativeExpressions, (expression classes name).count text ≤ 1 ∧
    ((expression classes name).FoundIn text → (ref.date.addDays (offsetOf name)).isSome)

end

theorem offsetNames_cases : ∀ entry ∈ textReplacements,
    entry.1 ∈ relativeExpressions ∧ offsetOf entry.1 = entry.2 ∨
      hasOtherWord entry.1.toList = true :=
  tables_spec.2.2.2.1.1

theorem relativeExpressions_sub : ∀ name ∈ relativeExpressions,
    (name, offsetOf name) ∈ textReplacements :=
  tables_spec.2.2.2.1.2

section

variable {classes : CharClasses} (hclasses : ReadsAscii classes)

include hclasses

theorem normalizeFactText_unchanged
    {dateparser : String → SessionTime → Option CalendarDate} {text : String}
    (honly : OnlyOffsets classes text.toList)
    (hnone : ∀ name ∈ relativeExpressions, ¬ (expression classes name).FoundIn text.toList)
    (session : String) : normalizeFactText classes dateparser text session = some text := by
  cases hsession : parseSessionDate classes session with
  | none =>
      unfold normalizeFactText
      rw [hsession]
      split_ifs <;> rfl
  | some ref =>
      rw [normalizeFactText_eq hclasses honly hsession,
        addOffsets_of_not_found fun name hname => ?_]
      · exact congrArg some String.ofList_toList
      · obtain ⟨entry, hentry, rfl⟩ := List.mem_map.mp hname
        rw [Bool.eq_false_iff, Ne, Regex.search_iff]
        rcases offsetNames_cases entry hentry with ⟨hname, -⟩ | hother
        · exact hnone _ hname
        · exact not_foundIn_of_other hclasses honly hother

theorem leavesNothing_iff {dateparser : String → SessionTime → Option CalendarDate}
    {ref : SessionTime} {text session : String} (honly : OnlyOffsets classes text.toList)
    (hsession : parseSessionDate classes session = some ref) :
    LeavesNothing classes dateparser text session ↔
      ResolvableOnce classes ref text.toList := by
  have hname {name : String} (h : name ∈ relativeExpressions) : name ∈ offsetNames :=
    List.mem_map.mpr ⟨_, relativeExpressions_sub name h, rfl⟩
  have hcount {found : List Replacement} (hpatterns : found.map (·.pattern) =
        offsetNames.filter (fun name => (expression classes name).search text.toList))
      (hoffsets : ∀ r ∈ found, IsOffset classes ref r) {name : String}
      (h : name ∈ relativeExpressions) :
      (expression classes name).count (replaceEach text.toList found) =
        (expression classes name).count text.toList - 1 := by
    rw [count_replaceEach hclasses hoffsets (hpatterns ▸ nodup_offsetNames.filter _) (hname h),
      hpatterns]
    split_ifs with hmem
    · rfl
    · have hnot : ¬ (expression classes name).search text.toList = true := fun hfound =>
        hmem (List.mem_filter.mpr ⟨hname h, hfound⟩)
      have hzero : ¬ 0 < (expression classes name).count text.toList := fun hpos =>
        hnot (decide_eq_true hpos)
      omega
  constructor
  · rintro ⟨result, hresult, hnone, -⟩ name hmem
    rw [normalizeFactText_eq hclasses honly hsession] at hresult
    obtain ⟨found, hadded, rfl⟩ := Option.map_eq_some_iff.mp hresult
    have hrange := inRange_of_addOffsets nodup_offsetNames (by simp) hadded
    obtain ⟨found', hadded', hpatterns, hoffsets⟩ := exists_addOffsets hrange
    obtain rfl := Option.some.inj (hadded.symm.trans hadded')
    refine ⟨?_, fun hfound => hrange _ (relativeExpressions_sub name hmem)
      (Regex.search_iff.mpr hfound)⟩
    have hleft := hnone name hmem
    rw [String.toList_ofList, ← Regex.count_pos_iff, hcount hpatterns hoffsets hmem] at hleft
    omega
  · intro h
    have hrange : ∀ entry ∈ textReplacements,
        (expression classes entry.1).search text.toList = true →
          (ref.date.addDays entry.2).isSome := by
      intro entry hentry hfound
      rw [Regex.search_iff] at hfound
      rcases offsetNames_cases entry hentry with ⟨hmem, hoffset⟩ | hother
      · exact hoffset ▸ (h _ hmem).2 hfound
      · exact absurd hfound (not_foundIn_of_other hclasses honly hother)
    obtain ⟨found, hadded, hpatterns, hoffsets⟩ := exists_addOffsets hrange
    have hnone : ∀ name ∈ relativeExpressions, ¬ (expression classes name).FoundIn
        (String.ofList (replaceEach text.toList found)).toList := by
      intro name hmem
      rw [String.toList_ofList, ← Regex.count_pos_iff, hcount hpatterns hoffsets hmem]
      have hle := (h name hmem).1
      omega
    refine ⟨_, ?_, hnone, normalizeFactText_unchanged hclasses ?_ hnone⟩
    · rw [normalizeFactText_eq hclasses honly hsession, hadded]
      rfl
    · rw [String.toList_ofList]
      exact onlyOffsets_replaceEach hclasses hoffsets honly

end

/-! ## Months and years -/

theorem isoText_injective {date date' : CalendarDate} (h : isoText date = isoText date') :
    date = date' := by
  obtain ⟨⟨-, hyear⟩, ⟨-, hmonth⟩, -, hday⟩ := date.valid
  obtain ⟨⟨-, hyear'⟩, ⟨-, hmonth'⟩, -, hday'⟩ := date'.valid
  have hdays := (daysInMonth_le date.year date.month).2
  have hdays' := (daysInMonth_le date'.year date'.month).2
  unfold isoText yearNumber at h
  have hread := congrArg (readDigits 4) h
  rw [readDigits_of_lt (by omega), readDigits_of_lt (by omega), Option.some_inj,
    Prod.mk.injEq, List.cons_inj_right] at hread
  have hrest := congrArg (readDigits 2) hread.2
  rw [readDigits_of_lt (by omega), readDigits_of_lt (by omega), Option.some_inj,
    Prod.mk.injEq, List.cons_inj_right] at hrest
  have hlast := congrArg (readDigits 2) hrest.2
  rw [← List.append_nil (digits 2 date.day), ← List.append_nil (digits 2 date'.day),
    readDigits_of_lt (by omega), readDigits_of_lt (by omega), Option.some_inj,
    Prod.mk.injEq] at hlast
  obtain ⟨year, month, day, hvalid⟩ := date
  obtain ⟨year', month', day', hvalid'⟩ := date'
  obtain rfl : year = year' := hread.1
  obtain rfl : month = month' := hrest.1
  obtain rfl : day = day' := hlast.1
  rfl

section

variable (classes : CharClasses) (dateparser : String → SessionTime → Option CalendarDate)
  (session : String) (ref : SessionTime)

/-- Both ways resolve the expression to one right day. -/
def ResolvesTo (name : String) (render : CalendarDate → List Char)
    (right : CalendarDate → Prop) : Prop :=
  ∃ target, right target ∧
    normalizeFactText classes dateparser name session =
      some (String.ofList ('i' :: 'n' :: ' ' :: render target)) ∧
    tryRegexFallback classes name ref = some (some (String.ofList (isoText target)))

/-- The months and years around the session are those of the calendar. -/
structure ResolvesCalendar : Prop where
  lastMonth : ResolvesTo classes dateparser session ref "last month" monthText
    fun target => target.IsNextMonth ref.date
  nextMonth : ResolvesTo classes dateparser session ref "next month" monthText
    fun target => ref.date.IsNextMonth target
  lastYear : ResolvesTo classes dateparser session ref "last year" yearNumber
    fun target => target.year + 1 = ref.date.year
  nextYear : ResolvesTo classes dateparser session ref "next year" yearNumber
    fun target => target.year = ref.date.year + 1

end

/-- The days from which 30 and 365 days lead to the months and years around them. -/
structure OffsetsMatch (d : CalendarDate) : Prop where
  lastMonth : (d.month = 1 → 1 < d.year) ∧ d.day ≤ 30 ∧ 30 < d.day + d.daysInPreviousMonth
  nextMonth : (d.month = 12 → d.year < 9999) ∧ daysInMonth d.year d.month < d.day + 30 ∧
    d.day + 30 ≤ daysInMonth d.year d.month + d.daysInNextMonth
  lastYear : 1 < d.year ∧ ¬ (IsLeapYear d.year ∧ d.month = 12 ∧ d.day = 31)
  nextYear : d.year < 9999 ∧ ¬ (IsLeapYear d.year ∧ d.month = 1 ∧ d.day = 1)

/-- An expression on its own, with its offset in both tables. -/
structure StandsAlone (name : String) : Prop where
  offset : (name, offsetOf name) ∈ textReplacements
  fallback : simpleOffsets.find? (·.1 = name) = some (name, offsetOf name)
  lower : name.toLower = name
  only : otherWords.all (fun u => (spaced asciiClasses.isWord name.toList).words.all fun x =>
    !spells asciiClasses.sameLetter u.toList x) = true

theorem standsAlone {name : String} (h : name ∈ calendarNames) : StandsAlone name := by
  obtain ⟨hoffset, hfallback, hlower, honly⟩ := tables_spec.2.2.2.2.1 name h
  exact ⟨hoffset, hfallback, hlower, honly⟩

theorem standsAlone_lastMonth : StandsAlone "last month" := standsAlone (by simp [calendarNames])

theorem standsAlone_nextMonth : StandsAlone "next month" := standsAlone (by simp [calendarNames])

theorem standsAlone_lastYear : StandsAlone "last year" := standsAlone (by simp [calendarNames])

theorem standsAlone_nextYear : StandsAlone "next year" := standsAlone (by simp [calendarNames])

theorem offsets : offsetOf "last month" = -30 ∧ offsetOf "next month" = 30 ∧
    offsetOf "last year" = -365 ∧ offsetOf "next year" = 365 :=
  tables_spec.2.2.2.2.2

section

variable {classes : CharClasses} (hclasses : ReadsAscii classes)

include hclasses

theorem onlyOffsets_alone {name : String} (halone : StandsAlone name) :
    OnlyOffsets classes name.toList := by
  have hplain := (Bool.and_eq_true_iff.mp (List.all_eq_true.mp words_offsetNames name
    (List.mem_map.mpr ⟨_, halone.offset, rfl⟩))).1
  have hascii {w : List Char} (hw : w.all isPlain = true) : ∀ c ∈ w, c.toNat < 128 := by
    intro c hc
    have hc := List.all_eq_true.mp hw c hc
    simp only [isPlain, Bool.and_eq_true, decide_eq_true_eq] at hc
    exact hc.1
  intro x hx u hu
  have hother := Bool.and_eq_true_iff.mp (List.all_eq_true.mp reservedWords_plain u.toList
    (List.mem_map_of_mem (List.mem_append_right _ hu)))
  rw [spaced_of_plain hclasses hplain] at hx
  rw [spells_ascii hclasses (hascii hother.1) fun c hc =>
    hascii hplain c (letters_of_words hx c hc)]
  simpa using List.all_eq_true.mp (List.all_eq_true.mp halone.only u hu) x hx

theorem search_alone {name other : String} (hname : name ∈ offsetNames)
    (hother : other ∈ offsetNames) :
    (expression classes other).search name.toList = decide (other = name) := by
  unfold Regex.search expression
  rw [(offsetVocabulary hclasses).count_self (List.mem_map_of_mem hname)
    (List.mem_map_of_mem hother)]
  refine decide_eq_decide.mpr ?_
  rw [← String.toList_inj]
  split_ifs with heq
  · exact iff_of_true Nat.one_pos heq
  · exact iff_of_false (Nat.lt_irrefl 0) heq

theorem normalizeFactText_alone {dateparser : String → SessionTime → Option CalendarDate}
    {ref : SessionTime} {session name : String}
    (hsession : parseSessionDate classes session = some ref) (halone : StandsAlone name) :
    normalizeFactText classes dateparser name session =
      (ref.date.addDays (offsetOf name)).map fun target =>
        String.ofList (offsetText (offsetOf name) target) := by
  have hname : name ∈ offsetNames := List.mem_map.mpr ⟨_, halone.offset, rfl⟩
  have hunique {offset : Int} (h : (name, offset) ∈ textReplacements) :
      offset = offsetOf name :=
    congrArg Prod.snd (List.inj_on_of_nodup_map nodup_offsetNames h halone.offset rfl)
  rw [normalizeFactText_eq hclasses (onlyOffsets_alone hclasses halone) hsession]
  cases htarget : ref.date.addDays (offsetOf name) with
  | none =>
      refine Option.map_eq_none_iff.mpr (Option.eq_none_iff_forall_ne_some.mpr fun found h => ?_)
      have hrange := inRange_of_addOffsets nodup_offsetNames (by simp) h _ halone.offset
        ((search_alone hclasses hname hname).trans (decide_eq_true rfl))
      rw [htarget] at hrange
      cases hrange
  | some target =>
      have hrange : ∀ entry ∈ textReplacements,
          (expression classes entry.1).search name.toList = true →
            (ref.date.addDays entry.2).isSome := by
        rintro ⟨other, offset⟩ hentry hfound
        rw [search_alone hclasses hname (List.mem_map.mpr ⟨_, hentry, rfl⟩),
          decide_eq_true_eq] at hfound
        obtain rfl : other = name := hfound
        rw [hunique hentry, htarget]
        rfl
      obtain ⟨found, hadded, hpatterns, hoffsets⟩ := exists_addOffsets hrange
      have hself : offsetNames.filter (fun other =>
          (expression classes other).search name.toList) = [name] := by
        rw [List.filter_congr fun other hother => search_alone hclasses hname hother]
        have hnodup : (offsetNames.map id).Nodup := by rw [List.map_id]; exact nodup_offsetNames
        exact filter_key_eq_singleton hnodup hname
      rw [hself] at hpatterns
      obtain ⟨r, rfl, hr⟩ := List.map_eq_singleton_iff.mp hpatterns
      obtain ⟨offset, target', hentry, htarget', hregex, htext⟩ :=
        hoffsets r (List.mem_singleton_self r)
      rw [hr] at hentry hregex
      obtain rfl := hunique hentry
      obtain rfl := Option.some.inj (htarget.symm.trans htarget')
      rw [hadded, Option.map_some, Option.map_some]
      change some (String.ofList (r.regex.replaceFirst r.text name.toList)) = _
      rw [hregex, htext, expression,
        (offsetVocabulary hclasses).replaceFirst_self (List.mem_map_of_mem hname)]

theorem tryRegexFallback_alone {ref : SessionTime} {name : String}
    (halone : StandsAlone name) :
    tryRegexFallback classes name ref =
      (ref.date.addDays (offsetOf name)).map fun target =>
        some (String.ofList (isoText target)) := by
  have hmem : name ∈ simpleOffsets.map Prod.fst :=
    List.mem_map.mpr ⟨_, List.mem_of_find?_eq_some halone.fallback, rfl⟩
  have hlower : classes.lower name = name := by
    rw [hclasses.lower name, halone.lower]
    refine List.all_eq_true.mpr fun c hc => ?_
    have hplain := (Bool.and_eq_true_iff.mp (List.all_eq_true.mp words_offsetNames name
      (List.mem_map.mpr ⟨_, halone.offset, rfl⟩))).1
    exact (Bool.and_eq_true_iff.mp (List.all_eq_true.mp hplain c hc)).1
  have hsearch : ∀ entry ∈ simpleOffsets,
      (phrase classes.isWord (fun c d => decide (c = d)) entry.1.toList).search name.toList =
        decide (entry.1 = name) := by
    intro entry hentry
    unfold Regex.search
    rw [(exact_vocabulary_of_chars hclasses isVocabulary_tables.2).count_self
      (List.mem_map_of_mem hmem) (List.mem_map_of_mem (List.mem_map_of_mem hentry))]
    refine decide_eq_decide.mpr ?_
    rw [← String.toList_inj]
    split_ifs with heq
    · exact iff_of_true Nat.one_pos heq
    · exact iff_of_false (Nat.lt_irrefl 0) heq
  unfold tryRegexFallback
  rw [hlower]
  dsimp only
  rw [(List.find?_congr hsearch).trans halone.fallback]

theorem resolvesTo_iff {dateparser : String → SessionTime → Option CalendarDate}
    {ref : SessionTime} {session name : String} {render : CalendarDate → List Char}
    {right : CalendarDate → Prop}
    (hsession : parseSessionDate classes session = some ref) (halone : StandsAlone name)
    (hrender : ∀ target, offsetText (offsetOf name) target =
      'i' :: 'n' :: ' ' :: render target) :
    ResolvesTo classes dateparser session ref name render right ↔
      ∃ target, ref.date.addDays (offsetOf name) = some target ∧ right target := by
  unfold ResolvesTo
  rw [normalizeFactText_alone hclasses hsession halone, tryRegexFallback_alone hclasses halone]
  constructor
  · rintro ⟨target, hright, -, hfallback⟩
    obtain ⟨found, hfound, heq⟩ := Option.map_eq_some_iff.mp hfallback
    have hsame := isoText_injective (String.ofList_inj.mp (Option.some.inj heq))
    exact ⟨target, hsame ▸ hfound, hright⟩
  · rintro ⟨target, htarget, hright⟩
    refine ⟨target, hright, ?_, ?_⟩
    · rw [htarget, Option.map_some, hrender]
    · rw [htarget, Option.map_some]

theorem resolvesCalendar_iff {dateparser : String → SessionTime → Option CalendarDate}
    {ref : SessionTime} {session : String}
    (hsession : parseSessionDate classes session = some ref) :
    ResolvesCalendar classes dateparser session ref ↔ OffsetsMatch ref.date := by
  have hresolves {name : String} {offset : Int} {render : CalendarDate → List Char}
      (right : CalendarDate → Prop) (halone : StandsAlone name)
      (hoffset : offsetOf name = offset) (hrender : ∀ target,
        offsetText offset target = 'i' :: 'n' :: ' ' :: render target) :
      ResolvesTo classes dateparser session ref name render right ↔
        ∃ target, ref.date.addDays offset = some target ∧ right target := by
    subst hoffset
    exact resolvesTo_iff hclasses hsession halone hrender
  have hlastMonth := hresolves (fun target => target.IsNextMonth ref.date) standsAlone_lastMonth
    offsets.1 fun _ => rfl
  have hnextMonth := hresolves (fun target => ref.date.IsNextMonth target) standsAlone_nextMonth
    offsets.2.1 fun _ => rfl
  have hlastYear := hresolves (fun target => target.year + 1 = ref.date.year)
    standsAlone_lastYear offsets.2.2.1 fun _ => rfl
  have hnextYear := hresolves (fun target => target.year = ref.date.year + 1)
    standsAlone_nextYear offsets.2.2.2 fun _ => rfl
  rw [CalendarDate.addDays_previous_year_iff] at hlastYear
  rw [CalendarDate.addDays_next_year_iff] at hnextYear
  have hprevious := CalendarDate.addDays_previous_month_iff (d := ref.date) 30
  have hnext := CalendarDate.addDays_next_month_iff (d := ref.date) 30
  constructor
  · rintro ⟨hlast, hnextm, hlasty, hnexty⟩
    exact ⟨hprevious.mp (hlastMonth.mp hlast), hnext.mp (hnextMonth.mp hnextm),
      hlastYear.mp hlasty, hnextYear.mp hnexty⟩
  · rintro ⟨hlast, hnextm, hlasty, hnexty⟩
    exact ⟨hlastMonth.mpr (hprevious.mpr hlast), hnextMonth.mpr (hnext.mpr hnextm),
      hlastYear.mpr hlasty, hnextYear.mpr hnexty⟩

/-- Months and years are those of the calendar just when their offsets match, and a text
is free of relative dates just when none is repeated. -/
theorem relative_dates_resolved_iff
    {dateparser : String → SessionTime → Option CalendarDate} {ref : SessionTime}
    {session text : String} (hsession : parseSessionDate classes session = some ref)
    (honly : OnlyOffsets classes text.toList) :
    (ResolvesCalendar classes dateparser session ref ↔ OffsetsMatch ref.date) ∧
      (LeavesNothing classes dateparser text session ↔
        ResolvableOnce classes ref text.toList) :=
  ⟨resolvesCalendar_iff hclasses hsession, leavesNothing_iff hclasses honly hsession⟩

end

/-- In the middle of a month the offsets match, and these expressions are not repeated. -/
theorem relative_dates_of_may :
    ResolvesCalendar asciiClasses (fun _ _ => none) "15 May, 2023"
        ⟨⟨2023, 5, 15, by decide⟩, 0, 0, 0⟩ ∧
      LeavesNothing asciiClasses (fun _ _ => none) "Last month, next year" "15 May, 2023" := by
  have hsession : parseSessionDate asciiClasses "15 May, 2023" =
      some ⟨⟨2023, 5, 15, by decide⟩, 0, 0, 0⟩ := by decide +kernel
  have hmade : MadeOfExpressions asciiClasses "Last month, next year".toList := by
    unfold MadeOfExpressions
    decide +kernel
  obtain ⟨hcalendar, htext⟩ := relative_dates_resolved_iff readsAscii hsession
    (onlyOffsets_of_madeOf readsAscii hmade)
  refine ⟨hcalendar.mpr ⟨by decide, by decide, by decide, by decide⟩, htext.mpr ?_⟩
  unfold ResolvableOnce
  decide +kernel

/-- 30 days before the end of March is March, and the second of two equal expressions
stays. -/
theorem march_and_repetition :
    ∃ ref, parseSessionDate asciiClasses "31 March, 2023" = some ref ∧
      ¬ ResolvesCalendar asciiClasses (fun _ _ => none) "31 March, 2023" ref ∧
      MadeOfExpressions asciiClasses "yesterday, yesterday".toList ∧
      ¬ LeavesNothing asciiClasses (fun _ _ => none) "yesterday, yesterday"
        "31 March, 2023" := by
  have hsession : parseSessionDate asciiClasses "31 March, 2023" =
      some ⟨⟨2023, 3, 31, by decide⟩, 0, 0, 0⟩ := by decide +kernel
  have hmade : MadeOfExpressions asciiClasses "yesterday, yesterday".toList := by
    unfold MadeOfExpressions
    decide +kernel
  refine ⟨_, hsession, fun h => ?_, hmade, fun h => ?_⟩
  · have hday := ((resolvesCalendar_iff readsAscii hsession).mp h).lastMonth.2.1
    exact absurd hday (by decide)
  · have honce := (leavesNothing_iff readsAscii (onlyOffsets_of_madeOf readsAscii hmade)
      hsession).mp h "yesterday" (by decide)
    exact absurd honce.1 (by decide +kernel)

end DateResolver

end VirtualContext
