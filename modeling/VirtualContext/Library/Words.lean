import Mathlib.Data.List.Flatten
import VirtualContext.Library.Trimming

/-!
# Words

The parts of a text between separators.  Separators around a text do not matter,
and texts that are joined with separators keep their words.
-/

namespace VirtualContext.Library

variable {α : Type}

/-! ## Words -/

section

variable (p : α → Bool)

/-- The longest parts without a separator. -/
def words (text : List α) : List (List α) := (text.splitOnP p).filter (!·.isEmpty)

@[simp] theorem words_nil : words p [] = [] := rfl

variable {p} {s : α} {sep text : List α}

theorem words_append_cons (hs : p s = true) (xs ys : List α) :
    words p (xs ++ s :: ys) = words p xs ++ words p ys := by
  rw [words, List.splitOnP_append_cons _ _ hs, List.filter_append]
  rfl

theorem words_cons_of_sep (hs : p s = true) (xs : List α) : words p (s :: xs) = words p xs :=
  words_append_cons hs [] xs

theorem words_sep_append (hsep : ∀ s ∈ sep, p s = true) (xs : List α) :
    words p (sep ++ xs) = words p xs := by
  induction sep with
  | nil => rfl
  | cons s sep ih =>
      obtain ⟨hs, hsep⟩ := List.forall_mem_cons.mp hsep
      rw [List.cons_append, words_cons_of_sep hs, ih hsep]

theorem words_append_sep (hne : sep ≠ []) (hsep : ∀ s ∈ sep, p s = true) (xs ys : List α) :
    words p (xs ++ sep ++ ys) = words p xs ++ words p ys := by
  cases sep with
  | nil => exact absurd rfl hne
  | cons s sep =>
      obtain ⟨hs, hsep⟩ := List.forall_mem_cons.mp hsep
      rw [List.append_assoc, List.cons_append, words_append_cons hs, words_sep_append hsep]

theorem words_append_seps (hsep : ∀ s ∈ sep, p s = true) (xs : List α) :
    words p (xs ++ sep) = words p xs := by
  cases sep with
  | nil => rw [List.append_nil]
  | cons s sep =>
      have h := words_append_sep (List.cons_ne_nil s sep) hsep xs []
      rwa [List.append_nil, words_nil, List.append_nil] at h

theorem words_dropWhile (xs : List α) : words p (xs.dropWhile p) = words p xs := by
  conv_rhs => rw [← List.takeWhile_append_dropWhile (p := p) (l := xs)]
  exact (words_sep_append (fun s hs => List.mem_takeWhile_imp hs) _).symm

theorem words_trim (xs : List α) : words p (trim p xs) = words p xs := by
  have hsplit := List.takeWhile_append_dropWhile (p := p) (l := (xs.dropWhile p).reverse)
  have hfront : xs.dropWhile p = trim p xs ++
      ((xs.dropWhile p).reverse.takeWhile p).reverse := by
    rw [trim, ← List.reverse_append, hsplit, List.reverse_reverse]
  have hblank : ∀ s ∈ ((xs.dropWhile p).reverse.takeWhile p).reverse, p s = true :=
    fun s hs => List.mem_takeWhile_imp (List.mem_reverse.mp hs)
  calc words p (trim p xs) = words p (xs.dropWhile p) := by
        conv_rhs => rw [hfront]
        exact (words_append_seps hblank _).symm
    _ = words p xs := words_dropWhile xs

/-- Words are not empty and hold no separator. -/
theorem mem_words {word : List α} (h : word ∈ words p text) :
    word ≠ [] ∧ ∀ c ∈ word, p c = false := by
  obtain ⟨hmem, hne⟩ := List.mem_filter.mp h
  refine ⟨by simpa using hne, ?_⟩
  clear h hne
  induction text generalizing word with
  | nil => simp [List.mem_singleton.mp hmem]
  | cons c text ih =>
      rw [List.splitOnP_cons_eq_if_modifyHead] at hmem
      split_ifs at hmem with hc
      · rcases List.mem_cons.mp hmem with rfl | hmem
        · simp
        · exact ih hmem
      · obtain ⟨first, rest, hparts⟩ := List.exists_cons_of_ne_nil (List.splitOnP_ne_nil p text)
        rw [hparts, List.modifyHead_cons] at hmem
        rcases List.mem_cons.mp hmem with rfl | hmem
        · refine List.forall_mem_cons.mpr ⟨by simpa using hc, ih ?_⟩
          rw [hparts]
          exact List.mem_cons_self
        · exact ih (hparts ▸ List.mem_cons_of_mem _ hmem)

theorem words_of_word {word : List α} (hne : word ≠ []) (hword : ∀ c ∈ word, p c = false) :
    words p word = [word] := by
  rw [words, List.splitOnP_eq_singleton hword]
  simp [hne]

theorem words_intercalate (hne : sep ≠ []) (hsep : ∀ s ∈ sep, p s = true)
    (parts : List (List α)) : words p (sep.intercalate parts) = parts.flatMap (words p) := by
  induction parts with
  | nil => rfl
  | cons part parts ih =>
      cases parts with
      | nil => simp [List.intercalate]
      | cons next parts =>
          have hcons : sep.intercalate (part :: next :: parts) =
              part ++ sep ++ sep.intercalate (next :: parts) := by
            simp [List.intercalate]
          rw [hcons, words_append_sep hne hsep, ih]
          rfl

theorem intercalate_concat {parts : List (List α)} (hparts : parts ≠ []) (part : List α) :
    sep.intercalate (parts ++ [part]) = sep.intercalate parts ++ sep ++ part := by
  induction parts with
  | nil => exact absurd rfl hparts
  | cons first parts ih =>
      cases parts with
      | nil => simp [List.intercalate]
      | cons second parts =>
          have hrest := ih (List.cons_ne_nil _ _)
          simp only [List.intercalate, List.cons_append, List.intersperse_cons_cons,
            List.flatten_cons] at hrest ⊢
          rw [hrest]
          simp

/-- Words that are joined with separators are found again. -/
theorem words_intercalate_words (hne : sep ≠ []) (hsep : ∀ s ∈ sep, p s = true)
    {parts : List (List α)} (hparts : ∀ word ∈ parts, word ≠ [] ∧ ∀ c ∈ word, p c = false) :
    words p (sep.intercalate parts) = parts := by
  rw [words_intercalate hne hsep]
  induction parts with
  | nil => rfl
  | cons word parts ih =>
      obtain ⟨⟨hword, hclean⟩, hparts⟩ := List.forall_mem_cons.mp hparts
      rw [List.flatMap_cons, words_of_word hword hclean, ih hparts, List.singleton_append]

end

/-! ## Splitting at a separator -/

variable [DecidableEq α]

/-- The parts between the separators, which are found from the left. -/
def splitSeparatorFrom (sep : List α) : (fuel : Nat) → List α → List (List α)
  | 0, text => [text]
  | _, [] => [[]]
  | fuel + 1, c :: text =>
      if sep.isPrefixOf (c :: text) then
        [] :: splitSeparatorFrom sep fuel ((c :: text).drop sep.length)
      else (splitSeparatorFrom sep fuel text).modifyHead (c :: ·)

def splitSeparator (sep text : List α) : List (List α) :=
  splitSeparatorFrom sep text.length text

theorem splitSeparatorFrom_ne_nil (sep : List α) (fuel : Nat) (text : List α) :
    splitSeparatorFrom sep fuel text ≠ [] := by
  induction fuel generalizing text with
  | zero => exact List.cons_ne_nil _ _
  | succ fuel ih =>
      cases text with
      | nil => exact List.cons_ne_nil _ _
      | cons c text =>
          rw [splitSeparatorFrom]
          split_ifs
          · exact List.cons_ne_nil _ _
          · obtain ⟨first, rest, hparts⟩ := List.exists_cons_of_ne_nil (ih text)
            rw [hparts]
            exact List.cons_ne_nil _ _

/-- The parts with the separator between them are the text. -/
theorem intercalate_splitSeparatorFrom (sep : List α) (fuel : Nat) (text : List α) :
    sep.intercalate (splitSeparatorFrom sep fuel text) = text := by
  induction fuel generalizing text with
  | zero => simp [splitSeparatorFrom, List.intercalate]
  | succ fuel ih =>
      cases text with
      | nil => simp [splitSeparatorFrom, List.intercalate]
      | cons c text =>
          rw [splitSeparatorFrom]
          split_ifs with hsep
          · obtain ⟨rest, hrest⟩ := List.isPrefixOf_iff_prefix.mp hsep
            rw [← hrest, List.drop_left]
            have hparts := ih rest
            obtain ⟨first, others, heq⟩ :=
              List.exists_cons_of_ne_nil (splitSeparatorFrom_ne_nil sep fuel rest)
            rw [heq] at hparts ⊢
            conv_rhs => rw [← hparts]
            simp [List.intercalate]
          · have hparts := ih text
            obtain ⟨first, others, heq⟩ :=
              List.exists_cons_of_ne_nil (splitSeparatorFrom_ne_nil sep fuel text)
            rw [heq] at hparts ⊢
            conv_rhs => rw [← hparts]
            cases others <;> simp [List.intercalate]

theorem intercalate_splitSeparator (sep text : List α) :
    sep.intercalate (splitSeparator sep text) = text :=
  intercalate_splitSeparatorFrom sep _ text

end VirtualContext.Library
