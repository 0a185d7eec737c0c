import VirtualContext.Library.Phrases

/-!
# Phrases that do not overlap

Phrases of a vocabulary never begin inside one another.  So a phrase that is replaced
by other words is found once less, and every other phrase as often as before.
-/

namespace VirtualContext.Library

variable {α : Type}

/-! ## What a replacement does to other phrases -/

section

variable {same : α → α → Bool}

/-- No text spells both. -/
def Apart (same : α → α → Bool) (u v : List α) : Prop :=
  ∀ x, spells same u x = true → spells same v x = true → False

/-- The words spell none of the words of a phrase. -/
def Neutral (same : α → α → Bool) (w : Spaced α) (words : List (List α)) : Prop :=
  ∀ u ∈ w.words, ∀ x ∈ words, spells same u x = false

variable {w v new : Spaced α} {parts : List (α × List α)} {word : List α}

theorem countParts_skip {rest : List (α × List α)}
    (h : ∀ part ∈ parts, spells same w.1 part.2 = false) :
    countParts same w (parts ++ rest) = countParts same w rest := by
  induction parts with
  | nil => rfl
  | cons part parts ih =>
      obtain ⟨hpart, hparts⟩ := List.forall_mem_cons.mp h
      rw [List.cons_append, countParts, ih hparts, fits, hpart, Bool.false_and,
        if_neg Bool.false_ne_true, Nat.zero_add]

theorem fitsParts_take {pattern : List (α × List α)} (h : fitsParts same pattern parts = true) :
    ∀ part ∈ parts.take pattern.length, ∃ q ∈ pattern, spells same q.2 part.2 = true := by
  induction pattern generalizing parts with
  | nil => simp
  | cons q pattern ih =>
      cases parts with
      | nil => cases h
      | cons first parts =>
          simp only [fitsParts, Bool.and_eq_true] at h
          intro part hpart
          rw [List.length_cons, List.take_succ_cons] at hpart
          rcases List.mem_cons.mp hpart with rfl | hpart
          · exact ⟨q, List.mem_cons_self, h.1.2⟩
          · obtain ⟨q', hq', hspells⟩ := ih h.2 part hpart
            exact ⟨q', List.mem_cons_of_mem _ hq', hspells⟩

theorem fitsParts_replaceAfter {pattern : List (α × List α)}
    (hneutral : ∀ q ∈ pattern, spells same q.2 new.1 = false)
    (hinner : ∀ q ∈ pattern, Apart same w.1 q.2) :
    fitsParts same pattern (replaceAfter same w new parts) = fitsParts same pattern parts := by
  induction pattern generalizing parts with
  | nil => rfl
  | cons q pattern ih =>
      obtain ⟨hnew, hneutral⟩ := List.forall_mem_cons.mp hneutral
      obtain ⟨hapart, hinner⟩ := List.forall_mem_cons.mp hinner
      cases parts with
      | nil => rfl
      | cons part parts =>
          rw [replaceAfter]
          cases hfits : fits same w (part.2, parts) with
          | true =>
              have hold : spells same q.2 part.2 = false :=
                Bool.eq_false_iff.mpr fun h =>
                  hapart part.2 (Bool.and_eq_true_iff.mp hfits).1 h
              rw [replaceParts_of_fits hfits]
              simp [fitsParts, hnew, hold]
          | false =>
              rw [replaceParts_of_not_fits hfits]
              simp only [fitsParts]
              rw [ih hneutral hinner]

theorem countSpaced_pos {text : Spaced α} (h : fits same w text = true) :
    0 < countSpaced same w text := by
  rw [countSpaced, if_pos h]
  exact Nat.lt_of_lt_of_le Nat.one_pos (Nat.le_add_right 1 _)

theorem countSpaced_of_not_fits {text : Spaced α} (h : fits same w text = false) :
    countSpaced same w text = countParts same w text.2 := by
  rw [countSpaced, h, if_neg Bool.false_ne_true, Nat.zero_add]

/-- A replacement takes away one occurrence of its phrase and none of another one. -/
theorem countSpaced_replaceParts {taken : Nat}
    (hneutral : Neutral same v new.words)
    (hinner : ∀ q ∈ v.2, Apart same w.1 q.2) (houter : ∀ q ∈ w.2, Apart same v.1 q.2)
    (htaken : ∀ text, fits same w text = true → (if fits same v text then 1 else 0) = taken) :
    countSpaced same v (replaceParts same w new word parts) +
        (if 0 < countSpaced same w (word, parts) then taken else 0) =
      countSpaced same v (word, parts) := by
  -- behind the new words the rest of the text is as it was
  have hfound {word : List α} {parts : List (α × List α)}
      (hfits : fits same w (word, parts) = true) :
      countSpaced same v (replaceParts same w new word parts) + taken =
        countSpaced same v (word, parts) := by
    have hnew : fits same v (new.1, new.2 ++ parts.drop w.2.length) = false := by
      rw [fits, hneutral _ List.mem_cons_self _ List.mem_cons_self, Bool.false_and]
    have hafter : ∀ part ∈ new.2, spells same v.1 part.2 = false := fun part hpart =>
      hneutral _ List.mem_cons_self _ (List.mem_cons_of_mem _ (List.mem_map_of_mem hpart))
    have hinside : ∀ part ∈ parts.take w.2.length, spells same v.1 part.2 = false := by
      intro part hpart
      obtain ⟨q, hq, hspells⟩ := fitsParts_take (Bool.and_eq_true_iff.mp hfits).2 part hpart
      exact Bool.eq_false_iff.mpr fun h => houter q hq part.2 h hspells
    rw [replaceParts_of_fits hfits, countSpaced, hnew, if_neg Bool.false_ne_true, Nat.zero_add,
      countParts_skip hafter, countSpaced, htaken _ hfits, Nat.add_comm]
    conv_rhs => rw [← List.take_append_drop w.2.length parts, countParts_skip hinside]
  have hkept (word : List α) (parts : List (α × List α)) :
      fits same v (word, replaceAfter same w new parts) = fits same v (word, parts) := by
    rw [fits, fits, fitsParts_replaceAfter (fun q hq => ?_) hinner]
    exact hneutral _ (List.mem_cons_of_mem _ (List.mem_map_of_mem hq)) _ List.mem_cons_self
  induction parts generalizing word with
  | nil =>
      cases hfits : fits same w (word, []) with
      | true =>
          rw [if_pos (countSpaced_pos hfits)]
          exact hfound hfits
      | false =>
          rw [replaceParts_of_not_fits hfits, countSpaced_of_not_fits hfits]
          rfl
  | cons part parts ih =>
      cases hfits : fits same w (word, part :: parts) with
      | true =>
          rw [if_pos (countSpaced_pos hfits)]
          exact hfound hfits
      | false =>
          have hlater := @ih part.2
          have hcount : countSpaced same w (word, part :: parts) =
              countSpaced same w (part.2, parts) := countSpaced_of_not_fits hfits
          rw [replaceParts_of_not_fits hfits, hcount, countSpaced, hkept, countSpaced,
            replaceAfter, Nat.add_assoc]
          exact congrArg _ hlater

/-- The words after a replacement. -/
theorem words_replaceParts {x : List α}
    (h : x ∈ (replaceParts same w new word parts).words) :
    x ∈ Spaced.words (word, parts) ∨ x ∈ new.words := by
  induction parts generalizing word with
  | nil =>
      rw [replaceParts] at h
      split_ifs at h
      · exact .inr h
      · exact .inl h
  | cons part parts ih =>
      rw [replaceParts] at h
      split_ifs at h
      · rcases List.mem_cons.mp h with rfl | h
        · exact .inr List.mem_cons_self
        · rw [List.map_append] at h
          rcases List.mem_append.mp h with hnew | hold
          · exact .inr (List.mem_cons_of_mem _ hnew)
          · rw [List.map_drop] at hold
            exact .inl (List.mem_cons_of_mem _ (List.mem_of_mem_drop hold))
      · rcases List.mem_cons.mp h with rfl | h
        · exact .inl List.mem_cons_self
        · rcases ih h with hold | hnew
          · exact .inl (List.mem_cons_of_mem _ hold)
          · exact .inr hnew

end

/-! ## Words that a phrase needs -/

section

variable {p : α → Bool} {same : α → α → Bool} {text : List α}

theorem letters_of_words {x : List α} (h : x ∈ (spaced p text).words) :
    ∀ c ∈ x, c ∈ text := by
  induction text generalizing x with
  | nil =>
      obtain rfl := List.mem_singleton.mp h
      nofun
  | cons b text ih =>
      intro c hc
      cases hb : p b with
      | true =>
          rw [spaced_cons_of_word hb] at h
          rcases List.mem_cons.mp h with rfl | h
          · rcases List.mem_cons.mp hc with rfl | hc
            · exact List.mem_cons_self
            · exact List.mem_cons_of_mem _ (ih List.mem_cons_self c hc)
          · exact List.mem_cons_of_mem _ (ih (List.mem_cons_of_mem _ h) c hc)
      | false =>
          rw [spaced_cons_of_not_word hb] at h
          rcases List.mem_cons.mp h with rfl | h
          · cases hc
          · exact List.mem_cons_of_mem _ (ih h c hc)

theorem fitsParts_words {pattern parts : List (α × List α)}
    (h : fitsParts same pattern parts = true) :
    ∀ q ∈ pattern, ∃ part ∈ parts, spells same q.2 part.2 = true := by
  induction pattern generalizing parts with
  | nil => simp
  | cons q pattern ih =>
      cases parts with
      | nil => cases h
      | cons part parts =>
          simp only [fitsParts, Bool.and_eq_true] at h
          intro q' hq'
          rcases List.mem_cons.mp hq' with rfl | hq'
          · exact ⟨part, List.mem_cons_self, h.1.2⟩
          · obtain ⟨part', hpart', hspells⟩ := ih h.2 q' hq'
            exact ⟨part', List.mem_cons_of_mem _ hpart', hspells⟩

theorem words_of_fits {w s : Spaced α} (h : fits same w s = true) :
    ∀ u ∈ w.words, ∃ x ∈ s.words, spells same u x = true := by
  obtain ⟨hfirst, hparts⟩ := Bool.and_eq_true_iff.mp h
  intro u hu
  rcases List.mem_cons.mp hu with rfl | hu
  · exact ⟨s.1, List.mem_cons_self, hfirst⟩
  · obtain ⟨q, hq, rfl⟩ := List.mem_map.mp hu
    obtain ⟨part, hpart, hspells⟩ := fitsParts_words hparts q hq
    exact ⟨part.2, List.mem_cons_of_mem _ (List.mem_map_of_mem hpart), hspells⟩

theorem words_of_countParts {w : Spaced α} {parts : List (α × List α)}
    (h : 0 < countParts same w parts) :
    ∀ u ∈ w.words, ∃ part ∈ parts, spells same u part.2 = true := by
  induction parts with
  | nil => exact absurd h (Nat.lt_irrefl 0)
  | cons part parts ih =>
      intro u hu
      rw [countParts] at h
      split_ifs at h with hfits
      · obtain ⟨x, hx, hspells⟩ := words_of_fits hfits u hu
        rcases List.mem_cons.mp hx with rfl | hx
        · exact ⟨part, List.mem_cons_self, hspells⟩
        · obtain ⟨part', hpart', rfl⟩ := List.mem_map.mp hx
          exact ⟨part', List.mem_cons_of_mem _ hpart', hspells⟩
      · rw [Nat.zero_add] at h
        obtain ⟨part', hpart', hspells⟩ := ih h u hu
        exact ⟨part', List.mem_cons_of_mem _ hpart', hspells⟩

/-- The words of a phrase are words of a text in which it is found. -/
theorem words_of_foundIn [DecidableEq α] {w : List α} (hw : IsPhrase p same w)
    (h : (phrase p same w).FoundIn text) :
    ∀ u ∈ (spaced p w).words, ∃ x ∈ (spaced p text).words, spells same u x = true := by
  have hcount := Regex.count_pos_iff.mpr h
  rw [count_phrase hw, countSpaced] at hcount
  intro u hu
  split_ifs at hcount with hfits
  · exact words_of_fits hfits u hu
  · rw [Nat.zero_add] at hcount
    obtain ⟨part, hpart, hspells⟩ := words_of_countParts hcount u hu
    exact ⟨part.2, List.mem_cons_of_mem _ (List.mem_map_of_mem hpart), hspells⟩

theorem not_foundIn_nil [DecidableEq α] {w : List α} (hw : IsPhrase p same w) :
    ¬ (phrase p same w).FoundIn [] := by
  intro h
  obtain ⟨x, hx, hspells⟩ := words_of_foundIn hw h _ List.mem_cons_self
  obtain rfl := List.mem_singleton.mp hx
  have hfirst := spaced_fst_eq_nil_iff.mp (spells_nil_right.mp hspells)
  exact Bool.false_ne_true (hfirst.symm.trans hw.first)

end

/-! ## Phrases that do not overlap -/

/-- None of the phrases begins inside one of them. -/
structure Vocabulary (p : α → Bool) (same : α → α → Bool) (table : List (List α)) :
    Prop where
  isPhrase : ∀ w ∈ table, IsPhrase p same w
  refl : ∀ w ∈ table, ∀ a ∈ w, same a a = true
  unique : ∀ w ∈ table, ∀ v ∈ table, ∀ a ∈ w, ∀ b ∈ v, ∀ c,
    same a c = true → same b c = true → a = b
  inner : ∀ w ∈ table, ∀ v ∈ table, ∀ part ∈ (spaced p v).2, (spaced p w).1 ≠ part.2
  lengths : ∀ w ∈ table, ∀ v ∈ table, (spaced p w).1 = (spaced p v).1 →
    (spaced p w).2.length = (spaced p v).2.length

namespace Vocabulary

variable {p : α → Bool} {same : α → α → Bool} {table : List (List α)} {w v : List α}

theorem spells_word (h : Vocabulary p same table) (hw : w ∈ table) {u : List α}
    (hu : u ∈ (spaced p w).words) : spells same u u = true :=
  spells_refl fun a ha => h.refl w hw a (letters_of_words hu a ha)

theorem word_unique (h : Vocabulary p same table) (hw : w ∈ table) (hv : v ∈ table)
    {u u' x : List α} (hu : u ∈ (spaced p w).words) (hu' : u' ∈ (spaced p v).words)
    (hx : spells same u x = true) (hx' : spells same u' x = true) : u = u' :=
  spells_unique (fun a ha b hb => h.unique w hw v hv a (letters_of_words hu a ha) b
    (letters_of_words hu' b hb)) hx hx'

theorem apart (h : Vocabulary p same table) (hw : w ∈ table) (hv : v ∈ table) :
    ∀ part ∈ (spaced p v).2, Apart same (spaced p w).1 part.2 := fun part hpart _ hx hx' =>
  h.inner w hw v hv part hpart (h.word_unique hw hv List.mem_cons_self
    (List.mem_cons_of_mem _ (List.mem_map_of_mem hpart)) hx hx')

theorem parts_unique {pattern pattern' parts : List (α × List α)}
    (hwords : ∀ q ∈ pattern, ∀ q' ∈ pattern', ∀ x, spells same q.2 x = true →
      spells same q'.2 x = true → q.2 = q'.2)
    (hseparators : ∀ q ∈ pattern, ∀ q' ∈ pattern', ∀ c, same q.1 c = true →
      same q'.1 c = true → q.1 = q'.1)
    (hlength : pattern.length = pattern'.length)
    (hfits : fitsParts same pattern parts = true)
    (hfits' : fitsParts same pattern' parts = true) : pattern = pattern' := by
  induction pattern generalizing pattern' parts with
  | nil => exact (List.length_eq_zero_iff.mp hlength.symm).symm
  | cons q pattern ih =>
      cases pattern' with
      | nil => cases hlength
      | cons q' pattern' =>
          cases parts with
          | nil => cases hfits
          | cons part parts =>
              simp only [fitsParts, Bool.and_eq_true] at hfits hfits'
              have hseparator := hseparators q List.mem_cons_self q' List.mem_cons_self part.1
                hfits.1.1 hfits'.1.1
              have hword := hwords q List.mem_cons_self q' List.mem_cons_self part.2
                hfits.1.2 hfits'.1.2
              have hrest := ih
                (fun q hq q' hq' => hwords q (List.mem_cons_of_mem _ hq) q'
                  (List.mem_cons_of_mem _ hq'))
                (fun q hq q' hq' => hseparators q (List.mem_cons_of_mem _ hq) q'
                  (List.mem_cons_of_mem _ hq'))
                (Nat.succ_inj.mp hlength) hfits.2 hfits'.2
              rw [hrest, Prod.ext hseparator hword]

theorem separators_mem {text : List α} {part : α × List α} (h : part ∈ (spaced p text).2) :
    part.1 ∈ text := by
  induction text with
  | nil => cases h
  | cons c text ih =>
      cases hc : p c with
      | true =>
          rw [spaced_cons_of_word hc] at h
          exact List.mem_cons_of_mem _ (ih h)
      | false =>
          rw [spaced_cons_of_not_word hc] at h
          rcases List.mem_cons.mp h with rfl | h
          · exact List.mem_cons_self
          · exact List.mem_cons_of_mem _ (ih h)

/-- One phrase at most is found at one place. -/
theorem fits_unique (h : Vocabulary p same table) (hw : w ∈ table) (hv : v ∈ table)
    {s : Spaced α} (hfits : fits same (spaced p w) s = true)
    (hfits' : fits same (spaced p v) s = true) : w = v := by
  obtain ⟨hfirst, hparts⟩ := Bool.and_eq_true_iff.mp hfits
  obtain ⟨hfirst', hparts'⟩ := Bool.and_eq_true_iff.mp hfits'
  have hword := h.word_unique hw hv List.mem_cons_self List.mem_cons_self hfirst hfirst'
  have hrest := parts_unique
    (fun q hq q' hq' x hx hx' => h.word_unique hw hv
      (List.mem_cons_of_mem _ (List.mem_map_of_mem hq))
      (List.mem_cons_of_mem _ (List.mem_map_of_mem hq')) hx hx')
    (fun q hq q' hq' c hc hc' => h.unique w hw v hv q.1 (separators_mem hq) q'.1
      (separators_mem hq') c hc hc')
    (h.lengths w hw v hv hword) hparts hparts'
  exact spaced_injective (Prod.ext hword hrest)

theorem fits_self (h : Vocabulary p same table) (hw : w ∈ table) :
    fits same (spaced p w) (spaced p w) = true := by
  have hparts (parts : List (α × List α)) (hsub : ∀ part ∈ parts, part ∈ (spaced p w).2) :
      fitsParts same parts parts = true := by
    induction parts with
    | nil => rfl
    | cons part parts ih =>
        obtain ⟨hpart, hsub⟩ := List.forall_mem_cons.mp hsub
        simp only [fitsParts, Bool.and_eq_true]
        exact ⟨⟨h.refl w hw part.1 (separators_mem hpart), h.spells_word hw
          (List.mem_cons_of_mem _ (List.mem_map_of_mem hpart))⟩, ih hsub⟩
  exact Bool.and_eq_true_iff.mpr ⟨h.spells_word hw List.mem_cons_self,
    hparts _ fun part hpart => hpart⟩

variable [DecidableEq α]

/-- In a phrase only the phrase itself is found. -/
theorem count_self (h : Vocabulary p same table) (hw : w ∈ table) (hv : v ∈ table) :
    (phrase p same v).count w = if v = w then 1 else 0 := by
  have hskip : countParts same (spaced p v) (spaced p w).2 = 0 := by
    have hnone : countParts same (spaced p v) ((spaced p w).2 ++ []) =
        countParts same (spaced p v) [] :=
      countParts_skip fun part hpart => Bool.eq_false_iff.mpr fun hspells =>
        h.apart hv hw part hpart part.2 hspells
          (h.spells_word hw (List.mem_cons_of_mem _ (List.mem_map_of_mem hpart)))
    rwa [List.append_nil] at hnone
  rw [count_phrase (h.isPhrase v hv), countSpaced, hskip, Nat.add_zero]
  by_cases heq : v = w
  · rw [if_pos heq, heq, h.fits_self hw, if_pos rfl]
  · rw [if_neg heq, if_neg fun hfits => heq (h.fits_unique hv hw hfits (h.fits_self hw))]

theorem replaceFirst_self (h : Vocabulary p same table) (hw : w ∈ table) (new : List α) :
    (phrase p same w).replaceFirst new w = new := by
  have hrun : ((phrase p same w).run [] w).head? =
      some ((w.take w.length).reverse ++ [], w.drop w.length) :=
    (run_phrase_head? (h.isPhrase w hw) []).trans (if_pos ⟨rfl, h.fits_self hw⟩)
  cases w with
  | nil => exact absurd (h.isPhrase [] hw).first Bool.false_ne_true
  | cons a w =>
      rw [Regex.replaceFirst, Regex.replaceFirstFrom, hrun]
      dsimp only
      rw [List.drop_length, List.append_nil]

/-- A phrase that is replaced is found once less, and the others as often as before. -/
theorem count_replaceFirst (h : Vocabulary p same table) (hw : w ∈ table) (hv : v ∈ table)
    {new : List α} (text : List α) (hneutral : Neutral same (spaced p v) (spaced p new).words) :
    (phrase p same v).count ((phrase p same w).replaceFirst new text) +
        (if 0 < (phrase p same w).count text then if v = w then 1 else 0 else 0) =
      (phrase p same v).count text := by
  rw [count_phrase (h.isPhrase v hv), count_phrase (h.isPhrase v hv),
    count_phrase (h.isPhrase w hw), spaced_replaceFirst (h.isPhrase w hw)]
  refine countSpaced_replaceParts hneutral (h.apart hw hv) (h.apart hv hw) fun s hfits => ?_
  by_cases heq : v = w
  · rw [if_pos heq, heq, if_pos hfits]
  · rw [if_neg heq, if_neg fun hfits' => heq (h.fits_unique hv hw hfits' hfits)]

end Vocabulary

end VirtualContext.Library
