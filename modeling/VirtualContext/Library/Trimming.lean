import Mathlib.Data.List.Chain
import Mathlib.Data.List.TakeWhile

/-!
# Trimming

Dropping unwanted elements at both ends of a list, and leaving one for each run
of a separator.
-/

namespace VirtualContext.Library

variable {α : Type}

section Trim

variable {p : α → Bool} {xs : List α}

def trim (p : α → Bool) (xs : List α) : List α :=
  ((xs.dropWhile p).reverse.dropWhile p).reverse

theorem trim_isPrefix : trim p xs <+: xs.dropWhile p := by
  rw [trim, ← List.reverse_suffix, List.reverse_reverse]
  exact List.dropWhile_suffix p

theorem trim_infix : trim p xs <:+: xs :=
  trim_isPrefix.isInfix.trans (List.dropWhile_suffix p).isInfix

theorem dropWhile_of_head (h : ∀ a ∈ xs.head?, p a = false) : xs.dropWhile p = xs := by
  cases xs with
  | nil => rfl
  | cons a xs => exact List.dropWhile_cons_of_neg (by simp [h a rfl])

theorem head_of_dropWhile {a : α} (h : a ∈ (xs.dropWhile p).head?) : p a = false := by
  have hnot := List.head?_dropWhile_not p xs
  rw [Option.mem_def.mp h] at hnot
  exact hnot

theorem ends_of_trim :
    (∀ a ∈ (trim p xs).head?, p a = false) ∧ ∀ a ∈ (trim p xs).getLast?, p a = false := by
  constructor
  · intro a ha
    obtain ⟨rest, hrest⟩ := (trim_isPrefix : trim p xs <+: _)
    refine @head_of_dropWhile _ p xs a ?_
    rw [← hrest, List.head?_append, Option.mem_def.mp ha]
    rfl
  · intro a ha
    rw [trim, List.getLast?_reverse] at ha
    exact head_of_dropWhile ha

/-- Nothing is trimmed exactly if both ends are wanted. -/
theorem trim_eq_self_iff :
    trim p xs = xs ↔ (∀ a ∈ xs.head?, p a = false) ∧ ∀ a ∈ xs.getLast?, p a = false := by
  constructor
  · intro h
    rw [← h]
    exact ends_of_trim
  · rintro ⟨hhead, hlast⟩
    rw [trim, dropWhile_of_head hhead, dropWhile_of_head, List.reverse_reverse]
    rw [List.head?_reverse]
    exact hlast

theorem trim_trim : trim p (trim p xs) = trim p xs :=
  trim_eq_self_iff.mpr ends_of_trim

theorem dropWhile_append_of_all {blank : List α} (h : ∀ a ∈ blank, p a = true) (xs : List α) :
    (blank ++ xs).dropWhile p = xs.dropWhile p := by
  rw [List.dropWhile_append, List.dropWhile_eq_nil_iff.mpr h]
  rfl

theorem trim_append_left {blank : List α} (h : ∀ a ∈ blank, p a = true) (xs : List α) :
    trim p (blank ++ xs) = trim p xs := by
  rw [trim, dropWhile_append_of_all h, trim]

theorem trim_append_right {blank : List α} (h : ∀ a ∈ blank, p a = true) (xs : List α) :
    trim p (xs ++ blank) = trim p xs := by
  have hreverse : ∀ a ∈ blank.reverse, p a = true := by simpa using h
  rw [trim, trim, List.dropWhile_append]
  split
  next hempty =>
    rw [List.isEmpty_iff.mp hempty, List.dropWhile_eq_nil_iff.mpr h]
  next => rw [List.reverse_append, dropWhile_append_of_all hreverse]

theorem countP_dropWhile (xs : List α) :
    (xs.dropWhile p).countP (fun a => !p a) = xs.countP fun a => !p a := by
  have htaken : (xs.takeWhile p).countP (fun a => !p a) = 0 := by
    rw [List.countP_eq_zero]
    intro a ha
    simp [List.mem_takeWhile_imp ha]
  conv_rhs => rw [← @List.takeWhile_append_dropWhile _ p xs]
  rw [List.countP_append, htaken, Nat.zero_add]

/-- What is wanted is not trimmed. -/
theorem countP_trim (xs : List α) :
    (trim p xs).countP (fun a => !p a) = xs.countP fun a => !p a := by
  rw [trim, List.countP_reverse, countP_dropWhile, List.countP_reverse, countP_dropWhile]

end Trim

section Collapse

variable [DecidableEq α] {sep : α}

/-- One separator for each run of separators. -/
def collapse (sep : α) : List α → List α
  | a :: b :: rest =>
      if a = sep ∧ b = sep then collapse sep (b :: rest) else a :: collapse sep (b :: rest)
  | xs => xs

theorem mem_of_mem_collapse {a : α} {xs : List α} (h : a ∈ collapse sep xs) : a ∈ xs := by
  fun_induction collapse sep xs with
  | case1 a b rest hsep ih => exact List.mem_cons_of_mem a (ih h)
  | case2 a b rest hsep ih =>
      rcases List.mem_cons.mp h with rfl | hmem
      · exact List.mem_cons_self
      · exact List.mem_cons_of_mem a (ih hmem)
  | case3 xs hshort => exact h

theorem head?_collapse (xs : List α) : (collapse sep xs).head? = xs.head? := by
  fun_induction collapse sep xs with
  | case1 a b rest hsep ih => rw [ih, List.head?_cons, List.head?_cons, hsep.1, hsep.2]
  | case2 a b rest hsep ih => rfl
  | case3 xs hshort => rfl

/-- No two separators stand side by side. -/
def SingleSeparators (sep : α) : List α → Prop := List.IsChain fun a b => ¬ (a = sep ∧ b = sep)

theorem singleSeparators_collapse (xs : List α) : SingleSeparators sep (collapse sep xs) := by
  fun_induction collapse sep xs with
  | case1 a b rest hsep ih => exact ih
  | case2 a b rest hsep ih =>
      refine List.isChain_cons.mpr ⟨fun c hc => ?_, ih⟩
      rw [head?_collapse] at hc
      obtain rfl := Option.some.inj hc
      exact hsep
  | case3 xs hshort =>
      match xs with
      | [] => exact List.isChain_nil
      | [a] => exact List.isChain_singleton a
      | a :: b :: rest => exact absurd rfl (hshort a b rest)

theorem collapse_eq_self {xs : List α} (h : SingleSeparators sep xs) : collapse sep xs = xs := by
  fun_induction collapse sep xs with
  | case1 a b rest hsep ih => exact absurd hsep (List.isChain_cons_cons.mp h).1
  | case2 a b rest hsep ih => rw [ih (List.isChain_cons_cons.mp h).2]
  | case3 xs hshort => rfl

end Collapse

end VirtualContext.Library
