import Mathlib.Data.List.Infix
import Mathlib.Data.Prod.Lex
import VirtualContext.Library.Ordered

/-!
# Spans of a text

A span is a place where a part of a text starts and one where it ends.  The union of
spans joins those that overlap or touch.
-/

namespace VirtualContext.Library

variable {α : Type}

abbrev Span := Nat × Nat

def InSpan (i : Nat) (span : Span) : Prop := span.1 ≤ i ∧ i < span.2

/-- `text[start:stop]` -/
def spanText (text : List α) (span : Span) : List α := (text.take span.2).drop span.1

/-! ## Finding a part -/

/-- `text.find(part)` -/
def findPart [DecidableEq α] (part : List α) : List α → Option Nat
  | [] => if part = [] then some 0 else none
  | c :: text =>
      if part <+: c :: text then some 0 else (findPart part text).map (· + 1)

theorem spanText_of_findPart [DecidableEq α] {part text : List α} {i : Nat}
    (h : findPart part text = some i) : spanText text (i, i + part.length) = part := by
  induction text generalizing i with
  | nil =>
      rw [findPart] at h
      split_ifs at h with hpart
      rw [hpart, spanText, List.take_nil, List.drop_nil]
  | cons c text ih =>
      rw [findPart] at h
      split_ifs at h with hpart
      · obtain rfl := Option.some.inj h
        obtain ⟨rest, hrest⟩ := hpart
        rw [← hrest, spanText, Nat.zero_add, List.take_left, List.drop_zero]
      · obtain ⟨j, hj, rfl⟩ := Option.map_eq_some_iff.mp h
        have htail := ih hj
        rw [spanText] at htail ⊢
        dsimp only at htail ⊢
        rw [Nat.add_right_comm, List.take_succ_cons, List.drop_succ_cons, htail]

theorem not_infix_of_findPart [DecidableEq α] {part text : List α}
    (h : findPart part text = none) : ¬ part <:+: text := by
  induction text with
  | nil =>
      rw [findPart] at h
      split_ifs at h with hpart
      exact fun hinfix => hpart (List.infix_nil.mp hinfix)
  | cons c text ih =>
      rw [findPart] at h
      split_ifs at h with hpart
      rw [List.infix_cons_iff, not_or]
      exact ⟨hpart, ih (Option.map_eq_none_iff.mp h)⟩

theorem isPrefix_of_findPart [DecidableEq α] {part text : List α} {i : Nat}
    (h : findPart part text = some i) : part <+: text.drop i := by
  have htext := spanText_of_findPart h
  rw [spanText, List.drop_take, Nat.add_sub_cancel_left] at htext
  exact htext ▸ List.take_prefix _ _

theorem length_of_findPart [DecidableEq α] {part text : List α} {i : Nat}
    (h : findPart part text = some i) : i + part.length ≤ text.length := by
  induction text generalizing i with
  | nil =>
      rw [findPart] at h
      split_ifs at h with hpart
      simp [hpart, (Option.some.inj h).symm]
  | cons c text ih =>
      rw [findPart] at h
      split_ifs at h with hpart
      · obtain rfl := Option.some.inj h
        simpa using hpart.length_le
      · obtain ⟨j, hj, rfl⟩ := Option.map_eq_some_iff.mp h
        have hlength := ih hj
        rw [List.length_cons]
        omega

/-- A part is found where it is, or earlier. -/
theorem findPart_le [DecidableEq α] {part text : List α} {j : Nat}
    (h : part <+: text.drop j) : ∃ i ≤ j, findPart part text = some i := by
  induction text generalizing j with
  | nil =>
      rw [List.drop_nil] at h
      exact ⟨0, Nat.zero_le _, if_pos (List.prefix_nil.mp h)⟩
  | cons c text ih =>
      by_cases hpart : part <+: c :: text
      · exact ⟨0, Nat.zero_le _, if_pos hpart⟩
      · cases j with
        | zero => exact absurd h hpart
        | succ j =>
            obtain ⟨i, hi, hfound⟩ := ih h
            refine ⟨i + 1, Nat.succ_le_succ hi, ?_⟩
            rw [findPart, if_neg hpart, hfound]
            rfl

theorem le_of_findPart [DecidableEq α] {part text : List α} {i j : Nat}
    (hi : findPart part text = some i) (hj : part <+: text.drop j) : i ≤ j := by
  obtain ⟨first, hfirst, hfound⟩ := findPart_le hj
  rw [hi] at hfound
  obtain rfl := Option.some.inj hfound
  exact hfirst

theorem isPrefix_of_append {part text more : List α} {j : Nat}
    (h : part <+: (text ++ more).drop j) (hlength : j + part.length ≤ text.length) :
    part <+: text.drop j := by
  rw [List.drop_append_of_le_length (by omega)] at h
  exact List.prefix_of_prefix_length_le h (List.prefix_append _ _)
    (by rw [List.length_drop]; omega)

/-- What comes after a part does not change where it is found. -/
theorem findPart_append [DecidableEq α] {part text : List α} {i : Nat}
    (h : findPart part text = some i) (more : List α) :
    findPart part (text ++ more) = some i := by
  have hlength := length_of_findPart h
  have hpart : part <+: (text ++ more).drop i := by
    rw [List.drop_append_of_le_length (by omega)]
    exact (isPrefix_of_findPart h).trans (List.prefix_append _ _)
  obtain ⟨first, hfirst, hfound⟩ := findPart_le hpart
  have hle := le_of_findPart h
    (isPrefix_of_append (isPrefix_of_findPart hfound) (by omega))
  rw [hfound, Nat.le_antisymm hfirst hle]

theorem findPart_take [DecidableEq α] {part text : List α} {i : Nat}
    (h : findPart part text = some i) :
    findPart part (text.take (i + part.length)) = some i := by
  have hpart : part <+: (text.take (i + part.length)).drop i := by
    rw [List.drop_take, Nat.add_sub_cancel_left]
    exact (List.prefix_iff_eq_take.mp (isPrefix_of_findPart h)) ▸ List.prefix_rfl
  obtain ⟨first, -, hfound⟩ := findPart_le hpart
  have htext := findPart_append hfound (text.drop (i + part.length))
  rw [List.take_append_drop, h] at htext
  rw [hfound, htext]

theorem findPart_eq_none [DecidableEq α] {part text : List α} {a : α} (ha : a ∈ part)
    (h : a ∉ text) : findPart part text = none := by
  refine Option.eq_none_iff_forall_ne_some.mpr fun i hi => h ?_
  exact (List.drop_subset _ _) ((isPrefix_of_findPart hi).subset ha)

/-- A span within another one is part of its text. -/
theorem infix_spanText (text : List α) {inner outer : Span} (hstart : outer.1 ≤ inner.1)
    (hstop : inner.2 ≤ outer.2) : spanText text inner <:+: spanText text outer := by
  have hpart : (text.take inner.2).drop outer.1 <+: (text.take outer.2).drop outer.1 := by
    have htake : text.take inner.2 <+: text.take outer.2 := List.take_prefix_take_left hstop
    exact htake.drop _
  refine List.IsInfix.trans (List.IsSuffix.isInfix ?_) hpart.isInfix
  rw [spanText, show inner.1 = outer.1 + (inner.1 - outer.1) by omega, ← List.drop_drop]
  exact List.drop_suffix _ _

/-! ## The union -/

/-- The spans joined with the current one, as long as they reach it. -/
def joinSpans : (current : Span) → List Span → List Span
  | current, [] => [current]
  | current, span :: spans =>
      if span.1 ≤ current.2 then joinSpans (current.1, max current.2 span.2) spans
      else current :: joinSpans span spans

def unionSpans (spans : List Span) : List Span :=
  match orderBy toLex spans with
  | [] => []
  | first :: rest => joinSpans first rest

section

variable {current : Span} {spans : List Span}

theorem pairwise_widen {next : Span}
    (hsorted : (current :: next :: spans).Pairwise fun a b => a.1 ≤ b.1) (stop : Nat) :
    ((current.1, stop) :: spans).Pairwise fun a b => a.1 ≤ b.1 := by
  obtain ⟨hcurrent, hspans⟩ := List.pairwise_cons.mp hsorted
  exact List.pairwise_cons.mpr
    ⟨fun other hother => hcurrent other (List.mem_cons_of_mem next hother), hspans.of_cons⟩

theorem start_le_of_mem_joinSpans (hsorted : (current :: spans).Pairwise fun a b => a.1 ≤ b.1)
    {span : Span} (h : span ∈ joinSpans current spans) : current.1 ≤ span.1 := by
  induction spans generalizing current with
  | nil => rw [List.mem_singleton.mp h]
  | cons next spans ih =>
      obtain ⟨hcurrent, hspans⟩ := List.pairwise_cons.mp hsorted
      rw [joinSpans] at h
      split_ifs at h
      · have hle := ih (pairwise_widen hsorted (max current.2 next.2)) h
        exact hle
      · rcases List.mem_cons.mp h with rfl | h
        · exact le_refl _
        · exact (hcurrent next List.mem_cons_self).trans (ih hspans h)

/-- Joined spans are in order and do not touch. -/
theorem pairwise_joinSpans (hsorted : (current :: spans).Pairwise fun a b => a.1 ≤ b.1) :
    (joinSpans current spans).Pairwise fun a b => a.2 < b.1 := by
  induction spans generalizing current with
  | nil => exact List.pairwise_singleton _ _
  | cons next spans ih =>
      have hspans := hsorted.of_cons
      rw [joinSpans]
      split_ifs with hreach
      · exact ih (pairwise_widen hsorted (max current.2 next.2))
      · refine List.pairwise_cons.mpr ⟨fun other hother => ?_, ih hspans⟩
        exact (not_le.mp hreach).trans_le (start_le_of_mem_joinSpans hspans hother)

/-- Every span is within a joined one. -/
theorem exists_mem_joinSpans (hsorted : (current :: spans).Pairwise fun a b => a.1 ≤ b.1)
    {span : Span} (h : span ∈ current :: spans) :
    ∃ joined ∈ joinSpans current spans, joined.1 ≤ span.1 ∧ span.2 ≤ joined.2 := by
  induction spans generalizing current span with
  | nil => exact ⟨current, List.mem_singleton.mpr rfl, by rw [List.mem_singleton.mp h]; simp⟩
  | cons next spans ih =>
      obtain ⟨hcurrent, hspans⟩ := List.pairwise_cons.mp hsorted
      have hsorted' := pairwise_widen hsorted (max current.2 next.2)
      rw [joinSpans]
      split_ifs with hreach
      · rcases List.mem_cons.mp h with rfl | h
        · obtain ⟨joined, hmem, hstart, hstop⟩ := ih hsorted' List.mem_cons_self
          exact ⟨joined, hmem, hstart, (le_max_left _ _).trans hstop⟩
        · rcases List.mem_cons.mp h with rfl | h
          · obtain ⟨joined, hmem, hstart, hstop⟩ := ih hsorted' List.mem_cons_self
            exact ⟨joined, hmem, hstart.trans (hcurrent span List.mem_cons_self),
              (le_max_right _ _).trans hstop⟩
          · exact ih hsorted' (List.mem_cons_of_mem _ h)
      · rcases List.mem_cons.mp h with rfl | h
        · exact ⟨span, List.mem_cons_self, le_refl _, le_refl _⟩
        · obtain ⟨joined, hmem, hwithin⟩ := ih hspans h
          exact ⟨joined, List.mem_cons_of_mem current hmem, hwithin⟩

/-- Joined spans hold nothing that no span holds. -/
theorem inSpan_of_joinSpans (hsorted : (current :: spans).Pairwise fun a b => a.1 ≤ b.1)
    {i : Nat} {joined : Span} (hjoined : joined ∈ joinSpans current spans)
    (hi : InSpan i joined) : ∃ span ∈ current :: spans, InSpan i span := by
  induction spans generalizing current with
  | nil => exact ⟨joined, hjoined, hi⟩
  | cons next spans ih =>
      rw [joinSpans] at hjoined
      split_ifs at hjoined with hreach
      · obtain ⟨span, hspan, hin⟩ := ih (pairwise_widen hsorted (max current.2 next.2)) hjoined
        rcases List.mem_cons.mp hspan with rfl | hspan
        · obtain ⟨hstart, hstop⟩ := hin
          dsimp only at hstart hstop
          by_cases hbefore : i < current.2
          · exact ⟨current, List.mem_cons_self, hstart, hbefore⟩
          · exact ⟨next, List.mem_cons_of_mem _ List.mem_cons_self, by omega, by omega⟩
        · exact ⟨span, List.mem_cons_of_mem _ (List.mem_cons_of_mem _ hspan), hin⟩
      · rcases List.mem_cons.mp hjoined with rfl | hjoined
        · exact ⟨joined, List.mem_cons_self, hi⟩
        · obtain ⟨span, hspan, hin⟩ := ih hsorted.of_cons hjoined
          exact ⟨span, List.mem_cons_of_mem current hspan, hin⟩

end

/-! ## What the union is -/

variable {spans : List Span}

theorem unionSpans_spec (spans : List Span) :
    (unionSpans spans).Pairwise (fun a b => a.2 < b.1) ∧
      (∀ span ∈ spans, ∃ joined ∈ unionSpans spans, joined.1 ≤ span.1 ∧ span.2 ≤ joined.2) ∧
      ∀ joined ∈ unionSpans spans, ∀ i, InSpan i joined → ∃ span ∈ spans, InSpan i span := by
  have hperm := orderBy_perm toLex spans
  have hsorted : (orderBy toLex spans).Pairwise fun a b => a.1 ≤ b.1 := by
    have hlex : (orderBy toLex spans).Pairwise fun a b => toLex a ≤ toLex b :=
      List.pairwise_insertionSort _ spans
    refine hlex.imp fun h => ?_
    rcases Prod.Lex.toLex_le_toLex.mp h with hlt | ⟨heq, -⟩
    · exact hlt.le
    · exact heq.le
  unfold unionSpans
  cases horder : orderBy toLex spans with
  | nil =>
      rw [horder] at hperm
      obtain rfl := List.Perm.nil_eq hperm
      exact ⟨List.Pairwise.nil, by simp, by simp⟩
  | cons first rest =>
      rw [horder] at hperm hsorted
      refine ⟨pairwise_joinSpans hsorted, fun span hspan => ?_, fun joined hjoined i hi => ?_⟩
      · exact exists_mem_joinSpans hsorted (hperm.mem_iff.mpr hspan)
      · obtain ⟨span, hspan, hin⟩ := inSpan_of_joinSpans hsorted hjoined hi
        exact ⟨span, hperm.mem_iff.mp hspan, hin⟩

/-- The union holds exactly the places that the spans hold. -/
theorem inSpan_unionSpans_iff {i : Nat} :
    (∃ joined ∈ unionSpans spans, InSpan i joined) ↔ ∃ span ∈ spans, InSpan i span := by
  obtain ⟨-, hwithin, hholds⟩ := unionSpans_spec spans
  constructor
  · rintro ⟨joined, hjoined, hi⟩
    exact hholds joined hjoined i hi
  · rintro ⟨span, hspan, hi⟩
    obtain ⟨joined, hjoined, hstart, hstop⟩ := hwithin span hspan
    exact ⟨joined, hjoined, hstart.trans hi.1, hi.2.trans_le hstop⟩

end VirtualContext.Library
