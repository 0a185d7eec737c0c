import Mathlib.Data.List.Basic
import Mathlib.Data.Nat.Basic
import Mathlib.Order.Basic

/-!
# Regular expressions with backtracking

A regular expression lists the positions where its matches end, in the order in
which they are tried.  A position is a text cut in two, the part before it in
reverse, so that word boundaries can look at both sides.
-/

namespace VirtualContext.Library

/-! ## Layers -/

/-- Something is taken away, or nothing changes. -/
def Shrinks {α : Type} (f : List α → List α) : Prop :=
  ∀ text, f text = text ∨ (f text).length < text.length

namespace Shrinks

variable {α : Type} {f g : List α → List α}

theorem length_le (hf : Shrinks f) (text : List α) : (f text).length ≤ text.length := by
  rcases hf text with heq | hlt
  · exact heq.symm ▸ Nat.le_refl _
  · exact hlt.le

theorem comp (hf : Shrinks f) (hg : Shrinks g) : Shrinks fun text => g (f text) := by
  intro text
  dsimp only
  rcases hf text with heq | hlt
  · rw [heq]
    exact hg text
  · exact .inr ((hg.length_le _).trans_lt hlt)

/-- Layers leave a text as it is if each of them does. -/
theorem comp_eq_self_iff (hf : Shrinks f) (hg : Shrinks g) (text : List α) :
    g (f text) = text ↔ f text = text ∧ g text = text := by
  constructor
  · intro h
    rcases hf text with heq | hlt
    · exact ⟨heq, by rwa [heq] at h⟩
    · have hle := hg.length_le (f text)
      rw [h] at hle
      omega
  · rintro ⟨heq, hg⟩
    rw [heq, hg]

end Shrinks

/-! ## Expressions -/

inductive Regex (α : Type) where
  | char (p : α → Bool)
  | word (w : List α)
  | seq (r s : Regex α)
  | alt (r s : Regex α)
  | opt (r : Regex α)
  | many (p : α → Bool)
  | manyLazy (p : α → Bool)
  | upTo (n : Nat) (p : α → Bool)
  | plus (r : Regex α)
  | boundary (p : α → Bool)
  | atEnd (newline : α)

namespace Regex

variable {α : Type} [DecidableEq α]

/-! ## Matches -/

/-- `p*` -/
def runMany (p : α → Bool) (before : List α) : List α → List (List α × List α)
  | [] => [(before, [])]
  | c :: text =>
      if p c then runMany p (c :: before) text ++ [(before, c :: text)]
      else [(before, c :: text)]

/-- `p*?` -/
def runManyLazy (p : α → Bool) (before : List α) : List α → List (List α × List α)
  | [] => [(before, [])]
  | c :: text =>
      (before, c :: text) :: if p c then runManyLazy p (c :: before) text else []

/-- `p{0,n}` -/
def runUpTo (p : α → Bool) : Nat → List α → List α → List (List α × List α)
  | n + 1, before, c :: text =>
      if p c then runUpTo p n (c :: before) text ++ [(before, c :: text)]
      else [(before, c :: text)]
  | _, before, text => [(before, text)]

/-- `(?:r)*` for an `r` that consumes, with as many rounds as `fuel`. -/
def runStar (run : List α → List α → List (List α × List α)) :
    (fuel : Nat) → List α → List α → List (List α × List α)
  | 0, before, text => [(before, text)]
  | fuel + 1, before, text =>
      ((run before text).flatMap fun (before, text) => runStar run fuel before text) ++
        [(before, text)]

/-- The ends of the matches from a position on. -/
def run : Regex α → List α → List α → List (List α × List α)
  | char p, before, text =>
      match text with
      | [] => []
      | c :: text => if p c then [(c :: before, text)] else []
  | word w, before, text =>
      if w.isPrefixOf text then [(w.reverse ++ before, text.drop w.length)] else []
  | seq r s, before, text =>
      (r.run before text).flatMap fun (before, text) => s.run before text
  | alt r s, before, text => r.run before text ++ s.run before text
  | opt r, before, text => r.run before text ++ [(before, text)]
  | many p, before, text => runMany p before text
  | manyLazy p, before, text => runManyLazy p before text
  | upTo n p, before, text => runUpTo p n before text
  | plus r, before, text =>
      (r.run before text).flatMap fun (before', text') =>
        runStar r.run text.length before' text'
  | boundary p, before, text =>
      if before.head?.any p ≠ text.head?.any p then [(before, text)] else []
  | atEnd newline, before, text =>
      if text = [] ∨ text = [newline] then [(before, text)] else []

theorem run_seq (r s : Regex α) (before text : List α) :
    (seq r s).run before text = (r.run before text).flatMap fun q => s.run q.1 q.2 := rfl

theorem mem_run_seq {r s : Regex α} {before text : List α} {q : List α × List α} :
    q ∈ (seq r s).run before text ↔
      ∃ middle ∈ r.run before text, q ∈ s.run middle.1 middle.2 := List.mem_flatMap

/-- Every match takes at least one element. -/
def consumes : Regex α → Bool
  | char _ => true
  | word w => !w.isEmpty
  | seq r s => r.consumes || s.consumes
  | alt r s => r.consumes && s.consumes
  | plus r => r.consumes
  | _ => false

theorem length_runMany {p : α → Bool} {before text : List α} {q : List α × List α}
    (h : q ∈ runMany p before text) : q.2.length ≤ text.length := by
  induction text generalizing before with
  | nil => simp [List.mem_singleton.mp h]
  | cons c text ih =>
      rw [runMany] at h
      split_ifs at h
      · rcases List.mem_append.mp h with h | h
        · exact (ih h).trans (Nat.le_succ _)
        · simp [List.mem_singleton.mp h]
      · simp [List.mem_singleton.mp h]

theorem length_runManyLazy {p : α → Bool} {before text : List α} {q : List α × List α}
    (h : q ∈ runManyLazy p before text) : q.2.length ≤ text.length := by
  induction text generalizing before with
  | nil => simp [List.mem_singleton.mp h]
  | cons c text ih =>
      rw [runManyLazy] at h
      rcases List.mem_cons.mp h with rfl | h
      · exact Nat.le_refl _
      · split_ifs at h
        · exact (ih h).trans (Nat.le_succ _)
        · cases h

theorem length_runUpTo {p : α → Bool} {n : Nat} {before text : List α} {q : List α × List α}
    (h : q ∈ runUpTo p n before text) : q.2.length ≤ text.length := by
  induction text generalizing n before with
  | nil => cases n <;> simp [runUpTo] at h <;> simp [h]
  | cons c text ih =>
      cases n with
      | zero => simp [List.mem_singleton.mp h]
      | succ n =>
          rw [runUpTo] at h
          split_ifs at h
          · rcases List.mem_append.mp h with h | h
            · exact (ih h).trans (Nat.le_succ _)
            · simp [List.mem_singleton.mp h]
          · simp [List.mem_singleton.mp h]

theorem length_runStar {run : List α → List α → List (List α × List α)}
    (hrun : ∀ before text, ∀ q ∈ run before text, q.2.length ≤ text.length) {fuel : Nat}
    {before text : List α} {q : List α × List α} (h : q ∈ runStar run fuel before text) :
    q.2.length ≤ text.length := by
  induction fuel generalizing before text with
  | zero => simp [List.mem_singleton.mp h]
  | succ fuel ih =>
      rcases List.mem_append.mp h with h | h
      · obtain ⟨middle, hmiddle, h⟩ := List.mem_flatMap.mp h
        exact (ih h).trans (hrun _ _ _ hmiddle)
      · simp [List.mem_singleton.mp h]

/-- No match makes the text longer, and one that takes elements makes it shorter. -/
theorem length_run (r : Regex α) {before text : List α} {q : List α × List α}
    (h : q ∈ r.run before text) :
    q.2.length ≤ text.length ∧ (r.consumes = true → q.2.length < text.length) := by
  induction r generalizing before text q with
  | char p =>
      cases text with
      | nil => cases h
      | cons c text =>
          simp only [run] at h
          split_ifs at h
          · rw [List.mem_singleton.mp h]
            exact ⟨Nat.le_succ _, fun _ => Nat.lt_succ_self _⟩
          · cases h
  | word w =>
      simp only [run] at h
      split_ifs at h with hprefix
      · obtain ⟨rest, rfl⟩ := List.isPrefixOf_iff_prefix.mp hprefix
        rw [List.mem_singleton.mp h]
        rw [List.drop_left, List.length_append]
        refine ⟨Nat.le_add_left _ _, fun hne => ?_⟩
        cases w with
        | nil => cases hne
        | cons c w => exact Nat.lt_add_of_pos_left (Nat.succ_pos _)
      · cases h
  | seq r s ihr ihs =>
      obtain ⟨middle, hmiddle, h⟩ := List.mem_flatMap.mp h
      obtain ⟨hrle, hrlt⟩ := ihr hmiddle
      obtain ⟨hsle, hslt⟩ := ihs h
      refine ⟨hsle.trans hrle, fun hconsumes => ?_⟩
      rcases Bool.or_eq_true_iff.mp hconsumes with hr | hs
      · exact hsle.trans_lt (hrlt hr)
      · exact (hslt hs).trans_le hrle
  | alt r s ihr ihs =>
      rcases List.mem_append.mp h with h | h
      · obtain ⟨hle, hlt⟩ := ihr h
        exact ⟨hle, fun hconsumes => hlt (Bool.and_eq_true_iff.mp hconsumes).1⟩
      · obtain ⟨hle, hlt⟩ := ihs h
        exact ⟨hle, fun hconsumes => hlt (Bool.and_eq_true_iff.mp hconsumes).2⟩
  | opt r ih =>
      rcases List.mem_append.mp h with h | h
      · exact ⟨(ih h).1, nofun⟩
      · rw [List.mem_singleton.mp h]
        exact ⟨Nat.le_refl _, nofun⟩
  | many p => exact ⟨length_runMany h, nofun⟩
  | manyLazy p => exact ⟨length_runManyLazy h, nofun⟩
  | upTo n p => exact ⟨length_runUpTo h, nofun⟩
  | plus r ih =>
      obtain ⟨middle, hmiddle, h⟩ := List.mem_flatMap.mp h
      obtain ⟨hle, hlt⟩ := ih hmiddle
      have hstar := length_runStar (fun _ _ q hq => (ih hq).1) h
      exact ⟨hstar.trans hle, fun hconsumes => hstar.trans_lt (hlt hconsumes)⟩
  | boundary p =>
      simp only [run] at h
      split_ifs at h
      · rw [List.mem_singleton.mp h]
        exact ⟨Nat.le_refl _, nofun⟩
      · cases h
  | atEnd newline =>
      simp only [run] at h
      split_ifs at h
      · rw [List.mem_singleton.mp h]
        exact ⟨Nat.le_refl _, nofun⟩
      · cases h

/-! ## Stripping and removing -/

/-- What the first match at the front of the text leaves. -/
def stripped? (r : Regex α) (text : List α) : Option (List α) :=
  (r.run [] text).head?.map Prod.snd

/-- The text without a match at its front. -/
def strip (r : Regex α) (text : List α) : List α := (r.stripped? text).getD text

theorem length_stripped {r : Regex α} (hr : r.consumes = true) {text rest : List α}
    (h : r.stripped? text = some rest) : rest.length < text.length := by
  obtain ⟨q, hq, rfl⟩ := Option.map_eq_some_iff.mp h
  exact (r.length_run (List.mem_of_mem_head? hq)).2 hr

theorem stripped?_nil {r : Regex α} (hr : r.consumes = true) : r.stripped? [] = none := by
  by_contra hsome
  obtain ⟨rest, hrest⟩ := Option.ne_none_iff_exists'.mp hsome
  exact Nat.not_lt_zero _ (length_stripped hr hrest)

/-- The text from a position on, without the matches in it. -/
def removeFrom (r : Regex α) : (fuel : Nat) → List α → List α → List α
  | 0, _, text => text
  | fuel + 1, before, text =>
      match (r.run before text).head?, text with
      | some (before, rest), _ => removeFrom r fuel before rest
      | none, [] => []
      | none, c :: rest => c :: removeFrom r fuel (c :: before) rest

/-- The text without its matches; each takes at least one element. -/
def remove (r : Regex α) (text : List α) : List α := r.removeFrom (text.length + 1) [] text

/-- There is a match somewhere in the text. -/
def FoundIn (r : Regex α) (text : List α) : Prop :=
  ∃ front rest, text = front ++ rest ∧ r.run front.reverse rest ≠ []

theorem shrinks_removeFrom {r : Regex α} (hr : r.consumes = true) (fuel : Nat)
    (before : List α) : Shrinks (r.removeFrom fuel before) := by
  intro text
  induction fuel generalizing before text with
  | zero => exact .inl rfl
  | succ fuel ih =>
      unfold removeFrom
      split
      next before' rest hmatch =>
        have hlt := (r.length_run (List.mem_of_mem_head? hmatch)).2 hr
        rcases ih before' rest with heq | hless
        · exact .inr (by rwa [heq])
        · exact .inr (hless.trans hlt)
      next => exact .inl rfl
      next c rest hnone =>
        rcases ih (c :: before) rest with heq | hless
        · exact .inl (congrArg (c :: ·) heq)
        · exact .inr (Nat.succ_lt_succ hless)

/-- Nothing is removed exactly if there is no match. -/
theorem removeFrom_eq_self_iff {r : Regex α} (hr : r.consumes = true) {fuel : Nat}
    {before text : List α} (hfuel : text.length < fuel) :
    r.removeFrom fuel before text = text ↔
      ∀ front rest, text = front ++ rest → r.run (front.reverse ++ before) rest = [] := by
  induction fuel generalizing before text with
  | zero => omega
  | succ fuel ih =>
      unfold removeFrom
      cases hmatch : (r.run before text).head? with
      | some q =>
          have hlt := (r.length_run (List.mem_of_mem_head? hmatch)).2 hr
          refine iff_of_false (fun heq => ?_) fun h => ?_
          · have hle := (shrinks_removeFrom hr fuel q.1).length_le q.2
            have hlength := congrArg List.length heq
            dsimp only at hlength
            omega
          · have hnone := h [] text rfl
            rw [List.reverse_nil, List.nil_append] at hnone
            rw [hnone] at hmatch
            cases hmatch
      | none =>
          have hhere : r.run before text = [] := List.head?_eq_none_iff.mp hmatch
          cases text with
          | nil =>
              refine iff_of_true rfl fun front rest heq => ?_
              obtain ⟨rfl, rfl⟩ := List.append_eq_nil_iff.mp heq.symm
              exact hhere
          | cons c text =>
              dsimp only
              rw [List.cons_inj_right, ih (Nat.lt_of_succ_lt_succ hfuel)]
              constructor
              · intro h front rest heq
                cases front with
                | nil =>
                    obtain rfl : c :: text = rest := heq
                    exact hhere
                | cons d front =>
                    obtain ⟨rfl, htext⟩ := List.cons.inj heq
                    rw [List.reverse_cons, List.append_assoc]
                    exact h front rest htext
              · intro h front rest heq
                have hrest := h (c :: front) rest (congrArg (c :: ·) heq)
                rwa [List.reverse_cons, List.append_assoc] at hrest

theorem remove_eq_self_iff {r : Regex α} (hr : r.consumes = true) {text : List α} :
    r.remove text = text ↔ ¬ r.FoundIn text := by
  rw [remove, removeFrom_eq_self_iff hr (Nat.lt_succ_self _)]
  simp [FoundIn]

variable {r : Regex α}

theorem shrinks_strip (hr : r.consumes = true) : Shrinks r.strip := by
  intro text
  unfold strip
  cases h : r.stripped? text with
  | none => exact .inl rfl
  | some rest => exact .inr (length_stripped hr h)

theorem strip_eq_self_iff (hr : r.consumes = true) {text : List α} :
    r.strip text = text ↔ r.stripped? text = none := by
  unfold strip
  cases h : r.stripped? text with
  | none => exact iff_of_true rfl rfl
  | some rest =>
      refine iff_of_false (fun heq => ?_) nofun
      have hlt := length_stripped hr h
      rw [← heq] at hlt
      exact Nat.lt_irrefl _ hlt

theorem shrinks_remove (hr : r.consumes = true) : Shrinks r.remove :=
  fun text => shrinks_removeFrom hr _ [] text

/-! ## Positions -/

theorem text_runMany {p : α → Bool} {before text : List α} {q : List α × List α}
    (h : q ∈ runMany p before text) : q.1.reverse ++ q.2 = before.reverse ++ text := by
  induction text generalizing before with
  | nil => rw [List.mem_singleton.mp h]
  | cons c text ih =>
      rw [runMany] at h
      split_ifs at h
      · rcases List.mem_append.mp h with h | h
        · simpa using ih h
        · rw [List.mem_singleton.mp h]
      · rw [List.mem_singleton.mp h]

theorem text_runManyLazy {p : α → Bool} {before text : List α} {q : List α × List α}
    (h : q ∈ runManyLazy p before text) : q.1.reverse ++ q.2 = before.reverse ++ text := by
  induction text generalizing before with
  | nil => rw [List.mem_singleton.mp h]
  | cons c text ih =>
      rw [runManyLazy] at h
      rcases List.mem_cons.mp h with rfl | h
      · rfl
      · split_ifs at h
        · simpa using ih h
        · cases h

theorem text_runUpTo {p : α → Bool} {n : Nat} {before text : List α} {q : List α × List α}
    (h : q ∈ runUpTo p n before text) : q.1.reverse ++ q.2 = before.reverse ++ text := by
  induction text generalizing n before with
  | nil => cases n <;> simp [runUpTo] at h <;> simp [h]
  | cons c text ih =>
      cases n with
      | zero => rw [List.mem_singleton.mp h]
      | succ n =>
          rw [runUpTo] at h
          split_ifs at h
          · rcases List.mem_append.mp h with h | h
            · simpa using ih h
            · rw [List.mem_singleton.mp h]
          · rw [List.mem_singleton.mp h]

theorem text_runStar {run : List α → List α → List (List α × List α)}
    (hrun : ∀ before text, ∀ q ∈ run before text, q.1.reverse ++ q.2 = before.reverse ++ text)
    {fuel : Nat} {before text : List α} {q : List α × List α}
    (h : q ∈ runStar run fuel before text) : q.1.reverse ++ q.2 = before.reverse ++ text := by
  induction fuel generalizing before text with
  | zero => rw [List.mem_singleton.mp h]
  | succ fuel ih =>
      rcases List.mem_append.mp h with h | h
      · obtain ⟨middle, hmiddle, h⟩ := List.mem_flatMap.mp h
        exact (ih h).trans (hrun _ _ _ hmiddle)
      · rw [List.mem_singleton.mp h]

/-- A match ends in the text. -/
theorem text_run (r : Regex α) {before text : List α} {q : List α × List α}
    (h : q ∈ r.run before text) : q.1.reverse ++ q.2 = before.reverse ++ text := by
  induction r generalizing before text q with
  | char p =>
      cases text with
      | nil => cases h
      | cons c text =>
          simp only [run] at h
          split_ifs at h
          · simp [List.mem_singleton.mp h]
          · cases h
  | word w =>
      simp only [run] at h
      split_ifs at h with hprefix
      · obtain ⟨rest, rfl⟩ := List.isPrefixOf_iff_prefix.mp hprefix
        simp [List.mem_singleton.mp h]
      · cases h
  | seq r s ihr ihs =>
      obtain ⟨middle, hmiddle, h⟩ := List.mem_flatMap.mp h
      exact (ihs h).trans (ihr hmiddle)
  | alt r s ihr ihs =>
      rcases List.mem_append.mp h with h | h
      · exact ihr h
      · exact ihs h
  | opt r ih =>
      rcases List.mem_append.mp h with h | h
      · exact ih h
      · rw [List.mem_singleton.mp h]
  | many p => exact text_runMany h
  | manyLazy p => exact text_runManyLazy h
  | upTo n p => exact text_runUpTo h
  | plus r ih =>
      obtain ⟨middle, hmiddle, h⟩ := List.mem_flatMap.mp h
      exact (text_runStar (fun _ _ q hq => ih hq) h).trans (ih hmiddle)
  | boundary p =>
      simp only [run] at h
      split_ifs at h
      · rw [List.mem_singleton.mp h]
      · cases h
  | atEnd newline =>
      simp only [run] at h
      split_ifs at h
      · rw [List.mem_singleton.mp h]
      · cases h

/-- A repeated class ends behind one of its elements. -/
theorem head?_run_plus_char {p : α → Bool} {before text : List α} {q : List α × List α}
    (h : q ∈ (plus (char p)).run before text) : q.1.head?.any p = true := by
  have hchar {before text : List α} {q : List α × List α} (h : q ∈ (char p).run before text) :
      q.1.head?.any p = true := by
    cases text with
    | nil => cases h
    | cons c text =>
        simp only [run] at h
        split_ifs at h with hc
        · rw [List.mem_singleton.mp h]
          exact hc
        · cases h
  have hstar {fuel : Nat} {before text : List α} (hbefore : before.head?.any p = true)
      (h : q ∈ runStar (char p).run fuel before text) : q.1.head?.any p = true := by
    induction fuel generalizing before text with
    | zero => rwa [List.mem_singleton.mp h]
    | succ fuel ih =>
        rcases List.mem_append.mp h with h | h
        · obtain ⟨middle, hmiddle, h⟩ := List.mem_flatMap.mp h
          exact ih (hchar hmiddle) h
        · rwa [List.mem_singleton.mp h]
  obtain ⟨middle, hmiddle, h⟩ := List.mem_flatMap.mp h
  exact hstar (hchar hmiddle) h

/-! ## Counting and replacing -/

/-- The positions from one on at which there is a match. -/
def countFrom (r : Regex α) (before : List α) : List α → Nat
  | [] => if (r.run before []).isEmpty then 0 else 1
  | c :: text =>
      (if (r.run before (c :: text)).isEmpty then 0 else 1) + countFrom r (c :: before) text

def count (r : Regex α) (text : List α) : Nat := r.countFrom [] text

/-- `re.search` -/
def search (r : Regex α) (text : List α) : Bool := decide (0 < r.count text)

def replaceFirstFrom (r : Regex α) (new before : List α) : List α → List α
  | [] =>
      match (r.run before []).head? with
      | some q => new ++ q.2
      | none => []
  | c :: text =>
      match (r.run before (c :: text)).head? with
      | some q => new ++ q.2
      | none => c :: replaceFirstFrom r new (c :: before) text

/-- `re.sub` with `count=1`. -/
def replaceFirst (r : Regex α) (new text : List α) : List α := r.replaceFirstFrom new [] text

theorem countFrom_pos_of_append {r : Regex α} {before front rest : List α}
    (h : r.run (front.reverse ++ before) rest ≠ []) :
    0 < r.countFrom before (front ++ rest) := by
  induction front generalizing before with
  | nil =>
      have hmatch : ¬ (r.run before rest).isEmpty = true := by
        rw [List.isEmpty_iff]
        exact h
      cases rest with
      | nil =>
          rw [List.nil_append, countFrom, if_neg hmatch]
          exact Nat.one_pos
      | cons c rest =>
          rw [List.nil_append, countFrom, if_neg hmatch]
          exact Nat.lt_of_lt_of_le Nat.one_pos (Nat.le_add_right 1 _)
  | cons c front ih =>
      rw [List.reverse_cons, List.append_assoc] at h
      rw [List.cons_append, countFrom]
      exact Nat.lt_of_lt_of_le (ih h) (Nat.le_add_left _ _)

theorem foundIn_of_countFrom_pos {r : Regex α} {before text : List α}
    (h : 0 < r.countFrom before text) :
    ∃ front rest, text = front ++ rest ∧ r.run (front.reverse ++ before) rest ≠ [] := by
  induction text generalizing before with
  | nil =>
      refine ⟨[], [], rfl, fun hnone => ?_⟩
      rw [List.reverse_nil, List.nil_append] at hnone
      simp [countFrom, hnone] at h
  | cons c text ih =>
      by_cases hhere : r.run before (c :: text) = []
      · simp only [countFrom, hhere, List.isEmpty_nil, if_true, Nat.zero_add] at h
        obtain ⟨front, rest, rfl, hmatch⟩ := ih h
        refine ⟨c :: front, rest, rfl, ?_⟩
        rwa [List.reverse_cons, List.append_assoc]
      · exact ⟨[], c :: text, rfl, hhere⟩

theorem count_pos_iff {r : Regex α} {text : List α} : 0 < r.count text ↔ r.FoundIn text := by
  constructor
  · intro h
    obtain ⟨front, rest, heq, hmatch⟩ := foundIn_of_countFrom_pos h
    exact ⟨front, rest, heq, by rwa [List.append_nil] at hmatch⟩
  · rintro ⟨front, rest, rfl, hmatch⟩
    exact countFrom_pos_of_append (by rwa [List.append_nil])

theorem search_iff {r : Regex α} {text : List α} : r.search text = true ↔ r.FoundIn text :=
  decide_eq_true_iff.trans count_pos_iff

instance (r : Regex α) (text : List α) : Decidable (r.FoundIn text) :=
  decidable_of_iff _ search_iff

end Regex

end VirtualContext.Library
