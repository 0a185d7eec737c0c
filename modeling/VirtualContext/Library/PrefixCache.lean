import Mathlib.Data.List.Basic

/-!
# Counts kept from an earlier list

Entries are counted, and the counts of an earlier list are used again as long as
the keys of its entries agree with those of the new one.  This is the same as to
count all entries just if the key tells the count on the prefix that is shared.
-/

namespace VirtualContext.Library

variable {α κ β : Type} [DecidableEq κ] (key : α → κ) (count : α → β)

/-- The kept entries that are used again. -/
def reusedPrefix : List (κ × β) → List α → List (κ × β)
  | kept :: cached, a :: as =>
      if key a = kept.1 then kept :: reusedPrefix cached as else []
  | _, _ => []

def countAll (as : List α) : List (κ × β) := as.map fun a => (key a, count a)

def recount (cached : List (κ × β)) (as : List α) : List (κ × β) :=
  let reused := reusedPrefix key cached as
  reused ++ countAll key count (as.drop reused.length)

/-- The pairs of entries at the start of two lists with the same keys. -/
def sharedPrefix (old new : List α) : List (α × α) :=
  (old.zip new).takeWhile fun pair => key pair.1 = key pair.2

variable {key count}

@[simp] theorem recount_nil (as : List α) : recount key count [] as = countAll key count as := by
  cases as <;> rfl

/-- Using counts again is the same as counting just if equal keys mean equal counts. -/
theorem recount_eq_iff (old new : List α) :
    recount key count (countAll key count old) new = countAll key count new ↔
      ∀ pair ∈ sharedPrefix key old new, count pair.1 = count pair.2 := by
  induction old generalizing new with
  | nil =>
      refine iff_of_true (recount_nil new) ?_
      simp [sharedPrefix]
  | cons a old ih =>
      cases new with
      | nil => simp [recount, reusedPrefix, countAll, sharedPrefix]
      | cons b new =>
          have hrest := ih new
          by_cases hkey : key a = key b
          · rw [recount, countAll] at hrest ⊢
            rw [List.map_cons, reusedPrefix, if_pos hkey.symm]
            simp only [sharedPrefix, List.zip_cons_cons, List.takeWhile_cons, hkey,
              decide_true, if_true, List.forall_mem_cons]
            rw [← sharedPrefix, ← hrest]
            simp [countAll, hkey]
          · have hne : ¬key b = key a := fun h => hkey h.symm
            simp [recount, countAll, reusedPrefix, hne, sharedPrefix, hkey]

end VirtualContext.Library
