import Mathlib.Data.Finset.Lattice.Fold
import Mathlib.Order.Lattice.Nat
import VirtualContext.Core.TurnTagIndex
import VirtualContext.Library.GreedyCover

/-!
# Cover sets

`compute_cover_set` with the tags to exclude as an argument.  Its loop makes a
greedy cover of the turns, from which the bound on its length follows.
-/

namespace VirtualContext

open VirtualContext.Library

namespace TurnTagIndex

variable (index : TurnTagIndex)

/-- The turns of each tag that is not excluded. -/
def tagToTurnsExcept (exclude : Finset String) : Dictionary String Int :=
  Dictionary.ofPairs (index.entries.flatMap fun entry =>
    (entry.tags.filter (· ∉ exclude)).map fun tag => (tag, entry.turnNumber))

/-- `compute_cover_set(exclude_tags)`, without `_general` by default. -/
def computeCoverSetExcept (excludeTags : Option (Finset String)) : List String :=
  if index.entries.isEmpty then []
  else
    let tagToTurns := index.tagToTurnsExcept (excludeTags.getD {"_general"})
    if tagToTurns.isEmpty then []
    else
      coverLoop tagToTurns index.entries.length (index.entries.map (·.turnNumber))

/-! ## What a cover set is for -/

/-- The turns that a tag covers: those it is on, if it is not excluded. -/
def turnsOf (exclude : Finset String) (tag : String) : Finset Int :=
  ((index.entries.filter fun entry => tag ∈ entry.tags ∧ tag ∉ exclude).map
    (·.turnNumber)).toFinset

/-- The tags cover every turn that has a tag which is not excluded. -/
def CoversTurns (exclude : Finset String) (tags : List String) : Prop :=
  ∀ tag, ∀ turn ∈ index.turnsOf exclude tag, ∃ chosen ∈ tags,
    turn ∈ index.turnsOf exclude chosen

/-- The largest number of turns of one tag. -/
def mostTurns (exclude : Finset String) : Nat :=
  (index.entries.flatMap (·.tags)).toFinset.sup fun tag =>
    (index.turnsOf exclude tag).card

/-- A cover of the turns, chosen greedily and not much longer than any other. -/
structure GreedyCoverSet (exclude : Finset String) (cover : List String) : Prop where
  distinct : cover.Nodup
  allowed : ∀ tag ∈ cover, tag ∉ exclude
  covers : index.CoversTurns exclude cover
  coversNew : ∀ count ∈ newCounts (index.turnsOf exclude) [] cover, 0 < count
  nonIncreasing : (newCounts (index.turnsOf exclude) [] cover).Pairwise (· ≥ ·)
  length_le : ∀ other : Finset String, index.CoversTurns exclude other.toList →
    (cover.length : ℚ) ≤ harmonic (index.mostTurns exclude) * other.card

variable {index} {exclude : Finset String} {tag : String} {turn : Int}

theorem mem_turnsOf :
    turn ∈ index.turnsOf exclude tag ↔
      tag ∉ exclude ∧ ∃ entry ∈ index.entries, tag ∈ entry.tags ∧
        entry.turnNumber = turn := by
  simp only [turnsOf, List.mem_toFinset, List.mem_map, List.mem_filter,
    decide_eq_true_eq]
  constructor
  · rintro ⟨entry, ⟨hentry, htag, hallowed⟩, hturn⟩
    exact ⟨hallowed, entry, hentry, htag, hturn⟩
  · rintro ⟨hallowed, entry, hentry, htag, hturn⟩
    exact ⟨entry, ⟨hentry, htag, hallowed⟩, hturn⟩

theorem turnsOf_eq_get :
    index.turnsOf exclude tag = ((index.tagToTurnsExcept exclude).get tag).toFinset := by
  ext turn
  rw [mem_turnsOf, List.mem_toFinset, tagToTurnsExcept, Dictionary.mem_get_ofPairs]
  simp only [List.mem_flatMap, List.mem_map, List.mem_filter, decide_eq_true_eq,
    Prod.mk.injEq]
  constructor
  · rintro ⟨hallowed, entry, hentry, htag, hturn⟩
    exact ⟨entry, hentry, tag, ⟨htag, hallowed⟩, rfl, hturn⟩
  · rintro ⟨entry, hentry, _, ⟨htag, hallowed⟩, rfl, hturn⟩
    exact ⟨hallowed, entry, hentry, htag, hturn⟩

theorem card_turnsOf_le (tag : String) :
    (index.turnsOf exclude tag).card ≤ index.mostTurns exclude := by
  by_cases htag : tag ∈ (index.entries.flatMap (·.tags)).toFinset
  · exact Finset.le_sup (f := fun tag => (index.turnsOf exclude tag).card) htag
  · have hnone : index.turnsOf exclude tag = ∅ := by
      rw [Finset.eq_empty_iff_forall_notMem]
      rintro turn hturn
      obtain ⟨-, entry, hentry, hmem, -⟩ := mem_turnsOf.mp hturn
      exact htag (List.mem_toFinset.mpr (List.mem_flatMap.mpr ⟨entry, hentry, hmem⟩))
    simp [hnone]

end TurnTagIndex

/-! ## The loop is greedy -/

section Loop

variable {tagToTurns : Dictionary String Int} {uncovered : List Int}

theorem bestTag_spec {best : String × List Int}
    (h : bestTag uncovered tagToTurns = some best) :
    best ∈ tagToTurns ∧ ∀ entry ∈ tagToTurns,
      (coveredBy entry uncovered).length ≤ (coveredBy best uncovered).length := by
  cases tagToTurns with
  | nil => cases h
  | cons first rest =>
      obtain rfl := Option.some.inj h
      exact le_foldl_better uncovered first rest

theorem length_coveredBy (hnodup : uncovered.Nodup) (entry : String × List Int) :
    (coveredBy entry uncovered).length =
      (entry.2.toFinset ∩ uncovered.toFinset).card := by
  unfold coveredBy
  rw [← List.toFinset_card_of_nodup (hnodup.filter _)]
  congr 1
  ext turn
  simp [and_comm]

theorem card_get_le (hkeys : tagToTurns.keys.Nodup) (hnodup : uncovered.Nodup) {n : Nat}
    (hall : ∀ entry ∈ tagToTurns, (coveredBy entry uncovered).length ≤ n)
    (tag : String) : ((tagToTurns.get tag).toFinset ∩ uncovered.toFinset).card ≤ n := by
  by_cases htag : tag ∈ tagToTurns.keys
  · obtain ⟨entry, hentry, rfl⟩ := List.mem_map.mp htag
    rw [Dictionary.get_eq_of_mem hkeys hentry, ← length_coveredBy hnodup]
    exact hall entry hentry
  · have hnone : tagToTurns.get tag = [] :=
      List.eq_nil_iff_forall_not_mem.mpr fun turn hturn =>
        htag (Dictionary.mem_keys_of_mem_get hturn)
    simp [hnone]

theorem coverLoop_greedy (hkeys : tagToTurns.keys.Nodup) (fuel : Nat)
    (hfuel : uncovered.length ≤ fuel) (hnodup : uncovered.Nodup) :
    Greedy (fun tag => (tagToTurns.get tag).toFinset) uncovered.toFinset
      (coverLoop tagToTurns fuel uncovered) := by
  have hdone {uncovered : List Int} (hnodup : uncovered.Nodup)
      (h : ∀ entry ∈ tagToTurns, (coveredBy entry uncovered).length ≤ 0) :
      Greedy (fun tag => (tagToTurns.get tag).toFinset) uncovered.toFinset [] :=
    .done fun tag => Finset.card_eq_zero.mp
      (Nat.le_zero.mp (card_get_le hkeys hnodup h tag))
  induction fuel generalizing uncovered with
  | zero =>
      obtain rfl := List.length_eq_zero_iff.mp (Nat.le_zero.mp hfuel)
      exact hdone hnodup fun _ _ => le_rfl
  | succ fuel ih =>
      rw [coverLoop]
      split_ifs with hempty
      · obtain rfl := List.isEmpty_iff.mp hempty
        exact hdone hnodup fun _ _ => le_rfl
      · cases hbest : bestTag uncovered tagToTurns with
        | none =>
            cases tagToTurns with
            | nil => exact hdone hnodup (by simp)
            | cons first rest => cases hbest
        | some best =>
            obtain ⟨hmem, hmax⟩ := bestTag_spec hbest
            have hget := Dictionary.get_eq_of_mem hkeys hmem
            have hcount := length_coveredBy hnodup best
            dsimp only
            split_ifs with hnone
            · rw [List.isEmpty_iff.mp hnone] at hmax
              exact hdone hnodup hmax
            · have hpos : 0 < (coveredBy best uncovered).length :=
                List.length_pos_of_ne_nil (by simpa using hnone)
              have hcut := List.length_eq_length_filter_add (l := uncovered)
                (fun turn => decide (turn ∈ best.2))
              simp only [← decide_not] at hcut
              change uncovered.length = (coveredBy best uncovered).length + _ at hcut
              refine .choose ?_ ?_ ?_
              · rw [hget, ← Finset.card_pos, ← hcount]
                exact hpos
              · intro tag
                rw [hget, ← hcount]
                exact card_get_le hkeys hnodup hmax tag
              · have hleft : uncovered.toFinset \ (tagToTurns.get best.1).toFinset =
                    (uncovered.filter (· ∉ best.2)).toFinset := by
                  ext turn
                  simp [hget]
                rw [hleft]
                exact ih (by omega) (hnodup.filter _)

/-- Each round leaves fewer turns, so that more rounds change nothing. -/
theorem coverLoop_enough {fuel : Nat} (hfuel : uncovered.length ≤ fuel) :
    coverLoop tagToTurns (fuel + 1) uncovered = coverLoop tagToTurns fuel uncovered := by
  induction fuel generalizing uncovered with
  | zero =>
      obtain rfl := List.length_eq_zero_iff.mp (Nat.le_zero.mp hfuel)
      rfl
  | succ fuel ih =>
      rw [coverLoop, coverLoop]
      split_ifs with hempty
      · rfl
      · cases hbest : bestTag uncovered tagToTurns with
        | none => rfl
        | some best =>
            dsimp only
            split_ifs with hnone
            · rfl
            · have hpos : 0 < (coveredBy best uncovered).length :=
                List.length_pos_of_ne_nil (by simpa using hnone)
              have hcut := List.length_eq_length_filter_add (l := uncovered)
                (fun turn => decide (turn ∈ best.2))
              simp only [← decide_not] at hcut
              change uncovered.length = (coveredBy best uncovered).length + _ at hcut
              rw [ih (by omega)]

theorem coverLoop_fuel {fuel : Nat} (hfuel : uncovered.length ≤ fuel) :
    coverLoop tagToTurns fuel uncovered =
      coverLoop tagToTurns uncovered.length uncovered := by
  induction fuel, hfuel using Nat.le_induction with
  | base => rfl
  | succ fuel hfuel ih => rw [coverLoop_enough hfuel, ih]

end Loop

namespace TurnTagIndex

variable {index : TurnTagIndex}

/-- The early returns are what the loop does. -/
theorem computeCoverSetExcept_eq_loop (excludeTags : Option (Finset String)) {fuel : Nat}
    (hfuel : index.entries.length ≤ fuel) :
    index.computeCoverSetExcept excludeTags =
      coverLoop (index.tagToTurnsExcept (excludeTags.getD {"_general"})) fuel
        (index.entries.map (·.turnNumber)) := by
  rw [coverLoop_fuel (by simpa using hfuel), List.length_map]
  unfold computeCoverSetExcept
  split_ifs with hentries
  · rw [List.isEmpty_iff.mp hentries]
    rfl
  · dsimp only
    split_ifs with htags
    · rw [List.isEmpty_iff.mp htags]
      cases index.entries.length with
      | zero => rfl
      | succ n => simp [coverLoop, bestTag]
    · rfl

theorem computeCoverSetExcept_none (index : TurnTagIndex) :
    index.computeCoverSetExcept none = index.computeCoverSet := by
  rw [computeCoverSetExcept_eq_loop none le_rfl]
  have hturns : index.tagToTurnsExcept (Option.getD none {"_general"}) =
      index.tagToTurns := by
    simp [tagToTurnsExcept, tagToTurns]
  rw [hturns]
  rfl

end TurnTagIndex

/--
`compute_cover_set` returns whatever it is given to exclude: its loop comes to an
end within as many rounds as there are turns, with a greedy cover of the turns.
-/
theorem compute_cover_set_greedy (index : TurnTagIndex)
    (excludeTags : Option (Finset String)) :
    let exclude := excludeTags.getD {"_general"}
    let cover := index.computeCoverSetExcept excludeTags
    index.GreedyCoverSet exclude cover ∧
      ∀ fuel, index.entries.length ≤ fuel →
        coverLoop (index.tagToTurnsExcept exclude) fuel
          (index.entries.map (·.turnNumber)) = cover := by
  intro exclude cover
  have hloop : ∀ fuel, index.entries.length ≤ fuel →
      coverLoop (index.tagToTurnsExcept exclude) fuel
        (index.entries.map (·.turnNumber)) = cover :=
    fun fuel hfuel => (TurnTagIndex.computeCoverSetExcept_eq_loop excludeTags hfuel).symm
  refine ⟨?_, hloop⟩
  have hcovers : index.turnsOf exclude =
      fun tag => ((index.tagToTurnsExcept exclude).get tag).toFinset :=
    funext fun tag => TurnTagIndex.turnsOf_eq_get
  have hkeys : (index.tagToTurnsExcept exclude).keys.Nodup :=
    Dictionary.keys_ofPairs_nodup _
  have hgreedy := coverLoop_greedy hkeys index.entries.length (by simp) index.distinct
  rw [hloop _ le_rfl, ← hcovers] at hgreedy
  have hwithin : ∀ tag, index.turnsOf exclude tag ⊆
      (index.entries.map (·.turnNumber)).toFinset := by
    intro tag turn hturn
    obtain ⟨-, entry, hentry, -, rfl⟩ := TurnTagIndex.mem_turnsOf.mp hturn
    exact List.mem_toFinset.mpr (List.mem_map_of_mem hentry)
  have hcounts := hgreedy.newCounts_spec [] fun tag => by
    rw [Finset.inter_eq_left.mpr (hwithin tag)]
    simp [newlyCovered]
  constructor
  · exact hgreedy.nodup
  · intro tag htag
    obtain ⟨turn, hturn⟩ := hgreedy.inter_nonempty tag htag
    exact (TurnTagIndex.mem_turnsOf.mp (Finset.mem_inter.mp hturn).1).1
  · intro tag turn hturn
    exact hgreedy.mem_covered (hwithin tag hturn) hturn
  · exact fun count hcount => (hcounts.1 count hcount).1
  · exact hcounts.2
  · intro other hother
    refine hgreedy.length_le (fun tag turn hturn => ?_) TurnTagIndex.card_turnsOf_le
    obtain ⟨chosen, hchosen, hmem⟩ := hother tag turn (Finset.mem_inter.mp hturn).1
    exact ⟨chosen, Finset.mem_toList.mp hchosen, hmem⟩

end VirtualContext
