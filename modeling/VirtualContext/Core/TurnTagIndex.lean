import VirtualContext.Library.Dictionary
import VirtualContext.Library.Isoformat
import VirtualContext.Types

/-!
# The turn tag index

The live index of the tags of each turn, with one entry for each turn number.
Its cover set is a greedy choice of tags that touch every turn.
-/

namespace VirtualContext

open VirtualContext.Library

/-- Tag metadata for a single round trip. -/
structure TurnTagEntry where
  turnNumber : Int := -1
  messageHash : HexDigest := []
  canonicalTurnId : Uuid := 0
  tags : List String := []
  primaryTag : String := "_general"
  timestamp : Datetime
  sessionDate : String := ""
  factSignals : List FactSignal := []
  sender : String := ""
  codeRefs : List CodeRef := []
  deriving DecidableEq, Repr

/-- `max(numbers, default=default)` -/
def maxOf (default : Int) : List Int → Int
  | [] => default
  | first :: rest => rest.foldl max first

/-- A timestamp for examples. -/
def newYear : Datetime := ⟨{ year := 2025, month := 1, day := 1 }, rfl⟩

/-- The entries, and the turn under which each canonical turn was appended. -/
structure TurnTagIndex where
  entries : List TurnTagEntry := []
  byCanonicalTurn : List (Uuid × Int) := []
  distinct : (entries.map (·.turnNumber)).Nodup := by simp

namespace TurnTagIndex

protected def empty : TurnTagIndex := {}

@[simp] theorem entries_empty : TurnTagIndex.empty.entries = [] := rfl

variable (index : TurnTagIndex)

/-- A turn number or canonical turn that is there already is kept. -/
def append (entry : TurnTagEntry) : TurnTagIndex :=
  if h : entry.turnNumber ∈ index.entries.map (·.turnNumber) then index
  else if entry.canonicalTurnId ≠ 0 ∧
      entry.canonicalTurnId ∈ index.byCanonicalTurn.map (·.1) then index
  else
    { entries := index.entries ++ [entry]
      byCanonicalTurn :=
        if entry.canonicalTurnId ≠ 0 then
          index.byCanonicalTurn ++ [(entry.canonicalTurnId, entry.turnNumber)]
        else index.byCanonicalTurn
      distinct := by
        simpa using List.nodup_append.mpr
          ⟨index.distinct, List.nodup_singleton entry.turnNumber, by
            simpa using fun other hother heq => h
              (List.mem_map.mpr ⟨other, hother, heq⟩)⟩ }

def getTagsForLogicalTurn (turnNumber : Int) : Option TurnTagEntry :=
  index.entries.find? (·.turnNumber = turnNumber)

/-- Of several entries with the hash the last one. -/
def getEntryByHash (messageHash : HexDigest) : Option TurnTagEntry :=
  index.entries.reverse.find? fun entry =>
    entry.messageHash ≠ [] ∧ entry.messageHash = messageHash

/-! ## The cover set -/

/-- The turns of each tag, without the tag that says nothing. -/
def tagToTurns : Dictionary String Int :=
  Dictionary.ofPairs (index.entries.flatMap fun entry =>
    (entry.tags.filter (· ≠ "_general")).map fun tag =>
      (tag, entry.turnNumber))

end TurnTagIndex

/-- The turns of a tag that are not covered yet. -/
def coveredBy (entry : String × List Int) (uncovered : List Int) : List Int :=
  uncovered.filter (· ∈ entry.2)

/-- A tag takes the place of one that covers fewer turns. -/
def better (uncovered : List Int) (best entry : String × List Int) :
    String × List Int :=
  if (coveredBy best uncovered).length < (coveredBy entry uncovered).length then
    entry
  else best

/-- `max(tag_to_turns, key=...)`, the first of several. -/
def bestTag (uncovered : List Int) :
    Dictionary String Int → Option (String × List Int)
  | [] => none
  | first :: rest => some (rest.foldl (better uncovered) first)

/-- The loop over the uncovered turns, of which each round covers some. -/
def coverLoop (tagToTurns : Dictionary String Int) :
    (fuel : Nat) → (uncovered : List Int) → List String
  | 0, _ => []
  | fuel + 1, uncovered =>
      if uncovered.isEmpty then []
      else
        match bestTag uncovered tagToTurns with
        | none => []
        | some best =>
            if (coveredBy best uncovered).isEmpty then []
            else
              best.1 :: coverLoop tagToTurns fuel
                (uncovered.filter (· ∉ best.2))

def TurnTagIndex.computeCoverSet (index : TurnTagIndex) : List String :=
  coverLoop index.tagToTurns index.entries.length
    (index.entries.map (·.turnNumber))

section Cover

variable {tagToTurns : Dictionary String Int} (uncovered : List Int)

theorem le_better (first second : String × List Int) :
    (coveredBy first uncovered).length ≤
        (coveredBy (better uncovered first second) uncovered).length ∧
      (coveredBy second uncovered).length ≤
        (coveredBy (better uncovered first second) uncovered).length := by
  unfold better
  split_ifs with hlt <;> omega

theorem le_foldl_better (first : String × List Int)
    (rest : List (String × List Int)) :
    rest.foldl (better uncovered) first ∈ first :: rest ∧
      ∀ entry ∈ first :: rest, (coveredBy entry uncovered).length ≤
        (coveredBy (rest.foldl (better uncovered) first) uncovered).length := by
  induction rest generalizing first with
  | nil => simp
  | cons second rest ih =>
      obtain ⟨hmem, hmax⟩ := ih (better uncovered first second)
      have hbetter := hmax _ List.mem_cons_self
      obtain ⟨hfirst, hsecond⟩ := le_better uncovered first second
      rw [List.foldl_cons]
      constructor
      · have hchoice : better uncovered first second ∈ [first, second] := by
          unfold better
          split_ifs <;> simp
        rcases List.mem_cons.mp hmem with heq | hmem
        · rw [heq]
          exact List.mem_append_left rest hchoice
        · simp [hmem]
      · intro entry hentry
        rcases List.mem_cons.mp hentry with rfl | hentry
        · exact Nat.le_trans hfirst hbetter
        · rcases List.mem_cons.mp hentry with rfl | hentry
          · exact Nat.le_trans hsecond hbetter
          · exact hmax entry (List.mem_cons_of_mem _ hentry)

/-- The best tag covers at least as much as any other. -/
theorem bestTag_max {entry : String × List Int} (hentry : entry ∈ tagToTurns) :
    ∃ best ∈ tagToTurns, bestTag uncovered tagToTurns = some best ∧
      (coveredBy entry uncovered).length ≤
        (coveredBy best uncovered).length := by
  cases tagToTurns with
  | nil => cases hentry
  | cons first rest =>
      obtain ⟨hmem, hmax⟩ := le_foldl_better uncovered first rest
      exact ⟨_, hmem, rfl, hmax entry hentry⟩

/-- A turn of some tag is a turn of a tag that the loop chooses. -/
theorem exists_mem_coverLoop (fuel : Nat) (hfuel : uncovered.length ≤ fuel)
    {turn : Int} (hturn : turn ∈ uncovered) {entry : String × List Int}
    (hentry : entry ∈ tagToTurns) (htagged : turn ∈ entry.2) :
    ∃ chosen ∈ tagToTurns, chosen.1 ∈ coverLoop tagToTurns fuel uncovered ∧
      turn ∈ chosen.2 := by
  induction fuel generalizing uncovered with
  | zero =>
      rw [List.length_eq_zero_iff.mp (Nat.le_zero.mp hfuel)] at hturn
      cases hturn
  | succ fuel ih =>
      have hcovered : 0 < (coveredBy entry uncovered).length :=
        List.length_pos_of_mem
          (List.mem_filter.mpr ⟨hturn, by simpa using htagged⟩)
      obtain ⟨best, hbest, heq, hle⟩ := bestTag_max uncovered hentry
      have hcut := List.length_eq_length_filter_add (l := uncovered)
        (fun turn => decide (turn ∈ best.2))
      simp only [← decide_not] at hcut
      change uncovered.length = (coveredBy best uncovered).length + _ at hcut
      rw [coverLoop, if_neg (by simpa using List.ne_nil_of_mem hturn), heq]
      dsimp only
      rw [if_neg (by
        rw [List.isEmpty_iff, ← List.length_eq_zero_iff]
        omega)]
      by_cases hchosen : turn ∈ best.2
      · exact ⟨best, hbest, by simp, hchosen⟩
      · obtain ⟨chosen, hmem, hloop, hturn'⟩ := ih
          (uncovered.filter (· ∉ best.2)) (by omega)
          (List.mem_filter.mpr ⟨hturn, by simpa using hchosen⟩)
        exact ⟨chosen, hmem, List.mem_cons_of_mem _ hloop, hturn'⟩

end Cover

/-- Every turn with a tag that says something has a tag in the cover set. -/
theorem exists_mem_computeCoverSet {index : TurnTagIndex} {entry : TurnTagEntry}
    (hentry : entry ∈ index.entries) {tag : String} (htag : tag ∈ entry.tags)
    (hgeneral : tag ≠ "_general") :
    ∃ chosen ∈ index.computeCoverSet, chosen ∈ entry.tags := by
  have hpair : (tag, entry.turnNumber) ∈ index.entries.flatMap fun entry =>
      (entry.tags.filter (· ≠ "_general")).map fun tag =>
        (tag, entry.turnNumber) :=
    List.mem_flatMap.mpr ⟨entry, hentry, List.mem_map.mpr
      ⟨tag, List.mem_filter.mpr ⟨htag, by simpa using hgeneral⟩, rfl⟩⟩
  have hget := Dictionary.mem_get_ofPairs.mpr hpair
  obtain ⟨first, hfirst, hkey⟩ :=
    List.mem_map.mp (Dictionary.mem_keys_of_mem_get hget)
  have hturns := Dictionary.get_eq_of_mem (Dictionary.keys_ofPairs_nodup _)
    hfirst
  rw [hkey] at hturns
  obtain ⟨⟨chosen, turns⟩, hmem, hloop, hturn⟩ := exists_mem_coverLoop
    (index.entries.map (·.turnNumber)) index.entries.length (by simp)
    (List.mem_map_of_mem hentry) hfirst (hturns ▸ hget)
  refine ⟨chosen, hloop, ?_⟩
  rw [(Dictionary.mem_ofPairs.mp hmem).1] at hturn
  obtain ⟨⟨chosen', turn⟩, hpair', hturn'⟩ := List.mem_map.mp hturn
  obtain ⟨hpair', heq⟩ := List.mem_filter.mp hpair'
  obtain ⟨other, hother, hpair'⟩ := List.mem_flatMap.mp hpair'
  obtain ⟨tag', htag', hpair'⟩ := List.mem_map.mp hpair'
  cases hpair'
  have hsame := List.inj_on_of_nodup_map index.distinct hother hentry hturn'
  rw [← of_decide_eq_true heq, ← hsame]
  exact (List.mem_filter.mp htag').1

end VirtualContext
