import Mathlib.Algebra.GroupWithZero.Nat
import VirtualContext.Core.SegmentTurns
import VirtualContext.Core.TurnTagIndex
import VirtualContext.Library.Flatten

/-!
# The index entries of the turns to compact

The entry of a turn is looked up under the number of the first row plus the
position of the turn.  It is that of the row if the rows before it make as many
turns as their numbers say.
-/

namespace VirtualContext

open VirtualContext.Library

/-! ## Entries -/

namespace TurnTagIndex

variable (index : TurnTagIndex)

def getTagsForCanonicalTurn (canonicalTurnId : Uuid) : Option TurnTagEntry :=
  (index.byCanonicalTurn.lookup canonicalTurnId).bind index.getTagsForLogicalTurn

/-- The entry that is bound to a row, else the one under its number. -/
def entryOfRow (row : CanonicalTurnRow) : Option TurnTagEntry :=
  (index.getTagsForCanonicalTurn row.canonicalTurnId).or
    (index.getTagsForLogicalTurn row.turnNumber)

/-- The number is that of the entry, or that of none. -/
def IsNumberOf (number : Int) : Option TurnTagEntry → Prop
  | some entry => entry.turnNumber = number
  | none => ∀ entry ∈ index.entries, entry.turnNumber ≠ number

variable {index}

theorem getTagsForLogicalTurn_eq_some_iff {number : Int} {entry : TurnTagEntry} :
    index.getTagsForLogicalTurn number = some entry ↔
      entry ∈ index.entries ∧ entry.turnNumber = number := by
  unfold getTagsForLogicalTurn
  constructor
  · intro h
    exact ⟨List.mem_of_find?_eq_some h, by simpa using List.find?_some h⟩
  · rintro ⟨hmem, rfl⟩
    cases hfind : index.entries.find? (·.turnNumber = entry.turnNumber) with
    | none => exact absurd (decide_eq_true rfl) (List.find?_eq_none.mp hfind entry hmem)
    | some found =>
        have hnumber : found.turnNumber = entry.turnNumber := by
          simpa using List.find?_some hfind
        exact congrArg some
          (List.inj_on_of_nodup_map index.distinct (List.mem_of_find?_eq_some hfind) hmem hnumber)

theorem mem_of_entryOfRow {row : CanonicalTurnRow} {entry : TurnTagEntry}
    (h : index.entryOfRow row = some entry) : entry ∈ index.entries := by
  rcases Option.or_eq_some_iff.mp h with hbound | ⟨-, hnumber⟩
  · obtain ⟨number, -, hget⟩ := Option.bind_eq_some_iff.mp hbound
    exact (getTagsForLogicalTurn_eq_some_iff.mp hget).1
  · exact (getTagsForLogicalTurn_eq_some_iff.mp hnumber).1

/-- A lookup finds the entry of a row under the number of that entry. -/
theorem getTagsForLogicalTurn_eq_entryOfRow_iff {number : Int} {row : CanonicalTurnRow} :
    index.getTagsForLogicalTurn number = index.entryOfRow row ↔
      index.IsNumberOf number (index.entryOfRow row) := by
  cases hentry : index.entryOfRow row with
  | none =>
      rw [getTagsForLogicalTurn, List.find?_eq_none]
      simp [IsNumberOf]
  | some entry =>
      rw [getTagsForLogicalTurn_eq_some_iff]
      exact and_iff_right (mem_of_entryOfRow hentry)

end TurnTagIndex

/-! ## Lookups -/

/-- The tags of a turn: those of the entry, else generated ones. -/
def indexTags (index : TurnTagIndex) (generateTags : String → TagResult) (globalTurn : Int)
    (combined : String) : TagResult :=
  match index.getTagsForLogicalTurn globalTurn with
  | some entry => ⟨entry.tags, entry.primaryTag⟩
  | none => generateTags combined

/-- The turns that are not blank, with the entries that are looked up for them. -/
def lookups (index : TurnTagIndex) (turnOffset : Int) (pairs : List TurnPair) :
    List (TurnPair × Option TurnTagEntry) :=
  pairs.zipIdx.filterMap fun (pair, i) =>
    if pair.isBlank then none else some (pair, index.getTagsForLogicalTurn (turnOffset + i))

/-- The turn tagged with the entry, if there is one. -/
def tagWith (generateTags : String → TagResult) (lookup : TurnPair × Option TurnTagEntry) :
    TaggedTurn :=
  ⟨lookup.1, match lookup.2 with
    | some entry => ⟨entry.tags, entry.primaryTag⟩
    | none => generateTags (joinContents lookup.1.messages)⟩

/-- The segmenter with the index. -/
def TopicSegmenter.reading (segmenter : TopicSegmenter) (index : TurnTagIndex)
    (generateTags : String → TagResult) : TopicSegmenter :=
  { segmenter with tagsOfTurn := indexTags index generateTags }

theorem tagTurns_reading (segmenter : TopicSegmenter) (index : TurnTagIndex)
    (generateTags : String → TagResult) (turnOffset : Int) (pairs : List TurnPair) :
    (segmenter.reading index generateTags).tagTurns turnOffset pairs =
      (lookups index turnOffset pairs).map (tagWith generateTags) := by
  rw [TopicSegmenter.tagTurns, lookups, List.map_filterMap]
  refine List.filterMap_congr fun entry _ => ?_
  obtain ⟨pair, i⟩ := entry
  by_cases hblank : pair.isBlank
  · simp [hblank]
  · simp only [hblank, if_false, Option.map_some]
    rfl

/-! ## Positions -/

/-- The number of the turns that a row makes: each header inside a text adds one. -/
def CanonicalTurnRow.pairCount (row : CanonicalTurnRow) : Nat :=
  let parts (text : String) :=
    (splitSessionBoundaryMessage { role := "user", content := text }).length
  parts row.userContent + parts row.assistantContent - 1

/-- The position of the `k`-th turn of the `r`-th row. -/
def turnPosition (rows : List CanonicalTurnRow) (r k : Nat) : Nat :=
  ((rows.take r).map (·.pairCount)).sum + k

/-- The turns of each row stand where the number of its entry says. -/
def InStep (index : TurnTagIndex) (rows : List CanonicalTurnRow) : Prop :=
  ∀ r, ∀ row ∈ rows[r]?, ∀ k, ∀ pair ∈ (pairTurns (messagesOfRow r row))[k]?,
    pair.isBlank = false →
      index.IsNumberOf ((rows.head?.map (·.turnNumber)).getD 0 + turnPosition rows r k)
        (index.entryOfRow row)

theorem length_split_eq (msg : RowMessage) (role content : String)
    (hcontent : msg.content = content) :
    (splitSessionBoundaryMessage msg).length =
      (splitSessionBoundaryMessage { role := role, content := content }).length := by
  subst hcontent
  unfold splitSessionBoundaryMessage
  dsimp only
  split
  · split_ifs <;> rfl
  · rfl

theorem length_pairMessages_answers {answers : List RowMessage}
    (h : ∀ msg ∈ answers, msg.role = "assistant") :
    (pairMessages [] answers).length = answers.length := by
  induction answers with
  | nil => rfl
  | cons msg answers ih =>
      have hrole := h msg List.mem_cons_self
      rw [pairMessages, if_neg (by simp [hrole]), if_pos hrole, List.length_cons,
        ih fun m hm => h m (List.mem_cons_of_mem _ hm), List.length_cons]

/-- Each message of the user but the last is a turn of its own. -/
theorem length_pairMessages_users {users answers : List RowMessage} {user answer : RowMessage}
    (husers : ∀ msg ∈ users, msg.role = "user")
    (hanswers : ∀ msg ∈ answer :: answers, msg.role = "assistant") :
    (pairMessages [user] (users ++ answer :: answers)).length =
      users.length + (answers.length + 1) := by
  induction users generalizing user with
  | nil =>
      have hrole := hanswers answer List.mem_cons_self
      rw [List.nil_append, pairMessages, if_neg (by simp [hrole]), if_pos hrole, List.length_cons,
        length_pairMessages_answers fun m hm => hanswers m (List.mem_cons_of_mem _ hm)]
      simp
  | cons msg users ih =>
      rw [List.cons_append, pairMessages, if_pos (husers msg List.mem_cons_self),
        List.length_append, ih fun m hm => husers m (List.mem_cons_of_mem _ hm)]
      simp only [flushTurn, List.isEmpty_cons, Bool.false_eq_true, if_false, List.length_cons,
        List.length_nil]
      omega

theorem length_pairTurns_messagesOfRow (i : Nat) (row : CanonicalTurnRow) :
    (pairTurns (messagesOfRow i row)).length = row.pairCount := by
  let question : RowMessage := { role := "user", content := row.userContent, row := some i }
  let reply : RowMessage :=
    { role := "assistant", content := row.assistantContent, row := some i }
  obtain ⟨user, users, husers⟩ :=
    List.exists_cons_of_ne_nil (splitSessionBoundaryMessage_ne_nil question)
  obtain ⟨answer, answers, hanswers⟩ :=
    List.exists_cons_of_ne_nil (splitSessionBoundaryMessage_ne_nil reply)
  have huserRole : ∀ msg ∈ user :: users, msg.role = "user" := fun msg hmsg =>
    (mem_splitSessionBoundaryMessage (husers ▸ hmsg)).1
  have hanswerRole : ∀ msg ∈ answer :: answers, msg.role = "assistant" := fun msg hmsg =>
    (mem_splitSessionBoundaryMessage (hanswers ▸ hmsg)).1
  have hpairs : pairTurns (messagesOfRow i row) =
      pairMessages [user] (users ++ answer :: answers) := by
    change pairMessages [] (splitSessionBoundaryMessages [question, reply]) = _
    have hsplit : splitSessionBoundaryMessages [question, reply] =
        user :: (users ++ answer :: answers) := by
      simp [splitSessionBoundaryMessages, husers, hanswers]
    rw [hsplit, pairMessages, if_pos (huserRole user List.mem_cons_self)]
    rfl
  have hleft := length_split_eq question "user" row.userContent rfl
  have hright := length_split_eq reply "user" row.assistantContent rfl
  rw [husers] at hleft
  rw [hanswers] at hright
  rw [hpairs, length_pairMessages_users (fun m hm => huserRole m (List.mem_cons_of_mem _ hm))
    hanswerRole]
  unfold CanonicalTurnRow.pairCount
  dsimp only
  rw [← hleft, ← hright, List.length_cons, List.length_cons]
  omega

/-! ## The entry of the row -/

/-- The turns of the rows, by position. -/
theorem getElem?_pairTurns_iff {rows : List CanonicalTurnRow} {i : Nat} {pair : TurnPair} :
    (pairTurns (messagesOfRows rows))[i]? = some pair ↔
      ∃ r k, ∃ row ∈ rows[r]?, (pairTurns (messagesOfRow r row))[k]? = some pair ∧
        i = turnPosition rows r k := by
  have hlength : (rows.mapIdx fun i row => pairTurns (messagesOfRow i row)).map List.length =
      rows.map (·.pairCount) := by
    rw [map_mapIdx]
    simp only [length_pairTurns_messagesOfRow]
    apply List.ext_getElem <;> simp
  rw [pairTurns_messagesOfRows, getElem?_flatten_iff]
  have htake : ∀ r, (((rows.mapIdx fun i row =>
      pairTurns (messagesOfRow i row)).take r).map List.length).sum =
        ((rows.take r).map (·.pairCount)).sum := by
    intro r
    rw [List.map_take, hlength, List.map_take]
  simp only [htake, turnPosition, List.getElem?_mapIdx]
  constructor
  · rintro ⟨r, k, pairs, hpairs, hpair, hi⟩
    obtain ⟨row, hrow, rfl⟩ := Option.map_eq_some_iff.mp hpairs
    exact ⟨r, k, row, hrow, hpair, hi⟩
  · rintro ⟨r, k, row, hrow, hpair, hi⟩
    exact ⟨r, k, _, Option.map_eq_some_iff.mpr ⟨row, hrow, rfl⟩, hpair, hi⟩

/--
Each turn is tagged with the entry of its row, and with generated tags only if
the row has none, exactly if the rows are in step with the numbers.
-/
theorem turns_get_own_tags_iff (segmenter : TopicSegmenter) (index : TurnTagIndex)
    (generateTags : String → TagResult) (rows : List CanonicalTurnRow) :
    (segmenter.reading index generateTags).tagTurns ((rows.head?.map (·.turnNumber)).getD 0)
        (pairTurns (messagesOfRows rows)) =
      (lookups index ((rows.head?.map (·.turnNumber)).getD 0)
        (pairTurns (messagesOfRows rows))).map (tagWith generateTags) ∧
    ((∀ lookup ∈ lookups index ((rows.head?.map (·.turnNumber)).getD 0)
        (pairTurns (messagesOfRows rows)),
        ∀ row ∈ rows[lookup.1.row]?, lookup.2 = index.entryOfRow row) ↔
      InStep index rows) := by
  refine ⟨tagTurns_reading _ _ _ _ _, ?_⟩
  have hrow : ∀ {r k : Nat} {row : CanonicalTurnRow} {pair : TurnPair},
      (pairTurns (messagesOfRow r row))[k]? = some pair → pair.row = r := by
    intro r k row pair hpair
    obtain ⟨hne, hrows⟩ := row_of_mem_pairTurns (List.mem_of_getElem? hpair)
    exact TurnPair.row_eq hne hrows
  constructor
  · intro h r row hget k pair hpair hblank
    have hposition := getElem?_pairTurns_iff.mpr ⟨r, k, row, hget, hpair, rfl⟩
    have hlookup := h (pair, index.getTagsForLogicalTurn
        ((rows.head?.map (·.turnNumber)).getD 0 + turnPosition rows r k))
      (List.mem_filterMap.mpr ⟨(pair, turnPosition rows r k),
        List.mk_mem_zipIdx_iff_getElem?.mpr hposition, by simp [hblank]⟩) row
      (by rw [hrow hpair]; exact hget)
    exact TurnTagIndex.getTagsForLogicalTurn_eq_entryOfRow_iff.mp hlookup
  · intro h lookup hlookup row hget
    obtain ⟨⟨pair, i⟩, hmem, heq⟩ := List.mem_filterMap.mp hlookup
    dsimp only at heq
    split_ifs at heq with hblank
    obtain rfl := Option.some.inj heq
    obtain ⟨r, k, row', hget', hpair, rfl⟩ :=
      getElem?_pairTurns_iff.mp (List.mk_mem_zipIdx_iff_getElem?.mp hmem)
    rw [hrow hpair] at hget
    obtain rfl : row' = row := Option.some.inj (Option.mem_def.mp hget' ▸ hget)
    exact TurnTagIndex.getTagsForLogicalTurn_eq_entryOfRow_iff.mpr
      (h r row' hget k pair hpair (by simpa using hblank))

/-! ## A gap -/

/-- A turn between these two was compacted before. -/
def gapRows : List CanonicalTurnRow :=
  [{ conversationId := "c", canonicalTurnId := 1, turnNumber := 0, userContent := "a" },
    { conversationId := "c", canonicalTurnId := 3, turnNumber := 2, userContent := "b" }]

def threeEntries : TurnTagIndex where
  entries :=
    [{ turnNumber := 0, canonicalTurnId := 1, tags := ["x"], timestamp := newYear },
      { turnNumber := 1, canonicalTurnId := 2, tags := ["y"], timestamp := newYear },
      { turnNumber := 2, canonicalTurnId := 3, tags := ["z"], timestamp := newYear }]
  byCanonicalTurn := [(1, 0), (2, 1), (3, 2)]

/-- The turn after the gap gets the tags of the one in the gap. -/
theorem gap_shifts_tags :
    ¬ ∀ lookup ∈ lookups threeEntries 0 (pairTurns (messagesOfRows gapRows)),
      ∀ row ∈ gapRows[lookup.1.row]?, lookup.2 = threeEntries.entryOfRow row := by
  decide +kernel

end VirtualContext
