import VirtualContext.Core.CompactionPipeline

/-!
# The turns of rows and the segments of turns

No turn takes messages of two rows, so the turns that are tagged come row by
row.  A segment holds the messages of the turns that were put into its group.
-/

namespace VirtualContext

open VirtualContext.Library

/-! ## Pairing row by row -/

theorem pairMessages_append {current chunk rest : List RowMessage}
    {last : RowMessage} (hlast : last ∈ chunk.getLast?)
    (hrole : last.role = "assistant") :
    pairMessages current (chunk ++ rest) =
      pairMessages current chunk ++ pairMessages [] rest := by
  induction chunk generalizing current with
  | nil => cases hlast
  | cons msg chunk ih =>
      cases chunk with
      | nil =>
          obtain rfl : msg = last := by simpa using hlast
          simp [pairMessages, hrole, flushTurn]
      | cons msg' chunk =>
          have hlast' : last ∈ (msg' :: chunk).getLast? := by
            simpa using hlast
          rw [List.cons_append, pairMessages, pairMessages]
          split_ifs
          · rw [ih hlast', List.append_assoc]
          · rw [ih hlast', List.cons_append]
          · rw [ih hlast']

/-- What a turn is made of, and that it is made of something. -/
theorem mem_pairMessages {current messages : List RowMessage} {pair : TurnPair}
    (h : pair ∈ pairMessages current messages) :
    pair.messages ≠ [] ∧
      ∀ msg ∈ pair.messages, msg ∈ current ∨ msg ∈ messages := by
  have hflush : ∀ {current : List RowMessage} {pair : TurnPair},
      pair ∈ flushTurn current →
        pair.messages ≠ [] ∧ ∀ msg ∈ pair.messages, msg ∈ current := by
    intro current pair hpair
    unfold flushTurn at hpair
    split_ifs at hpair with hempty
    · cases hpair
    · obtain rfl := List.mem_singleton.mp hpair
      exact ⟨by simpa using hempty, fun msg hmsg => hmsg⟩
  induction messages generalizing current with
  | nil =>
      obtain ⟨hne, hmem⟩ := hflush h
      exact ⟨hne, fun msg hmsg => .inl (hmem msg hmsg)⟩
  | cons msg messages ih =>
      rw [pairMessages] at h
      split_ifs at h
      · rcases List.mem_append.mp h with h | h
        · obtain ⟨hne, hmem⟩ := hflush h
          exact ⟨hne, fun msg hmsg => .inl (hmem msg hmsg)⟩
        · obtain ⟨hne, hmem⟩ := ih h
          exact ⟨hne, fun m hm => .inr (by simpa using hmem m hm)⟩
      · rcases List.mem_cons.mp h with rfl | h
        · refine ⟨by simp, fun m hm => ?_⟩
          rcases List.mem_append.mp hm with hm | hm
          · exact .inl hm
          · exact .inr (by simp_all)
        · obtain ⟨hne, hmem⟩ := ih h
          exact ⟨hne, fun m hm => .inr ((hmem m hm).elim (by simp)
            (List.mem_cons_of_mem _))⟩
      · obtain ⟨hne, hmem⟩ := ih h
        refine ⟨hne, fun m hm => ?_⟩
        rcases hmem m hm with hm | hm
        · rcases List.mem_append.mp hm with hm | hm
          · exact .inl hm
          · exact .inr (by simp_all)
        · exact .inr (List.mem_cons_of_mem _ hm)

theorem splitSessionBoundaryMessage_ne_nil (msg : RowMessage) :
    splitSessionBoundaryMessage msg ≠ [] := by
  unfold splitSessionBoundaryMessage
  split
  · split_ifs <;> simp
  · simp

/-- The parts of a message have its role and its row. -/
theorem mem_splitSessionBoundaryMessage {msg part : RowMessage}
    (h : part ∈ splitSessionBoundaryMessage msg) :
    part.role = msg.role ∧ part.row = msg.row := by
  unfold splitSessionBoundaryMessage at h
  split at h
  · split_ifs at h
    · rcases List.mem_pair.mp h with rfl | rfl <;> exact ⟨rfl, rfl⟩
    · rw [List.mem_singleton.mp h]
      exact ⟨rfl, rfl⟩
  · rw [List.mem_singleton.mp h]
    exact ⟨rfl, rfl⟩

theorem splitSessionBoundaryMessages_append (left right : List RowMessage) :
    splitSessionBoundaryMessages (left ++ right) =
      splitSessionBoundaryMessages left ++ splitSessionBoundaryMessages right :=
  List.flatMap_append

/-- The last part of the messages of a row is one of the assistant. -/
theorem getLast?_split_messagesOfRow (i : Nat) (row : CanonicalTurnRow) :
    ∃ last ∈ (splitSessionBoundaryMessages (messagesOfRow i row)).getLast?,
      last.role = "assistant" := by
  let answer : RowMessage :=
    { role := "assistant", content := row.assistantContent, row := some i }
  have hne := splitSessionBoundaryMessage_ne_nil answer
  refine ⟨(splitSessionBoundaryMessage answer).getLast hne, ?_,
    (mem_splitSessionBoundaryMessage (List.getLast_mem hne)).1⟩
  have hlast : (splitSessionBoundaryMessage answer).getLast? =
      some ((splitSessionBoundaryMessage answer).getLast hne) :=
    List.getLast?_eq_some_getLast hne
  simp [splitSessionBoundaryMessages, messagesOfRow, List.getLast?_append,
    answer, hlast]

/-- The turns come row by row. -/
theorem pairTurns_rows (chunks : List (List RowMessage))
    (h : ∀ chunk ∈ chunks,
      ∃ last ∈ (splitSessionBoundaryMessages chunk).getLast?,
        last.role = "assistant") :
    pairTurns chunks.flatten = chunks.flatMap pairTurns := by
  induction chunks with
  | nil => rfl
  | cons chunk chunks ih =>
      obtain ⟨last, hlast, hrole⟩ := h chunk (by simp)
      rw [List.flatten_cons, List.flatMap_cons,
        ← ih fun chunk hchunk => h chunk (List.mem_cons_of_mem _ hchunk)]
      unfold pairTurns
      rw [splitSessionBoundaryMessages_append, pairMessages_append hlast hrole]

/-! ## The row of a turn -/

def TurnPair.row (pair : TurnPair) : Nat :=
  (pair.messages.head?.bind (·.row)).getD 0

theorem row_of_mem_pairTurns {i : Nat} {row : CanonicalTurnRow}
    {pair : TurnPair} (h : pair ∈ pairTurns (messagesOfRow i row)) :
    pair.messages ≠ [] ∧ ∀ msg ∈ pair.messages, msg.row = some i := by
  obtain ⟨hne, hmem⟩ := mem_pairMessages h
  refine ⟨hne, fun msg hmsg => ?_⟩
  have hpart := (hmem msg hmsg).resolve_left (by simp)
  obtain ⟨whole, hwhole, hpart⟩ := List.mem_flatMap.mp hpart
  rw [(mem_splitSessionBoundaryMessage hpart).2]
  rcases List.mem_pair.mp hwhole with rfl | rfl <;> rfl

theorem TurnPair.row_eq {i : Nat} {pair : TurnPair} (hne : pair.messages ≠ [])
    (h : ∀ msg ∈ pair.messages, msg.row = some i) : pair.row = i := by
  obtain ⟨first, rest, heq⟩ := List.exists_cons_of_ne_nil hne
  simp [TurnPair.row, heq, h first (by simp [heq])]

/-- The same message in another row. -/
def RowMessage.placed (i : Nat) (msg : RowMessage) : RowMessage :=
  { msg with row := some i }

def TurnPair.placed (i : Nat) (pair : TurnPair) : TurnPair :=
  ⟨pair.messages.map (·.placed i)⟩

theorem split_placed (i : Nat) (messages : List RowMessage) :
    splitSessionBoundaryMessages (messages.map (·.placed i)) =
      (splitSessionBoundaryMessages messages).map (·.placed i) := by
  simp only [splitSessionBoundaryMessages, List.flatMap_map, List.map_flatMap]
  refine List.flatMap_congr fun msg _ => ?_
  simp only [splitSessionBoundaryMessage, RowMessage.placed]
  split
  · split_ifs <;> rfl
  · rfl

theorem pairMessages_placed (i : Nat) (current messages : List RowMessage) :
    pairMessages (current.map (·.placed i)) (messages.map (·.placed i)) =
      (pairMessages current messages).map (·.placed i) := by
  have hflush : ∀ current : List RowMessage,
      flushTurn (current.map (·.placed i)) =
        (flushTurn current).map (·.placed i) := by
    intro current
    cases current <;> simp [flushTurn, TurnPair.placed]
  induction messages generalizing current with
  | nil => exact hflush current
  | cons msg messages ih =>
      have hone := ih [msg]
      have hnone := ih []
      have hmore := ih (current ++ [msg])
      simp only [List.map_cons, List.map_nil, List.map_append] at hone hnone hmore
      rw [List.map_cons, pairMessages, pairMessages, hflush]
      have hrole : (msg.placed i).role = msg.role := rfl
      rw [hrole]
      split_ifs
      · rw [hone, List.map_append]
      · rw [hnone]
        simp [TurnPair.placed]
      · exact hmore

theorem pairTurns_messagesOfRow (i : Nat) (row : CanonicalTurnRow) :
    pairTurns (messagesOfRow i row) =
      (pairTurns (messagesOfRow 0 row)).map (·.placed i) := by
  have hrow : messagesOfRow i row =
      (messagesOfRow 0 row).map (·.placed i) := rfl
  have h := pairMessages_placed i []
    (splitSessionBoundaryMessages (messagesOfRow 0 row))
  rw [List.map_nil, ← split_placed] at h
  rw [hrow]
  exact h

theorem TurnPair.isBlank_placed (i : Nat) (pair : TurnPair) :
    (pair.placed i).isBlank = pair.isBlank := by
  have hcontents : joinContents (pair.placed i).messages =
      joinContents pair.messages := by
    simp [TurnPair.placed, joinContents, RowMessage.placed, Function.comp_def]
  rw [TurnPair.isBlank, TurnPair.isBlank, hcontents]

/-- The number of the turns of a row that are not blank. -/
def CanonicalTurnRow.turnCount (row : CanonicalTurnRow) : Nat :=
  ((pairTurns (messagesOfRow 0 row)).filter fun pair => !pair.isBlank).length

/-- The number of each row, once for each of its turns. -/
def turnRows (rows : List CanonicalTurnRow) : List Nat :=
  (rows.mapIdx fun i row => List.replicate row.turnCount i).flatten

theorem map_row_messagesOfRow (i : Nat) (row : CanonicalTurnRow) :
    ((pairTurns (messagesOfRow i row)).filter
        fun pair => !pair.isBlank).map (·.row) =
      List.replicate row.turnCount i := by
  rw [List.eq_replicate_iff]
  constructor
  · rw [List.length_map, pairTurns_messagesOfRow, List.filter_map,
      List.length_map, CanonicalTurnRow.turnCount]
    simp [Function.comp_def, TurnPair.isBlank_placed]
  · intro j hj
    obtain ⟨pair, hpair, rfl⟩ := List.mem_map.mp hj
    obtain ⟨hne, hrow⟩ := row_of_mem_pairTurns (List.mem_filter.mp hpair).1
    exact TurnPair.row_eq hne hrow

variable (segmenter : TopicSegmenter)

theorem map_pair_tagTurns (turnOffset : Int) (pairs : List TurnPair) :
    (segmenter.tagTurns turnOffset pairs).map (·.pair) =
      pairs.filter fun pair => !pair.isBlank := by
  rw [TopicSegmenter.tagTurns, List.map_filterMap]
  conv_rhs => rw [← List.zipIdx_map_fst 0 pairs, List.filter_map,
    ← List.filterMap_eq_filter, List.map_filterMap]
  refine List.filterMap_congr fun entry _ => ?_
  obtain ⟨pair, i⟩ := entry
  by_cases hblank : pair.isBlank <;> simp [hblank, Option.guard]

theorem map_mapIdx {α β γ : Type} (f : Nat → α → β) (g : β → γ)
    (xs : List α) : (xs.mapIdx f).map g = xs.mapIdx fun i x => g (f i x) := by
  apply List.ext_getElem <;> simp

/-- The pairs of the rows, row by row. -/
theorem pairTurns_messagesOfRows (rows : List CanonicalTurnRow) :
    pairTurns (messagesOfRows rows) =
      (rows.mapIdx fun i row => pairTurns (messagesOfRow i row)).flatten := by
  rw [messagesOfRows, pairTurns_rows, List.flatMap, map_mapIdx]
  · intro chunk hchunk
    obtain ⟨i, hi, rfl⟩ := List.mem_mapIdx.mp hchunk
    exact getLast?_split_messagesOfRow i _

theorem map_row_tagTurns (turnOffset : Int) (rows : List CanonicalTurnRow) :
    (segmenter.tagTurns turnOffset (pairTurns (messagesOfRows rows))).map
        (·.pair.row) = turnRows rows := by
  have hcomp : (fun turn : TaggedTurn => turn.pair.row) =
      TurnPair.row ∘ TaggedTurn.pair := rfl
  rw [hcomp, ← List.map_map, map_pair_tagTurns, pairTurns_messagesOfRows,
    List.filter_flatten, List.map_flatten, map_mapIdx, map_mapIdx, turnRows]
  simp only [map_row_messagesOfRow]

/-! ## The groups of the library -/

theorem map_modify_eq {α β : Type} (f : α → α) (g : α → β) (f' : β → β)
    (h : ∀ x, g (f x) = f' (g x)) (i : Nat) (xs : List α) :
    (xs.modify i f).map g = (xs.map g).modify i f' := by
  apply List.ext_getElem
  · simp
  · intro k hk hk'
    simp only [List.getElem_map, List.getElem_modify]
    split_ifs
    · exact h _
    · rfl

namespace TopicSegmenter

/-- Each turn with the segment that is chosen for it. -/
def choices : String → List SegmentGroup → List TaggedTurn →
    List (TaggedTurn × Option Nat)
  | _, _, [] => []
  | runningSession, library, turn :: turns =>
      let session :=
        if turn.pair.sessionDate ≠ "" then turn.pair.sessionDate
        else runningSession
      (turn, segmenter.bestSegment library turn) ::
        choices session (segmenter.placeTurn session library turn) turns

variable (session : String) (library : List SegmentGroup)
  (turns : List TaggedTurn)

theorem turns_placeTurn (turn : TaggedTurn) :
    (segmenter.placeTurn session library turn).map (·.turns) =
      place (segmenter.bestSegment library turn) turn
        (library.map (·.turns)) := by
  unfold placeTurn
  dsimp only
  cases segmenter.bestSegment library turn with
  | none => simp [place, SegmentGroup.turns]
  | some i => exact map_modify_eq _ _ (· ++ [turn]) (fun _ => rfl) i library

theorem turns_groupTurns :
    (segmenter.groupTurns session library turns).map (·.turns) =
      placeAll (library.map (·.turns))
        (segmenter.choices session library turns) := by
  induction turns generalizing session library with
  | nil => rfl
  | cons turn turns ih =>
      rw [groupTurns, choices, placeAll, ← turns_placeTurn]
      exact ih _ _

@[simp] theorem map_fst_choices :
    (segmenter.choices session library turns).map Prod.fst = turns := by
  induction turns generalizing session library with
  | nil => rfl
  | cons turn turns ih => simp [choices, ih]

theorem bestSegment_lt {library : List SegmentGroup} {turn : TaggedTurn}
    {i : Nat} (h : segmenter.bestSegment library turn = some i) :
    i < library.length := by
  unfold bestSegment at h
  obtain ⟨best, hbest, rfl⟩ := Option.map_eq_some_iff.mp h
  revert hbest
  refine List.foldlRecOn (motive := fun found : Option (Nat × ℚ) =>
    found = some best → best.1 < library.length) _ _ (by simp) ?_
  intro found hfound entry hentry heq
  obtain ⟨group, k⟩ := entry
  dsimp only at heq
  split at heq
  · exact hfound heq
  · split_ifs at heq
    · cases heq
      simpa using (List.mem_zipIdx hentry).2.1
    · exact hfound heq

theorem validChoices :
    ValidChoices (library.map (·.turns))
      (segmenter.choices session library turns) := by
  induction turns generalizing session library with
  | nil => trivial
  | cons turn turns ih =>
      refine ⟨fun i hi => ?_, ?_⟩
      · rw [List.length_map]
        exact segmenter.bestSegment_lt hi
      · rw [← turns_placeTurn]
        exact ih _ _

end TopicSegmenter

/-! ## The segments of the groups -/

/-- Only the tags of a segment are left out. -/
def TaggedSegment.untagged (seg : TaggedSegment) : TaggedSegment :=
  { seg with primaryTag := "", tags := [] }

section Stubs

variable (closerToPrevious : TaggedSegment → TaggedSegment → TaggedSegment →
  Bool)

theorem untagged_reassignStub (segments : List TaggedSegment) (i : Nat) :
    (reassignStub closerToPrevious segments i).map (·.untagged) =
      segments.map (·.untagged) := by
  unfold reassignStub
  dsimp only
  rw [map_modify_eq _ _ id]
  · rw [List.modify_id]
  · intro stub
    by_cases hstub : stub.primaryTag ≠ "_stub"
    · rw [if_pos hstub]
      rfl
    · rw [if_neg hstub]
      split <;> rfl

theorem untagged_reassignPass (segments : List TaggedSegment) :
    (reassignPass closerToPrevious segments).map (·.untagged) =
      segments.map (·.untagged) := by
  unfold reassignPass
  generalize List.range segments.length = indices
  induction indices generalizing segments with
  | nil => rfl
  | cons i indices ih =>
      rw [List.foldl_cons, ih, untagged_reassignStub]

theorem untagged_reassignStubSegments (segments : List TaggedSegment) :
    (reassignStubSegments closerToPrevious segments).map (·.untagged) =
      segments.map (·.untagged) := by
  unfold reassignStubSegments
  dsimp only
  generalize (if (segments.filter fun seg => decide (seg.primaryTag =
    "_stub")).length = 0 then 0 else _) = passes
  induction passes generalizing segments with
  | zero => rfl
  | succ passes ih =>
      rw [Function.iterate_succ_apply, ih, untagged_reassignPass]

end Stubs

/-- The segment holds the messages of the turns of the group. -/
structure BuiltFrom (group : SegmentGroup) (seg : TaggedSegment) : Prop where
  messages : seg.messages = group.turns.flatMap (·.pair.messages)
  turnCount : seg.turnCount = group.turns.length
  mergeRef : seg.mergeRef = ""

variable {segmenter}

theorem builtFrom_segment (supply : SegmentSupply)
    (closerToPrevious : TaggedSegment → TaggedSegment → TaggedSegment → Bool)
    (messages : List RowMessage) (turnOffset : Int) :
    List.Forall₂ BuiltFrom
      (segmenter.groupTurns "" []
        (segmenter.tagTurns turnOffset (pairTurns messages)))
      (segmenter.segment supply closerToPrevious messages turnOffset) := by
  unfold TopicSegmenter.segment
  dsimp only
  generalize segmenter.groupTurns _ _ _ = library
  have h := untagged_reassignStubSegments closerToPrevious
    (library.mapIdx (segmenter.buildSegment supply))
  rw [map_mapIdx] at h
  have hlength := congrArg List.length h
  rw [List.length_map, List.length_mapIdx] at hlength
  refine List.forall₂_iff_get.mpr ⟨hlength.symm, fun i hi hi' => ?_⟩
  have hget := List.getElem_of_eq h (by simpa using hi')
  simp only [List.getElem_map, List.getElem_mapIdx] at hget
  simp only [TaggedSegment.untagged, TaggedSegment.mk.injEq,
    TopicSegmenter.buildSegment] at hget
  exact ⟨hget.2.2.2.1, hget.2.2.2.2.2.2.2.1, hget.2.2.2.2.2.2.2.2.2⟩

end VirtualContext
