import VirtualContext.Storage.MergedTranscript

/-!
# References to turns after a merge

Chain snapshots and linked tool outputs name a turn by its number.  A merge
moves them with the number that they have.
-/

namespace VirtualContext

open VirtualContext.Library

/-! ## Where a turn stands -/

/-- The rows are read as one turn, with as many turns before it. -/
def StandsAt (rows turn : List CanonicalTurnRow) (number : Int) : Prop :=
  ∃ before after, rows = before ++ turn ++ after ∧
    contentGroups turn = [turn] ∧ ¬ AnswersOver before turn ∧
    ¬ AnswersOver turn after ∧ ((contentGroups before).length : Int) = number

section

variable {rows turn before after : List CanonicalTurnRow}
  {row : CanonicalTurnRow}

theorem answersOver_append_right (hturn : turn ≠ []) :
    AnswersOver before (turn ++ after) ↔ AnswersOver before turn := by
  cases turn with
  | nil => exact absurd rfl hturn
  | cons row turn => simp [AnswersOver]

theorem answersOver_append_left (hturn : turn ≠ []) :
    AnswersOver (before ++ turn) after ↔ AnswersOver turn after := by
  cases hlast : turn.getLast? with
  | none => exact absurd (List.getLast?_eq_none_iff.mp hlast) hturn
  | some last => simp [AnswersOver, List.getLast?_append, hlast]

theorem not_answersOver_nil : ¬ AnswersOver [] rows := by
  simp [AnswersOver]

theorem contentGroups_answered {question answer : CanonicalTurnRow}
    (hquestion : question.isQuestion = true) (hanswer : answer.isAnswer = true) :
    contentGroups [question, answer] = [[question, answer]] := by
  simp only [CanonicalTurnRow.isQuestion, CanonicalTurnRow.isAnswer,
    Bool.and_eq_true, Bool.not_eq_true'] at hquestion hanswer
  simp [contentGroups, GroupScan.step, GroupScan.flushPending, hquestion,
    hanswer]

theorem not_isQuestion_of_isAnswer (h : row.isAnswer = true) :
    row.isQuestion = false := by
  simp only [CanonicalTurnRow.isAnswer, Bool.and_eq_true,
    Bool.not_eq_true'] at h
  simp [CanonicalTurnRow.isQuestion, h]

/-- After an answer no turn is open. -/
theorem not_answersOver_answered {question answer : CanonicalTurnRow}
    (hanswer : answer.isAnswer = true) :
    ¬ AnswersOver [question, answer] rows := by
  simp [AnswersOver, not_isQuestion_of_isAnswer hanswer]

theorem contentGroups_singleton :
    contentGroups [row] = if row.isBlank then [] else [[row]] := by
  cases hu : row.hasUser <;> cases ha : row.hasAssistant <;>
    simp [contentGroups, GroupScan.step, GroupScan.flushPending,
      CanonicalTurnRow.isBlank, hu, ha]

theorem StandsAt.append_front {front : List CanonicalTurnRow} {number : Int}
    (h : StandsAt rows turn number) (hseam : ¬ AnswersOver front rows) :
    StandsAt (front ++ rows) turn
      (number + (contentGroups front).length) := by
  obtain ⟨before, after, rfl, hone, hbefore, hafter, hcount⟩ := h
  have hturn : turn ≠ [] := by
    rintro rfl
    cases hone
  have hfront : ¬ AnswersOver front before := by
    intro hover
    cases before with
    | nil => simp [AnswersOver] at hover
    | cons row before =>
        refine hseam ?_
        rw [List.append_assoc]
        exact (answersOver_append_right (by simp)).mpr hover
  refine ⟨front ++ before, after, by simp, hone, ?_, hafter, ?_⟩
  · intro hover
    cases before with
    | nil =>
        refine hseam ?_
        rw [List.nil_append]
        rw [List.append_nil] at hover
        exact (answersOver_append_right hturn).mpr hover
    | cons row before =>
        exact hbefore ((answersOver_append_left (by simp)).mp hover)
  · rw [contentGroups_append hfront, List.length_append]
    push_cast
    omega

theorem standsAt_first (hone : contentGroups turn = [turn])
    (hafter : ¬ AnswersOver turn after) : StandsAt (turn ++ after) turn 0 :=
  ⟨[], after, rfl, hone, not_answersOver_nil, hafter, rfl⟩

/-- The first turn closes with a pair, or with a single row. -/
theorem standsAt_of_getElem? {k : Nat}
    (h : (contentGroups rows)[k]? = some turn) : StandsAt rows turn k := by
  induction hlength : rows.length using Nat.strong_induction_on
    generalizing rows k with
  | _ length ih =>
  subst hlength
  -- what stands in front is one turn, or a row without contents
  have hfront : ∀ front rest : List CanonicalTurnRow,
      rows = front ++ rest → front ≠ [] → ¬ AnswersOver front rest →
      (contentGroups front = [front] ∨ contentGroups front = []) →
      StandsAt rows turn k := by
    rintro front rest rfl hne hseam hgroups
    have hlt : rest.length < (front ++ rest).length := by
      rw [List.length_append]
      have := List.length_pos_of_ne_nil hne
      omega
    rw [contentGroups_append hseam] at h
    rcases hgroups with hgroups | hgroups
    · rw [hgroups] at h
      cases k with
      | zero =>
          cases h
          exact standsAt_first hgroups hseam
      | succ k =>
          have hrest := (ih _ hlt h rfl).append_front hseam
          rw [hgroups] at hrest
          simpa using hrest
    · rw [hgroups, List.nil_append] at h
      have hrest := (ih _ hlt h rfl).append_front hseam
      rw [hgroups] at hrest
      simpa using hrest
  cases rows with
  | nil => simp [contentGroups, GroupScan.flushPending] at h
  | cons row rest =>
      by_cases hover : AnswersOver [row] rest
      · obtain ⟨question, hquestion, answer, hanswer, hasks, hreplies⟩ := hover
        obtain rfl : row = question := by simpa using hquestion
        cases rest with
        | nil => cases hanswer
        | cons answer' rest =>
            obtain rfl : answer' = answer := by simpa using hanswer
            exact hfront [row, answer'] rest rfl (by simp)
              (not_answersOver_answered hreplies)
              (.inl (contentGroups_answered hasks hreplies))
      · refine hfront [row] rest rfl (by simp) hover ?_
        rw [contentGroups_singleton]
        split_ifs
        · exact .inr rfl
        · exact .inl rfl

theorem getElem?_of_standsAt {k : Nat} (h : StandsAt rows turn k) :
    (contentGroups rows)[k]? = some turn := by
  obtain ⟨before, after, rfl, hone, hbefore, hafter, hcount⟩ := h
  have hturn : turn ≠ [] := by
    rintro rfl
    cases hone
  have hseam : ¬ AnswersOver (before ++ turn) after := by
    rwa [answersOver_append_left hturn]
  obtain rfl : (contentGroups before).length = k := by omega
  rw [contentGroups_append hseam, contentGroups_append hbefore, hone]
  simp

/-- A turn that is read off the contents has the number of turns before it. -/
theorem mem_contentNumbered_iff {number : Int} :
    (number, turn) ∈ (contentGroups rows).zipIdx.map
        (fun turn => ((turn.2 : Int), turn.1)) ↔
      StandsAt rows turn number := by
  simp only [List.mem_map, Prod.mk.injEq, Prod.exists, List.mem_zipIdx_iff_getElem?]
  constructor
  · rintro ⟨_, k, hmem, rfl, rfl⟩
    exact standsAt_of_getElem? hmem
  · intro h
    obtain ⟨_, _, _, _, _, _, hcount⟩ := id h
    subst hcount
    exact ⟨turn, _, getElem?_of_standsAt h, rfl, rfl⟩

end

/-! ## The property and its condition -/

/-- A row that refers to a turn of a conversation. -/
structure TurnReference where
  conversationId : ConversationId
  turnNumber : Int
  deriving DecidableEq, Repr

/-- The rows that refer to a turn, in the order of their tables. -/
def Tables.turnReferences (t : Tables) : List TurnReference :=
  t.chainSnapshots.map (fun row => ⟨row.conversationId, row.turnNumber⟩) ++
    t.turnToolOutputs.map fun row => ⟨row.conversationId, row.turnNumber⟩

/-- The turns of a conversation with their contents. -/
def Tables.turnContents (t : Tables) (conversationId : ConversationId) :
    List (Int × List CanonicalTurnRow) :=
  (groupedRows (t.loadRows conversationId)).map fun turn =>
    (turn.1, turn.2.map (·.unplaced))

/-- A reference is one of the target and refers to the contents as before. -/
def ReferenceKept (args : MergeArgs) (t t' : Tables)
    (reference reference' : TurnReference) : Prop :=
  (reference.conversationId = args.sourceConversationId ∨
      reference.conversationId = args.targetConversationId) →
    reference'.conversationId = args.targetConversationId ∧
      ∀ contents,
        (reference.turnNumber, contents) ∈
            t.turnContents reference.conversationId →
          (reference'.turnNumber, contents) ∈
            t'.turnContents args.targetConversationId

def KeepsReferences (args : MergeArgs) (t t' : Tables) : Prop :=
  List.Forall₂ (ReferenceKept args t t') t.turnReferences t'.turnReferences

/-- The key that a row of the two conversations gets. -/
def mergedKey (args : MergeArgs) (t : Tables) (row : CanonicalTurnRecord) : ℚ :=
  if row.conversationId = args.sourceConversationId then
    row.sortKey + t.mergeOffset args
  else row.sortKey

/-- The rows of both conversations in the order of those keys. -/
def Tables.bothTranscripts (args : MergeArgs) (t : Tables) :
    List CanonicalTurnRow :=
  (orderBy (mergedKey args t)
    (t.canonicalTurns.ordered args.targetConversationId ++
      t.canonicalTurns.ordered args.sourceConversationId)).map fun row =>
    (rowToCanonicalTurn 0 row).unplaced

/--
If all rows are numbered the other conversation has no turn of the number, and
otherwise as many turns come before the turn as the number says.
-/
def NumberStays (args : MergeArgs) (t : Tables) (own other : ConversationId)
    (number : Int) : Prop :=
  ∀ contents, (number, contents) ∈ t.turnContents own →
    if ∀ row ∈ t.bothTranscripts args, 0 ≤ row.turnGroupNumber then
      ∀ row ∈ t.loadRows other, row.turnGroupNumber ≠ number
    else StandsAt (t.bothTranscripts args) contents number

def NumbersStay (args : MergeArgs) (t : Tables) : Prop :=
  ∀ reference ∈ t.turnReferences,
    (reference.conversationId = args.targetConversationId →
      NumberStays args t args.targetConversationId args.sourceConversationId
        reference.turnNumber) ∧
    (reference.conversationId = args.sourceConversationId →
      NumberStays args t args.sourceConversationId args.targetConversationId
        reference.turnNumber)

/-! ## The rows of both conversations -/

section

variable {args : MergeArgs} {t : Tables} {turns : CanonicalTurns}

theorem mergedKey_eq (row : CanonicalTurnRecord) :
    mergedKey args t row = (moveTurn args (t.mergeOffset args) row).sortKey := by
  unfold mergedKey moveTurn
  split_ifs <;> rfl

theorem unplaced_moveTurn (row : CanonicalTurnRecord) (offset : ℚ) :
    (rowToCanonicalTurn 0 (moveTurn args offset row)).unplaced =
      (rowToCanonicalTurn 0 row).unplaced := by
  unfold moveTurn
  split_ifs <;> rfl

theorem map_unplaced_loadRows (t : Tables) (conversationId : ConversationId) :
    (t.loadRows conversationId).map (·.unplaced) =
      (t.canonicalTurns.ordered conversationId).map fun row =>
        (rowToCanonicalTurn 0 row).unplaced :=
  t.map_loadRows conversationId (·.unplaced)
    (fun row => (rowToCanonicalTurn 0 row).unplaced) fun _ _ => rfl

/-- The moved rows are those of both conversations, moved. -/
theorem map_moveTurn_both (offset : ℚ) :
    (t.canonicalTurns.ordered args.targetConversationId ++
        t.canonicalTurns.ordered args.sourceConversationId).map
          (moveTurn args offset) =
      t.canonicalTurns.ordered args.targetConversationId ++
        (t.canonicalTurns.ordered args.sourceConversationId).map
          (moveTurn args offset) := by
  rw [List.map_append]
  congr 1
  conv_rhs => rw [← List.map_id (t.canonicalTurns.ordered _)]
  apply List.map_congr_left
  intro row hrow
  exact moveTurn_other ((CanonicalTurns.mem_ordered.mp hrow).2.trans_ne
    args.distinct.symm) offset

theorem ordered_merged
    (hmoved : turns.rows =
      t.canonicalTurns.rows.map (moveTurn args (t.mergeOffset args))) :
    turns.ordered args.targetConversationId =
      (orderBy (mergedKey args t)
        (t.canonicalTurns.ordered args.targetConversationId ++
          t.canonicalTurns.ordered args.sourceConversationId)).map
        (moveTurn args (t.mergeOffset args)) := by
  have hmap : orderBy (fun row : CanonicalTurnRecord => row.sortKey)
      ((t.canonicalTurns.ordered args.targetConversationId ++
        t.canonicalTurns.ordered args.sourceConversationId).map
          (moveTurn args (t.mergeOffset args))) = _ :=
    orderBy_map _ _ fun row _ row' _ => by
      rw [← mergedKey_eq, ← mergedKey_eq]
  rw [← hmap, map_moveTurn_both]
  exact orderBy_congr_perm (moved_perm _ hmoved)
    (((orderBy_perm _ _).map _).nodup_iff.mp
      (turns.ordered_increasing args.targetConversationId).map_nodup)

theorem mergedKeys_nodup
    (hmoved : turns.rows =
      t.canonicalTurns.rows.map (moveTurn args (t.mergeOffset args))) :
    ((t.canonicalTurns.ordered args.targetConversationId ++
      t.canonicalTurns.ordered args.sourceConversationId).map
        (mergedKey args t)).Nodup := by
  have hperm := (orderBy_perm (fun row : CanonicalTurnRecord => row.sortKey)
    _).trans (moved_perm _ hmoved)
  have hkeys := (hperm.map (·.sortKey)).nodup_iff.mp
    (turns.ordered_increasing args.targetConversationId).map_nodup
  rw [← map_moveTurn_both, List.map_map] at hkeys
  rwa [List.map_congr_left fun row _ => mergedKey_eq row]

/-- What the merged conversation holds, apart from where it holds it. -/
theorem unplaced_merged
    (hmoved : turns.rows =
      t.canonicalTurns.rows.map (moveTurn args (t.mergeOffset args))) :
    ((t.mergedInto args turns).loadRows args.targetConversationId).map
        (·.unplaced) = t.bothTranscripts args := by
  rw [map_unplaced_loadRows]
  change (turns.ordered args.targetConversationId).map _ = _
  rw [ordered_merged hmoved, List.map_map]
  apply List.map_congr_left
  intro row _
  exact unplaced_moveTurn row _

theorem turnContents_eq (t : Tables) (conversationId : ConversationId) :
    t.turnContents conversationId =
      groupedRows ((t.loadRows conversationId).map (·.unplaced)) :=
  (groupedRows_map CanonicalTurnRow.unplaced (fun _ => rfl) (fun _ => rfl)
    (fun _ => rfl) _).symm

/-- The two conversations of the merge, in either order. -/
def IsPair (args : MergeArgs) (own other : ConversationId) : Prop :=
  (own = args.targetConversationId ∧ other = args.sourceConversationId) ∨
    own = args.sourceConversationId ∧ other = args.targetConversationId

section

variable {own other : ConversationId}

/-- Of the rows of both conversations each has its own, in its order. -/
theorem filter_both (hpair : IsPair args own other)
    (hmoved : turns.rows =
      t.canonicalTurns.rows.map (moveTurn args (t.mergeOffset args))) :
    (orderBy (mergedKey args t)
      (t.canonicalTurns.ordered args.targetConversationId ++
        t.canonicalTurns.ordered args.sourceConversationId)).filter
        (fun row => row.conversationId = own) =
      t.canonicalTurns.ordered own := by
  have hkeys := mergedKeys_nodup hmoved
  have hself (conversationId : ConversationId) :
      (t.canonicalTurns.ordered conversationId).filter
        (fun row => row.conversationId = conversationId) =
      t.canonicalTurns.ordered conversationId :=
    List.filter_eq_self.mpr fun row hrow => by
      simpa using (CanonicalTurns.mem_ordered.mp hrow).2
  have hnone {conversationId conversationId' : ConversationId}
      (hne : conversationId' ≠ conversationId) :
      (t.canonicalTurns.ordered conversationId').filter
        (fun row => row.conversationId = conversationId) = [] :=
    List.filter_eq_nil_iff.mpr fun row hrow => by
      simpa [(CanonicalTurns.mem_ordered.mp hrow).2] using hne
  have hincreasing : Increasing (mergedKey args t)
      (t.canonicalTurns.ordered own) := by
    refine (t.canonicalTurns.ordered_increasing own).imp_of_mem ?_
    intro row row' hrow hrow' hlt
    unfold mergedKey
    rw [(CanonicalTurns.mem_ordered.mp hrow).2,
      (CanonicalTurns.mem_ordered.mp hrow').2]
    split_ifs
    · linarith
    · exact hlt
  rw [filter_orderBy hkeys, List.filter_append]
  rcases hpair with ⟨rfl, -⟩ | ⟨rfl, -⟩
  · rw [hself, hnone args.distinct, List.append_nil]
    exact orderBy_of_increasing hincreasing
  · rw [hself, hnone args.distinct.symm, List.nil_append]
    exact orderBy_of_increasing hincreasing

theorem both_perm (hpair : IsPair args own other) :
    (t.bothTranscripts args).Perm
      ((t.loadRows own).map (·.unplaced) ++
        (t.loadRows other).map (·.unplaced)) := by
  rw [map_unplaced_loadRows, map_unplaced_loadRows, ← List.map_append]
  refine List.Perm.map _ ((orderBy_perm _ _).trans ?_)
  rcases hpair with ⟨rfl, rfl⟩ | ⟨rfl, rfl⟩
  · exact List.Perm.refl _
  · exact List.perm_append_comm

/-- The rows of a number are those of one conversation if the other has none. -/
theorem filter_number_iff (hpair : IsPair args own other) (number : Int)
    (hmoved : turns.rows =
      t.canonicalTurns.rows.map (moveTurn args (t.mergeOffset args))) :
    (t.bothTranscripts args).filter (fun row => row.turnGroupNumber = number) =
        ((t.loadRows own).map (·.unplaced)).filter
          (fun row => row.turnGroupNumber = number) ↔
      ∀ row ∈ t.loadRows other, row.turnGroupNumber ≠ number := by
  constructor
  · intro h row hrow hnumber
    have hlength := ((both_perm (t := t) hpair).filter
      fun row => row.turnGroupNumber = number).length_eq
    rw [h, List.filter_append, List.length_append] at hlength
    have hempty := List.length_eq_zero_iff.mp (Nat.left_eq_add.mp hlength)
    have hmem : row.unplaced ∈ ((t.loadRows other).map (·.unplaced)).filter
        (fun row => row.turnGroupNumber = number) := by
      exact List.mem_filter.mpr ⟨List.mem_map_of_mem hrow,
        decide_eq_true hnumber⟩
    rw [hempty] at hmem
    cases hmem
  · intro h
    rw [map_unplaced_loadRows, ← filter_both hpair hmoved, Tables.bothTranscripts,
      List.filter_map, List.filter_map, List.filter_filter]
    congr 1
    apply List.filter_congr
    intro row hrow
    by_cases hown : row.conversationId = own
    · simp [hown]
    · have hother : row ∈ t.canonicalTurns.ordered other := by
        rw [mem_orderBy, List.mem_append] at hrow
        rcases hpair with ⟨rfl, rfl⟩ | ⟨rfl, rfl⟩
        · exact hrow.resolve_left fun hmem =>
            hown (CanonicalTurns.mem_ordered.mp hmem).2
        · exact hrow.resolve_right fun hmem =>
            hown (CanonicalTurns.mem_ordered.mp hmem).2
      have hmem : row.turnGroupNumber ∈
          (t.loadRows other).map (·.turnGroupNumber) := by
        rw [t.map_loadRows other _ (·.turnGroupNumber) fun _ _ => rfl]
        exact List.mem_map_of_mem hother
      obtain ⟨row', hrow', hnumber⟩ := List.mem_map.mp hmem
      have hne : row.turnGroupNumber ≠ number := hnumber ▸ h row' hrow'
      have hne' : (rowToCanonicalTurn 0 row).unplaced.turnGroupNumber ≠ number :=
        hne
      simp [hne']

/-- A turn is found under its number exactly if the condition holds for it. -/
theorem number_stays_iff (hpair : IsPair args own other) (number : Int)
    (hmoved : turns.rows =
      t.canonicalTurns.rows.map (moveTurn args (t.mergeOffset args))) :
    (∀ contents, (number, contents) ∈ t.turnContents own →
        (number, contents) ∈
          (t.mergedInto args turns).turnContents args.targetConversationId) ↔
      NumberStays args t own other number := by
  unfold NumberStays
  refine forall₂_congr fun contents hcontents => ?_
  rw [turnContents_eq, unplaced_merged hmoved]
  rw [turnContents_eq] at hcontents
  split_ifs with hnumbered
  · have hown : ∀ row ∈ (t.loadRows own).map (·.unplaced),
        0 ≤ row.turnGroupNumber := fun row hrow =>
      hnumbered row ((both_perm hpair).mem_iff.mpr (List.mem_append_left _ hrow))
    rw [groupedRows_explicit hown, mem_explicitGroups] at hcontents
    rw [groupedRows_explicit hnumbered, mem_explicitGroups,
      ← filter_number_iff hpair number hmoved, ← hcontents.1]
    exact ⟨fun h => h.1.symm, fun h => ⟨h.symm, hcontents.2⟩⟩
  · have hcontent : groupedRows (t.bothTranscripts args) =
        (contentGroups (t.bothTranscripts args)).zipIdx.map fun turn =>
          ((turn.2 : Int), turn.1) := by
      unfold groupedRows
      rw [if_neg]
      simpa [List.all_eq_true] using hnumbered
    rw [hcontent, mem_contentNumbered_iff]

end

/-! ## The references -/

/-- A reference that is moved refers to the target. -/
def moveReference (args : MergeArgs) (reference : TurnReference) :
    TurnReference :=
  if reference.conversationId = args.sourceConversationId then
    { reference with conversationId := args.targetConversationId }
  else reference

theorem turnReferences_mergedInto :
    (t.mergedInto args turns).turnReferences =
      t.turnReferences.map (moveReference args) := by
  simp only [Tables.turnReferences, Tables.mergedInto, List.map_append,
    List.map_map]
  congr 1
  · apply List.map_congr_left
    intro row _
    simp only [Function.comp, moveChainSnapshot, moveReference]
    split_ifs <;> rfl
  · apply List.map_congr_left
    intro row _
    simp only [Function.comp, moveTurnToolOutput, moveReference]
    split_ifs <;> rfl

theorem referenceKept_iff (reference : TurnReference)
    (hmoved : turns.rows =
      t.canonicalTurns.rows.map (moveTurn args (t.mergeOffset args))) :
    ReferenceKept args t (t.mergedInto args turns) reference
        (moveReference args reference) ↔
      (reference.conversationId = args.targetConversationId →
        NumberStays args t args.targetConversationId args.sourceConversationId
          reference.turnNumber) ∧
      (reference.conversationId = args.sourceConversationId →
        NumberStays args t args.sourceConversationId args.targetConversationId
          reference.turnNumber) := by
  obtain ⟨conversationId, number⟩ := reference
  have htarget : IsPair args args.targetConversationId
      args.sourceConversationId := .inl ⟨rfl, rfl⟩
  have hsource : IsPair args args.sourceConversationId
      args.targetConversationId := .inr ⟨rfl, rfl⟩
  rw [← number_stays_iff htarget number hmoved,
    ← number_stays_iff hsource number hmoved]
  by_cases hown : conversationId = args.sourceConversationId
  · subst hown
    simp [ReferenceKept, moveReference, args.distinct]
  · by_cases hother : conversationId = args.targetConversationId
    · subst hother
      simp [ReferenceKept, moveReference, hown]
    · simp [ReferenceKept, hown, hother]

/--
A merge that commits keeps the references to turns exactly if every turn that
is referred to has its number in both transcripts taken together.
-/
theorem merge_keeps_references_iff {n : Nat} {stats : MergeStats}
    {c : Conn Tables}
    (hrun : (mergeConversationData args).run .quiet (.idle t n) =
      (.ok stats, c)) :
    KeepsReferences args t c.durable ↔ NumbersStay args t := by
  obtain ⟨turns, rfl, hmoved⟩ := merged_of_run hrun
  rw [Conn.durable_idle, KeepsReferences, turnReferences_mergedInto,
    List.forall₂_map_right_iff, List.forall₂_same]
  exact forall₂_congr fun reference _ => referenceKept_iff reference hmoved

end

/-- A snapshot of the tool chain of the only turn of the note. -/
def chatAndSnapshot (calls : List IngestCall) : Tables :=
  { chatAndNote calls with
    chainSnapshots :=
      [{ ref := "chain_0_abc", conversationId := "note", turnNumber := 0,
         chainJson := "[]", messageCount := 2 }] }

/-- The conversation that was merged into had no turns of its own. -/
theorem merge_keeps_references_iff_emptyChat :
    KeepsReferences noteIntoChat (chatAndSnapshot [noteCall "a"])
        ((mergeConversationData noteIntoChat).run .quiet
          (.idle (chatAndSnapshot [noteCall "a"]) 2)).2.durable ↔
      NumbersStay noteIntoChat (chatAndSnapshot [noteCall "a"]) := by
  have hrun : (mergeConversationData noteIntoChat).run .quiet
      (.idle (chatAndSnapshot [noteCall "a"]) 2) =
      (.ok ⟨1000, 1⟩, ((mergeConversationData noteIntoChat).run .quiet
        (.idle (chatAndSnapshot [noteCall "a"]) 2)).2) := by
    refine Prod.ext ?_ rfl
    decide +kernel
  exact merge_keeps_references_iff hrun

/-- The snapshot of the note then names the first turn of the chat. -/
theorem snapshot_names_other_turn :
    let t := chatAndSnapshot [userCall ["a"], noteCall "b"]
    let merge := (mergeConversationData noteIntoChat).run .quiet (.idle t 4)
    merge.1.toOption = some ⟨2000, 1⟩ ∧
      ¬ KeepsReferences noteIntoChat t merge.2.durable := by
  intro t merge
  refine ⟨by decide +kernel, fun h => ?_⟩
  have hbefore : t.turnReferences = [⟨"note", 0⟩] := by decide +kernel
  have hafter : merge.2.durable.turnReferences = [⟨"chat", 0⟩] := by
    decide +kernel
  have hlost : ¬ ∀ turn ∈ t.turnContents "note", turn.1 = 0 →
      turn ∈ merge.2.durable.turnContents "chat" := by decide +kernel
  rw [KeepsReferences, hbefore, hafter, List.forall₂_cons] at h
  refine hlost fun turn hturn hzero => ?_
  obtain ⟨number, contents⟩ := turn
  obtain rfl : number = 0 := hzero
  exact (h.1 (.inl rfl)).2 contents hturn

end VirtualContext
