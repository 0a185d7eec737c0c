import VirtualContext.Storage.GroupingFacts

/-!
# Grouping one transcript after another

When two transcripts are read in a row, their turns are the turns of the one
and then those of the other under exactly two circumstances: the group numbers
of the first all come before those of the second, or the contents are read, they
give the same turns as before, and no turn reaches over the seam.
-/

namespace VirtualContext

open VirtualContext.Library

/-! ## Reading the contents over the seam -/

/-- A user row that waits for its answer. -/
def CanonicalTurnRow.isQuestion (row : CanonicalTurnRow) : Bool :=
  row.hasUser && !row.hasAssistant

/-- An assistant row without a user part. -/
def CanonicalTurnRow.isAnswer (row : CanonicalTurnRow) : Bool :=
  row.hasAssistant && !row.hasUser

/-- The first row on the right answers the last row on the left. -/
def AnswersOver (left right : List CanonicalTurnRow) : Prop :=
  ∃ question ∈ left.getLast?, ∃ answer ∈ right.head?,
    question.isQuestion = true ∧ answer.isAnswer = true

namespace GroupScan

/-- Only the last row decides whether a row waits. -/
theorem pending_step (scan : GroupScan) (row : CanonicalTurnRow) :
    (scan.step row).pending = if row.isQuestion then [row] else [] := by
  cases hu : row.hasUser <;> cases ha : row.hasAssistant <;>
    cases hp : scan.pending <;>
      simp [step, flushPending, CanonicalTurnRow.isQuestion, hu, ha, hp]

/-- Turns that are complete stay as they are. -/
theorem step_grouped (done : List (List CanonicalTurnRow)) (scan : GroupScan)
    (row : CanonicalTurnRow) :
    step ⟨done ++ scan.grouped, scan.pending⟩ row =
      ⟨done ++ (scan.step row).grouped, (scan.step row).pending⟩ := by
  cases hu : row.hasUser <;> cases ha : row.hasAssistant <;>
    cases hp : scan.pending <;>
      simp [step, flushPending, hu, ha, hp]

theorem foldl_grouped (done : List (List CanonicalTurnRow))
    (rows : List CanonicalTurnRow) (scan : GroupScan) :
    rows.foldl step ⟨done ++ scan.grouped, scan.pending⟩ =
      ⟨done ++ (rows.foldl step scan).grouped,
        (rows.foldl step scan).pending⟩ := by
  induction rows generalizing scan with
  | nil => rfl
  | cons row rows ih =>
      rw [List.foldl_cons, step_grouped, ih, List.foldl_cons]

theorem turns_foldl_idle (done : List (List CanonicalTurnRow))
    (rows : List CanonicalTurnRow) :
    (rows.foldl step ⟨done, []⟩).turns = done ++ contentGroups rows := by
  have h := foldl_grouped done rows ⟨[], []⟩
  rw [List.append_nil] at h
  rw [h, contentGroups]
  cases hpending : (rows.foldl step ⟨[], []⟩).pending <;>
    simp [turns, flushPending, hpending]

/-- A row that answers nothing closes the waiting turn first. -/
theorem step_waiting {row : CanonicalTurnRow} (h : row.isAnswer = false)
    (done : List (List CanonicalTurnRow)) (question : CanonicalTurnRow) :
    step ⟨done, [question]⟩ row = step ⟨done ++ [[question]], []⟩ row := by
  cases hu : row.hasUser <;> cases ha : row.hasAssistant <;>
    simp_all [step, flushPending, CanonicalTurnRow.isAnswer]

theorem step_answer {row : CanonicalTurnRow} (h : row.isAnswer = true)
    (done : List (List CanonicalTurnRow)) (question : CanonicalTurnRow) :
    step ⟨done, [question]⟩ row = ⟨done ++ [[question, row]], []⟩ := by
  cases hu : row.hasUser <;> cases ha : row.hasAssistant <;>
    simp_all [step, flushPending, CanonicalTurnRow.isAnswer]

end GroupScan

theorem pending_foldl_step {rows : List CanonicalTurnRow}
    {last : CanonicalTurnRow} (hlast : last ∈ rows.getLast?)
    (scan : GroupScan) :
    (rows.foldl GroupScan.step scan).pending =
      if last.isQuestion then [last] else [] := by
  obtain ⟨front, rfl⟩ := List.getLast?_eq_some_iff.mp hlast
  rw [List.foldl_append, List.foldl_cons, List.foldl_nil,
    GroupScan.pending_step]

/-- Over a seam that no turn reaches over the contents are read separately. -/
theorem contentGroups_append {left right : List CanonicalTurnRow}
    (h : ¬ AnswersOver left right) :
    contentGroups (left ++ right) = contentGroups left ++ contentGroups right := by
  rcases hscan : left.foldl GroupScan.step ⟨[], []⟩ with ⟨done, pending⟩
  have hleft : contentGroups left = GroupScan.turns ⟨done, pending⟩ := by
    rw [← hscan]
    rfl
  have hboth : contentGroups (left ++ right) =
      (right.foldl GroupScan.step ⟨done, pending⟩).turns := by
    rw [← hscan, ← List.foldl_append]
    rfl
  rw [hboth, hleft]
  cases hlast : left.getLast? with
  | none =>
      obtain rfl := List.getLast?_eq_none_iff.mp hlast
      cases hscan
      simpa [GroupScan.turns, GroupScan.flushPending] using
        GroupScan.turns_foldl_idle [] right
  | some last =>
      have hpending := pending_foldl_step hlast ⟨[], []⟩
      rw [hscan] at hpending
      dsimp only at hpending
      subst hpending
      split_ifs with hquestion
      · cases right with
        | nil => simp [contentGroups, GroupScan.flushPending]
        | cons row right =>
            have hanswer : row.isAnswer = false := by
              by_contra hanswer
              exact h ⟨last, hlast, row, rfl, hquestion, by simpa using hanswer⟩
            rw [List.foldl_cons, GroupScan.step_waiting hanswer,
              ← List.foldl_cons, GroupScan.turns_foldl_idle]
            rfl
      · rw [GroupScan.turns_foldl_idle]
        rfl

/-- A turn that reaches over the seam. -/
theorem mem_contentGroups_of_answersOver {left right : List CanonicalTurnRow}
    (h : AnswersOver left right) :
    ∃ question ∈ left, ∃ answer ∈ right,
      [question, answer] ∈ contentGroups (left ++ right) := by
  obtain ⟨question, hquestion, answer, hanswer, hasks, hreplies⟩ := h
  refine ⟨question, List.mem_of_getLast? hquestion, answer,
    List.mem_of_head? hanswer, ?_⟩
  have hpending := pending_foldl_step hquestion ⟨[], []⟩
  rcases hscan : left.foldl GroupScan.step ⟨[], []⟩ with ⟨done, pending⟩
  rw [hscan, if_pos hasks] at hpending
  dsimp only at hpending
  subst hpending
  cases right with
  | nil => cases hanswer
  | cons row right =>
      cases hanswer
      have hboth : contentGroups (left ++ answer :: right) =
          (right.foldl GroupScan.step ⟨done ++ [[question, answer]], []⟩).turns := by
        rw [← GroupScan.step_answer hreplies, ← List.foldl_cons, ← hscan,
          ← List.foldl_append]
        rfl
      rw [hboth, GroupScan.turns_foldl_idle]
      simp

/-! ## Reading the numbers over the seam -/

/-- Every number on the left is set and comes before those on the right. -/
def NumbersApart (left right : List CanonicalTurnRow) : Prop :=
  ∀ row ∈ left, ∀ row' ∈ right,
    0 ≤ row.turnGroupNumber ∧ row.turnGroupNumber < row'.turnGroupNumber

theorem mem_explicitGroups_of_mem {rows : List CanonicalTurnRow}
    {row : CanonicalTurnRow} (h : row ∈ rows) :
    ∃ members, (row.turnGroupNumber, members) ∈ explicitGroups rows ∧
      row ∈ members := by
  have hrow : row ∈ rows.filter
      (fun other => other.turnGroupNumber = row.turnGroupNumber) := by
    simp [h]
  exact ⟨_, mem_explicitGroups.mpr ⟨rfl, List.ne_nil_of_mem hrow⟩, hrow⟩

theorem number_of_mem_explicitGroups {rows : List CanonicalTurnRow}
    {turn : Int × List CanonicalTurnRow} (hturn : turn ∈ explicitGroups rows)
    {row : CanonicalTurnRow} (hrow : row ∈ turn.2) :
    turn.1 = row.turnGroupNumber := by
  obtain ⟨number, members⟩ := turn
  obtain ⟨rfl, -⟩ := mem_explicitGroups.mp hturn
  simpa [eq_comm] using (List.mem_filter.mp hrow).2

theorem explicitGroups_increasing (rows : List CanonicalTurnRow) :
    Increasing Prod.fst (explicitGroups rows) :=
  increasing_orderBy (Dictionary.keys_ofPairs_nodup _)

theorem explicitGroups_append {left right : List CanonicalTurnRow}
    (h : ∀ row ∈ left, ∀ row' ∈ right,
      row.turnGroupNumber < row'.turnGroupNumber) :
    explicitGroups (left ++ right) =
      explicitGroups left ++ explicitGroups right := by
  have hincreasing : Increasing Prod.fst
      (explicitGroups left ++ explicitGroups right) := by
    rw [increasing_append]
    refine ⟨explicitGroups_increasing left, explicitGroups_increasing right, ?_⟩
    rintro ⟨number, members⟩ hturn ⟨number', members'⟩ hturn'
    obtain ⟨row, hrow⟩ := List.exists_mem_of_ne_nil _
      (mem_explicitGroups.mp hturn).2
    obtain ⟨row', hrow'⟩ := List.exists_mem_of_ne_nil _
      (mem_explicitGroups.mp hturn').2
    rw [number_of_mem_explicitGroups hturn hrow,
      number_of_mem_explicitGroups hturn' hrow']
    apply h
    · rw [(mem_explicitGroups.mp hturn).1] at hrow
      exact (List.mem_filter.mp hrow).1
    · rw [(mem_explicitGroups.mp hturn').1] at hrow'
      exact (List.mem_filter.mp hrow').1
  rw [← orderBy_of_increasing (explicitGroups_increasing (left ++ right))]
  refine orderBy_eq_of_perm ?_ hincreasing
  rw [List.perm_ext_iff_of_nodup (explicitGroups_increasing _).nodup
    hincreasing.nodup]
  rintro ⟨number, members⟩
  simp only [List.mem_append, mem_explicitGroups, List.filter_append]
  by_cases hleft : (left.filter fun row => decide (row.turnGroupNumber = number))
      = []
  · simp only [hleft, List.nil_append]
    constructor
    · exact .inr
    · rintro (⟨rfl, hne⟩ | hright)
      · exact absurd rfl hne
      · exact hright
  · obtain ⟨row, hrow⟩ := List.exists_mem_of_ne_nil _ hleft
    obtain ⟨hmem, hnumber⟩ := List.mem_filter.mp hrow
    have hright : (right.filter fun row =>
        decide (row.turnGroupNumber = number)) = [] := by
      rw [List.filter_eq_nil_iff]
      intro row' hrow' hnumber'
      have := h row hmem row' hrow'
      simp only [decide_eq_true_eq] at hnumber hnumber'
      omega
    simp only [hright, List.append_nil]
    constructor
    · exact .inl
    · rintro (hleft | ⟨rfl, hne⟩)
      · exact hleft
      · exact absurd rfl hne

/-- Only numbers that are apart give the turns in a row. -/
theorem numbers_lt_of_explicitGroups_append {left right : List CanonicalTurnRow}
    (h : (explicitGroups (left ++ right)).map Prod.snd =
      (explicitGroups left).map Prod.snd ++ (explicitGroups right).map Prod.snd)
    {row row' : CanonicalTurnRow} (hrow : row ∈ left) (hrow' : row' ∈ right) :
    row.turnGroupNumber < row'.turnGroupNumber := by
  obtain ⟨before, after, hsplit, hbefore, hafter⟩ := List.map_eq_append_iff.mp h
  have hincreasing := explicitGroups_increasing (left ++ right)
  rw [hsplit] at hincreasing
  have hnumber : ∀ {rows : List CanonicalTurnRow} {row : CanonicalTurnRow}
      {turns : List (Int × List CanonicalTurnRow)}, row ∈ rows →
      turns.map Prod.snd = (explicitGroups rows).map Prod.snd →
      (∀ turn ∈ turns, turn ∈ explicitGroups (left ++ right)) →
      ∃ members, (row.turnGroupNumber, members) ∈ turns := by
    intro rows row turns hrow hmembers hturns
    obtain ⟨members, hmem, hmember⟩ := mem_explicitGroups_of_mem hrow
    have := List.mem_map_of_mem (f := Prod.snd) hmem
    rw [← hmembers] at this
    obtain ⟨turn, hturn, rfl⟩ := List.mem_map.mp this
    refine ⟨turn.2, ?_⟩
    rwa [← number_of_mem_explicitGroups (hturns turn hturn) hmember]
  obtain ⟨members, hmem⟩ := hnumber hrow hbefore fun turn hturn =>
    hsplit ▸ List.mem_append_left _ hturn
  obtain ⟨members', hmem'⟩ := hnumber hrow' hafter fun turn hturn =>
    hsplit ▸ List.mem_append_right _ hturn
  exact (increasing_append.mp hincreasing).2.2 _ hmem _ hmem'

/-! ## Either way -/

/-- The turns of the rows, in their order. -/
def turnMembers (rows : List CanonicalTurnRow) : List (List CanonicalTurnRow) :=
  (groupedRows rows).map Prod.snd

theorem turnMembers_explicit {rows : List CanonicalTurnRow}
    (h : ∀ row ∈ rows, 0 ≤ row.turnGroupNumber) :
    turnMembers rows = (explicitGroups rows).map Prod.snd := by
  rw [turnMembers, groupedRows_explicit h]

theorem turnMembers_content {rows : List CanonicalTurnRow}
    (h : ∃ row ∈ rows, row.turnGroupNumber < 0) :
    turnMembers rows = contentGroups rows := by
  unfold turnMembers groupedRows
  rw [if_neg]
  · rw [List.map_map]
    exact List.zipIdx_map_fst 0 _
  · simpa using h

theorem mem_of_mem_turnMembers {rows turn : List CanonicalTurnRow}
    (hturn : turn ∈ turnMembers rows) {row : CanonicalTurnRow}
    (hrow : row ∈ turn) : row ∈ rows := by
  obtain ⟨turn, hmem, rfl⟩ := List.mem_map.mp hturn
  exact mem_of_mem_groupedRows hmem hrow

theorem turnMembers_ne_nil {rows turn : List CanonicalTurnRow}
    (hturn : turn ∈ turnMembers rows) : turn ≠ [] := by
  obtain ⟨turn, hmem, rfl⟩ := List.mem_map.mp hturn
  exact groupedRows_ne_nil hmem

/-- The contents are read, give the same turns and none over the seam. -/
structure ContentsApart (left right : List CanonicalTurnRow) : Prop where
  unnumbered : ∃ row ∈ left ++ right, row.turnGroupNumber < 0
  before : turnMembers left = contentGroups left
  after : turnMembers right = contentGroups right
  seam : ¬ AnswersOver left right

/-- Two lists that are split by the same test have the same parts. -/
theorem append_inj_of_test {α : Type} {left left' right right' : List α}
    (test : α → Prop) (h : left ++ right = left' ++ right')
    (hleft : ∀ a ∈ left, test a) (hleft' : ∀ a ∈ left', test a)
    (hright : ∀ a ∈ right, ¬ test a) (hright' : ∀ a ∈ right', ¬ test a) :
    left = left' ∧ right = right' := by
  classical
  have hfilter := congrArg (List.filter fun a => decide (test a)) h
  rw [List.filter_append, List.filter_append,
    List.filter_eq_self.mpr fun a ha => decide_eq_true (hleft a ha),
    List.filter_eq_self.mpr fun a ha => decide_eq_true (hleft' a ha),
    List.filter_eq_nil_iff.mpr fun a ha => by simpa using hright a ha,
    List.filter_eq_nil_iff.mpr fun a ha => by simpa using hright' a ha,
    List.append_nil, List.append_nil] at hfilter
  subst hfilter
  exact ⟨rfl, List.append_cancel_left h⟩

/-- The turns of two transcripts in a row are those of the one and the other. -/
theorem turnMembers_append_iff {left right : List CanonicalTurnRow}
    (hdisjoint : left.Disjoint right) (hleft : left ≠ []) (hright : right ≠ []) :
    turnMembers (left ++ right) = turnMembers left ++ turnMembers right ↔
      NumbersApart left right ∨ ContentsApart left right := by
  by_cases hnumbered : ∀ row ∈ left ++ right, 0 ≤ row.turnGroupNumber
  · have hnumberedLeft := fun row hrow =>
      hnumbered row (List.mem_append_left _ hrow)
    rw [turnMembers_explicit hnumbered, turnMembers_explicit hnumberedLeft,
      turnMembers_explicit fun row hrow =>
        hnumbered row (List.mem_append_right _ hrow)]
    constructor
    · intro h
      left
      intro row hrow row' hrow'
      exact ⟨hnumberedLeft row hrow,
        numbers_lt_of_explicitGroups_append h hrow hrow'⟩
    · rintro (happart | happart)
      · rw [explicitGroups_append fun row hrow row' hrow' =>
          (happart row hrow row' hrow').2, List.map_append]
      · obtain ⟨row, hrow, hneg⟩ := happart.unnumbered
        exact absurd (hnumbered row hrow) (not_le.mpr hneg)
  · push Not at hnumbered
    rw [turnMembers_content hnumbered]
    constructor
    · intro h
      right
      have hpure : ∀ turn ∈ turnMembers left, ∃ row ∈ turn, row ∈ left := by
        intro turn hturn
        obtain ⟨row, hrow⟩ := List.exists_mem_of_ne_nil _
          (turnMembers_ne_nil hturn)
        exact ⟨row, hrow, mem_of_mem_turnMembers hturn hrow⟩
      have hpure' : ∀ turn ∈ turnMembers right, ¬ ∃ row ∈ turn, row ∈ left := by
        rintro turn hturn ⟨row, hrow, hmem⟩
        exact hdisjoint hmem (mem_of_mem_turnMembers hturn hrow)
      have hseam : ¬ AnswersOver left right := by
        intro hover
        obtain ⟨question, hquestion, answer, hanswer, hturn⟩ :=
          mem_contentGroups_of_answersOver hover
        rw [h] at hturn
        rcases List.mem_append.mp hturn with hturn | hturn
        · exact hdisjoint (mem_of_mem_turnMembers hturn (by simp)) hanswer
        · exact hpure' _ hturn ⟨question, by simp, hquestion⟩
      rw [contentGroups_append hseam] at h
      have hcontents : ∀ {rows turn : List CanonicalTurnRow},
          turn ∈ contentGroups rows → ∀ row ∈ turn, row ∈ rows := by
        intro rows turn hturn row hrow
        have hmem : row ∈ (contentGroups rows).flatten :=
          List.mem_flatten.mpr ⟨turn, hturn, hrow⟩
        rw [flatten_contentGroups] at hmem
        exact (List.mem_filter.mp hmem).1
      obtain ⟨heq, heq'⟩ := append_inj_of_test
        (fun turn => ∃ row ∈ turn, row ∈ left) h
        (by
          intro turn hturn
          obtain ⟨row, hrow⟩ := List.exists_mem_of_ne_nil _
            (contentGroups_ne_nil _ _ hturn)
          exact ⟨row, hrow, hcontents hturn row hrow⟩)
        hpure
        (by
          rintro turn hturn ⟨row, hrow, hmem⟩
          exact hdisjoint hmem (hcontents hturn row hrow))
        hpure'
      exact ⟨hnumbered, heq.symm, heq'.symm, hseam⟩
    · rintro (happart | happart)
      · obtain ⟨row, hrow, hneg⟩ := hnumbered
        obtain ⟨first, hfirst⟩ := List.exists_mem_of_ne_nil _ hleft
        obtain ⟨last, hlast⟩ := List.exists_mem_of_ne_nil _ hright
        rcases List.mem_append.mp hrow with hmem | hmem
        · have := happart row hmem last hlast
          omega
        · have := happart first hfirst row hmem
          omega
      · rw [contentGroups_append happart.seam, happart.before,
          happart.after]

end VirtualContext
