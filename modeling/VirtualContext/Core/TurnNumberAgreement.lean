import VirtualContext.Core.TaggingRuns
import VirtualContext.Library.Reach

/-!
# Turn numbers of a driven conversation

`tag_turn` writes the count of its index entries into the rows of a turn.  That
count is the number of the turn in the store as long as every exchange either
becomes a turn of two new rows that is tagged, or leaves no trace in the index
and in the store.
-/

namespace VirtualContext

open VirtualContext.Library

/-! ## Agreement -/

namespace DrivenConversation

/-- The canonical rows of the conversation. -/
def rows (pipeline : TaggingPipeline) (s : DrivenConversation) :
    List CanonicalTurnRow :=
  s.conn.durable.loadRows pipeline.conversationId

/--
Every entry of the index has the number of the rows that hold its turn, and
rows of different turns have different numbers.
-/
structure TurnNumbersAgree (pipeline : TaggingPipeline) (s : DrivenConversation) :
    Prop where
  numbered : ∀ entry ∈ s.index.entries, ∀ outcome ∈ s.outcomes,
    outcome.tagged = some entry.turnNumber →
      ∀ row ∈ s.rows pipeline, row.canonicalTurnId ∈ outcome.heldBy →
        row.turnGroupNumber = entry.turnNumber
  apart : s.outcomes.Pairwise fun outcome outcome' =>
    ∀ row ∈ s.rows pipeline, ∀ row' ∈ s.rows pipeline,
      row.canonicalTurnId ∈ outcome.heldBy →
        row'.canonicalTurnId ∈ outcome'.heldBy →
          row.turnGroupNumber ≠ row'.turnGroupNumber

/-- Every entry is of a driven turn, and every tagged turn has its two rows. -/
structure TurnsHeld (pipeline : TaggingPipeline) (s : DrivenConversation) :
    Prop where
  entries : s.index.numbers = s.outcomes.filterMap (·.tagged)
  held : ∀ outcome ∈ s.outcomes, outcome.tagged ≠ none →
    ∃ row ∈ s.rows pipeline, ∃ row' ∈ s.rows pipeline,
      row.canonicalTurnId ∈ outcome.heldBy ∧
        row'.canonicalTurnId ∈ outcome.heldBy ∧
        row.userContent = outcome.exchange.user ∧
        row'.assistantContent = outcome.exchange.assistant

/-- A conversation without any rows yet, in any store. -/
def Starts (pipeline : TaggingPipeline) (s : DrivenConversation) : Prop :=
  ∃ store : Store, store.tables.loadRows pipeline.conversationId = [] ∧
    s = start store

/-! ## The exchanges that keep the numbers -/

/-- What ingestion compares of an exchange. -/
def prepared (sha : Sha256) (pipeline : TaggingPipeline) (turn : DrivenTurn) :
    List CanonicalTurnRow :=
  (pipeline.exchangeArgs turn.exchange none).prepared sha turn.persisting.now

/-- Nothing that is stored passes for the exchange. -/
structure NotStored (sha : Sha256) (pipeline : TaggingPipeline)
    (turn : DrivenTurn) (rows : List CanonicalTurnRow) : Prop where
  resend : findResend turn.persisting.seen rows (prepared sha pipeline turn) = none
  whole : rows.map (·.turnHash) ≠
    [userHash sha turn.exchange.user, assistantHash sha turn.exchange.assistant]

/-- The exchanges after which the numbers still agree. -/
inductive KeepsNumbers (sha : Sha256) (pipeline : TaggingPipeline)
    (turn : DrivenTurn) (s : DrivenConversation) : Prop where
  /-- The first exchange has two texts, and it is tagged. -/
  | first (hrows : s.rows pipeline = [])
      (huser : turn.exchange.user ≠ "") (hassistant : turn.exchange.assistant ≠ "")
      (htagged : pyStrip (combinedText turn.exchange.messages) ≠ "" ∨
        isToolTurn turn.exchange.messages = true)
  /-- A later one has two texts that are not blank, and they are new. -/
  | new (hrows : s.rows pipeline ≠ [])
      (hnew : NotStored sha pipeline turn (s.rows pipeline))
      (huser : pyStrip turn.exchange.user ≠ "")
      (hassistant : pyStrip turn.exchange.assistant ≠ "")
      (hnear : turn.tagging.compactionSignal = true ∨
        ¬ RepeatsNear ((s.rows pipeline).map (·.turnHash))
          (userHash sha turn.exchange.user)
          (assistantHash sha turn.exchange.assistant))
  /-- Or it is blank and uses no tools. -/
  | blank (hrows : s.rows pipeline ≠ [])
      (hnew : NotStored sha pipeline turn (s.rows pipeline))
      (hblank : pyStrip (combinedText turn.exchange.messages) = "")
      (htool : isToolTurn turn.exchange.messages = false)

/-- A step whose exchange keeps the numbers. -/
def NumberedStep (sha : Sha256) (pipeline : TaggingPipeline)
    (s s' : DrivenConversation) : Prop :=
  ∃ turn, KeepsNumbers sha pipeline turn s ∧ drive sha pipeline turn s = some s'

end DrivenConversation

/-! ## The record of the run -/

/-- The outcome of an exchange that became this turn. -/
structure TurnOutcome.Became (sha : Sha256) (outcome : TurnOutcome)
    (turn : CanonicalTurnRecord × CanonicalTurnRecord) : Prop where
  first : turn.1.canonicalTurnId ∈ outcome.heldBy
  second : turn.2.canonicalTurnId ∈ outcome.heldBy
  only : ∀ id ∈ outcome.heldBy,
    id = turn.1.canonicalTurnId ∨ id = turn.2.canonicalTurnId
  texts : HoldsTexts sha outcome.exchange.user outcome.exchange.assistant turn

/-- The outcomes of a run, beside the turns that the store consists of. -/
structure Recorded (sha : Sha256) (outcomes : List TurnOutcome)
    (turns : List (CanonicalTurnRecord × CanonicalTurnRecord)) : Prop where
  numbers : outcomes.filterMap (·.tagged) =
    (List.range turns.length).map fun i : Nat => (i : Int)
  untagged : ∀ outcome ∈ outcomes, outcome.tagged = none → outcome.heldBy = []
  tagged : ∀ outcome ∈ outcomes, ∀ number, outcome.tagged = some number →
    ∃ i : Nat, number = i ∧ ∃ turn, turns[i]? = some turn ∧
      outcome.Became sha turn

section Recorded

variable {sha : Sha256} {outcomes : List TurnOutcome}
  {turns : List (CanonicalTurnRecord × CanonicalTurnRecord)}

theorem Recorded.skip (h : Recorded sha outcomes turns) (exchange : Exchange) :
    Recorded sha (outcomes ++ [⟨exchange, none, []⟩]) turns where
  numbers := by simp [h.numbers]
  untagged outcome houtcome hnone := by
    rcases List.mem_append.mp houtcome with hold | hnew
    · exact h.untagged outcome hold hnone
    · rw [List.mem_singleton.mp hnew]
  tagged outcome houtcome number hnumber := by
    rcases List.mem_append.mp houtcome with hold | hnew
    · exact h.tagged outcome hold number hnumber
    · rw [List.mem_singleton.mp hnew] at hnumber
      cases hnumber

theorem Recorded.append (h : Recorded sha outcomes turns) {outcome : TurnOutcome}
    {turn : CanonicalTurnRecord × CanonicalTurnRecord}
    (hnumber : outcome.tagged = some (turns.length : Int))
    (hbecame : outcome.Became sha turn) :
    Recorded sha (outcomes ++ [outcome]) (turns ++ [turn]) where
  numbers := by
    simp [h.numbers, hnumber, List.range_succ]
  untagged other hother hnone := by
    rcases List.mem_append.mp hother with hold | hnew
    · exact h.untagged other hold hnone
    · rw [List.mem_singleton.mp hnew, hnumber] at hnone
      cases hnone
  tagged other hother number hnumber' := by
    rcases List.mem_append.mp hother with hold | hnew
    · obtain ⟨i, hi, old, hold, hbecame⟩ := h.tagged other hold number hnumber'
      exact ⟨i, hi, old, by
        rw [List.getElem?_append_left (List.getElem?_eq_some_iff.mp hold).1]
        exact hold, hbecame⟩
    · obtain rfl := List.mem_singleton.mp hnew
      rw [hnumber, Option.some.injEq] at hnumber'
      exact ⟨turns.length, hnumber'.symm, turn, by simp, hbecame⟩

end Recorded

/-! ## One exchange -/

/-- What every run maintains whose exchanges keep the numbers. -/
structure Numbered (sha : Sha256) (pipeline : TaggingPipeline)
    (s : DrivenConversation) (t : Tables) (n : Nat)
    (turns : List (CanonicalTurnRecord × CanonicalTurnRecord)) : Prop where
  conn : s.conn = .idle t n
  drawn : t.Drawn n
  consists : ConsistsOf t pipeline.conversationId turns
  entries : s.index.numbers = (List.range turns.length).map fun i : Nat => (i : Int)
  recorded : Recorded sha s.outcomes turns

/-- Resends are found by their hashes. -/
theorem findResend_congr {seen : String → Bool}
    {existing prepared prepared' : List CanonicalTurnRow}
    (h : prepared.map (·.turnHash) = prepared'.map (·.turnHash)) :
    findResend seen existing prepared = findResend seen existing prepared' := by
  have hlength : prepared.length = prepared'.length := by
    simpa using congrArg List.length h
  unfold findResend
  rw [hlength, h]

section Step

variable {sha : Sha256} {pipeline : TaggingPipeline} {turn : DrivenTurn}
  {s : DrivenConversation} {t : Tables} {n : Nat}
  {turns : List (CanonicalTurnRecord × CanonicalTurnRecord)}

open DrivenConversation

theorem drive_eq {index : TurnTagIndex} {heldBy : List Uuid}
    {result : TaggingPipeline.TagTurnResult} {c c' : Conn Tables}
    (hpersist : (pipeline.persistCompletedTurn sha turn.persisting
      ((s.outcomes.map (·.exchange)).flatMap (·.messages) ++
        turn.exchange.messages) s.index).run .quiet s.conn =
        (.ok (index, heldBy), c))
    (htag : (pipeline.tagTurn sha turn.tagging
      ((s.outcomes.map (·.exchange)).flatMap (·.messages) ++
        turn.exchange.messages) index s.toolTagCounter).run .quiet c =
        (.ok result, c')) :
    drive sha pipeline turn s = some
      { conn := c'
        index := result.index
        toolTagCounter := result.toolTagCounter
        outcomes := s.outcomes ++
          [⟨turn.exchange, result.tagged, heldBy ++ result.heldBy⟩] } := by
  have hhistory : s.history =
      (s.outcomes.map (·.exchange)).flatMap (·.messages) := by
    simp [history, List.flatMap_map]
  unfold drive
  simp only [hhistory, Program.run_bind, hpersist, Program.andThen_ok, htag,
    Program.run_pure]

theorem Numbered.rows_eq (h : Numbered sha pipeline s t n turns) :
    s.rows pipeline = t.loadRows pipeline.conversationId := by
  rw [DrivenConversation.rows, h.conn]
  rfl

theorem Numbered.rows_eq_nil_iff (h : Numbered sha pipeline s t n turns) :
    s.rows pipeline = [] ↔ turns = [] := by
  rw [h.rows_eq, ← List.length_eq_zero_iff, h.consists.length_loadRows,
    ← List.length_eq_zero_iff]
  omega

theorem Numbered.length_entries (h : Numbered sha pipeline s t n turns) :
    s.index.entries.length = turns.length := by
  have hlength := congrArg List.length h.entries
  simpa [TurnTagIndex.numbers] using hlength

/-- The first rows of a conversation are not stored before. -/
theorem notStored_nil (sha : Sha256) (pipeline : TaggingPipeline)
    (turn : DrivenTurn) : NotStored sha pipeline turn [] where
  resend := by
    unfold findResend
    rw [if_pos]
    exact Nat.succ_pos 1
  whole := by simp

/-- `persist_completed_turn` of two new texts adds the next turn. -/
theorem Numbered.persist (h : Numbered sha pipeline s t n turns)
    (hnew : NotStored sha pipeline turn (s.rows pipeline))
    (huser : turn.exchange.user ≠ "") (hassistant : turn.exchange.assistant ≠ "")
    (hkept : turns = [] ∨ pyStrip turn.exchange.user ≠ "" ∧
      pyStrip turn.exchange.assistant ≠ "") :
    ∃ (index : TurnTagIndex) (t' : Tables) (n' : Nat)
      (added : CanonicalTurnRecord × CanonicalTurnRecord),
      (pipeline.persistCompletedTurn sha turn.persisting
        ((s.outcomes.map (·.exchange)).flatMap (·.messages) ++
          turn.exchange.messages) s.index).run .quiet s.conn =
        (.ok (index, [added.1.canonicalTurnId, added.2.canonicalTurnId]),
          .idle t' n') ∧
      index.numbers = s.index.numbers ∧ t'.Drawn n' ∧
      HoldsTexts sha turn.exchange.user turn.exchange.assistant added ∧
      ConsistsOf t' pipeline.conversationId (turns ++ [added]) := by
  have hresend := hnew.resend
  have hwhole := hnew.whole
  rw [h.rows_eq] at hresend hwhole
  obtain ⟨result, t', n', added, hrun, hids, hdrawn, hholds, hconsists⟩ :=
    ingestSingle_run_append sha turn.persisting.now
      (pipeline.exchangeArgs turn.exchange
        (s.index.getTagsForLogicalTurn (s.outcomes.map (·.exchange)).length))
      h.consists h.drawn huser hassistant hkept
      ((findResend_congr rfl).trans hresend) hwhole
  rw [← h.conn] at hrun
  have hpersist := persistCompletedTurn_run hrun
  unfold TaggingPipeline.reportedIds at hpersist
  rw [hids] at hpersist
  exact ⟨_, t', n', added, hpersist, by simp, hdrawn, hholds, hconsists⟩

/-- `persist_completed_turn` of a blank exchange stores nothing. -/
theorem Numbered.persist_blank (h : Numbered sha pipeline s t n turns)
    (hnew : NotStored sha pipeline turn (s.rows pipeline))
    (hturns : turns ≠ [])
    (hblank : pyStrip (combinedText turn.exchange.messages) = "") :
    ∃ (index : TurnTagIndex) (t' : Tables) (n' : Nat),
      (pipeline.persistCompletedTurn sha turn.persisting
        ((s.outcomes.map (·.exchange)).flatMap (·.messages) ++
          turn.exchange.messages) s.index).run .quiet s.conn =
        (.ok (index, []), .idle t' n') ∧
      index.numbers = s.index.numbers ∧ t'.Drawn n' ∧
      ConsistsOf t' pipeline.conversationId turns := by
  have hresend := hnew.resend
  have hwhole := hnew.whole
  rw [h.rows_eq] at hresend hwhole
  have huser := ((pyStrip_combinedText_iff turn.exchange).mp hblank).1
  obtain ⟨result, t', n', hrun, hids, hdrawn, hconsists⟩ :=
    ingestSingle_run_fragment sha turn.persisting.now
      (pipeline.exchangeArgs turn.exchange
        (s.index.getTagsForLogicalTurn (s.outcomes.map (·.exchange)).length))
      h.consists h.drawn hturns (fun hpair => hpair.1 huser)
      ((findResend_congr rfl).trans hresend) hwhole
  rw [← h.conn] at hrun
  have hpersist := persistCompletedTurn_run hrun
  unfold TaggingPipeline.reportedIds at hpersist
  rw [hids] at hpersist
  exact ⟨_, t', n', hpersist, by simp, hdrawn, hconsists⟩

/-- A tagged exchange that became the next turn. -/
theorem Numbered.tagged (h : Numbered sha pipeline s t n turns)
    {s' : DrivenConversation} {t' : Tables} {n' : Nat}
    {added : CanonicalTurnRecord × CanonicalTurnRecord} {outcome : TurnOutcome}
    {index : TurnTagIndex} {entry : TurnTagEntry}
    (hconn : s'.conn = .idle t' n') (hdrawn : t'.Drawn n')
    (hconsists : ConsistsOf t' pipeline.conversationId (turns ++ [added]))
    (hindex : index.numbers = s.index.numbers)
    (hentry : entry.turnNumber = turns.length) (hid : entry.canonicalTurnId = 0)
    (hentries : s'.index.numbers = (index.append entry).numbers)
    (houtcomes : s'.outcomes = s.outcomes ++ [outcome])
    (hnumber : outcome.tagged = some (turns.length : Int))
    (hbecame : outcome.Became sha added) :
    Numbered sha pipeline s' t' n' (turns ++ [added]) where
  conn := hconn
  drawn := hdrawn
  consists := hconsists
  entries := by
    rw [hentries, TurnTagIndex.numbers_append _ hid, hindex, h.entries, hentry]
    · simp [List.range_succ]
    · rw [hindex, h.entries, hentry]
      simp
  recorded := by
    rw [houtcomes]
    exact h.recorded.append hnumber hbecame

/-- An exchange of two new texts, once it is tagged, is the next turn. -/
theorem Numbered.new (h : Numbered sha pipeline s t n turns)
    (hnew : NotStored sha pipeline turn (s.rows pipeline))
    (huser : turn.exchange.user ≠ "") (hassistant : turn.exchange.assistant ≠ "")
    (hkept : turns = [] ∨ pyStrip turn.exchange.user ≠ "" ∧
      pyStrip turn.exchange.assistant ≠ "")
    (htagged : pyStrip (combinedText turn.exchange.messages) ≠ "" ∨
      isToolTurn turn.exchange.messages = true)
    (hnear : turn.tagging.compactionSignal = true ∨
      ¬ RepeatsNear ((s.rows pipeline).map (·.turnHash))
        (userHash sha turn.exchange.user)
        (assistantHash sha turn.exchange.assistant)) :
    ∃ s' t' n' turns', drive sha pipeline turn s = some s' ∧
      Numbered sha pipeline s' t' n' turns' := by
  obtain ⟨index, t', n', added, hpersist, hindex, hdrawn, hholds, hconsists⟩ :=
    h.persist hnew huser hassistant hkept
  have hlength : index.entries.length = turns.length := by
    have hlengths := congrArg List.length (hindex.trans h.entries)
    simpa [TurnTagIndex.numbers] using hlengths
  have hfresh : (index.entries.length : Int) ∉ index.numbers := by
    rw [hindex, h.entries, hlength]
    simp
  rcases htagged with htext | htool
  · obtain ⟨entry, hentry, hid, hsignalled, hunsignalled⟩ :=
      tagTurn_text sha pipeline turn.tagging (s.outcomes.map (·.exchange)) htext
        hfresh s.toolTagCounter
    rw [hlength] at hentry
    cases hsignal : turn.tagging.compactionSignal with
    | true =>
        have htag := hsignalled hsignal
        refine ⟨_, t', n', _, drive_eq hpersist (by rw [htag]; rfl),
          h.tagged rfl hdrawn hconsists hindex hentry hid rfl rfl
            (by rw [← hlength]) ⟨?_, ?_, ?_, hholds⟩⟩
        · simp
        · simp
        · simp
    | false =>
        have hfar : ¬ RepeatsNear
            ((interleave turns).map fun record => record.turnHash)
            (userHash sha turn.exchange.user)
            (assistantHash sha turn.exchange.assistant) := by
          rw [← h.consists.hashes, ← h.rows_eq]
          simpa [hsignal] using hnear
        obtain ⟨t'', added', hyields, hdrawn', hconsists', hholds', hfirst,
            hsecond⟩ :=
          persistCanonicalTurn_yields turn.tagging (index.append entry)
            turn.exchange.userMsg turn.exchange.assistantMsg hconsists hdrawn
            hholds huser hassistant hentry hfar
        have htag := (hunsignalled hsignal hyields).run
        have hdrive := drive_eq hpersist htag
        refine ⟨_, t'', n', turns ++ [added'], hdrive, ?_⟩
        refine h.tagged rfl hdrawn' hconsists' hindex hentry hid ?_ rfl ?_
          ⟨?_, ?_, ?_, hholds'⟩
        · exact TurnTagIndex.numbers_identify _ entry.turnNumber
            added.1.canonicalTurnId
        · rw [← hlength]
        · simp [hfirst]
        · simp [hsecond]
        · simp [hfirst, hsecond]
  · obtain ⟨entry, hentry, hid, htag⟩ :=
      tagTurn_tool sha pipeline turn.tagging (s.outcomes.map (·.exchange)) index
        htool s.toolTagCounter
    refine ⟨_, t', n', _, drive_eq hpersist (by rw [htag]; rfl),
      h.tagged rfl hdrawn hconsists hindex (by rw [hentry, hlength]) hid rfl rfl
        (by rw [← hlength]) ⟨?_, ?_, ?_, hholds⟩⟩
    · simp
    · simp
    · simp

/-- A blank exchange without tools leaves the numbers alone. -/
theorem Numbered.blank (h : Numbered sha pipeline s t n turns)
    (hnew : NotStored sha pipeline turn (s.rows pipeline))
    (hturns : turns ≠ [])
    (hblank : pyStrip (combinedText turn.exchange.messages) = "")
    (htool : isToolTurn turn.exchange.messages = false) :
    ∃ s' t' n' turns', drive sha pipeline turn s = some s' ∧
      Numbered sha pipeline s' t' n' turns' := by
  obtain ⟨index, t', n', hpersist, hindex, hdrawn, hconsists⟩ :=
    h.persist_blank hnew hturns hblank
  have htag := tagTurn_blank sha pipeline turn.tagging
    (s.outcomes.map (·.exchange)) index htool hblank s.toolTagCounter
  refine ⟨_, t', n', turns, drive_eq hpersist (by rw [htag]; rfl), rfl, hdrawn,
    hconsists, hindex.trans h.entries, ?_⟩
  exact h.recorded.skip turn.exchange

/-- An exchange that keeps the numbers is driven to its end and keeps them. -/
theorem Numbered.drive (h : Numbered sha pipeline s t n turns)
    (hkeeps : KeepsNumbers sha pipeline turn s) :
    ∃ s' t' n' turns', DrivenConversation.drive sha pipeline turn s = some s' ∧
      Numbered sha pipeline s' t' n' turns' := by
  cases hkeeps with
  | first hrows huser hassistant htagged =>
      have hnew : NotStored sha pipeline turn (s.rows pipeline) := by
        rw [hrows]
        exact notStored_nil sha pipeline turn
      apply h.new hnew huser hassistant (.inl (h.rows_eq_nil_iff.mp hrows))
        htagged
      right
      rintro ⟨idx, hidx, -⟩
      rw [hrows] at hidx
      exact absurd hidx (Nat.not_lt_zero idx)
  | new hrows hnew huser hassistant hnear =>
      have hempty : pyStrip "" = "" := rfl
      have htext : pyStrip (combinedText turn.exchange.messages) ≠ "" :=
        fun hblank => huser ((pyStrip_combinedText_iff _).mp hblank).1
      apply h.new hnew _ _ (.inr ⟨huser, hassistant⟩) (.inl htext) hnear
      · intro hnil
        exact huser (by rw [hnil, hempty])
      · intro hnil
        exact hassistant (by rw [hnil, hempty])
  | blank hrows hnew hblank htool =>
      exact h.blank hnew (fun hnil => hrows (h.rows_eq_nil_iff.mpr hnil)) hblank
        htool

end Step

/-! ## Runs -/

section Runs

variable {sha : Sha256} {pipeline : TaggingPipeline} {s : DrivenConversation}

open DrivenConversation

theorem numbered_start (sha : Sha256) (h : Starts pipeline s) :
    ∃ t n turns, Numbered sha pipeline s t n turns := by
  obtain ⟨store, hrows, rfl⟩ := h
  refine ⟨store.tables, store.supply, [], rfl, store.drawn, ⟨?_, by simp, rfl⟩,
    rfl, ⟨rfl, by simp [start], by simp [start]⟩⟩
  have hlength := congrArg List.length hrows
  rw [Tables.length_loadRows] at hlength
  exact List.length_eq_zero_iff.mp hlength

theorem numbered_of_reach
    (reach : Reach (Starts pipeline) (NumberedStep sha pipeline) s) :
    ∃ t n turns, Numbered sha pipeline s t n turns := by
  apply reach.invariant (I := fun s => ∃ t n turns, Numbered sha pipeline s t n turns)
  · exact fun s hstart => numbered_start sha hstart
  · rintro s s' ⟨t, n, turns, h⟩ ⟨turn, hkeeps, hdrive⟩
    obtain ⟨s'', t', n', turns', hdrive', h'⟩ := h.drive hkeeps
    rw [hdrive, Option.some.injEq] at hdrive'
    exact ⟨t', n', turns', hdrive' ▸ h'⟩

/-- A row of the conversation under an identifier of a turn is of that turn. -/
theorem ConsistsOf.mem_turn {t : Tables} {conversationId : ConversationId}
    {turns : List (CanonicalTurnRecord × CanonicalTurnRecord)}
    (h : ConsistsOf t conversationId turns) {i : Nat}
    {turn : CanonicalTurnRecord × CanonicalTurnRecord}
    (hturn : turns[i]? = some turn) {row : CanonicalTurnRow}
    (hrow : row ∈ t.loadRows conversationId)
    (hid : row.canonicalTurnId = turn.1.canonicalTurnId ∨
      row.canonicalTurnId = turn.2.canonicalTurnId) :
    row.turnGroupNumber = i := by
  obtain ⟨ordinal, record, hrecord, rfl⟩ := Tables.exists_of_mem_loadRows hrow
  obtain ⟨hfirst, hsecond⟩ := numberFrom_getElem h.numbered hturn
  have hmem : ∀ member ∈ [turn.1, turn.2],
      member ∈ t.canonicalTurns.ordered conversationId := by
    intro member hmember
    rw [h.rows]
    exact mem_interleave.mpr ⟨turn, List.mem_of_getElem? hturn, by
      simpa using hmember⟩
  have hunique := List.inj_on_of_nodup_map
    (t.canonicalTurns.ordered_ids_nodup conversationId) hrecord
  change record.turnGroupNumber = i
  rcases hid with hid | hid
  · rw [hunique (hmem turn.1 (by simp)) hid, hfirst, Int.zero_add]
  · rw [hunique (hmem turn.2 (by simp)) hid, hsecond, Int.zero_add]

theorem Numbered.agree {t : Tables} {n : Nat}
    {turns : List (CanonicalTurnRecord × CanonicalTurnRecord)}
    (h : Numbered sha pipeline s t n turns) : TurnNumbersAgree pipeline s where
  numbered := by
    intro entry _ outcome houtcome htagged row hrow hheld
    obtain ⟨i, hi, turn, hturn, hbecame⟩ :=
      h.recorded.tagged outcome houtcome _ htagged
    rw [h.rows_eq] at hrow
    rw [hi]
    exact h.consists.mem_turn hturn hrow (hbecame.only _ hheld)
  apart := by
    have hdistinct : s.outcomes.Pairwise fun outcome outcome' =>
        ∀ number, outcome.tagged = some number →
          ∀ number', outcome'.tagged = some number' → number ≠ number' := by
      rw [← List.pairwise_filterMap, h.recorded.numbers]
      exact List.Nodup.map (f := fun i : Nat => (i : Int))
        (fun _ _ => Int.ofNat.inj) List.nodup_range
    apply hdistinct.imp_of_mem
    intro outcome outcome' houtcome houtcome' hne row hrow row' hrow' hheld hheld'
    have htagged : ∀ other ∈ s.outcomes, ∀ id ∈ other.heldBy,
        ∃ number, other.tagged = some number := by
      intro other hother id hid
      cases hnumber : other.tagged with
      | none =>
          rw [h.recorded.untagged other hother hnumber] at hid
          cases hid
      | some number => exact ⟨number, rfl⟩
    obtain ⟨number, hnumber⟩ := htagged outcome houtcome _ hheld
    obtain ⟨number', hnumber'⟩ := htagged outcome' houtcome' _ hheld'
    obtain ⟨i, hi, turn, hturn, hbecame⟩ :=
      h.recorded.tagged outcome houtcome _ hnumber
    obtain ⟨i', hi', turn', hturn', hbecame'⟩ :=
      h.recorded.tagged outcome' houtcome' _ hnumber'
    rw [h.rows_eq] at hrow hrow'
    rw [h.consists.mem_turn hturn hrow (hbecame.only _ hheld),
      h.consists.mem_turn hturn' hrow' (hbecame'.only _ hheld'), ← hi, ← hi']
    exact hne number hnumber number' hnumber'

theorem Numbered.held {t : Tables} {n : Nat}
    {turns : List (CanonicalTurnRecord × CanonicalTurnRecord)}
    (h : Numbered sha pipeline s t n turns) : TurnsHeld pipeline s where
  entries := h.entries.trans h.recorded.numbers.symm
  held := by
    intro outcome houtcome htagged
    obtain ⟨number, hnumber⟩ := Option.ne_none_iff_exists'.mp htagged
    obtain ⟨i, -, turn, hturn, hbecame⟩ :=
      h.recorded.tagged outcome houtcome number hnumber
    have hmem : ∀ member ∈ [turn.1, turn.2], ∃ row ∈ s.rows pipeline,
        row.canonicalTurnId = member.canonicalTurnId ∧
          row.userContent = member.userContent ∧
          row.assistantContent = member.assistantContent := by
      intro member hmember
      have hordered : member ∈
          t.canonicalTurns.ordered pipeline.conversationId := by
        rw [h.consists.rows]
        exact mem_interleave.mpr ⟨turn, List.mem_of_getElem? hturn, by
          simpa using hmember⟩
      obtain ⟨k, hk, rfl⟩ := List.getElem_of_mem hordered
      refine ⟨rowToCanonicalTurn k _, ?_, rfl, rfl, rfl⟩
      rw [h.rows_eq]
      exact List.mem_of_getElem? (i := k) (by simp [Tables.loadRows, hk])
    obtain ⟨row, hrow, hid, huser, -⟩ := hmem turn.1 (by simp)
    obtain ⟨row', hrow', hid', -, hassistant⟩ := hmem turn.2 (by simp)
    refine ⟨row, hrow, row', hrow', ?_, ?_, ?_, ?_⟩
    · rw [hid]
      exact hbecame.first
    · rw [hid']
      exact hbecame.second
    · rw [huser]
      exact hbecame.texts.userTexts.1
    · rw [hassistant]
      exact hbecame.texts.assistantTexts.2

/--
In a run whose exchanges keep the numbers, every entry has the number of the
rows that hold its turn, no two turns share a number, and every exchange is
driven to its end.
-/
theorem turnNumbers_agree (sha : Sha256) (pipeline : TaggingPipeline)
    (s : DrivenConversation)
    (reach : Reach (Starts pipeline) (NumberedStep sha pipeline) s) :
    TurnNumbersAgree pipeline s ∧ TurnsHeld pipeline s ∧
      ∀ turn, KeepsNumbers sha pipeline turn s →
        ∃ s', drive sha pipeline turn s = some s' := by
  obtain ⟨t, n, turns, h⟩ := numbered_of_reach reach
  refine ⟨h.agree, h.held, fun turn hkeeps => ?_⟩
  obtain ⟨s', t', n', turns', hdrive, -⟩ := h.drive hkeeps
  exact ⟨s', hdrive⟩

end Runs

/-! ## A blank first exchange -/

/-- A pipeline that gives every turn the same tag. -/
def chattingPipeline : TaggingPipeline where
  conversationId := "chat"
  dumps _ := ""
  getRecentContext _ _ := none
  generateTags _ _ := { tags := ["talk"], primary := "talk" }

/-- An exchange of two texts, with nothing recent in the store. -/
def talk (user assistant : String) : DrivenTurn where
  exchange := { user, assistant }
  persisting :=
    { now := "t", seen := fun _ => false, sessionDate := "d"
      timestamp := newYear }
  tagging :=
    { now := "t", seen := fun _ => false, sessionDate := "d"
      timestamp := newYear }

namespace DrivenConversation

/-- Exchanges driven one after the other. -/
def driveAll (sha : Sha256) (pipeline : TaggingPipeline)
    (turns : List DrivenTurn) (s : DrivenConversation) :
    Option DrivenConversation :=
  turns.foldlM (fun s turn => drive sha pipeline turn s) s

/-- Any step of a driven conversation. -/
def Driven (sha : Sha256) (pipeline : TaggingPipeline)
    (s s' : DrivenConversation) : Prop :=
  ∃ turn, drive sha pipeline turn s = some s'

theorem reach_driveAll {sha : Sha256} {pipeline : TaggingPipeline}
    (turns : List DrivenTurn) {s s' : DrivenConversation}
    (reach : Reach (Starts pipeline) (Driven sha pipeline) s)
    (h : driveAll sha pipeline turns s = some s') :
    Reach (Starts pipeline) (Driven sha pipeline) s' := by
  induction turns generalizing s with
  | nil =>
      obtain rfl : s = s' := by simpa [driveAll] using h
      exact reach
  | cons turn turns ih =>
      rw [driveAll, List.foldlM_cons] at h
      obtain ⟨between, hdrive, hrest⟩ := Option.bind_eq_some_iff.mp h
      exact ih (reach.step ⟨turn, hdrive⟩) hrest

end DrivenConversation

open DrivenConversation

/-- What the numbers are about: the rows, the index and the record of the run. -/
def numbersOf (s : DrivenConversation) :
    List (Uuid × Int) × List Int × List (Option Int × List Uuid) :=
  ((s.rows chattingPipeline).map fun row =>
      (row.canonicalTurnId, row.turnGroupNumber),
    s.index.numbers,
    s.outcomes.map fun outcome => (outcome.tagged, outcome.heldBy))

theorem numbersOf_blankFirst :
    (driveAll .spelled chattingPipeline [talk "" "", talk "a" "b", talk "c" "d"]
        (start (Store.fresh []))).map numbersOf =
      some ([(2, 0), (3, 1), (5, 2), (6, 2), (8, 1), (9, 1)], [0, 1],
        [(none, [2, 3]), (some 0, [5, 6, 5, 6]), (some 1, [8, 9, 8, 9])]) := by
  decide +kernel

theorem turnNumbers_agree_talk :
    ∃ s, drive .spelled chattingPipeline (talk "a" "b")
        (start (Store.fresh [])) = some s ∧
      TurnNumbersAgree chattingPipeline s ∧ TurnsHeld chattingPipeline s ∧
      ∀ turn, KeepsNumbers .spelled chattingPipeline turn s →
        ∃ s', drive .spelled chattingPipeline turn s = some s' := by
  have hreturns : (drive .spelled chattingPipeline (talk "a" "b")
      (start (Store.fresh []))).isSome = true := by decide +kernel
  obtain ⟨s, hdrive⟩ := Option.isSome_iff_exists.mp hreturns
  exact ⟨s, hdrive, turnNumbers_agree .spelled chattingPipeline s
    (.step (.start ⟨Store.fresh [], by decide +kernel, rfl⟩)
      ⟨talk "a" "b", .first (by decide +kernel) (by decide) (by decide)
        (.inl (by decide +kernel)), hdrive⟩)⟩

/--
A blank first exchange is stored and not tagged: the next turn is entry 0 in
the index and turn 2 in the store.
-/
theorem turnNumbers_disagree_after_blank :
    ∃ s, Reach (Starts chattingPipeline) (Driven .spelled chattingPipeline) s ∧
      ¬ TurnNumbersAgree chattingPipeline s := by
  obtain ⟨s, hdrive, hnumbers⟩ := Option.map_eq_some_iff.mp numbersOf_blankFirst
  refine ⟨s, reach_driveAll _ (.start ⟨Store.fresh [], by decide +kernel, rfl⟩)
    hdrive, fun h => ?_⟩
  simp only [numbersOf, Prod.mk.injEq] at hnumbers
  obtain ⟨hrows, hindex, houtcomes⟩ := hnumbers
  have hrow : ((5 : Uuid), (2 : Int)) ∈ (s.rows chattingPipeline).map fun row =>
      (row.canonicalTurnId, row.turnGroupNumber) := by
    rw [hrows]
    decide
  have hentry : (0 : Int) ∈ s.index.numbers := by
    rw [hindex]
    decide
  have houtcome : (some (0 : Int), ([5, 6, 5, 6] : List Uuid)) ∈
      s.outcomes.map fun outcome => (outcome.tagged, outcome.heldBy) := by
    rw [houtcomes]
    decide
  obtain ⟨row, hmem, hrow⟩ := List.mem_map.mp hrow
  obtain ⟨entry, hentry, hzero⟩ := List.mem_map.mp hentry
  obtain ⟨outcome, hmem', houtcome⟩ := List.mem_map.mp houtcome
  simp only [Prod.mk.injEq] at hrow houtcome
  have hnumber := h.numbered entry hentry outcome hmem'
    (by rw [houtcome.1, hzero]) row hmem (by rw [hrow.1, houtcome.2]; decide)
  rw [hrow.2, hzero] at hnumber
  exact absurd hnumber (by decide)

end VirtualContext
