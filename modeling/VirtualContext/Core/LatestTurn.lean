import VirtualContext.Core.TurnNumberAgreement

/-!
# The rows that tagging updates

`persist_completed_turn` leaves the latest turn in the last user row and the
last assistant row.  `_persist_canonical_turn` looks for two neighbouring rows
with the hashes of the turn, near twice its number first.  It updates the pair
that it meets first, and that is the latest one only if no other pair with these
hashes is met before.
-/

namespace VirtualContext

open VirtualContext.Library

/-! ## The columns of tagging -/

/-- The columns of a row that tell how its turn was tagged. -/
structure TagColumns where
  tags : List String
  taggedAt : Option String
  sessionDate : String
  turnGroupNumber : Int
  deriving DecidableEq, Repr

def CanonicalTurnRow.tagColumns (row : CanonicalTurnRow) : TagColumns where
  tags := row.tags
  taggedAt := row.taggedAt
  sessionDate := row.sessionDate
  turnGroupNumber := row.turnGroupNumber

/-- The columns of the rows of an entry that is tagged at a time. -/
def TurnTagEntry.tagColumns (entry : TurnTagEntry) (now : String) :
    TagColumns where
  tags := entry.tags
  taggedAt := some now
  sessionDate := entry.sessionDate
  turnGroupNumber := entry.turnNumber

/-- A row under one of the two identifiers of a turn. -/
def IsHalf (turn : CanonicalTurnRecord × CanonicalTurnRecord)
    (row : CanonicalTurnRecord) : Prop :=
  row.canonicalTurnId = turn.1.canonicalTurnId ∨
    row.canonicalTurnId = turn.2.canonicalTurnId

/--
Between the tables the two rows of the turn were tagged; no row was inserted or
deleted, and every other row and every other table is as it was.
-/
structure TagsOnly (now : String) (entry : TurnTagEntry)
    (turn : CanonicalTurnRecord × CanonicalTurnRecord) (t t' : Tables) : Prop
    where
  ids : t'.canonicalTurns.rows.map (fun row => row.canonicalTurnId) =
    t.canonicalTurns.rows.map fun row => row.canonicalTurnId
  tagged : ∀ row ∈ t'.canonicalTurns.rows, IsHalf turn row →
    row.tagColumns = entry.tagColumns now
  others : ∀ row ∈ t.canonicalTurns.rows, ¬ IsHalf turn row →
    row ∈ t'.canonicalTurns.rows
  rest : t' = { t with canonicalTurns := t'.canonicalTurns }

/--
The last user row and the last assistant row of a conversation hold the two
texts, one after the other, and the turns of the conversation are numbered.
-/
structure LatestTurn (sha : Sha256) (t : Tables)
    (conversationId : ConversationId) (user assistant : String)
    (before : List CanonicalTurnRecord)
    (turn : CanonicalTurnRecord × CanonicalTurnRecord)
    (after : List CanonicalTurnRecord) : Prop where
  rows : t.canonicalTurns.ordered conversationId =
    before ++ turn.1 :: turn.2 :: after
  last : ∀ row ∈ after, row.hasUser = false ∧ row.hasAssistant = false
  texts : HoldsTexts sha user assistant turn
  numbered : allLegacy (t.loadRows conversationId) = false

/-- No place that is looked at before has the hashes of the pair at the place. -/
def FirstOfItsHashes (turnNumber : Int) (hashes : List HexDigest)
    (place : Nat) : Prop :=
  ∀ idx < hashes.length, LooksBefore turnNumber idx place →
    ¬ (hashes[idx]? = hashes[place]? ∧ hashes[idx + 1]? = hashes[place + 1]?)

instance (turnNumber : Int) (hashes : List HexDigest) (place : Nat) :
    Decidable (FirstOfItsHashes turnNumber hashes place) := by
  unfold FirstOfItsHashes
  infer_instance

/-! ## Two rows saved over themselves -/

section Save

variable {sha : Sha256} {pipeline : TaggingPipeline} {clock : CallClock}
  {entry : TurnTagEntry} {msg : HistoryMessage} {ordinal : Nat} {role : Role}
  {row first second : CanonicalTurnRecord} {new new' : CanonicalTurnRecord}
  {columns : TagColumns}

theorem tagColumns_enrichedRecord (stored : CanonicalTurnRecord) :
    (enrichedRecord sha pipeline clock entry role msg ordinal
      stored).tagColumns = entry.tagColumns clock.now := by
  cases role <;> rfl

theorem tagColumns_overwriteWith (hnew : new.tagColumns = columns)
    (hrow : row.tagColumns = columns) :
    ((overwriteWith new).apply row).tagColumns = columns := by
  unfold overwriteWith
  dsimp only
  split_ifs
  · exact hnew
  · exact hrow

theorem tagColumns_overwriteWith_self (hnew : new.tagColumns = columns)
    (hid : row.canonicalTurnId = new.canonicalTurnId)
    (hkey : row.sortKey = new.sortKey) :
    ((overwriteWith new).apply row).tagColumns = columns := by
  rw [overwriteWith_self hid hkey]
  exact hnew

/-- Only rows under the two identifiers change. -/
theorem saved_other (hid : new.canonicalTurnId = first.canonicalTurnId)
    (hid' : new'.canonicalTurnId = second.canonicalTurnId)
    (hother : ¬ IsHalf (first, second) row) :
    (overwriteWith new').apply ((overwriteWith new).apply row) = row := by
  have hne : row.canonicalTurnId ≠ new.canonicalTurnId :=
    fun heq => hother (.inl (heq.trans hid))
  have hne' : row.canonicalTurnId ≠ new'.canonicalTurnId :=
    fun heq => hother (.inr (heq.trans hid'))
  rw [overwriteWith_other hne, overwriteWith_other hne']

/-- The two saves tag their rows and no others. -/
theorem tagsOnly_of_saved {t : Tables} {now : String}
    (hfirst : first ∈ t.canonicalTurns.rows)
    (hsecond : second ∈ t.canonicalTurns.rows)
    (hid : new.canonicalTurnId = first.canonicalTurnId)
    (hkey : new.sortKey = first.sortKey)
    (hid' : new'.canonicalTurnId = second.canonicalTurnId)
    (hkey' : new'.sortKey = second.sortKey)
    (hnew : new.tagColumns = entry.tagColumns now)
    (hnew' : new'.tagColumns = entry.tagColumns now) :
    TagsOnly now entry (first, second) t
      { t with
        canonicalTurns := (t.canonicalTurns.update (overwriteWith new)).update
          (overwriteWith new') } where
  ids := by
    simp [List.map_map, Function.comp_def, (overwriteWith new).id_eq,
      (overwriteWith new').id_eq]
  tagged saved hsaved hhalf := by
    simp only [CanonicalTurns.rows_update, List.map_map, List.mem_map,
      Function.comp_apply] at hsaved
    obtain ⟨row, hrow, rfl⟩ := hsaved
    have hunique := fun stored (h : stored ∈ t.canonicalTurns.rows) =>
      List.inj_on_of_nodup_map t.canonicalTurns.primaryKey hrow h
    unfold IsHalf at hhalf
    rw [(overwriteWith new').id_eq, (overwriteWith new).id_eq] at hhalf
    rcases hhalf with heq | heq
    · obtain rfl := hunique first hfirst heq
      exact tagColumns_overwriteWith hnew'
        (tagColumns_overwriteWith_self hnew hid.symm hkey.symm)
    · obtain rfl := hunique second hsecond heq
      apply tagColumns_overwriteWith_self hnew'
      · rw [(overwriteWith new).id_eq, hid']
      · rw [(overwriteWith new).sortKey_eq, hkey']
  others row hrow hother := by
    simp only [CanonicalTurns.rows_update, List.map_map, List.mem_map,
      Function.comp_apply]
    exact ⟨row, hrow, saved_other hid hid' hother⟩
  rest := rfl

end Save

/-! ## The pair that is found -/

section Found

variable {sha : Sha256} {t : Tables} {conversationId : ConversationId}
  {user assistant : String} {before after : List CanonicalTurnRecord}
  {turn : CanonicalTurnRecord × CanonicalTurnRecord} {turnNumber : Int}

theorem getElem?_loadRows (t : Tables) (conversationId : ConversationId)
    (idx : Nat) :
    (t.loadRows conversationId)[idx]? =
      ((t.canonicalTurns.ordered conversationId)[idx]?).map
        (rowToCanonicalTurn idx) := by
  simp [Tables.loadRows]

theorem map_turnHash_loadRows (t : Tables) (conversationId : ConversationId) :
    (t.loadRows conversationId).map (·.turnHash) =
      (t.canonicalTurns.ordered conversationId).map fun row => row.turnHash :=
  t.map_loadRows conversationId _ _ fun _ _ => rfl

namespace LatestTurn

/-- The rows of the turn stand behind the rows before it. -/
theorem getElem? (h : LatestTurn sha t conversationId user assistant before turn
    after) :
    (t.canonicalTurns.ordered conversationId)[before.length]? = some turn.1 ∧
      (t.canonicalTurns.ordered conversationId)[before.length + 1]? =
        some turn.2 := by
  rw [h.rows]
  constructor
  · simp
  · simp [List.getElem?_append_right (Nat.le_succ before.length)]

theorem mem (h : LatestTurn sha t conversationId user assistant before turn
    after) :
    turn.1 ∈ t.canonicalTurns.rows ∧ turn.2 ∈ t.canonicalTurns.rows :=
  ⟨(CanonicalTurns.mem_ordered.mp (List.mem_of_getElem? h.getElem?.1)).1,
    (CanonicalTurns.mem_ordered.mp (List.mem_of_getElem? h.getElem?.2)).1⟩

theorem backfilled (h : LatestTurn sha t conversationId user assistant before
    turn after) : t.backfilled conversationId = t := by
  rw [Tables.backfilled, if_neg (by simp [h.numbered])]

theorem pairAt (h : LatestTurn sha t conversationId user assistant before turn
    after) :
    TaggingPipeline.pairAt (t.loadRows conversationId) (userHash sha user)
        (assistantHash sha assistant) before.length =
      some (rowToCanonicalTurn before.length turn.1,
        rowToCanonicalTurn (before.length + 1) turn.2) := by
  obtain ⟨hfirst, hsecond⟩ := h.getElem?
  rw [pairAt_eq_some_iff, getElem?_loadRows, getElem?_loadRows, hfirst, hsecond]
  exact ⟨rfl, rfl, h.texts.userHash, h.texts.assistantHash⟩

/-- The hashes that the condition compares are those of the texts. -/
theorem firstOfItsHashes_iff (h : LatestTurn sha t conversationId user assistant
    before turn after) :
    FirstOfItsHashes turnNumber
        ((t.canonicalTurns.ordered conversationId).map fun row => row.turnHash)
        before.length ↔
      ∀ idx < (t.loadRows conversationId).length,
        LooksBefore turnNumber idx before.length →
          TaggingPipeline.pairAt (t.loadRows conversationId) (userHash sha user)
            (assistantHash sha assistant) idx = none := by
  obtain ⟨hfirst, hsecond⟩ := h.getElem?
  simp only [FirstOfItsHashes, pairAt_eq_none_iff, map_turnHash_loadRows,
    List.length_map, Tables.length_loadRows, List.getElem?_map, hfirst, hsecond,
    Option.map_some, h.texts.userHash, h.texts.assistantHash]

/-- A turn that is numbered and was stored last is the latest one. -/
theorem of_consistsOf
    {turns : List (CanonicalTurnRecord × CanonicalTurnRecord)}
    (h : ConsistsOf t conversationId (turns ++ [turn]))
    (htexts : HoldsTexts sha user assistant turn) :
    LatestTurn sha t conversationId user assistant (interleave turns) turn []
    where
  rows := by
    rw [h.rows, interleave_append]
    rfl
  last := by simp
  texts := htexts
  numbered := by
    rw [← h.backfilled]
    exact t.allLegacy_backfilled conversationId

end LatestTurn

end Found

/-! ## Tagging the latest turn -/

section Tag

variable (sha : Sha256) (pipeline : TaggingPipeline) (clock : CallClock)
  (index : TurnTagIndex) (entry : TurnTagEntry)
  (userMsg assistantMsg : HistoryMessage)

/--
Whenever the call is made, it returns, and it has tagged the two rows of the
turn and no other row.
-/
def TaggingPipeline.TagsTurn (store : Store)
    (turn : CanonicalTurnRecord × CanonicalTurnRecord) : Prop :=
  ∀ now, ∃ result t',
    (pipeline.persistCanonicalTurn sha { clock with now } index entry userMsg
        assistantMsg).run .quiet store.conn =
      (.ok result, .idle t' store.supply) ∧
    TagsOnly now entry turn store.tables t'

variable {sha pipeline entry userMsg assistantMsg} {store : Store}

/-- The run that finds two rows tags these. -/
theorem exists_run_of_matched (now : String)
    {first second : CanonicalTurnRecord} {i j : Nat}
    (hbackfilled : store.tables.backfilled pipeline.conversationId = store.tables)
    (hfirst : first ∈ store.tables.canonicalTurns.rows)
    (hsecond : second ∈ store.tables.canonicalTurns.rows)
    (hmatched : TaggingPipeline.matchedPair
      (store.tables.loadRows pipeline.conversationId)
      (userHash sha userMsg.content) (assistantHash sha assistantMsg.content)
      entry.turnNumber =
        some (rowToCanonicalTurn i first, rowToCanonicalTurn j second)) :
    ∃ result t',
      (pipeline.persistCanonicalTurn sha { clock with now } index entry userMsg
          assistantMsg).run .quiet store.conn =
        (.ok result, .idle t' store.supply) ∧
      TagsOnly now entry (first, second) store.tables t' :=
  ⟨_, _, (persistCanonicalTurn_of_matched { clock with now } index userMsg
      assistantMsg store.drawn hbackfilled hfirst hsecond hmatched).run,
    tagsOnly_of_saved hfirst hsecond rfl rfl rfl rfl
      (tagColumns_enrichedRecord first) (tagColumns_enrichedRecord second)⟩

/-- Rows at two places have two identifiers. -/
theorem ordered_ids_ne {t : Tables} {conversationId : ConversationId}
    {i j : Nat} {row row' : CanonicalTurnRecord}
    (hrow : (t.canonicalTurns.ordered conversationId)[i]? = some row)
    (hrow' : (t.canonicalTurns.ordered conversationId)[j]? = some row')
    (hne : i ≠ j) : row.canonicalTurnId ≠ row'.canonicalTurnId := by
  intro heq
  have hids := t.canonicalTurns.ordered_ids_nodup conversationId
  have hi := (List.getElem?_eq_some_iff.mp hrow).1
  apply hne
  apply (List.getElem?_inj (by simpa using hi) hids).mp
  rw [List.getElem?_map, List.getElem?_map, hrow, hrow', Option.map_some,
    Option.map_some, heq]

/-- A pair at another place leaves out one of the two rows of the turn. -/
theorem LatestTurn.exists_missed {t : Tables}
    {conversationId : ConversationId} {user assistant : String}
    {before after : List CanonicalTurnRecord}
    {turn : CanonicalTurnRecord × CanonicalTurnRecord}
    (h : LatestTurn sha t conversationId user assistant before turn after)
    {other : Nat} {first second : CanonicalTurnRecord}
    (hfirst : (t.canonicalTurns.ordered conversationId)[other]? = some first)
    (hsecond : (t.canonicalTurns.ordered conversationId)[other + 1]? =
      some second)
    (hne : other ≠ before.length) :
    ∃ missed ∈ t.canonicalTurns.rows, IsHalf turn missed ∧
      ¬ IsHalf (first, second) missed := by
  obtain ⟨huser, hassistant⟩ := h.getElem?
  rcases Nat.lt_or_gt_of_ne hne with hlt | hgt
  · refine ⟨turn.2, h.mem.2, .inr rfl, ?_⟩
    rintro (heq | heq)
    · exact ordered_ids_ne hassistant hfirst (by omega) heq
    · exact ordered_ids_ne hassistant hsecond (by omega) heq
  · refine ⟨turn.1, h.mem.1, .inl rfl, ?_⟩
    rintro (heq | heq)
    · exact ordered_ids_ne huser hfirst (by omega) heq
    · exact ordered_ids_ne huser hsecond (by omega) heq

/-- What is found at a place are the stored rows there. -/
theorem exists_records_of_pairAt {t : Tables} {conversationId : ConversationId}
    {user assistant : HexDigest} {idx : Nat}
    {found : CanonicalTurnRow × CanonicalTurnRow}
    (h : TaggingPipeline.pairAt (t.loadRows conversationId) user assistant idx =
      some found) :
    ∃ first second,
      (t.canonicalTurns.ordered conversationId)[idx]? = some first ∧
      (t.canonicalTurns.ordered conversationId)[idx + 1]? = some second ∧
      found = (rowToCanonicalTurn idx first,
        rowToCanonicalTurn (idx + 1) second) := by
  obtain ⟨hfirst, hsecond, -⟩ := pairAt_eq_some_iff.mp h
  rw [getElem?_loadRows, Option.map_eq_some_iff] at hfirst hsecond
  obtain ⟨first, hfirst, hfound⟩ := hfirst
  obtain ⟨second, hsecond, hfound'⟩ := hsecond
  exact ⟨first, second, hfirst, hsecond, by rw [hfound, hfound']⟩

variable (sha pipeline entry userMsg assistantMsg) in
/--
The call tags the last two rows, which hold the turn, and no other row, if and
only if no pair with the same hashes is looked at before them.
-/
theorem tagsTurn_iff
    {before after : List CanonicalTurnRecord}
    {turn : CanonicalTurnRecord × CanonicalTurnRecord}
    (h : LatestTurn sha store.tables pipeline.conversationId userMsg.content
      assistantMsg.content before turn after) :
    pipeline.TagsTurn sha clock index entry userMsg assistantMsg store turn ↔
      FirstOfItsHashes entry.turnNumber
        ((store.tables.canonicalTurns.ordered pipeline.conversationId).map
          fun row => row.turnHash) before.length := by
  rw [h.firstOfItsHashes_iff]
  constructor
  · intro htags idx hidx hbefore
    by_contra hmatches
    obtain ⟨other, hne, found, hfound, hmatched⟩ :=
      matchedPair_of_earlier h.pairAt hidx hbefore hmatches
    obtain ⟨first, second, hfirst, hsecond, rfl⟩ :=
      exists_records_of_pairAt hfound
    obtain ⟨missed, hmissed, hhalf, hother⟩ :=
      h.exists_missed hfirst hsecond hne
    -- a time at which the row that is left out was not tagged
    obtain ⟨now, hnow⟩ : ∃ now, missed.taggedAt ≠ some now := by
      by_cases hempty : missed.taggedAt = some ""
      · exact ⟨"now", by simp [hempty]⟩
      · exact ⟨"", hempty⟩
    obtain ⟨result, t', hrun, htagged⟩ := htags now
    obtain ⟨result', t'', hrun', honly⟩ := exists_run_of_matched clock index now
      h.backfilled
      (CanonicalTurns.mem_ordered.mp (List.mem_of_getElem? hfirst)).1
      (CanonicalTurns.mem_ordered.mp (List.mem_of_getElem? hsecond)).1 hmatched
    rw [hrun] at hrun'
    obtain rfl : t' = t'' := congrArg (fun outcome => outcome.2.durable) hrun'
    have hcolumns := htagged.tagged missed (honly.others missed hmissed hother)
      hhalf
    exact hnow (congrArg TagColumns.taggedAt hcolumns)
  · intro hfirst now
    exact exists_run_of_matched clock index now h.backfilled h.mem.1 h.mem.2
      (matchedPair_of_first h.pairAt hfirst)

end Tag

/-! ## Two exchanges -/

/-- A stored exchange of the conversation that `chattingPipeline` tags. -/
def storedExchange (user assistant : String) (group : Nat) :
    CanonicalTurnRecord × CanonicalTurnRecord :=
  ({ conversationId := "chat"
     canonicalTurnId := 2 * group + 1
     turnGroupNumber := group
     sortKey := 2000 * group + 1000
     turnHash := userHash .spelled user
     userContent := user },
    { conversationId := "chat"
      canonicalTurnId := 2 * group + 2
      turnGroupNumber := group
      sortKey := 2000 * group + 2000
      turnHash := assistantHash .spelled assistant
      assistantContent := assistant })

/-- A conversation of two exchanges that were not tagged yet. -/
def twoExchanges (first second : String × String) : Store :=
  .holding []
    ⟨interleave [storedExchange first.1 first.2 0,
        storedExchange second.1 second.2 1],
      by simp [interleave, storedExchange],
      by norm_num [interleave, storedExchange]⟩ 4
    (by simp [interleave, storedExchange])

/-- The entry of the second exchange, which has the tag `new`. -/
def secondEntry : TurnTagEntry where
  turnNumber := 1
  tags := ["new"]
  primaryTag := "new"
  timestamp := newYear

theorem ordered_twoExchanges (first second : String × String) :
    (twoExchanges first second).tables.canonicalTurns.ordered "chat" =
      interleave [storedExchange first.1 first.2 0,
        storedExchange second.1 second.2 1] := by
  apply orderBy_eq_of_perm
  · exact .of_eq (by simp [twoExchanges, Store.holding, interleave, storedExchange])
  · norm_num [Increasing, interleave, storedExchange]

/-- The second exchange is the latest turn. -/
theorem twoExchanges_latestTurn (first second : String × String) :
    LatestTurn .spelled (twoExchanges first second).tables "chat" second.1
      second.2 (interleave [storedExchange first.1 first.2 0])
      (storedExchange second.1 second.2 1) [] where
  rows := ordered_twoExchanges first second
  last := by simp
  texts := ⟨⟨rfl, rfl⟩, ⟨rfl, rfl⟩, rfl, rfl⟩
  numbered := by
    rw [Tables.loadRows, ordered_twoExchanges]
    rfl

theorem tagsTurn_two_exchanges :
    chattingPipeline.TagsTurn .spelled (talk "ok" "done").tagging .empty
      secondEntry (talk "ok" "done").exchange.userMsg
      (talk "ok" "done").exchange.assistantMsg
      (twoExchanges ("hi", "hello") ("ok", "done"))
      (storedExchange "ok" "done" 1) :=
  (tagsTurn_iff .spelled chattingPipeline (talk "ok" "done").tagging .empty
    secondEntry (talk "ok" "done").exchange.userMsg
    (talk "ok" "done").exchange.assistantMsg
    (twoExchanges_latestTurn ("hi", "hello") ("ok", "done"))).mpr
      (by decide +kernel)

/-- The identifiers, tags and numbers of the rows. -/
def taggedRows (t : Tables) : List (Uuid × List String × Int) :=
  t.canonicalTurns.rows.map fun row =>
    (row.canonicalTurnId, row.tags, row.turnGroupNumber)

theorem taggedRows_sameTwice :
    taggedRows ((chattingPipeline.persistCanonicalTurn .spelled
        { (talk "ok" "done").tagging with now := "now" } .empty secondEntry
        (talk "ok" "done").exchange.userMsg
        (talk "ok" "done").exchange.assistantMsg).run .quiet
          (twoExchanges ("ok", "done") ("ok", "done")).conn).2.durable =
      [(1, ["new"], 1), (2, ["new"], 1), (3, [], 1), (4, [], 1)] := by
  decide +kernel

/--
The second of two equal exchanges is to be tagged: the rows of the first one get
its tags and its number, and its own rows stay without tags.
-/
theorem tags_first_of_equal_exchanges :
    LatestTurn .spelled (twoExchanges ("ok", "done") ("ok", "done")).tables
        chattingPipeline.conversationId "ok" "done"
        (interleave [storedExchange "ok" "done" 0])
        (storedExchange "ok" "done" 1) [] ∧
      ¬ chattingPipeline.TagsTurn .spelled (talk "ok" "done").tagging .empty
        secondEntry (talk "ok" "done").exchange.userMsg
        (talk "ok" "done").exchange.assistantMsg
        (twoExchanges ("ok", "done") ("ok", "done"))
        (storedExchange "ok" "done" 1) := by
  refine ⟨twoExchanges_latestTurn _ _, fun htags => ?_⟩
  obtain ⟨result, t', hrun, honly⟩ := htags "now"
  have hrows := taggedRows_sameTwice
  rw [hrun] at hrows
  have huntagged : (3, [], 1) ∈ taggedRows t' := by
    rw [show taggedRows t' = _ from hrows]
    decide
  obtain ⟨row, hrow, heq⟩ := List.mem_map.mp huntagged
  rw [Prod.mk.injEq, Prod.mk.injEq] at heq
  have hcolumns := honly.tagged row hrow (.inl heq.1)
  have htags : row.tags = ["new"] := congrArg TagColumns.tags hcolumns
  rw [heq.2.1] at htags
  cases htags

end VirtualContext
