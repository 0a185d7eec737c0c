import VirtualContext.Core.TurnNumbering

/-!
# What the two calls after a reply compute

`persist_completed_turn` ingests the exchange.  `tag_turn` appends an entry under
the count of its entries, finds the rows that were ingested last, and saves them
over themselves with the number of the entry.
-/

namespace VirtualContext

open VirtualContext.Library

/-! ## Saving a row over itself -/

theorem Tables.Drawn.update {t : Tables} {n : Nat} (h : t.Drawn n)
    (f : CanonicalTurns.ColumnUpdate) :
    ({ t with canonicalTurns := t.canonicalTurns.update f } : Tables).Drawn n
    where
  turns row hrow := by
    obtain ⟨stored, hstored, rfl⟩ := List.mem_map.mp hrow
    rw [f.id_eq]
    exact h.turns stored hstored
  anchors := h.anchors
  batches := h.batches

/-- Saving under the identifier and the key of a stored row overwrites it. -/
theorem saveCanonicalTurn_stored (sha : Sha256) (now : String)
    (args : SaveTurnArgs) {t : Tables} {n : Nat} {canonicalTurnId : Uuid}
    {sortKey : ℚ}
    (hstored : ∃ stored ∈ t.canonicalTurns.rows,
      stored.canonicalTurnId = canonicalTurnId ∧ stored.sortKey = sortKey)
    (hdrawn : t.Drawn n) (hid : args.canonicalTurnId = some canonicalTurnId)
    (hkey : args.sortKey = some sortKey) :
    Yields (saveCanonicalTurn sha now args) t n ()
      { t with
        canonicalTurns := t.canonicalTurns.update (overwriteWith
          (args.record sha now canonicalTurnId sortKey)) } n := by
  obtain ⟨stored, hmem, rfl, rfl⟩ := hstored
  exact saveCanonicalTurn_yields hid (Nat.ne_of_gt (hdrawn.turns stored hmem).1)
    hkey (upsert_stored _ hmem rfl rfl)

/-- A hash that is given is the hash of the row. -/
theorem record_turnHash (sha : Sha256) (now : String) {args : SaveTurnArgs}
    (h : args.turnHash ≠ []) (canonicalTurnId : Uuid) (sortKey : ℚ) :
    (args.record sha now canonicalTurnId sortKey).turnHash = args.turnHash := by
  simp [SaveTurnArgs.record, h]

theorem setGroup_of_group {row : CanonicalTurnRecord} {group : Int}
    (h : row.turnGroupNumber = group) : row.setGroup group = row := by
  subst h
  rfl

/-! ## Finding a pair -/

/-- Among the last rows the two hashes stand side by side once before. -/
def RepeatsNear (hashes : List HexDigest) (user assistant : HexDigest) : Prop :=
  ∃ idx < hashes.length, hashes.length ≤ idx + 4 ∧
    (hashes ++ [user, assistant])[idx]? = some user ∧
    (hashes ++ [user, assistant])[idx + 1]? = some assistant

/-- `searchOrder` looks at the place in its first round. -/
def LooksNear (turnNumber : Int) (idx : Nat) : Prop :=
  (turnNumber * 2).toNat ≤ idx + 4 ∧ idx ≤ (turnNumber * 2).toNat + 4

instance (turnNumber : Int) (idx : Nat) :
    Decidable (LooksNear turnNumber idx) := by
  unfold LooksNear
  infer_instance

/-- `searchOrder` looks at one place before it looks at the other. -/
def LooksBefore (turnNumber : Int) (idx place : Nat) : Prop :=
  if LooksNear turnNumber place then LooksNear turnNumber idx ∧ idx < place
  else LooksNear turnNumber idx ∨ idx < place

instance (turnNumber : Int) (idx place : Nat) :
    Decidable (LooksBefore turnNumber idx place) := by
  unfold LooksBefore
  infer_instance

theorem not_looksBefore_self (turnNumber : Int) (place : Nat) :
    ¬ LooksBefore turnNumber place place := by
  unfold LooksBefore
  split_ifs with hnear
  · exact fun h => Nat.lt_irrefl place h.2
  · rintro (h | h)
    · exact hnear h
    · exact Nat.lt_irrefl place h

/-- The first round and the second one. -/
theorem searchOrder_eq (turnNumber : Int) (count : Nat) :
    TaggingPipeline.searchOrder turnNumber count =
      (List.range count).filter (LooksNear turnNumber ·) ++
        (List.range (count - 1)).filter (¬ LooksNear turnNumber ·) := by
  have hnear : (List.range count).filter (fun idx =>
      (turnNumber * 2).toNat - 4 ≤ idx ∧ idx ≤ (turnNumber * 2).toNat + 4) =
        (List.range count).filter (LooksNear turnNumber ·) := by
    apply List.filter_congr
    intro idx _
    rw [decide_eq_decide, LooksNear, Nat.sub_le_iff_le_add]
  unfold TaggingPipeline.searchOrder
  dsimp only
  rw [hnear]
  congr 1
  apply List.filter_congr
  intro idx hidx
  have hlt : idx < count := by
    rw [List.mem_range] at hidx
    omega
  simp [hlt]

theorem range_split {place count : Nat} (h : place < count) :
    ∃ rest, List.range count = List.range place ++ place :: rest := by
  obtain ⟨more, rfl⟩ := Nat.exists_eq_add_of_lt h
  refine ⟨(List.range more).map (place + 1 + ·), ?_⟩
  rw [Nat.add_right_comm, List.range_add, List.range_succ, List.append_assoc]
  rfl

/-- A pair that can be found, and the places that are looked at before it. -/
theorem searchOrder_split (turnNumber : Int) {place count : Nat}
    (h : place + 1 < count) :
    ∃ earlier later,
      TaggingPipeline.searchOrder turnNumber count =
          earlier ++ place :: later ∧
        ∀ idx, idx ∈ earlier ↔ idx < count ∧ LooksBefore turnNumber idx place := by
  rw [searchOrder_eq]
  unfold LooksBefore
  by_cases hplace : LooksNear turnNumber place
  · obtain ⟨rest, hrange⟩ := range_split (Nat.lt_of_succ_lt h)
    refine ⟨(List.range place).filter (LooksNear turnNumber ·),
      rest.filter (LooksNear turnNumber ·) ++
        (List.range (count - 1)).filter (¬ LooksNear turnNumber ·), ?_, ?_⟩
    · rw [hrange, List.filter_append,
        List.filter_cons_of_pos (by simpa using hplace), List.append_assoc,
        List.cons_append]
    · intro idx
      simp only [if_pos hplace, List.mem_filter, List.mem_range,
        decide_eq_true_eq]
      constructor
      · rintro ⟨hlt, hnear⟩
        exact ⟨by omega, hnear, hlt⟩
      · rintro ⟨-, hnear, hlt⟩
        exact ⟨hlt, hnear⟩
  · obtain ⟨rest, hrange⟩ := range_split (Nat.lt_sub_of_add_lt h)
    refine ⟨(List.range count).filter (LooksNear turnNumber ·) ++
        (List.range place).filter (¬ LooksNear turnNumber ·),
      rest.filter (¬ LooksNear turnNumber ·), ?_, ?_⟩
    · rw [hrange, List.filter_append,
        List.filter_cons_of_pos (by simpa using hplace), List.append_assoc]
    · intro idx
      simp only [if_neg hplace, List.mem_append, List.mem_filter,
        List.mem_range, decide_eq_true_eq]
      constructor
      · rintro (⟨hidx, hnear⟩ | ⟨hlt, -⟩)
        · exact ⟨hidx, .inl hnear⟩
        · exact ⟨by omega, .inr hlt⟩
      · rintro ⟨hidx, hnear | hlt⟩
        · exact .inl ⟨hidx, hnear⟩
        · by_cases hnear : LooksNear turnNumber idx
          · exact .inl ⟨hidx, hnear⟩
          · exact .inr ⟨hlt, hnear⟩

section Match

variable {rows : List CanonicalTurnRow} {user assistant : HexDigest}
  {turnNumber : Int} {idx place : Nat}
  {pair : CanonicalTurnRow × CanonicalTurnRow}

theorem pairAt_eq_some_iff :
    TaggingPipeline.pairAt rows user assistant idx = some pair ↔
      rows[idx]? = some pair.1 ∧ rows[idx + 1]? = some pair.2 ∧
        pair.1.turnHash = user ∧ pair.2.turnHash = assistant := by
  unfold TaggingPipeline.pairAt
  obtain ⟨first', second'⟩ := pair
  cases rows[idx]? with
  | none => simp
  | some first =>
      cases rows[idx + 1]? with
      | none => simp
      | some second =>
          simp only [Option.ite_none_right_eq_some, Option.some.injEq,
            Prod.mk.injEq]
          constructor
          · rintro ⟨hhashes, rfl, rfl⟩
            exact ⟨rfl, rfl, hhashes⟩
          · rintro ⟨rfl, rfl, hhashes⟩
            exact ⟨hhashes, rfl, rfl⟩

theorem pairAt_eq_none_iff :
    TaggingPipeline.pairAt rows user assistant idx = none ↔
      ¬ ((rows.map (·.turnHash))[idx]? = some user ∧
        (rows.map (·.turnHash))[idx + 1]? = some assistant) := by
  unfold TaggingPipeline.pairAt
  simp only [List.getElem?_map]
  cases rows[idx]? with
  | none => simp
  | some first =>
      cases rows[idx + 1]? with
      | none => simp
      | some second => simp

/-- A pair is found if none that is looked at before has its hashes. -/
theorem matchedPair_of_first
    (hpair : TaggingPipeline.pairAt rows user assistant place = some pair)
    (hfirst : ∀ idx < rows.length, LooksBefore turnNumber idx place →
      TaggingPipeline.pairAt rows user assistant idx = none) :
    TaggingPipeline.matchedPair rows user assistant turnNumber = some pair := by
  have hplace : place + 1 < rows.length :=
    (List.getElem?_eq_some_iff.mp (pairAt_eq_some_iff.mp hpair).2.1).1
  obtain ⟨earlier, later, horder, hearlier⟩ :=
    searchOrder_split turnNumber hplace
  have hnone : earlier.findSome? (TaggingPipeline.pairAt rows user assistant) =
      none := by
    rw [List.findSome?_eq_none_iff]
    intro idx hidx
    obtain ⟨hlt, hbefore⟩ := (hearlier idx).mp hidx
    exact hfirst idx hlt hbefore
  unfold TaggingPipeline.matchedPair
  rw [horder, List.findSome?_append, hnone, List.findSome?_cons, hpair]
  rfl

/-- A pair that is not the first to have its hashes is not the one found. -/
theorem matchedPair_of_earlier
    (hpair : TaggingPipeline.pairAt rows user assistant place = some pair)
    (hidx : idx < rows.length) (hbefore : LooksBefore turnNumber idx place)
    (hmatches : TaggingPipeline.pairAt rows user assistant idx ≠ none) :
    ∃ other ≠ place, ∃ found,
      TaggingPipeline.pairAt rows user assistant other = some found ∧
      TaggingPipeline.matchedPair rows user assistant turnNumber =
        some found := by
  have hplace : place + 1 < rows.length :=
    (List.getElem?_eq_some_iff.mp (pairAt_eq_some_iff.mp hpair).2.1).1
  obtain ⟨earlier, later, horder, hearlier⟩ :=
    searchOrder_split turnNumber hplace
  obtain ⟨found, hfound⟩ : ∃ found,
      earlier.findSome? (TaggingPipeline.pairAt rows user assistant) =
        some found := by
    rw [← Option.ne_none_iff_exists', ne_eq, List.findSome?_eq_none_iff]
    exact fun hnone => hmatches (hnone idx ((hearlier idx).mpr ⟨hidx, hbefore⟩))
  obtain ⟨other, hother, heq⟩ := List.exists_of_findSome?_eq_some hfound
  refine ⟨other, ?_, found, heq, ?_⟩
  · rintro rfl
    exact not_looksBefore_self turnNumber other ((hearlier other).mp hother).2
  · unfold TaggingPipeline.matchedPair
    rw [horder, List.findSome?_append, hfound]
    rfl

end Match

section Tag

variable {sha : Sha256} {t : Tables} {n : Nat} {conversationId : ConversationId}
  {turns : List (CanonicalTurnRecord × CanonicalTurnRecord)}
  {turn : CanonicalTurnRecord × CanonicalTurnRecord} {user assistant : String}

theorem ConsistsOf.hashes (h : ConsistsOf t conversationId turns) :
    (t.loadRows conversationId).map (·.turnHash) =
      (interleave turns).map fun record => record.turnHash := by
  rw [t.map_loadRows conversationId _ (fun record => record.turnHash)
    fun _ _ => rfl, h.rows]

/-- The newest turn is found unless its hashes occur shortly before. -/
theorem ConsistsOf.matchedPair
    (h : ConsistsOf t conversationId (turns ++ [turn]))
    (hholds : HoldsTexts sha user assistant turn)
    (hnear : ¬ RepeatsNear ((interleave turns).map fun record => record.turnHash)
      (userHash sha user) (assistantHash sha assistant)) :
    TaggingPipeline.matchedPair (t.loadRows conversationId) (userHash sha user)
        (assistantHash sha assistant) turns.length =
      some (rowToCanonicalTurn (2 * turns.length) turn.1,
        rowToCanonicalTurn (2 * turns.length + 1) turn.2) := by
  have hrows : t.canonicalTurns.ordered conversationId =
      interleave turns ++ [turn.1, turn.2] := by
    rw [h.rows, interleave_append]
    rfl
  have hlength : (interleave turns).length = 2 * turns.length :=
    length_interleave turns
  have hpair : TaggingPipeline.pairAt (t.loadRows conversationId)
      (userHash sha user) (assistantHash sha assistant) (2 * turns.length) =
        some (rowToCanonicalTurn (2 * turns.length) turn.1,
          rowToCanonicalTurn (2 * turns.length + 1) turn.2) := by
    have hfirst : (t.loadRows conversationId)[2 * turns.length]? =
        some (rowToCanonicalTurn (2 * turns.length) turn.1) := by
      simp [Tables.loadRows, hrows, hlength]
    have hsecond : (t.loadRows conversationId)[2 * turns.length + 1]? =
        some (rowToCanonicalTurn (2 * turns.length + 1) turn.2) := by
      simp [Tables.loadRows, hrows, hlength]
    exact pairAt_eq_some_iff.mpr
      ⟨hfirst, hsecond, hholds.userHash, hholds.assistantHash⟩
  apply matchedPair_of_first hpair
  intro idx _ hbefore
  have hnewest : LooksNear turns.length (2 * turns.length) := by
    unfold LooksNear
    omega
  rw [LooksBefore, if_pos hnewest, LooksNear] at hbefore
  rw [pairAt_eq_none_iff]
  rintro ⟨hu, ha⟩
  have hhashes : (t.loadRows conversationId).map (·.turnHash) =
      ((interleave turns).map fun record => record.turnHash) ++
        [userHash sha user, assistantHash sha assistant] := by
    rw [h.hashes, interleave_append, List.map_append, ← hholds.userHash,
      ← hholds.assistantHash]
    rfl
  rw [hhashes] at hu ha
  refine hnear ⟨idx, ?_, ?_, hu, ha⟩
  · rw [List.length_map, hlength]
    exact hbefore.2
  · rw [List.length_map, hlength]
    omega

/-- The turn after both of its rows were saved over themselves. -/
def enriched (sha : Sha256) (pipeline : TaggingPipeline) (clock : CallClock)
    (entry : TurnTagEntry) (userMsg assistantMsg : HistoryMessage)
    (first second : Nat) (turn : CanonicalTurnRecord × CanonicalTurnRecord) :
    CanonicalTurnRecord × CanonicalTurnRecord :=
  (turn.1.overwrite ((pipeline.enrichArgs sha clock entry .user userMsg
      (rowToCanonicalTurn first turn.1)).record sha clock.now
        turn.1.canonicalTurnId turn.1.sortKey),
    turn.2.overwrite ((pipeline.enrichArgs sha clock entry .assistant assistantMsg
      (rowToCanonicalTurn second turn.2)).record sha clock.now
        turn.2.canonicalTurnId turn.2.sortKey))

theorem enriched_holdsTexts (sha : Sha256) (pipeline : TaggingPipeline)
    (clock : CallClock) (entry : TurnTagEntry)
    (userMsg assistantMsg : HistoryMessage) (first second : Nat)
    (turn : CanonicalTurnRecord × CanonicalTurnRecord) :
    HoldsTexts sha userMsg.content assistantMsg.content
      (enriched sha pipeline clock entry userMsg assistantMsg first second turn)
    where
  userTexts := ⟨rfl, rfl⟩
  assistantTexts := ⟨rfl, rfl⟩
  userHash := by
    have hargs : (pipeline.enrichArgs sha clock entry .user userMsg
        (rowToCanonicalTurn first turn.1)).turnHash =
          userHash sha userMsg.content := by
      simp only [TaggingPipeline.enrichArgs, userHash]
    have hne : (pipeline.enrichArgs sha clock entry .user userMsg
        (rowToCanonicalTurn first turn.1)).turnHash ≠ [] := by
      rw [hargs]
      exact sha.nonempty _
    exact (record_turnHash sha clock.now hne turn.1.canonicalTurnId
      turn.1.sortKey).trans hargs
  assistantHash := by
    have hargs : (pipeline.enrichArgs sha clock entry .assistant assistantMsg
        (rowToCanonicalTurn second turn.2)).turnHash =
          assistantHash sha assistantMsg.content := by
      simp only [TaggingPipeline.enrichArgs, assistantHash]
    have hne : (pipeline.enrichArgs sha clock entry .assistant assistantMsg
        (rowToCanonicalTurn second turn.2)).turnHash ≠ [] := by
      rw [hargs]
      exact sha.nonempty _
    exact (record_turnHash sha clock.now hne turn.2.canonicalTurnId
      turn.2.sortKey).trans hargs

/-- The two saves change the turn and no other row. -/
theorem ConsistsOf.ordered_enriched
    (h : ConsistsOf t conversationId (turns ++ [turn]))
    {new new' : CanonicalTurnRecord}
    (hid : new.canonicalTurnId = turn.1.canonicalTurnId)
    (hkey : new.sortKey = turn.1.sortKey)
    (hid' : new'.canonicalTurnId = turn.2.canonicalTurnId)
    (hkey' : new'.sortKey = turn.2.sortKey) :
    ((t.canonicalTurns.update (overwriteWith new)).update
        (overwriteWith new')).ordered conversationId =
      interleave (turns ++ [(turn.1.overwrite new, turn.2.overwrite new')]) := by
  have hrows : t.canonicalTurns.ordered conversationId =
      interleave turns ++ [turn.1, turn.2] := by
    rw [h.rows, interleave_append]
    rfl
  have hids := t.canonicalTurns.ordered_ids_nodup conversationId
  rw [hrows, List.map_append, List.nodup_append] at hids
  obtain ⟨-, hpair, hapart⟩ := hids
  have hne : turn.1.canonicalTurnId ≠ turn.2.canonicalTurnId := by
    simpa using hpair
  have hother : ∀ row : CanonicalTurnRecord,
      row.canonicalTurnId ≠ turn.1.canonicalTurnId →
        (overwriteWith new).apply row = row :=
    fun row hrow => overwriteWith_other (by rwa [hid])
  have hother' : ∀ row : CanonicalTurnRecord,
      row.canonicalTurnId ≠ turn.2.canonicalTurnId →
        (overwriteWith new').apply row = row :=
    fun row hrow => overwriteWith_other (by rwa [hid'])
  rw [CanonicalTurns.ordered_update, CanonicalTurns.ordered_update, hrows,
    List.map_map, List.map_append, interleave_append]
  congr 1
  · conv_rhs => rw [← List.map_id (interleave turns)]
    apply List.map_congr_left
    intro row hrow
    have hrow' := List.mem_map_of_mem
      (f := fun row : CanonicalTurnRecord => row.canonicalTurnId) hrow
    rw [Function.comp_apply, hother row (hapart _ hrow' _ (by simp)),
      hother' row (hapart _ hrow' _ (by simp)), id]
  · have hfirst : (overwriteWith new').apply
        ((overwriteWith new).apply turn.1) = turn.1.overwrite new := by
      rw [overwriteWith_self hid.symm hkey.symm, hother']
      change new.canonicalTurnId ≠ _
      rwa [hid]
    have hsecond : (overwriteWith new').apply
        ((overwriteWith new).apply turn.2) = turn.2.overwrite new' := by
      rw [hother _ hne.symm, overwriteWith_self hid'.symm hkey'.symm]
    simp [interleave, hfirst, hsecond]

/-- The record that is saved for one half of a turn that was found. -/
def enrichedRecord (sha : Sha256) (pipeline : TaggingPipeline)
    (clock : CallClock) (entry : TurnTagEntry) (role : Role)
    (msg : HistoryMessage) (ordinal : Nat) (stored : CanonicalTurnRecord) :
    CanonicalTurnRecord :=
  (pipeline.enrichArgs sha clock entry role msg
    (rowToCanonicalTurn ordinal stored)).record sha clock.now
      stored.canonicalTurnId stored.sortKey

/-- The pair of rows that is found is saved over itself. -/
theorem persistCanonicalTurn_of_matched {pipeline : TaggingPipeline}
    (clock : CallClock) (index : TurnTagIndex) {entry : TurnTagEntry}
    (userMsg assistantMsg : HistoryMessage) {first second : CanonicalTurnRecord}
    {i j : Nat} (hdrawn : t.Drawn n)
    (hbackfilled : t.backfilled pipeline.conversationId = t)
    (hfirst : first ∈ t.canonicalTurns.rows)
    (hsecond : second ∈ t.canonicalTurns.rows)
    (hmatched : TaggingPipeline.matchedPair (t.loadRows pipeline.conversationId)
      (userHash sha userMsg.content) (assistantHash sha assistantMsg.content)
      entry.turnNumber =
        some (rowToCanonicalTurn i first, rowToCanonicalTurn j second)) :
    Yields (pipeline.persistCanonicalTurn sha clock index entry userMsg
        assistantMsg) t n
      (index.identify entry.turnNumber first.canonicalTurnId,
        [first.canonicalTurnId, second.canonicalTurnId])
      { t with
        canonicalTurns := (t.canonicalTurns.update (overwriteWith
            (enrichedRecord sha pipeline clock entry .user userMsg i first))).update
          (overwriteWith (enrichedRecord sha pipeline clock entry .assistant
            assistantMsg j second)) } n := by
  let new := enrichedRecord sha pipeline clock entry .user userMsg i first
  have hsave := saveCanonicalTurn_stored sha clock.now
    (pipeline.enrichArgs sha clock entry .user userMsg
      (rowToCanonicalTurn i first))
    ⟨first, hfirst, rfl, rfl⟩ hdrawn rfl rfl
  have hsave' := saveCanonicalTurn_stored sha clock.now
    (pipeline.enrichArgs sha clock entry .assistant assistantMsg
      (rowToCanonicalTurn j second))
    ⟨_, List.mem_map_of_mem hsecond, (overwriteWith new).id_eq second,
      (overwriteWith new).sortKey_eq second⟩
    (hdrawn.update (overwriteWith new)) rfl rfl
  apply Yields.bind getAllCanonicalTurns_yields
  rw [hbackfilled]
  unfold userHash assistantHash at hmatched
  rw [hmatched]
  dsimp only
  apply Yields.bind hsave
  exact Yields.bind hsave' .pure

/-- Tagging a turn that is new writes the number that it has already. -/
theorem persistCanonicalTurn_yields {pipeline : TaggingPipeline}
    (clock : CallClock) (index : TurnTagIndex) {entry : TurnTagEntry}
    (userMsg assistantMsg : HistoryMessage)
    (h : ConsistsOf t pipeline.conversationId (turns ++ [turn]))
    (hdrawn : t.Drawn n)
    (hholds : HoldsTexts sha userMsg.content assistantMsg.content turn)
    (huser : userMsg.content ≠ "") (hassistant : assistantMsg.content ≠ "")
    (hnumber : entry.turnNumber = turns.length)
    (hnear : ¬ RepeatsNear ((interleave turns).map fun record => record.turnHash)
      (userHash sha userMsg.content) (assistantHash sha assistantMsg.content)) :
    ∃ (t' : Tables) (turn' : CanonicalTurnRecord × CanonicalTurnRecord),
      Yields (pipeline.persistCanonicalTurn sha clock index entry userMsg
          assistantMsg) t n
        (index.identify entry.turnNumber turn.1.canonicalTurnId,
          [turn.1.canonicalTurnId, turn.2.canonicalTurnId]) t' n ∧
      t'.Drawn n ∧ ConsistsOf t' pipeline.conversationId (turns ++ [turn']) ∧
      HoldsTexts sha userMsg.content assistantMsg.content turn' ∧
      turn'.1.canonicalTurnId = turn.1.canonicalTurnId ∧
      turn'.2.canonicalTurnId = turn.2.canonicalTurnId := by
  have hmatched := h.matchedPair hholds hnear
  rw [← hnumber] at hmatched
  have hmem : ∀ row ∈ [turn.1, turn.2], row ∈ t.canonicalTurns.rows := by
    intro row hrow
    have hordered : row ∈ t.canonicalTurns.ordered pipeline.conversationId := by
      rw [h.rows, interleave_append]
      exact List.mem_append_right _ hrow
    exact (CanonicalTurns.mem_ordered.mp hordered).1
  let new := enrichedRecord sha pipeline clock entry .user userMsg
    (2 * turns.length) turn.1
  let new' := enrichedRecord sha pipeline clock entry .assistant assistantMsg
    (2 * turns.length + 1) turn.2
  have hordered := ConsistsOf.ordered_enriched h
    (show new.canonicalTurnId = _ from rfl) rfl
    (show new'.canonicalTurnId = _ from rfl) rfl
  have hyields := persistCanonicalTurn_of_matched clock index userMsg
    assistantMsg hdrawn h.backfilled (hmem turn.1 (by simp))
    (hmem turn.2 (by simp)) hmatched
  have hholds' := enriched_holdsTexts sha pipeline clock entry userMsg
    assistantMsg (2 * turns.length) (2 * turns.length + 1) turn
  refine ⟨_, enriched sha pipeline clock entry userMsg assistantMsg
    (2 * turns.length) (2 * turns.length + 1) turn, hyields,
    (hdrawn.update (overwriteWith new)).update (overwriteWith new'),
    ⟨hordered, ?_, ?_⟩, hholds', rfl, rfl⟩
  · intro other hother
    rcases List.mem_append.mp hother with hold | hnew
    · exact h.isTurn other (List.mem_append_left _ hold)
    · rw [List.mem_singleton.mp hnew]
      exact hholds'.isTurn huser hassistant
  · have hnumbered := h.numbered
    rw [numberFrom_append] at hnumbered ⊢
    rw [(List.append_inj' hnumbered rfl).1]
    simp only [numberFrom, Int.zero_add]
    rw [setGroup_of_group, setGroup_of_group]
    · exact hnumber
    · exact hnumber

end Tag

/-! ## The index -/

namespace TurnTagIndex

variable (index : TurnTagIndex)

def numbers : List Int := index.entries.map (·.turnNumber)

@[simp] theorem numbers_identify (turnNumber : Int) (canonicalTurnId : Uuid) :
    (index.identify turnNumber canonicalTurnId).numbers = index.numbers := by
  unfold numbers identify
  rw [List.map_map]
  apply List.map_congr_left
  intro entry _
  rw [Function.comp_apply]
  split_ifs <;> simp

variable {index}

theorem entries_append {entry : TurnTagEntry}
    (hnew : entry.turnNumber ∉ index.numbers) (hid : entry.canonicalTurnId = 0) :
    (index.append entry).entries = index.entries ++ [entry] := by
  have hmem : ¬ entry.turnNumber ∈ index.entries.map (·.turnNumber) := hnew
  unfold append
  rw [dif_neg hmem, if_neg (fun h => h.1 hid)]

theorem numbers_append {entry : TurnTagEntry}
    (hnew : entry.turnNumber ∉ index.numbers) (hid : entry.canonicalTurnId = 0) :
    (index.append entry).numbers = index.numbers ++ [entry.turnNumber] := by
  simp [numbers, entries_append hnew hid]

/-- An entry that was appended is found under its number. -/
theorem getTagsForLogicalTurn_append {entry : TurnTagEntry}
    (hnew : entry.turnNumber ∉ index.numbers) (hid : entry.canonicalTurnId = 0) :
    (index.append entry).getTagsForLogicalTurn entry.turnNumber = some entry := by
  unfold getTagsForLogicalTurn
  rw [entries_append hnew hid, List.find?_append, List.find?_eq_none.mpr]
  · simp
  · intro other hother
    simp only [decide_eq_true_eq]
    exact fun heq => hnew (List.mem_map.mpr ⟨other, hother, heq⟩)

end TurnTagIndex

/-! ## The two calls -/

section Calls

variable {sha : Sha256} {pipeline : TaggingPipeline} {clock : CallClock}
  {exchanges : List Exchange} {exchange : Exchange} {index : TurnTagIndex}

/-- What `persist_completed_turn` ingests of an exchange. -/
def TaggingPipeline.exchangeArgs (pipeline : TaggingPipeline)
    (exchange : Exchange) (entry : Option TurnTagEntry) : IngestSingleArgs :=
  pipeline.ingestArgs exchange.userMsg exchange.assistantMsg entry

theorem pairMessagesIntoTurns_history (exchanges : List Exchange)
    (exchange : Exchange) :
    pairMessagesIntoTurns []
        (exchanges.flatMap (·.messages) ++ exchange.messages) =
      exchanges.map (·.messages) ++ [exchange.messages] := by
  have h := pairMessagesIntoTurns_messages (exchanges ++ [exchange])
  simpa using h

/-- The first call reports what the reconciler reports. -/
theorem persistCompletedTurn_run {c c' : Conn Tables}
    {result : CanonicalIngestResult}
    (hrun : (ingestSingle sha clock.now clock.seen (pipeline.exchangeArgs exchange
      (index.getTagsForLogicalTurn exchanges.length))).run .quiet c =
        (.ok result, c')) :
    (pipeline.persistCompletedTurn sha clock
        (exchanges.flatMap (·.messages) ++ exchange.messages) index).run .quiet c =
      (.ok (index.identify exchanges.length
          ((TaggingPipeline.reportedIds result).headD 0),
        TaggingPipeline.reportedIds result), c') := by
  unfold TaggingPipeline.persistCompletedTurn
  simp only [pairMessagesIntoTurns_history, List.getLast?_concat,
    List.length_append, List.length_map, List.length_singleton]
  have hnumber : ((exchanges.length + 1 : Nat) : Int) - 1 = exchanges.length := by
    omega
  rw [hnumber]
  have hassistants : (exchange.messages.filter (·.role = "assistant")).isEmpty =
      false := by
    simp [Exchange.messages, Exchange.assistantMsg]
  have huser : TaggingPipeline.mergeRole "user"
      (exchange.messages.filter (·.role = "user")) = exchange.userMsg := by
    simp [Exchange.messages, Exchange.userMsg, Exchange.assistantMsg,
      TaggingPipeline.mergeRole]
  have hassistant : TaggingPipeline.mergeRole "assistant"
      (exchange.messages.filter (·.role = "assistant")) =
        exchange.assistantMsg := by
    simp [Exchange.messages, Exchange.userMsg, Exchange.assistantMsg,
      TaggingPipeline.mergeRole]
  rw [if_neg (by simp [hassistants]), huser, hassistant, Program.run_tryCatch,
    Program.run_bind]
  unfold TaggingPipeline.exchangeArgs at hrun
  rw [hrun]
  rfl

theorem getLatestTurnPair_history (exchanges : List Exchange)
    (exchange : Exchange) :
    getLatestTurnPair (exchanges.flatMap (·.messages) ++ exchange.messages) =
      some exchange.messages := by
  unfold getLatestTurnPair
  rw [pairMessagesIntoTurns_history, List.getLast?_concat]
  simp [Exchange.messages, Exchange.userMsg, Exchange.assistantMsg]

variable (sha pipeline clock exchanges index) in
/-- An exchange with tools and no text is tagged and goes no further. -/
theorem tagTurn_tool (htool : isToolTurn exchange.messages = true)
    (toolTagCounter : Nat) :
    ∃ entry : TurnTagEntry, entry.turnNumber = index.entries.length ∧
      entry.canonicalTurnId = 0 ∧
      pipeline.tagTurn sha clock
          (exchanges.flatMap (·.messages) ++ exchange.messages) index
          toolTagCounter =
        pure
          { index := index.append entry
            toolTagCounter := toolTagCounter + 1
            tagged := some (index.entries.length : Int) } := by
  refine ⟨TaggingPipeline.turnEntry sha clock index.entries.length
    exchange.messages
    { tags := ["tool_" ++ toString (toolTagCounter + 1)]
      primary := "tool_" ++ toString (toolTagCounter + 1) }, rfl, rfl, ?_⟩
  unfold TaggingPipeline.tagTurn
  rw [getLatestTurnPair_history]
  dsimp only
  rw [if_pos htool]

variable (sha pipeline clock exchanges index) in
/-- An exchange without text and tools is not tagged. -/
theorem tagTurn_blank (htool : isToolTurn exchange.messages = false)
    (hblank : pyStrip (combinedText exchange.messages) = "")
    (toolTagCounter : Nat) :
    pipeline.tagTurn sha clock
        (exchanges.flatMap (·.messages) ++ exchange.messages) index
        toolTagCounter = pure { index, toolTagCounter } := by
  unfold TaggingPipeline.tagTurn
  rw [getLatestTurnPair_history]
  dsimp only
  rw [if_neg (by simp [htool]), if_pos hblank]

theorem isToolTurn_of_text
    (htext : pyStrip (combinedText exchange.messages) ≠ "") :
    isToolTurn exchange.messages = false := by
  simp [isToolTurn, htext]

variable (sha pipeline clock exchanges) in
/--
An exchange with text is tagged, and unless the monitor asks for compaction its
rows are saved under the number of its entry.
-/
theorem tagTurn_text (htext : pyStrip (combinedText exchange.messages) ≠ "")
    (hnew : (index.entries.length : Int) ∉ index.numbers)
    (toolTagCounter : Nat) :
    ∃ entry : TurnTagEntry, entry.turnNumber = index.entries.length ∧
      entry.canonicalTurnId = 0 ∧
      (clock.compactionSignal = true →
        pipeline.tagTurn sha clock
            (exchanges.flatMap (·.messages) ++ exchange.messages) index
            toolTagCounter =
          pure
            { index := index.append entry
              toolTagCounter
              tagged := some (index.entries.length : Int) }) ∧
      (clock.compactionSignal = false →
        ∀ {t t' : Tables} {n n' : Nat} {index' : TurnTagIndex}
          {heldBy : List Uuid},
          Yields (pipeline.persistCanonicalTurn sha clock (index.append entry)
            entry exchange.userMsg exchange.assistantMsg) t n (index', heldBy)
              t' n' →
          Yields (pipeline.tagTurn sha clock
              (exchanges.flatMap (·.messages) ++ exchange.messages) index
              toolTagCounter) t n
            { index := index'
              toolTagCounter
              tagged := some (index.entries.length : Int)
              heldBy } t' n') := by
  refine ⟨TaggingPipeline.turnEntry sha clock index.entries.length
    exchange.messages (pipeline.tagsFor
      (exchanges.flatMap (·.messages) ++ exchange.messages) index
      (combinedText exchange.messages)), rfl, rfl, ?_⟩
  have huser : exchange.messages.find? (·.role = "user") =
      some exchange.userMsg := rfl
  have hassistant : exchange.messages.find? (·.role = "assistant") =
      some exchange.assistantMsg := rfl
  unfold TaggingPipeline.tagTurn
  rw [getLatestTurnPair_history]
  dsimp only
  rw [if_neg (by simp [isToolTurn_of_text htext]), if_neg htext, huser,
    hassistant]
  rw [show TurnTagIndex.getTagsForLogicalTurn _ (index.entries.length : Int) = _
    from TurnTagIndex.getTagsForLogicalTurn_append hnew rfl]
  constructor
  · intro hsignal
    rw [if_pos hsignal]
  · intro hsignal t t' n n' index' heldBy hpersist
    rw [if_neg (by simp [hsignal])]
    dsimp only
    apply Yields.tryCatch
    exact Yields.bind hpersist .pure

end Calls

end VirtualContext
