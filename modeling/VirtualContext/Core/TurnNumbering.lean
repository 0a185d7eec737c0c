import Mathlib.Data.List.TakeWhile
import VirtualContext.Core.IngestHistory
import VirtualContext.Core.ResendRuns
import VirtualContext.Core.TaggingPipeline
import VirtualContext.Storage.GroupingAppend

/-!
# Turns of two rows

As long as every turn of a conversation is a user row and the assistant row
that answers it, the numbering by contents counts the turns, an ingested pair
becomes the next turn, and the pair that was ingested last is found again.
-/

namespace VirtualContext

open VirtualContext.Library

/-! ## Blank texts -/

theorem pyStripChars_eq_nil_iff (text : List Char) :
    pyStripChars text = [] ↔ ∀ c ∈ text, isPySpace c = true := by
  unfold pyStripChars
  rw [List.reverse_eq_nil_iff, List.dropWhile_eq_nil_iff]
  simp only [List.mem_reverse]
  constructor
  · intro h c hc
    rw [← List.takeWhile_append_dropWhile (p := isPySpace) (l := text)] at hc
    rcases List.mem_append.mp hc with hfront | hback
    · exact List.mem_takeWhile_imp hfront
    · exact h c hback
  · intro h c hc
    exact h c ((List.dropWhile_sublist _).subset hc)

theorem pyStrip_eq_empty_iff (text : String) :
    pyStrip text = "" ↔ ∀ c ∈ text.toList, isPySpace c = true := by
  rw [← pyStripChars_eq_nil_iff, pyStrip]
  constructor
  · intro h
    simpa using congrArg String.toList h
  · intro h
    rw [h]

/-- The text of an exchange is blank if both of its halves are. -/
theorem pyStrip_combinedText_iff (exchange : Exchange) :
    pyStrip (combinedText exchange.messages) = "" ↔
      pyStrip exchange.user = "" ∧ pyStrip exchange.assistant = "" := by
  have htext : (combinedText exchange.messages).toList =
      exchange.user.toList ++ ' ' :: exchange.assistant.toList := by
    simp [combinedText, Exchange.messages, Exchange.userMsg,
      Exchange.assistantMsg]
  simp only [pyStrip_eq_empty_iff, htext, List.mem_append, List.mem_cons]
  constructor
  · intro h
    exact ⟨fun c hc => h c (.inl hc), fun c hc => h c (.inr (.inr hc))⟩
  · rintro ⟨huser, hassistant⟩ c (hc | rfl | hc)
    · exact huser c hc
    · rfl
    · exact hassistant c hc

/-! ## The pairs of the history -/

/-- The pairs of a driven history are its exchanges. -/
theorem pairMessagesIntoTurns_messages (exchanges : List Exchange) :
    pairMessagesIntoTurns [] (exchanges.flatMap (·.messages)) =
      exchanges.map (·.messages) := by
  induction exchanges with
  | nil => rfl
  | cons exchange exchanges ih =>
      rw [List.flatMap_cons, List.map_cons, ← ih]
      simp [Exchange.messages, Exchange.userMsg, Exchange.assistantMsg,
        pairMessagesIntoTurns]

/-! ## Rows of turns -/

/-- The rows of turns one after the other, the user row first. -/
def interleave {α : Type} (turns : List (α × α)) : List α :=
  turns.flatMap fun turn => [turn.1, turn.2]

section Interleave

variable {α : Type}

@[simp] theorem interleave_append (turns turns' : List (α × α)) :
    interleave (turns ++ turns') = interleave turns ++ interleave turns' := by
  simp [interleave]

@[simp] theorem length_interleave (turns : List (α × α)) :
    (interleave turns).length = 2 * turns.length := by
  induction turns with
  | nil => rfl
  | cons turn turns ih =>
      change (interleave turns).length + 1 + 1 = _
      rw [ih, List.length_cons]
      omega

theorem mem_interleave {turns : List (α × α)} {row : α} :
    row ∈ interleave turns ↔ ∃ turn ∈ turns, row = turn.1 ∨ row = turn.2 := by
  simp [interleave]

theorem map_interleave {β : Type} (f : α → β) (turns : List (α × α)) :
    (interleave turns).map f =
      interleave (turns.map fun turn => (f turn.1, f turn.2)) := by
  simp [interleave, List.map_flatMap, List.flatMap_map]

end Interleave

/-- Turns numbered one after the other. -/
def numberFrom : Int → List (CanonicalTurnRecord × CanonicalTurnRecord) →
    List (CanonicalTurnRecord × CanonicalTurnRecord)
  | _, [] => []
  | start, turn :: turns =>
      (turn.1.setGroup start, turn.2.setGroup start) ::
        numberFrom (start + 1) turns

/-- A user row and the row that answers it. -/
def IsTurn (turn : CanonicalTurnRecord × CanonicalTurnRecord) : Prop :=
  turn.1.isQuestion = true ∧ turn.2.isAnswer = true

section NumberFrom

variable {turns : List (CanonicalTurnRecord × CanonicalTurnRecord)}

theorem numberFrom_append (start : Int)
    (turns turns' : List (CanonicalTurnRecord × CanonicalTurnRecord)) :
    numberFrom start (turns ++ turns') =
      numberFrom start turns ++ numberFrom (start + turns.length) turns' := by
  induction turns generalizing start with
  | nil => simp [numberFrom]
  | cons turn turns ih =>
      simp only [List.cons_append, numberFrom, ih, List.length_cons]
      rw [Int.add_assoc, Int.add_comm 1]
      rfl

/-- In numbered turns the number of a turn is its place. -/
theorem numberFrom_getElem {start : Int} (h : numberFrom start turns = turns)
    {i : Nat} {turn : CanonicalTurnRecord × CanonicalTurnRecord}
    (hturn : turns[i]? = some turn) :
    turn.1.turnGroupNumber = start + i ∧ turn.2.turnGroupNumber = start + i := by
  induction turns generalizing start i with
  | nil => simp at hturn
  | cons first rest ih =>
      simp only [numberFrom, List.cons.injEq] at h
      cases i with
      | zero =>
          simp only [List.getElem?_cons_zero, Option.some.injEq] at hturn
          subst hturn
          rw [← h.1]
          simp [CanonicalTurnRecord.setGroup]
      | succ i =>
          obtain ⟨hfirst, hsecond⟩ := ih h.2 hturn
          exact ⟨by omega, by omega⟩

/-- The numbering by contents counts the turns. -/
theorem zipWith_assignGroups (h : ∀ turn ∈ turns, IsTurn turn)
    {current : Int} (hcurrent : -1 ≤ current) (pending : Int) :
    List.zipWith CanonicalTurnRecord.setGroup (interleave turns)
        (assignGroups current pending
          ((interleave turns).map (·.toCanonicalTurnRow))) =
      interleave (numberFrom (current + 1) turns) := by
  induction turns generalizing current pending with
  | nil => rfl
  | cons turn turns ih =>
      obtain ⟨hquestion, hanswer⟩ := h turn List.mem_cons_self
      simp only [CanonicalTurnRow.isQuestion, CanonicalTurnRow.isAnswer,
        Bool.and_eq_true, Bool.not_eq_true'] at hquestion hanswer
      have hrest := ih (fun turn hturn => h turn (List.mem_cons_of_mem _ hturn))
        (show -1 ≤ current + 1 by omega) (-1)
      have hpending : 0 ≤ current + 1 := by omega
      have hinterleave : interleave (turn :: turns) =
          turn.1 :: turn.2 :: interleave turns := rfl
      simp only [hinterleave, List.map_cons, assignGroups, hquestion.1,
        hquestion.2, hanswer.1, hanswer.2, Bool.and_false, Bool.false_and,
        Bool.false_eq_true, if_false, if_true, hpending,
        List.zipWith_cons_cons, hrest]
      rfl

end NumberFrom

/-! ## A conversation of numbered turns -/

/-- The conversation consists of these turns, numbered from 0 on. -/
structure ConsistsOf (t : Tables) (conversationId : ConversationId)
    (turns : List (CanonicalTurnRecord × CanonicalTurnRecord)) : Prop where
  rows : t.canonicalTurns.ordered conversationId = interleave turns
  isTurn : ∀ turn ∈ turns, IsTurn turn
  numbered : numberFrom 0 turns = turns

section ConsistsOf

variable {t t' : Tables} {conversationId : ConversationId}
  {turns : List (CanonicalTurnRecord × CanonicalTurnRecord)}

theorem ConsistsOf.congr (h : ConsistsOf t conversationId turns)
    (hrows : t'.canonicalTurns.ordered conversationId =
      t.canonicalTurns.ordered conversationId) :
    ConsistsOf t' conversationId turns :=
  ⟨hrows.trans h.rows, h.isTurn, h.numbered⟩

theorem ConsistsOf.length_loadRows (h : ConsistsOf t conversationId turns) :
    (t.loadRows conversationId).length = 2 * turns.length := by
  rw [Tables.length_loadRows, h.rows, length_interleave]

/-- A numbered conversation is not a legacy one. -/
theorem ConsistsOf.backfilled (h : ConsistsOf t conversationId turns) :
    t.backfilled conversationId = t := by
  unfold Tables.backfilled
  rw [if_neg]
  have hgroups := t.map_loadRows conversationId (·.turnGroupNumber)
    (fun record => record.turnGroupNumber) fun _ _ => rfl
  rw [h.rows] at hgroups
  cases hturns : turns with
  | nil =>
      rw [hturns] at hgroups
      simp [allLegacy, List.map_eq_nil_iff.mp hgroups]
  | cons turn rest =>
      have hhead : turns[0]? = some turn := by simp [hturns]
      obtain ⟨hfirst, -⟩ := numberFrom_getElem h.numbered hhead
      obtain ⟨row, rows, hrows, hrow⟩ : ∃ row rows,
          t.loadRows conversationId = row :: rows ∧ row.turnGroupNumber = 0 := by
        rw [hturns] at hgroups
        obtain ⟨row, rows, hrows, hrow, -⟩ := List.map_eq_cons_iff.mp hgroups
        exact ⟨row, rows, hrows, hrow.trans (by simpa using hfirst)⟩
      simp [hrows, allLegacy, hrow]

/-- Numbering rows of turns makes numbered turns of them. -/
theorem ordered_regrouped_interleave
    (hrows : t.canonicalTurns.ordered conversationId = interleave turns)
    (hturns : ∀ turn ∈ turns, IsTurn turn) :
    (t.regrouped conversationId).canonicalTurns.ordered conversationId =
      interleave (numberFrom 0 turns) := by
  have hgroups : turnGroups (t.loadRows conversationId) =
      turnGroups ((interleave turns).map (·.toCanonicalTurnRow)) := by
    apply turnGroups_congr
    rw [t.map_loadRows conversationId _
      (fun record => (record.hasUser, record.hasAssistant)) fun _ _ => rfl,
      hrows, List.map_map]
    rfl
  rw [Tables.ordered_regrouped, hgroups, hrows]
  exact zipWith_assignGroups hturns (by omega) (-1)

end ConsistsOf

/-! ## Ingesting a pair -/

/-- Payloads of two rows share no window of three. -/
theorem searchWindows_of_short (sha : Sha256)
    {existing incoming : List CanonicalTurnRow} (hshort : incoming.length < 3)
    (index : Nat → AnchorIndex) (sizes : List Nat)
    (hsizes : ∀ windowSize ∈ sizes, 3 ≤ windowSize) :
    searchWindows sha existing incoming index sizes = .ok none := by
  induction sizes with
  | nil => rfl
  | cons windowSize sizes ih =>
      have hsize := hsizes windowSize List.mem_cons_self
      have hrest := ih fun size hsize => hsizes size (List.mem_cons_of_mem _ hsize)
      have hindex : buildAnchorIndex sha incoming windowSize = [] := by
        unfold buildAnchorIndex
        rw [if_pos (.inr (by omega))]
      rw [searchWindows, hindex]
      split_ifs
      · exact hrest
      · exact hrest

/-- A pair aligns with a conversation of pairs only if it is that very pair. -/
theorem alignWith_pair (sha : Sha256) (index : Nat → AnchorIndex)
    {existing incoming : List CanonicalTurnRow} (hlength : incoming.length = 2)
    (hodd : existing.length ≠ 1)
    (hne : existing.map (·.turnHash) ≠ incoming.map (·.turnHash)) :
    alignWith sha index existing incoming false = .ok none := by
  unfold alignWith
  by_cases hempty : existing.isEmpty || incoming.isEmpty
  · rw [if_pos hempty]
  · rw [if_neg hempty]
    have hpos : existing ≠ [] := by
      rintro rfl
      simp at hempty
    have hlength' : existing.length ≠ 0 := by simpa using hpos
    have hshortcut : shortcutAlignment (existing.map (·.turnHash))
        (incoming.map (·.turnHash)) = none := by
      unfold shortcutAlignment
      rw [if_neg hne, if_neg, if_neg]
      · rintro ⟨hle, hdrop⟩
        simp only [List.length_map] at hle hdrop
        obtain hsame : existing.length = incoming.length := by omega
        rw [hsame, Nat.sub_self, List.drop_zero] at hdrop
        exact hne hdrop.symm
      · rintro ⟨hle, htake⟩
        simp only [List.length_map] at hle htake
        obtain hsame : existing.length = incoming.length := by omega
        rw [hsame, List.take_of_length_le (by simp)] at htake
        exact hne htake.symm
    unfold anchorFreeAlignment
    rw [hshortcut]
    simp only [Bool.false_eq_true, false_and, if_false]
    exact searchWindows_of_short sha (by omega) index [5, 4, 3] (by simp)

/-- The hash of a row with user text only. -/
def userHash (sha : Sha256) (text : String) : HexDigest :=
  (computeTurnHashFromRaw sha text "" HASH_VERSION).1

/-- The hash of a row with assistant text only. -/
def assistantHash (sha : Sha256) (text : String) : HexDigest :=
  (computeTurnHashFromRaw sha "" text HASH_VERSION).1

/-- The rows of a turn hold these two texts. -/
structure HoldsTexts (sha : Sha256) (user assistant : String)
    (turn : CanonicalTurnRecord × CanonicalTurnRecord) : Prop where
  userTexts : turn.1.userContent = user ∧ turn.1.assistantContent = ""
  assistantTexts :
    turn.2.userContent = "" ∧ turn.2.assistantContent = assistant
  userHash : turn.1.turnHash = userHash sha user
  assistantHash : turn.2.turnHash = assistantHash sha assistant

theorem HoldsTexts.isTurn {sha : Sha256} {user assistant : String}
    {turn : CanonicalTurnRecord × CanonicalTurnRecord}
    (h : HoldsTexts sha user assistant turn) (huser : user ≠ "")
    (hassistant : assistant ≠ "") : IsTurn turn := by
  obtain ⟨hfirst, hfirst'⟩ := h.userTexts
  obtain ⟨hsecond, hsecond'⟩ := h.assistantTexts
  simp [IsTurn, CanonicalTurnRow.isQuestion, CanonicalTurnRow.isAnswer,
    CanonicalTurnRow.hasUser, CanonicalTurnRow.hasAssistant, *]

section Ingest

variable {sha : Sha256} {now : String} {seen : String → Bool}
  {args : IngestSingleArgs} {t : Tables} {n : Nat}
  {turns : List (CanonicalTurnRecord × CanonicalTurnRecord)}

theorem hasCompletePair_prepared (args : IngestSingleArgs) (sha : Sha256)
    (now : String) :
    hasCompletePair (args.prepared sha now) = true ↔
      pyStrip args.userContent ≠ "" ∧ pyStrip args.assistantContent ≠ "" := by
  have hblank : pyStrip "" = "" := rfl
  simp [hasCompletePair, IngestSingleArgs.prepared, prepareMessageRow, hblank]

theorem userRow_turnHash (sha : Sha256) (now : String)
    (conversationId : ConversationId) (text : String) (raw : Option String)
    (metadata : TurnMetadata) :
    (prepareMessageRow sha now conversationId .user text raw
      metadata).turnHash = userHash sha text := by
  simp only [prepareMessageRow, userHash]

theorem assistantRow_turnHash (sha : Sha256) (now : String)
    (conversationId : ConversationId) (text : String) (raw : Option String)
    (metadata : TurnMetadata) :
    (prepareMessageRow sha now conversationId .assistant text raw
      metadata).turnHash = assistantHash sha text := by
  simp only [prepareMessageRow, assistantHash]

theorem prepared_hashes (args : IngestSingleArgs) (sha : Sha256)
    (now : String) :
    (args.prepared sha now).map (·.turnHash) =
      [userHash sha args.userContent,
        assistantHash sha args.assistantContent] := by
  simp only [IngestSingleArgs.prepared, List.map_cons, List.map_nil,
    userRow_turnHash, assistantRow_turnHash]

@[simp] theorem context_conversationId (args : IngestSingleArgs) (sha : Sha256)
    (now : String) :
    (args.context sha now).conversationId = args.conversationId := rfl

@[simp] theorem context_prepared (args : IngestSingleArgs) (sha : Sha256)
    (now : String) :
    (args.context sha now).prepared = args.prepared sha now := rfl

/-- A call that finds neither a resend nor an overlap, under the lock. -/
theorem ingestSingle_run_unmatched
    (h : ConsistsOf t args.conversationId turns) (hdrawn : t.Drawn n)
    (hresend : findResend seen (t.loadRows args.conversationId)
      (args.prepared sha now) = none)
    (hne : (t.loadRows args.conversationId).map (·.turnHash) ≠
      (args.prepared sha now).map (·.turnHash)) :
    ∃ (result : CanonicalIngestResult) (batch : IngestBatchRecord)
      (merged : CanonicalTurns),
      Merged sha (args.context sha now) t n none merged ∧
      result.rows.map (·.canonicalTurnId) =
        ((args.context sha now).newRecords sha n
          (t.loadRows args.conversationId) none).map
            (fun record => record.canonicalTurnId) ∧
      batch.batchId = n + 1 ∧
      (ingestSingle sha now seen args).run .quiet (.idle t n) =
        (.ok result, .idle
          (({ t with canonicalTurns := merged } : Tables).settled sha
            args.conversationId
            (rejectsFragment (t.loadRows args.conversationId)
              (args.prepared sha now) none) batch)
          (n + 1 + (plannedRows (t.loadRows args.conversationId)
            (args.prepared sha now) none).length)) := by
  have hlength := h.length_loadRows
  have hplaced : Placed sha (args.context sha now) false t none :=
    { found := alignWith_pair sha _ rfl
        (by rw [context_conversationId]; omega) hne
      within := nofun
      room := nofun }
  obtain ⟨counts, batch, merged, hmerged, hreports, -, hbatch, hyields⟩ :=
    ingestPreparedTurnsLocked_yields 1 (List.cons_ne_nil _ _) hdrawn hplaced
  simp only [context_conversationId, context_prepared] at hreports hyields
  refine ⟨counts.result (plannedMode (t.loadRows args.conversationId)
    (args.prepared sha now) none) batch, batch, merged, hmerged, hreports rfl,
    hbatch, conversationReconcile_run ?_⟩
  apply Yields.bind getAllCanonicalTurns_yields
  rw [h.backfilled]
  dsimp only
  rw [hresend]
  exact hyields

variable (sha now args) in
/-- A fragment beside stored turns is not stored. -/
theorem ingestSingle_run_fragment
    (h : ConsistsOf t args.conversationId turns) (hdrawn : t.Drawn n)
    (hturns : turns ≠ [])
    (hblank : ¬ (pyStrip args.userContent ≠ "" ∧
      pyStrip args.assistantContent ≠ ""))
    (hresend : findResend seen (t.loadRows args.conversationId)
      (args.prepared sha now) = none)
    (hne : (t.loadRows args.conversationId).map (·.turnHash) ≠
      (args.prepared sha now).map (·.turnHash)) :
    ∃ (result : CanonicalIngestResult) (t' : Tables) (n' : Nat),
      (ingestSingle sha now seen args).run .quiet (.idle t n) =
        (.ok result, .idle t' n') ∧
      result.rows.map (·.canonicalTurnId) = [] ∧ t'.Drawn n' ∧
      ConsistsOf t' args.conversationId turns := by
  obtain ⟨result, batch, merged, hmerged, hids, hbatch, hrun⟩ :=
    ingestSingle_run_unmatched h hdrawn hresend hne
  have hrejected : rejectsFragment (t.loadRows args.conversationId)
      (args.prepared sha now) none = true := by
    have hpair : hasCompletePair (args.prepared sha now) = false := by
      rw [Bool.eq_false_iff]
      exact fun hpair => hblank ((hasCompletePair_prepared ..).mp hpair)
    have hrows : t.loadRows args.conversationId ≠ [] := by
      intro hnil
      have hlength := h.length_loadRows
      rw [hnil, List.length_nil] at hlength
      exact hturns (List.length_eq_zero_iff.mp (by omega))
    simp [rejectsFragment, hpair, hrows]
  obtain ⟨hplanned, rfl⟩ := hmerged.of_rejected hrejected
  rw [context_conversationId, context_prepared] at hplanned
  refine ⟨result, _, _, hrun, ?_, ?_, h.congr ?_⟩
  · rw [hids, IngestContext.newRecords, context_prepared, hplanned]
    rfl
  · apply Tables.Drawn.settled
    · exact hdrawn.mono (Nat.le_trans (Nat.le_succ n) (Nat.le_add_right _ _))
    · exact hbatch.trans_le (Nat.le_add_right _ _)
  · rw [hrejected]
    rfl

/-- A new turn gets the next number when the rows are numbered. -/
theorem ConsistsOf.append {t' : Tables} {conversationId : ConversationId}
    (h : ConsistsOf t conversationId turns)
    {turn : CanonicalTurnRecord × CanonicalTurnRecord} (hturn : IsTurn turn)
    (hrows : t'.canonicalTurns.ordered conversationId =
      interleave (turns ++ [turn])) :
    ConsistsOf (t'.regrouped conversationId) conversationId
      (turns ++ [(turn.1.setGroup turns.length, turn.2.setGroup turns.length)])
    where
  rows := by
    rw [ordered_regrouped_interleave hrows, numberFrom_append, h.numbered]
    · simp [numberFrom]
    · intro other hother
      rcases List.mem_append.mp hother with hold | hnew
      · exact h.isTurn other hold
      · rwa [List.mem_singleton.mp hnew]
  isTurn other hother := by
    rcases List.mem_append.mp hother with hold | hnew
    · exact h.isTurn other hold
    · rwa [List.mem_singleton.mp hnew]
  numbered := by
    rw [numberFrom_append, h.numbered]
    simp [numberFrom, CanonicalTurnRecord.setGroup]

/-- The two records of a pair, before they are numbered. -/
def pairRecords (sha : Sha256) (now : String) (args : IngestSingleArgs)
    (n : Nat) (startKey : ℚ) : CanonicalTurnRecord × CanonicalTurnRecord :=
  (freshRecord sha now (n + 1) (n + 1 + 1)
      (prepareMessageRow sha now args.conversationId .user args.userContent
        args.userRawContent args.metadata, startKey + 1000 * (0 : Nat)),
    freshRecord sha now (n + 1) (n + 1 + 1 + 1)
      (prepareMessageRow sha now args.conversationId .assistant
        args.assistantContent args.assistantRawContent args.metadata,
        startKey + 1000 * (1 : Nat)))

theorem newRecords_pair (startKey : ℚ) :
    freshRecords sha now (n + 1) (n + 1)
        (rowsFrom startKey (args.prepared sha now)) =
      interleave [pairRecords sha now args n startKey] := by
  simp [rowsFrom, IngestSingleArgs.prepared, freshRecords, interleave,
    pairRecords]

theorem pairRecords_holdsTexts (sha : Sha256) (now : String)
    (args : IngestSingleArgs) (n : Nat) (startKey : ℚ) :
    HoldsTexts sha args.userContent args.assistantContent
      (pairRecords sha now args n startKey) where
  userTexts := ⟨rfl, rfl⟩
  assistantTexts := ⟨rfl, rfl⟩
  userHash :=
    (writtenRecord_turnHash sha now (args.prepared_hashed sha now _
      (List.mem_cons_self)) none none).trans (userRow_turnHash ..)
  assistantHash :=
    (writtenRecord_turnHash sha now (args.prepared_hashed sha now _
      (List.mem_cons_of_mem _ List.mem_cons_self)) none none).trans
        (assistantRow_turnHash ..)

variable (sha now args) in
/-- A pair of texts becomes the next turn. -/
theorem ingestSingle_run_append
    (h : ConsistsOf t args.conversationId turns) (hdrawn : t.Drawn n)
    (huser : args.userContent ≠ "") (hassistant : args.assistantContent ≠ "")
    (hkept : turns = [] ∨ pyStrip args.userContent ≠ "" ∧
      pyStrip args.assistantContent ≠ "")
    (hresend : findResend seen (t.loadRows args.conversationId)
      (args.prepared sha now) = none)
    (hne : (t.loadRows args.conversationId).map (·.turnHash) ≠
      (args.prepared sha now).map (·.turnHash)) :
    ∃ (result : CanonicalIngestResult) (t' : Tables) (n' : Nat)
      (turn : CanonicalTurnRecord × CanonicalTurnRecord),
      (ingestSingle sha now seen args).run .quiet (.idle t n) =
        (.ok result, .idle t' n') ∧
      result.rows.map (·.canonicalTurnId) =
        [turn.1.canonicalTurnId, turn.2.canonicalTurnId] ∧
      t'.Drawn n' ∧ HoldsTexts sha args.userContent args.assistantContent turn ∧
      ConsistsOf t' args.conversationId (turns ++ [turn]) := by
  obtain ⟨result, batch, merged, hmerged, hids, hbatch, hrun⟩ :=
    ingestSingle_run_unmatched h hdrawn hresend hne
  have hrejected : rejectsFragment (t.loadRows args.conversationId)
      (args.prepared sha now) none = false := by
    rcases hkept with hnil | hpair
    · have hlength := h.length_loadRows
      rw [hnil] at hlength
      simp [rejectsFragment, List.length_eq_zero_iff.mp hlength]
    · simp [rejectsFragment, (hasCompletePair_prepared ..).mpr hpair]
  obtain ⟨startKey, hplanned⟩ : ∃ startKey,
      plannedRows (t.loadRows args.conversationId) (args.prepared sha now) none =
        rowsFrom startKey (args.prepared sha now) := by
    unfold rejectsFragment at hrejected
    unfold plannedRows
    dsimp only
    split_ifs with hempty hpair
    · exact ⟨_, rfl⟩
    · exact ⟨_, rfl⟩
    · simp [hempty, hpair] at hrejected
  have hrecords : (args.context sha now).newRecords sha n
      (t.loadRows args.conversationId) none =
        interleave [pairRecords sha now args n startKey] := by
    rw [IngestContext.newRecords, context_prepared, hplanned]
    exact newRecords_pair startKey
  have hrows : merged.ordered args.conversationId =
      interleave (turns ++ [pairRecords sha now args n startKey]) := by
    have hordered := hmerged.ordered
    simp only [context_conversationId, hrecords, h.rows] at hordered
    rw [hordered, interleave_append]
    rfl
  have hholds := pairRecords_holdsTexts sha now args n startKey
  have hnumbered := ConsistsOf.append h (hholds.isTurn huser hassistant)
    (show (({ t with canonicalTurns := merged } : Tables).withBatch
      batch).canonicalTurns.ordered args.conversationId = _ from hrows)
  rw [hrejected] at hrun
  refine ⟨result, _, _, _, hrun, ?_, ?_, ?_, hnumbered.congr rfl⟩
  · rw [hids, hrecords]
    rfl
  · apply Tables.Drawn.settled
    · exact hmerged.drawn hdrawn
    · exact hbatch.trans_le (Nat.le_add_right _ _)
  · exact ⟨hholds.userTexts, hholds.assistantTexts, hholds.userHash,
      hholds.assistantHash⟩

end Ingest

end VirtualContext
