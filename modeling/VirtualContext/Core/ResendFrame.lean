import VirtualContext.Core.ResendRuns

/-!
# What an exact resend does to the rows it matches

The prepared rows overwrite the stored ones.  Only the session date and the
group number are inherited, so everything else that tagging, compaction or an
ingest batch had recorded on a matched row is replaced.
-/

namespace VirtualContext

open VirtualContext.Library

/-- No work that was recorded on the row is undone. -/
structure KeepsWork (old new : CanonicalTurnRow) : Prop where
  taggedAt : old.taggedAt ≠ none → new.taggedAt ≠ none
  compactedAt : old.compactedAt ≠ none → new.compactedAt ≠ none
  sortKey : new.sortKey = old.sortKey
  turnGroupNumber : new.turnGroupNumber = old.turnGroupNumber
  sourceBatchId : new.sourceBatchId = old.sourceBatchId
  tags : old.tags ≠ [] → new.tags ≠ []
  primaryTag : old.primaryTag ≠ "" → old.primaryTag ≠ "_general" →
    new.primaryTag ≠ "" ∧ new.primaryTag ≠ "_general"
  sessionDate : old.sessionDate ≠ "" → new.sessionDate ≠ ""
  sender : old.sender ≠ "" → new.sender ≠ ""
  factSignals : old.factSignals ≠ [] → new.factSignals ≠ []
  codeRefs : old.codeRefs ≠ [] → new.codeRefs ≠ []

/-- The row holds nothing that a resend with this metadata would undo. -/
structure NothingToLose (metadata : TurnMetadata) (old : CanonicalTurnRow) :
    Prop where
  taggedAt : old.taggedAt = none
  compactedAt : old.compactedAt = none
  turnGroupNumber : old.turnGroupNumber = -1 ∨ 0 ≤ old.turnGroupNumber
  sourceBatchId : old.sourceBatchId = none
  tags : old.tags = [] ∨ metadata.tags ≠ []
  primaryTag : old.primaryTag = "_general" ∨
    (metadata.primaryTag ≠ "" ∧ metadata.primaryTag ≠ "_general")
  sessionDate : old.sessionDate = "" ∨ metadata.sessionDate ≠ "" ∨
    pyStrip old.sessionDate ≠ ""
  sender : old.sender = "" ∨ metadata.sender ≠ ""
  factSignals : old.factSignals = [] ∨ metadata.factSignals ≠ []
  codeRefs : old.codeRefs = [] ∨ metadata.codeRefs ≠ []

/-! ## One row -/

section Row

variable {now : String} {row existingRow : CanonicalTurnRow}

theorem resendRow_sessionDate :
    (resendRow now row existingRow).sessionDate =
      if pyStrip row.sessionDate = "" ∧ pyStrip existingRow.sessionDate ≠ ""
      then existingRow.sessionDate else row.sessionDate := by
  unfold resendRow preserveExistingEnrichment
  dsimp only
  split_ifs <;> rfl

theorem resendRow_group :
    (resendRow now row existingRow).turnGroupNumber =
      if row.turnGroupNumber < 0 ∧ 0 ≤ existingRow.turnGroupNumber
      then existingRow.turnGroupNumber else row.turnGroupNumber := by
  unfold resendRow preserveExistingEnrichment
  dsimp only
  split_ifs <;> first | rfl | simp_all

/-- Everything else is taken from the prepared row. -/
theorem resendRow_columns (now : String) (row existingRow : CanonicalTurnRow) :
    (resendRow now row existingRow).taggedAt = row.taggedAt ∧
      (resendRow now row existingRow).compactedAt = row.compactedAt ∧
      (resendRow now row existingRow).sourceBatchId = row.sourceBatchId ∧
      (resendRow now row existingRow).tags = row.tags ∧
      (resendRow now row existingRow).primaryTag = row.primaryTag ∧
      (resendRow now row existingRow).sender = row.sender ∧
      (resendRow now row existingRow).factSignals = row.factSignals ∧
      (resendRow now row existingRow).codeRefs = row.codeRefs := by
  unfold resendRow preserveExistingEnrichment
  dsimp only
  split_ifs <;> exact ⟨rfl, rfl, rfl, rfl, rfl, rfl, rfl, rfl⟩

theorem orText_some (text default : String) :
    orText (some text) default = if text = "" then default else text := by
  by_cases h : text = "" <;> simp [orText, orNone, Option.filter, h]

/-- The loaded view of a row that a resend has written. -/
def resentView (sha : Sha256) (now : String) (ordinal : Nat)
    (record : CanonicalTurnRecord)
    (pair : CanonicalTurnRow × CanonicalTurnRow) : CanonicalTurnRow :=
  rowToCanonicalTurn ordinal (record.overwrite (resendRecord sha now pair))

/-- The columns that are loaded after a row was written over a record. -/
theorem written_columns (sha : Sha256) (now : String) (ordinal : Nat)
    (record : CanonicalTurnRecord) (row : CanonicalTurnRow)
    (firstSeenAt lastSeenAt : Option String) :
    let view := rowToCanonicalTurn ordinal
      (record.overwrite (writtenRecord sha now row firstSeenAt lastSeenAt))
    view.taggedAt = orNone row.taggedAt ∧
      view.compactedAt = orNone row.compactedAt ∧
      view.sortKey = row.sortKey ∧
      view.turnGroupNumber = row.turnGroupNumber ∧
      view.sourceBatchId =
        (row.sourceBatchId.filter (· != 0)).filter (· != 0) ∧
      view.tags = row.tags ∧
      view.primaryTag =
        orText (some (orText (some row.primaryTag) "_general")) "_general" ∧
      view.sessionDate = row.sessionDate ∧
      view.sender = row.sender ∧
      view.factSignals = row.factSignals ∧
      view.codeRefs = row.codeRefs :=
  ⟨rfl, rfl, rfl, rfl, rfl, rfl, rfl, rfl, rfl, rfl, rfl⟩

theorem written_id (sha : Sha256) (now : String) (ordinal : Nat)
    (record : CanonicalTurnRecord) (row : CanonicalTurnRow)
    (firstSeenAt lastSeenAt : Option String) :
    (rowToCanonicalTurn ordinal (record.overwrite
      (writtenRecord sha now row firstSeenAt lastSeenAt))).canonicalTurnId =
      row.canonicalTurnId := rfl

/-- What a row prepared from a message brings along. -/
theorem resentView_prepared (sha : Sha256) (now : String) (ordinal : Nat)
    (record : CanonicalTurnRecord) (conversationId : ConversationId)
    (role : Role) (content : String) (rawContent : Option String)
    (metadata : TurnMetadata) (existingRow : CanonicalTurnRow) :
    let view := resentView sha now ordinal record
      (prepareMessageRow sha now conversationId role content rawContent metadata,
        existingRow)
    view.taggedAt = none ∧ view.compactedAt = none ∧
      view.sortKey = existingRow.sortKey ∧
      view.turnGroupNumber = (if 0 ≤ existingRow.turnGroupNumber
        then existingRow.turnGroupNumber else -1) ∧
      view.sourceBatchId = none ∧ view.tags = metadata.tags ∧
      view.primaryTag =
        (if metadata.primaryTag = "" then "_general" else metadata.primaryTag) ∧
      view.sessionDate =
        (if pyStrip metadata.sessionDate = "" ∧
            pyStrip existingRow.sessionDate ≠ ""
          then existingRow.sessionDate else metadata.sessionDate) ∧
      view.sender = metadata.sender ∧
      view.factSignals = metadata.factSignals ∧
      view.codeRefs = metadata.codeRefs := by
  rw [resentView, resendRecord]
  obtain ⟨htagged, hcompacted, hkey, hgroup, hbatch, htags, hprimary, hdate,
    hsender, hfacts, hrefs⟩ := written_columns sha now ordinal record
      (resendRow now (prepareMessageRow sha now conversationId role content
        rawContent metadata) existingRow) _ _
  obtain ⟨wtagged, wcompacted, wbatch, wtags, wprimary, wsender, wfacts, wrefs⟩ :=
    resendRow_columns now (prepareMessageRow sha now conversationId role content
      rawContent metadata) existingRow
  rw [wtagged] at htagged
  rw [wcompacted] at hcompacted
  rw [resendRow_sortKey] at hkey
  rw [resendRow_group] at hgroup
  rw [wbatch] at hbatch
  rw [wtags] at htags
  rw [wprimary] at hprimary
  rw [resendRow_sessionDate] at hdate
  rw [wsender] at hsender
  rw [wfacts] at hfacts
  rw [wrefs] at hrefs
  refine ⟨htagged, hcompacted, hkey, ?_, hbatch, htags, ?_, hdate, hsender,
    hfacts, hrefs⟩
  · rw [hgroup]
    simp [prepareMessageRow]
  · rw [hprimary]
    simp only [prepareMessageRow, orText_some]
    split_ifs <;> simp_all

/-- Whether the resend keeps the work on a row is decided by its old values. -/
theorem keepsWork_iff {sha : Sha256} {ordinal ordinal' : Nat}
    {record : CanonicalTurnRecord} {conversationId : ConversationId}
    {role : Role} {content : String} {rawContent : Option String}
    {metadata : TurnMetadata} :
    KeepsWork (rowToCanonicalTurn ordinal record)
        (resentView sha now ordinal' record
          (prepareMessageRow sha now conversationId role content rawContent
            metadata, rowToCanonicalTurn ordinal record)) ↔
      NothingToLose metadata (rowToCanonicalTurn ordinal record) := by
  obtain ⟨htagged, hcompacted, hkey, hgroup, hbatch, htags, hprimary, hdate,
    hsender, hfacts, hrefs⟩ := resentView_prepared sha now ordinal'
      record conversationId role content rawContent metadata
      (rowToCanonicalTurn ordinal record)
  have hnamed : (rowToCanonicalTurn ordinal record).primaryTag ≠ "" := by
    change orText (some record.primaryTag) "_general" ≠ ""
    rw [orText_some]
    split_ifs with h
    · decide
    · exact h
  generalize resentView sha now ordinal' record _ = new at *
  generalize rowToCanonicalTurn ordinal record = old at *
  constructor
  · intro h
    refine ⟨?_, ?_, ?_, ?_, ?_, ?_, ?_, ?_, ?_, ?_⟩
    · by_contra hne
      exact h.taggedAt hne htagged
    · by_contra hne
      exact h.compactedAt hne hcompacted
    · have heq := h.turnGroupNumber
      rw [hgroup] at heq
      split_ifs at heq with hpos
      · exact .inr hpos
      · exact .inl heq.symm
    · rw [← h.sourceBatchId, hbatch]
    · have := h.tags
      rw [htags] at this
      exact or_iff_not_imp_left.mpr this
    · have := h.primaryTag hnamed
      rw [hprimary] at this
      refine or_iff_not_imp_left.mpr fun hne => ?_
      have hnew := (this hne).2
      split_ifs at hnew with hempty
      · exact absurd rfl hnew
      · exact ⟨hempty, hnew⟩
    · have := h.sessionDate
      rw [hdate] at this
      refine or_iff_not_imp_left.mpr fun hne => ?_
      have hnew := this hne
      split_ifs at hnew with hinherit
      · exact .inr hinherit.2
      · exact .inl hnew
    · have := h.sender
      rw [hsender] at this
      exact or_iff_not_imp_left.mpr this
    · have := h.factSignals
      rw [hfacts] at this
      exact or_iff_not_imp_left.mpr this
    · have := h.codeRefs
      rw [hrefs] at this
      exact or_iff_not_imp_left.mpr this
  · intro h
    refine ⟨fun hne => absurd h.taggedAt hne,
      fun hne => absurd h.compactedAt hne, hkey, ?_, ?_, ?_, ?_, ?_, ?_, ?_, ?_⟩
    · rw [hgroup]
      split_ifs with hpos
      · rfl
      · rcases h.turnGroupNumber with heq | hge
        · exact heq.symm
        · exact absurd hge hpos
    · rw [hbatch, h.sourceBatchId]
    · rw [htags]
      exact fun hne => h.tags.resolve_left hne
    · intro _ hne
      obtain ⟨hempty, hnew⟩ := h.primaryTag.resolve_left hne
      rw [hprimary, if_neg hempty]
      exact ⟨hempty, hnew⟩
    · intro hne
      rw [hdate]
      split_ifs with hinherit
      · exact hne
      · rcases h.sessionDate.resolve_left hne with hnew | hold
        · exact hnew
        · rintro hempty
          apply hinherit
          rw [hempty]
          exact ⟨rfl, hold⟩
    · rw [hsender]
      exact fun hne => h.sender.resolve_left hne
    · rw [hfacts]
      exact fun hne => h.factSignals.resolve_left hne
    · rw [hrefs]
      exact fun hne => h.codeRefs.resolve_left hne

end Row

/-! ## The whole call -/

section Call

variable {sha : Sha256} {now : String} {seen : String → Bool}
  {args : IngestSingleArgs} {t : Tables}

theorem IngestSingleArgs.mem_prepared {row : CanonicalTurnRow}
    (h : row ∈ args.prepared sha now) :
    ∃ role content rawContent, row = prepareMessageRow sha now
      args.conversationId role content rawContent args.metadata := by
  rcases List.mem_pair.mp h with rfl | rfl
  · exact ⟨_, _, _, rfl⟩
  · exact ⟨_, _, _, rfl⟩

variable (sha now) in
/-- What is loaded in the place of a matched row. -/
theorem exists_resentView {prepared recent : List CanonicalTurnRow}
    {conversationId : ConversationId}
    (hrecent : recent.Sublist (t.loadRows conversationId))
    (hlength : recent.length = prepared.length) {old : CanonicalTurnRow}
    (hold : old ∈ recent) :
    ∃ row ∈ prepared, ∃ ordinal record,
      old = rowToCanonicalTurn ordinal record ∧
      resentView sha now ordinal record (row, old) ∈
        (t.resent sha now (prepared.zip recent)).loadRows conversationId := by
  obtain ⟨j, hj, rfl⟩ := List.getElem_of_mem hold
  have hj' : j < prepared.length := hlength ▸ hj
  obtain ⟨i, hi, heq⟩ := List.getElem_of_mem (hrecent.subset hold)
  have hi' : i < (t.canonicalTurns.ordered conversationId).length := by
    rwa [Tables.length_loadRows] at hi
  have hview : recent[j] = rowToCanonicalTurn i
      (t.canonicalTurns.ordered conversationId)[i] := by
    rw [← heq]
    simp [Tables.loadRows]
  have hpair : (prepared[j], recent[j]) ∈ prepared.zip recent :=
    List.mem_of_getElem? (i := j) (by simp [hj, hj'])
  have hwritten := resendAll_matched sha now
    (zip_recent_ids_nodup hrecent hlength) hpair
    (show (t.canonicalTurns.ordered conversationId)[i].canonicalTurnId = _ by
      rw [hview]
      rfl)
    (by
      rw [hview]
      rfl)
  refine ⟨prepared[j], List.getElem_mem hj', i, _, hview, ?_⟩
  rw [loadRows_resent]
  apply List.mem_of_getElem? (i := i)
  simp [hi', hwritten, resentView]

theorem resentView_id (ordinal : Nat) (record : CanonicalTurnRecord)
    (row old : CanonicalTurnRow) :
    (resentView sha now ordinal record (row, old)).canonicalTurnId =
      old.canonicalTurnId := by
  rw [resentView, resendRecord, written_id, resendRow_id]

/-- Every row that the resend matched is still there with its work. -/
def ResendKeepsWork (recent before after : List CanonicalTurnRow) : Prop :=
  ∀ old ∈ before, old.canonicalTurnId ∈ recent.map (·.canonicalTurnId) →
    ∃ new ∈ after, new.canonicalTurnId = old.canonicalTurnId ∧ KeepsWork old new

/-- Two rows of one list under one identifier are one row. -/
theorem row_unique {rows : List CanonicalTurnRow}
    (hids : (rows.map (·.canonicalTurnId)).Nodup) {row row' : CanonicalTurnRow}
    (hrow : row ∈ rows) (hrow' : row' ∈ rows)
    (hid : row.canonicalTurnId = row'.canonicalTurnId) : row = row' :=
  List.inj_on_of_nodup_map hids hrow hrow' hid

/-- In a numbered conversation the old values of the matched rows decide. -/
theorem resent_keepsWork_iff {recent : List CanonicalTurnRow}
    (hrecent : recent.Sublist (t.loadRows args.conversationId))
    (hlength : recent.length = (args.prepared sha now).length) :
    ResendKeepsWork recent (t.loadRows args.conversationId)
        ((t.resent sha now ((args.prepared sha now).zip recent)).loadRows
          args.conversationId) ↔
      ∀ old ∈ recent, NothingToLose args.metadata old := by
  have hview : ∀ old ∈ recent,
      ∃ new ∈ (t.resent sha now ((args.prepared sha now).zip recent)).loadRows
          args.conversationId, new.canonicalTurnId = old.canonicalTurnId ∧
        (KeepsWork old new ↔ NothingToLose args.metadata old) := by
    intro old hold
    obtain ⟨row, hrow, ordinal, record, rfl, hmem⟩ :=
      exists_resentView sha now hrecent hlength hold
    obtain ⟨role, content, rawContent, rfl⟩ := args.mem_prepared hrow
    exact ⟨_, hmem, resentView_id _ _ _ _, keepsWork_iff⟩
  constructor
  · intro h old hold
    obtain ⟨new, hnew, hid, hiff⟩ := hview old hold
    obtain ⟨new', hnew', hid', hkeeps⟩ := h old (hrecent.subset hold)
      (List.mem_map_of_mem hold)
    obtain rfl := row_unique (Tables.loadRows_ids_nodup _ _) hnew hnew'
      (hid.trans hid'.symm)
    exact hiff.mp hkeeps
  · intro h old hold hmatched
    obtain ⟨old', hold', hid'⟩ := List.mem_map.mp hmatched
    obtain rfl := row_unique (t.loadRows_ids_nodup _) (hrecent.subset hold') hold
      hid'
    obtain ⟨new, hnew, hid, hiff⟩ := hview old' hold'
    exact ⟨new, hnew, hid, hiff.mpr (h old' hold')⟩

/-- In an all-legacy conversation the matched rows get numbers. -/
theorem resent_renumbers {recent : List CanonicalTurnRow}
    (hlegacy : allLegacy (t.loadRows args.conversationId) = true)
    (hrecent : recent.Sublist (args.existing t))
    (hlength : recent.length = (args.prepared sha now).length) :
    ¬ ResendKeepsWork recent (t.loadRows args.conversationId)
        (((t.backfilled args.conversationId).resent sha now
          ((args.prepared sha now).zip recent)).loadRows
            args.conversationId) := by
  intro h
  obtain ⟨numbered, hnumbered⟩ : ∃ row, row ∈ recent := by
    apply List.exists_mem_of_length_pos
    rw [hlength]
    simp [IngestSingleArgs.prepared]
  obtain ⟨row, hrow, ordinal, record, -, hview⟩ := exists_resentView
    sha now hrecent hlength hnumbered
  obtain ⟨role, content, rawContent, rfl⟩ := args.mem_prepared hrow
  have hexisting := hrecent.subset hnumbered
  rw [IngestSingleArgs.existing, Tables.backfilled, if_pos hlegacy,
    Tables.loadRows_regrouped] at hexisting
  obtain ⟨i, hi, rfl⟩ := List.getElem_of_mem hexisting
  have hi' : i < (t.loadRows args.conversationId).length := by
    simpa using hi
  obtain ⟨new, hnew, hid, hkeeps⟩ := h (t.loadRows args.conversationId)[i]
    (List.getElem_mem hi')
    (List.mem_map.mpr ⟨_, hnumbered, by simp [CanonicalTurnRow.setGroup]⟩)
  obtain rfl := row_unique (Tables.loadRows_ids_nodup _ _) hnew hview
    (hid.trans (by rw [resentView_id]; simp [CanonicalTurnRow.setGroup]))
  have hgroup := hkeeps.turnGroupNumber
  obtain ⟨-, -, -, hnumber, -⟩ := resentView_prepared sha now ordinal
    record args.conversationId role content rawContent args.metadata
    (List.zipWith CanonicalTurnRow.setGroup (t.loadRows args.conversationId)
      (turnGroups (t.loadRows args.conversationId)))[i]
  have hnonneg : 0 ≤ (List.zipWith CanonicalTurnRow.setGroup
      (t.loadRows args.conversationId)
      (turnGroups (t.loadRows args.conversationId)))[i].turnGroupNumber := by
    simpa [CanonicalTurnRow.setGroup] using
      turnGroups_nonneg (t.loadRows args.conversationId) _
        (List.getElem_mem (by simpa using hi'))
  have hunset : (t.loadRows args.conversationId)[i].turnGroupNumber < 0 := by
    simp only [allLegacy, Bool.and_eq_true, List.all_eq_true,
      decide_eq_true_eq] at hlegacy
    exact hlegacy.2 _ (List.getElem_mem hi')
  rw [hnumber, if_pos hnonneg] at hgroup
  omega

/--
An exact resend keeps the work on the rows it matches exactly if the
conversation has numbers and no matched row holds anything to lose.
-/
theorem resend_keeps_work_iff (sha : Sha256) (now : String)
    (seen : String → Bool) (args : IngestSingleArgs) (s : Store)
    {recent : List CanonicalTurnRow}
    (hresend : findResend seen (args.existing s.tables) (args.prepared sha now) =
      some recent) :
    ∃ result c, (ingestSingle sha now seen args).run .quiet s.conn =
        (.ok result, c) ∧
      result.mergeMode = .exactResend ∧
      (ResendKeepsWork recent (s.tables.loadRows args.conversationId)
          (c.durable.loadRows args.conversationId) ↔
        allLegacy (s.tables.loadRows args.conversationId) = false ∧
          ∀ old ∈ recent, NothingToLose args.metadata old) := by
  obtain ⟨hsub, hhashes, -⟩ := findResend_spec hresend
  have hlength : recent.length = (args.prepared sha now).length := by
    simpa using congrArg List.length hhashes
  obtain ⟨result, hrun, hmode⟩ := ingestSingle_run_resend s.drawn hresend
  refine ⟨result, _, hrun, hmode, ?_⟩
  change ResendKeepsWork recent _ (((s.tables.backfilled
    args.conversationId).resent sha now
      ((args.prepared sha now).zip recent)).loadRows args.conversationId) ↔ _
  cases hlegacy : allLegacy (s.tables.loadRows args.conversationId)
  · rw [IngestSingleArgs.existing, Tables.backfilled,
      if_neg (by simp [hlegacy])] at hsub
    rw [Tables.backfilled, if_neg (by simp [hlegacy])]
    simpa using resent_keepsWork_iff hsub hlength
  · simpa using resent_renumbers hlegacy hsub hlength

end Call

/-- One exchange, ingested and then compacted. -/
def compactedChat : Store where
  tables := ((markCanonicalTurnsCompacted 0 "u" "chat" [2, 3] (some "u") none).run
    .quiet (runCalls .spelled [chatCall (exchange "a" "b")] emptyChat)).2.durable
  supply := 3
  drawn := by constructor <;> decide +kernel

/-- The same exchange once more, right away. -/
def sameExchange : IngestSingleArgs where
  conversationId := "chat"
  userContent := "a"
  assistantContent := "b"

theorem resend_keeps_work_iff_compacted :
    ∃ result c, (ingestSingle .spelled "v" (seenRecently fun _ => some 0)
        sameExchange).run .quiet compactedChat.conn = (.ok result, c) ∧
      result.mergeMode = .exactResend ∧
      (ResendKeepsWork (compactedChat.tables.loadRows "chat")
          (compactedChat.tables.loadRows "chat") (c.durable.loadRows "chat") ↔
        allLegacy (compactedChat.tables.loadRows "chat") = false ∧
          ∀ old ∈ compactedChat.tables.loadRows "chat",
            NothingToLose sameExchange.metadata old) :=
  resend_keeps_work_iff .spelled "v" (seenRecently fun _ => some 0) sameExchange
    compactedChat (by decide +kernel)

/-- The resend takes the batch and the compaction mark off both rows. -/
theorem resend_clears_compaction :
    (compactedChat.tables.loadRows "chat").map
        (fun row => (row.compactedAt, row.sourceBatchId)) =
      [(some "u", some 1), (some "u", some 1)] ∧
    let resend := (ingestSingle .spelled "v" (seenRecently fun _ => some 0)
      sameExchange).run .quiet compactedChat.conn
    resend.1.toOption.map (·.mergeMode) = some .exactResend ∧
      (resend.2.durable.loadRows "chat").map
          (fun row => (row.canonicalTurnId, row.compactedAt, row.sourceBatchId)) =
        [(2, none, none), (3, none, none)] := by
  decide +kernel

end VirtualContext
