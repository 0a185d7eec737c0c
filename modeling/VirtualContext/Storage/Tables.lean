import Mathlib.Algebra.Order.Ring.Unbundled.Rat
import VirtualContext.Core.CanonicalTurns
import VirtualContext.Library.Ordered
import VirtualContext.Library.Program

/-!
# The tables of the store

`canonical_turns` carries its PRIMARY KEY and UNIQUE constraints as fields, so a
statement that would violate one has no table to produce and raises instead.
-/

namespace VirtualContext

open VirtualContext.Library

/-- The exceptions that leave a store or reconciler call. -/
inductive Exc where
  | integrityError
  | operationalError
  | indexError
  | keyError (conversationId : ConversationId)
  | lifecycleEpochMismatch (conversationId : ConversationId)
      (expected observed : Int)
  | mergeAuditMissing (tenantId mergeId : String)
  | mergeEpochMismatch (conversationId : ConversationId) (observed : Option Int)
  | crossTenantMergeError (conversationId : ConversationId)
  | mergeBusy (code : String)
  | compactionLeaseLost (operationId writeSite : String)
  deriving DecidableEq, Repr

/-- A row of `canonical_turns`: the entry, and the columns only the store reads. -/
structure CanonicalTurnRecord extends CanonicalTurnRow where
  originConversationId : String := ""
  compactionOperationId : Option String := none
  deriving DecidableEq, Repr

/-! ## The `canonical_turns` table -/

/-- The rows of `canonical_turns`, in the order they were inserted. -/
structure CanonicalTurns where
  rows : List CanonicalTurnRecord
  primaryKey : (rows.map fun row => row.canonicalTurnId).Nodup
  uniqueSortKey :
    (rows.map fun row => (row.conversationId, row.sortKey)).Nodup

namespace CanonicalTurns

@[ext] theorem ext {t t' : CanonicalTurns} (h : t.rows = t'.rows) : t = t' := by
  cases t
  cases t'
  simp_all

instance : DecidableEq CanonicalTurns := fun t t' =>
  decidable_of_iff (t.rows = t'.rows) ⟨ext, congrArg rows⟩

def empty : CanonicalTurns := ⟨[], List.nodup_nil, List.nodup_nil⟩

/-- A statement's new rows, unless they violate a constraint. -/
def ofRows (rows : List CanonicalTurnRecord) : Except Exc CanonicalTurns :=
  if h : (rows.map fun row => row.canonicalTurnId).Nodup ∧
      (rows.map fun row => (row.conversationId, row.sortKey)).Nodup
  then .ok ⟨rows, h.1, h.2⟩
  else .error .integrityError

/-- A change of columns that no constraint mentions. -/
structure ColumnUpdate where
  apply : CanonicalTurnRecord → CanonicalTurnRecord
  id_eq : ∀ row, (apply row).canonicalTurnId = row.canonicalTurnId
  conversation_eq : ∀ row, (apply row).conversationId = row.conversationId
  sortKey_eq : ∀ row, (apply row).sortKey = row.sortKey

/-- `UPDATE canonical_turns SET ...` of columns that no constraint mentions. -/
def update (t : CanonicalTurns) (f : ColumnUpdate) : CanonicalTurns where
  rows := t.rows.map f.apply
  primaryKey := by
    simpa [List.map_map, Function.comp_def, f.id_eq] using t.primaryKey
  uniqueSortKey := by
    simpa [List.map_map, Function.comp_def, f.conversation_eq, f.sortKey_eq]
      using t.uniqueSortKey

/-- `DELETE FROM canonical_turns WHERE ...` -/
def deleteWhere (t : CanonicalTurns) (p : CanonicalTurnRecord → Bool) :
    CanonicalTurns where
  rows := t.rows.filter fun row => !p row
  primaryKey := t.primaryKey.sublist (List.filter_sublist.map _)
  uniqueSortKey := t.uniqueSortKey.sublist (List.filter_sublist.map _)

/-- The rows of one conversation, `ORDER BY sort_key`. -/
def ordered (t : CanonicalTurns) (conversationId : ConversationId) :
    List CanonicalTurnRecord :=
  orderBy (fun row => row.sortKey)
    (t.rows.filter fun row => row.conversationId = conversationId)

theorem rows_nodup (t : CanonicalTurns) : t.rows.Nodup := t.primaryKey.of_map

theorem mem_ordered {t : CanonicalTurns} {conversationId : ConversationId}
    {row : CanonicalTurnRecord} :
    row ∈ t.ordered conversationId ↔
      row ∈ t.rows ∧ row.conversationId = conversationId := by
  simp [ordered]

theorem ordered_increasing (t : CanonicalTurns)
    (conversationId : ConversationId) :
    Increasing (fun row => row.sortKey) (t.ordered conversationId) := by
  apply increasing_orderBy
  rw [List.nodup_map_iff_inj_on (t.rows_nodup.filter _)]
  intro row hrow row' hrow' hkey
  obtain ⟨hmem, hconv⟩ := List.mem_filter.mp hrow
  obtain ⟨hmem', hconv'⟩ := List.mem_filter.mp hrow'
  apply List.inj_on_of_nodup_map t.uniqueSortKey hmem hmem'
  simp only [decide_eq_true_eq] at hconv hconv'
  simp [hconv, hconv', hkey]

theorem ordered_ids_nodup (t : CanonicalTurns)
    (conversationId : ConversationId) :
    ((t.ordered conversationId).map fun row => row.canonicalTurnId).Nodup := by
  rw [List.nodup_map_iff_inj_on (t.ordered_increasing conversationId).nodup]
  intro row hrow row' hrow' hid
  exact List.inj_on_of_nodup_map t.primaryKey (mem_ordered.mp hrow).1
    (mem_ordered.mp hrow').1 hid

theorem ofRows_eq_ok_iff {rows : List CanonicalTurnRecord}
    {t : CanonicalTurns} : ofRows rows = .ok t ↔ t.rows = rows := by
  unfold ofRows
  split
  · rw [Except.ok.injEq]
    constructor
    · rintro rfl
      rfl
    · intro h
      exact ext h.symm
  · rename_i hviolated
    simp only [reduceCtorEq, false_iff]
    rintro rfl
    exact hviolated ⟨t.primaryKey, t.uniqueSortKey⟩

theorem ofRows_eq_error {rows : List CanonicalTurnRecord} {exc : Exc}
    (h : ofRows rows = .error exc) : exc = .integrityError := by
  unfold ofRows at h
  split at h
  · cases h
  · exact (Except.error.inj h).symm

@[simp] theorem rows_update (t : CanonicalTurns) (f : ColumnUpdate) :
    (t.update f).rows = t.rows.map f.apply := rfl

@[simp] theorem rows_deleteWhere (t : CanonicalTurns)
    (p : CanonicalTurnRecord → Bool) :
    (t.deleteWhere p).rows = t.rows.filter fun row => !p row := rfl

@[simp] theorem ordered_update (t : CanonicalTurns) (f : ColumnUpdate)
    (conversationId : ConversationId) :
    (t.update f).ordered conversationId =
      (t.ordered conversationId).map f.apply := by
  unfold ordered
  rw [rows_update, List.filter_map]
  rw [show ((fun row => decide (row.conversationId = conversationId)) ∘ f.apply)
      = fun row => decide (row.conversationId = conversationId) by
    funext row
    simp [f.conversation_eq]]
  apply orderBy_map
  intro row _ row' _
  rw [f.sortKey_eq, f.sortKey_eq]

theorem ordered_deleteWhere (t : CanonicalTurns)
    (p : CanonicalTurnRecord → Bool) (conversationId : ConversationId) :
    (t.deleteWhere p).ordered conversationId =
      (t.ordered conversationId).filter fun row => !p row := by
  apply orderBy_eq_of_perm
  · rw [rows_deleteWhere, List.filter_comm]
    exact ((orderBy_perm _ _).symm).filter _
  · exact (t.ordered_increasing conversationId).sublist List.filter_sublist

end CanonicalTurns

/-! ## The other tables -/

structure CanonicalTurnAnchor where
  conversationId : ConversationId
  anchorHash : HexDigest
  startTurnId : Uuid
  windowSize : Nat
  deriving DecidableEq, Repr

inductive Phase where
  | init | ingesting | compacting | active | deleted | merged
  deriving DecidableEq, Repr

structure ConversationRecord where
  conversationId : ConversationId
  tenantId : String
  lifecycleEpoch : Int := 1
  phase : Phase := .init
  pendingRawPayloadEntries : Int := 0
  lastRawPayloadEntries : Int := 0
  lastIngestiblePayloadEntries : Int := 0
  createdAt : String := ""
  updatedAt : String := ""
  deletedAt : Option String := none
  deriving DecidableEq, Repr

inductive MergeAuditStatus where
  | inProgress | committed | rolledBack
  deriving DecidableEq, Repr

structure MergeAuditRecord where
  mergeId : String
  tenantId : String
  status : MergeAuditStatus
  deriving DecidableEq, Repr

inductive OperationStatus where
  | queued | running | completed | cancelled | failed | abandoned
  deriving DecidableEq, Repr

structure CompactionOperationRecord where
  operationId : String
  conversationId : ConversationId
  lifecycleEpoch : Int
  status : OperationStatus
  ownerWorkerId : String
  phaseIndex : Int := 0
  phaseCount : Int := 0
  phaseName : String := ""
  startedAt : String := ""
  completedAt : Option String := none
  heartbeatTs : String := ""
  createdAt : String := ""
  errorMessage : Option String := none
  deriving DecidableEq, Repr

/-- The statuses that the partial unique index on operations covers. -/
def CompactionOperationRecord.active (operation : CompactionOperationRecord) :
    Bool :=
  operation.status = .queued || operation.status = .running

structure IngestionEpisodeRecord where
  conversationId : ConversationId
  status : OperationStatus
  episodeId : String := ""
  lifecycleEpoch : Int := 1
  rawPayloadEntries : Int := 0
  startedAt : String := ""
  completedAt : Option String := none
  ownerWorkerId : String := ""
  heartbeatTs : String := ""
  deriving DecidableEq, Repr

/-- A row of `segments` with its rows of `segment_tags`, which go with it. -/
structure SegmentRecord extends StoredSegment where
  originConversationId : String := ""
  operationId : Option String := none
  deriving DecidableEq, Repr

/-- A row of `facts` with its rows of `fact_tags`, which go with it. -/
structure FactRecord extends Fact where
  originConversationId : String := ""
  operationId : Option String := none
  deriving DecidableEq, Repr

structure TagSummaryRecord extends TagSummary where
  conversationId : ConversationId := ""
  originConversationId : String := ""
  operationId : Option String := none
  deriving DecidableEq, Repr

structure TagSummaryEmbeddingRecord where
  tag : String
  conversationId : ConversationId
  originConversationId : String := ""
  operationId : Option String := none
  deriving DecidableEq, Repr

structure ChainSnapshotRecord where
  ref : String
  conversationId : ConversationId
  turnNumber : Int
  chainJson : String
  messageCount : Int
  toolOutputRefs : String := ""
  originConversationId : String := ""
  deriving DecidableEq, Repr

structure TurnToolOutputRecord where
  conversationId : ConversationId
  turnNumber : Int
  toolOutputRef : String
  originConversationId : String := ""
  deriving DecidableEq, Repr

structure Tables where
  canonicalTurns : CanonicalTurns := .empty
  canonicalTurnAnchors : List CanonicalTurnAnchor := []
  ingestBatches : List IngestBatchRecord := []
  conversations : List ConversationRecord := []
  mergeAudit : List MergeAuditRecord := []
  compactionOperation : List CompactionOperationRecord := []
  ingestionEpisode : List IngestionEpisodeRecord := []
  segments : List SegmentRecord := []
  facts : List FactRecord := []
  tagSummaries : List TagSummaryRecord := []
  tagSummaryEmbeddings : List TagSummaryEmbeddingRecord := []
  chainSnapshots : List ChainSnapshotRecord := []
  turnToolOutputs : List TurnToolOutputRecord := []
  deriving DecidableEq

namespace Tables

/-- `SELECT ... FROM conversations WHERE conversation_id = ?` -/
def conversation? (t : Tables) (conversationId : ConversationId) :
    Option ConversationRecord :=
  t.conversations.find? (·.conversationId = conversationId)

/-- Every identifier that is stored was drawn before. -/
structure Drawn (t : Tables) (supply : Nat) : Prop where
  turns : ∀ row ∈ t.canonicalTurns.rows,
    0 < row.canonicalTurnId ∧ row.canonicalTurnId ≤ supply
  anchors : ∀ anchor ∈ t.canonicalTurnAnchors, anchor.startTurnId ≤ supply
  batches : ∀ batch ∈ t.ingestBatches, batch.batchId ≤ supply

theorem Drawn.mono {t : Tables} {supply supply' : Nat} (h : t.Drawn supply)
    (hle : supply ≤ supply') : t.Drawn supply' where
  turns row hrow := ⟨(h.turns row hrow).1, (h.turns row hrow).2.trans hle⟩
  anchors anchor ha := (h.anchors anchor ha).trans hle
  batches batch hb := (h.batches batch hb).trans hle

end Tables

/-- A store at rest: its tables, and the identifiers drawn so far. -/
structure Store where
  tables : Tables
  supply : Nat
  drawn : tables.Drawn supply

namespace Store

/-- A connection to the store with no open transaction. -/
def conn (s : Store) : Conn Tables := .idle s.tables s.supply

/-- A database with the given turns and neither anchors nor batches. -/
def holding (conversations : List ConversationRecord) (turns : CanonicalTurns)
    (supply : Nat)
    (h : ∀ row ∈ turns.rows,
      0 < row.canonicalTurnId ∧ row.canonicalTurnId ≤ supply) : Store where
  tables := { conversations, canonicalTurns := turns }
  supply := supply
  drawn := ⟨h, by simp, by simp⟩

/-- A database with no turns, anchors or batches. -/
def fresh (conversations : List ConversationRecord) : Store :=
  holding conversations .empty 0 (by simp [CanonicalTurns.empty])

end Store

/-! ## Loading rows -/

/-- `value or None` for a nullable text column. -/
def orNone (value : Option String) : Option String :=
  value.filter (· != "")

/-- `value or default` for a nullable text. -/
def orText (value : Option String) (default : String) : String :=
  (orNone value).getD default

/-- `_row_to_canonical_turn`, with the ordinal that the view computes. -/
def rowToCanonicalTurn (turnNumber : Nat) (record : CanonicalTurnRecord) :
    CanonicalTurnRow :=
  { record.toCanonicalTurnRow with
    turnNumber := turnNumber
    primaryTag := orText (some record.primaryTag) "_general"
    taggedAt := orNone record.taggedAt
    compactedAt := orNone record.compactedAt
    firstSeenAt := orNone record.firstSeenAt
    lastSeenAt := orNone record.lastSeenAt
    sourceBatchId := record.sourceBatchId.filter (· != 0) }

namespace Tables

/--
`canonical_turns_ordinal` of one conversation.  The view also orders by
`first_seen_at` and the identifier, which never decide: sort keys are unique.
-/
def loadRows (t : Tables) (conversationId : ConversationId) :
    List CanonicalTurnRow :=
  (t.canonicalTurns.ordered conversationId).mapIdx rowToCanonicalTurn

end Tables

end VirtualContext
