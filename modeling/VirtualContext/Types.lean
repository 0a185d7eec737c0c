import Mathlib.Data.Rat.Init
import Mathlib.Data.List.Basic

/-!
# Rows of the canonical transcript

The record types that ingestion, storage and compaction exchange.  Sort keys
are exact rationals, timestamps are ISO strings, and a generated identifier is
a number: `0` stands for the empty string, which identifies nothing.
-/

namespace VirtualContext

abbrev Uuid := Nat

abbrev ConversationId := String

/-- A `hexdigest()`, as its list of hex digits. -/
abbrev HexDigest := List (Fin 16)

structure FactSignal where
  subject : String := ""
  verb : String := ""
  object : String := ""
  status : String := ""
  factType : String := "personal"
  what : String := ""
  deriving DecidableEq, Repr

/-- A normalized code reference: the file, and a line and symbol if known. -/
structure CodeRef where
  file : String
  line : Option Nat := none
  symbol : String := ""
  deriving DecidableEq, Repr

/-- Canonical archived transcript entry with explicit turn-group metadata. -/
structure CanonicalTurnRow where
  conversationId : ConversationId
  canonicalTurnId : Uuid := 0
  turnNumber : Int := -1
  turnGroupNumber : Int := -1
  sortKey : ℚ := 0
  turnHash : HexDigest := []
  hashVersion : Nat := 0
  normalizedUserText : String := ""
  normalizedAssistantText : String := ""
  userContent : String := ""
  assistantContent : String := ""
  userRawContent : Option String := none
  assistantRawContent : Option String := none
  primaryTag : String := "_general"
  tags : List String := []
  sessionDate : String := ""
  sender : String := ""
  factSignals : List FactSignal := []
  codeRefs : List CodeRef := []
  taggedAt : Option String := none
  compactedAt : Option String := none
  firstSeenAt : Option String := none
  lastSeenAt : Option String := none
  sourceBatchId : Option Uuid := none
  coveredIngestibleEntries : Nat := 1
  createdAt : String := ""
  updatedAt : String := ""
  deriving DecidableEq, Repr

/-- A message of a stored segment. -/
structure SegmentMessage where
  role : String
  content : String
  deriving DecidableEq, Repr

structure SegmentMetadata where
  entities : List String := []
  keyDecisions : List String := []
  actionItems : List String := []
  dateReferences : List String := []
  codeRefs : List CodeRef := []
  turnCount : Int := 0
  canonicalTurnIds : List Uuid := []
  startTurnNumber : Int := -1
  endTurnNumber : Int := -1
  generatedByTurnId : String := ""
  sessionDate : String := ""
  deriving DecidableEq, Repr

structure StoredSegment where
  ref : String
  conversationId : ConversationId := ""
  primaryTag : String := "_general"
  tags : List String := []
  summary : String := ""
  summaryTokens : Int := 0
  fullText : String := ""
  fullTokens : Int := 0
  messages : List SegmentMessage := []
  metadata : SegmentMetadata := {}
  createdAt : String := ""
  startTimestamp : String := ""
  endTimestamp : String := ""
  compactionModel : String := ""
  compressionRatio : ℚ := 0
  deriving DecidableEq, Repr

structure Fact where
  id : String
  subject : String := ""
  verb : String := ""
  object : String := ""
  status : String := "active"
  what : String := ""
  who : String := ""
  whenDate : String := ""
  whereText : String := ""
  why : String := ""
  factType : String := "personal"
  tags : List String := []
  segmentRef : String := ""
  conversationId : ConversationId := ""
  turnNumbers : List Int := []
  mentionedAt : String := ""
  sessionDate : String := ""
  supersededBy : Option String := none
  deriving DecidableEq, Repr

/-- One for each cover tag; it rolls up all segment summaries of that tag. -/
structure TagSummary where
  tag : String
  summary : String := ""
  description : String := ""
  summaryTokens : Int := 0
  sourceSegmentRefs : List String := []
  sourceTurnNumbers : List Int := []
  sourceCanonicalTurnIds : List Uuid := []
  codeRefs : List CodeRef := []
  coversThroughTurn : Int := -1
  coversThroughCanonicalTurnId : Uuid := 0
  generatedByTurnId : String := ""
  createdAt : String := ""
  updatedAt : String := ""
  deriving DecidableEq, Repr

inductive MergeMode where
  | emptyPayload
  | fragmentRejected
  | noOverlapAppend
  | exactResend
  | tailAppend
  | prefixWidening
  | interiorOverlap
  deriving DecidableEq, Repr

structure IngestBatchRecord where
  batchId : Uuid
  conversationId : ConversationId
  receivedAt : String
  rawTurnCount : Nat
  mergeMode : MergeMode
  turnsMatched : Nat := 0
  turnsAppended : Nat := 0
  turnsPrepended : Nat := 0
  turnsInserted : Nat := 0
  firstTurnHash : HexDigest := []
  lastTurnHash : HexDigest := []
  deriving DecidableEq, Repr

structure CanonicalIngestResult where
  mergeMode : MergeMode
  turnsWritten : Nat
  turnsMatched : Nat
  turnsAppended : Nat
  turnsPrepended : Nat
  turnsInserted : Nat
  batch : Option IngestBatchRecord := none
  rows : List CanonicalTurnRow := []
  deriving DecidableEq, Repr

namespace CanonicalTurnRow

/-- `bool(row.user_content)` -/
def hasUser (row : CanonicalTurnRow) : Bool := row.userContent != ""

/-- `bool(row.assistant_content)` -/
def hasAssistant (row : CanonicalTurnRow) : Bool := row.assistantContent != ""

/-- Neither half of the turn holds any text. -/
def isBlank (row : CanonicalTurnRow) : Bool := !row.hasUser && !row.hasAssistant

def setGroup (row : CanonicalTurnRow) (group : Int) : CanonicalTurnRow :=
  { row with turnGroupNumber := group }

@[simp] theorem setGroup_group (row : CanonicalTurnRow) (group : Int) :
    (row.setGroup group).turnGroupNumber = group := rfl

@[simp] theorem setGroup_id (row : CanonicalTurnRow) (group : Int) :
    (row.setGroup group).canonicalTurnId = row.canonicalTurnId := rfl

@[simp] theorem setGroup_conversation (row : CanonicalTurnRow) (group : Int) :
    (row.setGroup group).conversationId = row.conversationId := rfl

@[simp] theorem setGroup_sortKey (row : CanonicalTurnRow) (group : Int) :
    (row.setGroup group).sortKey = row.sortKey := rfl

@[simp] theorem setGroup_turnHash (row : CanonicalTurnRow) (group : Int) :
    (row.setGroup group).turnHash = row.turnHash := rfl

@[simp] theorem setGroup_hasUser (row : CanonicalTurnRow) (group : Int) :
    (row.setGroup group).hasUser = row.hasUser := rfl

@[simp] theorem setGroup_hasAssistant (row : CanonicalTurnRow) (group : Int) :
    (row.setGroup group).hasAssistant = row.hasAssistant := rfl

@[simp] theorem setGroup_setGroup (row : CanonicalTurnRow) (g g' : Int) :
    (row.setGroup g).setGroup g' = row.setGroup g' := rfl

@[simp] theorem setGroup_self (row : CanonicalTurnRow) :
    row.setGroup row.turnGroupNumber = row := rfl

end CanonicalTurnRow

end VirtualContext
