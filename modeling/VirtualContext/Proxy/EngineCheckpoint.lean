import Mathlib.Data.Finset.Sort
import Mathlib.Data.String.Basic
import VirtualContext.Core.PagingManager
import VirtualContext.Core.TurnTagIndex
import VirtualContext.Proxy.SessionState

/-!
# The checkpoint of an engine

An engine is checkpointed in three ways: as the session state in Redis, as the
snapshot in the store and as the snapshot in the session cache.  Each has its
own encoder and decoder of the entries of the index and of the working set.  A
dictionary is a record whose keys are there or not.
-/

namespace VirtualContext

open VirtualContext.Library

/-! ## The engine -/

/-- The fields of `EngineState` that are checkpointed. -/
structure EngineState where
  compactedPrefixMessages : Int := 0
  flushedPrefixMessages : Int := 0
  lastRequestTime : ℚ := 0
  lastCompactedTurn : Int := -1
  lastCompletedTurn : Int := -1
  lastIndexedTurn : Int := -1
  checkpointVersion : Int := 0
  conversationGeneration : Int := 0
  toolTagCounter : Int := 0
  splitProcessedTags : Finset String := ∅
  trailingFingerprint : String := ""
  provider : String := ""
  deriving DecidableEq

/-- What of an engine is checkpointed. -/
structure Engine where
  engineState : EngineState := {}
  turnTagIndex : TurnTagIndex := .empty
  workingSet : WorkingSet := .empty

/-- The compacted turns that the number of compacted messages stands for. -/
def lastTurnOfPrefix (compactedPrefixMessages : Int) : Int :=
  if 0 < compactedPrefixMessages then compactedPrefixMessages / 2 - 1 else -1

def TurnTagIndex.highestIndexedTurn (index : TurnTagIndex) : Int :=
  maxOf (-1) (index.entries.map (·.turnNumber))

/-- `_update_checkpoint_markers`, called without a history and markers. -/
def Engine.updateCheckpointMarkers (e : Engine) : Engine :=
  let state := e.engineState
  let lastIndexedTurn :=
    max state.lastIndexedTurn e.turnTagIndex.highestIndexedTurn
  { e with
    engineState :=
      { state with
        lastIndexedTurn := lastIndexedTurn
        lastCompletedTurn := max state.lastCompletedTurn (max (-1) lastIndexedTurn)
        lastCompactedTurn := max state.lastCompactedTurn
          (lastTurnOfPrefix state.compactedPrefixMessages) } }

/-- `_restored_flushed_prefix_messages` -/
def restoredFlushedPrefixMessages (compacted flushed : Int) (present : Bool) :
    Int :=
  if present then flushed else compacted

/-! ## Dictionaries -/

structure FactSignalDict where
  subject : Option String := none
  verb : Option String := none
  object : Option String := none
  status : Option String := none
  factType : Option String := none
  what : Option String := none
  deriving DecidableEq, Repr

structure TurnTagEntryDict where
  turnNumber : Option Int := none
  canonicalTurnId : Option Uuid := none
  tags : Option (List String) := none
  primaryTag : Option String := none
  messageHash : Option HexDigest := none
  sender : Option String := none
  timestamp : Option String := none
  sessionDate : Option String := none
  factSignals : Option (List FactSignalDict) := none
  codeRefs : Option (List CodeRef) := none
  deriving DecidableEq, Repr

structure WorkingSetDict where
  tag : Option String := none
  depth : Option String := none
  tokens : Option Nat := none
  lastAccessedTurn : Option Nat := none
  deriving DecidableEq, Repr

def DepthLevel.value : DepthLevel → String
  | none => "none"
  | summary => "summary"
  | segments => "segments"
  | full => "full"

def FactSignal.toDict (fs : FactSignal) : FactSignalDict where
  subject := fs.subject
  verb := fs.verb
  object := fs.object
  status := fs.status
  factType := fs.factType
  what := fs.what

def FactSignalDict.toSignal (defaultFactType : String) (d : FactSignalDict) :
    FactSignal where
  subject := d.subject.getD ""
  verb := d.verb.getD ""
  object := d.object.getD ""
  status := d.status.getD ""
  factType := d.factType.getD defaultFactType
  what := d.what.getD ""

def WorkingSetEntry.toDict (ws : WorkingSetEntry) : WorkingSetDict where
  tag := ws.tag
  depth := ws.depth.value
  tokens := ws.tokens
  lastAccessedTurn := ws.lastAccessedTurn

/-- `none` where `DepthLevel` raises. -/
def WorkingSetDict.toEntry (d : WorkingSetDict) : Option WorkingSetEntry :=
  (DepthLevel.ofString? (d.depth.getD "summary")).map fun depth =>
    { tag := d.tag.getD ""
      depth := depth
      tokens := d.tokens.getD 0
      lastAccessedTurn := d.lastAccessedTurn.getD 0 }

/-- A text that is no date, or a missing one, is read as the current time. -/
def parseTimestamp (now : Datetime) (text : Option String) : Datetime :=
  (text.bind fromisoformat).getD now

/-! ## The session state in Redis -/

/-- The fields of `SessionState` that only report progress. -/
structure SessionProgress where
  sessionState : String := ""
  liveTurnCount : Int := 0
  historyMessageCount : Int := 0
  ingestionDone : Int := 0
  ingestionTotal : Int := 0
  lastPayloadKb : ℚ := 0
  lastPayloadTokens : Int := 0
  rawPayloadEntryCount : Int := 0
  ingestibleEntryCount : Int := 0
  skippedPayloadEntryCount : Int := 0
  deriving DecidableEq, Repr

/-- The fields of `SessionState` but for the version and the tombstone. -/
structure SessionCheckpoint where
  engineState : EngineState := {}
  flushedPrefixMessagesPresent : Bool := true
  progress : SessionProgress := {}
  turnTagEntries : List TurnTagEntryDict := []
  workingSet : List WorkingSetDict := []
  deriving DecidableEq

/-- The keys of the markers, in the JSON of a session state and in the cache. -/
structure EngineStateDict where
  compactedPrefixMessages : Option Int := none
  flushedPrefixMessages : Option Int := none
  lastRequestTime : Option ℚ := none
  lastCompactedTurn : Option Int := none
  lastCompletedTurn : Option Int := none
  lastIndexedTurn : Option Int := none
  checkpointVersion : Option Int := none
  conversationGeneration : Option Int := none
  toolTagCounter : Option Int := none
  splitProcessedTags : Option (List String) := none
  trailingFingerprint : Option String := none
  provider : Option String := none
  deriving DecidableEq, Repr

/-- The JSON of a session state; `json.loads` gives back what was dumped. -/
structure SessionStateDict where
  engineState : EngineStateDict := {}
  sessionState : Option String := none
  liveTurnCount : Option Int := none
  historyMessageCount : Option Int := none
  ingestionDone : Option Int := none
  ingestionTotal : Option Int := none
  lastPayloadKb : Option ℚ := none
  lastPayloadTokens : Option Int := none
  rawPayloadEntryCount : Option Int := none
  ingestibleEntryCount : Option Int := none
  skippedPayloadEntryCount : Option Int := none
  turnTagEntries : Option (List TurnTagEntryDict) := none
  workingSet : Option (List WorkingSetDict) := none
  version : Option Int := none
  deleted : Option Bool := none
  deriving DecidableEq, Repr

/-- All keys are there, and the split tags are sorted. -/
def EngineState.toDict (state : EngineState) : EngineStateDict where
  compactedPrefixMessages := state.compactedPrefixMessages
  flushedPrefixMessages := state.flushedPrefixMessages
  lastRequestTime := state.lastRequestTime
  lastCompactedTurn := state.lastCompactedTurn
  lastCompletedTurn := state.lastCompletedTurn
  lastIndexedTurn := state.lastIndexedTurn
  checkpointVersion := state.checkpointVersion
  conversationGeneration := state.conversationGeneration
  toolTagCounter := state.toolTagCounter
  splitProcessedTags := some (state.splitProcessedTags.sort (· ≤ ·))
  trailingFingerprint := state.trailingFingerprint
  provider := state.provider

def SessionState.toJson (state : SessionState SessionCheckpoint) :
    SessionStateDict where
  engineState := state.checkpoint.engineState.toDict
  sessionState := state.checkpoint.progress.sessionState
  liveTurnCount := state.checkpoint.progress.liveTurnCount
  historyMessageCount := state.checkpoint.progress.historyMessageCount
  ingestionDone := state.checkpoint.progress.ingestionDone
  ingestionTotal := state.checkpoint.progress.ingestionTotal
  lastPayloadKb := state.checkpoint.progress.lastPayloadKb
  lastPayloadTokens := state.checkpoint.progress.lastPayloadTokens
  rawPayloadEntryCount := state.checkpoint.progress.rawPayloadEntryCount
  ingestibleEntryCount := state.checkpoint.progress.ingestibleEntryCount
  skippedPayloadEntryCount := state.checkpoint.progress.skippedPayloadEntryCount
  turnTagEntries := state.checkpoint.turnTagEntries
  workingSet := state.checkpoint.workingSet
  version := state.version
  deleted := state.deleted

def SessionState.fromJson (d : SessionStateDict) :
    SessionState SessionCheckpoint where
  checkpoint :=
    { engineState :=
        { compactedPrefixMessages :=
            d.engineState.compactedPrefixMessages.getD 0
          flushedPrefixMessages := d.engineState.flushedPrefixMessages.getD 0
          lastRequestTime := d.engineState.lastRequestTime.getD 0
          lastCompactedTurn := d.engineState.lastCompactedTurn.getD (-1)
          lastCompletedTurn := d.engineState.lastCompletedTurn.getD (-1)
          lastIndexedTurn := d.engineState.lastIndexedTurn.getD (-1)
          checkpointVersion := d.engineState.checkpointVersion.getD 0
          conversationGeneration := d.engineState.conversationGeneration.getD 0
          toolTagCounter := d.engineState.toolTagCounter.getD 0
          splitProcessedTags :=
            (d.engineState.splitProcessedTags.getD []).toFinset
          trailingFingerprint := d.engineState.trailingFingerprint.getD ""
          provider := d.engineState.provider.getD "" }
      flushedPrefixMessagesPresent :=
        d.engineState.flushedPrefixMessages.isSome
      progress :=
        { sessionState := d.sessionState.getD ""
          liveTurnCount := d.liveTurnCount.getD 0
          historyMessageCount := d.historyMessageCount.getD 0
          ingestionDone := d.ingestionDone.getD 0
          ingestionTotal := d.ingestionTotal.getD 0
          lastPayloadKb := d.lastPayloadKb.getD 0
          lastPayloadTokens := d.lastPayloadTokens.getD 0
          rawPayloadEntryCount := d.rawPayloadEntryCount.getD 0
          ingestibleEntryCount := d.ingestibleEntryCount.getD 0
          skippedPayloadEntryCount := d.skippedPayloadEntryCount.getD 0 }
      turnTagEntries := d.turnTagEntries.getD []
      workingSet := d.workingSet.getD [] }
  version := d.version.getD 0
  deleted := d.deleted.getD false

/-- The entry of a session state. -/
def TurnTagEntry.toDict (e : TurnTagEntry) : TurnTagEntryDict where
  turnNumber := e.turnNumber
  canonicalTurnId := e.canonicalTurnId
  tags := e.tags
  primaryTag := e.primaryTag
  messageHash := e.messageHash
  sender := e.sender
  timestamp := isoformat e.timestamp
  sessionDate := e.sessionDate
  factSignals := e.factSignals.map (·.toDict)
  codeRefs := e.codeRefs

def Engine.extractSessionState (e : Engine) : SessionState SessionCheckpoint where
  checkpoint :=
    { engineState := e.engineState
      turnTagEntries := e.turnTagIndex.entries.map (·.toDict)
      workingSet := e.workingSet.entries.map (·.toDict) }

/-- The entry that is read from a session state. -/
def TurnTagEntryDict.hydrate (now : Datetime) (d : TurnTagEntryDict) :
    TurnTagEntry where
  turnNumber := d.turnNumber.getD 0
  canonicalTurnId := d.canonicalTurnId.getD 0
  tags := d.tags.getD []
  primaryTag := d.primaryTag.getD "_general"
  messageHash := d.messageHash.getD []
  sender := d.sender.getD ""
  timestamp := parseTimestamp now d.timestamp
  sessionDate := d.sessionDate.getD ""
  factSignals := (d.factSignals.getD []).map (·.toSignal "")
  codeRefs := d.codeRefs.getD []

/-- `hydrate_from_session_state`, before the canonical rows are consulted. -/
def hydrateFromSessionState (now : Datetime)
    (state : SessionState SessionCheckpoint) : Option Engine := do
  let checkpoint := state.checkpoint
  let workingSet ← checkpoint.workingSet.mapM (·.toEntry)
  some
    { engineState :=
        { checkpoint.engineState with
          flushedPrefixMessages := restoredFlushedPrefixMessages
            checkpoint.engineState.compactedPrefixMessages
            checkpoint.engineState.flushedPrefixMessages
            checkpoint.flushedPrefixMessagesPresent }
      turnTagIndex := (checkpoint.turnTagEntries.map (·.hydrate now)).foldl
        TurnTagIndex.append .empty
      workingSet := workingSet.foldl WorkingSet.set .empty }

/-! ## The snapshot in the store -/

structure EngineStateSnapshot where
  conversationId : ConversationId
  engineState : EngineState
  flushedPrefixMessagesPresent : Bool := true
  turnTagEntries : List TurnTagEntry
  turnCount : Nat
  /-- Instead of the set in the engine state. -/
  splitProcessedTags : List String
  workingSet : List WorkingSetEntry
  deriving DecidableEq

def TurnTagEntryDict.toSnapshot (now : Datetime) (d : TurnTagEntryDict) :
    TurnTagEntry where
  turnNumber := d.turnNumber.getD 0
  canonicalTurnId := d.canonicalTurnId.getD 0
  tags := d.tags.getD []
  primaryTag := d.primaryTag.getD ""
  messageHash := d.messageHash.getD []
  sender := d.sender.getD ""
  timestamp := parseTimestamp now d.timestamp
  sessionDate := d.sessionDate.getD ""
  factSignals := (d.factSignals.getD []).map (·.toSignal "")
  codeRefs := d.codeRefs.getD []

/-- `_state_to_snapshot` -/
def stateToSnapshot (now : Datetime) (conversationId : ConversationId)
    (state : SessionState SessionCheckpoint) : Option EngineStateSnapshot := do
  let checkpoint := state.checkpoint
  let workingSet ← checkpoint.workingSet.mapM (·.toEntry)
  some
    { conversationId := conversationId
      engineState := checkpoint.engineState
      flushedPrefixMessagesPresent := checkpoint.flushedPrefixMessagesPresent
      turnTagEntries := checkpoint.turnTagEntries.map (·.toSnapshot now)
      turnCount := checkpoint.turnTagEntries.length
      splitProcessedTags :=
        checkpoint.engineState.splitProcessedTags.sort (· ≤ ·)
      workingSet := workingSet }

/-- `_snapshot_to_state` -/
def snapshotToState (snapshot : EngineStateSnapshot) :
    SessionState SessionCheckpoint where
  checkpoint :=
    { engineState :=
        { snapshot.engineState with
          splitProcessedTags := snapshot.splitProcessedTags.toFinset }
      flushedPrefixMessagesPresent := snapshot.flushedPrefixMessagesPresent
      turnTagEntries := snapshot.turnTagEntries.map (·.toDict)
      workingSet := snapshot.workingSet.map (·.toDict) }

/-! ## The snapshot in the session cache -/

structure CacheSnapshot where
  version : Option Int := none
  conversationId : Option ConversationId := none
  conversationGeneration : Option Int := none
  turnTagEntries : List TurnTagEntryDict := []
  engineState : EngineStateDict := {}
  workingSet : List WorkingSetDict := []
  deriving DecidableEq

/-- The entry of a cache snapshot. -/
def TurnTagEntry.toCache (e : TurnTagEntry) : TurnTagEntryDict where
  turnNumber := e.turnNumber
  canonicalTurnId := e.canonicalTurnId
  tags := e.tags
  primaryTag := e.primaryTag
  messageHash := e.messageHash
  sender := e.sender
  timestamp := isoformat e.timestamp
  factSignals := e.factSignals.map (·.toDict)
  codeRefs := e.codeRefs

/-- `_build_cache_snapshot` -/
def Engine.buildCacheSnapshot (conversationId : ConversationId) (e : Engine) :
    CacheSnapshot where
  version := e.engineState.checkpointVersion
  conversationId := conversationId
  conversationGeneration := e.engineState.conversationGeneration
  turnTagEntries := e.turnTagIndex.entries.map (·.toCache)
  engineState := e.engineState.toDict
  workingSet := e.workingSet.entries.map (·.toDict)

/-- The entry that is read from a cache snapshot; `none` for a `KeyError`. -/
def TurnTagEntryDict.fromCache (now : Datetime) (d : TurnTagEntryDict) :
    Option TurnTagEntry :=
  d.turnNumber.map fun turnNumber =>
    { turnNumber := turnNumber
      canonicalTurnId := d.canonicalTurnId.getD 0
      tags := d.tags.getD []
      primaryTag := d.primaryTag.getD ""
      messageHash := d.messageHash.getD []
      sender := d.sender.getD ""
      timestamp := parseTimestamp now d.timestamp
      factSignals := (d.factSignals.getD []).map (·.toSignal "personal")
      codeRefs := d.codeRefs.getD [] }

/-- The entry that is read from a cache snapshot; an unknown depth skips it. -/
def WorkingSetDict.fromCache (d : WorkingSetDict) : Option WorkingSetEntry := do
  let tag ← d.tag
  let depth ← match d.depth with
    | none => some .summary
    | some depth => DepthLevel.ofString? depth
  some
    { tag := tag
      depth := depth
      tokens := d.tokens.getD 0
      lastAccessedTurn := d.lastAccessedTurn.getD 0 }

/--
`_apply_cached_state`, on an engine with an empty index and before the canonical
rows are consulted; the working set is wired by
`_apply_persisted_state_to_delegates`.
-/
def applyCachedState (now : Datetime) (conversationGeneration : Int)
    (cached : CacheSnapshot) : Option Engine := do
  let _ ← cached.conversationId
  let es := cached.engineState
  let compacted := es.compactedPrefixMessages.getD 0
  let entries ← cached.turnTagEntries.mapM (·.fromCache now)
  let restored : Engine :=
    { engineState :=
        { compactedPrefixMessages := compacted
          flushedPrefixMessages := restoredFlushedPrefixMessages compacted
            (es.flushedPrefixMessages.getD 0) es.flushedPrefixMessages.isSome
          lastRequestTime := es.lastRequestTime.getD 0
          lastCompactedTurn :=
            es.lastCompactedTurn.getD (lastTurnOfPrefix compacted)
          lastCompletedTurn :=
            es.lastCompletedTurn.getD (cached.turnTagEntries.length - 1)
          lastIndexedTurn :=
            es.lastIndexedTurn.getD (cached.turnTagEntries.length - 1)
          checkpointVersion :=
            es.checkpointVersion.getD (cached.version.getD 0)
          conversationGeneration := es.conversationGeneration.getD
            (cached.conversationGeneration.getD conversationGeneration)
          toolTagCounter := es.toolTagCounter.getD 0
          splitProcessedTags := (es.splitProcessedTags.getD []).toFinset
          trailingFingerprint := es.trailingFingerprint.getD ""
          provider := es.provider.getD "" }
      turnTagIndex := entries.foldl TurnTagIndex.append .empty
      workingSet := (cached.workingSet.filterMap (·.fromCache)).foldl
        WorkingSet.set .empty }
  some restored.updateCheckpointMarkers

end VirtualContext
