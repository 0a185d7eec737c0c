import VirtualContext.Core.IngestReconciler
import VirtualContext.Core.Segmenter
import VirtualContext.Core.TurnTagIndex

/-!
# The live tagging pipeline

After each reply the engine makes the latest turn durable and then tags it.
`persist_completed_turn` numbers turns by the pairs of the history, `tag_turn`
by the entries of its index, and the store by the contents of its rows.
-/

namespace VirtualContext

open VirtualContext.Library
open VirtualContext.Library.Program

/-! ## The conversation history -/

/-- A content block of a message. -/
structure RawBlock where
  type : String
  body : String := ""
  deriving DecidableEq, Repr

/-- A message with its text, its blocks and the sender in its metadata. -/
structure HistoryMessage where
  role : String
  content : String
  rawContent : List RawBlock := []
  sender : String := ""
  deriving DecidableEq, Repr

/-- `pair_messages_into_turns`, with the pair that is open. -/
def pairMessagesIntoTurns :
    List HistoryMessage → List HistoryMessage → List (List HistoryMessage)
  | [], [] => []
  | currentPair, [] => [currentPair]
  | currentPair, msg :: messages =>
      if msg.role = "user" then
        (if currentPair.isEmpty then [] else [currentPair]) ++
          pairMessagesIntoTurns [msg] messages
      else if msg.role = "assistant" then
        (currentPair ++ [msg]) :: pairMessagesIntoTurns [] messages
      else pairMessagesIntoTurns (currentPair ++ [msg]) messages

/-- `_get_latest_turn_pair`: the last pair, if it has both of its halves. -/
def getLatestTurnPair (history : List HistoryMessage) :
    Option (List HistoryMessage) :=
  (pairMessagesIntoTurns [] history).getLast?.filter fun latest =>
    latest.any (·.role = "user") && latest.any (·.role = "assistant")

def combinedText (messages : List HistoryMessage) : String :=
  " ".intercalate (messages.map (·.content))

/-- `_is_tool_turn`: no text, and some block of a tool. -/
def isToolTurn (messages : List HistoryMessage) : Bool :=
  pyStrip (combinedText messages) = "" &&
    messages.any fun msg => msg.rawContent.any fun block =>
      block.type = "tool_use" || block.type = "tool_result"

/-! ## The pipeline and what it calls -/

/-- What the tag generator makes of a text. -/
structure GeneratedTags extends TagResult where
  factSignals : List FactSignal := []
  codeRefs : List CodeRef := []

/--
The pipeline of one conversation, and what it calls: the text of raw content,
the recent texts before the latest turn, and the tag generator.
-/
structure TaggingPipeline where
  conversationId : ConversationId
  contextLookbackPairs : Nat := 5
  dumps : List RawBlock → String
  getRecentContext : List HistoryMessage → Nat → Option (List String)
  generateTags : String → Option (List String) → GeneratedTags

/--
The times of one call, the age of what it finds, and whether the monitor asks
for compaction.
-/
structure CallClock where
  now : String
  seen : String → Bool
  timestamp : Datetime
  sessionDate : String
  compactionSignal : Bool := false

/-- `latest_meaningful_tags` -/
def TurnTagIndex.latestMeaningfulTags (index : TurnTagIndex) :
    Option TurnTagEntry :=
  index.entries.reverse.find? fun entry =>
    entry.tags.any fun tag => tag ≠ "_general" ∧ tag ≠ "_stub"

/-- `entry.canonical_turn_id = canonical_turn_id or entry.canonical_turn_id` -/
def TurnTagEntry.identify (canonicalTurnId : Uuid) (entry : TurnTagEntry) :
    TurnTagEntry :=
  if canonicalTurnId = 0 then entry
  else { entry with canonicalTurnId := canonicalTurnId }

@[simp] theorem TurnTagEntry.turnNumber_identify (canonicalTurnId : Uuid)
    (entry : TurnTagEntry) :
    (entry.identify canonicalTurnId).turnNumber = entry.turnNumber := by
  unfold identify
  split_ifs <;> rfl

/-- The entry of a turn is identified where it stands. -/
def TurnTagIndex.identify (index : TurnTagIndex) (turnNumber : Int)
    (canonicalTurnId : Uuid) : TurnTagIndex where
  entries := index.entries.map fun entry =>
    if entry.turnNumber = turnNumber then entry.identify canonicalTurnId
    else entry
  byCanonicalTurn := index.byCanonicalTurn
  distinct := by
    have hnumbers : ∀ entry : TurnTagEntry,
        (if entry.turnNumber = turnNumber then entry.identify canonicalTurnId
          else entry).turnNumber = entry.turnNumber := by
      intro entry
      split_ifs <;> simp
    simpa [List.map_map, Function.comp_def, hnumbers] using index.distinct

/-! ## Making the latest turn durable -/

namespace TaggingPipeline

variable (sha : Sha256) (pipeline : TaggingPipeline)

/-- `json.dumps(raw) if raw else None` -/
def dumpRaw (raw : List RawBlock) : Option String :=
  if raw.isEmpty then none else some (pipeline.dumps raw)

/-- The metadata that an entry of the index gives to the rows of its turn. -/
def metadataOf (entry : Option TurnTagEntry) : TurnMetadata :=
  match entry with
  | none => {}
  | some entry =>
      { primaryTag := entry.primaryTag
        tags := entry.tags
        sessionDate := entry.sessionDate
        sender := entry.sender
        factSignals := entry.factSignals
        codeRefs := entry.codeRefs }

def ingestArgs (userMsg assistantMsg : HistoryMessage)
    (entry : Option TurnTagEntry) : IngestSingleArgs where
  conversationId := pipeline.conversationId
  userContent := userMsg.content
  assistantContent := assistantMsg.content
  userRawContent := pipeline.dumpRaw userMsg.rawContent
  assistantRawContent := pipeline.dumpRaw assistantMsg.rawContent
  metadata := metadataOf entry

/-- All messages of one role as one message. -/
def mergeRole (role : String) (messages : List HistoryMessage) :
    HistoryMessage where
  role := role
  content := "\n".intercalate (messages.map (·.content))
  rawContent := (messages.getLast?.map (·.rawContent)).getD []
  sender := (messages.getLast?.map (·.sender)).getD ""

/-- The identifiers of the rows that a call reports for its turn. -/
def reportedIds (result : CanonicalIngestResult) : List Uuid :=
  result.rows.map (·.canonicalTurnId)

/--
`persist_completed_turn`.  It gives the index, and beside it the rows that now
hold the turn.
-/
def persistCompletedTurn (clock : CallClock) (history : List HistoryMessage)
    (index : TurnTagIndex) : StoreProgram (TurnTagIndex × List Uuid) :=
  let grouped := pairMessagesIntoTurns [] history
  match grouped.getLast? with
  | none => pure (index, [])
  | some latestTurn =>
      let assistantMessages := latestTurn.filter (·.role = "assistant")
      if assistantMessages.isEmpty then pure (index, [])
      else
        let turnNumber : Int := grouped.length - 1
        let userMsg := mergeRole "user" (latestTurn.filter (·.role = "user"))
        let assistantMsg := mergeRole "assistant" assistantMessages
        let entry := index.getTagsForLogicalTurn turnNumber
        let persist : StoreProgram (TurnTagIndex × List Uuid) := do
          let result ← ingestSingle sha clock.now clock.seen
            (pipeline.ingestArgs userMsg assistantMsg entry)
          pure (index.identify turnNumber ((reportedIds result).headD 0),
            reportedIds result)
        persist.tryCatch fun raised =>
          match raised.exc with
          | .lifecycleEpochMismatch .. => pure (index, [])
          | _ => .fail raised

/-! ## Tagging the latest turn -/

/-- The places where `_persist_canonical_turn` looks, the likely ones first. -/
def searchOrder (turnNumber : Int) (count : Nat) : List Nat :=
  let approxIdx := (turnNumber * 2).toNat
  let near := (List.range count).filter fun idx =>
    approxIdx - 4 ≤ idx ∧ idx ≤ approxIdx + 4
  near ++ (List.range (count - 1)).filter (· ∉ near)

/-- Two neighbours with the hashes of the turn. -/
def pairAt (rows : List CanonicalTurnRow) (userHash assistantHash : HexDigest)
    (idx : Nat) : Option (CanonicalTurnRow × CanonicalTurnRow) :=
  match rows[idx]?, rows[idx + 1]? with
  | some first, some second =>
      if first.turnHash = userHash ∧ second.turnHash = assistantHash then
        some (first, second)
      else none
  | _, _ => none

def matchedPair (rows : List CanonicalTurnRow)
    (userHash assistantHash : HexDigest) (turnNumber : Int) :
    Option (CanonicalTurnRow × CanonicalTurnRow) :=
  (searchOrder turnNumber rows.length).findSome?
    (pairAt rows userHash assistantHash)

/-- What `_persist_canonical_turn` saves for one half of a matched turn. -/
def enrichArgs (clock : CallClock) (entry : TurnTagEntry) (role : Role)
    (msg : HistoryMessage) (row : CanonicalTurnRow) : SaveTurnArgs :=
  let userContent := match role with | .user => msg.content | .assistant => ""
  let assistantContent :=
    match role with | .user => "" | .assistant => msg.content
  let hashed :=
    computeTurnHashFromRaw sha userContent assistantContent HASH_VERSION
  { conversationId := pipeline.conversationId
    turnNumber := entry.turnNumber + match role with | .user => 0 | .assistant => 1
    userContent := userContent
    assistantContent := assistantContent
    userRawContent :=
      match role with | .user => pipeline.dumpRaw msg.rawContent | .assistant => none
    assistantRawContent :=
      match role with | .user => none | .assistant => pipeline.dumpRaw msg.rawContent
    primaryTag := entry.primaryTag
    tags := entry.tags
    sessionDate := entry.sessionDate
    sender := entry.sender
    factSignals := entry.factSignals
    codeRefs := entry.codeRefs
    canonicalTurnId := some row.canonicalTurnId
    sortKey := some row.sortKey
    turnHash := hashed.1
    hashVersion := HASH_VERSION
    normalizedUserText := hashed.2.1
    normalizedAssistantText := hashed.2.2
    taggedAt := some clock.now
    compactedAt := row.compactedAt
    firstSeenAt := row.firstSeenAt
    lastSeenAt := some (orText row.lastSeenAt clock.now)
    sourceBatchId := row.sourceBatchId
    createdAt := some row.createdAt
    updatedAt := some clock.now
    turnGroupNumber := entry.turnNumber }

/--
`_persist_canonical_turn`, without rows given by the caller: the rows that
hold the turn get its number, or the turn is ingested.
-/
def persistCanonicalTurn (clock : CallClock) (index : TurnTagIndex)
    (entry : TurnTagEntry) (userMsg assistantMsg : HistoryMessage) :
    StoreProgram (TurnTagIndex × List Uuid) := do
  let userHash := (computeTurnHashFromRaw sha userMsg.content "" HASH_VERSION).1
  let assistantHash :=
    (computeTurnHashFromRaw sha "" assistantMsg.content HASH_VERSION).1
  let rows ← getAllCanonicalTurns pipeline.conversationId
  match matchedPair rows userHash assistantHash entry.turnNumber with
  | some (userRow, assistantRow) =>
      saveCanonicalTurn sha clock.now
        (pipeline.enrichArgs sha clock entry .user userMsg userRow)
      saveCanonicalTurn sha clock.now
        (pipeline.enrichArgs sha clock entry .assistant assistantMsg assistantRow)
      pure (index.identify entry.turnNumber userRow.canonicalTurnId,
        [userRow.canonicalTurnId, assistantRow.canonicalTurnId])
  | none =>
      let result ← ingestSingle sha clock.now clock.seen
        (pipeline.ingestArgs userMsg assistantMsg (some entry))
      pure (index.identify entry.turnNumber ((reportedIds result).headD 0),
        reportedIds result)

/-- The tags of the latest turn: a second try, and then those of an earlier turn. -/
def tagsFor (history : List HistoryMessage) (index : TurnTagIndex)
    (text : String) : GeneratedTags :=
  let general (result : GeneratedTags) : Bool := result.tags = ["_general"]
  let result := pipeline.generateTags text
    (pipeline.getRecentContext history pipeline.contextLookbackPairs)
  let result :=
    if general result then
      match pipeline.getRecentContext history (pipeline.contextLookbackPairs * 2) with
      | none | some [] => result
      | some expanded => pipeline.generateTags text (some expanded)
    else result
  if general result then
    match index.latestMeaningfulTags with
    | some prev => { tags := prev.tags, primary := prev.primaryTag }
    | none => result
  else result

/-- What the index learns from a turn, beside its number. -/
def turnEntry (clock : CallClock) (turnNumber : Int)
    (messages : List HistoryMessage) (result : GeneratedTags) : TurnTagEntry where
  turnNumber := turnNumber
  messageHash :=
    (sha.hexdigest (combinedText messages).toUTF8.data.toList).take 16
  tags := result.tags
  primaryTag := result.primary
  timestamp := clock.timestamp
  sessionDate := clock.sessionDate
  factSignals := result.factSignals
  sender := (messages.head?.map (·.sender)).getD ""
  codeRefs := result.codeRefs

/--
What `tag_turn` leaves behind; `tagged` is the number it gave to the turn, and
`heldBy` are the rows that it found or wrote for it.
-/
structure TagTurnResult where
  index : TurnTagIndex
  toolTagCounter : Nat
  tagged : Option Int := none
  heldBy : List Uuid := []

/-- `tag_turn`, whose number is the count of the entries there are. -/
def tagTurn (clock : CallClock) (history : List HistoryMessage)
    (index : TurnTagIndex) (toolTagCounter : Nat) :
    StoreProgram TagTurnResult :=
  let turnNumber : Int := index.entries.length
  match getLatestTurnPair history with
  | none => pure { index, toolTagCounter }
  | some latestPair =>
      let combined := combinedText latestPair
      if isToolTurn latestPair then
        let tagName := "tool_" ++ toString (toolTagCounter + 1)
        pure
          { index := index.append (turnEntry sha clock turnNumber latestPair
              { tags := [tagName], primary := tagName })
            toolTagCounter := toolTagCounter + 1
            tagged := some turnNumber }
      else if pyStrip combined = "" then pure { index, toolTagCounter }
      else
        let index := index.append (turnEntry sha clock turnNumber latestPair
          (pipeline.tagsFor history index combined))
        let tagged : TagTurnResult :=
          { index, toolTagCounter, tagged := some turnNumber }
        if clock.compactionSignal then pure tagged
        else
          match index.getTagsForLogicalTurn turnNumber,
              latestPair.find? (·.role = "user"),
              latestPair.find? (·.role = "assistant") with
          | some entry, some userMsg, some assistantMsg =>
              let persist : StoreProgram TagTurnResult := do
                let (index, heldBy) ← pipeline.persistCanonicalTurn sha clock
                  index entry userMsg assistantMsg
                pure { tagged with index, heldBy }
              persist.tryCatch fun raised =>
                match raised.exc with
                | .indexError => pure tagged
                | _ => .fail raised
          | _, _, _ => pure tagged

end TaggingPipeline

/-! ## A driven conversation -/

/-- A user message and the reply to it. -/
structure Exchange where
  user : String
  userRaw : List RawBlock := []
  assistant : String
  assistantRaw : List RawBlock := []
  sender : String := ""
  deriving DecidableEq, Repr

def Exchange.userMsg (exchange : Exchange) : HistoryMessage where
  role := "user"
  content := exchange.user
  rawContent := exchange.userRaw
  sender := exchange.sender

def Exchange.assistantMsg (exchange : Exchange) : HistoryMessage where
  role := "assistant"
  content := exchange.assistant
  rawContent := exchange.assistantRaw

def Exchange.messages (exchange : Exchange) : List HistoryMessage :=
  [exchange.userMsg, exchange.assistantMsg]

/-- An exchange, and the clocks of the two calls that follow it. -/
structure DrivenTurn where
  exchange : Exchange
  persisting : CallClock
  tagging : CallClock

/-- What the calls made of an exchange: its number and the rows that hold it. -/
structure TurnOutcome where
  exchange : Exchange
  tagged : Option Int
  heldBy : List Uuid
  deriving DecidableEq, Repr

structure DrivenConversation where
  conn : Conn Tables
  index : TurnTagIndex
  toolTagCounter : Nat
  outcomes : List TurnOutcome

namespace DrivenConversation

def history (s : DrivenConversation) : List HistoryMessage :=
  s.outcomes.flatMap (·.exchange.messages)

/-- A conversation that has not begun, beside any other conversations. -/
def start (store : Store) : DrivenConversation :=
  ⟨store.conn, .empty, 0, []⟩

/--
Append the exchange, then `persist_completed_turn`, then `tag_turn`; `none` if
one of them raises.
-/
def drive (sha : Sha256) (pipeline : TaggingPipeline) (turn : DrivenTurn)
    (s : DrivenConversation) : Option DrivenConversation :=
  let history := s.history ++ turn.exchange.messages
  let calls : StoreProgram (List Uuid × TaggingPipeline.TagTurnResult) := do
    let (index, heldBy) ← pipeline.persistCompletedTurn sha turn.persisting
      history s.index
    let result ← pipeline.tagTurn sha turn.tagging history index
      s.toolTagCounter
    pure (heldBy, result)
  match calls.run .quiet s.conn with
  | (.ok (heldBy, result), conn) =>
      some
        { conn := conn
          index := result.index
          toolTagCounter := result.toolTagCounter
          outcomes := s.outcomes ++
            [⟨turn.exchange, result.tagged, heldBy ++ result.heldBy⟩] }
  | (.error _, _) => none

end DrivenConversation

end VirtualContext
