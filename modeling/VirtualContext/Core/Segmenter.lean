import VirtualContext.Core.CanonicalTurns
import VirtualContext.Core.ProtectedWindow
import VirtualContext.Library.Cursor
import VirtualContext.Storage.Grouping

/-!
# The topic segmenter

Messages are paired into turns, the turns that are not blank are tagged, and
each turn joins the segment that suits it best or opens a new one.
-/

namespace VirtualContext

open VirtualContext.Library

/-! ## Messages and turns -/

/-- A dict in the content list of a raw block. -/
structure SegmentBlockItem where
  type : String
  text : String := ""
  deriving DecidableEq, Repr

inductive SegmentBlockContent where
  | text (text : String)
  | items (items : List SegmentBlockItem)
  | other
  deriving DecidableEq, Repr

/-- A block of `raw_content`. -/
structure SegmentBlock where
  type : String
  content : SegmentBlockContent := .text ""
  deriving DecidableEq, Repr

/--
A message to compact.  `row` is the number of the canonical row that it was
made of; it is carried along and nothing reads it.
-/
structure RowMessage extends Message String where
  row : Option Nat := none
  rawContent : List SegmentBlock := []
  deriving DecidableEq, Repr

def sessionHeader : List Char := "[Session from ".toList

/-- `_SESSION_RE` at the start of the text: the date and what follows. -/
def matchSession (text : List Char) : Option (List Char × List Char) :=
  if sessionHeader.isPrefixOf text then
    let inside := text.drop sessionHeader.length
    match inside.takeWhile (· != ']'), inside.dropWhile (· != ']') with
    | date@(_ :: _), _ :: after => some (date, after)
    | _, _ => none
  else none

/-- The first match of `_SESSION_RE`, with what comes before it. -/
def searchSession : List Char → Option (List Char × List Char × List Char)
  | [] => none
  | c :: text =>
      match matchSession (c :: text) with
      | some (date, after) => some ([], date, after)
      | none =>
          (searchSession text).map fun (before, date, after) =>
            (c :: before, date, after)

def splitSessionBoundaryMessage (msg : RowMessage) : List RowMessage :=
  match searchSession msg.content.toList with
  | some (before, date, after) =>
      if pyStripChars before ≠ [] then
        [{ role := msg.role, content := String.ofList (pyStripChars before),
           timestamp := msg.timestamp, row := msg.row },
         { role := msg.role,
           content := String.ofList (sessionHeader ++ date ++ ']' :: after),
           timestamp := msg.timestamp, row := msg.row }]
      else [msg]
  | none => [msg]

def splitSessionBoundaryMessages (messages : List RowMessage) :
    List RowMessage :=
  messages.flatMap splitSessionBoundaryMessage

structure TurnPair where
  messages : List RowMessage
  deriving DecidableEq, Repr

/-- A turn, unless it has no messages. -/
def flushTurn (currentPair : List RowMessage) : List TurnPair :=
  if currentPair.isEmpty then [] else [⟨currentPair⟩]

/-- `pair_messages_into_turns`, with the pair that is open. -/
def pairMessages : List RowMessage → List RowMessage → List TurnPair
  | currentPair, [] => flushTurn currentPair
  | currentPair, msg :: messages =>
      if msg.role = "user" then
        flushTurn currentPair ++ pairMessages [msg] messages
      else if msg.role = "assistant" then
        ⟨currentPair ++ [msg]⟩ :: pairMessages [] messages
      else pairMessages (currentPair ++ [msg]) messages

/-- `_pair_turns` -/
def pairTurns (messages : List RowMessage) : List TurnPair :=
  pairMessages [] (splitSessionBoundaryMessages messages)

def joinContents (messages : List RowMessage) : String :=
  " ".intercalate (messages.map (·.content))

/-- A turn of whitespace, as of stripped images. -/
def TurnPair.isBlank (pair : TurnPair) : Bool :=
  pyStrip (joinContents pair.messages) = ""

/-- `_parse_session_date` -/
def TurnPair.sessionDate (pair : TurnPair) : String :=
  match pair.messages.findSome? fun msg => searchSession msg.content.toList with
  | some (_, date, _) => String.ofList date
  | none => ""

def TurnPair.timestamps (pair : TurnPair) : List String :=
  pair.messages.filterMap (·.timestamp)

/-! ## Grouping turns into segments -/

structure TagResult where
  tags : List String
  primary : String
  deriving DecidableEq, Repr

structure TaggedTurn where
  pair : TurnPair
  result : TagResult
  deriving DecidableEq, Repr

structure SegmenterConfig where
  tagOverlapThreshold : ℚ := 1 / 2
  maxSegmentTurns : Nat := 20
  toolResultSegmentThreshold : Nat := 50000

/--
The segmenter and what it calls: the tags of a turn (from the index by its
number, else from the generator by its text), the comparison of two timestamps
with the session gap, and the relatedness of two tag sets and texts.
-/
structure TopicSegmenter where
  config : SegmenterConfig := {}
  tokenCounter : String → Nat
  tagsOfTurn : Int → String → TagResult
  exceedsSessionGap : String → String → Bool
  computeRelatedness : List String → List String → String → String → ℚ

/-- An entry of the segment library; a group starts with its first turn. -/
structure SegmentGroup where
  first : TaggedTurn
  rest : List TaggedTurn := []
  session : String
  tags : List String
  tokens : Nat
  deriving DecidableEq, Repr

namespace SegmentGroup

def turns (group : SegmentGroup) : List TaggedTurn := group.first :: group.rest

def last (group : SegmentGroup) : TaggedTurn :=
  group.rest.getLast?.getD group.first

end SegmentGroup

/-- `{t for t in tags if t != "_general"}` -/
def meaningfulTags (tags : List String) : List String :=
  (appendMissing [] tags).filter (· ≠ "_general")

/-- `text[:n]` -/
def textPrefix (n : Nat) (text : String) : String :=
  String.ofList (text.toList.take n)

namespace TopicSegmenter

variable (segmenter : TopicSegmenter)

def maxSegmentTokens : Nat :=
  if 0 < segmenter.config.maxSegmentTurns then
    segmenter.config.maxSegmentTurns * 200
  else 999999

/-- `_has_temporal_gap` -/
def hasTemporalGap (lastPair newPair : TurnPair) : Bool :=
  match lastPair.timestamps.max?, newPair.timestamps.min? with
  | some lastTs, some newTs => segmenter.exceedsSessionGap lastTs newTs
  | _, _ => false

/-- The score of a turn in a group, unless the group does not admit it. -/
def score (group : SegmentGroup) (turn : TaggedTurn) : Option ℚ :=
  let turnText := joinContents turn.pair.messages
  let parsed := turn.pair.sessionDate
  if segmenter.maxSegmentTokens <
      group.tokens + segmenter.tokenCounter turnText then none
  else if 0 < segmenter.config.maxSegmentTurns ∧
      segmenter.config.maxSegmentTurns ≤ group.turns.length then none
  else if parsed ≠ "" ∧ group.session ≠ "" ∧ parsed ≠ group.session then none
  else if parsed ≠ "" ∧ group.session = "" then none
  else if segmenter.hasTemporalGap group.last.pair turn.pair then none
  else
    let meaningfulGroup := meaningfulTags group.tags
    let meaningfulCurr := meaningfulTags turn.result.tags
    if meaningfulGroup = [] ∨ meaningfulCurr = [] then some 1
    else if turn.result.primary = group.last.result.primary then some 1
    else
      let recent := group.turns.drop (group.turns.length - 2)
      let groupText := joinContents (recent.flatMap (·.pair.messages))
      some (segmenter.computeRelatedness meaningfulGroup meaningfulCurr
        (textPrefix 2000 groupText) (textPrefix 2000 turnText))

/-- The group with the best score, the first one of several. -/
def bestSegment (library : List SegmentGroup) (turn : TaggedTurn) :
    Option Nat :=
  (library.zipIdx.foldl (fun best (group, i) =>
    match segmenter.score group turn with
    | none => best
    | some score =>
        if segmenter.config.tagOverlapThreshold ≤ score ∧
            best.all (fun (_, bestScore) => bestScore < score) then
          some (i, score)
        else best) none).map Prod.fst

/-- Append the turn to the best segment, or open a new one. -/
def placeTurn (session : String) (library : List SegmentGroup)
    (turn : TaggedTurn) : List SegmentGroup :=
  let meaningful := meaningfulTags turn.result.tags
  let tokens := segmenter.tokenCounter (joinContents turn.pair.messages)
  match segmenter.bestSegment library turn with
  | some i =>
      library.modify i fun group =>
        { group with
          rest := group.rest ++ [turn]
          tags := appendMissing group.tags meaningful
          tokens := group.tokens + tokens }
  | none =>
      library ++ [{ first := turn, session, tags := meaningful, tokens }]

def groupTurns : String → List SegmentGroup → List TaggedTurn →
    List SegmentGroup
  | _, library, [] => library
  | runningSession, library, turn :: turns =>
      let session :=
        if turn.pair.sessionDate ≠ "" then turn.pair.sessionDate
        else runningSession
      groupTurns session (segmenter.placeTurn session library turn) turns

/-- The turns that are not blank, with their tags. -/
def tagTurns (turnOffset : Int) (pairs : List TurnPair) : List TaggedTurn :=
  pairs.zipIdx.filterMap fun (pair, i) =>
    if pair.isBlank then none
    else some ⟨pair, segmenter.tagsOfTurn (turnOffset + i)
      (joinContents pair.messages)⟩

end TopicSegmenter

/-! ## Segments -/

structure TaggedSegment where
  id : String
  primaryTag : String
  tags : List String
  messages : List RowMessage
  tokenCount : Nat
  startTimestamp : String
  endTimestamp : String
  turnCount : Nat
  sessionDate : String := ""
  mergeRef : String := ""
  deriving DecidableEq, Repr

/-- The generated identifiers and the readings of the clock, in their order. -/
structure SegmentSupply where
  uuid : Nat → String
  now : Nat → String

namespace TopicSegmenter

variable (segmenter : TopicSegmenter) (supply : SegmentSupply)

/-- `_build_segment`, as the `k`-th segment of the library. -/
def buildSegment (k : Nat) (group : SegmentGroup) : TaggedSegment :=
  let messages := group.turns.flatMap (·.pair.messages)
  let timestamps := messages.filterMap (·.timestamp)
  { id := supply.uuid k
    primaryTag := group.first.result.primary
    tags := orderBy id
      (appendMissing [] (group.turns.flatMap (·.result.tags)))
    messages := messages
    tokenCount := segmenter.tokenCounter (joinContents messages)
    startTimestamp := timestamps.min?.getD (supply.now (2 * k))
    endTimestamp := timestamps.max?.getD (supply.now (2 * k + 1))
    turnCount := group.turns.length
    sessionDate := group.session }

end TopicSegmenter

/-- The neighbour whose tags a stub takes. -/
def stubDonor (closerToPrevious : TaggedSegment → TaggedSegment →
    TaggedSegment → Bool) (stub : TaggedSegment)
    (previous next : Option TaggedSegment) : Option TaggedSegment :=
  match previous.filter (·.primaryTag ≠ "_stub"),
    next.filter (·.primaryTag ≠ "_stub") with
  | some previous, some next =>
      if closerToPrevious previous stub next then some previous else some next
  | some previous, none => some previous
  | none, next => next

/-- The body of the loop over the stubs. -/
def reassignStub (closerToPrevious : TaggedSegment → TaggedSegment →
    TaggedSegment → Bool) (segments : List TaggedSegment) (i : Nat) :
    List TaggedSegment :=
  let previous := if i = 0 then none else segments[i - 1]?
  segments.modify i fun stub =>
    if stub.primaryTag ≠ "_stub" then stub
    else
      match stubDonor closerToPrevious stub previous segments[i + 1]? with
      | some donor =>
          { stub with primaryTag := donor.primaryTag, tags := donor.tags }
      | none => stub

def reassignPass (closerToPrevious : TaggedSegment → TaggedSegment →
    TaggedSegment → Bool) (segments : List TaggedSegment) :
    List TaggedSegment :=
  (List.range segments.length).foldl (reassignStub closerToPrevious) segments

/-- `_reassign_stub_segments`; a pass without a change repeats itself. -/
def reassignStubSegments (closerToPrevious : TaggedSegment → TaggedSegment →
    TaggedSegment → Bool) (segments : List TaggedSegment) :
    List TaggedSegment :=
  let stubs := (segments.filter (·.primaryTag = "_stub")).length
  (reassignPass closerToPrevious)^[if stubs = 0 then 0 else stubs + 1] segments

namespace TopicSegmenter

/--
`segment`.  Messages made of canonical rows have no raw content, so no tool
result is ever split off.
-/
def segment (segmenter : TopicSegmenter) (supply : SegmentSupply)
    (closerToPrevious : TaggedSegment → TaggedSegment → TaggedSegment → Bool)
    (messages : List RowMessage) (turnOffset : Int) : List TaggedSegment :=
  let tagged := segmenter.tagTurns turnOffset (pairTurns messages)
  let library := segmenter.groupTurns "" [] tagged
  reassignStubSegments closerToPrevious
    (library.mapIdx (segmenter.buildSegment supply))

end TopicSegmenter

end VirtualContext
