import VirtualContext.Storage.Tables

/-!
# Grouping rows into logical turns

A logical turn is a user row with the assistant row that answers it, or a
single row.  `mergeCanonicalTurnRows` reads the turns off explicit group
numbers when every row has one and otherwise off the contents of the rows;
`turnGroups` is the numbering that `recompute_canonical_turn_groups` assigns.
-/

namespace VirtualContext

open VirtualContext.Library

/-! ## Reading the turns off the rows -/

/-- The turns by their explicit group numbers. -/
def explicitGroups (rows : List CanonicalTurnRow) :
    List (Int × List CanonicalTurnRow) :=
  orderBy Prod.fst
    (Dictionary.ofPairs (rows.map fun row => (row.turnGroupNumber, row)))

/-- The turns found so far and the user row that waits for its assistant row. -/
structure GroupScan where
  grouped : List (List CanonicalTurnRow)
  pending : List CanonicalTurnRow

namespace GroupScan

def flushPending (scan : GroupScan) : GroupScan :=
  match scan.pending with
  | [] => scan
  | pending => ⟨scan.grouped ++ [pending], []⟩

def step (scan : GroupScan) (row : CanonicalTurnRow) : GroupScan :=
  if row.hasUser && row.hasAssistant then
    { scan.flushPending with grouped := scan.flushPending.grouped ++ [[row]] }
  else if row.hasUser then
    { scan.flushPending with pending := [row] }
  else if row.hasAssistant then
    if scan.pending.isEmpty then
      { scan with grouped := scan.grouped ++ [[row]] }
    else
      { scan with pending := scan.pending ++ [row] }.flushPending
  else scan.flushPending

end GroupScan

/-- The turns by the contents of the rows. -/
def contentGroups (rows : List CanonicalTurnRow) :
    List (List CanonicalTurnRow) :=
  (rows.foldl GroupScan.step ⟨[], []⟩).flushPending.grouped

/-- `grouped`: the turn numbers with their member rows. -/
def groupedRows (rows : List CanonicalTurnRow) :
    List (Int × List CanonicalTurnRow) :=
  if rows.all fun row => decide (0 ≤ row.turnGroupNumber) then
    explicitGroups rows
  else (contentGroups rows).zipIdx.map fun turn => ((turn.2 : Int), turn.1)

/-! ## Merging the members of one turn -/

/-- Whether the candidate is a text that comes before the current one. -/
def isEarlier (candidate current : Option String) : Bool :=
  match orNone candidate, orNone current with
  | some text, some text' => decide (text < text')
  | some _, none => true
  | none, _ => false

/-- Whether the candidate is a text that comes after the current one. -/
def isLater (candidate current : Option String) : Bool :=
  match orNone candidate, orNone current with
  | some text, some text' => decide (text' < text)
  | some _, none => true
  | none, _ => false

/-- `for x in new: if x not in merged: merged.append(x)` -/
def appendMissing {α : Type} [DecidableEq α] (merged new : List α) : List α :=
  new.foldl (fun merged x => if x ∈ merged then merged else merged ++ [x]) merged

theorem mem_appendMissing {α : Type} [DecidableEq α] {merged new : List α}
    {x : α} : x ∈ appendMissing merged new ↔ x ∈ merged ∨ x ∈ new := by
  induction new generalizing merged with
  | nil => simp [appendMissing]
  | cons y new ih =>
      rw [appendMissing, List.foldl_cons]
      change x ∈ appendMissing _ new ↔ _
      rw [ih, List.mem_cons]
      by_cases hy : y ∈ merged
      · rw [if_pos hy]
        grind
      · rw [if_neg hy]
        grind

def mergeContents (merged row : CanonicalTurnRow) : CanonicalTurnRow :=
  let merged :=
    if row.hasUser && !merged.hasUser then
      { merged with
        userContent := row.userContent
        userRawContent := row.userRawContent
        normalizedUserText := row.normalizedUserText
        canonicalTurnId :=
          if row.canonicalTurnId ≠ 0 then row.canonicalTurnId
          else merged.canonicalTurnId }
    else merged
  if row.hasAssistant && !merged.hasAssistant then
    { merged with
      assistantContent := row.assistantContent
      assistantRawContent := row.assistantRawContent
      normalizedAssistantText := row.normalizedAssistantText
      canonicalTurnId :=
        if merged.canonicalTurnId = 0 then row.canonicalTurnId
        else merged.canonicalTurnId }
  else merged

def mergeMetadata (merged row : CanonicalTurnRow) : CanonicalTurnRow :=
  { merged with
    primaryTag :=
      if row.primaryTag ≠ "" ∧
          (merged.primaryTag = "_general" ∨ merged.primaryTag = "")
      then row.primaryTag else merged.primaryTag
    sessionDate :=
      if merged.sessionDate = "" then row.sessionDate else merged.sessionDate
    sender := if merged.sender = "" then row.sender else merged.sender
    sourceBatchId :=
      if row.sourceBatchId.any (· ≠ 0) ∧ ¬ merged.sourceBatchId.any (· ≠ 0)
      then row.sourceBatchId else merged.sourceBatchId
    createdAt :=
      if isEarlier (some row.createdAt) (some merged.createdAt)
      then row.createdAt else merged.createdAt
    updatedAt :=
      if row.updatedAt ≠ "" ∧ merged.updatedAt < row.updatedAt
      then row.updatedAt else merged.updatedAt
    firstSeenAt :=
      if isEarlier row.firstSeenAt merged.firstSeenAt
      then row.firstSeenAt else merged.firstSeenAt
    lastSeenAt :=
      if isLater row.lastSeenAt merged.lastSeenAt
      then row.lastSeenAt else merged.lastSeenAt
    tags := appendMissing merged.tags row.tags
    factSignals := appendMissing merged.factSignals row.factSignals
    codeRefs := appendMissing merged.codeRefs row.codeRefs }

/-- `max(values)` if every member has a value, as for `tagged_at`. -/
def stampOfAll (values : List (Option String)) : Option String :=
  match values.filterMap orNone with
  | [] => none
  | value :: rest =>
      if (value :: rest).length = values.length then
        some (rest.foldl (fun best text => if best < text then text else best)
          value)
      else none

/-- The row that stands for a whole turn. -/
def mergeTurn (turnNumber : Int) (first : CanonicalTurnRow)
    (rest : List CanonicalTurnRow) : CanonicalTurnRow :=
  let members := first :: rest
  let merged : CanonicalTurnRow :=
    { conversationId := first.conversationId
      canonicalTurnId := first.canonicalTurnId
      turnNumber := turnNumber
      turnGroupNumber := turnNumber
      sortKey := (rest.map (·.sortKey)).foldl min first.sortKey
      turnHash := first.turnHash
      hashVersion := first.hashVersion
      primaryTag := orText (some first.primaryTag) "_general"
      sourceBatchId := first.sourceBatchId
      createdAt := first.createdAt
      updatedAt := first.updatedAt }
  { members.foldl (fun merged row => mergeMetadata (mergeContents merged row) row)
      merged with
    taggedAt := stampOfAll (members.map (·.taggedAt))
    compactedAt := stampOfAll (members.map (·.compactedAt)) }

/-- An entry of `grouped`, unless it has no members. -/
def mergeGroup : Int × List CanonicalTurnRow → Option (Int × CanonicalTurnRow)
  | (_, []) => none
  | (turnNumber, first :: rest) =>
      some (turnNumber, mergeTurn turnNumber first rest)

/-- `_merge_canonical_turn_rows`, as the entries of the dictionary it returns. -/
def mergeCanonicalTurnRows (rows : List CanonicalTurnRow) :
    List (Int × CanonicalTurnRow) :=
  (groupedRows rows).filterMap mergeGroup

/-! ## Numbering the rows -/

/--
The group number of each row.  `current` is the last number given out and
`pending` the number of a user row still waiting for its assistant row, or -1.
-/
def assignGroups : (current pending : Int) → List CanonicalTurnRow → List Int
  | _, _, [] => []
  | current, pending, row :: rows =>
      if row.hasUser && row.hasAssistant then
        (current + 1) :: assignGroups (current + 1) (-1) rows
      else if row.hasUser then
        (current + 1) :: assignGroups (current + 1) (current + 1) rows
      else if row.hasAssistant then
        if 0 ≤ pending then pending :: assignGroups current (-1) rows
        else (current + 1) :: assignGroups (current + 1) pending rows
      else (current + 1) :: assignGroups (current + 1) (-1) rows

/-- The numbering of a whole conversation. -/
def turnGroups (rows : List CanonicalTurnRow) : List Int :=
  assignGroups (-1) (-1) rows

end VirtualContext
