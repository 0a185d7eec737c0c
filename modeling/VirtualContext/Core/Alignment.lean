import VirtualContext.Storage.Tables

/-!
# Aligning an incoming payload with the stored turns

`_find_alignment` compares turn hashes only.  Three shortcuts come first, then
an exhaustive search when one side has fewer than three turns, then a search
for shared windows of five, four and three turns, each extended in both
directions.
-/

namespace VirtualContext

open VirtualContext.Library

structure Alignment where
  existingStart : Nat
  incomingStart : Nat
  overlapLen : Nat
  windowSize : Nat
  mergeMode : MergeMode
  deriving DecidableEq, Repr

/-- `hashes[start:start + size]` -/
def slice {α : Type} (xs : List α) (start size : Nat) : List α :=
  (xs.drop start).take size

/-- `xs[index]`, which raises beyond the end. -/
def pyGet {α : Type} (xs : List α) (index : Nat) : Except Exc α :=
  match xs[index]? with
  | some x => .ok x
  | none => .error .indexError

section

variable (existing incoming : List HexDigest)

/-- The checks made before any search. -/
def shortcutAlignment : Option Alignment :=
  if existing = incoming then
    some ⟨0, 0, existing.length, 0, .exactResend⟩
  else if existing.length ≤ incoming.length ∧
      incoming.take existing.length = existing then
    some ⟨0, 0, existing.length, 0, .tailAppend⟩
  else if existing.length ≤ incoming.length ∧
      incoming.drop (incoming.length - existing.length) = existing then
    some ⟨0, incoming.length - existing.length, existing.length, 0,
      .prefixWidening⟩
  else none

def alignmentMode (existingStart incomingStart overlapLen : Nat) : MergeMode :=
  if overlapLen = incoming.length then .exactResend
  else if incomingStart = 0 ∧ existingStart = 0 then
    if incoming.length > overlapLen then .tailAppend else .exactResend
  else if existingStart = 0 ∧ 0 < incomingStart ∧
      incomingStart + overlapLen = incoming.length then .prefixWidening
  else .interiorOverlap

/-- The longest shared slice, the earliest incoming and then existing one. -/
def shortOverlap : Option Alignment :=
  let maxOverlap := min existing.length incoming.length
  ((List.range maxOverlap).reverse.map (· + 1)).findSome? fun overlapLen =>
    (List.range (incoming.length - overlapLen + 1)).findSome? fun incomingStart =>
      (List.range (existing.length - overlapLen + 1)).findSome? fun existingStart =>
        if slice existing existingStart overlapLen =
            slice incoming incomingStart overlapLen then
          some ⟨existingStart, incomingStart, overlapLen, overlapLen,
            alignmentMode incoming existingStart incomingStart overlapLen⟩
        else none

/-- How far two windows agree to the left of their starts. -/
def extendLeft : (incomingStart existingStart : Nat) → Except Exc Nat
  | incomingStart + 1, existingStart + 1 => do
      let hash ← pyGet incoming incomingStart
      let stored ← pyGet existing existingStart
      if hash = stored then
        let left ← extendLeft incomingStart existingStart
        pure (left + 1)
      else pure 0
  | _, _ => pure 0

/-- The length of the longest common prefix. -/
def commonPrefixLength : List HexDigest → List HexDigest → Nat
  | hash :: hashes, stored :: storeds =>
      if hash = stored then commonPrefixLength hashes storeds + 1 else 0
  | _, _ => 0

/-- A shared window, extended in both directions. -/
def extendWindow (windowSize incomingStart existingStart : Nat) :
    Except Exc Alignment := do
  let left ← extendLeft existing incoming incomingStart existingStart
  let right := windowSize +
    commonPrefixLength (incoming.drop (incomingStart + windowSize))
      (existing.drop (existingStart + windowSize))
  pure ⟨existingStart - left, incomingStart - left, left + right, windowSize,
    alignmentMode incoming (existingStart - left) (incomingStart - left)
      (left + right)⟩

/-- Keep the first of the longest candidates. -/
def betterAlignment (best : Option Alignment) (candidate : Alignment) :
    Option Alignment :=
  match best with
  | none => some candidate
  | some current =>
      if candidate.overlapLen > current.overlapLen ∨
          (candidate.overlapLen = current.overlapLen ∧
            candidate.windowSize > current.windowSize)
      then some candidate else some current

/-- The positions at which some window of both sides has the same digest. -/
def sharedWindows (existingIndex incomingIndex : AnchorIndex) :
    List (Nat × Nat) :=
  incomingIndex.flatMap fun entry =>
    entry.2.flatMap fun incomingStart =>
      (existingIndex.get entry.1).map fun existingStart =>
        (incomingStart, existingStart)

def bestWindow (windowSize : Nat) (windows : List (Nat × Nat)) :
    Except Exc (Option Alignment) :=
  windows.foldlM (fun best window => do
    let candidate ← extendWindow existing incoming windowSize window.1 window.2
    pure (betterAlignment best candidate)) none

end

/-! ## The alignment against given anchor indexes -/

/--
The window search for the listed sizes.  An empty index of the stored turns
skips its size.
-/
def searchWindows (sha : Sha256) (existing incoming : List CanonicalTurnRow)
    (index : Nat → AnchorIndex) : List Nat → Except Exc (Option Alignment)
  | [] => .ok none
  | windowSize :: sizes =>
      if (index windowSize).isEmpty then
        searchWindows sha existing incoming index sizes
      else do
        let best ← bestWindow (existing.map (·.turnHash))
          (incoming.map (·.turnHash)) windowSize
          (sharedWindows (index windowSize)
            (buildAnchorIndex sha incoming windowSize))
        match best with
        | some best => pure (some best)
        | none => searchWindows sha existing incoming index sizes

/-- What `_find_alignment` does before it looks at any anchor. -/
def anchorFreeAlignment (existing incoming : List CanonicalTurnRow)
    (allowShortOverlap : Bool) : Option Alignment :=
  match shortcutAlignment (existing.map (·.turnHash))
      (incoming.map (·.turnHash)) with
  | some alignment => some alignment
  | none =>
      if allowShortOverlap ∧ min existing.length incoming.length < 3 then
        shortOverlap (existing.map (·.turnHash)) (incoming.map (·.turnHash))
      else none

/-- `_find_alignment`, given the anchor index it loads for each window size. -/
def alignWith (sha : Sha256) (index : Nat → AnchorIndex)
    (existing incoming : List CanonicalTurnRow) (allowShortOverlap : Bool) :
    Except Exc (Option Alignment) :=
  if existing.isEmpty || incoming.isEmpty then .ok none
  else
    match anchorFreeAlignment existing incoming allowShortOverlap with
    | some alignment => .ok (some alignment)
    | none => searchWindows sha existing incoming index [5, 4, 3]

end VirtualContext
