import Mathlib.Algebra.Order.Ring.Unbundled.Rat
import VirtualContext.Library.Dictionary
import VirtualContext.Types

/-!
# Canonical turn identity, normalization and anchor matching

A turn is identified by the hash of its normalized texts, and a run of turns by
the hash of its turn hashes.  SHA-256 is a parameter that is assumed to be
collision free.
-/

namespace VirtualContext

open VirtualContext.Library

/-! ## Hashing -/

/-- A collision-free `hashlib.sha256(...).hexdigest()`. -/
structure Sha256 where
  hexdigest : List UInt8 → HexDigest
  injective : Function.Injective hexdigest
  nonempty : ∀ message, hexdigest message ≠ []

/-- The message itself, spelled out in hex digits and closed by a zero. -/
def Sha256.spell : List UInt8 → HexDigest
  | [] => [0]
  | byte :: message =>
      ⟨byte.toNat / 16 % 16, Nat.mod_lt _ (by decide)⟩ ::
        ⟨byte.toNat % 16, Nat.mod_lt _ (by decide)⟩ :: spell message

/-- A digest without collisions that can be evaluated. -/
def Sha256.spelled : Sha256 where
  hexdigest := spell
  injective message message' h := by
    induction message generalizing message' with
    | nil =>
        cases message' with
        | nil => rfl
        | cons byte' message' => simp [spell] at h
    | cons byte message ih =>
        cases message' with
        | nil => simp [spell] at h
        | cons byte' message' =>
            simp only [spell, List.cons.injEq, Fin.mk.injEq] at h
            obtain ⟨hhigh, hlow, hrest⟩ := h
            have hlt := byte.toNat_lt
            have hlt' := byte'.toNat_lt
            rw [ih message' hrest, UInt8.toNat_inj.mp (by omega : byte.toNat = byte'.toNat)]
  nonempty message := by cases message <;> simp [spell]

def HASH_VERSION : Nat := 1

/-- The ASCII code of one hex digit. -/
def hexByte (digit : Fin 16) : UInt8 :=
  if digit.val < 10 then UInt8.ofNat (48 + digit.val)
  else UInt8.ofNat (87 + digit.val)

theorem hexByte_ne_zero (digit : Fin 16) : hexByte digit ≠ 0 := by
  revert digit
  decide

theorem hexByte_injective : Function.Injective hexByte := by
  unfold Function.Injective
  decide

/-- What one row contributes to the digest of a window: its hash and `\0`. -/
def anchorBytes (row : CanonicalTurnRow) : List UInt8 :=
  row.turnHash.map hexByte ++ [0]

def computeAnchorHash (sha : Sha256) (rows : List CanonicalTurnRow)
    (start size : Nat) : HexDigest :=
  sha.hexdigest
    (UInt8.ofNat HASH_VERSION :: ((rows.drop start).take size).flatMap anchorBytes)

/-! ## Anchor indexes -/

/-- The starts of the windows with each digest. -/
abbrev AnchorIndex := Dictionary HexDigest Nat

def buildAnchorIndex (sha : Sha256) (rows : List CanonicalTurnRow)
    (windowSize : Nat) : AnchorIndex :=
  if windowSize = 0 ∨ rows.length < windowSize then []
  else Dictionary.ofPairs
    ((List.range (rows.length - windowSize + 1)).map fun start =>
      (computeAnchorHash sha rows start windowSize, start))

/-! ## Text normalization -/

/-- `str.isspace` for one character, which is also the class `\s`. -/
def isPySpace (c : Char) : Bool :=
  let n := c.toNat
  (9 ≤ n && n ≤ 13) || (28 ≤ n && n ≤ 32) || n == 0x85 || n == 0xA0 ||
    n == 0x1680 || (0x2000 ≤ n && n ≤ 0x200A) || n == 0x2028 || n == 0x2029 ||
    n == 0x202F || n == 0x205F || n == 0x3000

/-- The line boundaries of `str.splitlines`. -/
def isLineBreak (c : Char) : Bool :=
  let n := c.toNat
  (10 ≤ n && n ≤ 13) || (28 ≤ n && n ≤ 30) || n == 0x85 || n == 0x2028 ||
    n == 0x2029

def pyStripChars (text : List Char) : List Char :=
  ((text.dropWhile isPySpace).reverse.dropWhile isPySpace).reverse

/-- `str.strip()` -/
def pyStrip (text : String) : String :=
  String.ofList (pyStripChars text.toList)

/--
One pattern character under `re.IGNORECASE`.  Besides the two ASCII cases, the
letters `i` and `s` match the dotted, dotless and long forms.
-/
def matchesIgnoreCase (pattern c : Char) : Bool :=
  c.toLower == pattern || c == pattern ||
    (pattern == 'i' && (c.toNat == 0x130 || c.toNat == 0x131)) ||
    (pattern == 's' && c.toNat == 0x17F)

def matchLiteral : List Char → List Char → Option (List Char)
  | [], rest => some rest
  | _ :: _, [] => none
  | p :: pattern, c :: rest =>
      if matchesIgnoreCase p c then matchLiteral pattern rest else none

/-- Match `head[^\]]+\]` at the front, giving what follows the match. -/
def matchBracketed (head text : List Char) : Option (List Char) := do
  let rest ← matchLiteral head text
  let inside := rest.takeWhile (· != ']')
  match inside, rest.drop inside.length with
  | _ :: _, ']' :: after => some after
  | _, _ => none

/-- `pattern.sub(replacement, text)` for the pattern `head[^\]]+\]`. -/
def subBracketed (head replacement : List Char) : Nat → List Char → List Char
  | 0, text => text
  | _ + 1, [] => []
  | fuel + 1, c :: text =>
      match matchBracketed head (c :: text) with
      | some after => replacement ++ subBracketed head replacement fuel after
      | none => c :: subBracketed head replacement fuel text

/-- `text.replace("\r\n", "\n").replace("\r", "\n")` -/
def unifyNewlines : List Char → List Char
  | '\r' :: '\n' :: text => '\n' :: unifyNewlines text
  | '\r' :: text => '\n' :: unifyNewlines text
  | c :: text => c :: unifyNewlines text
  | [] => []

/-- `text.splitlines()`, once every `\r` is gone. -/
def splitlines : List Char → List (List Char)
  | [] => []
  | c :: text =>
      if isLineBreak c then [] :: splitlines text
      else match splitlines text with
        | [] => [[c]]
        | line :: lines => (c :: line) :: lines

/-- `_WS_RE.sub(" ", text)`; the flag says that a run of spaces is open. -/
def collapseSpaces : Bool → List Char → List Char
  | _, [] => []
  | inRun, c :: text =>
      if isPySpace c then
        if inRun then collapseSpaces true text else ' ' :: collapseSpaces true text
      else c :: collapseSpaces false text

def normalizeTurnText (text : String) : String :=
  let chars := text.toList
  let chars := subBracketed "[session from ".toList [] chars.length chars
  let chars := subBracketed "[media attached:".toList "[media attached]".toList
    chars.length chars
  let chars := unifyNewlines chars
  let chars := ((splitlines chars).map pyStripChars).intersperse ['\n'] |>.flatten
  String.ofList (pyStripChars (collapseSpaces false chars))

def computeTurnHash (sha : Sha256) (normalizedUser normalizedAssistant : String)
    (version : Nat) : HexDigest :=
  sha.hexdigest
    (UInt8.ofNat version :: normalizedUser.toUTF8.data.toList ++
      "\n---\n".toUTF8.data.toList ++ normalizedAssistant.toUTF8.data.toList)

def computeTurnHashFromRaw (sha : Sha256) (userText assistantText : String)
    (version : Nat) : HexDigest × String × String :=
  let normalizedUser := normalizeTurnText userText
  let normalizedAssistant := normalizeTurnText assistantText
  (computeTurnHash sha normalizedUser normalizedAssistant version,
    normalizedUser, normalizedAssistant)

def defaultSortKey (existing : List CanonicalTurnRow) : ℚ :=
  match existing.map (·.sortKey) with
  | [] => 1000
  | key :: keys => keys.foldl max key + 1000

end VirtualContext
