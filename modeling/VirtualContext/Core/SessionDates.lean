import VirtualContext.Ingest.Supersession

/-!
# Dates in texts

Session dates are looked for in free text by regular expressions, one format
after another.  A date of a fact is read from its first ten characters, and
looked for as a session date if that fails.
-/

namespace VirtualContext

open VirtualContext.Library

/-! ## Patterns -/

/-- What `re` says about characters, some of it beyond ASCII. -/
structure CharClasses where
  /-- `\d`, with the value that `int` gives it -/
  digit : Char → Option Nat
  isWord : Char → Bool
  /-- Equal under `re.IGNORECASE`. -/
  sameLetter : Char → Char → Bool
  lower : String → String

/-- A part of a pattern; groups capture numbers and words. -/
inductive PatternPart where
  /-- `\b` -/
  | boundary
  /-- `(\d{least,most})` -/
  | number (least most : Nat)
  /-- `[...]` -/
  | oneOf (separators : List Char)
  /-- `[...\s]+` -/
  | someOf (separators : List Char)
  /-- `(...|...)` -/
  | word (alternatives : List String)

inductive Capture where
  | number (value : Nat)
  | word (text : String)
  deriving DecidableEq, Repr

namespace CharClasses

variable (classes : CharClasses)

/-- The value of the first characters, if they are digits. -/
def readNumber (width : Nat) (text : List Char) : Option Nat :=
  if text.length < width then none
  else
    (text.take width).foldlM (fun value c =>
      (classes.digit c).map (value * 10 + ·)) 0

def startsWith : List Char → List Char → Bool
  | [], _ => true
  | _ :: _, [] => false
  | letter :: word, c :: text => classes.sameLetter letter c && startsWith word text

/-- The first characters and the rest, with the character before the rest. -/
def splitAfter (n : Nat) (previous : Option Char) (text : List Char) :
    Option Char × List Char :=
  ((text.take n).getLast?.or previous, text.drop n)

/-- `re.match` at a place; the longer of two repetitions is tried first. -/
def matchParts : List PatternPart → Option Char → List Char →
    Option (List Capture)
  | [], _, _ => some []
  | .boundary :: parts, previous, text =>
      if previous.any classes.isWord ≠ text.head?.any classes.isWord then
        matchParts parts previous text
      else none
  | .number least most :: parts, previous, text =>
      (List.range (most + 1 - least)).findSome? fun k =>
        (classes.readNumber (most - k) text).bind fun value =>
          let (previous, rest) := splitAfter (most - k) previous text
          (matchParts parts previous rest).map (.number value :: ·)
  | .oneOf separators :: parts, _, text =>
      match text with
      | [] => none
      | c :: rest => if c ∈ separators then matchParts parts (some c) rest else none
  | .someOf separators :: parts, previous, text =>
      let width := (text.takeWhile fun c => c ∈ separators || isPySpace c).length
      (List.range width).findSome? fun k =>
        let (previous, rest) := splitAfter (width - k) previous text
        matchParts parts previous rest
  | .word alternatives :: parts, previous, text =>
      alternatives.findSome? fun word =>
        if classes.startsWith word.toList text then
          let (previous, rest) := splitAfter word.length previous text
          (matchParts parts previous rest).map
            (.word (String.ofList (text.take word.length)) :: ·)
        else none

/-- `re.search`: the leftmost place at which the pattern matches. -/
def searchParts (parts : List PatternPart) (previous : Option Char) :
    List Char → Option (List Capture)
  | [] => classes.matchParts parts previous []
  | c :: text =>
      classes.matchParts parts previous (c :: text) <|>
        searchParts parts (some c) text

end CharClasses

/-- What `re` says about ASCII. -/
def asciiClasses : CharClasses where
  digit c := if c.isDigit then some (c.toNat - 48) else none
  isWord c := c.isAlphanum || c = '_'
  sameLetter c d := c.toLower = d.toLower
  lower := String.toLower

/-! ## Session dates -/

/-- `_MONTH_MAP`, longer names first. -/
def monthMap : List (String × Nat) :=
  [("september", 9), ("february", 2), ("november", 11), ("december", 12),
   ("january", 1), ("october", 10), ("august", 8), ("march", 3), ("april", 4),
   ("june", 6), ("july", 7), ("sept", 9), ("may", 5), ("jan", 1), ("feb", 2),
   ("mar", 3), ("apr", 4), ("jun", 6), ("jul", 7), ("aug", 8), ("sep", 9),
   ("oct", 10), ("nov", 11), ("dec", 12)]

def monthPattern : PatternPart := .word (monthMap.map Prod.fst)

/-- `date(year, month, day)`, unless it raises. -/
def calendarDate (year month day : Nat) : Option Date :=
  if 1 ≤ year ∧ year ≤ 9999 ∧ 1 ≤ month ∧ month ≤ 12 ∧ 1 ≤ day ∧
      day ≤ daysInMonth year month then
    some (year * 10000 + month * 100 + day)
  else none

/-- `date.isoformat()` -/
def Date.isoformat (date : Date) : String :=
  String.ofList (digits 4 (date / 10000) ++ '-' ::
    (digits 2 (date / 100 % 100) ++ '-' :: digits 2 (date % 100)))

def isoNumeric : List PatternPart :=
  [.boundary, .number 4 4, .oneOf ['-', '/'], .number 2 2, .oneOf ['-', '/'],
    .number 2 2, .boundary]

def monthDayYear : List PatternPart :=
  [.boundary, monthPattern, .someOf ['-', '.'], .number 1 2,
    .someOf ['-', ',', '.'], .number 4 4, .boundary]

def dayMonthYear : List PatternPart :=
  [.boundary, .number 1 2, .someOf ['-', '.'], monthPattern,
    .someOf ['-', ',', '.'], .number 4 4, .boundary]

def monthYear : List PatternPart :=
  [.boundary, monthPattern, .someOf ['-', '.'], .number 4 4, .boundary]

def yearMonth : List PatternPart :=
  [.boundary, .number 4 4, .oneOf ['-', '/'], .number 2 2, .boundary]

/-- The date that the captures of a format stand for. -/
def dateOfCaptures (classes : CharClasses) : List Capture → Option Date
  | [.number year, .number month, .number day] => calendarDate year month day
  | [.word name, .number day, .number year]
  | [.number day, .word name, .number year] =>
      (monthMap.lookup (classes.lower name)).bind (calendarDate year · day)
  | [.word name, .number year] =>
      (monthMap.lookup (classes.lower name)).bind (calendarDate year · 1)
  | [.number year, .number month] => calendarDate year month 1
  | _ => none

/-- `_parse_session_date` -/
def parseSessionDate (classes : CharClasses) (raw : String) : Option Date :=
  let text := pyStripChars raw.toList
  [isoNumeric, monthDayYear, dayMonthYear, monthYear, yearMonth].findSome?
    fun parts => (classes.searchParts parts none text).bind (dateOfCaptures classes)

/-- `date.fromisoformat` of a text of the form `\d{4}-\d{2}-\d{2}` -/
def readIsoDate (text : List Char) : Option Date := do
  let (year, text) ← readDigits 4 text
  let text ← expect '-' text
  let (month, text) ← readDigits 2 text
  let text ← expect '-' text
  let (day, text) ← readDigits 2 text
  if text = [] then calendarDate year month day else none

/-- `_parse_fact_date` -/
def parseFactDate (classes : CharClasses) (raw : String) : Option Date :=
  let text := pyStripChars raw.toList
  readIsoDate (text.take 10) <|> parseSessionDate classes (String.ofList text)

end VirtualContext
