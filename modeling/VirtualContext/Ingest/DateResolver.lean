import VirtualContext.Core.SessionDates
import VirtualContext.Library.Calendar
import VirtualContext.Library.Vocabulary

/-!
# Relative dates in the texts of facts

A relative date is replaced by a date that is found from the date of the session.
Months and years are numbers of days, and of each expression the first one is
replaced.
-/

namespace VirtualContext

open VirtualContext.Library

namespace DateResolver

/-! ## Session dates -/

structure SessionTime where
  date : CalendarDate
  hour : Nat := 0
  minute : Nat := 0
  second : Nat := 0
  deriving DecidableEq, Repr

/-- A character of a field of `strptime`. -/
inductive FieldClass where
  | range (least most : Nat)
  /-- `\d` -/
  | digit
  | blank

/-- A directive with its alternatives, or a character of the format. -/
inductive FormatPart where
  | field (alternatives : List (List FieldClass))
  | letter (c : Char)

def yearField : FormatPart := .field [[.digit, .digit, .digit, .digit]]

def monthField : FormatPart :=
  .field [[.range 1 1, .range 0 2], [.range 0 0, .range 1 9], [.range 1 9]]

def dayField : FormatPart :=
  .field [[.range 3 3, .range 0 1], [.range 1 2, .digit], [.range 0 0, .range 1 9],
    [.range 1 9], [.blank, .range 1 9]]

def hourField : FormatPart :=
  .field [[.range 2 2, .range 0 3], [.range 0 1, .digit], [.digit]]

def minuteField : FormatPart := .field [[.range 0 5, .digit], [.digit]]

def secondField : FormatPart :=
  .field [[.range 6 6, .range 0 1], [.range 0 5, .digit], [.digit]]

section

variable (classes : CharClasses)

def FieldClass.read : FieldClass → Char → Option Nat
  | .range least most, c =>
      if c.isDigit ∧ least ≤ c.toNat - 48 ∧ c.toNat - 48 ≤ most then some (c.toNat - 48)
      else none
  | .digit, c => classes.digit c
  | .blank, c => if c = ' ' then some 0 else none

def readField : List FieldClass → Nat → List Char → Option (Nat × List Char)
  | [], value, text => some (value, text)
  | _ :: _, _, [] => none
  | field :: fields, value, c :: text =>
      (field.read classes c).bind fun digit => readField fields (value * 10 + digit) text

/-- The first match of a format, with the text behind it. -/
def matchFormat : List FormatPart → List Char → Option (List Nat × List Char)
  | [], text => some ([], text)
  | .letter _ :: _, [] => none
  | .letter letter :: parts, c :: text =>
      if classes.sameLetter letter c then matchFormat parts text else none
  | .field alternatives :: parts, text =>
      alternatives.findSome? fun fields =>
        (readField classes fields 0 text).bind fun (value, rest) =>
          (matchFormat parts rest).map fun (values, rest) => (value :: values, rest)

def calendarDay (year month day : Nat) : Option CalendarDate :=
  if h : (1 ≤ year ∧ year ≤ 9999) ∧ (1 ≤ month ∧ month ≤ 12) ∧
      1 ≤ day ∧ day ≤ daysInMonth year month then
    some ⟨year, month, day, h⟩
  else none

def sessionTimeOf : List Nat → Option SessionTime
  | [year, month, day] => (calendarDay year month day).map fun date => { date := date }
  | [year, month, day, hour, minute, second] =>
      if second < 60 then
        (calendarDay year month day).map fun date => { date, hour, minute, second }
      else none
  | _ => none

/-- `datetime.strptime` of the first characters, unless it raises. -/
def strptime (parts : List FormatPart) (width : Nat) (text : List Char) : Option SessionTime :=
  (matchFormat classes parts ((pyStripChars text).take width)).bind fun (values, rest) =>
    if rest = [] then sessionTimeOf values else none

/-- The formats with the characters that are read, two more than they have. -/
def sessionFormats : List (List FormatPart × Nat) :=
  [([yearField, .letter '-', monthField, .letter '-', dayField, .letter 'T', hourField,
      .letter ':', minuteField, .letter ':', secondField], 19),
   ([yearField, .letter '-', monthField, .letter '-', dayField], 10),
   ([yearField, .letter '/', monthField, .letter '/', dayField], 10)]

/-- `_MONTH_MAP` -/
def monthMap : List (String × Nat) :=
  [("january", 1), ("february", 2), ("march", 3), ("april", 4), ("may", 5), ("june", 6),
   ("july", 7), ("august", 8), ("september", 9), ("october", 10), ("november", 11),
   ("december", 12)]

def isDigit (c : Char) : Bool := (classes.digit c).isSome

def someSpaces : Regex Char := .plus (.char isPySpace)

/-- `\d{1,2}:\d{2}\s*(?:am|pm)\s+on\s+` -/
def clockTime : Regex Char :=
  .seq (.char (isDigit classes)) (.seq (.upTo 1 (isDigit classes)) (.seq (.char (· = ':'))
    (.seq (.char (isDigit classes)) (.seq (.char (isDigit classes)) (.seq (.many isPySpace)
      (.seq (.alt (spelled classes.sameLetter "am".toList)
          (spelled classes.sameLetter "pm".toList))
        (.seq someSpaces (.seq (spelled classes.sameLetter "on".toList) someSpaces))))))))

/-- What a match takes between two positions. -/
def taken (start stop : List Char × List Char) : List Char :=
  start.2.take (start.2.length - stop.2.length)

/-- The groups of `_VC_SESSION_RE` at a position: day, month and year. -/
def matchSession (before text : List Char) : Option (List Char × List Char × List Char) :=
  (((Regex.opt (clockTime classes)).run before text).flatMap fun start =>
    ((Regex.seq (.char (isDigit classes)) (.upTo 1 (isDigit classes))).run start.1
        start.2).flatMap fun afterDay =>
      (someSpaces.run afterDay.1 afterDay.2).flatMap fun beforeMonth =>
        ((Regex.plus (.char classes.isWord)).run beforeMonth.1 beforeMonth.2).flatMap
          fun afterMonth =>
            ((Regex.seq (.upTo 1 (· = ',')) someSpaces).run afterMonth.1 afterMonth.2).flatMap
              fun beforeYear =>
                ((Regex.seq (.char (isDigit classes)) (.seq (.char (isDigit classes))
                    (.seq (.char (isDigit classes)) (.char (isDigit classes))))).run
                  beforeYear.1 beforeYear.2).map fun stop =>
                    (taken start afterDay, taken beforeMonth afterMonth, taken beforeYear stop)
    ).head?

def searchSession (before : List Char) : List Char →
    Option (List Char × List Char × List Char)
  | [] => matchSession classes before []
  | c :: text => matchSession classes before (c :: text) <|> searchSession (c :: before) text

/-- `parse_session_date` -/
def parseSessionDate (s : String) : Option SessionTime :=
  if s = "" then none
  else
    (sessionFormats.findSome? fun format => strptime classes format.1 format.2 s.toList) <|>
      (searchSession classes [] s.toList).bind fun (day, month, year) =>
        (monthMap.lookup (classes.lower (String.ofList month))).bind fun month =>
          (classes.readNumber year.length year).bind fun year =>
            (classes.readNumber day.length day).bind fun day =>
              (calendarDay year month day).map fun date => { date := date }

end

/-! ## Dates as text -/

def monthNames : List String :=
  ["January", "February", "March", "April", "May", "June", "July", "August", "September",
   "October", "November", "December"]

def weekdayNames : List String :=
  ["Monday", "Tuesday", "Wednesday", "Thursday", "Friday", "Saturday", "Sunday"]

section

variable (date : CalendarDate)

/-- `%B` -/
def monthName : List Char := (monthNames.getD (date.month - 1) "").toList

/-- `%-d` -/
def dayNumber : List Char := if date.day < 10 then digits 1 date.day else digits 2 date.day

/-- `%Y` -/
def yearNumber : List Char := digits 4 date.year

/-- `%A` -/
def weekdayName : List Char :=
  (weekdayNames.getD ((date.ordinal - daysBefore 12 + 6) % 7) "").toList

/-- `%B %-d, %Y` -/
def dayText : List Char :=
  monthName date ++ ' ' :: (dayNumber date ++ ',' :: ' ' :: yearNumber date)

/-- `%B %Y` -/
def monthText : List Char := monthName date ++ ' ' :: yearNumber date

/-- `%Y-%m-%d` -/
def isoText : List Char :=
  yearNumber date ++ '-' :: (digits 2 date.month ++ '-' :: digits 2 date.day)

end

/-! ## Normalizing texts -/

/-- One of the expressions. -/
def anyOf : List (Regex Char) → Regex Char
  | [] => .char fun _ => false
  | r :: rs => .alt r (anyOf rs)

def vagueTerms : List String :=
  ["recently", "a while ago", "some time ago", "long ago", "ages ago", "in the past"]

/-- `_VAGUE_TERMS` -/
def vagueTerm (classes : CharClasses) : Regex Char :=
  .seq (.boundary classes.isWord)
    (.seq (anyOf (vagueTerms.map fun term => spelled classes.sameLetter term.toList))
      (.boundary classes.isWord))

def dayNames : List String :=
  ["monday", "tuesday", "wednesday", "thursday", "friday", "saturday", "sunday"]

/-- `\blast\s+day\b` -/
def lastDay (classes : CharClasses) (day : String) : Regex Char :=
  .seq (.boundary classes.isWord) (.seq (spelled classes.sameLetter "last".toList)
    (.seq someSpaces (.seq (spelled classes.sameLetter day.toList)
      (.boundary classes.isWord))))

/-- `\bexpression\b` -/
def expression (classes : CharClasses) (name : String) : Regex Char :=
  phrase classes.isWord classes.sameLetter name.toList

/-- `_TEXT_REPLACEMENTS` -/
def textReplacements : List (String × Int) :=
  [("yesterday", -1), ("last night", -1), ("tomorrow", 1), ("last week", -7), ("next week", 7),
   ("last month", -30), ("next month", 30), ("last year", -365), ("next year", 365),
   ("last weekend", -2)]

structure Replacement where
  pattern : String
  regex : Regex Char
  text : List Char

/-- The text that takes the place of an expression. -/
def offsetText (offset : Int) (target : CalendarDate) : List Char :=
  if offset.natAbs ≤ 7 then 'o' :: 'n' :: ' ' :: dayText target
  else if offset.natAbs ≤ 31 then 'i' :: 'n' :: ' ' :: monthText target
  else 'i' :: 'n' :: ' ' :: yearNumber target

section

variable (classes : CharClasses) (dateparser : String → SessionTime → Option CalendarDate)
  (ref : SessionTime) (text : List Char)

/-- The days of the week that are found and that `dateparser` resolves. -/
def dayReplacements : List Replacement :=
  dayNames.filterMap fun day =>
    if (lastDay classes day).search text then
      (dateparser day ref).map fun resolved =>
        { pattern := "last " ++ day
          regex := lastDay classes day
          text := 'o' :: 'n' :: ' ' :: (weekdayName resolved ++ ',' :: ' ' :: dayText resolved) }
    else none

/-- The other expressions that are found; it raises if a date is out of range. -/
def addOffsets : List (String × Int) → List Replacement → Option (List Replacement)
  | [], replacements => some replacements
  | (name, offset) :: table, replacements =>
      if (expression classes name).search text && !replacements.any (·.pattern = name) then
        match ref.date.addDays offset with
        | none => none
        | some target =>
            addOffsets table (replacements ++
              [{ pattern := name
                 regex := expression classes name
                 text := offsetText offset target }])
      else addOffsets table replacements

def replaceEach (replacements : List Replacement) : List Char :=
  replacements.foldl (fun text r => r.regex.replaceFirst r.text text) text

end

section

variable (classes : CharClasses) (dateparser : String → SessionTime → Option CalendarDate)

/-- `normalize_fact_text`; no result if it raises. -/
def normalizeFactText (text sessionDate : String) : Option String :=
  if text = "" ∨ sessionDate = "" then some text
  else
    match parseSessionDate classes sessionDate with
    | none => some text
    | some ref =>
        if (vagueTerm classes).search text.toList then some text
        else
          (addOffsets classes ref text.toList textReplacements
              (dayReplacements classes dateparser ref text.toList)).map fun replacements =>
            String.ofList (replaceEach text.toList replacements)

/-- `_SIMPLE_OFFSETS` -/
def simpleOffsets : List (String × Int) :=
  [("yesterday", -1), ("tomorrow", 1), ("last night", -1), ("today", 0), ("this morning", 0),
   ("this afternoon", 0), ("this evening", 0), ("tonight", 0), ("last week", -7),
   ("next week", 7), ("last month", -30), ("next month", 30), ("last year", -365),
   ("next year", 365)]

/-- `_try_regex_fallback`; no result if it raises. -/
def tryRegexFallback (text : String) (ref : SessionTime) : Option (Option String) :=
  let textLower := (classes.lower text).toList
  match simpleOffsets.find? fun entry =>
      (phrase classes.isWord (fun c d => decide (c = d)) entry.1.toList).search textLower with
  | none => some none
  | some entry =>
      (ref.date.addDays entry.2).map fun target => some (String.ofList (isoText target))

end

end DateResolver

end VirtualContext
