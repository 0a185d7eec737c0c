import VirtualContext.Core.SessionDates
import VirtualContext.Library.Regex
import VirtualContext.Library.Trimming
import VirtualContext.Proxy.PayloadTokens

/-!
# Message envelopes

Clients wrap a message in up to seven layers.  `_strip_envelope` takes them off
in a fixed order, each at most once but for the metadata blocks and the event
lines.
-/

namespace VirtualContext

open VirtualContext.Library

/-! ## The layers -/

/-- `\d` -/
def CharClasses.isDigit (classes : CharClasses) (c : Char) : Bool := (classes.digit c).isSome

def vcPromptMarker : Text := "[vc:prompt]\n".toList

def memosQueryDelim : Text :=
  "user\u200b原\u200b始\u200bquery\u200b：\u200b\u200b\u200b\u200b".toList

def rolePreamble : Text := "# Role".toList

def userOpening : Text := "[vc:user]".toList

def userClosing : Text := "[/vc:user]".toList

def lit (text : String) : Regex Char := .word text.toList

/-- One expression after another. -/
def inOrder : List (Regex Char) → Regex Char
  | [] => .word []
  | r :: rs => .seq r (inOrder rs)

def isUpperAscii (c : Char) : Bool := 'A' ≤ c && c ≤ 'Z'

def isLetterAscii (c : Char) : Bool := isUpperAscii c || 'a' ≤ c && c ≤ 'z'

/-- `_SYSTEM_EVENT_RE` -/
def systemEventRe : Regex Char :=
  .plus (inOrder
    [lit "System:", .many isPySpace, lit "[", .many (· != ']'), lit "]", .many (· != '\n'),
      .char (· == '\n'), .many (· == '\n')])

/-- `_CHANNEL_HEADER_RE` -/
def channelHeaderRe (classes : CharClasses) : Regex Char :=
  inOrder
    [lit "[", .char isUpperAscii, .many isLetterAscii, .char isPySpace, .many (· != ']'),
      .boundary classes.isWord, lit "id:", .opt (lit "-"), .char classes.isDigit,
      .many classes.isDigit, .boundary classes.isWord, .many (· != ']'), lit "]",
      .many isPySpace]

/-- `_MESSAGE_ID_RE` -/
def messageIdRe (classes : CharClasses) : Regex Char :=
  inOrder
    [.opt (lit "\n"), lit "[message_id:", .many isPySpace, .char classes.isDigit,
      .many classes.isDigit, lit "]", .many isPySpace, .atEnd '\n']

/-- A JSON object or array without a backtick. -/
def jsonBody (front back : String) : Regex Char :=
  inOrder [lit front, .manyLazy (· != '\x60'), lit back]

/-- `_METADATA_BLOCK_RE` -/
def metadataBlockRe : Regex Char :=
  inOrder
    [.char isUpperAscii, .upTo 80 (fun c => c != '\n' && c != '('), .many isPySpace, lit "(",
      .many (· != ')'), lit ")", .many isPySpace, lit ":", .many isPySpace, lit "\n",
      lit "```", .opt (lit "json"), .many isPySpace, lit "\n",
      .alt (jsonBody "\x7b" "\x7d") (jsonBody "[" "]"), .many isPySpace, lit "\n",
      lit "```", .many isPySpace, .opt (lit "\n")]

/-! ## Stripping -/

def lstrip (text : Text) : Text := text.dropWhile isPySpace

/-- The marker of the tagger, with the blanks behind it. -/
def stripMarker (text : Text) : Text :=
  if vcPromptMarker.isPrefixOf text then lstrip (text.drop vcPromptMarker.length) else text

/-- The preamble up to the delimiter of the query. -/
def stripPreamble (text : Text) : Text :=
  if rolePreamble.isPrefixOf text then
    match splitOnce memosQueryDelim text with
    | some (_, after) => lstrip after
    | none => text
  else text

/-- `_VC_USER_RE`: what the wrapper holds. -/
def userContent? (text : Text) : Option Text :=
  if userOpening.isPrefixOf text then
    (splitOnce userClosing (text.drop userOpening.length)).map Prod.fst
  else none

/-- The loop over the metadata blocks, each of which takes characters. -/
def stripMetadataBlocksFrom : (fuel : Nat) → Text → Text
  | 0, text => lstrip text
  | fuel + 1, text =>
      match metadataBlockRe.stripped? (lstrip text) with
      | some rest => stripMetadataBlocksFrom fuel rest
      | none => lstrip text

def stripMetadataBlocks (text : Text) : Text := stripMetadataBlocksFrom text.length text

/-- What remains without a wrapper. -/
def stripLayers (classes : CharClasses) (text : Text) : Text :=
  let text := systemEventRe.strip (stripMetadataBlocks text)
  let text := (channelHeaderRe classes).strip text
  pyStripChars ((messageIdRe classes).remove text)

/-- `_strip_envelope`; the content of a wrapper is taken to be clean. -/
def stripEnvelope (classes : CharClasses) (text : Text) : Text :=
  if text = [] then []
  else
    let text := stripPreamble (stripMarker text)
    match userContent? text with
    | some inner => pyStripChars inner
    | none => stripLayers classes text

end VirtualContext
