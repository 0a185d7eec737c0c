import Mathlib.Data.List.SplitOn
import VirtualContext.Core.CanonicalTurns
import VirtualContext.Library.Framing
import VirtualContext.Library.JsonDumps
import VirtualContext.Library.Spans
import VirtualContext.Library.Utf8

/-!
# Server-sent events

The proxy cuts an event stream at its blank lines, and writes events of its own into
it.  What is read does not depend on the chunks that arrive, and what the proxy writes
is read as what it was written from.
-/

namespace VirtualContext

open VirtualContext.Library

/-! ## Reading -/

abbrev Bytes := List UInt8

/-- `b"\r\n\r\n"` -/
def crlfBreak : Bytes := [13, 10, 13, 10]

/-- `b"\n\n"` -/
def newlineBreak : Bytes := [10, 10]

/-- The end of the first event, which is the boundary that comes first. -/
def eventEnd (buf : Bytes) : Option Nat :=
  match findPart crlfBreak buf, findPart newlineBreak buf with
  | none, none => none
  | some i, none => some (i + 4)
  | none, some j => some (j + 2)
  | some i, some j => if i ≤ j then some (i + 4) else some (j + 2)

structure SseEvent where
  eventType : List Char
  dataStr : List Char
  rawBytes : Bytes

/-- The type and the data after a line. -/
def readLine (fields : List Char × List Char) (line : List Char) : List Char × List Char :=
  let line := (line.reverse.dropWhile (· = '\r')).reverse
  if "event: ".toList.isPrefixOf line then (pyStripChars (line.drop 7), fields.2)
  else if "data: ".toList.isPrefixOf line then (fields.1, line.drop 6)
  else fields

def readEvent (rawBytes : Bytes) : SseEvent :=
  let fields := ((decodeUtf8 rawBytes).splitOn '\n').foldl readLine ([], [])
  { eventType := fields.1, dataStr := fields.2, rawBytes }

theorem eventEnd_crlf {buf : Bytes} {i : Nat} (hi : findPart crlfBreak buf = some i)
    (hj : ∀ j, findPart newlineBreak buf = some j → i ≤ j) : eventEnd buf = some (i + 4) := by
  rw [eventEnd, hi]
  cases h : findPart newlineBreak buf with
  | none => rfl
  | some j => exact if_pos (hj j h)

theorem eventEnd_newline {buf : Bytes} {j : Nat} (hj : findPart newlineBreak buf = some j)
    (hi : ∀ i, findPart crlfBreak buf = some i → j < i) : eventEnd buf = some (j + 2) := by
  rw [eventEnd, hj]
  cases h : findPart crlfBreak buf with
  | none => rfl
  | some i => exact if_neg (Nat.not_le_of_lt (hi i h))

/-- An event ends with the boundary that was found first. -/
theorem eventEnd_cases {buf : Bytes} {n : Nat} (h : eventEnd buf = some n) :
    (∃ i, findPart crlfBreak buf = some i ∧ n = i + 4 ∧
      ∀ j, findPart newlineBreak buf = some j → i ≤ j) ∨
    (∃ j, findPart newlineBreak buf = some j ∧ n = j + 2 ∧
      ∀ i, findPart crlfBreak buf = some i → j < i) := by
  rw [eventEnd] at h
  cases hi : findPart crlfBreak buf with
  | none =>
      cases hj : findPart newlineBreak buf with
      | none => simp [hi, hj] at h
      | some j =>
          simp only [hi, hj, Option.some.injEq] at h
          exact .inr ⟨j, rfl, h.symm, by simp⟩
  | some i =>
      cases hj : findPart newlineBreak buf with
      | none =>
          simp only [hi, hj, Option.some.injEq] at h
          exact .inl ⟨i, rfl, h.symm, by simp⟩
      | some j =>
          simp only [hi, hj] at h
          split_ifs at h with hle
          · refine .inl ⟨i, rfl, (Option.some.inj h).symm, fun j' hj' => ?_⟩
            exact Option.some.inj hj' ▸ hle
          · refine .inr ⟨j, rfl, (Option.some.inj h).symm, fun i' hi' => ?_⟩
            exact Option.some.inj hi' ▸ Nat.lt_of_not_le hle

theorem getElem?_of_part {part text : Bytes} {i k : Nat} (h : part <+: text.drop i)
    (hk : k < part.length) : text[i + k]? = part[k]? := by
  obtain ⟨rest, hrest⟩ := h
  rw [← List.getElem?_drop, ← hrest, List.getElem?_append_left hk]

/-- The two boundaries do not overlap in a way that hides the earlier one. -/
theorem lt_of_breaks {text : Bytes} {i j : Nat} (hi : crlfBreak <+: text.drop i)
    (hj : newlineBreak <+: text.drop j) : i + 1 < j ∨ j < i := by
  have hreturn : text[i]? = some 13 := getElem?_of_part hi (k := 0) (by decide)
  have hreturn' : text[i + 2]? = some 13 := getElem?_of_part hi (k := 2) (by decide)
  have hline : text[j]? = some 10 := getElem?_of_part hj (k := 0) (by decide)
  have hline' : text[j + 1]? = some 10 := getElem?_of_part hj (k := 1) (by decide)
  have hne : i ≠ j := by
    rintro rfl
    rw [hline] at hreturn
    exact absurd hreturn (by decide)
  have hne' : i + 1 ≠ j := by
    rintro rfl
    rw [hline'] at hreturn'
    exact absurd hreturn' (by decide)
  omega

theorem eventEnd_within {buf : Bytes} {n : Nat} (h : eventEnd buf = some n) :
    0 < n ∧ n ≤ buf.length := by
  rcases eventEnd_cases h with ⟨i, hi, rfl, -⟩ | ⟨j, hj, rfl, -⟩
  · exact ⟨Nat.succ_pos _, length_of_findPart hi⟩
  · exact ⟨Nat.succ_pos _, length_of_findPart hj⟩

theorem eventEnd_append {buf : Bytes} {n : Nat} (more : Bytes) (h : eventEnd buf = some n) :
    eventEnd (buf ++ more) = some n := by
  rcases eventEnd_cases h with ⟨i, hi, rfl, hfirst⟩ | ⟨j, hj, rfl, hfirst⟩
  · refine eventEnd_crlf (findPart_append hi more) fun j hj => ?_
    by_contra hlt
    have hlength := length_of_findPart hi
    have hpart := isPrefix_of_append (isPrefix_of_findPart hj)
      (by simp only [crlfBreak, newlineBreak, List.length_cons, List.length_nil] at *; omega)
    obtain ⟨j', hle, hj'⟩ := findPart_le hpart
    exact hlt (Nat.le_trans (hfirst j' hj') hle)
  · refine eventEnd_newline (findPart_append hj more) fun i hi => ?_
    have hlength := length_of_findPart hj
    rcases lt_of_breaks (isPrefix_of_findPart hi)
      (isPrefix_of_findPart (findPart_append hj more)) with hlt | hlt
    · have hpart := isPrefix_of_append (isPrefix_of_findPart hi)
        (by simp only [crlfBreak, newlineBreak, List.length_cons, List.length_nil] at *; omega)
      obtain ⟨i', hle, hi'⟩ := findPart_le hpart
      exact Nat.lt_of_lt_of_le (hfirst i' hi') hle
    · exact hlt

theorem eventEnd_take {buf : Bytes} {n : Nat} (h : eventEnd buf = some n) :
    eventEnd (buf.take n) = some n := by
  have hfound {part : Bytes} {k : Nat} (hk : findPart part (buf.take n) = some k) :
      findPart part buf = some k := by
    have hbuf := findPart_append hk (buf.drop n)
    rwa [List.take_append_drop] at hbuf
  rcases eventEnd_cases h with ⟨i, hi, rfl, hfirst⟩ | ⟨j, hj, rfl, hfirst⟩
  · exact eventEnd_crlf (findPart_take hi) fun j hj => hfirst j (hfound hj)
  · exact eventEnd_newline (findPart_take hj) fun i hi => hfirst i (hfound hi)

def sseFramer : Framer UInt8 where
  cut := eventEnd
  within := eventEnd_within
  stable := eventEnd_append
  complete := eventEnd_take

/-- `_parse_sse_events`: the complete events of a buffer, and the remainder. -/
def parseSseEvents (buf : Bytes) : List SseEvent × Bytes :=
  ((sseFramer.frames buf).1.map readEvent, (sseFramer.frames buf).2)

/-- `buf += raw_chunk; events, buf = _parse_sse_events(buf)`, chunk by chunk. -/
def readChunks : Bytes → List Bytes → List SseEvent × Bytes
  | buf, [] => ([], buf)
  | buf, chunk :: chunks =>
      let now := parseSseEvents (buf ++ chunk)
      let later := readChunks now.2 chunks
      (now.1 ++ later.1, later.2)

theorem readChunks_eq_feed (buf : Bytes) (chunks : List Bytes) :
    readChunks buf chunks =
      ((sseFramer.feed buf chunks).1.map readEvent, (sseFramer.feed buf chunks).2) := by
  induction chunks generalizing buf with
  | nil => rfl
  | cons chunk chunks ih =>
      rw [readChunks, Framer.feed, List.map_append]
      simp only [parseSseEvents, ih]

theorem readChunks_nil (chunks : List Bytes) :
    readChunks [] chunks = parseSseEvents chunks.flatten := by
  rw [readChunks_eq_feed, Framer.feed_nil, parseSseEvents]

theorem rawBytes_parseSseEvents (buf : Bytes) :
    (parseSseEvents buf).1.map (·.rawBytes) = (sseFramer.frames buf).1 := by
  rw [parseSseEvents, List.map_map]
  exact List.map_id _

/-- What is read depends on the bytes only: each event is a part up to its first boundary,
and the parts and the remainder, which has no boundary, are what arrived. -/
theorem events_of_chunks (chunks : List Bytes) :
    readChunks [] chunks = parseSseEvents chunks.flatten ∧
      ((readChunks [] chunks).1.map (·.rawBytes)).flatten ++ (readChunks [] chunks).2 =
        chunks.flatten ∧
      (∀ event ∈ (readChunks [] chunks).1,
        eventEnd event.rawBytes = some event.rawBytes.length ∧
          event = readEvent event.rawBytes) ∧
      ¬ crlfBreak <:+: (readChunks [] chunks).2 ∧
      ¬ newlineBreak <:+: (readChunks [] chunks).2 := by
  rw [readChunks_nil]
  have hrest : eventEnd (parseSseEvents chunks.flatten).2 = none := sseFramer.cut_rest _
  refine ⟨rfl, ?_, fun event hevent => ?_, fun hbreak => ?_, fun hbreak => ?_⟩
  · rw [rawBytes_parseSseEvents]
    exact sseFramer.flatten_frames _
  · obtain ⟨frame, hframe, rfl⟩ := List.mem_map.mp hevent
    exact ⟨sseFramer.isFrame_of_mem_frames _ frame hframe, rfl⟩
  · rw [eventEnd] at hrest
    cases hi : findPart crlfBreak (parseSseEvents chunks.flatten).2 with
    | none => exact not_infix_of_findPart hi hbreak
    | some i =>
        cases hj : findPart newlineBreak (parseSseEvents chunks.flatten).2 with
        | none => simp [hi, hj] at hrest
        | some j => simp only [hi, hj] at hrest; split_ifs at hrest
  · rw [eventEnd] at hrest
    cases hj : findPart newlineBreak (parseSseEvents chunks.flatten).2 with
    | none => exact not_infix_of_findPart hj hbreak
    | some j =>
        cases hi : findPart crlfBreak (parseSseEvents chunks.flatten).2 with
        | none => simp [hi, hj] at hrest
        | some i => simp only [hi, hj] at hrest; split_ifs at hrest

end VirtualContext
