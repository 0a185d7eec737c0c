import VirtualContext.Library.Trimming
import VirtualContext.Proxy.SseEvents

/-!
# The events that the proxy writes

Texts and tool calls of a continuation are written into the stream of the client, in
the events of the format it speaks.
-/

namespace VirtualContext

open VirtualContext.Library

/-- `repr` of a float and `str` of a decoded value. -/
structure PyText where
  floatRepr : ℚ → List Char
  str : Json → List Char

/-- An event with its data, before it is written. -/
structure WrittenEvent where
  eventType : String
  payload : List (String × Json)

/-- The type is the first entry of the data. -/
def writtenEvent (eventType : String) (fields : List (String × Json)) : WrittenEvent :=
  ⟨eventType, ("type", .str eventType) :: fields⟩

namespace WrittenEvent

/-- `json.dumps` of the data -/
def data (py : PyText) (event : WrittenEvent) : List Char :=
  (Json.obj event.payload).dumps py.floatRepr

/-- `f"event: {type}\ndata: {data}\n\n".encode()` -/
def bytes (py : PyText) (event : WrittenEvent) : Bytes :=
  encodeUtf8 ("event: ".toList ++ event.eventType.toList ++ "\ndata: ".toList ++
    event.data py ++ "\n\n".toList)

/-- The event as the client reads it. -/
def asRead (py : PyText) (event : WrittenEvent) : SseEvent where
  eventType := event.eventType.toList
  dataStr := event.data py
  rawBytes := event.bytes py

end WrittenEvent

/-! ## The emitters -/

/-- `_emit_text_as_sse` -/
def emitTextAsSse (text : String) (blockIndex : Nat) : List WrittenEvent :=
  [writtenEvent "content_block_start" [("index", .int blockIndex),
      ("content_block", .obj [("type", .str "text"), ("text", .str "")])],
    writtenEvent "content_block_delta" [("index", .int blockIndex),
      ("delta", .obj [("type", .str "text_delta"), ("text", .str text)])],
    writtenEvent "content_block_stop" [("index", .int blockIndex)]]

/-- `_emit_tool_use_as_sse` -/
def emitToolUseAsSse (py : PyText) (tool : List (String × Json)) (blockIndex : Nat) :
    List WrittenEvent :=
  let inputStr := String.ofList ((Json.getOr tool "input" (.obj [])).dumps py.floatRepr)
  [writtenEvent "content_block_start" [("index", .int blockIndex),
      ("content_block", .obj [("type", .str "tool_use"), ("id", Json.getOr tool "id" (.str "")),
        ("name", Json.getOr tool "name" (.str "")), ("input", .obj [])])],
    writtenEvent "content_block_delta" [("index", .int blockIndex),
      ("delta", .obj [("type", .str "input_json_delta"), ("partial_json", .str inputStr)])],
    writtenEvent "content_block_stop" [("index", .int blockIndex)]]

/-- `_emit_text_as_responses_sse` -/
def emitTextAsResponsesSse (text : String) (itemIndex : Nat) : List WrittenEvent :=
  let item (content : List Json) : Json := .obj [("type", .str "message"),
    ("id", .str ("item_" ++ toString itemIndex)), ("role", .str "assistant"),
    ("content", .arr content)]
  let part (text : String) : Json := .obj [("type", .str "output_text"), ("text", .str text)]
  [writtenEvent "response.output_item.added" [("output_index", .int itemIndex),
      ("item", item [])],
    writtenEvent "response.content_part.added" [("output_index", .int itemIndex),
      ("content_index", .int 0), ("part", part "")],
    writtenEvent "response.output_text.delta" [("output_index", .int itemIndex),
      ("content_index", .int 0), ("delta", .str text)],
    writtenEvent "response.output_text.done" [("output_index", .int itemIndex),
      ("content_index", .int 0), ("text", .str text)],
    writtenEvent "response.content_part.done" [("output_index", .int itemIndex),
      ("content_index", .int 0), ("part", part text)],
    writtenEvent "response.output_item.done" [("output_index", .int itemIndex),
      ("item", item [part text])]]

/-- `_emit_tool_use_as_responses_sse` -/
def emitToolUseAsResponsesSse (py : PyText) (tool : List (String × Json)) (itemIndex : Nat) :
    List WrittenEvent :=
  let callId := Json.getOr tool "id" (Json.getOr tool "call_id" (.str ""))
  let name := Json.getOr tool "name" (.str "")
  let argsStr := String.ofList <|
    match Json.getOr tool "input" (.obj []) with
    | .obj entries => (Json.obj entries).dumps py.floatRepr
    | args => py.str args
  let item (arguments : String) : Json := .obj [("type", .str "function_call"),
    ("call_id", callId), ("name", name), ("arguments", .str arguments)]
  [writtenEvent "response.output_item.added" [("output_index", .int itemIndex),
      ("item", item "")],
    writtenEvent "response.function_call_arguments.delta" [("output_index", .int itemIndex),
      ("delta", .str argsStr)],
    writtenEvent "response.function_call_arguments.done" [("output_index", .int itemIndex),
      ("name", name), ("arguments", .str argsStr)],
    writtenEvent "response.output_item.done" [("output_index", .int itemIndex),
      ("item", item argsStr)]]

/-- `_emit_response_done_sse`, where a missing usage is `None`. -/
def emitResponseDoneSse (outputItems : List Json) (usage : Json) : List WrittenEvent :=
  [writtenEvent "response.completed" [("response", .obj [("output", .arr outputItems),
    ("status", .str "completed"), ("usage", if usage.truthy then usage else .obj [])])]]

/-- `_emit_message_end_sse` -/
def emitMessageEndSse (stopReason : String) (usage : Json) : List WrittenEvent :=
  [writtenEvent "message_delta" (("delta", .obj [("stop_reason", .str stopReason)]) ::
      if usage.truthy then [("usage", usage)] else []),
    writtenEvent "message_stop" []]

/-- What the emitters are called with. -/
inductive Emission where
  | text (text : String) (blockIndex : Nat)
  | toolUse (tool : List (String × Json)) (blockIndex : Nat)
  | responsesText (text : String) (itemIndex : Nat)
  | responsesToolUse (tool : List (String × Json)) (itemIndex : Nat)
  | responseDone (outputItems : List Json) (usage : Json)
  | messageEnd (stopReason : String) (usage : Json)

def Emission.events (py : PyText) : Emission → List WrittenEvent
  | .text words blockIndex => emitTextAsSse words blockIndex
  | .toolUse tool blockIndex => emitToolUseAsSse py tool blockIndex
  | .responsesText words itemIndex => emitTextAsResponsesSse words itemIndex
  | .responsesToolUse tool itemIndex => emitToolUseAsResponsesSse py tool itemIndex
  | .responseDone outputItems usage => emitResponseDoneSse outputItems usage
  | .messageEnd stopReason usage => emitMessageEndSse stopReason usage

/-! ## Reading what was written -/

/-- A type without spaces, in ASCII. -/
def IsVisible (text : List Char) : Prop := ∀ c ∈ text, 32 < c.toNat ∧ c.toNat < 127

/-- Every emitter names the type of an event in its data too. -/
theorem emitted (py : PyText) (emission : Emission) :
    ∀ event ∈ emission.events py, IsVisible event.eventType.toList ∧
      Json.get event.payload "type" = some (.str event.eventType) := by
  have hcons {eventType : String} {fields : List (String × Json)} {events : List WrittenEvent}
      (h : IsVisible eventType.toList)
      (hevents : ∀ event ∈ events, IsVisible event.eventType.toList ∧
        Json.get event.payload "type" = some (.str event.eventType)) :
      ∀ event ∈ writtenEvent eventType fields :: events, IsVisible event.eventType.toList ∧
        Json.get event.payload "type" = some (.str event.eventType) :=
    List.forall_mem_cons.mpr ⟨⟨h, by simp [writtenEvent, Json.get]⟩, hevents⟩
  have hnil : ∀ event ∈ ([] : List WrittenEvent), IsVisible event.eventType.toList ∧
      Json.get event.payload "type" = some (.str event.eventType) := by simp
  cases emission <;> unfold Emission.events <;> repeat'
    first | exact hnil | refine hcons (by simp [IsVisible]) ?_

theorem pyStripChars_visible {text : List Char} (h : IsVisible text) :
    pyStripChars text = text := by
  have hspace : ∀ c ∈ text, isPySpace c = false := by
    intro c hc
    have hc := h c hc
    simp only [isPySpace, Bool.or_eq_false_iff, Bool.and_eq_false_iff, decide_eq_false_iff_not,
      beq_eq_false_iff_ne]
    omega
  have hends : trim isPySpace text = text := trim_eq_self_iff.mpr
    ⟨fun c hc => hspace c (List.mem_of_mem_head? hc),
      fun c hc => hspace c (List.mem_of_mem_getLast? hc)⟩
  exact hends

theorem dropWhile_returns {line : List Char} (h : '\r' ∉ line) :
    (line.reverse.dropWhile (· = '\r')).reverse = line := by
  rw [dropWhile_of_head, List.reverse_reverse]
  intro c hc
  refine decide_eq_false ?_
  rintro rfl
  exact h (List.mem_reverse.mp (List.mem_of_mem_head? hc))

theorem readLine_event {fields : List Char × List Char} {eventType : List Char}
    (h : IsVisible eventType) :
    readLine fields ("event: ".toList ++ eventType) = (eventType, fields.2) := by
  have hreturn : '\r' ∉ "event: ".toList ++ eventType := by
    intro hmem
    rcases List.mem_append.mp hmem with hmem | hmem
    · simp at hmem
    · exact absurd (h _ hmem).1 (by decide)
  rw [readLine, dropWhile_returns hreturn, if_pos]
  · rw [show 7 = "event: ".toList.length by simp, List.drop_left, pyStripChars_visible h]
  · exact List.isPrefixOf_iff_prefix.mpr (List.prefix_append _ _)

theorem readLine_data {fields : List Char × List Char} {data : List Char}
    (h : ∀ c ∈ data, IsPrintable c) :
    readLine fields ("data: ".toList ++ data) = (fields.1, data) := by
  have hreturn : '\r' ∉ "data: ".toList ++ data := by
    intro hmem
    rcases List.mem_append.mp hmem with hmem | hmem
    · simp at hmem
    · exact absurd (h _ hmem).1 (by decide)
  rw [readLine, dropWhile_returns hreturn, if_neg, if_pos]
  · rw [show 6 = "data: ".toList.length by simp, List.drop_left]
  · exact List.isPrefixOf_iff_prefix.mpr (List.prefix_append _ _)
  · simp

theorem readLine_nil (fields : List Char × List Char) : readLine fields [] = fields := by
  simp [readLine]

/-- Two lines without breaks and a blank line are one event. -/
theorem eventEnd_lines {front back : Bytes} (hfront : 10 ∉ front) (hback : 10 ∉ back)
    (hreturn : 13 ∉ front ++ back) (hne : back ≠ []) :
    eventEnd (front ++ 10 :: back ++ [10, 10]) =
      some (front ++ 10 :: back ++ [10, 10]).length := by
  have hcrlf : findPart crlfBreak (front ++ 10 :: back ++ [10, 10]) = none := by
    refine findPart_eq_none (a := 13) (by simp [crlfBreak]) ?_
    simp only [List.mem_append, not_or] at hreturn
    simp [hreturn.1, hreturn.2]
  have hbreak : newlineBreak <+:
      (front ++ 10 :: back ++ [10, 10]).drop (front.length + (back.length + 1)) := by
    rw [← List.length_cons (a := 10), ← List.length_append, List.drop_left]
    exact List.prefix_rfl
  have hbyte {k : Nat} (hk : (front ++ 10 :: back ++ [10, 10])[k]? = some 10) :
      k = front.length ∨ front.length + (back.length + 1) ≤ k := by
    by_contra hnot
    simp only [not_or, Nat.not_le] at hnot
    rw [List.getElem?_append_left (by simp; omega)] at hk
    rcases Nat.lt_or_ge k front.length with hlt | hge
    · rw [List.getElem?_append_left hlt] at hk
      exact hfront (List.mem_of_getElem? hk)
    · rw [List.getElem?_append_right hge] at hk
      obtain ⟨i, hi⟩ : ∃ i, k - front.length = i + 1 := ⟨k - front.length - 1, by omega⟩
      rw [hi, List.getElem?_cons_succ] at hk
      exact hback (List.mem_of_getElem? hk)
  obtain ⟨j, hle, hj⟩ := findPart_le hbreak
  have hfirst := hbyte (getElem?_of_part (isPrefix_of_findPart hj) (k := 0) (by decide))
  have hsecond := hbyte (getElem?_of_part (isPrefix_of_findPart hj) (k := 1) (by decide))
  have hpos := List.length_pos_of_ne_nil hne
  have hlast : j = front.length + (back.length + 1) := by omega
  have hnone : ∀ i, findPart crlfBreak (front ++ 10 :: back ++ [10, 10]) = some i → j < i := by
    intro i hi
    rw [hcrlf] at hi
    cases hi
  rw [eventEnd_newline hj hnone, hlast]
  exact congrArg some (by simp only [List.length_append, List.length_cons, List.length_nil])

theorem splitOn_lines {front back : List Char} (hfront : '\n' ∉ front) (hback : '\n' ∉ back) :
    (front ++ '\n' :: back ++ ['\n', '\n']).splitOn '\n' = [front, back, [], []] := by
  have hfree {line : List Char} (h : '\n' ∉ line) : ∀ c ∈ line, (c == '\n') = false := by
    intro c hc
    rw [beq_eq_false_iff_ne]
    rintro rfl
    exact h hc
  rw [List.append_assoc, List.cons_append, List.splitOn,
    List.splitOnP_append_cons_of_forall_mem (hfree hfront) _ (beq_self_eq_true _),
    List.splitOnP_append_cons_of_forall_mem (hfree hback) _ (beq_self_eq_true _)]
  rfl

section

variable {py : PyText} (hfloat : ∀ value, ∀ c ∈ py.floatRepr value, IsPrintable c)
  {event : WrittenEvent} (hevent : IsVisible event.eventType.toList)

include hevent

theorem printable_eventLine : ∀ c ∈ "event: ".toList ++ event.eventType.toList,
    IsPrintable c := by
  intro c hc
  rcases List.mem_append.mp hc with hc | hc
  · have hname : ∀ c ∈ "event: ".toList, IsPrintable c := by simp [IsPrintable]
    exact hname c hc
  · exact ⟨Nat.le_of_lt (hevent c hc).1, (hevent c hc).2⟩

include hfloat

theorem printable_dataLine : ∀ c ∈ "data: ".toList ++ event.data py, IsPrintable c := by
  intro c hc
  rcases List.mem_append.mp hc with hc | hc
  · have hname : ∀ c ∈ "data: ".toList, IsPrintable c := by simp [IsPrintable]
    exact hname c hc
  · exact Json.isPrintable_dumps hfloat _ c hc

/-- What is written for an event is one event, and is read as it. -/
theorem read_written : sseFramer.IsFrame (event.bytes py) ∧
    readEvent (event.bytes py) = event.asRead py := by
  have hfront := printable_eventLine hevent
  have hback := printable_dataLine hfloat hevent
  have htext : event.bytes py = encodeUtf8 (("event: ".toList ++ event.eventType.toList) ++
      '\n' :: ("data: ".toList ++ event.data py) ++ ['\n', '\n']) := by
    rw [WrittenEvent.bytes]
    exact congrArg encodeUtf8 (by simp)
  generalize hf : "event: ".toList ++ event.eventType.toList = front at *
  generalize hb : "data: ".toList ++ event.data py = back at *
  have hascii {line : List Char} (h : ∀ c ∈ line, IsPrintable c) : IsAscii line :=
    fun c hc => Nat.lt_succ_of_lt (h c hc).2
  have hnewline : IsAscii ['\n'] := by simp [IsAscii]
  have hbyte {line : List Char} (h : ∀ c ∈ line, IsPrintable c) {b : UInt8}
      (hb : b.toNat < 32) : b ∉ encodeUtf8 line := by
    intro hmem
    obtain ⟨c, hc, heq⟩ := (mem_encodeUtf8 (hascii h)).mp hmem
    have := (h c hc).1
    omega
  have hbytes : event.bytes py = encodeUtf8 front ++ 10 :: encodeUtf8 back ++ [10, 10] := by
    rw [htext, encodeUtf8_append, encodeUtf8_append, ← List.singleton_append,
      encodeUtf8_append]
    rfl
  constructor
  · rw [hbytes]
    refine eventEnd_lines (hbyte hfront (by decide)) (hbyte hback (by decide)) ?_ ?_
    · rw [← encodeUtf8_append]
      refine hbyte (fun c hc => ?_) (by decide)
      exact (List.mem_append.mp hc).elim (hfront c) (hback c)
    · rw [← hb, encodeUtf8_append]
      simp [encodeUtf8]
  · have hdecoded : decodeUtf8 (event.bytes py) =
        front ++ '\n' :: back ++ ['\n', '\n'] := by
      rw [htext]
      refine decodeUtf8_encodeUtf8 (((hascii hfront).append ?_).append (by simp [IsAscii]))
      exact hnewline.append (hascii hback)
    have hfree {line : List Char} (h : ∀ c ∈ line, IsPrintable c) : '\n' ∉ line :=
      fun hmem => absurd (h _ hmem).1 (by decide)
    rw [readEvent, hdecoded, splitOn_lines (hfree hfront) (hfree hback), ← hf, ← hb]
    have hdata : ∀ c ∈ event.data py, IsPrintable c := Json.isPrintable_dumps hfloat _
    simp only [List.foldl_cons, List.foldl_nil, readLine_nil, readLine_event hevent,
      readLine_data hdata, WrittenEvent.asRead]

end

/-- Events that are written one after the other are read, whatever follows. -/
theorem parseSseEvents_written {py : PyText}
    (hfloat : ∀ value, ∀ c ∈ py.floatRepr value, IsPrintable c) {events : List WrittenEvent}
    (hevents : ∀ event ∈ events, IsVisible event.eventType.toList) (more : Bytes) :
    parseSseEvents ((events.map (·.bytes py)).flatten ++ more) =
      (events.map (·.asRead py) ++ (parseSseEvents more).1, (parseSseEvents more).2) := by
  rw [parseSseEvents, Framer.frames_flatten]
  · rw [List.map_append, List.map_map]
    refine Prod.ext (congrArg (· ++ _) (List.map_congr_left fun event hevent => ?_)) rfl
    exact (read_written hfloat (hevents event hevent)).2
  · intro frame hframe
    obtain ⟨event, hevent, rfl⟩ := List.mem_map.mp hframe
    exact (read_written hfloat (hevents event hevent)).1

/-- Whatever the proxy writes is read as the events it was written from, in any chunks and
whatever follows. -/
theorem emissions_read_back {py : PyText}
    (hfloat : ∀ value, ∀ c ∈ py.floatRepr value, IsPrintable c) (emissions : List Emission)
    (more : Bytes) (chunks : List Bytes)
    (hchunks : chunks.flatten =
      ((emissions.flatMap (·.events py)).map (·.bytes py)).flatten ++ more) :
    readChunks [] chunks =
      ((emissions.flatMap (·.events py)).map (·.asRead py) ++ (parseSseEvents more).1,
        (parseSseEvents more).2) := by
  have hevents : ∀ event ∈ emissions.flatMap (·.events py),
      IsVisible event.eventType.toList := by
    intro event hevent
    obtain ⟨emission, -, hevent⟩ := List.mem_flatMap.mp hevent
    exact (emitted py emission event hevent).1
  rw [readChunks_nil, hchunks, parseSseEvents_written hfloat hevents]

/-- For data without floats. -/
def noFloats : PyText := ⟨fun _ => ['0'], fun _ => []⟩

theorem isPrintable_noFloats : ∀ value, ∀ c ∈ noFloats.floatRepr value, IsPrintable c := by
  simp [noFloats, IsPrintable]

/-- A short answer. -/
def helloEvents : List WrittenEvent :=
  [Emission.text "hello" 0, .messageEnd "end_turn" .null].flatMap (·.events noFloats)

def helloBytes : Bytes := (helloEvents.map (·.bytes noFloats)).flatten

/-- The answer is read from two chunks. -/
theorem emissions_read_back_hello :
    readChunks [] [helloBytes.take 20, helloBytes.drop 20] =
      (helloEvents.map (·.asRead noFloats) ++ (parseSseEvents []).1, (parseSseEvents []).2) :=
  emissions_read_back isPrintable_noFloats [.text "hello" 0, .messageEnd "end_turn" .null] [] _ <| by
    rw [List.flatten_cons, List.flatten_cons, List.flatten_nil, List.append_nil,
      List.take_append_drop, List.append_nil]
    rfl

end VirtualContext
