import VirtualContext.Proxy.StreamTransparency

/-!
# Messages in a stream

The events of a message spell its blocks one after the other.  What the client receives
of a message depends on the tools it calls and on the reason it stops for.
-/

namespace VirtualContext

open VirtualContext.Library

/-! ## Events -/

/-- An event of a type with decoded data. -/
structure Reads (env : StreamEnv) (event : SseEvent) (dtype : String) (data : Json) : Prop where
  blank : ¬ IsBlank event
  loads : env.loads event.dataStr = some data
  type : data.getDefault "type" (.str "") = some (.str dtype)

/-- An event that is passed on whatever was read before, and changes nothing but the count
of the tokens: a ping, a start of a message, or one without data. -/
def Passes (env : StreamEnv) (event : SseEvent) : Prop :=
  ∀ s, ∃ usage, receive env s event = some ({ s with usage }, [event.rawBytes])

def StartsBlock (env : StreamEnv) (event : SseEvent) (block : Json) : Prop :=
  ∃ data, Reads env event "content_block_start" data ∧
    data.getDefault "content_block" (.obj []) = some block

/-- A part of a text; a delta of another kind has none. -/
def IsTextDelta (env : StreamEnv) (event : SseEvent) (text : String) : Prop :=
  ∃ data delta, Reads env event "content_block_delta" data ∧
    data.getDefault "delta" (.obj []) = some delta ∧
    delta.getDefault "text" (.str "") = some (.str text)

/-- A part of the input of a tool. -/
def IsInputDelta (env : StreamEnv) (event : SseEvent) (part : String) : Prop :=
  ∃ data delta, Reads env event "content_block_delta" data ∧
    data.getDefault "delta" (.obj []) = some delta ∧
    delta.getDefault "type" .null = some (.str "input_json_delta") ∧
    delta.getDefault "partial_json" (.str "") = some (.str part)

/-- An event with a part of a block, which is a delta, or one without that is passed on. -/
def IsPart (env : StreamEnv) (delta : SseEvent → String → Prop) (m : SseEvent × Option String) :
    Prop :=
  match m.2 with
  | none => Passes env m.1
  | some part => delta m.1 part

/-- What a block is, from its start. -/
inductive BlockHead where
  | plain
  | tool (id name : Json)
  | vcTool (id name : Json)

def BlockHead.isVc : BlockHead → Bool
  | .vcTool _ _ => true
  | _ => false

def BlockHead.Starts (env : StreamEnv) (event : SseEvent) : BlockHead → Prop
  | .plain => ∃ block btype, StartsBlock env event block ∧
      block.getDefault "type" (.str "") = some btype ∧ btype.isStr "tool_use" = false
  | .tool id name => ∃ block, StartsBlock env event block ∧
      block.getDefault "type" (.str "") = some (.str "tool_use") ∧
      block.subscript "id" = some id ∧ block.subscript "name" = some name ∧
      isVcToolName name = some false
  | .vcTool id name => ∃ block, StartsBlock env event block ∧
      block.getDefault "type" (.str "") = some (.str "tool_use") ∧
      block.subscript "id" = some id ∧ block.subscript "name" = some name ∧
      isVcToolName name = some true

/-! ## Blocks -/

/-- A block with its events.  Those in the middle either have a part of it or are passed. -/
structure BlockEvents where
  head : BlockHead
  start : SseEvent
  middle : List (SseEvent × Option String)
  stop : SseEvent

namespace BlockEvents

variable (env : StreamEnv) (block : BlockEvents)

def IsMiddle : SseEvent × Option String → Prop :=
  IsPart env (if block.head.isVc then IsInputDelta env else IsTextDelta env)

structure WellFormed : Prop where
  start : block.head.Starts env block.start
  middle : ∀ m ∈ block.middle, block.IsMiddle env m
  stop : ∃ data, Reads env block.stop "content_block_stop" data

def events : List SseEvent := block.start :: (block.middle.map (·.1) ++ [block.stop])

def parts : List String := block.middle.filterMap (·.2)

/-- What is passed on while the block is read. -/
def shown : List Bytes :=
  if block.head.isVc then (block.middle.filter (·.2.isNone)).map (·.1.rawBytes)
  else block.events.map (·.rawBytes)

/-- What is held back of the block. -/
def hidden : List Bytes :=
  if block.head.isVc then
    block.start.rawBytes :: ((block.middle.filter (·.2.isSome)).map (·.1.rawBytes) ++
      [block.stop.rawBytes])
  else []

/-- The call that the block is, of one of the proxy's tools. -/
def vcCall : Option VcTool :=
  match block.head with
  | .vcTool id name => some ⟨id, name,
      (env.loads (String.join block.parts).toList).getD (.obj [])⟩
  | _ => none

/-- The call that the block is, of another tool. -/
def otherCall : Option (Json × Json) :=
  match block.head with
  | .tool id name => some (id, name)
  | _ => none

/-- The texts that are not empty. -/
def texts : List Json :=
  if block.head.isVc then [] else (block.parts.filter (· ≠ "")).map .str

/-- What a continuation is told of the block. -/
def content : List Json :=
  match block.vcCall env with
  | some call => [.obj [("type", .str "tool_use"), ("id", call.id), ("name", call.name),
      ("input", call.input)]]
  | none => if block.texts = [] then [] else
      [.obj [("type", .str "text"), ("text", .str (String.join block.parts))]]

end BlockEvents

/-! ## Messages -/

structure StreamMessage where
  opening : List SseEvent
  blocks : List BlockEvents
  stopReason : Json
  delta : SseEvent
  stop : SseEvent
  closing : List SseEvent

namespace StreamMessage

variable (env : StreamEnv) (message : StreamMessage)

structure WellFormed : Prop where
  opening : ∀ event ∈ message.opening, Passes env event
  blocks : ∀ block ∈ message.blocks, block.WellFormed env
  delta : ∃ data delta, Reads env message.delta "message_delta" data ∧
    data.getDefault "delta" (.obj []) = some delta ∧
    delta.getDefault "stop_reason" .null = some message.stopReason ∧
    ∀ usage, (readUsage data (.str "message_delta") usage).isSome
  stop : ∃ data, Reads env message.stop "message_stop" data
  closing : ∀ event ∈ message.closing, Passes env event

def events : List SseEvent :=
  message.opening ++ message.blocks.flatMap (·.events) ++ [message.delta, message.stop] ++
    message.closing

def vcCalls : List VcTool := message.blocks.filterMap (·.vcCall env)

def otherCalls : List (Json × Json) := message.blocks.filterMap (·.otherCall)

/-- The message stops so that its tools are called, and calls one of the proxy's. -/
def CallsProxy : Prop := message.stopReason.isStr "tool_use" = true ∧ message.vcCalls env ≠ []

instance : Decidable (message.CallsProxy env) := inferInstanceAs (Decidable (_ ∧ _))

def shown : List Bytes :=
  message.opening.map (·.rawBytes) ++ message.blocks.flatMap (·.shown)

def hidden : List Bytes := message.blocks.flatMap (·.hidden)

def ending : List Bytes := [message.delta.rawBytes, message.stop.rawBytes]

/-- What the client receives of a message. -/
def received : List Bytes :=
  (if message.CallsProxy env then
    if message.otherCalls = [] then message.shown
    else message.shown ++ message.hidden ++ message.ending
  else message.shown ++ message.ending) ++ message.closing.map (·.rawBytes)

/-- What is held back of it. -/
def withheld : List Bytes :=
  if message.CallsProxy env then
    if message.otherCalls = [] then message.hidden ++ message.ending else []
  else message.hidden

end StreamMessage

/-! ## Runs over events -/

section

variable {env : StreamEnv} {s s' s'' : StreamState} {held held' held'' out out' : List Bytes}
  {event : SseEvent} {events more : List SseEvent} {data dtype : Json} {verdict : Verdict}

/-- What the events make of a state and of what is held back, and what the client receives. -/
def Runs (env : StreamEnv) (s : StreamState) (held : List Bytes) (events : List SseEvent)
    (out : List Bytes) (s' : StreamState) (held' : List Bytes) : Prop :=
  ∀ usage, ∃ usage', receiveAll env ⟨s, held, usage⟩ events = (out, some ⟨s', held', usage'⟩)

theorem Runs.nil (s : StreamState) (held : List Bytes) : Runs env s held [] [] s held :=
  fun usage => ⟨usage, rfl⟩

theorem Runs.append (h : Runs env s held events out s' held')
    (hmore : Runs env s' held' more out' s'' held'') :
    Runs env s held (events ++ more) (out ++ out') s'' held'' := by
  intro usage
  obtain ⟨usage', hrun⟩ := h usage
  obtain ⟨usage'', hlater⟩ := hmore usage'
  refine ⟨usage'', ?_⟩
  rw [receiveAll_append, hrun]
  dsimp only
  rw [hlater]

theorem Runs.of_receive (h : ∀ usage, ∃ usage', receive env ⟨s, held, usage⟩ event =
    some (⟨s', held', usage'⟩, out)) : Runs env s held [event] out s' held' := by
  intro usage
  obtain ⟨usage', hreceive⟩ := h usage
  refine ⟨usage', ?_⟩
  rw [receiveAll, hreceive]
  simp [receiveAll]

theorem runs_passes (h : Passes env event) (s : StreamState) (held : List Bytes) :
    Runs env s held [event] [event.rawBytes] s held :=
  Runs.of_receive fun usage => h ⟨s, held, usage⟩

theorem runs_all_pass (h : ∀ event ∈ events, Passes env event) (s : StreamState)
    (held : List Bytes) : Runs env s held events (events.map (·.rawBytes)) s held := by
  induction events with
  | nil => exact Runs.nil s held
  | cons event events ih =>
      exact (runs_passes (h event List.mem_cons_self) s held).append
        (ih fun other hother => h other (List.mem_cons_of_mem _ hother))

/-- An event with data does what its type says. -/
theorem runs_reads (held : List Bytes) (verdict : Verdict) {dtype : String}
    (h : Reads env event dtype data)
    (husage : ∀ usage, (readUsage data (.str dtype) usage).isSome)
    (hdispatch : dispatch env s data (.str dtype) = some (s', verdict)) :
    Runs env s held [event] (verdict.settle held event.rawBytes).2 s'
      (verdict.settle held event.rawBytes).1 := by
  refine Runs.of_receive fun usage => ?_
  obtain ⟨usage', husage'⟩ := Option.isSome_iff_exists.mp (husage usage)
  refine ⟨usage', ?_⟩
  rw [receive, if_neg h.blank, h.loads]
  simp only [Option.bind_eq_bind, h.type, Option.bind_some, husage', hdispatch]

theorem readUsage_other {dtype : String} (hstart : dtype ≠ "message_start")
    (hdelta : dtype ≠ "message_delta") (usage : Entries String Json) :
    (readUsage data (.str dtype) usage).isSome := by
  simp [readUsage, Json.isStr, hstart, hdelta]

theorem join_cons (part : String) (parts : List String) :
    String.join (part :: parts) = part ++ String.join parts := by
  have hfold (first : String) (parts : List String) :
      parts.foldl (· ++ ·) first = first ++ String.join parts := by
    induction parts generalizing first with
    | nil => simp [String.join]
    | cons other parts ih =>
        have hjoin : String.join (other :: parts) = parts.foldl (· ++ ·) ("" ++ other) := rfl
        rw [List.foldl_cons, ih, hjoin, ih, String.empty_append, String.append_assoc]
  have hjoin : String.join (part :: parts) = parts.foldl (· ++ ·) ("" ++ part) := rfl
  rw [hjoin, hfold, String.empty_append]

theorem joinText_strings (parts : List String) :
    Json.joinText (parts.map .str) = some (String.join parts) := by
  induction parts with
  | nil => rfl
  | cons part parts ih => rw [List.map_cons, Json.joinText, ih, join_cons]; rfl

/-! ## Blocks -/

/-- Between two blocks nothing is open. -/
structure StreamState.Between (s : StreamState) : Prop where
  suppressing : s.suppressing = false
  currentVcTool : s.currentVcTool = none
  currentTextParts : s.currentTextParts = []
  needContinuation : s.needContinuation = false

theorem runs_start_plain (hstart : BlockHead.plain.Starts env event)
    (hs : s.currentTextParts = []) :
    Runs env s held [event] [event.rawBytes] s held := by
  obtain ⟨block, btype, ⟨data, hreads, hblock⟩, htype, hplain⟩ := hstart
  refine runs_reads _ .forward hreads (readUsage_other (by simp) (by simp)) ?_
  have hdispatch : dispatch env s data (.str "content_block_start") = contentBlockStart s data := by
    simp [dispatch, Json.isStr]
  rw [hdispatch]
  simp only [contentBlockStart, Option.bind_eq_bind, hblock, htype, Option.bind_some, hplain,
    Bool.false_eq_true, if_false]
  split_ifs
  · rw [← hs]
  · rfl

theorem runs_start_tool {id name : Json} (hstart : (BlockHead.tool id name).Starts env event) :
    Runs env s held [event] [event.rawBytes]
      { s with nonVcTools := s.nonVcTools ++ [(id, name)] } held := by
  obtain ⟨block, ⟨data, hreads, hblock⟩, htype, hid, hname, hvc⟩ := hstart
  refine runs_reads _ .forward hreads (readUsage_other (by simp) (by simp)) ?_
  have hdispatch : dispatch env s data (.str "content_block_start") = contentBlockStart s data := by
    simp [dispatch, Json.isStr]
  have hget : block.getDefault "name" (.str "") = some name := by
    cases block with
    | obj entries =>
        rw [Json.getDefault, Json.getOr, show Json.get entries "name" = some name from hname]
        rfl
    | _ => cases hname
  rw [hdispatch]
  simp [contentBlockStart, hblock, htype, hget, hid, hname, hvc, Json.isStr]

theorem runs_start_vcTool {id name : Json} (hstart : (BlockHead.vcTool id name).Starts env event)
    (s : StreamState) (held : List Bytes) :
    Runs env s held [event] []
      { s with suppressing := true, currentVcTool := some ⟨id, name, []⟩ }
      (held ++ [event.rawBytes]) := by
  obtain ⟨block, ⟨data, hreads, hblock⟩, htype, hid, hname, hvc⟩ := hstart
  refine runs_reads _ .hold hreads (readUsage_other (by simp) (by simp)) ?_
  have hdispatch : dispatch env s data (.str "content_block_start") = contentBlockStart s data := by
    simp [dispatch, Json.isStr]
  have hget : block.getDefault "name" (.str "") = some name := by
    cases block with
    | obj entries =>
        rw [Json.getDefault, Json.getOr, show Json.get entries "name" = some name from hname]
        rfl
    | _ => cases hname
  rw [hdispatch]
  simp [contentBlockStart, hblock, htype, hget, hid, hname, hvc, Json.isStr]

/-- The text parts of a state after more texts. -/
def StreamState.withTexts (s : StreamState) (texts : List Json) : StreamState :=
  { s with textChunks := s.textChunks ++ texts, currentTextParts := s.currentTextParts ++ texts }

theorem runs_text_delta {text : String} (h : IsTextDelta env event text)
    (hs : s.suppressing = false) :
    Runs env s held [event] [event.rawBytes]
      (s.withTexts (([text].filter (· ≠ "")).map .str)) held := by
  obtain ⟨data, delta, hreads, hdelta, htext⟩ := h
  refine runs_reads _ .forward hreads (readUsage_other (by simp) (by simp)) ?_
  have hdispatch : dispatch env s data (.str "content_block_delta") = contentBlockDelta s data := by
    simp [dispatch, Json.isStr]
  have hdelta : contentBlockDelta s data = some (appendText s (.str text), .forward) := by
    simp [contentBlockDelta, hs, hdelta, htext]
  rw [hdispatch, hdelta, appendText]
  by_cases hempty : text = "" <;> simp [hempty, Json.truthy, StreamState.withTexts]

/-- The parts of a text, between events that are passed on. -/
theorem runs_text_middle {middle : List (SseEvent × Option String)}
    (h : ∀ m ∈ middle, IsPart env (IsTextDelta env) m) (hs : s.suppressing = false)
    (held : List Bytes) :
    Runs env s held (middle.map (·.1)) (middle.map (·.1.rawBytes))
      (s.withTexts (((middle.filterMap (·.2)).filter (· ≠ "")).map .str)) held := by
  induction middle generalizing s with
  | nil => simpa [StreamState.withTexts] using Runs.nil s held
  | cons m middle ih =>
      obtain ⟨event, part⟩ := m
      have hfirst := h _ List.mem_cons_self
      have hrest := fun other hother => h other (List.mem_cons_of_mem _ hother)
      cases part with
      | none => exact (runs_passes hfirst s held).append (ih hrest hs)
      | some text =>
          have hrun := (runs_text_delta hfirst hs).append (ih (s := s.withTexts _) hrest hs)
          have hstate (front back : List Json) :
              (s.withTexts front).withTexts back = s.withTexts (front ++ back) := by
            simp [StreamState.withTexts]
          rw [hstate, ← List.map_append, ← List.filter_append] at hrun
          exact hrun

theorem runs_input_delta {part : String} {tool : CurrentTool} (h : IsInputDelta env event part)
    (hs : s.suppressing = true) (htool : s.currentVcTool = some tool) (held : List Bytes) :
    Runs env s held [event] []
      { s with currentVcTool := some { tool with inputParts := tool.inputParts ++ [.str part] } }
      (held ++ [event.rawBytes]) := by
  obtain ⟨data, delta, hreads, hdelta, hkind, hpart⟩ := h
  refine runs_reads _ .hold hreads (readUsage_other (by simp) (by simp)) ?_
  have hdispatch : dispatch env s data (.str "content_block_delta") = contentBlockDelta s data := by
    simp [dispatch, Json.isStr]
  rw [hdispatch]
  simp [contentBlockDelta, hs, hdelta, hkind, htool, hpart, Json.isStr]

/-- The parts of an input are held back, and the events between them are passed on. -/
theorem runs_input_middle {middle : List (SseEvent × Option String)} {tool : CurrentTool}
    (h : ∀ m ∈ middle, IsPart env (IsInputDelta env) m)
    (hs : s.suppressing = true) (htool : s.currentVcTool = some tool) :
    Runs env s held (middle.map (·.1)) ((middle.filter (·.2.isNone)).map (·.1.rawBytes))
      { s with currentVcTool := some { tool with
        inputParts := tool.inputParts ++ (middle.filterMap (·.2)).map .str } }
      (held ++ (middle.filter (·.2.isSome)).map (·.1.rawBytes)) := by
  induction middle generalizing s tool held with
  | nil =>
      have hsame : { s with currentVcTool := some tool } = s := by rw [← htool]
      simpa [hsame] using Runs.nil s held
  | cons m middle ih =>
      obtain ⟨event, part⟩ := m
      have hfirst := h _ List.mem_cons_self
      have hrest := fun other hother => h other (List.mem_cons_of_mem _ hother)
      cases part with
      | none => exact (runs_passes hfirst s held).append (ih hrest hs htool)
      | some text =>
          have hrun := (runs_input_delta hfirst hs htool held).append (ih hrest hs rfl)
          simpa using hrun

theorem runs_stop (verdict : Verdict) (hstop : ∃ data, Reads env event "content_block_stop" data)
    (h : contentBlockStop env s = some (s', verdict)) :
    Runs env s held [event] (verdict.settle held event.rawBytes).2 s'
      (verdict.settle held event.rawBytes).1 := by
  obtain ⟨data, hreads⟩ := hstop
  refine runs_reads _ verdict hreads (readUsage_other (by simp) (by simp)) ?_
  have hdispatch : dispatch env s data (.str "content_block_stop") = contentBlockStop env s := by
    simp [dispatch, Json.isStr]
  rw [hdispatch, h]

/-- The state after a block. -/
def StreamState.after (env : StreamEnv) (s : StreamState) (block : BlockEvents) : StreamState :=
  { s with
    vcTools := s.vcTools ++ (block.vcCall env).toList
    nonVcTools := s.nonVcTools ++ block.otherCall.toList
    allContentBlocks := s.allContentBlocks ++ block.content env
    forwardedBlockCount := s.forwardedBlockCount + if block.head.isVc then 0 else 1
    textChunks := s.textChunks ++ block.texts }

theorem StreamState.Between.after (hs : s.Between) (env : StreamEnv) (block : BlockEvents) :
    (s.after env block).Between :=
  ⟨hs.suppressing, hs.currentVcTool, hs.currentTextParts, hs.needContinuation⟩

theorem join_filter (parts : List String) :
    String.join (parts.filter (· ≠ "")) = String.join parts := by
  induction parts with
  | nil => rfl
  | cons part parts ih =>
      by_cases hempty : part = ""
      · rw [List.filter_cons_of_neg (by simpa using hempty), ih, join_cons, hempty,
          String.empty_append]
      · rw [List.filter_cons_of_pos (by simpa using hempty), join_cons, ih, join_cons]

/-- The middle and the end of a block that is passed on. -/
theorem runs_shown_block {block : BlockEvents} (h : block.WellFormed env)
    (hvc : block.head.isVc = false) (hs : s.Between) (held : List Bytes) :
    Runs env s held (block.middle.map (·.1) ++ [block.stop])
      (block.middle.map (·.1.rawBytes) ++ [block.stop.rawBytes])
      { s with
        allContentBlocks := s.allContentBlocks ++ if block.texts = [] then [] else
          [.obj [("type", .str "text"), ("text", .str (String.join block.parts))]]
        forwardedBlockCount := s.forwardedBlockCount + 1
        textChunks := s.textChunks ++ block.texts } held := by
  have hmiddle : ∀ m ∈ block.middle, IsPart env (IsTextDelta env) m := by
    intro m hm
    have hm := h.middle m hm
    rwa [BlockEvents.IsMiddle, hvc] at hm
  have htexts : ((block.middle.filterMap (·.2)).filter (· ≠ "")).map Json.str = block.texts := by
    rw [BlockEvents.texts, hvc]
    rfl
  have hrun := runs_text_middle hmiddle hs.suppressing held
  rw [htexts] at hrun
  have hjoin : Json.joinText block.texts = some (String.join block.parts) := by
    rw [← htexts, joinText_strings, join_filter]
    rfl
  refine hrun.append (runs_stop .forward h.stop ?_)
  simp [contentBlockStop, StreamState.withTexts, hs.suppressing, hs.currentTextParts, hjoin]

theorem runs_block {block : BlockEvents} (h : block.WellFormed env) (hs : s.Between) :
    Runs env s held block.events block.shown (s.after env block) (held ++ block.hidden) := by
  have hstart := h.start
  cases hhead : block.head with
  | plain =>
      have hvc : block.head.isVc = false := by rw [hhead]; rfl
      rw [hhead] at hstart
      have hrun := (runs_start_plain hstart hs.currentTextParts).append
        (runs_shown_block h hvc hs held)
      simpa [BlockEvents.events, BlockEvents.shown, BlockEvents.hidden, StreamState.after,
        BlockEvents.vcCall, BlockEvents.otherCall, BlockEvents.content, hhead, BlockHead.isVc,
        Function.comp_def] using hrun
  | tool id name =>
      have hvc : block.head.isVc = false := by rw [hhead]; rfl
      rw [hhead] at hstart
      have hrun := (runs_start_tool hstart).append
        (runs_shown_block (s := { s with nonVcTools := s.nonVcTools ++ [(id, name)] }) h hvc
          ⟨hs.suppressing, hs.currentVcTool, hs.currentTextParts, hs.needContinuation⟩ held)
      simpa [BlockEvents.events, BlockEvents.shown, BlockEvents.hidden, StreamState.after,
        BlockEvents.vcCall, BlockEvents.otherCall, BlockEvents.content, hhead, BlockHead.isVc,
        Function.comp_def] using hrun
  | vcTool id name =>
      have hvc : block.head.isVc = true := by rw [hhead]; rfl
      rw [hhead] at hstart
      have hmiddle : ∀ m ∈ block.middle, IsPart env (IsInputDelta env) m := by
        intro m hm
        have hm := h.middle m hm
        rwa [BlockEvents.IsMiddle, hvc] at hm
      have hparts : Json.joinText ((block.middle.filterMap (·.2)).map .str) =
          some (String.join block.parts) := joinText_strings _
      have hcode (t : StreamState) (hsuppressing : t.suppressing = true)
          (htool : t.currentVcTool = some ⟨id, name,
            [] ++ (block.middle.filterMap (·.2)).map .str⟩) :
          contentBlockStop env t = some ({ t with
            vcTools := t.vcTools ++ (block.vcCall env).toList
            allContentBlocks := t.allContentBlocks ++ block.content env
            currentVcTool := none
            suppressing := false }, .hold) := by
        simp [contentBlockStop, hsuppressing, htool, hparts, BlockEvents.vcCall,
          BlockEvents.content, hhead]
      have hrun := ((runs_start_vcTool hstart s held).append
        (runs_input_middle hmiddle rfl rfl)).append (runs_stop .hold h.stop (hcode _ rfl rfl))
      have hstate : s.after env block = { s with
          vcTools := s.vcTools ++ (block.vcCall env).toList
          allContentBlocks := s.allContentBlocks ++ block.content env
          currentVcTool := none
          suppressing := false } := by
        rw [← hs.suppressing, ← hs.currentVcTool]
        simp [StreamState.after, BlockEvents.otherCall, BlockEvents.texts, hhead, BlockHead.isVc]
      rw [hstate]
      simpa [BlockEvents.events, BlockEvents.shown, BlockEvents.hidden, hvc, Verdict.settle]
        using hrun

/-- The state after several blocks. -/
def StreamState.afterAll (env : StreamEnv) (s : StreamState) (blocks : List BlockEvents) :
    StreamState :=
  { s with
    vcTools := s.vcTools ++ blocks.filterMap (·.vcCall env)
    nonVcTools := s.nonVcTools ++ blocks.filterMap (·.otherCall)
    allContentBlocks := s.allContentBlocks ++ blocks.flatMap (·.content env)
    forwardedBlockCount := s.forwardedBlockCount + blocks.countP (!·.head.isVc)
    textChunks := s.textChunks ++ blocks.flatMap (·.texts) }

theorem StreamState.afterAll_cons (env : StreamEnv) (s : StreamState) (block : BlockEvents)
    (blocks : List BlockEvents) :
    s.afterAll env (block :: blocks) = (s.after env block).afterAll env blocks := by
  have hcalls : (block :: blocks).filterMap (·.vcCall env) =
      (block.vcCall env).toList ++ blocks.filterMap (·.vcCall env) := by
    rw [List.filterMap_cons]
    cases block.vcCall env <;> rfl
  have hothers : (block :: blocks).filterMap (·.otherCall) =
      block.otherCall.toList ++ blocks.filterMap (·.otherCall) := by
    rw [List.filterMap_cons]
    cases block.otherCall <;> rfl
  have hcount : (block :: blocks).countP (!·.head.isVc) =
      (if block.head.isVc then 0 else 1) + blocks.countP (!·.head.isVc) := by
    rw [List.countP_cons, Nat.add_comm]
    cases block.head.isVc <;> rfl
  simp only [StreamState.afterAll, StreamState.after, hcalls, hothers, hcount,
    List.flatMap_cons, List.append_assoc, Nat.add_assoc]

theorem runs_blocks {blocks : List BlockEvents} (h : ∀ block ∈ blocks, block.WellFormed env)
    (hs : s.Between) (held : List Bytes) :
    Runs env s held (blocks.flatMap (·.events)) (blocks.flatMap (·.shown))
      (s.afterAll env blocks) (held ++ blocks.flatMap (·.hidden)) := by
  induction blocks generalizing s held with
  | nil => simpa [StreamState.afterAll] using Runs.nil s held
  | cons block blocks ih =>
      rw [StreamState.afterAll_cons, List.flatMap_cons, List.flatMap_cons, List.flatMap_cons,
        ← List.append_assoc]
      exact (runs_block (h block List.mem_cons_self) hs).append
        (ih (fun other hother => h other (List.mem_cons_of_mem _ hother)) (hs.after env block) _)

end

/-! ## Messages -/

namespace StreamMessage

variable (env : StreamEnv) (message : StreamMessage)

/-- The state at the end of a message. -/
def finalState : StreamState where
  vcTools :=
    if message.CallsProxy env ∧ message.otherCalls ≠ [] then [] else message.vcCalls env
  nonVcTools := message.otherCalls
  allContentBlocks := message.blocks.flatMap (·.content env)
  forwardedBlockCount := message.blocks.countP (!·.head.isVc)
  needContinuation := message.CallsProxy env ∧ message.otherCalls = []
  textChunks := message.blocks.flatMap (·.texts)

variable {env message}

theorem runs_ending (h : message.WellFormed env) {s : StreamState} (held : List Bytes)
    (hneed : s.needContinuation = false) (hcalls : s.vcTools = message.vcCalls env)
    (hothers : s.nonVcTools = message.otherCalls) :
    Runs env s held [message.delta, message.stop]
      (if message.CallsProxy env then
        if message.otherCalls = [] then [] else held ++ message.ending
      else message.ending)
      { s with
        vcTools :=
          if message.CallsProxy env ∧ message.otherCalls ≠ [] then [] else s.vcTools
        needContinuation := message.CallsProxy env ∧ message.otherCalls = [] }
      (if message.CallsProxy env then
        if message.otherCalls = [] then held ++ message.ending else []
      else held) := by
  obtain ⟨data, delta, hreads, hdelta, hreason, husage⟩ := h.delta
  obtain ⟨data', hreads'⟩ := h.stop
  have hstop (t : StreamState) : dispatch env t data' (.str "message_stop") =
      some (messageStop t) := by simp [dispatch, Json.isStr]
  have hcode : dispatch env s data (.str "message_delta") = some
      (if message.CallsProxy env then settleTools s (message.otherCalls ≠ [])
        else (s, .forward)) := by
    have hdispatch : dispatch env s data (.str "message_delta") = messageDelta s data := by
      simp [dispatch, Json.isStr]
    rw [hdispatch]
    simp only [messageDelta, Option.bind_eq_bind, hdelta, hreason, Option.bind_some, hcalls,
      hothers]
    by_cases hproxy : message.CallsProxy env
    · exact (if_pos hproxy).trans (congrArg some (if_pos hproxy).symm)
    · exact (if_neg hproxy).trans (congrArg some (if_neg hproxy).symm)
  by_cases hproxy : message.CallsProxy env
  · by_cases hother : message.otherCalls = []
    · simp only [hproxy, hother, if_true, ne_eq, not_true, and_true, and_false, if_false,
        decide_true] at hcode ⊢
      have hrun := (runs_reads held _ hreads husage hcode).append
        (runs_reads _ _ hreads' (readUsage_other (by simp) (by simp)) (hstop _))
      simpa [settleTools, messageStop, Verdict.settle, ending] using hrun
    · simp only [hproxy, hother, if_true, ne_eq, not_false_eq_true, and_true, and_false, if_false,
        decide_true, decide_false] at hcode ⊢
      have hrun := (runs_reads held _ hreads husage hcode).append
        (runs_reads _ _ hreads' (readUsage_other (by simp) (by simp)) (hstop _))
      simpa [settleTools, messageStop, Verdict.settle, ending] using hrun
  · simp only [hproxy, if_false, false_and, decide_false] at hcode ⊢
    have hrun := (runs_reads held _ hreads husage hcode).append
      (runs_reads _ _ hreads' (readUsage_other (by simp) (by simp)) (hstop _))
    have hsame : { s with needContinuation := false } = s := by rw [← hneed]
    simpa [messageStop, Verdict.settle, ending, hneed, hsame] using hrun

end StreamMessage

theorem reads_written {py : PyText} {events : List WrittenEvent} {event : WrittenEvent}
    {dtype : String} {fields : List (String × Json)}
    (hnodup : (events.map (·.data py)).Nodup) (hevent : event ∈ events)
    (hblank : ¬ IsBlank (event.asRead py))
    (hfields : event.payload = ("type", .str dtype) :: fields) :
    Reads (loadsWritten py events) (event.asRead py) dtype (.obj event.payload) where
  blank := hblank
  loads := by
    have hsome : (events.find? (·.data py = event.data py)).isSome :=
      List.find?_isSome.mpr ⟨event, hevent, decide_eq_true rfl⟩
    obtain ⟨found, hfound⟩ := Option.isSome_iff_exists.mp hsome
    have hdata : found.data py = event.data py := by simpa using List.find?_some hfound
    obtain rfl := List.inj_on_of_nodup_map hnodup (List.mem_of_find?_eq_some hfound) hevent hdata
    exact congrArg (Option.map fun other => Json.obj other.payload) hfound
  type := by
    rw [hfields]
    rfl

def textStart : WrittenEvent :=
  writtenEvent "content_block_start" [("index", .int 0),
    ("content_block", .obj [("type", .str "text"), ("text", .str "")])]

def textDelta : WrittenEvent :=
  writtenEvent "content_block_delta" [("index", .int 0),
    ("delta", .obj [("type", .str "text_delta"), ("text", .str "Let me look.")])]

def textStop : WrittenEvent := writtenEvent "content_block_stop" [("index", .int 0)]

def callStart : WrittenEvent :=
  writtenEvent "content_block_start" [("index", .int 1),
    ("content_block", .obj [("type", .str "tool_use"), ("id", .str "toolu_1"),
      ("name", .str "vc_recall_all"), ("input", .obj [])])]

def callDelta : WrittenEvent :=
  writtenEvent "content_block_delta" [("index", .int 1),
    ("delta", .obj [("type", .str "input_json_delta"), ("partial_json", .str "{}")])]

def callStop : WrittenEvent := writtenEvent "content_block_stop" [("index", .int 1)]

def recallDelta : WrittenEvent :=
  writtenEvent "message_delta" [("delta", .obj [("stop_reason", .str "tool_use")])]

def recallStop : WrittenEvent := writtenEvent "message_stop" []

/-- A text, and a call of one of the proxy's tools. -/
def recallEvents : List WrittenEvent :=
  [textStart, textDelta, textStop, callStart, callDelta, callStop, recallDelta, recallStop]

def recallMessage : StreamMessage where
  opening := []
  blocks := [⟨.plain, textStart.asRead noFloats,
      [(textDelta.asRead noFloats, some "Let me look.")], textStop.asRead noFloats⟩,
    ⟨.vcTool (.str "toolu_1") (.str "vc_recall_all"), callStart.asRead noFloats,
      [(callDelta.asRead noFloats, some "{}")], callStop.asRead noFloats⟩]
  stopReason := .str "tool_use"
  delta := recallDelta.asRead noFloats
  stop := recallStop.asRead noFloats
  closing := []

def recallEnv : StreamEnv := loadsWritten noFloats recallEvents

def recallBytes : Bytes := (recallEvents.map (·.bytes noFloats)).flatten

theorem recallEvents_spec : (recallEvents.map (·.data noFloats)).Nodup ∧
    ∀ event ∈ recallEvents, ¬ IsBlank (event.asRead noFloats) := by
  decide +kernel

theorem recallEvents_visible : ∀ event ∈ recallEvents, IsVisible event.eventType.toList := by
  simp [recallEvents, textStart, textDelta, textStop, callStart, callDelta, callStop, recallDelta,
    recallStop, writtenEvent, IsVisible]

theorem recallMessage_wellFormed : recallMessage.WellFormed recallEnv := by
  have hreads {event : WrittenEvent} {dtype : String} {fields : List (String × Json)}
      (hevent : event ∈ recallEvents) (hfields : event.payload = ("type", .str dtype) :: fields) :
      Reads recallEnv (event.asRead noFloats) dtype (.obj event.payload) :=
    reads_written recallEvents_spec.1 hevent (recallEvents_spec.2 event hevent) hfields
  have hevents : textStart ∈ recallEvents ∧ textDelta ∈ recallEvents ∧ textStop ∈ recallEvents ∧
      callStart ∈ recallEvents ∧ callDelta ∈ recallEvents ∧ callStop ∈ recallEvents ∧
      recallDelta ∈ recallEvents ∧ recallStop ∈ recallEvents := by simp [recallEvents]
  obtain ⟨hstart, hdelta, hstop, hcall, hinput, hend, hreason, hlast⟩ := hevents
  constructor
  · exact fun _ h => absurd h List.not_mem_nil
  · refine List.forall_mem_cons.mpr ⟨⟨?_, ?_, ?_⟩, List.forall_mem_cons.mpr ⟨⟨?_, ?_, ?_⟩,
      fun _ h => absurd h List.not_mem_nil⟩⟩
    · exact ⟨_, .str "text", ⟨_, hreads hstart rfl, rfl⟩, rfl, rfl⟩
    · intro m hm
      rw [List.mem_singleton.mp hm]
      exact ⟨_, _, hreads hdelta rfl, rfl, rfl⟩
    · exact ⟨_, hreads hstop rfl⟩
    · exact ⟨_, ⟨_, hreads hcall rfl, rfl⟩, rfl, rfl, rfl, rfl⟩
    · intro m hm
      rw [List.mem_singleton.mp hm]
      exact ⟨_, _, hreads hinput rfl, rfl, rfl, rfl⟩
    · exact ⟨_, hreads hend rfl⟩
  · exact ⟨_, _, hreads hreason rfl, rfl, rfl, fun _ => rfl⟩
  · exact ⟨_, hreads hlast rfl⟩
  · exact fun _ h => absurd h List.not_mem_nil

theorem recallEvents_read : (parseSseEvents [recallBytes].flatten).1 = recallMessage.events := by
  have hread := parseSseEvents_written isPrintable_noFloats recallEvents_visible []
  rw [List.flatten_cons, List.flatten_nil, recallBytes, hread]
  rfl

end VirtualContext
