import VirtualContext.Proxy.SseEmission
import VirtualContext.Proxy.StreamInterception

/-!
# What a client receives of a stream

The interception does not depend on the chunks of the stream, it loses no event and
repeats none, and it changes nothing unless one of the proxy's tools is called.
-/

namespace VirtualContext

open VirtualContext.Library

variable {env : StreamEnv} {s s' : Interception} {event : SseEvent} {events : List SseEvent}
  {out : List Bytes}

/-! ## Chunks -/

theorem receiveAll_append (env : StreamEnv) (s : Interception) (events more : List SseEvent) :
    receiveAll env s (events ++ more) =
      match receiveAll env s events with
      | (out, none) => (out, none)
      | (out, some s) => (out ++ (receiveAll env s more).1, (receiveAll env s more).2) := by
  induction events generalizing s with
  | nil => rfl
  | cons event events ih =>
      rw [List.cons_append, receiveAll, receiveAll]
      cases receive env s event with
      | none => rfl
      | some received =>
          dsimp only
          rw [ih]
          rcases receiveAll env received.1 events with ⟨out, _ | s'⟩
          · rfl
          · simp only [List.append_assoc]

theorem parseSseEvents_append (buf more : Bytes) :
    parseSseEvents (buf ++ more) =
      ((parseSseEvents buf).1 ++ (parseSseEvents ((parseSseEvents buf).2 ++ more)).1,
        (parseSseEvents ((parseSseEvents buf).2 ++ more)).2) := by
  simp only [parseSseEvents]
  rw [sseFramer.frames_append, List.map_append]

theorem interceptChunks_eq (s : Interception) {buf : Bytes} (hbuf : eventEnd buf = none)
    (chunks : List Bytes) :
    interceptChunks env s buf chunks =
      ((receiveAll env s (parseSseEvents (buf ++ chunks.flatten)).1).1,
        (receiveAll env s (parseSseEvents (buf ++ chunks.flatten)).1).2.map
          (·, (parseSseEvents (buf ++ chunks.flatten)).2)) := by
  induction chunks generalizing s buf with
  | nil =>
      have hparsed : parseSseEvents buf = ([], buf) := by
        have hframes : sseFramer.frames buf = ([], buf) := Framer.frames_of_none hbuf
        rw [parseSseEvents, hframes]
        rfl
      rw [List.flatten_nil, List.append_nil, hparsed]
      rfl
  | cons chunk chunks ih =>
      rw [List.flatten_cons, ← List.append_assoc, parseSseEvents_append, receiveAll_append,
        interceptChunks]
      dsimp only
      rcases receiveAll env s (parseSseEvents (buf ++ chunk)).1 with ⟨out, _ | s'⟩
      · rfl
      · dsimp only
        have hrest : eventEnd (parseSseEvents (buf ++ chunk)).2 = none := sseFramer.cut_rest _
        rw [ih s' hrest]

theorem interceptChunks_nil (env : StreamEnv) (chunks : List Bytes) :
    interceptChunks env {} [] chunks =
      ((receiveAll env {} (parseSseEvents chunks.flatten).1).1,
        (receiveAll env {} (parseSseEvents chunks.flatten).1).2.map
          (·, (parseSseEvents chunks.flatten).2)) :=
  interceptChunks_eq {} rfl chunks

/-- The bytes decide what the client receives, what is held back and the state at the end, not
the chunks they arrive in. -/
theorem intercept_rechunked (env : StreamEnv) {chunks other : List Bytes}
    (h : chunks.flatten = other.flatten) :
    interceptChunks env {} [] chunks = interceptChunks env {} [] other := by
  rw [interceptChunks_nil, interceptChunks_nil, h]

/-- Two chunks that divide a boundary. -/
theorem intercept_rechunked_boundary :
    interceptChunks ⟨fun _ => none⟩ {} [] [[58, 10], [10, 58]] =
      interceptChunks ⟨fun _ => none⟩ {} [] [[58, 10, 10, 58]] :=
  intercept_rechunked ⟨fun _ => none⟩ rfl

/-! ## No event is lost -/

/-- What is passed on and held back after an event. -/
theorem receive_perm (h : receive env s event = some (s', out)) :
    (out ++ s'.suppressedRaw).Perm (s.suppressedRaw ++ [event.rawBytes]) := by
  unfold receive at h
  split_ifs at h with hblank
  · obtain ⟨rfl, rfl⟩ := Prod.mk.inj (Option.some.inj h)
    exact List.perm_append_comm
  · split at h
    · obtain ⟨rfl, rfl⟩ := Prod.mk.inj (Option.some.inj h)
      exact List.perm_append_comm
    next data hdata =>
      simp only [Option.bind_eq_bind, Option.bind_eq_some_iff] at h
      obtain ⟨dtype, -, usage, -, ⟨state, verdict⟩, -, h⟩ := h
      obtain ⟨rfl, rfl⟩ := Prod.mk.inj (Option.some.inj h)
      cases verdict with
      | forward => exact List.perm_append_comm
      | hold => exact List.Perm.refl _
      | release => exact (List.append_nil _).symm ▸ List.Perm.refl _

/-- The events until an exception are passed on or held back, each of them once. -/
theorem receiveAll_perm (env : StreamEnv) (s : Interception) (events : List SseEvent) :
    ∃ handled held, handled <+: events ∧
      ((receiveAll env s events).1 ++ held).Perm
        (s.suppressedRaw ++ handled.map (·.rawBytes)) ∧
      ∀ s', (receiveAll env s events).2 = some s' → handled = events ∧ held = s'.suppressedRaw := by
  induction events generalizing s with
  | nil =>
      refine ⟨[], s.suppressedRaw, List.prefix_rfl, by simp [receiveAll], fun s' hs' => ?_⟩
      rw [← Option.some.inj hs']
      exact ⟨rfl, rfl⟩
  | cons event events ih =>
      rw [receiveAll]
      cases hreceived : receive env s event with
      | none => exact ⟨[], s.suppressedRaw, List.nil_prefix, by simp, nofun⟩
      | some received =>
          obtain ⟨next, now⟩ := received
          obtain ⟨handled, held, hprefix, hperm, hend⟩ := ih next
          have hnow := receive_perm hreceived
          refine ⟨event :: handled, held, List.cons_prefix_cons.mpr ⟨rfl, hprefix⟩, ?_,
            fun s' hs' => ?_⟩
          · calc now ++ (receiveAll env next events).1 ++ held
                _ = now ++ ((receiveAll env next events).1 ++ held) := List.append_assoc _ _ _
                List.Perm _ (now ++ (next.suppressedRaw ++ handled.map (·.rawBytes))) :=
                  hperm.append_left _
                _ = now ++ next.suppressedRaw ++ handled.map (·.rawBytes) :=
                  (List.append_assoc _ _ _).symm
                List.Perm _ (s.suppressedRaw ++ [event.rawBytes] ++ handled.map (·.rawBytes)) :=
                  hnow.append_right _
                _ = s.suppressedRaw ++ (event :: handled).map (·.rawBytes) := by simp
          · obtain ⟨rfl, rfl⟩ := hend s' hs'
            exact ⟨rfl, rfl⟩

/-- In any chunks, every byte of a stream that raises nothing is passed on, held back with
its event, or part of the event that is not complete. -/
theorem stream_conserved (env : StreamEnv) (chunks : List Bytes) :
    ∃ handled held, handled <+: (parseSseEvents chunks.flatten).1 ∧
      ((interceptChunks env {} [] chunks).1 ++ held).Perm (handled.map (·.rawBytes)) ∧
      ∀ s rest, (interceptChunks env {} [] chunks).2 = some (s, rest) →
        held = s.suppressedRaw ∧
          (handled.map (·.rawBytes)).flatten ++ rest = chunks.flatten := by
  obtain ⟨handled, held, hprefix, hperm, hend⟩ :=
    receiveAll_perm env {} (parseSseEvents chunks.flatten).1
  rw [interceptChunks_nil]
  refine ⟨handled, held, hprefix, hperm, fun s rest hresult => ?_⟩
  obtain ⟨final, hfinal, heq⟩ := Option.map_eq_some_iff.mp hresult
  obtain ⟨rfl, rfl⟩ := Prod.mk.inj heq
  obtain ⟨rfl, rfl⟩ := hend final hfinal
  refine ⟨rfl, ?_⟩
  rw [rawBytes_parseSseEvents]
  exact sseFramer.flatten_frames _

/-! ## Streams without the proxy's tools -/

/-- A block or an item of a kind that calls one of the proxy's tools. -/
def namesVcTool (value : Json) (kind : String) : Bool :=
  match value.getDefault "type" (.str ""), value.getDefault "name" (.str "") with
  | some itype, some name => itype.isStr kind && isVcToolName name == some true
  | _, _ => false

/-- An event that starts a call of one of the proxy's tools. -/
def startsVcTool (env : StreamEnv) (event : SseEvent) : Bool :=
  match env.loads event.dataStr with
  | some (.obj entries) =>
      let dtype := Json.getOr entries "type" (.str "")
      (dtype.isStr "content_block_start" &&
        namesVcTool (Json.getOr entries "content_block" (.obj [])) "tool_use") ||
      (dtype.isStr "response.output_item.added" &&
        namesVcTool (Json.getOr entries "item" (.obj [])) "function_call")
  | _ => false

namespace StreamState

variable {s s' : StreamState} {data dtype : Json} {verdict : Verdict}

/-- No call of one of the proxy's tools is or was read. -/
structure Quiet (s : StreamState) : Prop where
  suppressing : s.suppressing = false
  vcTools : s.vcTools = []
  needContinuation : s.needContinuation = false

theorem Quiet.appendText (hs : s.Quiet) (text : Json) : (appendText s text).Quiet := by
  unfold VirtualContext.appendText
  split_ifs
  · exact ⟨hs.suppressing, hs.vcTools, hs.needContinuation⟩
  · exact hs

theorem quiet_contentBlockStart (hs : s.Quiet)
    (hblock : ∀ block, data.getDefault "content_block" (.obj []) = some block →
      namesVcTool block "tool_use" = false)
    (h : contentBlockStart s data = some (s', verdict)) : s'.Quiet ∧ verdict = .forward := by
  simp only [contentBlockStart, Option.bind_eq_bind, Option.bind_eq_some_iff] at h
  obtain ⟨block, hget, btype, hbtype, h⟩ := h
  split_ifs at h with htool htext
  · simp only [Option.bind_eq_some_iff] at h
    obtain ⟨name, hname, isVc, hisVc, id, -, name', -, h⟩ := h
    have hvc := hblock block hget
    rw [namesVcTool, hbtype, hname] at hvc
    cases isVc with
    | true => simp [htool, hisVc] at hvc
    | false =>
        obtain ⟨rfl, rfl⟩ := Prod.mk.inj (Option.some.inj h)
        exact ⟨⟨hs.suppressing, hs.vcTools, hs.needContinuation⟩, rfl⟩
  · obtain ⟨rfl, rfl⟩ := Prod.mk.inj (Option.some.inj h)
    exact ⟨⟨hs.suppressing, hs.vcTools, hs.needContinuation⟩, rfl⟩
  · obtain ⟨rfl, rfl⟩ := Prod.mk.inj (Option.some.inj h)
    exact ⟨hs, rfl⟩

theorem quiet_contentBlockDelta (hs : s.Quiet)
    (h : contentBlockDelta s data = some (s', verdict)) : s'.Quiet ∧ verdict = .forward := by
  simp only [contentBlockDelta, hs.suppressing, Bool.false_eq_true, if_false,
    Option.bind_eq_bind, Option.bind_eq_some_iff] at h
  obtain ⟨delta, -, text, -, h⟩ := h
  obtain ⟨rfl, rfl⟩ := Prod.mk.inj (Option.some.inj h)
  exact ⟨hs.appendText text, rfl⟩

theorem quiet_contentBlockStop (hs : s.Quiet)
    (h : contentBlockStop env s = some (s', verdict)) : s'.Quiet ∧ verdict = .forward := by
  simp only [contentBlockStop, hs.suppressing, Bool.false_eq_true, if_false,
    Option.bind_eq_bind, Option.bind_eq_some_iff] at h
  obtain ⟨text, -, h⟩ := h
  obtain ⟨rfl, rfl⟩ := Prod.mk.inj (Option.some.inj h)
  exact ⟨⟨rfl, hs.vcTools, hs.needContinuation⟩, rfl⟩

theorem quiet_messageDelta (hs : s.Quiet) (h : messageDelta s data = some (s', verdict)) :
    s'.Quiet ∧ verdict = .forward := by
  simp only [messageDelta, hs.vcTools, Option.bind_eq_bind, Option.bind_eq_some_iff] at h
  obtain ⟨delta, -, stopReason, -, h⟩ := h
  rw [if_neg (by simp)] at h
  obtain ⟨rfl, rfl⟩ := Prod.mk.inj (Option.some.inj h)
  exact ⟨hs, rfl⟩

theorem quiet_outputItemAdded (hs : s.Quiet)
    (hitem : ∀ item, data.getDefault "item" (.obj []) = some item →
      namesVcTool item "function_call" = false)
    (h : outputItemAdded s data = some (s', verdict)) : s'.Quiet ∧ verdict = .forward := by
  simp only [outputItemAdded, Option.bind_eq_bind, Option.bind_eq_some_iff] at h
  obtain ⟨item, hget, itype, hitype, h⟩ := h
  split_ifs at h with hcall
  · simp only [Option.bind_eq_some_iff] at h
    obtain ⟨name, hname, isVc, hisVc, callId, -, h⟩ := h
    have hvc := hitem item hget
    rw [namesVcTool, hitype, hname] at hvc
    cases isVc with
    | true => simp [hcall, hisVc] at hvc
    | false =>
        simp only [Bool.false_eq_true, if_false, Option.bind_eq_some_iff] at h
        obtain ⟨name', -, h⟩ := h
        obtain ⟨rfl, rfl⟩ := Prod.mk.inj (Option.some.inj h)
        exact ⟨⟨hs.suppressing, hs.vcTools, hs.needContinuation⟩, rfl⟩
  · obtain ⟨rfl, rfl⟩ := Prod.mk.inj (Option.some.inj h)
    exact ⟨hs, rfl⟩

theorem quiet_outputItemDone (hs : s.Quiet) (h : outputItemDone s data = some (s', verdict)) :
    s'.Quiet ∧ verdict = .forward := by
  simp only [outputItemDone, hs.suppressing, Bool.false_eq_true, if_false,
    Option.bind_eq_bind, Option.bind_eq_some_iff] at h
  obtain ⟨item, -, itype, -, h⟩ := h
  split_ifs at h
  · simp only [Option.bind_eq_some_iff] at h
    obtain ⟨text, -, h⟩ := h
    obtain ⟨rfl, rfl⟩ := Prod.mk.inj (Option.some.inj h)
    exact ⟨⟨rfl, hs.vcTools, hs.needContinuation⟩, rfl⟩
  · obtain ⟨rfl, rfl⟩ := Prod.mk.inj (Option.some.inj h)
    exact ⟨hs, rfl⟩

theorem quiet_responseCompleted (hs : s.Quiet)
    (h : responseCompleted s data = some (s', verdict)) : s'.Quiet ∧ verdict = .forward := by
  simp only [responseCompleted, hs.vcTools, Option.bind_eq_bind, Option.bind_eq_some_iff] at h
  obtain ⟨response, -, outputs, -, output, -, hasVc, -, h⟩ := h
  rw [if_neg (by simp)] at h
  obtain ⟨rfl, rfl⟩ := Prod.mk.inj (Option.some.inj h)
  exact ⟨hs, rfl⟩

/-- An event that starts no call of the proxy's tools is passed on. -/
theorem quiet_dispatch (hs : s.Quiet)
    (hblock : dtype.isStr "content_block_start" = true →
      ∀ block, data.getDefault "content_block" (.obj []) = some block →
        namesVcTool block "tool_use" = false)
    (hitem : dtype.isStr "response.output_item.added" = true →
      ∀ item, data.getDefault "item" (.obj []) = some item →
        namesVcTool item "function_call" = false)
    (h : dispatch env s data dtype = some (s', verdict)) : s'.Quiet ∧ verdict = .forward := by
  have hsame {t : StreamState} (ht : t.Quiet)
      (heq : some (t, Verdict.forward) = some (s', verdict)) : s'.Quiet ∧ verdict = .forward := by
    obtain ⟨rfl, rfl⟩ := Prod.mk.inj (Option.some.inj heq)
    exact ⟨ht, rfl⟩
  rw [dispatch] at h
  rcases ite_eq_iff.mp h with ⟨hstart, h⟩ | ⟨-, h⟩
  · exact quiet_contentBlockStart hs (hblock hstart) h
  rcases ite_eq_iff.mp h with ⟨-, h⟩ | ⟨-, h⟩
  · exact quiet_contentBlockDelta hs h
  rcases ite_eq_iff.mp h with ⟨-, h⟩ | ⟨-, h⟩
  · exact quiet_contentBlockStop hs h
  rcases ite_eq_iff.mp h with ⟨-, h⟩ | ⟨-, h⟩
  · exact quiet_messageDelta hs h
  rcases ite_eq_iff.mp h with ⟨-, h⟩ | ⟨-, h⟩
  · rw [messageStop, hs.needContinuation] at h
    exact hsame hs h
  rcases ite_eq_iff.mp h with ⟨hadded, h⟩ | ⟨-, h⟩
  · exact quiet_outputItemAdded hs (hitem hadded) h
  rcases ite_eq_iff.mp h with ⟨-, h⟩ | ⟨-, h⟩
  · rw [argumentsDelta, hs.suppressing] at h
    exact hsame hs h
  rcases ite_eq_iff.mp h with ⟨-, h⟩ | ⟨-, h⟩
  · rw [argumentsDone, hs.suppressing] at h
    exact hsame hs h
  rcases ite_eq_iff.mp h with ⟨-, h⟩ | ⟨-, h⟩
  · simp only [outputTextDelta, Option.bind_eq_bind, Option.bind_eq_some_iff] at h
    obtain ⟨text, -, h⟩ := h
    exact hsame (hs.appendText text) h
  rcases ite_eq_iff.mp h with ⟨-, h⟩ | ⟨-, h⟩
  · exact quiet_outputItemDone hs h
  rcases ite_eq_iff.mp h with ⟨-, h⟩ | ⟨-, h⟩
  · exact quiet_responseCompleted hs h
  · exact hsame hs h

end StreamState

theorem receive_quiet (hs : s.state.Quiet) (hevent : startsVcTool env event = false)
    (h : receive env s event = some (s', out)) :
    s'.state.Quiet ∧ s'.suppressedRaw = s.suppressedRaw ∧ out = [event.rawBytes] := by
  unfold receive at h
  split_ifs at h with hblank
  · obtain ⟨rfl, rfl⟩ := Prod.mk.inj (Option.some.inj h)
    exact ⟨hs, rfl, rfl⟩
  · split at h
    · obtain ⟨rfl, rfl⟩ := Prod.mk.inj (Option.some.inj h)
      exact ⟨hs, rfl, rfl⟩
    next data hdata =>
      simp only [Option.bind_eq_bind, Option.bind_eq_some_iff] at h
      obtain ⟨dtype, hdtype, usage, -, ⟨state, verdict⟩, hdispatch, h⟩ := h
      obtain ⟨rfl, rfl⟩ := Prod.mk.inj (Option.some.inj h)
      cases data with
      | obj entries =>
          simp only [startsVcTool, hdata, Bool.or_eq_false_iff, Bool.and_eq_false_imp] at hevent
          obtain rfl := Option.some.inj hdtype
          have hget {key : String} {value : Json}
              (h : (Json.obj entries).getDefault key (.obj []) = some value) :
              Json.getOr entries key (.obj []) = value := Option.some.inj h
          obtain ⟨hquiet, rfl⟩ := StreamState.quiet_dispatch hs
            (fun hkind block hblock => hget hblock ▸ hevent.1 hkind)
            (fun hkind item hitem => hget hitem ▸ hevent.2 hkind) hdispatch
          exact ⟨hquiet, rfl, rfl⟩
      | _ => cases hdtype

theorem receiveAll_quiet (hs : s.state.Quiet)
    (hevents : ∀ event ∈ events, startsVcTool env event = false) :
    ∃ handled, handled <+: events ∧ (receiveAll env s events).1 = handled.map (·.rawBytes) ∧
      ∀ s', (receiveAll env s events).2 = some s' →
        handled = events ∧ s'.state.Quiet ∧ s'.suppressedRaw = s.suppressedRaw := by
  induction events generalizing s with
  | nil =>
      refine ⟨[], List.prefix_rfl, rfl, fun s' hs' => ?_⟩
      obtain rfl := Option.some.inj hs'
      exact ⟨rfl, hs, rfl⟩
  | cons event events ih =>
      rw [receiveAll]
      cases hreceived : receive env s event with
      | none => exact ⟨[], List.nil_prefix, rfl, nofun⟩
      | some received =>
          obtain ⟨next, now⟩ := received
          obtain ⟨hquiet, hheld, rfl⟩ :=
            receive_quiet hs (hevents event List.mem_cons_self) hreceived
          obtain ⟨handled, hprefix, hout, hend⟩ :=
            ih hquiet fun other hother => hevents other (List.mem_cons_of_mem _ hother)
          refine ⟨event :: handled, List.cons_prefix_cons.mpr ⟨rfl, hprefix⟩, ?_,
            fun s' hs' => ?_⟩
          · dsimp only
            rw [hout]
            rfl
          · obtain ⟨rfl, hfinal, hsame⟩ := hend s' hs'
            exact ⟨rfl, hfinal, hsame.trans hheld⟩

/-- `json.loads` of the data of events. -/
def loadsWritten (py : PyText) (events : List WrittenEvent) : StreamEnv where
  loads text := (events.find? (·.data py = text)).map fun event => .obj event.payload

theorem helloEvents_start_nothing : ∀ event ∈ helloEvents,
    startsVcTool (loadsWritten noFloats helloEvents) (event.asRead noFloats) = false := by
  decide +kernel

end VirtualContext
