import Mathlib.Algebra.GroupWithZero.Nat
import VirtualContext.Library.Keyed
import VirtualContext.Proxy.ToolOutputs

/-!
# Stubs for tool outputs

Old tool outputs are stored under a reference that is computed from their content,
and a stub with the reference takes their place in the request.  Every conversation
stores into one table, whose key is the reference alone.
-/

namespace VirtualContext

open VirtualContext.Library

variable {ρ : Type}

/-! ## The store -/

structure ToolOutputRecord where
  ref : Text
  conversationId : ConversationId
  toolName : String
  command : Text
  turn : Int
  content : Text
  originalBytes : Nat
  deriving DecidableEq, Repr

/-- The tables `tool_outputs`, whose primary key is `ref`, and `turn_tool_outputs`. -/
structure ToolOutputStore where
  outputs : List ToolOutputRecord := []
  turnLinks : List (ConversationId × Int × Text) := []
  distinct : (outputs.map (·.ref)).Nodup := by simp

namespace ToolOutputStore

variable (store : ToolOutputStore)

def storeToolOutput (record : ToolOutputRecord) : ToolOutputStore where
  outputs := replaceBy (·.ref) record store.outputs
  turnLinks := store.turnLinks
  distinct := nodup_replaceBy store.distinct

/-- `INSERT OR IGNORE` -/
def linkTurnToolOutput (conversationId : ConversationId) (turn : Int) (ref : Text) :
    ToolOutputStore where
  outputs := store.outputs
  turnLinks :=
    if (conversationId, turn, ref) ∈ store.turnLinks then store.turnLinks
    else store.turnLinks ++ [(conversationId, turn, ref)]
  distinct := store.distinct

def getToolOutputByRef (conversationId : ConversationId) (ref : Text) : Option Text :=
  (store.outputs.find? fun row =>
    row.conversationId = conversationId && row.ref = ref).map (·.content)

end ToolOutputStore

/-! ## Stubbing by position -/

structure StubArgs where
  protectedRecentTurns : Int
  turnTagIndex : TurnTagIndex
  conversationId : ConversationId
  protectedIntrusionThreshold : ℚ := 0
  contextBudget : Int := 0

/-- How a `store_tool_output` call ends: it may raise before or after its statement. -/
inductive StoreOutcome where
  | stored | refused | storedThenRaised
  deriving DecidableEq, Repr

/-- The outcomes of the calls for each output, by its position. -/
structure StubFaults where
  store : Nat → StoreOutcome := fun _ => .stored
  linkFails : Nat → Bool := fun _ => false

section

variable (env : StubEnv ρ) (args : StubArgs) (messages : List (StubMessage ρ))
  (turns : List (List Nat))

def protectedStart (total : Nat) : Nat := ((total : Int) - args.protectedRecentTurns).toNat

def hardProtectedStart (total : Nat) : Nat := total - 2

/-- The size of the protected messages, in tokens of four bytes. -/
def protectedTokens : Nat :=
  ((turns.drop (protectedStart args turns.length)).flatten.map fun i =>
    (messages[i]?.map env.dumped).getD 0).sum / 4

def intrusionActive : Bool :=
  0 < args.protectedIntrusionThreshold ∧ 0 < args.contextBudget ∧
    2 < turns.length - protectedStart args turns.length ∧
    args.protectedIntrusionThreshold <
      (protectedTokens env args messages turns : ℚ) / args.contextBudget

/-- The texts of a turn: of its last user message, and the first of its answer. -/
def turnTexts (fmt : ApiFormat) (turn : List Nat) : Text × Text :=
  turn.foldl (fun (texts : Text × Text) i =>
    match messages[i]? with
    | none => texts
    | some msg =>
        if (msg.role = some "user" ∨ msg.role = some "human") ∧ !msg.isToolResultOnlyUser then
          (msg.textForStubHash env.stripEnvelope, texts.2)
        else if msg.role = some (if fmt = .gemini then "model" else "assistant") ∧
            texts.2 = [] then
          (texts.1, msg.textForStubHash env.stripEnvelope)
        else texts) ([], [])

/-- The turn number of the entry with the hash of a turn, or `-1`. -/
def turnCanonical (fmt : ApiFormat) (turn : List Nat) : Int :=
  let texts := turnTexts env messages fmt turn
  if texts.1 = [] then -1
  else ((args.turnTagIndex.getEntryByHash
    (env.turnHash (texts.1 ++ ' ' :: texts.2))).map (·.turnNumber)).getD (-1)

/-- The call that an output belongs to; the last one with the identifier. -/
def callInfo (callId : String) : Option (StubToolCall ρ) :=
  (iterToolCalls messages).reverse.find? fun call => call.id ≠ "" && call.id = callId

/-- What is done with an output: it is left, raises, or is stored. -/
inductive OutputFate where
  | skipped
  | unreadable
  | stubbed (record : ToolOutputRecord)
  deriving DecidableEq, Repr

def outputFate (fmt : ApiFormat) (output : ToolOutputInfo) : OutputFate :=
  match turns.findIdx? (output.msgIndex ∈ ·) with
  | none => .skipped
  | some turn =>
      let info := callInfo messages output.callId
      let toolName := (info.map (·.name)).getD ""
      if hardProtectedStart turns.length ≤ turn then .skipped
      else if protectedStart args turns.length ≤ turn ∧
          !intrusionActive env args messages turns then .skipped
      else if isVcTool toolName then .skipped
      else
        match output.content with
        | none => .unreadable
        | some [] => .skipped
        | some content => .stubbed
            { ref := "tool_".toList ++ env.outputHash content
              conversationId := args.conversationId
              toolName := toolName
              command := summariseArguments env.printed (info.bind (·.arguments))
              turn := turnCanonical env args messages fmt (turns.getD turn [])
              content := content
              originalBytes := (String.ofList content).utf8ByteSize }

def stubText (record : ToolOutputRecord) : Text :=
  "[tool output ref=".toList ++ record.ref ++ " | tool=".toList ++
    (if record.toolName = "" then "unknown" else record.toolName).toList ++
    " args=\"".toList ++ record.command ++ "\" | call vc_restore_tool(ref=\"".toList ++
    record.ref ++ "\")]".toList

end

structure StubState (ρ : Type) where
  messages : List (StubMessage ρ)
  store : ToolOutputStore
  stubCount : Nat := 0
  stubRefs : List Text := []

/-- Stores an output, links it to its turn and puts the stub in its place. -/
def stubOutput (faults : StubFaults) (output : ToolOutputInfo) (i : Nat)
    (record : ToolOutputRecord) (s : StubState ρ) : StubState ρ :=
  match faults.store i with
  | .refused => s
  | .storedThenRaised => { s with store := s.store.storeToolOutput record }
  | .stored =>
      let store := s.store.storeToolOutput record
      { messages := replaceToolOutputContent s.messages output (stubText record)
        store :=
          if 0 ≤ record.turn ∧ !faults.linkFails i then
            store.linkTurnToolOutput record.conversationId record.turn record.ref
          else store
        stubCount := s.stubCount + 1
        stubRefs := s.stubRefs ++ [record.ref] }

/-- The loop over the outputs; `true` if one of them raises. -/
def stubOutputs (fate : ToolOutputInfo → OutputFate) (faults : StubFaults) :
    List (ToolOutputInfo × Nat) → StubState ρ → StubState ρ × Bool
  | [], s => (s, false)
  | (output, i) :: outputs, s =>
      match fate output with
      | .skipped => stubOutputs fate faults outputs s
      | .unreadable => (s, true)
      | .stubbed record =>
          stubOutputs fate faults outputs (stubOutput faults output i record s)

def stubToolOutputsByPosition (env : StubEnv ρ) (args : StubArgs) (faults : StubFaults)
    (fmt : ApiFormat) (messages : List (StubMessage ρ)) (store : ToolOutputStore) :
    StubState ρ × Bool :=
  let turns := groupIntoTurns fmt messages
  stubOutputs (outputFate env args messages turns fmt) faults
    (iterToolOutputs messages).zipIdx { messages := messages, store := store }

/-! ## Calls and their writes -/

inductive ToolOutputCall (ρ : Type) where
  | storeToolOutput (record : ToolOutputRecord) (outcome : StoreOutcome)
  | stub (args : StubArgs) (faults : StubFaults) (fmt : ApiFormat)
      (messages : List (StubMessage ρ))

/-- A row that is written, and whether its reference is put into a stub. -/
structure OutputWrite where
  record : ToolOutputRecord
  issued : Bool
  deriving DecidableEq, Repr

/-- The write for an output that is stored. -/
def outputWrite (record : ToolOutputRecord) : StoreOutcome → Option OutputWrite
  | .refused => none
  | .storedThenRaised => some ⟨record, false⟩
  | .stored => some ⟨record, true⟩

def OutputFate.write (outcome : StoreOutcome) : OutputFate → Option OutputWrite
  | .stubbed record => outputWrite record outcome
  | _ => none

namespace ToolOutputCall

variable (env : StubEnv ρ)

def perform (call : ToolOutputCall ρ) (store : ToolOutputStore) : ToolOutputStore :=
  match call with
  | .storeToolOutput record outcome =>
      if outcome = .refused then store else store.storeToolOutput record
  | .stub args faults fmt messages =>
      (stubToolOutputsByPosition env args faults fmt messages store).1.store

/-- The rows that a call writes, in order; an output that raises ends a run. -/
def writes : ToolOutputCall ρ → List OutputWrite
  | .storeToolOutput record outcome => if outcome = .refused then [] else [⟨record, false⟩]
  | .stub args faults fmt messages =>
      let fate := outputFate env args messages (groupIntoTurns fmt messages) fmt
      ((iterToolOutputs messages).zipIdx.takeWhile (fate ·.1 ≠ .unreadable)).filterMap
        fun entry => (fate entry.1).write (faults.store entry.2)

end ToolOutputCall

/-! ## What the calls leave -/

/-- The tables after some rows were written. -/
def ToolOutputStore.after (store : ToolOutputStore) (done : List OutputWrite) :
    ToolOutputStore :=
  done.foldl (fun store write => store.storeToolOutput write.record) store

namespace ToolOutputStore

variable {store : ToolOutputStore}

theorem outputs_after (done : List OutputWrite) :
    (store.after done).outputs =
      done.foldl (fun rows write => replaceBy (·.ref) write.record rows) store.outputs := by
  induction done generalizing store with
  | nil => rfl
  | cons write done ih =>
      rw [after, List.foldl_cons, List.foldl_cons, ← after, ih]
      rfl

theorem getToolOutputByRef_congr {other : ToolOutputStore} (h : store.outputs = other.outputs)
    (conversationId : ConversationId) (ref : Text) :
    store.getToolOutputByRef conversationId ref =
      other.getToolOutputByRef conversationId ref := by
  rw [getToolOutputByRef, h, getToolOutputByRef]

/-- A reference resolves if the row with it is of the conversation and has the content. -/
theorem getToolOutputByRef_eq_some_iff {conversationId : ConversationId} {ref content : Text} :
    store.getToolOutputByRef conversationId ref = some content ↔
      Found (·.ref) ref (fun row : ToolOutputRecord =>
        row.conversationId = conversationId ∧ row.content = content) store.outputs := by
  unfold getToolOutputByRef
  rw [Option.map_eq_some_iff]
  constructor
  · rintro ⟨row, hfound, hcontent⟩
    have hrow := List.find?_some hfound
    simp only [Bool.and_eq_true, decide_eq_true_eq] at hrow
    exact ⟨row, List.mem_of_find?_eq_some hfound, hrow.2, hrow.1, hcontent⟩
  · rintro ⟨row, hrow, href, hconversation, hcontent⟩
    refine ⟨row, ?_, hcontent⟩
    have hsome : (store.outputs.find? fun row =>
        row.conversationId = conversationId && row.ref = ref).isSome := by
      rw [List.find?_isSome]
      exact ⟨row, hrow, by simp [hconversation, href]⟩
    obtain ⟨found, hfound⟩ := Option.isSome_iff_exists.mp hsome
    have heq := List.find?_some hfound
    simp only [Bool.and_eq_true, decide_eq_true_eq] at heq
    rw [hfound, Option.some.injEq]
    exact List.inj_on_of_nodup_map store.distinct (List.mem_of_find?_eq_some hfound) hrow
      (heq.2.trans href.symm)

end ToolOutputStore

/-! ### The loop -/

section

variable {fate : ToolOutputInfo → OutputFate} {faults : StubFaults}

/-- The writes of the outputs that the loop reaches. -/
def loopWrites (fate : ToolOutputInfo → OutputFate) (faults : StubFaults)
    (outputs : List (ToolOutputInfo × Nat)) : List OutputWrite :=
  (outputs.takeWhile (fate ·.1 ≠ .unreadable)).filterMap
    fun entry => (fate entry.1).write (faults.store entry.2)

variable (faults) in
theorem stubOutput_outputs (output : ToolOutputInfo) (i : Nat) (record : ToolOutputRecord)
    (s : StubState ρ) :
    (stubOutput faults output i record s).store.outputs =
      (s.store.after (outputWrite record (faults.store i)).toList).outputs ∧
    (stubOutput faults output i record s).stubRefs =
      s.stubRefs ++ ((outputWrite record (faults.store i)).toList.filter (·.issued)).map
        (·.record.ref) := by
  unfold stubOutput
  cases faults.store i with
  | refused => exact ⟨rfl, (List.append_nil _).symm⟩
  | storedThenRaised => exact ⟨rfl, (List.append_nil _).symm⟩
  | stored =>
      dsimp only
      refine ⟨?_, rfl⟩
      split_ifs <;> rfl

/-- The loop writes the rows of the outputs that it reaches, and issues their references. -/
theorem stubOutputs_spec (outputs : List (ToolOutputInfo × Nat)) (s : StubState ρ) :
    (stubOutputs fate faults outputs s).1.store.outputs =
      (s.store.after (loopWrites fate faults outputs)).outputs ∧
    (stubOutputs fate faults outputs s).1.stubRefs =
      s.stubRefs ++ ((loopWrites fate faults outputs).filter (·.issued)).map
        (·.record.ref) := by
  induction outputs generalizing s with
  | nil => exact ⟨rfl, (List.append_nil _).symm⟩
  | cons entry outputs ih =>
      obtain ⟨output, i⟩ := entry
      rw [stubOutputs]
      cases hfate : fate output with
      | skipped =>
          have hwrites : loopWrites fate faults ((output, i) :: outputs) =
              loopWrites fate faults outputs := by simp [loopWrites, hfate, OutputFate.write]
          rw [hwrites]
          exact ih s
      | unreadable =>
          have hwrites : loopWrites fate faults ((output, i) :: outputs) = [] := by
            simp [loopWrites, hfate]
          rw [hwrites]
          exact ⟨rfl, (List.append_nil _).symm⟩
      | stubbed record =>
          have hwrites : loopWrites fate faults ((output, i) :: outputs) =
              (outputWrite record (faults.store i)).toList ++ loopWrites fate faults outputs := by
            unfold loopWrites
            rw [List.takeWhile_cons_of_pos (by simp [hfate]), List.filterMap_cons]
            dsimp only
            rw [hfate, OutputFate.write]
            cases outputWrite record (faults.store i) <;> rfl
          obtain ⟨hstored, hrefs⟩ := stubOutput_outputs faults output i record s
          obtain ⟨houtputs, hissued⟩ := ih (stubOutput faults output i record s)
          rw [hwrites]
          constructor
          · rw [houtputs, ToolOutputStore.outputs_after, hstored,
              ToolOutputStore.outputs_after, ToolOutputStore.outputs_after, List.foldl_append]
          · rw [hissued, hrefs, List.filter_append, List.map_append, List.append_assoc]

end

namespace ToolOutputCall

variable (env : StubEnv ρ)

/-- A call leaves the rows of its writes. -/
theorem outputs_perform (call : ToolOutputCall ρ) (store : ToolOutputStore) :
    (call.perform env store).outputs = (store.after (call.writes env)).outputs := by
  cases call with
  | storeToolOutput record outcome =>
      unfold perform writes
      dsimp only
      split_ifs <;> rfl
  | stub args faults fmt messages => exact (stubOutputs_spec _ _).1

/-- A run issues the references of the rows it wrote for a stub. -/
theorem stubRefs_eq (args : StubArgs) (faults : StubFaults) (fmt : ApiFormat)
    (messages : List (StubMessage ρ)) (store : ToolOutputStore) :
    (stubToolOutputsByPosition env args faults fmt messages store).1.stubRefs =
      (((stub args faults fmt messages).writes env).filter (·.issued)).map (·.record.ref) :=
  (stubOutputs_spec _ _).2

end ToolOutputCall

/-! ## Sequences of calls -/

section

variable (env : StubEnv ρ)

def performAll (calls : List (ToolOutputCall ρ)) (store : ToolOutputStore) :
    ToolOutputStore :=
  calls.foldl (fun store call => call.perform env store) store

/-- The rows that a sequence of calls writes. -/
def allWrites (calls : List (ToolOutputCall ρ)) : List OutputWrite :=
  calls.flatMap (·.writes env)

/-- Every reference in a stub resolves to its content after every later write, and so
between the calls. -/
structure RefsResolve (store : ToolOutputStore) (calls : List (ToolOutputCall ρ)) :
    Prop where
  within : ∀ done, done <+: allWrites env calls → ∀ write ∈ done, write.issued →
    (store.after done).getToolOutputByRef write.record.conversationId write.record.ref =
      some write.record.content
  between : ∀ performed, performed <+: calls → ∀ write ∈ allWrites env performed,
    write.issued → (performAll env performed store).getToolOutputByRef
      write.record.conversationId write.record.ref = some write.record.content

/-- No later row with the reference of a stub is of another conversation or content. -/
def RefsApart (calls : List (ToolOutputCall ρ)) : Prop :=
  (allWrites env calls).Pairwise fun write later =>
    write.issued → later.record.ref = write.record.ref →
      later.record.conversationId = write.record.conversationId ∧
        later.record.content = write.record.content

instance (calls : List (ToolOutputCall ρ)) : Decidable (RefsApart env calls) :=
  inferInstanceAs (Decidable (List.Pairwise _ _))

theorem outputs_performAll (calls : List (ToolOutputCall ρ)) (store : ToolOutputStore) :
    (performAll env calls store).outputs = (store.after (allWrites env calls)).outputs := by
  induction calls generalizing store with
  | nil => rfl
  | cons call calls ih =>
      rw [performAll, List.foldl_cons, ← performAll, ih, ToolOutputStore.outputs_after,
        call.outputs_perform, ToolOutputStore.outputs_after, ToolOutputStore.outputs_after,
        allWrites, allWrites, List.flatMap_cons, List.foldl_append]

theorem refs_resolve_iff (store : ToolOutputStore) (calls : List (ToolOutputCall ρ)) :
    RefsResolve env store calls ↔ RefsApart env calls := by
  have hwithin : (∀ done, done <+: allWrites env calls → ∀ write ∈ done, write.issued →
      (store.after done).getToolOutputByRef write.record.conversationId write.record.ref =
        some write.record.content) ↔ RefsApart env calls := by
    let same (write : OutputWrite) (row : ToolOutputRecord) : Prop :=
      row.conversationId = write.record.conversationId ∧ row.content = write.record.content
    have hfound : (∀ done, done <+: allWrites env calls → ∀ write ∈ done,
        write.issued = true → Found (·.ref) write.record.ref (same write)
          (done.foldl (fun rows write => replaceBy (·.ref) write.record rows) store.outputs)) ↔
        (allWrites env calls).Pairwise fun write later => write.issued = true →
          later.record.ref = write.record.ref → same write later.record :=
      found_writes_iff (fun write => ⟨rfl, rfl⟩) _ _
    rw [RefsApart, ← hfound]
    simp only [ToolOutputStore.getToolOutputByRef_eq_some_iff, ToolOutputStore.outputs_after,
      same]
  constructor
  · exact fun h => hwithin.mp h.within
  · intro h
    refine ⟨hwithin.mpr h, fun performed hperformed write hwrite hissued => ?_⟩
    obtain ⟨rest, rfl⟩ := hperformed
    have hdone : allWrites env performed <+: allWrites env (performed ++ rest) := by
      rw [allWrites, allWrites, List.flatMap_append]
      exact List.prefix_append _ _
    have hresolved := hwithin.mpr h _ hdone write hwrite hissued
    rwa [ToolOutputStore.getToolOutputByRef_congr (outputs_performAll env performed store)]

end

/-! ### One output in two conversations -/

/-- Every content has a reference of its own. -/
def plainEnv : StubEnv String where
  printed value := value.toList
  dumped _ := 0
  stripEnvelope := id
  turnHash _ := []
  outputHash := id

/-- A chat that has read a file, followed by two further turns. -/
def fileChat : List (StubMessage String) :=
  [{ role := some "user", content := .text "Read the notes.".toList },
    { role := some "assistant"
      content := .blocks [.toolUse "toolu_1" "read_file"
        (some (.fields [("path".toList, .inl "notes.txt".toList)])) []] },
    { role := some "user"
      content := .blocks [.toolResult "toolu_1" (.text "Buy milk.".toList) []] },
    { role := some "assistant", content := .text "Done.".toList },
    { role := some "user", content := .text "Thanks.".toList },
    { role := some "assistant", content := .text "Sure.".toList },
    { role := some "user", content := .text "Read them again.".toList }]

def stubsIn (conversationId : ConversationId) : ToolOutputCall String :=
  .stub { protectedRecentTurns := 2, turnTagIndex := .empty, conversationId := conversationId } {}
    .anthropic fileChat

theorem shared_output_lost : ¬RefsResolve plainEnv {} [stubsIn "A", stubsIn "B"] := by
  intro h
  have hall := h.within (allWrites plainEnv [stubsIn "A", stubsIn "B"]) List.prefix_rfl
  exact absurd hall (by decide +kernel)

example : RefsApart plainEnv [stubsIn "A", stubsIn "A"] := by decide +kernel

end VirtualContext
