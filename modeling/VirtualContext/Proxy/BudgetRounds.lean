import Mathlib.Data.Nat.Digits.Defs
import VirtualContext.Proxy.BudgetScan

/-!
# Rounds of budget reductions

Each planned reduction should be made at the place that was scanned, once, and
change nothing else.  Blocks are taken out while indexes of others are pending,
which the order of the reductions allows for.  What it does not allow for is
that a reducer looks somewhere else than the scan did.
-/

namespace VirtualContext

open VirtualContext.Library

variable {ρ : Type}

/-! ## The body with its reductions made -/

section

variable (env : BudgetEnv ρ) (items : List ReducibleItem)

def reductionOf (place : Place) : Option ReducibleItem := items.find? (·.place = place)

def blockEdits (placeOf : Nat → Place) (n : Nat) :
    Option (StubBlock ρ → Option (StubBlock ρ)) :=
  (reductionOf items (placeOf n)).map fun item block => (reduceBlock env item block).1

def reducedBlocks (placeOf : Nat → Place) (blocks : List (StubBlock ρ)) :
    List (StubBlock ρ) :=
  editAll (blockEdits env items placeOf) 0 blocks

def StubContent.reduced (m : Nat) : StubContent ρ → StubContent ρ
  | .blocks list => .blocks (reducedBlocks env items (.block m) list)
  | content =>
      ((reductionOf items (.content m)).map fun item =>
        (reduceContent env item content).1).getD content

/-- A message with every planned place of it reduced, and nothing else changed. -/
def BudgetMessage.reduced (msg : BudgetMessage ρ) (m : Nat) : BudgetMessage ρ :=
  { msg with
    content := msg.content.reduced env items m
    output :=
      ((reductionOf items (.output m)).map fun item =>
        (reduceOutput env item msg.output).1).getD msg.output }

def BudgetBody.reducedSystem (body : BudgetBody ρ) : Option (List (StubBlock ρ)) :=
  body.system.map (reducedBlocks env items .system)

def reducedMessages (messages : List (BudgetMessage ρ)) : List (BudgetMessage ρ) :=
  messages.mapIdx fun m msg => msg.reduced env items m

def reducedInputText (text : Text) : Text :=
  ((reductionOf items (.content 0)).bind fun item => (reduceText env item text).1).getD text

/-- The body with every planned place of it reduced, and nothing else changed. -/
def BudgetBody.reduced (body : BudgetBody ρ) : BudgetBody ρ where
  system := body.reducedSystem env items
  input :=
    match body.input with
    | .inl messages => .inl (reducedMessages env items messages)
    | .inr text => .inr (reducedInputText env items text)

/-- The same, but for an input that is a text. -/
def BudgetBody.mutated (body : BudgetBody ρ) : BudgetBody ρ where
  system := body.reducedSystem env items
  input :=
    match body.input with
    | .inl messages => .inl (reducedMessages env items messages)
    | .inr text => .inr text

end

/-- The body after some of the reductions. -/
def bodyAfter (env : BudgetEnv ρ) (items : List ReducibleItem) (body : BudgetBody ρ) :
    BudgetBody ρ :=
  items.foldl (fun body item => (applyReduction env item body).1) body

/-- Every planned reduction goes to the scanned place and finds there what was
scanned, no place is planned twice, and the body is the one with exactly these
places reduced. -/
structure RoundReducesPlanned (env : BudgetEnv ρ) (fmt : ApiFormat) (deficit slots : Nat)
    (body : BudgetBody ρ) : Prop where
  target : ∀ done item rest,
    plannedReductions env fmt body deficit slots = done ++ item :: rest →
      (bodyAfter env done body).target item = some item.place ∧
        (bodyAfter env done body).valueAt item.place = body.valueAt item.place
  once : ((plannedReductions env fmt body deficit slots).map (·.place)).Nodup
  exact : reduceRound env fmt deficit slots body =
    body.reduced env (plannedReductions env fmt body deficit slots)

/-- The reducer looks where the scan did. -/
def TargetsScanned (body : BudgetBody ρ) (item : ReducibleItem) : Prop :=
  match item.place with
  | .system _ | .content _ | .block _ _ => True
  | .part _ _ => False
  | .output m => item.category ≠ .conversationText ∧
      ∀ msg ∈ body.messages[m]?, msg.hasEarlierOutput = false

/-- The reducer has a message of the body at hand, or nothing to do. -/
def StaysInBody (body : BudgetBody ρ) (item : ReducibleItem) : Prop :=
  ∀ text m, body.input = .inr text → item.place = .content m → text.length ≤ 500

/-! ## One more reduction -/

section

variable {env : BudgetEnv ρ} {done : List ReducibleItem} {item : ReducibleItem}

theorem reductionOf_eq_none {place : Place} :
    reductionOf done place = none ↔ ∀ d ∈ done, d.place ≠ place := by
  simp [reductionOf]

theorem reductionOf_append_self (h : ∀ d ∈ done, d.place ≠ item.place) :
    reductionOf (done ++ [item]) item.place = some item := by
  rw [reductionOf, List.find?_append, ← reductionOf, reductionOf_eq_none.mpr h]
  simp

theorem reductionOf_append_of_ne {place : Place} (h : item.place ≠ place) :
    reductionOf (done ++ [item]) place = reductionOf done place := by
  rw [reductionOf, List.find?_append, ← reductionOf]
  simp [h]

theorem blockEdits_append_of_ne {placeOf : Nat → Place} (h : ∀ n, item.place ≠ placeOf n) :
    blockEdits env (done ++ [item]) placeOf = blockEdits env done placeOf := by
  funext n
  rw [blockEdits, reductionOf_append_of_ne (h n), blockEdits]

/-- A reduction of a block joins those of the blocks above it. -/
theorem editAt_reducedBlocks {placeOf : Nat → Place} {n : Nat} (blocks : List (StubBlock ρ))
    (hplace : item.place = placeOf n) (hinj : Function.Injective placeOf)
    (h : ∀ i ≤ n, ∀ d ∈ done, d.place ≠ placeOf i) :
    editAt (fun block => (reduceBlock env item block).1) n
        (reducedBlocks env done placeOf blocks) =
      reducedBlocks env (done ++ [item]) placeOf blocks := by
  have hnone (i : Nat) (hi : i ≤ n) : blockEdits env done placeOf i = none := by
    rw [blockEdits, reductionOf_eq_none.mpr (h i hi), Option.map_none]
  rw [reducedBlocks, editAt_editAll _ fun i _ hi => hnone i (by omega), reducedBlocks]
  refine editAll_congr fun i _ => ?_
  rw [Nat.zero_add, addEdit]
  by_cases hi : i = n
  · subst hi
    rw [if_pos rfl, blockEdits, ← hplace, reductionOf_append_self]
    · rfl
    · rw [hplace]
      exact h i (Nat.le_refl i)
  · rw [if_neg hi, blockEdits, blockEdits, reductionOf_append_of_ne]
    rw [hplace]
    exact fun heq => hi (hinj heq).symm

theorem getElem?_reducedBlocks {placeOf : Nat → Place} {n : Nat} (blocks : List (StubBlock ρ))
    (h : ∀ i ≤ n, ∀ d ∈ done, d.place ≠ placeOf i) :
    (reducedBlocks env done placeOf blocks)[n]? = blocks[n]? := by
  refine getElem?_editAll fun i _ hi => ?_
  rw [blockEdits, reductionOf_eq_none.mpr (h i (by omega)), Option.map_none]

theorem system_injective : Function.Injective Place.system := fun _ _ h => Place.system.inj h

theorem block_injective (m : Nat) : Function.Injective (Place.block m) :=
  fun _ _ h => (Place.block.inj h).2

/-- A content stays that has no more places to reduce. -/
theorem content_reduced_append_of_ne {content : StubContent ρ} {m : Nat}
    (hcontent : item.place ≠ .content m) (hblock : ∀ n, item.place ≠ .block m n) :
    content.reduced env (done ++ [item]) m = content.reduced env done m := by
  cases content with
  | blocks list =>
      simp only [StubContent.reduced, reducedBlocks, blockEdits_append_of_ne hblock]
  | text words => simp only [StubContent.reduced, reductionOf_append_of_ne hcontent]
  | other value => simp only [StubContent.reduced, reductionOf_append_of_ne hcontent]

/-- No text is made a list. -/
theorem reduceContent_ne_blocks {content : StubContent ρ} (h : ∀ list, content ≠ .blocks list)
    (list : List (StubBlock ρ)) : (reduceContent env item content).1 ≠ .blocks list := by
  rw [reduceContent]
  cases (reduceText env item (content.orEmpty.getD [])).1 with
  | none => exact h list
  | some text => simp

theorem reduced_ne_blocks {content : StubContent ρ} {m : Nat}
    (h : ∀ list, content ≠ .blocks list) (list : List (StubBlock ρ)) :
    content.reduced env done m ≠ .blocks list := by
  have hreduced : content.reduced env done m = ((reductionOf done (.content m)).map
      fun item => (reduceContent env item content).1).getD content := by
    cases content with
    | blocks list => exact absurd rfl (h list)
    | text words => rfl
    | other value => rfl
  rw [hreduced]
  cases reductionOf done (.content m) with
  | none => exact h list
  | some d => exact reduceContent_ne_blocks h list

namespace BudgetMessage

variable {msg : BudgetMessage ρ} {m : Nat}

/-- A reduction elsewhere adds nothing to a message. -/
theorem reduced_append_of_ne (h : item.place.inSystem = true ∨ item.place.msgIndex ≠ m) :
    msg.reduced env (done ++ [item]) m = msg.reduced env done m := by
  have helse (place : Place) (hsystem : place.inSystem = false) (hmessage : place.msgIndex = m) :
      item.place ≠ place := by
    rintro rfl
    simp [hsystem, hmessage] at h
  rw [reduced, content_reduced_append_of_ne (helse _ rfl rfl) fun n => helse _ rfl rfl,
    reductionOf_append_of_ne (helse _ rfl rfl), reduced]

/-- A reduction at a place of the message is made after those before it. -/
theorem reduced_append (hkeeps : ∀ d ∈ done, d.place.Keeps item.place)
    (hmessage : item.place.msgIndex = m) (hvalue : (msg.valueAt item.place).isSome) :
    (msg.reduced env done m).reduceAt env item item.place =
      msg.reduced env (done ++ [item]) m := by
  have hfresh : ∀ d ∈ done, d.place ≠ item.place := fun d hd => (hkeeps d hd).ne
  have hself := reductionOf_append_self hfresh
  have hnone := reductionOf_eq_none.mpr hfresh
  cases hplace : item.place with
  | system n => simp [hplace, valueAt] at hvalue
  | part k n =>
      rw [reduceAt, reduced, reduced, content_reduced_append_of_ne (by simp [hplace])
        (by simp [hplace]), reductionOf_append_of_ne (by simp [hplace])]
  | content k =>
      obtain rfl : k = m := by rw [← hmessage, hplace]; rfl
      rw [hplace] at hself hnone
      rw [reduceAt, reduced, reduced, reductionOf_append_of_ne (by simp [hplace])]
      cases hcase : msg.content with
      | blocks list => simp [hplace, valueAt, plainContent?, hcase] at hvalue
      | text words => simp [StubContent.reduced, hself, hnone]
      | other value => simp [StubContent.reduced, hself, hnone]
  | output k =>
      obtain rfl : k = m := by rw [← hmessage, hplace]; rfl
      rw [hplace] at hself hnone
      rw [reduceAt, reduced, reduced, content_reduced_append_of_ne (by simp [hplace])
        (by simp [hplace]), hself, hnone]
      rfl
  | block k n =>
      obtain rfl : k = m := by rw [← hmessage, hplace]; rfl
      have hbelow : ∀ i ≤ n, ∀ d ∈ done, d.place ≠ .block k i :=
        fun i hi d hd => (hkeeps d hd).block k n hplace i hi
      rw [reduceAt, reduced, reduced, reductionOf_append_of_ne (by simp [hplace])]
      cases hcase : msg.content with
      | blocks list =>
          simp only [StubContent.reduced, StubContent.editBlock]
          rw [editAt_reducedBlocks list hplace (block_injective k) hbelow]
      | text words => simp [hplace, valueAt, StubMessage.blocks, hcase] at hvalue
      | other value => simp [hplace, valueAt, StubMessage.blocks, hcase] at hvalue

theorem blocks_eq_nil (h : ∀ list, msg.content ≠ .blocks list) : msg.blocks = [] := by
  rw [StubMessage.blocks]
  cases hcase : msg.content with
  | blocks list => exact absurd hcase (h list)
  | text words => rfl
  | other value => rfl

theorem blocks_reduced :
    (msg.reduced env done m).blocks = reducedBlocks env done (.block m) msg.blocks := by
  by_cases h : ∀ list, msg.content ≠ .blocks list
  · rw [blocks_eq_nil h, blocks_eq_nil (reduced_ne_blocks h)]
    rfl
  · obtain ⟨list, hlist⟩ := not_forall_not.mp h
    simp [StubMessage.blocks, reduced, hlist, StubContent.reduced]

/-- What stands at a place is met there by a reduction that comes later. -/
theorem valueAt_reduced {place : Place} (hkeeps : ∀ d ∈ done, d.place.Keeps place)
    (hmessage : place.msgIndex = m) :
    (msg.reduced env done m).valueAt place = msg.valueAt place := by
  have hnone := reductionOf_eq_none.mpr fun d hd => (hkeeps d hd).ne
  cases place with
  | system n => rfl
  | part k n => rfl
  | content k =>
      obtain rfl : k = m := hmessage
      rw [valueAt, valueAt, plainContent?, plainContent?, reduced]
      cases hcase : msg.content <;> simp [StubContent.reduced, hnone]
  | output k =>
      obtain rfl : k = m := hmessage
      rw [valueAt, valueAt, reduced, hnone]
      rfl
  | block k n =>
      obtain rfl : k = m := hmessage
      rw [valueAt, valueAt, blocks_reduced, getElem?_reducedBlocks]
      exact fun i hi d hd => (hkeeps d hd).block k n rfl i hi

/-- Whether the content is a text is kept where it is not reduced. -/
theorem hasTextContent_reduced (hfresh : ∀ d ∈ done, d.place ≠ .content m) :
    (msg.reduced env done m).hasTextContent = msg.hasTextContent := by
  have hnone := reductionOf_eq_none.mpr hfresh
  rw [hasTextContent, hasTextContent, reduced]
  cases hcase : msg.content <;> simp [StubContent.reduced, hnone]

end BudgetMessage

theorem isToolResult_setFields (block : StubBlock ρ) (fields : Fields ρ) :
    (block.setFields fields).isToolResult = block.isToolResult := by
  cases block <;> rfl

theorem isToolResult_reduceImage (block : StubBlock ρ) :
    (reduceImage env item block).1.isToolResult = block.isToolResult := by
  rw [reduceImage]
  split_ifs
  · rfl
  · split
    · exact isToolResult_setFields _ _
    · rfl

theorem isToolResult_getD (text : Option Text) (id : String) (content : OutputContent ρ)
    (rest : Fields ρ) :
    ((text.map fun text => StubBlock.toolResult id (.text text) rest).getD
      (.toolResult id content rest)).isToolResult = true := by
  cases text <;> rfl

/-- Tool results stay what they are, and nothing else becomes one. -/
theorem isToolResult_reduceBlock {block : StubBlock ρ}
    (h : item.category = .thinkingSig → block.isToolResult = false) :
    (reduceBlock env item block).1.any (·.isToolResult) = block.isToolResult := by
  unfold reduceBlock
  cases hcategory : item.category with
  | thinkingSig => simp [reduceThinkingSig, h hcategory]
  | image => simp [isToolResult_reduceImage]
  | toolResult =>
      cases block with
      | toolResult id content rest => exact isToolResult_getD _ _ _ _
      | _ => rfl
  | toolResultLast2 =>
      cases block with
      | toolResult id content rest => exact isToolResult_getD _ _ _ _
      | _ => rfl
  | vcContext => cases block <;> rfl
  | conversationText => cases block <;> rfl

namespace BudgetMessage

variable {msg : BudgetMessage ρ} {m : Nat}

theorem any_isToolResult_reduced (env : BudgetEnv ρ)
    (h : ∀ n, ∀ block ∈ msg.blocks[n]?, ∀ d ∈ done, d.place = .block m n →
      d.category = .thinkingSig → block.isToolResult = false) :
    (msg.reduced env done m).blocks.any (·.isToolResult) =
      msg.blocks.any (·.isToolResult) := by
  rw [blocks_reduced]
  refine any_editAll fun n block f hblock hedit => ?_
  obtain ⟨d, hfound, rfl⟩ := Option.map_eq_some_iff.mp hedit
  rw [Nat.zero_add] at hfound
  have hplace : d.place = .block m n := by simpa using List.find?_some hfound
  exact isToolResult_reduceBlock (h n block hblock d (List.mem_of_find?_eq_some hfound) hplace)

end BudgetMessage

namespace BudgetBody

variable {body : BudgetBody ρ}

/-! ## The body after some of the reductions -/

theorem messages_mutated (env : BudgetEnv ρ) (done : List ReducibleItem)
    (body : BudgetBody ρ) :
    (body.mutated env done).messages = body.messages ∨
      (body.mutated env done).messages = reducedMessages env done body.messages := by
  rw [messages, messages, mutated]
  cases hinput : body.input with
  | inl messages => exact .inr rfl
  | inr text => exact .inl rfl

/-- A message is as it was, or has the reductions made so far. -/
theorem getElem?_messages_mutated (env : BudgetEnv ρ) (done : List ReducibleItem) {m : Nat}
    {msg : BudgetMessage ρ} (hmsg : body.messages[m]? = some msg) :
    (body.mutated env done).messages[m]? = some msg ∨
      (body.mutated env done).messages[m]? = some (msg.reduced env done m) := by
  rcases messages_mutated env done body with h | h
  · exact .inl (by rw [h, hmsg])
  · exact .inr (by rw [h, reducedMessages, List.getElem?_mapIdx, hmsg]; rfl)

theorem valueAt_mutated (env : BudgetEnv ρ) {place : Place} (hkeeps : ∀ d ∈ done, d.place.Keeps place) :
    (body.mutated env done).valueAt place = body.valueAt place := by
  have hmessage (hsystem : place.inSystem = false) :
      ((body.mutated env done).messages[place.msgIndex]?).bind (·.valueAt place) =
        (body.messages[place.msgIndex]?).bind (·.valueAt place) := by
    rcases messages_mutated env done body with h | h
    · rw [h]
    · rw [h, reducedMessages, List.getElem?_mapIdx]
      cases body.messages[place.msgIndex]? with
      | none => rfl
      | some msg => exact BudgetMessage.valueAt_reduced hkeeps rfl
  cases place with
  | system n =>
      rw [valueAt, valueAt, mutated, reducedSystem]
      cases body.system with
      | none => rfl
      | some blocks =>
          rw [Option.map_some, Option.getD_some, Option.getD_some, getElem?_reducedBlocks]
          exact fun i hi d hd => (hkeeps d hd).system n rfl i hi
  | content m => exact hmessage rfl
  | output m => exact hmessage rfl
  | block m n => exact hmessage rfl
  | part m n => exact hmessage rfl

/-- What a reduction does to the list of messages it does to the message it is for. -/
theorem modify_reducedMessages {messages : List (BudgetMessage ρ)}
    (hkeeps : ∀ d ∈ done, d.place.Keeps item.place)
    (hvalue : ∀ msg ∈ messages[item.place.msgIndex]?, (msg.valueAt item.place).isSome) :
    (reducedMessages env done messages).modify item.place.msgIndex
        (fun msg => msg.reduceAt env item item.place) =
      reducedMessages env (done ++ [item]) messages := by
  refine List.ext_getElem? fun m => ?_
  rw [List.getElem?_modify, reducedMessages, reducedMessages, List.getElem?_mapIdx,
    List.getElem?_mapIdx]
  cases hmsg : messages[m]? with
  | none => rfl
  | some msg =>
      by_cases hm : item.place.msgIndex = m
      · subst hm
        simp only [Option.map_some, Option.map_eq_map, if_pos]
        rw [BudgetMessage.reduced_append hkeeps rfl (hvalue msg hmsg)]
      · simp only [Option.map_some, Option.map_eq_map, if_neg hm]
        rw [BudgetMessage.reduced_append_of_ne (.inr hm)]

theorem reducedMessages_append_system {messages : List (BudgetMessage ρ)}
    (hsystem : item.place.inSystem = true) :
    reducedMessages env (done ++ [item]) messages = reducedMessages env done messages := by
  refine List.ext_getElem? fun m => ?_
  rw [reducedMessages, reducedMessages, List.getElem?_mapIdx, List.getElem?_mapIdx]
  cases messages[m]? with
  | none => rfl
  | some msg =>
      rw [Option.map_some, Option.map_some,
        BudgetMessage.reduced_append_of_ne (.inl hsystem)]

theorem reducedSystem_append_message (hsystem : item.place.inSystem = false) :
    body.reducedSystem env (done ++ [item]) = body.reducedSystem env done := by
  have hne (n : Nat) : item.place ≠ .system n := by
    rintro heq
    simp [heq, Place.inSystem] at hsystem
  rw [reducedSystem, reducedSystem]
  congr 1
  funext blocks
  rw [reducedBlocks, blockEdits_append_of_ne hne, reducedBlocks]

theorem valueAt_message {place : Place} (hsystem : place.inSystem = false) :
    body.valueAt place = (body.messages[place.msgIndex]?).bind (·.valueAt place) := by
  cases place with
  | system n => cases hsystem
  | _ => rfl

theorem reduceAt_message {place : Place} (hsystem : place.inSystem = false) :
    body.reduceAt env item place =
      body.mutateMessages fun messages =>
        messages.modify place.msgIndex fun msg => msg.reduceAt env item place := by
  cases place with
  | system n => cases hsystem
  | _ => rfl

/-- A reduction is made after those before it. -/
theorem reduceAt_mutated (hkeeps : ∀ d ∈ done, d.place.Keeps item.place)
    (hvalue : (body.valueAt item.place).isSome) :
    (body.mutated env done).reduceAt env item item.place =
      body.mutated env (done ++ [item]) := by
  cases hsystem : item.place.inSystem with
  | true =>
      cases hplace : item.place with
      | system n =>
          have hblocks : (body.reducedSystem env done).map
              (editAt (fun block => (reduceBlock env item block).1) n) =
                body.reducedSystem env (done ++ [item]) := by
            rw [reducedSystem, reducedSystem, Option.map_map]
            congr 1
            funext blocks
            exact editAt_reducedBlocks blocks hplace system_injective
              fun i hi d hd => (hkeeps d hd).system n hplace i hi
          rw [reduceAt, mutated, mutated, hblocks]
          cases body.input with
          | inl messages => simp only [reducedMessages_append_system hsystem]
          | inr text => rfl
      | _ => simp [hplace, Place.inSystem] at hsystem
  | false =>
      rw [reduceAt_message hsystem, mutateMessages, mutated, mutated,
        reducedSystem_append_message hsystem]
      rw [valueAt_message hsystem, messages] at hvalue
      cases hinput : body.input with
      | inl messages =>
          simp only [hinput] at hvalue ⊢
          rw [modify_reducedMessages hkeeps]
          intro msg hmsg
          rwa [Option.mem_def.mp hmsg, Option.bind_some] at hvalue
      | inr text => rfl

end BudgetBody

/-! ## Where the reducers look -/

theorem find?_accepts_none {place : Place} (h : place.blockIndex = none)
    (outputs : List ToolOutputInfo) : outputs.find? place.accepts = outputs.head? := by
  cases outputs with
  | nil => rfl
  | cons output outputs =>
      rw [List.find?_cons_of_pos (by rw [Place.accepts, h]), List.head?_cons]

theorem find?_accepts_block (m n : Nat) (outputs : List ToolOutputInfo) :
    outputs.find? (Place.block m n).accepts = outputs.find? (·.carrier = .anthropic n) := rfl

namespace BudgetBody

variable {body : BudgetBody ρ}

theorem holding_eq_some {place : Place} (h : (body.valueAt place).isSome) :
    body.holding place = some place := if_pos h

theorem holding_ne {place other : Place} (h : place ≠ other) :
    body.holding place ≠ some other := by
  rw [holding]
  split_ifs <;> simp [h]

theorem target_tool (h : item.category.IsTool) : body.target item =
    ((body.messages[item.place.msgIndex]?).bind fun msg =>
      (msg.toolOutputInfos item.place.msgIndex).find? item.place.accepts).map (·.place) := by
  rw [← findToolOutputInfo_eq, target]
  rcases h with h | h <;> rw [h]

/-- A message keeps what decides where its reducers look. -/
theorem exists_mutated_message (env : BudgetEnv ρ) {m : Nat} {msg : BudgetMessage ρ}
    (hdone : ∀ d ∈ done, Scanned body d) (hmsg : body.messages[m]? = some msg) :
    ∃ msg', (body.mutated env done).messages[m]? = some msg' ∧ msg'.role = msg.role ∧
      msg'.type = msg.type ∧ msg'.hasEarlierOutput = msg.hasEarlierOutput ∧
      ((∀ d ∈ done, d.place ≠ .content m) → msg'.hasTextContent = msg.hasTextContent) := by
  rcases getElem?_messages_mutated env done hmsg with h | h
  · exact ⟨msg, h, rfl, rfl, rfl, fun _ => rfl⟩
  · refine ⟨_, h, rfl, rfl, ?_, BudgetMessage.hasTextContent_reduced⟩
    have hany := BudgetMessage.any_isToolResult_reduced env fun n block hblock d hd hplace hcategory =>
        (hdone d hd).isToolResult_eq_false hcategory hplace hmsg hblock
    rw [BudgetMessage.hasEarlierOutput, hany]
    rfl

/-- The reducer of a scanned item goes where it was scanned, but for those items
that it looks for elsewhere. -/
theorem target_mutated_iff (env : BudgetEnv ρ) (hdone : ∀ d ∈ done, Scanned body d)
    (hkeeps : ∀ d ∈ done, d.place.Keeps item.place) (hscanned : Scanned body item) :
    (body.mutated env done).target item = some item.place ↔ TargetsScanned body item := by
  have hvalue : (body.mutated env done).valueAt item.place = body.valueAt item.place :=
    valueAt_mutated env hkeeps
  have hheld (h : (body.valueAt item.place).isSome) :
      (body.mutated env done).holding item.place = some item.place :=
    holding_eq_some (by rwa [hvalue])
  cases hscanned with
  | context hblock => exact iff_of_true (hheld hblock) trivial
  | image hblock => exact iff_of_true (hheld hblock) trivial
  | textBlock hblock => exact iff_of_true (hheld hblock) trivial
  | thinking hmsg hblock hkind =>
      exact iff_of_true (hheld (valueAt_block_isSome hmsg hblock)) trivial
  | part => exact iff_of_false (holding_ne (by simp)) not_false
  | text hmsg htext =>
      obtain ⟨msg', hmsg', -, -, -, hkept⟩ := exists_mutated_message env hdone hmsg
      refine iff_of_true ?_ trivial
      have htext' : msg'.hasTextContent = true :=
        (hkept fun d hd => (hkeeps d hd).ne).trans htext
      simp [target, Place.blockIndex, Place.msgIndex, hmsg', htext']
  | textOutput hmsg =>
      refine iff_of_false ?_ (fun h => h.1 rfl)
      obtain ⟨msg', hmsg', -⟩ := exists_mutated_message env hdone hmsg
      simp [target, Place.blockIndex, Place.msgIndex, hmsg']
  | @toolBlock m n size category msg id content rest hcategory hmsg hrole hblock =>
      refine iff_of_true ?_ trivial
      obtain ⟨msg', hmsg', hrole', -⟩ := exists_mutated_message env hdone hmsg
      have hblock' : msg'.blocks[n]? = some (.toolResult id content rest) := by
        simpa [valueAt, Place.msgIndex, hmsg', hmsg, BudgetMessage.valueAt, hblock] using hvalue
      rw [target_tool hcategory]
      simp only [Place.msgIndex, hmsg', Option.bind_some]
      exact BudgetMessage.find?_toolOutputInfos_block (hrole'.trans hrole) hblock'
  | @toolContent m size category msg hcategory hmsg hrole hplain =>
      refine iff_of_true ?_ trivial
      obtain ⟨msg', hmsg', hrole', -⟩ := exists_mutated_message env hdone hmsg
      have hfirst : (msg'.toolOutputInfos m).find? (Place.content m).accepts =
          (msg'.toolOutputInfos m).head? := find?_accepts_none rfl _
      rw [target_tool hcategory]
      simp only [Place.msgIndex, hmsg', Option.bind_some, hfirst]
      exact BudgetMessage.head?_toolOutputInfos_tool (hrole'.trans hrole)
  | @toolOutput m size category msg hcategory hmsg htype =>
      obtain ⟨msg', hmsg', -, htype', hearlier, -⟩ :=
        exists_mutated_message env hdone hmsg
      have hfirst : (msg'.toolOutputInfos m).find? (Place.output m).accepts =
          (msg'.toolOutputInfos m).head? := find?_accepts_none rfl _
      rw [target_tool hcategory]
      simp only [Place.msgIndex, hmsg', Option.bind_some, hfirst]
      rw [BudgetMessage.head?_toolOutputInfos_output_iff (htype'.trans htype), hearlier]
      have htool : category ≠ .conversationText := by
        rcases hcategory with rfl | rfl <;> simp
      simp [TargetsScanned, hmsg, htool]

end BudgetBody

/-! ## Rounds -/

variable {body : BudgetBody ρ}

theorem Scanned.valueAt_isSome (h : Scanned body item) (htargets : TargetsScanned body item) :
    (body.valueAt item.place).isSome := by
  cases h with
  | context hblock => exact hblock
  | image hblock => exact hblock
  | textBlock hblock => exact hblock
  | part => exact htargets.elim
  | toolBlock _ hmsg _ hblock => exact valueAt_block_isSome hmsg hblock
  | thinking hmsg hblock _ => exact valueAt_block_isSome hmsg hblock
  | toolContent _ hmsg _ hplain =>
      simpa [BudgetBody.valueAt, Place.msgIndex, hmsg, BudgetMessage.valueAt] using hplain
  | toolOutput _ hmsg _ =>
      simp [BudgetBody.valueAt, Place.msgIndex, hmsg, BudgetMessage.valueAt]
  | textOutput hmsg =>
      simp [BudgetBody.valueAt, Place.msgIndex, hmsg, BudgetMessage.valueAt]
  | @text m size msg hmsg htext =>
      have hplain : msg.plainContent?.isSome := by
        rw [BudgetMessage.hasTextContent] at htext
        rw [BudgetMessage.plainContent?]
        cases hcontent : msg.content <;> simp [hcontent] at htext ⊢
      simpa [BudgetBody.valueAt, Place.msgIndex, hmsg, BudgetMessage.valueAt] using hplain

theorem bodyAfter_append_singleton {place : Place}
    (htarget : (bodyAfter env done body).target item = some place) :
    bodyAfter env (done ++ [item]) body =
      (bodyAfter env done body).reduceAt env item place := by
  have hstep : bodyAfter env (done ++ [item]) body =
      (applyReduction env item (bodyAfter env done body)).1 := by simp [bodyAfter]
  rw [hstep, applyReduction, htarget]

theorem mutated_nil : body.mutated env [] = body := by
  have hblocks (placeOf : Nat → Place) (blocks : List (StubBlock ρ)) :
      reducedBlocks env [] placeOf blocks = blocks := editAll_eq_self fun n => rfl
  have hcontent (content : StubContent ρ) (m : Nat) : content.reduced env [] m = content := by
    cases content with
    | blocks list => simp [StubContent.reduced, hblocks]
    | text words => rfl
    | other value => rfl
  have hmessages (messages : List (BudgetMessage ρ)) :
      reducedMessages env [] messages = messages := by
    refine List.ext_getElem? fun m => ?_
    rw [reducedMessages, List.getElem?_mapIdx]
    cases messages[m]? with
    | none => rfl
    | some msg =>
        rw [Option.map_some, BudgetMessage.reduced, hcontent]
        rfl
  have hsystem : body.reducedSystem env [] = body.system := by
    rw [BudgetBody.reducedSystem]
    cases body.system with
    | none => rfl
    | some blocks => rw [Option.map_some, hblocks]
  rw [BudgetBody.mutated, hsystem]
  obtain ⟨system, input⟩ := body
  cases input with
  | inl messages => simp only [hmessages]
  | inr text => rfl

/-- Reductions that go where was scanned make the body that is due. -/
theorem bodyAfter_eq_mutated (hscanned : ∀ d ∈ done, Scanned body d)
    (hkeeps : done.Pairwise fun a b => a.place.Keeps b.place)
    (htargets : ∀ d ∈ done, TargetsScanned body d) :
    bodyAfter env done body = body.mutated env done := by
  induction done using List.reverseRecOn with
  | nil => exact mutated_nil.symm
  | append_singleton done item ih =>
      obtain ⟨hbefore, -, hitem⟩ := List.pairwise_append.mp hkeeps
      have hkept : ∀ d ∈ done, d.place.Keeps item.place :=
        fun d hd => hitem d hd item (List.mem_singleton_self item)
      have hdone : ∀ d ∈ done, Scanned body d :=
        fun d hd => hscanned d (List.mem_append_left _ hd)
      have hlast : item ∈ done ++ [item] := by simp
      have hafter := ih hdone hbefore fun d hd => htargets d (List.mem_append_left _ hd)
      have htarget := (BudgetBody.target_mutated_iff env hdone hkept
        (hscanned item hlast)).mpr (htargets item hlast)
      rw [bodyAfter_append_singleton (by rw [hafter, htarget]), hafter,
        BudgetBody.reduceAt_mutated hkept
          ((hscanned item hlast).valueAt_isSome (htargets item hlast))]

/-- The round makes all planned reductions, since no more are planned than may be. -/
theorem applyReductions_eq {slots : Nat} {items : List ReducibleItem}
    (h : items.length ≤ slots) : applyReductions env slots items body =
      bodyAfter env items body := by
  induction items generalizing slots body with
  | nil => rfl
  | cons item items ih =>
      rw [List.length_cons] at h
      simp only [applyReductions, bodyAfter, List.foldl_cons]
      split_ifs with hfreed hslots
      · exact ih (by omega)
      · have hnil : items = [] := List.eq_nil_of_length_eq_zero (by omega)
        subst hnil
        rfl
      · exact ih (by omega)

/-! ## An input that is a text -/

/-- The length of a number in digits stays behind the number. -/
theorem toDigits_length_lt {n : Nat} (h : 100 < n) :
    (Nat.toDigits 10 n).length + 30 < n := by
  have hpow : n - 32 < 10 ^ (n - 32) := Nat.lt_pow_self (by omega)
  have hlt : n < 10 ^ (n - 31) := by
    rw [show n - 31 = n - 32 + 1 by omega, Nat.pow_succ]
    omega
  have hlength := Nat.toDigits_length 10 n (n - 31) (by omega) hlt
  omega

theorem headAndTail_ne {text : Text} (h : 500 < text.length) : headAndTail text ≠ text := by
  intro heq
  have hlength := congrArg List.length heq
  have hdigits := toDigits_length_lt (show 100 < text.length - 400 by omega)
  simp only [headAndTail, List.length_append, List.length_take, List.length_drop] at hlength
  have hopening : "\n\n[... ".toList.length = 7 := rfl
  have hclosing : " chars truncated ...]\n\n".toList.length = 23 := rfl
  omega

theorem reductionOf_of_mem {items : List ReducibleItem} (hnodup : (items.map (·.place)).Nodup)
    (h : item ∈ items) : reductionOf items item.place = some item := by
  cases hfound : reductionOf items item.place with
  | none => exact absurd rfl (reductionOf_eq_none.mp hfound item h)
  | some d =>
      have hplace : d.place = item.place := by simpa using List.find?_some hfound
      exact congrArg some
        (List.inj_on_of_nodup_map hnodup (List.mem_of_find?_eq_some hfound) h hplace)

/-- The one message that is made of a text is scanned as a text. -/
theorem Scanned.category_of_text {text : Text} {m : Nat} (h : Scanned body item)
    (hinput : body.input = .inr text) (hplace : item.place = .content m) :
    m = 0 ∧ item.category = .conversationText := by
  have hmessages : body.messages =
      [{ role := some "user", content := .text text }] := by rw [BudgetBody.messages, hinput]
  have hindex {k : Nat} {msg : BudgetMessage ρ} (hmsg : body.messages[k]? = some msg) :
      k = 0 ∧ msg.role = some "user" := by
    rw [hmessages] at hmsg
    obtain ⟨hk, rfl⟩ := List.getElem?_eq_some_iff.mp hmsg
    obtain rfl : k = 0 := by simpa using hk
    exact ⟨rfl, rfl⟩
  cases h with
  | text hmsg htext =>
      obtain rfl := Place.content.inj hplace
      exact ⟨(hindex hmsg).1, rfl⟩
  | toolContent _ hmsg hrole _ =>
      rw [(hindex hmsg).2] at hrole
      simp at hrole
  | _ => cases hplace

/-- A text is reduced as the plan has it if and only if nothing of it is. -/
theorem mutated_eq_reduced_iff {items : List ReducibleItem}
    (hscanned : ∀ d ∈ items, Scanned body d) (hnodup : (items.map (·.place)).Nodup) :
    body.mutated env items = body.reduced env items ↔ ∀ d ∈ items, StaysInBody body d := by
  rw [BudgetBody.mutated, BudgetBody.reduced]
  cases hinput : body.input with
  | inl messages =>
      refine iff_of_true rfl fun d _ text m htext => ?_
      rw [hinput] at htext
      cases htext
  | inr text =>
      simp only [BudgetBody.mk.injEq, true_and, Sum.inr.injEq, reducedInputText]
      constructor
      · intro heq d hd other m hother hplace
        rw [hinput] at hother
        obtain rfl := Sum.inr.inj hother
        obtain ⟨rfl, hcategory⟩ := (hscanned d hd).category_of_text hinput hplace
        by_contra hlong
        have hfound := reductionOf_of_mem hnodup hd
        rw [hplace] at hfound
        rw [hfound, Option.bind_some, reduceText, hcategory] at heq
        simp only [reduceConversationText, truncateText, if_neg hlong, Option.getD_some] at heq
        exact headAndTail_ne (by omega) heq.symm
      · intro hstays
        cases hfound : reductionOf items (.content 0) with
        | none => rfl
        | some d =>
            have hd := List.mem_of_find?_eq_some hfound
            have hplace : d.place = .content 0 := by simpa using List.find?_some hfound
            have hshort := hstays d hd text 0 hinput hplace
            obtain ⟨-, hcategory⟩ := (hscanned d hd).category_of_text hinput hplace
            rw [Option.bind_some, reduceText, hcategory]
            simp [reduceConversationText, truncateText, hshort]

/-! ## The planned reductions of a round -/

variable {fmt : ApiFormat} {deficit slots : Nat}

theorem targetsScanned_of_round (h : RoundReducesPlanned env fmt deficit slots body)
    {rest : List ReducibleItem}
    (hsplit : plannedReductions env fmt body deficit slots = done ++ rest) :
    ∀ d ∈ done, TargetsScanned body d := by
  induction done using List.reverseRecOn generalizing rest with
  | nil => simp
  | append_singleton done item ih =>
      rw [List.append_assoc, List.singleton_append] at hsplit
      have hscanned : ∀ d ∈ done ++ item :: rest, Scanned body d :=
        fun d hd => scanned_of_planned (hsplit ▸ hd)
      obtain ⟨hbefore, -, hitem⟩ := List.pairwise_append.mp (hsplit ▸ pairwise_planned)
      have hdone := ih hsplit
      have hscannedDone : ∀ d ∈ done, Scanned body d :=
        fun d hd => hscanned d (List.mem_append_left _ hd)
      have htarget := (h.target done item rest hsplit).1
      rw [bodyAfter_eq_mutated hscannedDone hbefore hdone,
        BudgetBody.target_mutated_iff env hscannedDone
          (fun d hd => hitem d hd item List.mem_cons_self) (hscanned item (by simp))] at htarget
      intro d hd
      rcases List.mem_append.mp hd with hd | hd
      · exact hdone d hd
      · obtain rfl := List.mem_singleton.mp hd
        exact htarget

end

/-! ## A text that is not cut -/

/-- Nothing is read of the fields of a dict. -/
def plainBudgetEnv : BudgetEnv Unit where
  media _ := {}
  signature _ := []
  thinking _ := []
  printed _ := []
  toolRef _ := "tool_0".toList
  shrinkImage _ := none
  setSource fields _ _ := fields

/-- A body of the Responses API that asks with one long text. -/
def longInput : BudgetBody Unit where
  input := .inr (List.replicate 600 'a')

end VirtualContext
