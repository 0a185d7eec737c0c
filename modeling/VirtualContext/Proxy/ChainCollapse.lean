import Mathlib.Data.List.Flatten
import VirtualContext.Proxy.TurnGroups

/-!
# Collapsing turns

A history turn with tool activity is replaced by a pair of stubs, or dropped, and
the results of its calls are taken out of the turns that stay.  Items are
removed and inserted by their indices.
-/

namespace VirtualContext

open VirtualContext.Library

variable {ρ : Type}

/-! ## Stubs -/

/-- What is decided for a turn; a stub has the number and the text of the turn. -/
inductive TurnFate where
  | keep
  | stub (label : Nat) (text : Text)
  | drop
  deriving DecidableEq, Repr

def compactedTurn (label : Nat) : Text := s!"[Compacted turn {label}]".toList

/-- `mark_as_vc_stub`, with the value `True`. -/
def markAsVcStub (yes : ρ) (msg : StubMessage ρ) : TurnItem ρ :=
  .message { msg with rest := msg.rest ++ [("_vc_stub", yes)] }

def stubUser (yes : ρ) (fmt : ApiFormat) (label : Nat) : TurnItem ρ :=
  markAsVcStub yes <|
    match fmt with
    | .gemini => { role := some "user", parts := [{ text := some (compactedTurn label) }] }
    | _ => { role := some "user", content := .text (compactedTurn label) }

def stubAssistant (yes : ρ) (fmt : ApiFormat) (text : Text) : TurnItem ρ :=
  markAsVcStub yes <|
    match fmt with
    | .gemini => { role := some "model", parts := [{ text := some text }] }
    | .openaiResponses =>
        { role := some "assistant", content := .blocks [.text "output_text" text []] }
    | _ => { role := some "assistant", content := .blocks [.text "text" text []] }

/-! ## Calls and results -/

def resultsRemoved : Text := "[tool results removed — parent tool call was compacted]".toList

def OutputContent.isRemoved : OutputContent ρ → Bool
  | .text words => words = resultsRemoved
  | _ => false

namespace StubBlock

def toolUseId? : StubBlock ρ → Option String
  | .toolUse id .. => some id
  | _ => none

def toolResultId? : StubBlock ρ → Option String
  | .toolResult id .. => some id
  | _ => none

/-- `block.get("tool_use_id") in collapsed_tool_use_ids` -/
def answers (ids : List String) (block : StubBlock ρ) : Bool :=
  block.toolResultId?.any (· ∈ ids)

end StubBlock

/-- The blocks but the results of calls, with a notice if nothing else is there. -/
def stripBlocks (ids : List String) (blocks : List (StubBlock ρ)) : List (StubBlock ρ) :=
  let cleaned := blocks.filter (!·.answers ids)
  if cleaned.length ≠ blocks.length then
    if cleaned.isEmpty then [.text "text" resultsRemoved []] else cleaned
  else blocks

namespace TurnMessage

variable (msg : TurnMessage ρ)

/-- The identifiers of the calls in a message. -/
def toolUseIds : List String :=
  (msg.blocks.filterMap StubBlock.toolUseId? ++
    (if msg.type = some "function_call" then [msg.callId] else []) ++
    msg.toolCalls.map (·.id)).filter (· ≠ "")

/-- Takes the results of calls out of a message. -/
def stripResults (ids : List String) : TurnMessage ρ :=
  { msg with
    content :=
      match msg.content with
      | .blocks blocks => .blocks (stripBlocks ids blocks)
      | content => content
    output :=
      if msg.type = some "function_call_output" ∧ msg.callId ∈ ids then
        .text resultsRemoved
      else msg.output }

/-- The calls whose results a message holds, unless they were replaced. -/
def references : List String :=
  msg.blocks.filterMap StubBlock.toolResultId? ++
    (if msg.type = some "function_call_output" ∧ !msg.output.isRemoved then [msg.callId]
      else []) ++
    (if msg.role = some "tool" then [msg.toolCallId] else [])

end TurnMessage

namespace TurnItem

def toolUseIds : TurnItem ρ → List String
  | message msg => msg.toolUseIds
  | other _ => []

def stripResults (ids : List String) : TurnItem ρ → TurnItem ρ
  | message msg => message (msg.stripResults ids)
  | other value => other value

def references : TurnItem ρ → List String
  | message msg => msg.references
  | other _ => []

def hasNullToolCalls : TurnItem ρ → Bool
  | message msg => msg.hasNullToolCalls
  | other _ => false

/-- The call that a message of the role `tool` answers. -/
def toolMessageId? : TurnItem ρ → Option String
  | message msg => if msg.role = some "tool" then some msg.toolCallId else none
  | other _ => none

end TurnItem

/-! ## The collapse -/

section

variable (fmt : ApiFormat) (protectedRecentTurns : Nat) (fate : Nat → TurnFate)

/-- The turns that are collapsed, and what is decided for them. -/
def collapsedTurns (turns : List (MessageTurn ρ)) : List (MessageTurn ρ × TurnFate) :=
  ((unprotectedTurns protectedRecentTurns turns).zipIdx.map fun entry =>
    (entry.1, if entry.1.hasToolActivity fmt then fate entry.2 else .keep)).filter
      (·.2 ≠ .keep)

end

section

variable (yes : ρ) (fmt : ApiFormat) (collapsed : List (MessageTurn ρ × TurnFate))
  (items : List (TurnItem ρ))

/-- `sorted(collapsed_indices)` -/
def collapsedIndices : List Nat :=
  (List.range items.length).filter (· ∈ collapsed.flatMap (·.1.indices))

def collapsedToolUseIds : List String :=
  collapsed.flatMap fun entry => entry.1.flatMap (·.1.toolUseIds)

/-- The pairs of stubs, with the first indices of their turns. -/
def stubPairs : List (Nat × List (TurnItem ρ)) :=
  collapsed.filterMap fun entry =>
    match entry.2, entry.1.indices with
    | .stub label text, first :: _ =>
        some (first, [stubUser yes fmt label, stubAssistant yes fmt text])
    | _, _ => none

/-- Inserts pair after pair, each after what was removed and inserted before it. -/
def insertStubs (collapsedSorted : List Nat) :
    List (Nat × List (TurnItem ρ)) → Nat → List (TurnItem ρ) → List (TurnItem ρ)
  | [], _, items => items
  | (position, stubs) :: rest, offset, items =>
      insertStubs collapsedSorted rest (offset + 2)
        (insertItems items (position - bisectLeft collapsedSorted position + offset) stubs)

def stripResultsOutside : List (TurnItem ρ) :=
  let ids := collapsedToolUseIds collapsed
  if ids.isEmpty then items
  else
    items.zipIdx.map fun entry =>
      if entry.2 ∈ collapsedIndices collapsed items then entry.1
      else entry.1.stripResults ids

/-- The changes that are made to the body. -/
def applyCollapse : List (TurnItem ρ) :=
  let collapsedSorted := collapsedIndices collapsed items
  insertStubs collapsedSorted (orderBy (·.1) (stubPairs yes fmt collapsed)) 0
    (removeItems (stripResultsOutside collapsed items) collapsedSorted)

end

/-- `collapse_turn_chains`, where it is decided what becomes of each turn. -/
def collapseTurnChains (yes : ρ) (fmt : ApiFormat) (protectedRecentTurns : Nat)
    (fate : Nat → TurnFate) (items : List (TurnItem ρ)) : Option (List (TurnItem ρ)) :=
  (messageTurns fmt items).bind fun turns =>
    let collapsed := collapsedTurns fmt protectedRecentTurns fate turns
    if collapsed.any (·.1.any (·.1.hasNullToolCalls)) then none
    else if collapsed = [] then some items
    else some (applyCollapse yes fmt collapsed items)

/-! ## Results that are taken out -/

section

variable {ids : List String}

theorem stripBlocks_eq_self {blocks : List (StubBlock ρ)}
    (h : ∀ block ∈ blocks, block.answers ids = false) : stripBlocks ids blocks = blocks := by
  have hall : blocks.filter (!·.answers ids) = blocks := by
    rw [List.filter_eq_self]
    intro block hblock
    rw [h block hblock]
    rfl
  rw [stripBlocks, hall, if_neg (not_not.mpr rfl)]

/-- No result of a call is left in the blocks. -/
theorem not_answers_of_mem_stripBlocks {blocks : List (StubBlock ρ)} {block : StubBlock ρ}
    (h : block ∈ stripBlocks ids blocks) : block.answers ids = false := by
  rw [stripBlocks] at h
  split_ifs at h with hlength hnone
  · obtain rfl := List.mem_singleton.mp h
    rfl
  · simpa using (List.mem_filter.mp h).2
  · simpa using List.length_filter_eq_length_iff.mp (not_not.mp hlength) block h

/-- A message that refers to none of the calls stays as it is. -/
theorem stripResults_eq_self {msg : TurnMessage ρ}
    (hblocks : ∀ block ∈ msg.blocks, block.answers ids = false)
    (houtput : msg.type = some "function_call_output" → msg.callId ∉ ids) :
    msg.stripResults ids = msg := by
  have hcontent : (match msg.content with
      | .blocks blocks => .blocks (stripBlocks ids blocks)
      | content => content) = msg.content := by
    rw [StubMessage.blocks] at hblocks
    cases h : msg.content with
    | blocks blocks =>
        rw [h] at hblocks
        dsimp only
        rw [stripBlocks_eq_self hblocks]
    | text text => rfl
    | other value => rfl
  rw [TurnMessage.stripResults, if_neg (not_and.mpr houtput), hcontent]

theorem stripResults_nil (item : TurnItem ρ) : item.stripResults [] = item := by
  cases item with
  | other value => rfl
  | message msg =>
      rw [TurnItem.stripResults, stripResults_eq_self _ fun _ => List.not_mem_nil]
      intro block _
      rw [StubBlock.answers, Option.any_eq_false]
      simp

/-- A message only refers to a call still if it has the role `tool`. -/
theorem mem_references_stripResults {item : TurnItem ρ} {id : String} (hid : id ∈ ids) :
    id ∈ (item.stripResults ids).references ↔ item.toolMessageId? = some id := by
  cases item with
  | other value => simp [TurnItem.stripResults, TurnItem.references, TurnItem.toolMessageId?]
  | message msg =>
      have hblocks : id ∉ (msg.stripResults ids).blocks.filterMap StubBlock.toolResultId? := by
        intro hmem
        obtain ⟨block, hblock, hresult⟩ := List.mem_filterMap.mp hmem
        have hnot : block.answers ids = false := by
          rw [StubMessage.blocks, TurnMessage.stripResults] at hblock
          cases hcontent : msg.content with
          | blocks blocks =>
              rw [hcontent] at hblock
              exact not_answers_of_mem_stripBlocks hblock
          | text text => simp [hcontent] at hblock
          | other value => simp [hcontent] at hblock
        simp [StubBlock.answers, hresult, hid] at hnot
      have houtput : id ∉ (if (msg.stripResults ids).type = some "function_call_output" ∧
          !(msg.stripResults ids).output.isRemoved then [(msg.stripResults ids).callId]
            else []) := by
        split_ifs with hkept
        · intro hmem
          obtain rfl := List.mem_singleton.mp hmem
          have hreplaced : (msg.stripResults ids).output = .text resultsRemoved :=
            if_pos ⟨hkept.1, hid⟩
          simp [hreplaced, OutputContent.isRemoved] at hkept
        · exact List.not_mem_nil
      rw [TurnItem.stripResults, TurnItem.references, TurnMessage.references,
        List.mem_append, List.mem_append, TurnItem.toolMessageId?,
        or_iff_right (not_or.mpr ⟨hblocks, houtput⟩)]
      change id ∈ (if msg.role = some "tool" then [msg.toolCallId] else []) ↔ _
      split_ifs with hrole
      · rw [List.mem_singleton, Option.some.injEq]
        exact eq_comm
      · simp

end

/-! ## Positions -/

section

variable {yes : ρ} {fmt : ApiFormat} {items : List (TurnItem ρ)} {turns : List (MessageTurn ρ)}
  {collapsed : List (MessageTurn ρ × TurnFate)}

/-- The turns are of the body, in its order. -/
structure CollapsibleTurns (fmt : ApiFormat) (items : List (TurnItem ρ))
    (collapsed : List (MessageTurn ρ × TurnFate)) : Prop where
  increasing : ((collapsed.flatMap (·.1)).map (·.2)).Pairwise (· < ·)
  inBody : ∀ turn ∈ collapsed.map (·.1), ∀ entry ∈ turn, items[entry.2]? = some entry.1

theorem collapsedTurns_collapsible (h : messageTurns fmt items = some turns)
    (protectedRecentTurns : Nat) (fate : Nat → TurnFate) :
    CollapsibleTurns fmt items (collapsedTurns fmt protectedRecentTurns fate turns) := by
  have hsub : ((collapsedTurns fmt protectedRecentTurns fate turns).map (·.1)).Sublist
      turns := by
    refine (List.Sublist.map _ List.filter_sublist).trans ?_
    rw [List.map_map]
    change ((unprotectedTurns protectedRecentTurns turns).zipIdx.map (·.1)).Sublist turns
    rw [List.zipIdx_map_fst]
    exact unprotectedTurns_sublist _ _
  constructor
  · refine List.Pairwise.sublist ?_ (indices_increasing h)
    rw [List.flatMap_def]
    exact hsub.flatten.map _
  · exact fun turn hturn entry hentry => mem_items h (hsub.subset hturn) hentry

theorem collapsedIndices_increasing :
    (collapsedIndices collapsed items).Pairwise (· < ·) :=
  List.pairwise_lt_range.sublist List.filter_sublist

theorem fst_stubPairs_sublist (yes : ρ) (fmt : ApiFormat)
    (collapsed : List (MessageTurn ρ × TurnFate)) :
    ((stubPairs yes fmt collapsed).map (·.1)).Sublist
      ((collapsed.flatMap (·.1)).map (·.2)) := by
  induction collapsed with
  | nil => exact List.Sublist.refl _
  | cons entry rest ih =>
      obtain ⟨turn, fate⟩ := entry
      rw [List.flatMap_cons, List.map_append, stubPairs, List.filterMap_cons]
      change List.Sublist _ (turn.indices ++ _)
      cases fate with
      | keep => exact ih.trans (List.sublist_append_right _ _)
      | drop => exact ih.trans (List.sublist_append_right _ _)
      | stub label text =>
          cases turn.indices with
          | nil => exact ih
          | cons first others =>
              rw [List.cons_append, List.map_cons]
              exact (ih.trans (List.sublist_append_right _ _)).cons_cons _

theorem stubPairs_increasing (h : CollapsibleTurns fmt items collapsed) :
    (stubPairs yes fmt collapsed).Pairwise (·.1 < ·.1) :=
  List.pairwise_map.mp (h.increasing.sublist (fst_stubPairs_sublist yes fmt collapsed))

theorem stubPairs_lt (h : CollapsibleTurns fmt items collapsed)
    {pair : Nat × List (TurnItem ρ)} (hpair : pair ∈ stubPairs yes fmt collapsed) :
    pair.1 < items.length := by
  have hmem := (fst_stubPairs_sublist yes fmt collapsed).subset (List.mem_map_of_mem hpair)
  obtain ⟨entry, hentry, heq⟩ := List.mem_map.mp hmem
  obtain ⟨turn, hturn, hin⟩ := List.mem_flatMap.mp hentry
  rw [← heq]
  exact (List.getElem?_eq_some_iff.mp (h.inBody turn.1 (List.mem_map_of_mem hturn) entry hin)).1

theorem length_of_mem_stubPairs {pair : Nat × List (TurnItem ρ)}
    (h : pair ∈ stubPairs yes fmt collapsed) : pair.2.length = 2 := by
  obtain ⟨entry, -, hpair⟩ := List.mem_filterMap.mp h
  split at hpair
  · obtain rfl := Option.some.inj hpair
    rfl
  · cases hpair

/-- Every pair of stubs moves what comes after it by two. -/
theorem insertStubs_eq {collapsedSorted : List Nat} {pairs : List (Nat × List (TurnItem ρ))}
    (h : ∀ pair ∈ pairs, pair.2.length = 2) (offset : Nat) (items : List (TurnItem ρ)) :
    insertStubs collapsedSorted pairs offset items =
      insertBlocks collapsedSorted pairs offset items := by
  induction pairs generalizing offset items with
  | nil => rfl
  | cons pair pairs ih =>
      obtain ⟨position, stubs⟩ := pair
      have hlength : stubs.length = 2 := h (position, stubs) List.mem_cons_self
      rw [insertStubs, insertBlocks, insertItems_eq, hlength,
        ih fun other hother => h other (List.mem_cons_of_mem _ hother)]

/-- Outside the collapsed turns, all results of their calls are taken out. -/
theorem replaceAt_stripResultsOutside (blocks : Nat → List (TurnItem ρ)) :
    replaceAt blocks (fun i => i ∈ collapsedIndices collapsed items) 0
        (stripResultsOutside collapsed items) =
      replaceAt blocks (fun i => i ∈ collapsedIndices collapsed items) 0
        (items.map (·.stripResults (collapsedToolUseIds collapsed))) := by
  rw [stripResultsOutside]
  split_ifs with hnone
  · rw [List.isEmpty_iff.mp hnone]
    congr 1
    exact (List.map_id'' stripResults_nil items).symm
  · refine replaceAt_zipIdx_map (fun item index hkept => ?_) 0 items
    rw [if_neg (of_decide_eq_false hkept)]

theorem applyCollapse_eq (h : CollapsibleTurns fmt items collapsed) :
    applyCollapse yes fmt collapsed items =
      replaceAt (blockAt (stubPairs yes fmt collapsed))
        (fun i => i ∈ collapsedIndices collapsed items) 0
        (items.map (·.stripResults (collapsedToolUseIds collapsed))) := by
  have hsorted : (stubPairs yes fmt collapsed).Pairwise (·.1 < ·.1) :=
    stubPairs_increasing h
  have hlength : (stripResultsOutside collapsed items).length = items.length := by
    rw [stripResultsOutside]
    split_ifs
    · rfl
    · rw [List.length_map, List.length_zipIdx]
  rw [applyCollapse, orderBy_of_increasing hsorted,
    removeItems_eq collapsedIndices_increasing, insertStubs_eq fun _ => length_of_mem_stubPairs,
    insertBlocks_eq collapsedIndices_increasing hsorted fun pair hpair => ?_,
    replaceAt_stripResultsOutside]
  rw [hlength]
  exact stubPairs_lt h hpair

end

/-! ## Collapsed bodies -/

/--
Stubs stand where their turns began, the collapsed turns are gone, all else is kept but
for the results of their calls, and no result refers to such a call still.
-/
structure CollapsesTurns (yes : ρ) (fmt : ApiFormat)
    (collapsed : List (MessageTurn ρ × TurnFate)) (items result : List (TurnItem ρ)) :
    Prop where
  replaced : result = replaceAt (blockAt (stubPairs yes fmt collapsed))
    (fun i => i ∈ collapsedIndices collapsed items) 0
    (items.map (·.stripResults (collapsedToolUseIds collapsed)))
  unreferenced : ∀ item ∈ result, ∀ id ∈ item.references, id ∉ collapsedToolUseIds collapsed

/-- No message that stays answers a collapsed call with the role `tool`. -/
def NoToolMessageAnswers (collapsed : List (MessageTurn ρ × TurnFate))
    (items : List (TurnItem ρ)) : Prop :=
  ∀ index item, items[index]? = some item → index ∉ collapsedIndices collapsed items →
    ∀ id, item.toolMessageId? = some id → id ∉ collapsedToolUseIds collapsed

section

variable {yes : ρ} {fmt : ApiFormat} {items : List (TurnItem ρ)}
  {collapsed : List (MessageTurn ρ × TurnFate)}

theorem references_stub {index : Nat} {stub : TurnItem ρ}
    (h : stub ∈ blockAt (stubPairs yes fmt collapsed) index) : stub.references = [] := by
  obtain ⟨pair, hpair, hstub⟩ := List.mem_flatMap.mp h
  obtain ⟨entry, -, heq⟩ := List.mem_filterMap.mp (List.mem_filter.mp hpair).1
  split at heq
  · obtain rfl := Option.some.inj heq
    rcases List.mem_cons.mp hstub with rfl | hstub
    · cases fmt <;> rfl
    · obtain rfl := List.mem_singleton.mp hstub
      cases fmt <;> rfl
  · cases heq

theorem unreferenced_iff :
    (∀ item ∈ replaceAt (blockAt (stubPairs yes fmt collapsed))
        (fun i => i ∈ collapsedIndices collapsed items) 0
        (items.map (·.stripResults (collapsedToolUseIds collapsed))),
      ∀ id ∈ item.references, id ∉ collapsedToolUseIds collapsed) ↔
    NoToolMessageAnswers collapsed items := by
  constructor
  · intro hnone index item hitem hkept id hid hmem
    refine hnone (item.stripResults (collapsedToolUseIds collapsed))
      (mem_replaceAt.mpr (.inr ⟨index, decide_eq_false hkept, ?_⟩)) id
      ((mem_references_stripResults hmem).mpr hid) hmem
    rw [List.getElem?_map, hitem, Option.map_some]
  · intro hnone item hitem id hid hmem
    rcases mem_replaceAt.mp hitem with ⟨index, -, hstub⟩ | ⟨index, hkept, hget⟩
    · rw [references_stub hstub] at hid
      exact List.not_mem_nil hid
    · rw [List.getElem?_map] at hget
      obtain ⟨old, hold, rfl⟩ := Option.map_eq_some_iff.mp hget
      exact hnone index old hold (of_decide_eq_false hkept) id
        ((mem_references_stripResults hmem).mp hid) hmem

/-- Where nothing is collapsed, nothing changes. -/
theorem replaceAt_nil_collapsed (yes : ρ) (fmt : ApiFormat) (items : List (TurnItem ρ)) :
    replaceAt (blockAt (stubPairs yes fmt []))
      (fun i => i ∈ collapsedIndices ([] : List (MessageTurn ρ × TurnFate)) items) 0
      (items.map (·.stripResults
        (collapsedToolUseIds ([] : List (MessageTurn ρ × TurnFate))))) = items := by
  have hstrip : items.map (·.stripResults
      (collapsedToolUseIds ([] : List (MessageTurn ρ × TurnFate)))) = items :=
    List.map_id'' stripResults_nil items
  rw [hstrip, replaceAt_eq_self]
  intro index _ _
  exact ⟨rfl, by simp [collapsedIndices]⟩

theorem collapseTurnChains_eq_some_iff {turns : List (MessageTurn ρ)}
    {result : List (TurnItem ρ)} {protectedRecentTurns : Nat} {fate : Nat → TurnFate}
    (hturns : messageTurns fmt items = some turns) :
    let collapsed := collapsedTurns fmt protectedRecentTurns fate turns
    collapseTurnChains yes fmt protectedRecentTurns fate items = some result ↔
      (∀ entry ∈ collapsed, ∀ placed ∈ entry.1, placed.1.hasNullToolCalls = false) ∧
        result = replaceAt (blockAt (stubPairs yes fmt collapsed))
          (fun i => i ∈ collapsedIndices collapsed items) 0
          (items.map (·.stripResults (collapsedToolUseIds collapsed))) := by
  intro collapsed
  have hnull : collapsed.any (·.1.any (·.1.hasNullToolCalls)) = false ↔
      ∀ entry ∈ collapsed, ∀ placed ∈ entry.1, placed.1.hasNullToolCalls = false := by
    simp
  rw [collapseTurnChains, hturns, Option.bind_some, ← hnull]
  change (if collapsed.any (·.1.any (·.1.hasNullToolCalls)) then none
    else if collapsed = [] then some items
    else some (applyCollapse yes fmt collapsed items)) = some result ↔ _
  cases collapsed.any (·.1.any (·.1.hasNullToolCalls)) with
  | true => simp
  | false =>
      rw [if_neg Bool.false_ne_true, and_iff_right rfl,
        ← applyCollapse_eq (collapsedTurns_collapsible hturns protectedRecentTurns fate)]
      split_ifs with hnone
      · rw [applyCollapse_eq (collapsedTurns_collapsible hturns protectedRecentTurns fate)]
        change _ ↔ result = replaceAt (blockAt (stubPairs yes fmt collapsed))
          (fun i => i ∈ collapsedIndices collapsed items) 0
          (items.map (·.stripResults (collapsedToolUseIds collapsed)))
        rw [hnone, replaceAt_nil_collapsed, Option.some.injEq]
        exact eq_comm
      · rw [Option.some.injEq]
        exact eq_comm

end

/--
Collapsing turns does just what it should to every body, unless a collapsed message has
`null` for `tool_calls` or a message of the role `tool` that stays answers a
collapsed call.
-/
theorem collapse_replaces_turns_iff (yes : ρ) (fmt : ApiFormat) (protectedRecentTurns : Nat)
    (fate : Nat → TurnFate) (items : List (TurnItem ρ)) :
    (∃ turns result, messageTurns fmt items = some turns ∧
      collapseTurnChains yes fmt protectedRecentTurns fate items = some result ∧
      CollapsesTurns yes fmt (collapsedTurns fmt protectedRecentTurns fate turns) items
        result) ↔
    ∃ turns, messageTurns fmt items = some turns ∧
      let collapsed := collapsedTurns fmt protectedRecentTurns fate turns
      (∀ entry ∈ collapsed, ∀ placed ∈ entry.1, placed.1.hasNullToolCalls = false) ∧
        NoToolMessageAnswers collapsed items := by
  constructor
  · rintro ⟨turns, result, hturns, hsome, hreplaced, hunreferenced⟩
    obtain ⟨hnull, -⟩ := (collapseTurnChains_eq_some_iff hturns).mp hsome
    refine ⟨turns, hturns, hnull, ?_⟩
    rw [hreplaced] at hunreferenced
    exact unreferenced_iff.mp hunreferenced
  · rintro ⟨turns, hturns, hnull, hanswers⟩
    refine ⟨turns, _, hturns, (collapseTurnChains_eq_some_iff hturns).mpr ⟨hnull, rfl⟩, rfl, ?_⟩
    exact unreferenced_iff.mpr hanswers

/-! ## A result in another turn -/

/-- A call in the first turn, with its result in the second. -/
def interruptedCall : List (TurnItem String) :=
  [.message { role := some "user", content := .text "check the logs".toList },
    .message {
      role := some "assistant", toolCalls := [{ id := "call_1", name := "read_file" }] },
    .message { role := some "user", content := .text "wait".toList },
    .message {
      role := some "tool", toolCallId := "call_1", content := .text "404".toList },
    .message { role := some "user", content := .text "go on".toList }]

/-- The same turn with its result, and an answer that has `null` for `tool_calls`. -/
def nullToolCalls : List (TurnItem String) :=
  [.message { role := some "user", content := .text "check the logs".toList },
    .message {
      role := some "assistant", toolCalls := [{ id := "call_1", name := "read_file" }] },
    .message {
      role := some "tool", toolCallId := "call_1", content := .text "404".toList },
    .message {
      role := some "assistant", content := .text "not found".toList
      emptyToolCalls := .null },
    .message { role := some "user", content := .text "go on".toList }]

/-- The result stays behind without its call, and with `null` the collapse fails. -/
theorem tool_message_stays :
    ((collapseTurnChains "true" .openai 1 (fun _ => .stub 0 "[stub]".toList)
      interruptedCall).map (·.map (·.references))) = some [[], [], [], ["call_1"], []] ∧
    (messageTurns .openai interruptedCall).map (fun turns =>
      collapsedToolUseIds (collapsedTurns .openai 1 (fun _ => .stub 0 "[stub]".toList) turns)) =
        some ["call_1"] ∧
    collapseTurnChains "true" .openai 0 (fun _ => .stub 0 "[stub]".toList) nullToolCalls =
      none := by
  decide +kernel

end VirtualContext
