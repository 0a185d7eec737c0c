import Mathlib.Algebra.GroupWithZero.Nat
import Mathlib.Algebra.Order.BigOperators.Group.List
import VirtualContext.Core.SegmentChoice
import VirtualContext.Core.SessionHeaders
import VirtualContext.Library.Flatten

/-!
# The turns of the segments

Every turn that is not blank is in one segment.  Stubs take over the tags of a
neighbour, and turns with large tool results are split off.
-/

namespace VirtualContext

open VirtualContext.Library

/-! ## Splitting off tool results -/

/-- The bytes of a tool result. -/
def SegmentBlock.resultBytes (block : SegmentBlock) : Option Nat :=
  if block.type ≠ "tool_result" then none
  else
    match block.content with
    | .text text => some text.utf8ByteSize
    | .items items =>
        some ((items.filter (·.type = "text")).map (·.text.utf8ByteSize)).sum
    | .other => none

/-- `_has_large_tool_result` -/
def hasLargeToolResult (threshold : Nat) (messages : List RowMessage) : Bool :=
  messages.any fun msg =>
    msg.rawContent.any fun block => block.resultBytes.any (threshold ≤ ·)

/-- The turns that are large by themselves, and the runs between them. -/
def isolateTurns (large : TurnPair → Bool) : List TurnPair → List TurnPair →
    List (List TurnPair)
  | currentGroup, [] => if currentGroup = [] then [] else [currentGroup]
  | currentGroup, pair :: pairs =>
      if large pair then
        (if currentGroup = [] then [] else [currentGroup]) ++
          [pair] :: isolateTurns large [] pairs
      else isolateTurns large (currentGroup ++ [pair]) pairs

namespace TopicSegmenter

variable (segmenter : TopicSegmenter) (supply : SegmentSupply)

def isLarge (pair : TurnPair) : Bool :=
  hasLargeToolResult segmenter.config.toolResultSegmentThreshold pair.messages

/-- `_build_segment_from_pairs`, as the `k`-th segment that is built -/
def buildSegmentFromPairs (k : Nat) (pairs : List TurnPair) (primaryTag : String)
    (tags : List String) : TaggedSegment :=
  let messages := pairs.flatMap (·.messages)
  let timestamps := messages.filterMap (·.timestamp)
  { id := supply.uuid k
    primaryTag := primaryTag
    tags := tags
    messages := messages
    tokenCount := segmenter.tokenCounter (joinContents messages)
    startTimestamp := timestamps.min?.getD (supply.now (2 * k))
    endTimestamp := timestamps.max?.getD (supply.now (2 * k + 1))
    turnCount := pairs.length }

/-- The condition under which a segment is split. -/
def needsSplit (seg : TaggedSegment) : Bool :=
  1 < seg.turnCount && (pairTurns seg.messages).any segmenter.isLarge

/-- `_split_large_tool_results`, after `k` segments were built -/
def splitLargeToolResults : Nat → List TaggedSegment → List TaggedSegment
  | _, [] => []
  | k, seg :: segments =>
      if segmenter.needsSplit seg then
        let groups := isolateTurns segmenter.isLarge [] (pairTurns seg.messages)
        groups.mapIdx (fun i pairs =>
            segmenter.buildSegmentFromPairs supply (k + i) pairs seg.primaryTag seg.tags) ++
          splitLargeToolResults (k + groups.length) segments
      else seg :: splitLargeToolResults k segments

/-- `segment`, for messages that may have raw content -/
def segmentAll (closerToPrevious : TaggedSegment → TaggedSegment → TaggedSegment → Bool)
    (messages : List RowMessage) (turnOffset : Int) : List TaggedSegment :=
  let segments := segmenter.segment supply closerToPrevious messages turnOffset
  if 0 < segmenter.config.toolResultSegmentThreshold then
    segmenter.splitLargeToolResults supply segments.length segments
  else segments

end TopicSegmenter

/-! ## Stubs -/

section Stubs

variable {closerToPrevious : TaggedSegment → TaggedSegment → TaggedSegment → Bool}

def TaggedSegment.isStub (seg : TaggedSegment) : Bool := seg.primaryTag = "_stub"

/-- The number of the stubs. -/
def stubCount (segments : List TaggedSegment) : Nat := segments.countP (·.isStub)

theorem stubDonor_isStub {stub donor : TaggedSegment} {previous next : Option TaggedSegment}
    (h : stubDonor closerToPrevious stub previous next = some donor) : donor.isStub = false := by
  unfold stubDonor at h
  have hfilter : ∀ neighbour : Option TaggedSegment, ∀ seg,
      neighbour.filter (·.primaryTag ≠ "_stub") = some seg → seg.isStub = false := by
    intro neighbour seg hseg
    obtain ⟨-, hne⟩ := Option.filter_eq_some_iff.mp hseg
    simpa [TaggedSegment.isStub] using hne
  split at h
  next previous' next' hprevious hnext =>
    split_ifs at h
    · exact Option.some.inj h ▸ hfilter _ _ hprevious
    · exact Option.some.inj h ▸ hfilter _ _ hnext
  next previous' hprevious hnext => exact Option.some.inj h ▸ hfilter _ _ hprevious
  next hprevious => exact hfilter _ _ h

/-- A donor is found next to a segment that is no stub. -/
theorem stubDonor_isSome {stub : TaggedSegment} {previous next : Option TaggedSegment}
    (h : ∃ seg, (previous = some seg ∨ next = some seg) ∧ seg.isStub = false) :
    (stubDonor closerToPrevious stub previous next).isSome = true := by
  obtain ⟨seg, hseg, hstub⟩ := h
  have hne : seg.primaryTag ≠ "_stub" := by simpa [TaggedSegment.isStub] using hstub
  unfold stubDonor
  rcases hseg with rfl | rfl
  · rw [Option.filter_some, if_pos (by simpa using hne)]
    cases next.filter (·.primaryTag ≠ "_stub") with
    | none => rfl
    | some donor => dsimp only; split <;> rfl
  · rw [Option.filter_some, if_pos (by simpa using hne)]
    cases previous.filter (·.primaryTag ≠ "_stub") with
    | none => rfl
    | some donor => dsimp only; split <;> rfl

variable (closerToPrevious)

/-- The segment at an index is no stub. -/
def SettledAt (segments : List TaggedSegment) (k : Nat) : Prop :=
  ∃ seg, segments[k]? = some seg ∧ seg.isStub = false

@[simp] theorem length_reassignStub (segments : List TaggedSegment) (i : Nat) :
    (reassignStub closerToPrevious segments i).length = segments.length := by
  simp [reassignStub]

theorem SettledAt.reassignStub {segments : List TaggedSegment} {k : Nat}
    (h : SettledAt segments k) (i : Nat) :
    SettledAt (reassignStub closerToPrevious segments i) k := by
  obtain ⟨seg, hseg, hstub⟩ := h
  have hne : seg.primaryTag ≠ "_stub" := by simpa [TaggedSegment.isStub] using hstub
  refine ⟨seg, ?_, hstub⟩
  rw [VirtualContext.reassignStub, List.getElem?_modify, hseg]
  split <;> simp [hne]

/-- A stub next to a segment that is none takes its tags. -/
theorem settledAt_reassignStub {segments : List TaggedSegment} {i k : Nat}
    (hi : i < segments.length) (hk : SettledAt segments k) (hnext : k + 1 = i ∨ k = i + 1) :
    SettledAt (reassignStub closerToPrevious segments i) i := by
  obtain ⟨donor, hdonor, hstub⟩ := hk
  by_cases hsettled : SettledAt segments i
  · exact hsettled.reassignStub closerToPrevious i
  have hseg : segments[i]? = some segments[i] := List.getElem?_eq_getElem hi
  have hisStub : segments[i].primaryTag = "_stub" := by
    by_contra hne
    exact hsettled ⟨_, hseg, by simpa [TaggedSegment.isStub] using hne⟩
  have hsome : (stubDonor closerToPrevious segments[i]
      (if i = 0 then none else segments[i - 1]?) segments[i + 1]?).isSome = true := by
    refine stubDonor_isSome ⟨donor, ?_, hstub⟩
    rcases hnext with rfl | rfl
    · exact .inl (by simpa using hdonor)
    · exact .inr hdonor
  obtain ⟨found, hfound⟩ := Option.isSome_iff_exists.mp hsome
  refine ⟨{ segments[i] with primaryTag := found.primaryTag, tags := found.tags }, ?_, ?_⟩
  · rw [VirtualContext.reassignStub, List.getElem?_modify, hseg]
    simp only [Option.map_eq_map, Option.map_some, hisStub, ne_eq, not_true_eq_false, if_false,
      if_true, hfound]
  · have hfree := stubDonor_isStub hfound
    simpa [TaggedSegment.isStub] using hfree

theorem SettledAt.foldl {segments : List TaggedSegment} {k : Nat} (h : SettledAt segments k)
    (indices : List Nat) :
    SettledAt (indices.foldl (VirtualContext.reassignStub closerToPrevious) segments) k := by
  induction indices generalizing segments with
  | nil => exact h
  | cons i indices ih => exact ih (h.reassignStub closerToPrevious i)

theorem length_foldl_reassignStub (segments : List TaggedSegment) (indices : List Nat) :
    (indices.foldl (reassignStub closerToPrevious) segments).length = segments.length := by
  induction indices generalizing segments with
  | nil => rfl
  | cons i indices ih => rw [List.foldl_cons, ih, length_reassignStub]

theorem SettledAt.reassignPass {segments : List TaggedSegment} {k : Nat}
    (h : SettledAt segments k) :
    SettledAt (VirtualContext.reassignPass closerToPrevious segments) k :=
  h.foldl closerToPrevious _

/-- After a pass the neighbours of a segment that is no stub are none either. -/
theorem settledAt_reassignPass {segments : List TaggedSegment} {i k : Nat}
    (hi : i < segments.length) (hk : SettledAt segments k) (hnext : k + 1 = i ∨ k = i + 1) :
    SettledAt (reassignPass closerToPrevious segments) i := by
  obtain ⟨before, after, hsplit⟩ := List.append_of_mem (List.mem_range.mpr hi)
  rw [reassignPass, hsplit, List.foldl_append, List.foldl_cons]
  refine SettledAt.foldl closerToPrevious
    (settledAt_reassignStub closerToPrevious ?_ (hk.foldl closerToPrevious before) hnext) after
  rwa [length_foldl_reassignStub]

/-- If neighbours are of one kind, all are. -/
theorem eq_of_neighbours {α : Type} {p : α → Bool} {xs : List α}
    (h : ∀ (i : Nat) (x y : α), xs[i]? = some x → xs[i + 1]? = some y → p x = p y) {a b : α}
    (ha : a ∈ xs) (hb : b ∈ xs) : p a = p b := by
  induction xs generalizing a b with
  | nil => cases ha
  | cons c xs ih =>
      have hrest : ∀ (i : Nat) (x y : α), xs[i]? = some x → xs[i + 1]? = some y → p x = p y :=
        fun i x y hx hy => h (i + 1) x y hx hy
      have hhead : ∀ d ∈ c :: xs, p d = p c := by
        intro d hd
        rcases List.mem_cons.mp hd with rfl | hd
        · rfl
        · cases xs with
          | nil => cases hd
          | cons e xs =>
              exact (ih hrest hd List.mem_cons_self).trans (h 0 c e rfl rfl).symm
      exact (hhead a ha).trans (hhead b hb).symm

/-- Fewer elements are of a kind if some cease to be and none come to be. -/
theorem countP_lt_of_forall₂ {α : Type} {p : α → Bool} {xs ys : List α}
    (h : List.Forall₂ (fun x y => p y = true → p x = true) xs ys) :
    ys.countP p ≤ xs.countP p ∧
      ∀ (i : Nat) (x y : α), xs[i]? = some x → ys[i]? = some y → p x = true → p y = false →
        ys.countP p < xs.countP p := by
  induction h with
  | nil => exact ⟨le_refl _, fun i x y hx => by simp at hx⟩
  | @cons x y xs ys hxy _ ih =>
      obtain ⟨hle, hlt⟩ := ih
      have hstep : (if p y = true then 1 else 0) ≤ if p x = true then 1 else 0 := by
        split_ifs with hy hx hx
        · exact le_refl _
        · exact absurd (hxy hy) hx
        · exact Nat.zero_le _
        · exact le_refl _
      rw [List.countP_cons, List.countP_cons]
      refine ⟨Nat.add_le_add hle hstep, fun i a b ha hb hpa hpb => ?_⟩
      cases i with
      | zero =>
          obtain rfl := Option.some.inj ha
          obtain rfl := Option.some.inj hb
          rw [if_pos hpa, if_neg (by simp [hpb])]
          omega
      | succ i => exact Nat.add_lt_add_of_lt_of_le (hlt i a b ha hb hpa hpb) hstep

theorem forall₂_reassignPass (segments : List TaggedSegment) :
    List.Forall₂ (fun seg seg' => seg'.isStub = true → seg.isStub = true) segments
      (reassignPass closerToPrevious segments) := by
  refine List.forall₂_iff_get.mpr ⟨(length_foldl_reassignStub _ _ _).symm, fun i hi hi' => ?_⟩
  intro hstub
  by_contra hnot
  have hsettled : SettledAt segments i :=
    ⟨_, List.getElem?_eq_getElem hi, by simpa using hnot⟩
  obtain ⟨seg, hseg, hfree⟩ := hsettled.reassignPass closerToPrevious
  have hget := (List.getElem?_eq_getElem hi').symm.trans hseg
  rw [List.get_eq_getElem, Option.some.inj hget, hfree] at hstub
  cases hstub

/-- A pass leaves fewer stubs beside segments that are none. -/
theorem stubCount_reassignPass_lt {segments : List TaggedSegment} {k : Nat}
    (hk : SettledAt segments k) (hstubs : 0 < stubCount segments) :
    stubCount (reassignPass closerToPrevious segments) < stubCount segments := by
  obtain ⟨stub, hstub, hisStub⟩ := List.countP_pos_iff.mp hstubs
  obtain ⟨seg, hseg, hfree⟩ := hk
  have hadjacent : ∃ i x y, segments[i]? = some x ∧ segments[i + 1]? = some y ∧
      x.isStub ≠ y.isStub := by
    by_contra hnone
    push Not at hnone
    have heq := eq_of_neighbours (p := TaggedSegment.isStub) hnone hstub
      (List.mem_of_getElem? hseg)
    rw [hisStub, hfree] at heq
    cases heq
  obtain ⟨i, x, y, hx, hy, hne⟩ := hadjacent
  have hcount := (countP_lt_of_forall₂ (forall₂_reassignPass closerToPrevious segments)).2
  cases hxStub : x.isStub with
  | true =>
      have hyStub : y.isStub = false := by
        rw [hxStub] at hne
        simpa using hne.symm
      have hi : i < segments.length := (List.getElem?_eq_some_iff.mp hx).1
      obtain ⟨found, hfound, hfoundFree⟩ := settledAt_reassignPass
        closerToPrevious hi ⟨y, hy, hyStub⟩ (.inr rfl)
      exact hcount i x found hx hfound hxStub hfoundFree
  | false =>
      have hyStub : y.isStub = true := by
        rw [hxStub] at hne
        simpa using hne.symm
      have hi : i + 1 < segments.length := (List.getElem?_eq_some_iff.mp hy).1
      obtain ⟨found, hfound, hfoundFree⟩ := settledAt_reassignPass
        closerToPrevious hi ⟨x, hx, hxStub⟩ (.inl rfl)
      exact hcount (i + 1) y found hy hfound hyStub hfoundFree

theorem stubCount_iterate {passes : Nat} {segments : List TaggedSegment} {k : Nat}
    (hk : SettledAt segments k) (hle : stubCount segments ≤ passes) :
    stubCount ((reassignPass closerToPrevious)^[passes] segments) = 0 := by
  induction passes generalizing segments with
  | zero => exact Nat.le_zero.mp hle
  | succ passes ih =>
      rw [Function.iterate_succ_apply]
      refine ih (hk.reassignPass closerToPrevious) ?_
      rcases Nat.eq_zero_or_pos (stubCount segments) with hzero | hpos
      · have hstep := (countP_lt_of_forall₂
          (forall₂_reassignPass closerToPrevious segments)).1
        change stubCount _ ≤ stubCount _ at hstep
        omega
      · have hlt := stubCount_reassignPass_lt closerToPrevious hk hpos
        omega

/-- No stub is left if any segment was none. -/
theorem not_isStub_reassignStubSegments {segments : List TaggedSegment} {seg : TaggedSegment}
    (hmem : seg ∈ segments) (hfree : seg.isStub = false) :
    ∀ other ∈ reassignStubSegments closerToPrevious segments, other.isStub = false := by
  obtain ⟨k, hk⟩ := List.mem_iff_getElem?.mp hmem
  have hcount : (segments.filter (·.primaryTag = "_stub")).length = stubCount segments := by
    rw [stubCount, List.countP_eq_length_filter]
    rfl
  have hzero : stubCount (reassignStubSegments closerToPrevious segments) = 0 := by
    unfold reassignStubSegments
    dsimp only
    refine stubCount_iterate closerToPrevious ⟨seg, hk, hfree⟩ ?_
    rw [hcount]
    split_ifs with hnone
    · omega
    · omega
  intro other hother
  simpa using (List.countP_eq_zero.mp hzero) other hother

end Stubs

/-! ## The caps of the groups -/

namespace TopicSegmenter

variable (segmenter : TopicSegmenter)

def turnTokens (pair : TurnPair) : Nat := segmenter.tokenCounter (joinContents pair.messages)

/-- The turns of a segment are no more than the configuration allows. -/
structure WithinCaps (turns : List TurnPair) : Prop where
  turnCap : 0 < segmenter.config.maxSegmentTurns → turns.length ≤ segmenter.config.maxSegmentTurns
  tokenCap : 1 < turns.length → (turns.map segmenter.turnTokens).sum ≤ segmenter.maxSegmentTokens

variable {segmenter}

theorem WithinCaps.of_sublist {turns part : List TurnPair} (h : segmenter.WithinCaps turns)
    (hpart : part.Sublist turns) : segmenter.WithinCaps part := by
  refine ⟨fun hpos => hpart.length_le.trans (h.turnCap hpos), fun hlength => ?_⟩
  have hsum := (hpart.map segmenter.turnTokens).sum_le_sum (by simp)
  exact hsum.trans (h.tokenCap (hlength.trans_le hpart.length_le))

/-- What a group that admits a turn has room for. -/
theorem room_of_score {group : SegmentGroup} {turn : TaggedTurn} {score : ℚ}
    (h : segmenter.score group turn = some score) :
    group.tokens + segmenter.turnTokens turn.pair ≤ segmenter.maxSegmentTokens ∧
      (0 < segmenter.config.maxSegmentTurns →
        group.turns.length < segmenter.config.maxSegmentTurns) := by
  unfold TopicSegmenter.score at h
  dsimp only at h
  split_ifs at h with htokens hturns
  all_goals
    refine ⟨Nat.not_lt.mp htokens, fun hpos => ?_⟩
    by_contra hfull
    exact hturns ⟨hpos, Nat.not_lt.mp hfull⟩

/-- A group counts its tokens and is within the caps. -/
structure GroupFits (segmenter : TopicSegmenter) (group : SegmentGroup) : Prop where
  tokens : group.tokens = (group.turns.map fun turn => segmenter.turnTokens turn.pair).sum
  caps : segmenter.WithinCaps (group.turns.map (·.pair))

theorem groupFits_placeTurn {session : String} {library : List SegmentGroup} {turn : TaggedTurn}
    (h : ∀ group ∈ library, GroupFits segmenter group) :
    ∀ group ∈ segmenter.placeTurn session library turn, GroupFits segmenter group := by
  intro group hgroup
  unfold placeTurn at hgroup
  dsimp only at hgroup
  split at hgroup
  next i hbest =>
    obtain ⟨score, ⟨joined, hjoined, hscore, -⟩, -⟩ := bestSegment_eq_some_iff.mp hbest
    obtain ⟨k, hk, hget⟩ := List.mem_iff_getElem.mp hgroup
    rw [List.length_modify] at hk
    rw [List.getElem_modify] at hget
    split_ifs at hget with hik
    · -- the group that the turn joins
      obtain rfl : library[k] = joined := by
        rw [hik, List.getElem?_eq_getElem hk] at hjoined
        exact Option.some.inj hjoined
      obtain ⟨htokens, hcaps⟩ := h _ (List.getElem_mem hk)
      obtain ⟨hroom, hturns⟩ := room_of_score hscore
      have hjoinedTurns : group.turns = library[k].turns ++ [turn] := by
        rw [← hget]
        rfl
      have hsum : group.tokens =
          (group.turns.map fun turn => segmenter.turnTokens turn.pair).sum := by
        rw [hjoinedTurns, List.map_append, List.sum_append, ← htokens, ← hget]
        simp [turnTokens]
      refine ⟨hsum, fun hpos => ?_, fun _ => ?_⟩
      · have hless := hturns hpos
        rw [hjoinedTurns, List.length_map, List.length_append]
        exact hless
      · rw [List.map_map]
        change (group.turns.map fun turn => segmenter.turnTokens turn.pair).sum ≤ _
        rw [← hsum, ← hget]
        exact hroom
    · exact hget ▸ h _ (List.getElem_mem hk)
  next hbest =>
    rcases List.mem_append.mp hgroup with hgroup | hgroup
    · exact h group hgroup
    · rw [List.mem_singleton.mp hgroup]
      refine ⟨by simp [SegmentGroup.turns, turnTokens], fun hpos => ?_, fun hlength => ?_⟩
      · exact hpos
      · simp [SegmentGroup.turns] at hlength

theorem groupFits_groupTurns {session : String} {library : List SegmentGroup}
    {turns : List TaggedTurn} (h : ∀ group ∈ library, GroupFits segmenter group) :
    ∀ group ∈ segmenter.groupTurns session library turns, GroupFits segmenter group := by
  induction turns generalizing session library with
  | nil => exact h
  | cons turn turns ih => exact ih (groupFits_placeTurn h)

end TopicSegmenter

/-! ## The parts of the turns -/

theorem flatten_isolateTurns (large : TurnPair → Bool) (currentGroup pairs : List TurnPair) :
    (isolateTurns large currentGroup pairs).flatten = currentGroup ++ pairs := by
  induction pairs generalizing currentGroup with
  | nil =>
      rw [isolateTurns]
      split_ifs with hempty <;> simp [hempty]
  | cons pair pairs ih =>
      rw [isolateTurns]
      split_ifs with hlarge hempty
      · simp [hempty, ih]
      · simp [ih]
      · rw [ih, List.append_assoc, List.singleton_append]

theorem flatMap_mergeTurns (part : List (List TurnPair)) :
    (part.map mergeTurns).flatMap (·.messages) = part.flatten.flatMap (·.messages) := by
  rw [List.flatMap_map, List.flatten_eq_flatMap, List.flatMap_assoc]
  rfl

/-- The segment comes, whole or in part, from one that holds these turns. -/
inductive SplitOff (segmenter : TopicSegmenter) {α : Type} (f : α → TurnPair) (whole : List α)
    (seg : TaggedSegment) : List α → TaggedSegment → Prop where
  | kept : SplitOff segmenter f whole seg whole seg
  | split {part seg'} (hsplit : segmenter.needsSplit seg = true) (hpart : part <:+: whole)
      (hmessages : seg'.messages = part.flatMap fun a => (f a).messages) :
      SplitOff segmenter f whole seg part seg'

section SplitOff

variable {segmenter : TopicSegmenter} {supply : SegmentSupply} {messages : List RowMessage}
variable {α : Type} {f : α → TurnPair}

/-- Splitting a segment takes none of its turns apart. -/
theorem parts_of_split {whole : List α} {seg : TaggedSegment}
    (hwhole : ∀ a ∈ whole, f a ∈ pairTurns messages)
    (hseg : seg.messages = whole.flatMap fun a => (f a).messages)
    (hsplit : segmenter.needsSplit seg = true) (k : Nat) :
    ∃ parts : List (List α), parts.flatten = whole ∧
      List.Forall₂ (SplitOff segmenter f whole seg) parts
        ((isolateTurns segmenter.isLarge [] (pairTurns seg.messages)).mapIdx fun i pairs =>
          segmenter.buildSegmentFromPairs supply (k + i) pairs seg.primaryTag seg.tags) := by
  obtain ⟨merged, hmerged, hflatten⟩ := @pairTurns_turns messages (whole.map f)
    (List.forall_mem_map.mpr hwhole)
  rw [List.flatMap_map, ← hseg] at hmerged
  have hgroups := flatten_isolateTurns segmenter.isLarge [] (pairTurns seg.messages)
  rw [List.nil_append, hmerged] at hgroups
  obtain ⟨groups, hgroupsEq, hgroupsFlatten⟩ := exists_map_of_flatten_eq hgroups
  have hpairs : (groups.map List.flatten).flatten = whole.map f := by
    rw [← List.flatten_flatten, hgroupsFlatten, hflatten]
  obtain ⟨parts, hparts, hwholeParts⟩ := exists_map_of_flatten_eq hpairs
  refine ⟨parts, hwholeParts, ?_⟩
  have hlength : groups.length = parts.length := by
    simpa using congrArg List.length hparts
  rw [hmerged, hgroupsEq]
  refine List.forall₂_iff_get.mpr ⟨by simp [hlength], fun i hi hi' => ?_⟩
  have hi'' : i < groups.length := hlength ▸ hi
  have hpart : groups[i].flatten = parts[i].map f := by
    have hget := congrArg (·[i]?) hparts
    rw [List.getElem?_map, List.getElem?_map, List.getElem?_eq_getElem hi'',
      List.getElem?_eq_getElem hi] at hget
    exact Option.some.inj hget
  refine .split hsplit (hwholeParts ▸ infix_flatten_of_mem (List.getElem_mem hi)) ?_
  simp only [List.get_eq_getElem, List.getElem_mapIdx, List.getElem_map]
  rw [← List.flatMap_map, ← hpart]
  exact flatMap_mergeTurns _

theorem parts_splitLargeToolResults {wholes : List (List α)} {segments : List TaggedSegment}
    (h : List.Forall₂ (fun whole seg => (∀ a ∈ whole, f a ∈ pairTurns messages) ∧
      seg.messages = whole.flatMap fun a => (f a).messages) wholes segments) (k : Nat) :
    ∃ parts : List (List α), parts.flatten = wholes.flatten ∧
      List.Forall₂ (fun part seg' => ∃ entry ∈ wholes.zip segments,
        SplitOff segmenter f entry.1 entry.2 part seg') parts
        (segmenter.splitLargeToolResults supply k segments) := by
  induction h generalizing k with
  | nil => exact ⟨[], rfl, .nil⟩
  | @cons whole seg wholes segments hseg _ ih =>
      have hmono : ∀ parts segments', List.Forall₂ (fun part seg' => ∃ entry ∈ wholes.zip segments,
          SplitOff segmenter f entry.1 entry.2 part seg') parts segments' →
          List.Forall₂ (fun part seg' => ∃ entry ∈ (whole :: wholes).zip (seg :: segments),
            SplitOff segmenter f entry.1 entry.2 part seg') parts segments' := by
        intro parts segments' hparts
        refine hparts.imp ?_
        rintro part seg' ⟨entry, hentry, hoff⟩
        exact ⟨entry, List.mem_cons_of_mem _ hentry, hoff⟩
      rw [TopicSegmenter.splitLargeToolResults]
      split_ifs with hsplit
      · obtain ⟨front, hfront, hfrontOff⟩ := @parts_of_split segmenter supply messages α f _ _
          hseg.1 hseg.2 hsplit k
        obtain ⟨back, hback, hbackOff⟩ := ih (k +
          (isolateTurns segmenter.isLarge [] (pairTurns seg.messages)).length)
        refine ⟨front ++ back, by rw [List.flatten_append, hfront, hback, List.flatten_cons], ?_⟩
        refine List.rel_append ?_ (hmono _ _ hbackOff)
        exact hfrontOff.imp fun part seg' hoff => ⟨(whole, seg), List.mem_cons_self, hoff⟩
      · obtain ⟨back, hback, hbackOff⟩ := ih k
        exact ⟨whole :: back, by rw [List.flatten_cons, hback, List.flatten_cons],
          .cons ⟨(whole, seg), List.mem_cons_self, .kept⟩ (hmono _ _ hbackOff)⟩

end SplitOff

/-! ## The segments partition the turns -/

namespace TopicSegmenter

variable (segmenter : TopicSegmenter) (supply : SegmentSupply)

/-- The segments before stubs take over tags. -/
def builtSegments (messages : List RowMessage) (turnOffset : Int) : List TaggedSegment :=
  (segmenter.groupTurns "" [] (segmenter.tagTurns turnOffset (pairTurns messages))).mapIdx
    (segmenter.buildSegment supply)

/-- The segment holds these turns; one that was split off need not count them. -/
structure HoldsPart (unsplit : List TaggedSegment) (part : List TurnPair) (seg : TaggedSegment) :
    Prop where
  messages : seg.messages = part.flatMap (·.messages)
  turnCount : seg.turnCount = part.length ∨ ∃ whole ∈ unsplit,
    segmenter.needsSplit whole = true ∧ seg.messages <:+: whole.messages
  caps : segmenter.WithinCaps part

/-- Each turn is in one segment, and those of a segment are in their order. -/
def Partition (turns : List TurnPair) (unsplit segments : List TaggedSegment) : Prop :=
  ∃ parts : List (List TurnPair), parts.flatten.Perm turns ∧
    (∀ part ∈ parts, part.Sublist turns) ∧
    List.Forall₂ (segmenter.HoldsPart unsplit) parts segments

variable {segmenter supply}
variable {closerToPrevious : TaggedSegment → TaggedSegment → TaggedSegment → Bool}
variable {messages : List RowMessage} {turnOffset : Int}

/-- The turns of the groups, and what they have in common with the segments. -/
theorem partition_segment :
    ∃ wholes : List (List TurnPair),
      wholes.flatten.Perm ((pairTurns messages).filter fun pair => !pair.isBlank) ∧
      (∀ whole ∈ wholes,
        whole.Sublist ((pairTurns messages).filter fun pair => !pair.isBlank)) ∧
      List.Forall₂ (fun whole seg => seg.messages = whole.flatMap (·.messages) ∧
        seg.turnCount = whole.length ∧ segmenter.WithinCaps whole) wholes
        (segmenter.segment supply closerToPrevious messages turnOffset) := by
  have hturns := segmenter.turns_groupTurns "" []
    (segmenter.tagTurns turnOffset (pairTurns messages))
  have hvalid := segmenter.validChoices "" [] (segmenter.tagTurns turnOffset (pairTurns messages))
  have hfst := segmenter.map_fst_choices "" []
    (segmenter.tagTurns turnOffset (pairTurns messages))
  have hpairs := map_pair_tagTurns segmenter turnOffset (pairTurns messages)
  have hfits := @groupFits_groupTurns segmenter "" []
    (segmenter.tagTurns turnOffset (pairTurns messages)) (fun group hgroup => by cases hgroup)
  have hbuilt := @builtFrom_segment segmenter supply closerToPrevious messages turnOffset
  generalize segmenter.groupTurns "" [] _ = library at *
  have hperm := perm_placeAll hvalid
  have hsub := @sublist_placeAll _ [] (segmenter.choices "" []
    (segmenter.tagTurns turnOffset (pairTurns messages))) [] (fun group hgroup => by cases hgroup)
  rw [List.map_nil] at hturns hperm
  rw [← hturns, hfst, List.flatten_nil, List.nil_append] at hperm
  rw [← hturns, hfst, List.nil_append] at hsub
  refine ⟨library.map fun group => group.turns.map (·.pair), ?_, ?_, ?_⟩
  · have hmap := hperm.map (·.pair)
    rw [hpairs, List.map_flatten, List.map_map] at hmap
    exact hmap
  · intro whole hwhole
    obtain ⟨group, hgroup, rfl⟩ := List.mem_map.mp hwhole
    rw [← hpairs]
    exact (hsub _ (List.mem_map_of_mem hgroup)).map _
  · rw [List.forall₂_map_left_iff]
    refine List.forall₂_iff_get.mpr ⟨hbuilt.length_eq, fun i hi hi' => ?_⟩
    obtain ⟨hmessages, hcount, -⟩ := (List.forall₂_iff_get.mp hbuilt).2 i hi hi'
    refine ⟨?_, ?_, (hfits _ (List.getElem_mem hi)).caps⟩
    · rw [hmessages, List.flatMap_map]
    · rw [hcount, List.length_map]

theorem partition_segmentAll :
    segmenter.Partition ((pairTurns messages).filter fun pair => !pair.isBlank)
      (segmenter.segment supply closerToPrevious messages turnOffset)
      (segmenter.segmentAll supply closerToPrevious messages turnOffset) := by
  obtain ⟨wholes, hperm, hsub, hsegments⟩ := @partition_segment segmenter supply closerToPrevious
    messages turnOffset
  unfold segmentAll
  dsimp only
  generalize segmenter.segment supply closerToPrevious messages turnOffset = segments at *
  split_ifs
  · have hwholes : List.Forall₂ (fun whole seg => (∀ t ∈ whole, t ∈ pairTurns messages) ∧
        seg.messages = whole.flatMap (·.messages)) wholes segments := by
      refine List.forall₂_iff_zip.mpr ⟨hsegments.length_eq, fun {whole seg} hmem => ?_⟩
      refine ⟨fun t ht => ?_, ((List.forall₂_iff_zip.mp hsegments).2 hmem).1⟩
      have ht' := (hsub whole (List.of_mem_zip hmem).1).subset ht
      exact (List.mem_filter.mp ht').1
    obtain ⟨parts, hflatten, hparts⟩ := @parts_splitLargeToolResults segmenter supply messages _ id _ _
      hwholes segments.length
    have hholds : ∀ {part seg'}, (∃ entry ∈ wholes.zip segments,
        SplitOff segmenter id entry.1 entry.2 part seg') →
        segmenter.HoldsPart segments part seg' ∧
          part.Sublist ((pairTurns messages).filter fun pair => !pair.isBlank) := by
      rintro part seg' ⟨⟨whole, seg⟩, hentry, hoff⟩
      obtain ⟨hmessages, hcount, hcaps⟩ := (List.forall₂_iff_zip.mp hsegments).2 hentry
      obtain ⟨hwhole, hseg⟩ := List.of_mem_zip hentry
      cases hoff with
      | kept => exact ⟨⟨hmessages, .inl hcount, hcaps⟩, hsub whole hwhole⟩
      | split hsplit hpart hpartMessages =>
          refine ⟨⟨hpartMessages, .inr ⟨seg, hseg, hsplit, ?_⟩, hcaps.of_sublist hpart.sublist⟩,
            hpart.sublist.trans (hsub whole hwhole)⟩
          obtain ⟨before, after, rfl⟩ := hpart
          exact ⟨before.flatMap (·.messages), after.flatMap (·.messages), by
            rw [hpartMessages, hmessages, List.flatMap_append, List.flatMap_append]
            rfl⟩
    refine ⟨parts, hflatten ▸ hperm, fun part hpart => ?_, hparts.imp fun _ _ h => (hholds h).1⟩
    obtain ⟨i, hi, rfl⟩ := List.mem_iff_getElem.mp hpart
    have hi' := hparts.length_eq ▸ hi
    exact (hholds ((List.forall₂_iff_get.mp hparts).2 i hi hi')).2
  · exact ⟨wholes, hperm, hsub, hsegments.imp fun _ _ h => ⟨h.1, .inl h.2.1, h.2.2⟩⟩

theorem primaryTag_of_mem_split {segments : List TaggedSegment} {k : Nat} {seg' : TaggedSegment}
    (h : seg' ∈ segmenter.splitLargeToolResults supply k segments) :
    ∃ seg ∈ segments, seg'.primaryTag = seg.primaryTag := by
  induction segments generalizing k with
  | nil => cases h
  | cons seg segments ih =>
      rw [splitLargeToolResults] at h
      have hrest : ∀ k, seg' ∈ segmenter.splitLargeToolResults supply k segments →
          ∃ other ∈ seg :: segments, seg'.primaryTag = other.primaryTag := by
        intro k hmem
        obtain ⟨other, hother, htag⟩ := ih hmem
        exact ⟨other, List.mem_cons_of_mem _ hother, htag⟩
      split_ifs at h
      · rcases List.mem_append.mp h with h | h
        · obtain ⟨i, hi, rfl⟩ := List.mem_mapIdx.mp h
          exact ⟨seg, List.mem_cons_self, rfl⟩
        · exact hrest _ h
      · rcases List.mem_cons.mp h with rfl | h
        · exact ⟨seg', List.mem_cons_self, rfl⟩
        · exact hrest _ h

/-- Stubs are left only where all segments were stubs. -/
theorem not_isStub_segmentAll {built : TaggedSegment}
    (hbuilt : built ∈ segmenter.builtSegments supply messages turnOffset)
    (hfree : built.isStub = false) :
    ∀ seg ∈ segmenter.segmentAll supply closerToPrevious messages turnOffset,
      seg.isStub = false := by
  have hnone : ∀ seg ∈ segmenter.segment supply closerToPrevious messages turnOffset,
      seg.isStub = false := not_isStub_reassignStubSegments closerToPrevious hbuilt hfree
  intro seg hseg
  unfold segmentAll at hseg
  dsimp only at hseg
  split_ifs at hseg
  · obtain ⟨other, hother, htag⟩ := primaryTag_of_mem_split hseg
    have hotherFree := hnone other hother
    rwa [TaggedSegment.isStub, ← htag] at hotherFree
  · exact hnone seg hseg

/-- The segments hold the turns that are not blank, within the caps. -/
theorem segments_partition_turns (segmenter : TopicSegmenter) (supply : SegmentSupply)
    (closerToPrevious : TaggedSegment → TaggedSegment → TaggedSegment → Bool)
    (messages : List RowMessage) (turnOffset : Int) :
    segmenter.Partition ((pairTurns messages).filter fun pair => !pair.isBlank)
        (segmenter.segment supply closerToPrevious messages turnOffset)
        (segmenter.segmentAll supply closerToPrevious messages turnOffset) ∧
      ((∃ seg ∈ segmenter.builtSegments supply messages turnOffset, seg.primaryTag ≠ "_stub") →
        ∀ seg ∈ segmenter.segmentAll supply closerToPrevious messages turnOffset,
          seg.primaryTag ≠ "_stub") := by
  refine ⟨partition_segmentAll, ?_⟩
  rintro ⟨built, hbuilt, hfree⟩ seg hseg
  have hnone := @not_isStub_segmentAll segmenter supply closerToPrevious messages turnOffset built
    hbuilt (by simpa [TaggedSegment.isStub] using hfree) seg hseg
  simpa [TaggedSegment.isStub] using hnone

/-- A segmenter without a cap on the turns. -/
def unlimited : TopicSegmenter where
  config := { maxSegmentTurns := 0 }
  tokenCounter := String.length
  tagsOfTurn := fun _ _ => ⟨["_general"], "_general"⟩
  exceedsSessionGap := fun _ _ => false
  computeRelatedness := fun _ _ _ _ => 0

def twoTurns : List RowMessage :=
  [{ role := "user", content := "a" }, { role := "assistant", content := "b" },
    { role := "user", content := "c" }, { role := "assistant", content := "d" }]

/-- A cap of zero turns is none. -/
theorem unlimited_exceeds_cap :
    ¬ ∀ seg ∈ unlimited.segmentAll ⟨fun _ => "", fun _ => ""⟩ (fun _ _ _ => true) twoTurns 0,
      1 < seg.turnCount → seg.turnCount ≤ unlimited.config.maxSegmentTurns := by
  decide +kernel

end TopicSegmenter

end VirtualContext
