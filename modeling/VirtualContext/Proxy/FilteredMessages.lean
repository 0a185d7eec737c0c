import VirtualContext.Proxy.FilterSelection

/-!
# What the filter returns

The kept messages stand in the order of the body.  Of these the alternation of
the roles leaves some, by their neighbours; they are sent unless a result would
lose its call or no turn would be dropped.
-/

namespace VirtualContext

open VirtualContext.Library

variable {ρ : Type}

/-! ## The parts of a body -/

def leadingSystem (messages : List (PayloadMessage ρ)) : Nat :=
  (messages.takeWhile (·.role = some "system")).length

/-- The last message, if it is of the user. -/
def trailingUser (messages : List (PayloadMessage ρ)) : Option (PayloadMessage ρ) :=
  (messages.drop (leadingSystem messages)).getLast?.filter (·.role = some "user")

/-- The messages between the system messages and the trailing user message. -/
def bodyHistory (messages : List (PayloadMessage ρ)) : List (PayloadMessage ρ) :=
  let chat := messages.drop (leadingSystem messages)
  if (trailingUser messages).isSome then chat.dropLast else chat

def bodyChains (args : FilterArgs) (messages : List (PayloadMessage ρ)) :
    List (List Nat) :=
  groupChains args.format.assistantRole (bodyHistory messages).length 0
    (bodyHistory messages)

theorem body_parts (messages : List (PayloadMessage ρ)) :
    messages.takeWhile (·.role = some "system") ++ bodyHistory messages ++
      (trailingUser messages).toList = messages := by
  have hchat : bodyHistory messages ++ (trailingUser messages).toList =
      messages.drop (leadingSystem messages) := by
    unfold bodyHistory
    cases hlast : trailingUser messages with
    | none => simp
    | some message =>
        obtain ⟨hget, -⟩ := Option.filter_eq_some_iff.mp hlast
        exact List.dropLast_append_getLast? message hget
  rw [List.append_assoc, hchat]
  have hfront := List.prefix_iff_eq_take.mp
    (List.takeWhile_prefix (fun msg : PayloadMessage ρ => decide (msg.role = some "system"))
      (l := messages))
  conv_lhs => rw [hfront]
  exact List.take_append_drop _ messages

/-- What a selection is made of. -/
structure SelectedFrom (args : FilterArgs) (messages : List (PayloadMessage ρ))
    (selection : FilterSelection ρ) : Prop where
  system : selection.system = messages.takeWhile (·.role = some "system")
  history : selection.history = bodyHistory messages
  current : selection.current = trailingUser messages
  chains : selection.chains = bodyChains args messages
  kept : selection.keptChains ⊆ selection.chains
  recent : selection.chains.drop (selection.chains.length - args.recentLimit.toNat) ⊆
    selection.keptChains

theorem selectedFrom {args : FilterArgs} {messages : List (PayloadMessage ρ)}
    {selection : FilterSelection ρ} (h : selectMessages args messages = some selection) :
    SelectedFrom args messages selection := by
  obtain ⟨-, h⟩ := Option.ite_none_left_eq_some.mp h
  obtain ⟨-, h⟩ := Option.ite_none_left_eq_some.mp h
  obtain ⟨-, h⟩ := Option.ite_none_left_eq_some.mp h
  obtain rfl := Option.some.inj h
  refine ⟨rfl, rfl, rfl, rfl, fun chain hchain => ?_, fun chain hchain => ?_⟩
  · obtain ⟨entry, hentry, rfl⟩ := List.mem_map.mp hchain
    have hget := List.mem_zipIdx_iff_getElem?.mp (List.mem_filter.mp hentry).1
    exact List.mem_of_getElem? hget
  · obtain ⟨i, hi⟩ := List.mem_iff_getElem?.mp hchain
    rw [List.getElem?_drop] at hi
    have hlt := (List.getElem?_eq_some_iff.mp hi).1
    refine List.mem_map.mpr ⟨(chain, _), List.mem_filter.mpr
      ⟨List.mem_zipIdx_iff_getElem?.mpr hi, ?_⟩, rfl⟩
    unfold FilterArgs.keepsChain
    dsimp only
    rw [if_pos (by omega)]

theorem SelectedFrom.grouped {args : FilterArgs} {messages : List (PayloadMessage ρ)}
    {selection : FilterSelection ρ} (h : SelectedFrom args messages selection) :
    selection.Grouped where
  ordered := by
    rw [h.chains, h.history]
    simpa [bodyChains] using groupChains_ordered args.format.assistantRole
      (bodyHistory messages).length 0 (bodyHistory messages)
  kept := h.kept

/-! ## Thinking -/

namespace PayloadMessage

theorem toolUses_stripThinking (msg : PayloadMessage ρ) :
    msg.stripThinking.toolUses = msg.toolUses := by
  unfold stripThinking
  split
  · rename_i elements hcontent
    split_ifs
    · simp only [toolUses, PayloadMessage.elements, hcontent, List.filterMap_filter]
      congr 2
      funext element
      cases element with
      | block block => by_cases h : block.type = some "thinking" <;> simp [isThinking, h]
      | other value => rfl
    · rfl
  · rfl

theorem toolResults_stripThinking (msg : PayloadMessage ρ) :
    msg.stripThinking.toolResults = msg.toolResults := by
  unfold stripThinking
  split
  · rename_i elements hcontent
    split_ifs
    · simp only [toolResults, PayloadMessage.elements, hcontent, List.filterMap_filter]
      congr 2
      funext element
      cases element with
      | block block => by_cases h : block.type = some "thinking" <;> simp [isThinking, h]
      | other value => rfl
    · rfl
  · rfl

theorem role_stripThinking (msg : PayloadMessage ρ) : msg.stripThinking.role = msg.role := by
  unfold stripThinking
  split
  · split_ifs <;> rfl
  · rfl

end PayloadMessage

/-! ## The kept slots -/

namespace FilterSelection

variable (selection : FilterSelection ρ)

/-- The body that a selection was made of. -/
def body : List (PayloadMessage ρ) :=
  selection.system ++ selection.history ++ selection.current.toList

theorem body_eq_of_selectedFrom {args : FilterArgs} {messages : List (PayloadMessage ρ)}
    (h : SelectedFrom args messages selection) : selection.body = messages := by
  rw [body, h.system, h.history, h.current, body_parts]

/-- The places of the messages that are kept. -/
def KeepsAt (position : Nat) : Prop :=
  position < selection.system.length ∨
    (∃ index ∈ selection.keep, position = selection.system.length + index) ∨
    (selection.current.isSome ∧
      position = selection.system.length + selection.history.length)

theorem zipIdx_increasing (list : List (PayloadMessage ρ)) :
    list.zipIdx.Pairwise fun entry later => entry.2 < later.2 := by
  refine List.Pairwise.of_map (S := (· < ·)) Prod.snd (fun _ _ h => h) ?_
  rw [List.zipIdx_map_snd]
  exact List.pairwise_lt_range'

theorem slots_increasing :
    selection.slots.Pairwise fun slot later => slot.position < later.position := by
  have hhistory : ∀ entry ∈ selection.history.zipIdx, entry.2 < selection.history.length :=
    fun entry hentry => List.snd_lt_of_mem_zipIdx hentry
  have hsystem : ∀ entry ∈ selection.system.zipIdx, entry.2 < selection.system.length :=
    fun entry hentry => List.snd_lt_of_mem_zipIdx hentry
  refine List.pairwise_append.mpr ⟨List.pairwise_append.mpr ⟨?_, ?_, ?_⟩, ?_, ?_⟩
  · exact (zipIdx_increasing _).map _ fun _ _ h => h
  · exact ((zipIdx_increasing _).filter _).map _ fun _ _ h => Nat.add_lt_add_left h _
  · intro slot hslot later hlater
    obtain ⟨entry, hentry, rfl⟩ := List.mem_map.mp hslot
    obtain ⟨other, -, rfl⟩ := List.mem_map.mp hlater
    have hlt := hsystem entry hentry
    dsimp only
    omega
  · cases selection.current <;> simp
  · intro slot hslot later hlater
    obtain ⟨message, -, rfl⟩ := List.mem_map.mp hlater
    rcases List.mem_append.mp hslot with hmem | hmem
    · obtain ⟨entry, hentry, rfl⟩ := List.mem_map.mp hmem
      have hlt := hsystem entry hentry
      dsimp only
      omega
    · obtain ⟨entry, hentry, rfl⟩ := List.mem_map.mp hmem
      have hlt := hhistory entry (List.mem_filter.mp hentry).1
      dsimp only
      omega

theorem map_position_kept :
    selection.kept.map FilterSlot.position = selection.slots.map FilterSlot.position := by
  unfold kept
  split_ifs
  · simp
  · rfl

theorem kept_increasing :
    selection.kept.Pairwise fun slot later => slot.position < later.position := by
  have hslots := selection.slots_increasing.map FilterSlot.position
    (S := (· < ·)) fun _ _ h => h
  rw [← map_position_kept] at hslots
  exact hslots.of_map _ fun _ _ h => h

theorem kept_nodup : selection.kept.Nodup :=
  selection.kept_increasing.imp fun h heq => by
    subst heq
    exact Nat.lt_irrefl _ h

/-- At a place there is one slot only. -/
theorem eq_of_position {slot other : FilterSlot ρ} (hslot : slot ∈ selection.kept)
    (hother : other ∈ selection.kept) (h : slot.position = other.position) :
    slot = other := by
  by_contra hne
  have hsymm : Std.Symm fun slot later : FilterSlot ρ => slot.position ≠ later.position :=
    ⟨fun _ _ h => h.symm⟩
  have hapart := selection.kept_increasing.imp
    (S := fun slot later => slot.position ≠ later.position) fun hlt => hlt.ne
  exact hapart.forall hslot hother hne h

/-- A slot holds the message at its place, perhaps without its thinking. -/
theorem message_of_mem_kept {slot : FilterSlot ρ} (h : slot ∈ selection.kept) :
    ∃ original, selection.body[slot.position]? = some original ∧
      (slot.message = original ∨ slot.message = original.stripThinking) := by
  have hslots (slot : FilterSlot ρ) (h : slot ∈ selection.slots) :
      selection.body[slot.position]? = some slot.message := by
    unfold body
    rcases List.mem_append.mp h with hmem | hmem
    · rcases List.mem_append.mp hmem with hmem | hmem
      · obtain ⟨⟨message, i⟩, hentry, rfl⟩ := List.mem_map.mp hmem
        have hget := List.mem_zipIdx_iff_getElem?.mp hentry
        have hlt := (List.getElem?_eq_some_iff.mp hget).1
        rw [List.append_assoc]
        exact (List.getElem?_append_left hlt).trans hget
      · obtain ⟨⟨message, i⟩, hentry, rfl⟩ := List.mem_map.mp hmem
        have hget := List.mem_zipIdx_iff_getElem?.mp (List.mem_filter.mp hentry).1
        have hlt := (List.getElem?_eq_some_iff.mp hget).1
        dsimp only
        rw [List.getElem?_append_left (by rw [List.length_append]; omega),
          List.getElem?_append_right (Nat.le_add_right _ _), Nat.add_sub_cancel_left]
        exact hget
    · obtain ⟨message, hmessage, rfl⟩ := List.mem_map.mp hmem
      have hcurrent : selection.current = some message := by simpa using hmessage
      dsimp only
      rw [← List.length_append, List.getElem?_append_right (Nat.le_refl _), Nat.sub_self,
        hcurrent]
      rfl
  unfold kept at h
  split_ifs at h
  · obtain ⟨original, hmem, rfl⟩ := List.mem_map.mp h
    exact ⟨original.message, hslots original hmem, .inr rfl⟩
  · exact ⟨slot.message, hslots slot h, .inl rfl⟩

theorem exists_kept_iff (hwithin : selection.keep ⊆ List.range selection.history.length)
    (position : Nat) :
    (∃ slot ∈ selection.kept, slot.position = position) ↔ selection.KeepsAt position := by
  have hkept : (∃ slot ∈ selection.kept, slot.position = position) ↔
      position ∈ selection.slots.map FilterSlot.position := by
    rw [← map_position_kept, List.mem_map]
  have hsystem : position ∈ selection.system.zipIdx.map (·.2) ↔
      position < selection.system.length := by
    rw [List.zipIdx_map_snd, List.mem_range'_1]
    omega
  have hhistory : position ∈ (selection.history.zipIdx.filter (·.2 ∈ selection.keep)).map
      (fun entry => selection.system.length + entry.2) ↔
        ∃ index ∈ selection.keep, position = selection.system.length + index := by
    constructor
    · intro h
      obtain ⟨entry, hentry, rfl⟩ := List.mem_map.mp h
      exact ⟨entry.2, by simpa using (List.mem_filter.mp hentry).2, rfl⟩
    · rintro ⟨index, hindex, rfl⟩
      have hlt := List.mem_range.mp (hwithin hindex)
      exact List.mem_map.mpr ⟨(selection.history[index], index), List.mem_filter.mpr
        ⟨List.mem_zipIdx_iff_getElem?.mpr (List.getElem?_eq_getElem hlt),
          by simpa using hindex⟩, rfl⟩
  rw [hkept, slots, List.map_append, List.map_append, List.mem_append, List.mem_append,
    List.map_map, List.map_map, List.map_map, KeepsAt, or_assoc]
  refine or_congr hsystem (or_congr hhistory ?_)
  cases selection.current <;> simp [eq_comm]

theorem index_of_keepsAt {index : Nat} (hindex : index < selection.history.length)
    (h : selection.KeepsAt (selection.system.length + index)) : index ∈ selection.keep := by
  rcases h with hlt | ⟨other, hother, heq⟩ | ⟨-, heq⟩
  · omega
  · exact (Nat.add_left_cancel heq) ▸ hother
  · omega

/-- In the history, what is critical is marked. -/
theorem critical_of_mem_kept {slot : FilterSlot ρ} (h : slot ∈ selection.kept) {index : Nat}
    (hindex : index < selection.history.length)
    (hposition : slot.position = selection.system.length + index)
    (hcritical : index ∈ selection.criticalIndices) : slot.critical = true := by
  have hslots (slot : FilterSlot ρ) (h : slot ∈ selection.slots)
      (hposition : slot.position = selection.system.length + index) :
      slot.critical = true := by
    rcases List.mem_append.mp h with hmem | hmem
    · rcases List.mem_append.mp hmem with hmem | hmem
      · obtain ⟨entry, hentry, rfl⟩ := List.mem_map.mp hmem
        have hlt := List.snd_lt_of_mem_zipIdx hentry
        dsimp only at hposition
        omega
      · obtain ⟨entry, -, rfl⟩ := List.mem_map.mp hmem
        have heq : entry.2 = index := Nat.add_left_cancel hposition
        simpa [heq] using hcritical
    · obtain ⟨message, -, rfl⟩ := List.mem_map.mp hmem
      dsimp only at hposition
      omega
  unfold kept at h
  split_ifs at h
  · obtain ⟨original, hmem, rfl⟩ := List.mem_map.mp h
    exact hslots original hmem hposition
  · exact hslots slot h hposition

/-! ### What stands -/

/-- The kept slots that stand between their neighbours. -/
def standing : List (FilterSlot ρ) :=
  Library.standing FilterSlot.role FilterSlot.critical none selection.kept

def standingUsers : Int :=
  selection.standing.countP (·.role = some "user") -
    (if selection.current.isSome then 1 else 0)

/-- A kept message at a place that has no role, is critical, or starts a run of its
role that no critical message takes over. -/
def StandsAt (position : Nat) : Prop :=
  ∃ before slot after, selection.kept = before ++ slot :: after ∧
    slot.position = position ∧
    stands FilterSlot.role FilterSlot.critical before.getLast? slot after

/-- The body is replaced: no result loses its call, and there are fewer turns. -/
structure Sends : Prop where
  answered : ∀ slot ∈ selection.standing, ∀ id ∈ slot.message.toolResults,
    ∃ other ∈ selection.standing, id ∈ other.message.toolUses
  fewer : selection.standingUsers < selection.chains.length

theorem alternating_eq_standing : selection.alternating = selection.standing :=
  alternate_eq_standing _

theorem standsAt_iff (position : Nat) :
    selection.StandsAt position ↔ ∃ slot ∈ selection.standing, slot.position = position := by
  rw [← alternating_eq_standing]
  have hnodup := selection.kept_nodup
  constructor
  · rintro ⟨before, slot, after, hkept, hposition, hstands⟩
    rw [hkept] at hnodup
    refine ⟨slot, ?_, hposition⟩
    rw [alternating, hkept]
    exact (mem_alternate_iff hnodup).mpr hstands
  · rintro ⟨slot, hslot, hposition⟩
    obtain ⟨before, after, hkept⟩ := List.append_of_mem ((alternate_sublist _).subset hslot)
    rw [hkept] at hnodup
    rw [alternating, hkept] at hslot
    exact ⟨before, slot, after, hkept, hposition, (mem_alternate_iff hnodup).mp hslot⟩

theorem stands_of_standsAt {before after : List (FilterSlot ρ)} {slot : FilterSlot ρ}
    (hkept : selection.kept = before ++ slot :: after)
    (h : selection.StandsAt slot.position) :
    stands FilterSlot.role FilterSlot.critical before.getLast? slot after := by
  obtain ⟨other, hother, hposition⟩ := (selection.standsAt_iff _).mp h
  rw [← alternating_eq_standing, alternating] at hother
  have hnodup := selection.kept_nodup
  have heq : other = slot := selection.eq_of_position ((alternate_sublist _).subset hother)
    (hkept ▸ by simp) hposition
  rw [hkept] at hnodup hother
  exact (mem_alternate_iff hnodup).mp (heq ▸ hother)

theorem orphaned_eq_nil_iff : selection.orphaned = [] ↔
    ∀ slot ∈ selection.standing, ∀ id ∈ slot.message.toolResults,
      ∃ other ∈ selection.standing, id ∈ other.message.toolUses := by
  rw [← alternating_eq_standing, orphaned]
  simp only [List.filter_eq_nil_iff, List.mem_flatMap, List.mem_map]
  constructor
  · intro h slot hslot id hid
    have hcalled := h id ⟨_, ⟨slot, hslot, rfl⟩, hid⟩
    simpa using hcalled
  · rintro h id ⟨_, ⟨slot, hslot, rfl⟩, hid⟩
    simpa using h slot hslot id hid

theorem keptUserCount_eq : selection.keptUserCount = selection.standingUsers := by
  rw [standingUsers, ← alternating_eq_standing]
  rfl

theorem dropped_eq : (selection.dropped : Int) =
    max (selection.chains.length - selection.standingUsers) 0 := by
  rw [dropped, keptUserCount_eq, Int.toNat_eq_max]

end FilterSelection

theorem filteredSlots_eq_some {args : FilterArgs} {messages : List (PayloadMessage ρ)}
    {selection : FilterSelection ρ} : filteredSlots args messages = some selection ↔
      selectMessages args messages = some selection ∧ selection.Sends := by
  have hsends : selection.Sends ↔ selection.orphaned = [] ∧ selection.dropped ≠ 0 := by
    have hdropped := selection.dropped_eq
    rw [selection.orphaned_eq_nil_iff]
    constructor
    · intro h
      have hfewer := h.fewer
      exact ⟨h.answered, by omega⟩
    · rintro ⟨hanswered, hfewer⟩
      exact ⟨hanswered, by omega⟩
  rw [hsends, filteredSlots, Option.filter_eq_some_iff]
  simp

/-! ## What is returned -/

/-- The messages that are returned, with their places in the body. -/
def returnedSlots (args : FilterArgs) (messages : List (PayloadMessage ρ)) :
    List (FilterSlot ρ) :=
  match filteredSlots args messages with
  | none => messages.zipIdx.map fun entry => { position := entry.2, message := entry.1 }
  | some selection => selection.alternating

section

variable {args : FilterArgs} {messages : List (PayloadMessage ρ)}

theorem map_message_returnedSlots :
    (returnedSlots args messages).map (·.message) = (filterBodyMessages args messages).1 := by
  unfold returnedSlots filterBodyMessages
  cases filteredSlots args messages with
  | none =>
      dsimp only
      rw [List.map_map]
      exact List.zipIdx_map_fst 0 messages
  | some selection => rfl

theorem returnedSlots_of_sends {selection : FilterSelection ρ}
    (hselect : selectMessages args messages = some selection) (hsends : selection.Sends) :
    returnedSlots args messages = selection.standing := by
  rw [returnedSlots, filteredSlots_eq_some.mpr ⟨hselect, hsends⟩]
  exact selection.alternating_eq_standing

variable (args messages) in
/-- Either the whole body is returned, or what stands of a selection. -/
theorem returnedSlots_cases :
    (filteredSlots args messages = none ∧ ∀ position,
      (∃ slot ∈ returnedSlots args messages, slot.position = position) ↔
        position < messages.length) ∨
    ∃ selection, selectMessages args messages = some selection ∧ selection.Sends ∧
      returnedSlots args messages = selection.standing := by
  cases hfiltered : filteredSlots args messages with
  | none =>
      refine .inl ⟨rfl, fun position => ?_⟩
      have hpositions : (returnedSlots args messages).map FilterSlot.position =
          List.range' 0 messages.length := by
        rw [returnedSlots, hfiltered]
        dsimp only
        rw [List.map_map]
        exact List.zipIdx_map_snd 0 messages
      rw [← List.mem_map, hpositions, List.mem_range'_1]
      omega
  | some selection =>
      obtain ⟨hselect, hsends⟩ := filteredSlots_eq_some.mp hfiltered
      exact .inr ⟨selection, hselect, hsends, returnedSlots_of_sends hselect hsends⟩

theorem returnedSlots_increasing :
    (returnedSlots args messages).Pairwise fun slot later =>
      slot.position < later.position := by
  unfold returnedSlots
  cases filteredSlots args messages with
  | none =>
      refine List.Pairwise.of_map (S := (· < ·)) FilterSlot.position (fun _ _ h => h) ?_
      dsimp only
      rw [List.map_map]
      exact (List.zipIdx_map_snd 0 messages) ▸ List.pairwise_lt_range'
  | some selection => exact selection.kept_increasing.sublist (alternate_sublist _)

theorem message_of_mem_returnedSlots {slot : FilterSlot ρ}
    (h : slot ∈ returnedSlots args messages) :
    ∃ original, messages[slot.position]? = some original ∧
      (slot.message = original ∨ slot.message = original.stripThinking) := by
  unfold returnedSlots at h
  cases hfiltered : filteredSlots args messages with
  | none =>
      rw [hfiltered] at h
      obtain ⟨⟨message, i⟩, hentry, rfl⟩ := List.mem_map.mp h
      exact ⟨message, List.mem_zipIdx_iff_getElem?.mp hentry, .inl rfl⟩
  | some selection =>
      rw [hfiltered] at h
      have hfrom := selectedFrom (filteredSlots_eq_some.mp hfiltered).1
      rw [← selection.body_eq_of_selectedFrom hfrom]
      exact selection.message_of_mem_kept ((alternate_sublist _).subset h)

end

end VirtualContext
