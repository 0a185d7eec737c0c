import VirtualContext.Proxy.FilterGuarantees

/-!
# The roles of a filtered body

What is kept of a history begins with a user message, by the backfill, and what
stands of it does so too.  Neighbours with the same role are ends of tool calls
that are sent with both of their ends.
-/

namespace VirtualContext

open VirtualContext.Library

variable {ρ : Type}

/-! ## The first kept message -/

namespace FilterSelection

variable {selection : FilterSelection ρ}

/-- The first message that is kept is of the user, if that of the history is. -/
theorem role_of_first_kept (hgrouped : selection.Grouped)
    (hfirst : (selection.history.head?).map (·.role) = some (some "user")) {index : Nat}
    (hindex : index ∈ selection.keep) (hleast : ∀ other ∈ selection.keep, index ≤ other) :
    (selection.history[index]?).map (·.role) = some (some "user") := by
  obtain ⟨hclosed, -⟩ := close_closed hgrouped initialKeep_nodup
    (initialKeep_within hgrouped)
  have hzero : 0 ∈ selection.keep →
      (selection.history[index]?).map (·.role) = some (some "user") := by
    intro hmem
    obtain rfl := Nat.le_zero.mp (hleast 0 hmem)
    rwa [← List.head?_eq_getElem?]
  have hin : ∀ i ∈ selection.close selection.initialKeep,
      i ∈ (List.range selection.history.length).filter
        (· ∈ selection.close selection.initialKeep) :=
    fun i hi => List.mem_filter.mpr ⟨hclosed.within hi, by simpa using hi⟩
  cases hsorted : (List.range selection.history.length).filter
      (· ∈ selection.close selection.initialKeep) with
  | nil =>
      -- nothing was kept, so that nothing is filled in
      have hkeep : selection.keep = selection.close selection.initialKeep := by
        unfold keep
        dsimp only
        rw [hsorted]
        rfl
      have hmem := hin index (hkeep ▸ hindex)
      rw [hsorted] at hmem
      cases hmem
  | cons first rest =>
      have hmem : first ∈ (List.range selection.history.length).filter
          (· ∈ selection.close selection.initialKeep) := by simp [hsorted]
      by_cases huser : (selection.history[first]?).any (·.role = some "user")
      · -- the walk stops at once, and the first index is the least one
        have hkeep : selection.keep = selection.close selection.initialKeep := by
          unfold keep
          dsimp only
          rw [hsorted, backfill, if_pos huser]
          rfl
        rw [hkeep] at hindex hleast
        have hle := hleast first (by simpa using (List.mem_filter.mp hmem).2)
        have hincreasing := (List.pairwise_lt_range (n := selection.history.length)).filter
          fun index => decide (index ∈ selection.close selection.initialKeep)
        rw [hsorted] at hincreasing
        have hge : first ≤ index := by
          have hlater := hin index hindex
          rw [hsorted] at hlater
          rcases List.mem_cons.mp hlater with rfl | hrest
          · exact Nat.le_refl _
          · exact Nat.le_of_lt ((List.pairwise_cons.mp hincreasing).1 index hrest)
        obtain rfl := Nat.le_antisymm hle hge
        obtain ⟨msg, hget, hrole⟩ := (Option.any_eq_true _ _).mp huser
        rw [hget, Option.map_some]
        exact congrArg some (by simpa using hrole)
      · -- everything up to the first index is filled in
        apply hzero
        have hrange : ∀ i ∈ rest, i ∈ List.range selection.history.length := by
          intro i hi
          exact (List.mem_filter.mp (hsorted ▸ List.mem_cons_of_mem first hi)).1
        obtain ⟨hgrow, hnodup, hwithin⟩ := backfill_adds hgrouped (first :: rest)
          (selection.close selection.initialKeep) false
          (List.cons_subset.mpr ⟨(List.mem_filter.mp hmem).1, hrange⟩)
        have hfilled : 0 ∈ (backfill selection.history selection.chains (first :: rest)
            (selection.close selection.initialKeep) false).1 := by
          rw [backfill, if_neg huser]
          have hadds := (Adds.foldl (List.range (first + 1))
            fun i _ => keepPeers_adds hgrouped i).grows
              (addAll (selection.close selection.initialKeep) (List.range (first + 1)))
          have hnext := (backfill_adds hgrouped rest
            (backfillTo selection.chains (selection.close selection.initialKeep) false first).1
            (backfillTo selection.chains (selection.close selection.initialKeep) false first).2
            hrange).1
          exact hnext.subset (hadds.subset (mem_addAll.mpr
            (.inr (List.mem_range.mpr (Nat.succ_pos first)))))
        unfold keep
        dsimp only
        rw [hsorted]
        split_ifs
        · exact (close_closed hgrouped (hnodup hclosed.nodup)
            (hwithin hclosed.within)).2 hfilled
        · exact hfilled

/-! ## What stands -/

/-- The kept slots are the slots with messages of the same roles. -/
theorem exists_kept_eq_map (selection : FilterSelection ρ) :
    ∃ f : FilterSlot ρ → FilterSlot ρ, (∀ slot, (f slot).role = slot.role) ∧
      selection.kept = selection.slots.map f := by
  unfold kept
  split_ifs
  · exact ⟨fun slot => { slot with message := slot.message.stripThinking },
      fun slot => slot.message.role_stripThinking, rfl⟩
  · exact ⟨id, fun _ => rfl, (List.map_id _).symm⟩

/-- System messages come first, and then a message of the user. -/
theorem kept_parts (hgrouped : selection.Grouped)
    (hsystem : ∀ msg ∈ selection.system, msg.role = some "system")
    (hcurrent : ∀ msg ∈ selection.current, msg.role = some "user")
    (hfirst : ∀ msg ∈ selection.history.head?, msg.role = some "user") :
    ∃ before after, selection.kept = before ++ after ∧
      (∀ slot ∈ before, slot.role = some "system") ∧
      (∀ slot ∈ after.head?, slot.role = some "user") ∧
      (selection.keep ≠ [] → after ≠ []) := by
  obtain ⟨f, hf, hkept⟩ := selection.exists_kept_eq_map
  rw [slots, List.append_assoc, List.map_append] at hkept
  have hentry : ∀ index ∈ selection.keep, ∃ entry ∈ selection.history.zipIdx.filter
      (·.2 ∈ selection.keep), entry.2 = index := by
    intro index hindex
    have hlt := List.mem_range.mp ((keep_closed hgrouped).1.within hindex)
    exact ⟨(selection.history[index], index), List.mem_filter.mpr
      ⟨List.mem_zipIdx_iff_getElem?.mpr (List.getElem?_eq_getElem hlt),
        by simpa using hindex⟩, rfl⟩
  refine ⟨_, _, hkept, ?_, ?_, fun hkeep => ?_⟩
  · intro slot hslot
    obtain ⟨original, hmem, rfl⟩ := List.mem_map.mp hslot
    obtain ⟨entry, hentry, rfl⟩ := List.mem_map.mp hmem
    rw [hf]
    exact hsystem _ (List.fst_mem_of_mem_zipIdx hentry)
  · intro slot hslot
    rw [List.head?_map] at hslot
    obtain ⟨original, horiginal, rfl⟩ := Option.map_eq_some_iff.mp hslot
    rw [hf]
    cases hhistory : selection.history.zipIdx.filter (·.2 ∈ selection.keep) with
    | nil =>
        rw [hhistory] at horiginal
        cases hnone : selection.current with
        | none => simp [hnone] at horiginal
        | some msg =>
            rw [hnone] at horiginal
            obtain rfl := Option.some.inj horiginal
            exact hcurrent msg hnone
    | cons entry rest =>
        rw [hhistory] at horiginal
        obtain rfl := Option.some.inj horiginal
        have hmem : entry ∈ selection.history.zipIdx.filter (·.2 ∈ selection.keep) := by
          simp [hhistory]
        obtain ⟨hindexed, hkeep⟩ := List.mem_filter.mp hmem
        have hget := List.mem_zipIdx_iff_getElem?.mp hindexed
        have hrole := role_of_first_kept hgrouped ?_ (by simpa using hkeep) ?_
        · rw [hget] at hrole
          exact Option.some.inj hrole
        · cases hhead : selection.history.head? with
          | none =>
              rw [List.head?_eq_none_iff.mp hhead] at hget
              cases hget
          | some msg => exact congrArg some (hfirst msg hhead)
        · intro other hother
          obtain ⟨later, hlater, rfl⟩ := hentry other hother
          have hincreasing : (selection.history.zipIdx.filter
              (·.2 ∈ selection.keep)).Pairwise fun entry later => entry.2 < later.2 :=
            (zipIdx_increasing _).filter _
          rw [hhistory] at hlater hincreasing
          rcases List.mem_cons.mp hlater with rfl | hrest
          · exact Nat.le_refl _
          · exact Nat.le_of_lt ((List.pairwise_cons.mp hincreasing).1 _ hrest)
  · obtain ⟨index, hindex⟩ := List.exists_mem_of_ne_nil _ hkeep
    obtain ⟨entry, hmem, -⟩ := hentry index hindex
    exact List.ne_nil_of_mem (List.mem_map_of_mem
      (List.mem_append_left _ (List.mem_map_of_mem hmem)))

/-- After the system messages, what stands begins with the role of what was kept. -/
theorem role_of_first_standing {before after : List (FilterSlot ρ)}
    (hkept : selection.kept = before ++ after)
    (hsystem : ∀ slot ∈ before, slot.role = some "system")
    (huser : ∀ slot ∈ after.head?, slot.role = some "user") :
    (selection.standing.find? (·.role ≠ some "system")).map (·.role) =
      after.head?.map (·.role) := by
  obtain ⟨front, hfront, hstanding⟩ : ∃ front : List (FilterSlot ρ),
      front.Sublist before ∧
        Library.standing FilterSlot.role FilterSlot.critical none (before ++ after) =
          front ++ Library.standing FilterSlot.role FilterSlot.critical
            (before.getLast?.or none) after := standing_append none before after
  have hnone : front.find? (·.role ≠ some "system") = none :=
    List.find?_eq_none.mpr fun slot hslot => by simp [hsystem slot (hfront.subset hslot)]
  rw [standing, hkept, hstanding, List.find?_append, Option.or_none, hnone, Option.none_or]
  cases after with
  | nil => rfl
  | cons first rest =>
      have hfirst := huser first rfl
      have hprevious : before.getLast?.all (·.role ≠ first.role) := by
        cases hlast : before.getLast? with
        | none => rfl
        | some last =>
            have hrole := hsystem last (List.mem_of_getLast? hlast)
            simp [hrole, hfirst]
      have hhead : (Library.standing FilterSlot.role FilterSlot.critical
          before.getLast? (first :: rest)).head?.map FilterSlot.role = some first.role :=
        head_standing hprevious rest
      cases hrest : Library.standing FilterSlot.role FilterSlot.critical
          before.getLast? (first :: rest) with
      | nil => simp [hrest] at hhead
      | cons head tail =>
          rw [hrest, List.head?_cons, Option.map_some, hfirst] at hhead
          rw [List.find?_cons_of_pos (by simp [Option.some.inj hhead]), List.head?_cons,
            Option.map_some, Option.map_some, hfirst]
          exact hhead

/-! ## Tool calls -/

/-- A slot that is critical is an end of a tool call, and so are both ends. -/
theorem critical_ends {slot : FilterSlot ρ} (h : slot ∈ selection.kept)
    (hcritical : slot.critical = true) :
    ∃ id use result, (id, use) ∈ selection.uses ∧
      selection.results.get id = some result ∧
      use ∈ selection.keep ∧ result ∈ selection.keep ∧
      (slot.position = selection.system.length + use ∨
        slot.position = selection.system.length + result) := by
  have hslots (slot : FilterSlot ρ) (h : slot ∈ selection.slots)
      (hcritical : slot.critical = true) : ∃ index ∈ selection.criticalIndices,
        slot.position = selection.system.length + index := by
    rcases List.mem_append.mp h with hmem | hmem
    · rcases List.mem_append.mp hmem with hmem | hmem
      · obtain ⟨entry, -, rfl⟩ := List.mem_map.mp hmem
        cases hcritical
      · obtain ⟨entry, -, rfl⟩ := List.mem_map.mp hmem
        exact ⟨entry.2, by simpa using hcritical, rfl⟩
    · obtain ⟨message, -, rfl⟩ := List.mem_map.mp hmem
      cases hcritical
  have hindex : ∃ index ∈ selection.criticalIndices,
      slot.position = selection.system.length + index := by
    unfold kept at h
    split_ifs at h
    · obtain ⟨original, hmem, rfl⟩ := List.mem_map.mp h
      exact hslots original hmem hcritical
    · exact hslots slot h hcritical
  obtain ⟨index, hindex, hposition⟩ := hindex
  obtain ⟨⟨id, use⟩, huse, hmem⟩ := List.mem_flatMap.mp hindex
  dsimp only at hmem
  cases hresult : selection.results.get id with
  | none => simp [hresult] at hmem
  | some result =>
      rw [hresult] at hmem
      dsimp only at hmem
      split_ifs at hmem with hkeep
      · refine ⟨id, use, result, huse, hresult, hkeep.1, hkeep.2, ?_⟩
        rw [hposition]
        rcases List.mem_cons.mp hmem with rfl | hmem
        · exact .inl rfl
        · exact .inr (congrArg _ (List.mem_singleton.mp hmem))
      · cases hmem

end FilterSelection

/-- A message is one end of a tool call, and the messages have the other one. -/
def InKeptPair (messages : List (PayloadMessage ρ)) (msg : PayloadMessage ρ) : Prop :=
  ∃ id, (id ∈ msg.toolUses ∧ ∃ other ∈ messages, id ∈ other.toolResults) ∨
    (id ∈ msg.toolResults ∧ ∃ other ∈ messages, id ∈ other.toolUses)

namespace FilterSelection

variable {selection : FilterSelection ρ}

/-- The slot of an end of a tool call both ends of which are kept. -/
theorem exists_standing_end (hgrouped : selection.Grouped) {index : Nat}
    (hkeep : index ∈ selection.keep) (hcritical : index ∈ selection.criticalIndices)
    {msg : PayloadMessage ρ} (hget : selection.history[index]? = some msg) :
    ∃ slot ∈ selection.standing,
      slot.position = selection.system.length + index ∧
        (slot.message = msg ∨ slot.message = msg.stripThinking) := by
  have hlt := (List.getElem?_eq_some_iff.mp hget).1
  obtain ⟨slot, hslot, hposition⟩ :=
    (selection.exists_kept_iff (keep_closed hgrouped).1.within _).mpr
      (.inr (.inl ⟨index, hkeep, rfl⟩))
  have hmarked := selection.critical_of_mem_kept hslot hlt hposition hcritical
  have hstanding : slot ∈ alternate FilterSlot.role FilterSlot.critical selection.kept :=
    mem_alternate_of_critical selection.kept_nodup hslot hmarked
  rw [alternate_eq_standing] at hstanding
  obtain ⟨original, horiginal, hmessage⟩ := selection.message_of_mem_kept hslot
  rw [hposition, body, List.getElem?_append_left (by rw [List.length_append]; omega),
    List.getElem?_append_right (Nat.le_add_right _ _), Nat.add_sub_cancel_left, hget]
    at horiginal
  obtain rfl := Option.some.inj horiginal
  exact ⟨slot, hstanding, hposition, hmessage⟩

theorem inKeptPair_of_critical (hgrouped : selection.Grouped) {slot : FilterSlot ρ}
    (h : slot ∈ selection.kept) (hcritical : slot.critical = true) :
    InKeptPair (selection.standing.map (·.message)) slot.message := by
  obtain ⟨id, use, result, huse, hresult, hkeepUse, hkeepResult, hposition⟩ :=
    critical_ends h hcritical
  obtain ⟨caller, hcaller, hid⟩ := mem_toolMap huse
  obtain ⟨answer, hanswer, hid'⟩ := mem_toolMap (Entries.mem_of_get hresult)
  have hends : use ∈ selection.criticalIndices ∧ result ∈ selection.criticalIndices := by
    constructor <;> refine List.mem_flatMap.mpr ⟨(id, use), huse, ?_⟩ <;>
      simp [hresult, hkeepUse, hkeepResult]
  obtain ⟨callSlot, hcall, hcallAt, hcallMessage⟩ :=
    exists_standing_end hgrouped hkeepUse hends.1 hcaller
  obtain ⟨resultSlot, hres, hresAt, hresMessage⟩ :=
    exists_standing_end hgrouped hkeepResult hends.2 hanswer
  have hcallId : id ∈ callSlot.message.toolUses := by
    rcases hcallMessage with heq | heq <;>
      simpa [heq, PayloadMessage.toolUses_stripThinking] using hid
  have hresId : id ∈ resultSlot.message.toolResults := by
    rcases hresMessage with heq | heq <;>
      simpa [heq, PayloadMessage.toolResults_stripThinking] using hid'
  rcases hposition with heq | heq
  · obtain rfl := selection.eq_of_position ((standing_sublist _ _).subset hcall) h
      (hcallAt.trans heq.symm)
    exact ⟨id, .inl ⟨hcallId, _, List.mem_map_of_mem hres, hresId⟩⟩
  · obtain rfl := selection.eq_of_position ((standing_sublist _ _).subset hres) h
      (hresAt.trans heq.symm)
    exact ⟨id, .inr ⟨hresId, _, List.mem_map_of_mem hcall, hcallId⟩⟩

/-- A recent turn is kept, so that something of the chat is. -/
theorem keep_ne_nil {args : FilterArgs} {messages : List (PayloadMessage ρ)}
    (hselect : selectMessages args messages = some selection)
    (hrecent : 0 < args.recentLimit) : selection.keep ≠ [] := by
  have hfrom := selectedFrom hselect
  have hchains : selection.chains ≠ [] := by
    intro hnil
    obtain ⟨-, hselect⟩ := Option.ite_none_left_eq_some.mp hselect
    obtain ⟨-, hselect⟩ := Option.ite_none_left_eq_some.mp hselect
    obtain ⟨hmore, -⟩ := Option.ite_none_left_eq_some.mp hselect
    change ¬((bodyChains args messages).length ≤
      min args.recentLimit (bodyChains args messages).length ∨ _) at hmore
    rw [← hfrom.chains, hnil] at hmore
    exact hmore (.inl (le_min hrecent.le le_rfl))
  obtain ⟨chain, hlast⟩ : ∃ chain, chain ∈
      selection.chains.drop (selection.chains.length - args.recentLimit.toNat) := by
    have hpos := List.length_pos_of_ne_nil hchains
    refine List.exists_mem_of_length_pos ?_
    rw [List.length_drop]
    omega
  have hmem := hfrom.recent hlast
  have hchain := hfrom.grouped.kept hmem
  rw [hfrom.chains, bodyChains] at hchain
  obtain ⟨index, hindex⟩ := groupChains_nonempty hchain
  exact List.ne_nil_of_mem (keep_of_keptChains hfrom.grouped hmem hindex)

end FilterSelection

/--
Where the filter changes a body that begins with a user message, what it sends
begins with one, and neighbours of one role are ends of tool calls that are sent.
-/
theorem filtered_body_alternates (args : FilterArgs) (messages : List (PayloadMessage ρ))
    (hfirst : ∀ msg ∈ messages.find? (·.role ≠ some "system"), msg.role = some "user")
    (hmodified : (filterBodyMessages args messages).1 ≠ messages) :
    let sent := (filterBodyMessages args messages).1
    (∀ msg ∈ sent.find? (·.role ≠ some "system"), msg.role = some "user") ∧
      (0 < args.recentLimit → ∃ msg ∈ sent, msg.role ≠ some "system") ∧
      sent.IsChain fun msg next => msg.role = next.role → msg.role ≠ none →
        InKeptPair sent msg ∧ InKeptPair sent next := by
  unfold filterBodyMessages at hmodified ⊢
  cases hfiltered : filteredSlots args messages with
  | none => rw [hfiltered] at hmodified; exact absurd rfl hmodified
  | some selection =>
      obtain ⟨hselect, -⟩ := filteredSlots_eq_some.mp hfiltered
      have hfrom := selectedFrom hselect
      have hgrouped := hfrom.grouped
      have hbody := selection.body_eq_of_selectedFrom hfrom
      dsimp only
      rw [selection.alternating_eq_standing]
      have hsystem : ∀ msg ∈ selection.system, msg.role = some "system" := by
        intro msg hmsg
        rw [hfrom.system] at hmsg
        simpa using List.mem_takeWhile_imp hmsg
      have hcurrent : ∀ msg ∈ selection.current, msg.role = some "user" := by
        intro msg hmsg
        rw [hfrom.current] at hmsg
        simpa using (Option.filter_eq_some_iff.mp hmsg).2
      have hhistory : ∀ msg ∈ selection.history.head?, msg.role = some "user" := by
        intro msg hmsg
        refine hfirst msg ?_
        obtain ⟨rest, hrest⟩ := List.head?_eq_some_iff.mp hmsg
        have hsplit := (List.takeWhile_append_dropWhile
          (p := fun msg : PayloadMessage ρ => decide (msg.role = some "system"))
          (l := messages)).trans hbody.symm
        rw [FilterSelection.body, List.append_assoc, hfrom.system, hrest] at hsplit
        have hnot := List.head?_dropWhile_not
          (fun msg : PayloadMessage ρ => decide (msg.role = some "system")) messages
        rw [List.append_cancel_left hsplit] at hnot
        rw [← hbody, FilterSelection.body, hrest, List.append_assoc, List.find?_append,
          List.find?_eq_none.mpr fun msg hmsg => by simp [hsystem msg hmsg], Option.none_or]
        exact List.find?_cons_of_pos (by simpa using hnot)
      obtain ⟨before, after, hkept, hbefore, hafter, hsome⟩ :=
        FilterSelection.kept_parts hgrouped hsystem hcurrent hhistory
      have hhead := FilterSelection.role_of_first_standing hkept hbefore hafter
      have hfind : (selection.standing.map (·.message)).find? (·.role ≠ some "system") =
          (selection.standing.find? (·.role ≠ some "system")).map (·.message) :=
        List.find?_map
      refine ⟨fun msg hmsg => ?_, fun hrecent => ?_, ?_⟩
      · rw [hfind] at hmsg
        obtain ⟨slot, hslot, rfl⟩ := Option.map_eq_some_iff.mp hmsg
        rw [hslot] at hhead
        obtain ⟨first, hfirst, hrole⟩ := Option.map_eq_some_iff.mp hhead.symm
        exact hrole.symm.trans (hafter first hfirst)
      · have hkeep := hsome (FilterSelection.keep_ne_nil hselect hrecent)
        obtain ⟨first, rest, rfl⟩ := List.exists_cons_of_ne_nil hkeep
        obtain ⟨slot, hslot, -⟩ := Option.map_eq_some_iff.mp hhead
        have hrole : slot.role ≠ some "system" := by simpa using List.find?_some hslot
        exact ⟨slot.message, List.mem_map_of_mem (List.mem_of_find?_eq_some hslot), hrole⟩
      · have hchain : selection.alternating.IsChain
            (MayFollow FilterSlot.role FilterSlot.critical) := alternate_isChain _
        rw [selection.alternating_eq_standing] at hchain
        rw [List.isChain_map]
        refine List.IsChain.imp_of_mem_imp ?_ hchain
        intro slot next hslot hnext hfollow hsame hrole
        have hmem : ∀ slot ∈ selection.standing, slot ∈ selection.kept :=
          fun slot h => (standing_sublist _ _).subset h
        obtain ⟨hcritical, hcritical'⟩ := hfollow hsame hrole
        exact ⟨FilterSelection.inKeptPair_of_critical hgrouped (hmem _ hslot) hcritical,
          FilterSelection.inKeptPair_of_critical hgrouped (hmem _ hnext) hcritical'⟩

/-- The first turn is dropped from a body whose second turn is recent. -/
theorem filtered_body_alternates_plainTurns :
    ((filterBodyMessages (pagedArgs .openai) plainTurns).1.find?
        (·.role ≠ some "system")).all (·.role = some "user") = true ∧
      ∃ msg ∈ (filterBodyMessages (pagedArgs .openai) plainTurns).1,
        msg.role ≠ some "system" := by
  have h := filtered_body_alternates (pagedArgs .openai) plainTurns (by decide +kernel)
    (by decide +kernel)
  refine ⟨?_, h.2.1 (by decide)⟩
  rw [Option.all_eq_true]
  exact fun msg hmsg => decide_eq_true (h.1 msg hmsg)

end VirtualContext
