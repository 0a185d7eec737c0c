import Mathlib.Data.List.Pairwise
import Mathlib.Tactic.ByContra
import VirtualContext.Proxy.MessageFilter

/-!
# What the filter selects

The chains of a history do not overlap, and the messages that are kept include
the unpaired ones and the chains that were chosen, whole chains only, with both
ends of each tool call or neither.
-/

namespace VirtualContext

open VirtualContext.Library

variable {ρ : Type}

/-! ## Chains -/

/-- Chains of indices below a bound, each before the next. -/
structure Ordered (start stop : Nat) (chains : List (List Nat)) : Prop where
  within : ∀ chain ∈ chains, ∀ index ∈ chain, start ≤ index ∧ index < stop
  apart : chains.Pairwise fun chain later => ∀ i ∈ chain, ∀ j ∈ later, i < j

theorem toolRounds_le (assistantRole : String) (fuel : Nat)
    (messages : List (PayloadMessage ρ)) :
    toolRounds assistantRole fuel messages ≤ messages.length := by
  induction fuel generalizing messages with
  | zero => exact Nat.zero_le _
  | succ fuel ih =>
      unfold toolRounds
      dsimp only
      generalize (if (messages.takeWhile (·.role = some "tool")).length = 0 then
        (messages.takeWhile (·.isBareToolItem)).length
        else (messages.takeWhile (·.role = some "tool")).length) = size
      split_ifs with hshort hsize hanswer
      · exact Nat.zero_le _
      · exact Nat.zero_le _
      · obtain ⟨answer, hget, -⟩ := (Option.any_eq_true _ _).mp hanswer
        have hlt := (List.getElem?_eq_some_iff.mp hget).1
        have hrest := ih (messages.drop (size + 1))
        rw [List.length_drop] at hrest
        omega
      · exact Nat.zero_le _

theorem groupChains_ordered (assistantRole : String) (fuel index : Nat)
    (messages : List (PayloadMessage ρ)) :
    Ordered index (index + messages.length)
      (groupChains assistantRole fuel index messages) := by
  induction fuel generalizing index messages with
  | zero => exact ⟨by simp [groupChains], List.Pairwise.nil⟩
  | succ fuel ih =>
      match messages with
      | [] => exact ⟨by simp [groupChains], List.Pairwise.nil⟩
      | [_] => exact ⟨by simp [groupChains], List.Pairwise.nil⟩
      | user :: answer :: messages =>
          rw [groupChains]
          split_ifs
          · have hle := toolRounds_le assistantRole messages.length messages
            generalize toolRounds assistantRole messages.length messages = rounds at hle
            have hrest := ih (index + (2 + rounds)) (messages.drop rounds)
            rw [List.length_drop] at hrest
            refine ⟨?_, List.Pairwise.cons ?_ hrest.apart⟩
            · intro chain hchain i hi
              rcases List.mem_cons.mp hchain with rfl | hmem
              · obtain ⟨hlow, hhigh⟩ := List.mem_range'_1.mp hi
                simp only [List.length_cons]
                omega
              · have hbounds := hrest.within chain hmem i hi
                simp only [List.length_cons]
                omega
            · intro chain hchain i hi j hj
              have hbounds := hrest.within chain hchain j hj
              have hrange := List.mem_range'_1.mp hi
              omega
          · have hrest := ih (index + 1) (answer :: messages)
            refine ⟨fun chain hchain i hi => ?_, hrest.apart⟩
            have hbounds := hrest.within chain hchain i hi
            simp only [List.length_cons] at hbounds ⊢
            omega

theorem groupChains_nonempty {assistantRole : String} {fuel index : Nat}
    {messages : List (PayloadMessage ρ)} {chain : List Nat}
    (h : chain ∈ groupChains assistantRole fuel index messages) : ∃ i, i ∈ chain := by
  induction fuel generalizing index messages with
  | zero => cases h
  | succ fuel ih =>
      cases messages with
      | nil => cases h
      | cons user messages =>
          cases messages with
          | nil => cases h
          | cons answer messages =>
              rw [groupChains] at h
              split_ifs at h
              · rcases List.mem_cons.mp h with rfl | hrest
                · exact ⟨index, List.mem_range'_1.mpr ⟨Nat.le_refl _, by omega⟩⟩
                · exact ih hrest
              · exact ih h

/-- An index is in one chain at most. -/
theorem Ordered.chain_eq {start stop : Nat} {chains : List (List Nat)}
    (h : Ordered start stop chains) {chain other : List Nat} (hchain : chain ∈ chains)
    (hother : other ∈ chains) {index : Nat} (hindex : index ∈ chain)
    (hindex' : index ∈ other) : chain = other := by
  by_contra hne
  have hsymm : Std.Symm fun chain later : List Nat => ∀ i ∈ chain, ∀ j ∈ later, i ≠ j :=
    ⟨fun _ _ hdiff i hi j hj => (hdiff j hj i hi).symm⟩
  have hapart := h.apart.imp (S := fun chain later => ∀ i ∈ chain, ∀ j ∈ later, i ≠ j)
    fun hlt i hi j hj => (hlt i hi j hj).ne
  exact hapart.forall hchain hother hne index hindex index hindex' rfl

theorem mem_chainPeers {start stop : Nat} {chains : List (List Nat)}
    (h : Ordered start stop chains) {chain : List Nat} (hchain : chain ∈ chains)
    {index : Nat} (hindex : index ∈ chain) {peer : Nat} :
    peer ∈ chainPeers chains index ↔ peer ∈ chain ∧ peer ≠ index := by
  have hfind : (chains.reverse.find? (index ∈ ·)) = some chain := by
    cases hfound : chains.reverse.find? (index ∈ ·) with
    | none =>
        have hnone := List.find?_eq_none.mp hfound chain (List.mem_reverse.mpr hchain)
        simp [hindex] at hnone
    | some other =>
        have hother := List.mem_reverse.mp (List.mem_of_find?_eq_some hfound)
        have hmem : index ∈ other := by simpa using List.find?_some hfound
        rw [h.chain_eq hother hchain hmem hindex]
  simp [chainPeers, hfind]

theorem chainPeers_subset {chains : List (List Nat)} {stop : Nat}
    (h : Ordered 0 stop chains) (index : Nat) : chainPeers chains index ⊆ List.range stop := by
  intro peer hpeer
  obtain ⟨hmem, -⟩ := List.mem_filter.mp hpeer
  cases hfound : chains.reverse.find? (index ∈ ·) with
  | none => simp [hfound] at hmem
  | some chain =>
      rw [hfound, Option.getD_some] at hmem
      have hchain := List.mem_reverse.mp (List.mem_of_find?_eq_some hfound)
      exact List.mem_range.mpr (h.within chain hchain peer hmem).2

/-! ## Tool identifiers -/

theorem mem_toolMap {ids : PayloadMessage ρ → List String}
    {history : List (PayloadMessage ρ)} {id : String} {index : Nat}
    (h : (id, index) ∈ toolMap ids history) :
    ∃ msg, history[index]? = some msg ∧ id ∈ ids msg := by
  rcases Entries.mem_setAll h with hmem | hmem
  · obtain ⟨⟨msg, i⟩, hentry, hid⟩ := List.mem_flatMap.mp hmem
    obtain ⟨other, hother, heq⟩ := List.mem_map.mp hid
    obtain ⟨rfl, rfl⟩ := Prod.mk.inj heq
    exact ⟨msg, List.mem_zipIdx_iff_getElem?.mp hentry, hother⟩
  · cases hmem

theorem lt_of_mem_toolMap {ids : PayloadMessage ρ → List String}
    {history : List (PayloadMessage ρ)} {entry : String × Nat}
    (h : entry ∈ toolMap ids history) : entry.2 ∈ List.range history.length := by
  obtain ⟨msg, hget, -⟩ := mem_toolMap h
  exact List.mem_range.mpr (List.getElem?_eq_some_iff.mp hget).1

/-- An identifier of one message only is mapped to it. -/
theorem get_toolMap {ids : PayloadMessage ρ → List String}
    {history : List (PayloadMessage ρ)} {id : String} {index : Nat}
    {msg : PayloadMessage ρ} (hget : history[index]? = some msg) (hid : id ∈ ids msg)
    (hone : ∀ i other, history[i]? = some other → id ∈ ids other → i = index) :
    (toolMap ids history).get id = some index := by
  refine Entries.get_setAll ?_ ?_
  · exact List.mem_flatMap.mpr ⟨(msg, index), List.mem_zipIdx_iff_getElem?.mpr hget,
      List.mem_map.mpr ⟨id, hid, rfl⟩⟩
  · rintro ⟨other, i⟩ hpair rfl
    obtain ⟨⟨found, j⟩, hentry, hmem⟩ := List.mem_flatMap.mp hpair
    obtain ⟨_, hother, heq⟩ := List.mem_map.mp hmem
    obtain ⟨rfl, rfl⟩ := Prod.mk.inj heq
    exact hone j found (List.mem_zipIdx_iff_getElem?.mp hentry) hother

/-! ## What is kept -/

namespace FilterSelection

/-- The chains of a selection are those of its history, and the kept ones are of them. -/
structure Grouped (selection : FilterSelection ρ) : Prop where
  ordered : Ordered 0 selection.history.length selection.chains
  kept : selection.keptChains ⊆ selection.chains

/-- Whole chains, and both ends of a tool call or neither. -/
structure Closed (selection : FilterSelection ρ) (keep : List Nat) : Prop where
  nodup : keep.Nodup
  within : keep ⊆ List.range selection.history.length
  pairs : ∀ use ∈ selection.uses, ∀ result, selection.results.get use.1 = some result →
    (use.2 ∈ keep ↔ result ∈ keep)
  peers : ∀ index ∈ keep, chainPeers selection.chains index ⊆ keep

variable {selection : FilterSelection ρ}

section

variable (hgrouped : selection.Grouped)

theorem keepPair_adds {use : String × Nat} (huse : use ∈ selection.uses) :
    Adds (List.range selection.history.length) (keepPair selection.results · use) := by
  unfold keepPair
  cases hresult : selection.results.get use.1 with
  | none => exact .id
  | some result =>
      have hin := lt_of_mem_toolMap (Entries.mem_of_get hresult)
      have huses := (Adds.addNew (lt_of_mem_toolMap huse)).ite (c := fun keep => result ∈ keep)
      have hresults := (Adds.addNew hin).ite (c := fun keep => use.2 ∈ keep)
      exact huses.comp hresults

include hgrouped in
theorem keepPeers_adds (index : Nat) :
    Adds (List.range selection.history.length) (keepPeers selection.chains · index) :=
  .addAll (chainPeers_subset hgrouped.ordered index)

include hgrouped in
theorem integrityPass_adds : Adds (List.range selection.history.length)
    (integrityPass selection.uses selection.results selection.chains) := by
  have hpeers := Adds.foldl_self (keepPeers_adds hgrouped)
  have hpairs := Adds.foldl selection.uses fun _ huse => keepPair_adds huse
  exact hpeers.comp hpairs

theorem keepPair_fixed {keep : List Nat} {use : String × Nat} {result : Nat}
    (hresult : selection.results.get use.1 = some result)
    (hfixed : keepPair selection.results keep use = keep) :
    use.2 ∈ keep ↔ result ∈ keep := by
  simp only [keepPair, hresult] at hfixed
  constructor
  · intro huse
    rw [if_pos huse, if_pos (mem_addNew.mpr (.inr rfl))] at hfixed
    rw [← hfixed]
    exact (prefix_addNew _ _).subset (mem_addNew.mpr (.inr rfl))
  · intro hmem
    have hstill : result ∈ (if use.2 ∈ keep then addNew keep result else keep) := by
      split_ifs
      · exact mem_addNew.mpr (.inr rfl)
      · exact hmem
    rw [if_pos hstill] at hfixed
    rw [← hfixed]
    exact mem_addNew.mpr (.inr rfl)

include hgrouped in
/-- Where a pass adds nothing, the kept messages are closed. -/
theorem closed_of_pass {keep : List Nat} (hnodup : keep.Nodup)
    (hwithin : keep ⊆ List.range selection.history.length)
    (hfixed : integrityPass selection.uses selection.results selection.chains keep = keep) :
    selection.Closed keep := by
  have hpairs := Adds.foldl selection.uses fun _ huse => keepPair_adds huse
  have hpeers := Adds.foldl_self (keepPeers_adds hgrouped)
  have hfirst : selection.uses.foldl (keepPair selection.results) keep = keep := by
    have hgrow := hpairs.grows keep
    have hrest := hpeers.grows (selection.uses.foldl (keepPair selection.results) keep)
    rw [show (selection.uses.foldl (keepPair selection.results) keep).foldl
      (keepPeers selection.chains) (selection.uses.foldl (keepPair selection.results) keep)
        = keep from hfixed] at hrest
    exact (hgrow.eq_of_length (Nat.le_antisymm hgrow.length_le hrest.length_le)).symm
  have hsecond : keep.foldl (keepPeers selection.chains) keep = keep := by
    rw [integrityPass, hfirst] at hfixed
    exact hfixed
  refine ⟨hnodup, hwithin, fun use huse result hresult => ?_, fun index hindex peer hpeer => ?_⟩
  · exact keepPair_fixed hresult
      (step_eq_of_foldl_eq (fun _ huse => keepPair_adds huse) hfirst huse)
  · have hstep := step_eq_of_foldl_eq (fun index _ => keepPeers_adds hgrouped index)
      hsecond hindex
    rw [← hstep]
    exact mem_addAll.mpr (.inr hpeer)

include hgrouped in
theorem close_closed {keep : List Nat} (hnodup : keep.Nodup)
    (hwithin : keep ⊆ List.range selection.history.length) :
    selection.Closed (selection.close keep) ∧ keep ⊆ selection.close keep := by
  have hadds := integrityPass_adds hgrouped
  refine ⟨closed_of_pass hgrouped (nodup_saturate hadds _ hnodup)
    (saturate_within hadds _ hwithin) ?_, subset_saturate hadds _ _⟩
  refine pass_saturate hadds hnodup hwithin ?_
  rw [List.length_range]
  omega

/-! ### The backfill -/

include hgrouped in
theorem backfill_adds (indices keep : List Nat) (changed : Bool)
    (hindices : indices ⊆ List.range selection.history.length) :
    keep <+: (backfill selection.history selection.chains indices keep changed).1 ∧
      (keep.Nodup →
        (backfill selection.history selection.chains indices keep changed).1.Nodup) ∧
      (keep ⊆ List.range selection.history.length →
        (backfill selection.history selection.chains indices keep changed).1 ⊆
          List.range selection.history.length) := by
  induction indices generalizing keep changed with
  | nil => exact ⟨List.prefix_refl keep, fun h => h, fun h => h⟩
  | cons index indices ih =>
      rw [backfill]
      split_ifs
      · exact ⟨List.prefix_refl keep, fun h => h, fun h => h⟩
      · have hindex := List.mem_range.mp (hindices List.mem_cons_self)
        have hfill : List.range (index + 1) ⊆ List.range selection.history.length := by
          intro i hi
          rw [List.mem_range] at hi ⊢
          omega
        have hturn : Adds (List.range selection.history.length) fun keep =>
            (List.range (index + 1)).foldl (keepPeers selection.chains)
              (addAll keep (List.range (index + 1))) :=
          .comp (.foldl _ fun i _ => keepPeers_adds hgrouped i) (.addAll hfill)
        obtain ⟨hgrow, hnodup, hwithin⟩ := ih (backfillTo selection.chains keep changed index).1
          (backfillTo selection.chains keep changed index).2
          (List.Subset.trans (List.subset_cons_self _ _) hindices)
        exact ⟨(hturn.grows keep).trans hgrow, fun h => hnodup (hturn.nodup keep h),
          fun h => hwithin (hturn.within keep h)⟩

theorem backfill_changed (history : List (PayloadMessage ρ)) (chains : List (List Nat))
    (indices keep : List Nat) :
    (backfill history chains indices keep true).2 = true := by
  induction indices generalizing keep with
  | nil => rfl
  | cons index indices ih =>
      rw [backfill]
      split_ifs
      · rfl
      · exact ih _

/-- A backfill that added nothing left a closed set as it was. -/
theorem backfill_unchanged {keep : List Nat} (hclosed : selection.Closed keep)
    (indices : List Nat)
    (h : (backfill selection.history selection.chains indices keep false).2 = false) :
    (backfill selection.history selection.chains indices keep false).1 = keep := by
  induction indices with
  | nil => rfl
  | cons index indices ih =>
      rw [backfill] at h ⊢
      split_ifs at h ⊢
      · rfl
      · by_cases hfilled : addAll keep (List.range (index + 1)) = keep
        · have hpeers : (List.range (index + 1)).foldl (keepPeers selection.chains) keep =
              keep := by
            refine List.foldlRecOn (motive := (· = keep)) _ _ rfl fun current hcurrent i hi => ?_
            have hmem : i ∈ keep := hfilled ▸ mem_addAll.mpr (.inr hi)
            subst hcurrent
            refine List.foldlRecOn (motive := (· = current)) _ _ rfl fun set hset peer hpeer => ?_
            rw [hset]
            exact addNew_eq_self (hclosed.peers i hmem hpeer)
          simp only [backfillTo, hfilled, hpeers, ne_eq, not_true_eq_false, decide_false,
            Bool.or_false] at h ⊢
          exact ih h
        · simp only [backfillTo, hfilled, ne_eq, not_false_eq_true, decide_true,
            Bool.or_true] at h
          rw [backfill_changed] at h
          cases h

/-! ### The kept messages -/

theorem initialKeep_nodup : selection.initialKeep.Nodup := by
  have hadd (set new : List Nat) (h : set.Nodup) : (addAll set new).Nodup :=
    (Adds.addAll (List.Subset.refl new)).nodup set h
  exact hadd _ _ (hadd _ _ List.nodup_nil)

include hgrouped in
theorem initialKeep_within :
    selection.initialKeep ⊆ List.range selection.history.length := by
  intro index hindex
  rcases mem_addAll.mp hindex with hunpaired | hchain
  · rcases mem_addAll.mp hunpaired with hnil | hmem
    · cases hnil
    · exact (List.mem_filter.mp hmem).1
  · obtain ⟨chain, hkept, hmem⟩ := List.mem_flatten.mp hchain
    exact List.mem_range.mpr (hgrouped.ordered.within chain (hgrouped.kept hkept) index hmem).2

include hgrouped in
/-- What is kept is closed, and includes what was chosen. -/
theorem keep_closed :
    selection.Closed selection.keep ∧ selection.initialKeep ⊆ selection.keep := by
  obtain ⟨hclosed, hsub⟩ := close_closed hgrouped initialKeep_nodup
    (initialKeep_within hgrouped)
  have hsorted : (List.range selection.history.length).filter
      (· ∈ selection.close selection.initialKeep) ⊆
        List.range selection.history.length :=
    fun index hindex => (List.mem_filter.mp hindex).1
  obtain ⟨hgrow, hnodup, hwithin⟩ := backfill_adds hgrouped _
    (selection.close selection.initialKeep) false hsorted
  unfold keep
  dsimp only
  split_ifs with hchanged
  · obtain ⟨hagain, hmore⟩ := close_closed hgrouped (hnodup hclosed.nodup)
      (hwithin hclosed.within)
    exact ⟨hagain, List.Subset.trans hsub (List.Subset.trans hgrow.subset hmore)⟩
  · rw [backfill_unchanged hclosed _ (by simpa using hchanged)]
    exact ⟨hclosed, hsub⟩

include hgrouped in
/-- A chain is kept whole or not at all. -/
theorem keep_chain {chain : List Nat} (hchain : chain ∈ selection.chains) {i j : Nat}
    (hi : i ∈ chain) (hj : j ∈ chain) (h : i ∈ selection.keep) : j ∈ selection.keep := by
  by_cases heq : j = i
  · exact heq ▸ h
  · exact (keep_closed hgrouped).1.peers i h
      ((mem_chainPeers hgrouped.ordered hchain hi).mpr ⟨hj, heq⟩)

include hgrouped in
theorem keep_of_keptChains {chain : List Nat} (hchain : chain ∈ selection.keptChains)
    {index : Nat} (hindex : index ∈ chain) : index ∈ selection.keep :=
  (keep_closed hgrouped).2 (mem_addAll.mpr (.inr (List.mem_flatten.mpr ⟨chain, hchain, hindex⟩)))

end

end FilterSelection

end VirtualContext
