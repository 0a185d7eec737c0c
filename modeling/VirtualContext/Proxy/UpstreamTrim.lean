import Mathlib.Algebra.Order.BigOperators.Group.List
import Mathlib.Algebra.Order.Ring.Nat
import VirtualContext.Library.Orphans
import VirtualContext.Library.Runs
import VirtualContext.Proxy.FilterGuarantees

/-!
# Trimming to the limit upstream

The oldest turns are left out until the messages fit.  The system messages and
the last two turns are kept, and older turns from the newest on as far as they
fit; then messages go that have lost the other end of a tool call.
-/

namespace VirtualContext

open VirtualContext.Library

variable {ρ : Type}

/-! ## Bodies -/

/-- A message with what tells its turn. -/
structure TrimMessage (ρ : Type) where
  message : PayloadMessage ρ
  /-- For each dict in `parts`, whether it is a function response. -/
  responseParts : List Bool := []
  deriving DecidableEq, Repr

/-- An item of the message list, which may be no dict. -/
inductive TrimItem (ρ : Type) where
  | message (message : TrimMessage ρ)
  | other (value : ρ)
  deriving DecidableEq, Repr

def TrimMessage.isRealUser (fmt : ApiFormat) (msg : TrimMessage ρ) : Bool :=
  msg.message.role = some "user" &&
    match fmt with
    | .anthropic =>
        !msg.message.elements.any fun element =>
          match element with
          | .block block => block.type = some "tool_result"
          | .other _ => false
    | .gemini => !(!msg.responseParts.isEmpty && msg.responseParts.all id)
    | .openai | .openaiResponses => true

namespace TrimItem

def isMessage : TrimItem ρ → Bool
  | message _ => true
  | other _ => false

def isRealUser (fmt : ApiFormat) : TrimItem ρ → Bool
  | message msg => msg.isRealUser fmt
  | other _ => false

def isSystem : TrimItem ρ → Bool
  | message msg => msg.message.role = some "system"
  | other _ => false

def toolUses : TrimItem ρ → List String
  | message msg => msg.message.toolUses
  | other _ => []

def toolResults : TrimItem ρ → List String
  | message msg => msg.message.toolResults
  | other _ => []

end TrimItem

/-- An item with its index in the body. -/
abbrev PlacedItem (ρ : Type) := TrimItem ρ × Nat

/-- The turns of a body; only the Responses API passes over what is no dict. -/
def trimGroups (fmt : ApiFormat) (items : List (TrimItem ρ)) :
    Option (List (List (PlacedItem ρ))) :=
  if fmt ≠ .openaiResponses ∧ !items.all (·.isMessage) then none
  else
    some (groupRuns (·.1.isRealUser fmt) (items.zipIdx.filter (·.1.isMessage)))

/-! ## The trim -/

/-- The token estimates of a format. -/
structure TrimEnv (ρ : Type) where
  payloadTokens : List (TrimItem ρ) → Nat
  /-- System and tools. -/
  fixedTokens : List (TrimItem ρ) → Nat
  messageTokens : TrimItem ρ → Nat

def TrimEnv.cost (env : TrimEnv ρ) (entries : List (PlacedItem ρ)) : Nat :=
  (entries.map fun entry => env.messageTokens entry.1).sum

/-- The walk over the groups from the newest on; those that fit, oldest first. -/
def fillBudget {γ : Type} (cost : γ → Nat) (available : Int) : Nat → List γ → List γ
  | _, [] => []
  | used, group :: older =>
      if ((used + cost group : Nat) : Int) ≤ available then
        fillBudget cost available (used + cost group) older ++ [group]
      else fillBudget cost available used older

/-- The parts that a body is trimmed by. -/
structure TrimParts (ρ : Type) where
  system : List (List (PlacedItem ρ))
  turns : List (List (PlacedItem ρ))
  /-- The items that are in no turn. -/
  trailing : List (PlacedItem ρ)

def trimParts (items : List (TrimItem ρ)) (groups : List (List (PlacedItem ρ))) :
    TrimParts ρ where
  system := groups.takeWhile (·.all (·.1.isSystem))
  turns := groups.dropWhile (·.all (·.1.isSystem))
  trailing := items.zipIdx.filter fun entry => entry.2 ∉ groups.flatten.map (·.2)

/-- `[m for idx, m in enumerate(original_messages) if idx in keep_indices]` -/
def keepItems (items : List (TrimItem ρ)) (kept : List (PlacedItem ρ)) : List (PlacedItem ρ) :=
  items.zipIdx.filter fun entry => entry.2 ∈ kept.map (·.2)

namespace TrimParts

variable (parts : TrimParts ρ)

def protectedCount : Nat := min 2 parts.turns.length

def trimmable : List (List (PlacedItem ρ)) :=
  parts.turns.take (parts.turns.length - parts.protectedCount)

def protectedTurns : List (List (PlacedItem ρ)) :=
  parts.turns.drop (parts.turns.length - parts.protectedCount)

/-- What is kept when only the given older turns are. -/
def keeping (items : List (TrimItem ρ)) (older : List (List (PlacedItem ρ))) :
    List (PlacedItem ρ) :=
  keepItems items
    ((parts.system ++ older ++ parts.protectedTurns).flatten ++ parts.trailing)

/-- The older turns that fit beside what is kept in any case. -/
def fitting (env : TrimEnv ρ) (available : Int) : List (List (PlacedItem ρ)) :=
  fillBudget env.cost available
    (env.cost parts.trailing + env.cost parts.system.flatten +
      env.cost parts.protectedTurns.flatten)
    parts.trimmable.reverse

end TrimParts

/-- `_cleanup_orphaned_tools`, which fails on what is no dict. -/
def cleanupOrphanedTools (entries : List (PlacedItem ρ)) : Option (List (PlacedItem ρ)) :=
  if entries.all (·.1.isMessage) then
    some (dropOrphansRounds (·.1.toolUses) (·.1.toolResults) 3 entries)
  else none

/-- The kept items with their indices, and the number of turns removed. -/
def trimPlaced (env : TrimEnv ρ) (fmt : ApiFormat) (limit : Int)
    (items : List (TrimItem ρ)) : Option (List (PlacedItem ρ) × Nat) :=
  if env.payloadTokens items ≤ limit ∨ items = [] then some (items.zipIdx, 0)
  else
    (trimGroups fmt items).bind fun groups =>
      let parts := trimParts items groups
      if parts.turns.length ≤ 2 ∧ parts.trailing = [] then some (items.zipIdx, 0)
      else
        let available := limit - env.fixedTokens items
        if available ≤ 0 then some (parts.keeping items [], parts.trimmable.length)
        else
          let kept := parts.fitting env available
          let removed := parts.trimmable.length - kept.length
          if removed = 0 then some (items.zipIdx, 0)
          else
            (cleanupOrphanedTools (parts.keeping items kept)).map fun entries =>
              (entries, removed)

def trimToUpstreamLimit (env : TrimEnv ρ) (fmt : ApiFormat) (limit : Int)
    (items : List (TrimItem ρ)) : Option (List (TrimItem ρ) × Nat) :=
  (trimPlaced env fmt limit items).map fun trimmed => (trimmed.1.map (·.1), trimmed.2)

/-! ## The parts -/

section

variable {fmt : ApiFormat} {items : List (TrimItem ρ)} {groups : List (List (PlacedItem ρ))}

/-- The turns are disjoint lists of items of the body. -/
structure DisjointTurns (items : List (TrimItem ρ)) (groups : List (List (PlacedItem ρ))) : Prop where
  sublist : groups.flatten.Sublist items.zipIdx
  nonempty : ∀ group ∈ groups, group ≠ []

theorem trimGroups_disjoint (h : trimGroups fmt items = some groups) :
    DisjointTurns items groups := by
  obtain ⟨-, h⟩ := Option.ite_none_left_eq_some.mp h
  obtain rfl := Option.some.inj h
  constructor
  · rw [flatten_groupRuns]
    exact List.filter_sublist
  · intro group hgroup
    obtain ⟨first, rest, rfl, -⟩ := (groupRuns_isRuns _).inner group hgroup
    exact List.cons_ne_nil first rest

theorem zipIdx_nodup (items : List (TrimItem ρ)) : items.zipIdx.Nodup := by
  refine List.Nodup.of_map Prod.snd ?_
  rw [List.zipIdx_map_snd]
  exact List.nodup_range'

theorem eq_of_mem_zipIdx {entry other : PlacedItem ρ} (h : entry ∈ items.zipIdx)
    (hother : other ∈ items.zipIdx) (heq : entry.2 = other.2) : entry = other := by
  have hget := List.mem_zipIdx_iff_getElem?.mp h
  have hget' := List.mem_zipIdx_iff_getElem?.mp hother
  rw [heq, hget'] at hget
  exact Prod.ext (Option.some.inj hget).symm heq

theorem mem_keepItems {kept : List (PlacedItem ρ)} (h : kept ⊆ items.zipIdx)
    {entry : PlacedItem ρ} : entry ∈ keepItems items kept ↔ entry ∈ kept := by
  rw [keepItems, List.mem_filter, decide_eq_true_eq]
  constructor
  · rintro ⟨hentry, hmem⟩
    obtain ⟨other, hother, heq⟩ := List.mem_map.mp hmem
    rwa [← eq_of_mem_zipIdx (h hother) hentry heq]
  · exact fun hentry => ⟨h hentry, List.mem_map_of_mem hentry⟩

/-- The kept items cost no more than the groups they come from. -/
theorem cost_keepItems_le (env : TrimEnv ρ) {kept : List (PlacedItem ρ)}
    (h : kept ⊆ items.zipIdx) : env.cost (keepItems items kept) ≤ env.cost kept := by
  have hnodup : (keepItems items kept).Nodup := (zipIdx_nodup items).filter _
  have hsub := hnodup.subperm fun entry hentry => (mem_keepItems h).mp hentry
  obtain ⟨other, hperm, hother⟩ := hsub
  rw [TrimEnv.cost, TrimEnv.cost, ← (hperm.map _).sum_eq]
  exact (hother.map _).sum_le_sum fun _ _ => Nat.zero_le _

theorem parts_append (items : List (TrimItem ρ)) (groups : List (List (PlacedItem ρ))) :
    (trimParts items groups).system ++ (trimParts items groups).trimmable ++
      (trimParts items groups).protectedTurns = groups := by
  rw [List.append_assoc, TrimParts.trimmable, TrimParts.protectedTurns,
    List.take_append_drop]
  exact List.takeWhile_append_dropWhile

theorem fillBudget_sublist {γ : Type} (cost : γ → Nat) (available : Int) (used : Nat)
    (newest : List γ) : (fillBudget cost available used newest).Sublist newest.reverse := by
  induction newest generalizing used with
  | nil => exact List.Sublist.refl _
  | cons group older ih =>
      rw [fillBudget, List.reverse_cons]
      split_ifs
      · exact (ih _).append (List.Sublist.refl _)
      · exact (ih _).trans (List.sublist_append_left _ _)

/-- Where a group fits, all that fit stay within what is available. -/
theorem fillBudget_cost {γ : Type} (cost : γ → Nat) (available : Int) (used : Nat)
    (newest : List γ) :
    fillBudget cost available used newest = [] ∨
      (used : Int) + (((fillBudget cost available used newest).map cost).sum : Nat) ≤
        available := by
  induction newest generalizing used with
  | nil => exact .inl rfl
  | cons group older ih =>
      rw [fillBudget]
      split_ifs with hfits
      · right
        rw [List.map_append, List.sum_append, List.map_singleton, List.sum_singleton]
        rcases ih (used + cost group) with hnone | hle
        · rw [hnone]
          simpa using hfits
        · omega
      · exact ih used

namespace TrimParts

variable {parts : TrimParts ρ} {older : List (List (PlacedItem ρ))}

theorem fitting_sublist (env : TrimEnv ρ) (available : Int) :
    (parts.fitting env available).Sublist parts.trimmable := by
  have hsub := fillBudget_sublist env.cost available
    (env.cost parts.trailing + env.cost parts.system.flatten +
      env.cost parts.protectedTurns.flatten) parts.trimmable.reverse
  rwa [List.reverse_reverse] at hsub

end TrimParts

theorem cost_append (env : TrimEnv ρ) (entries others : List (PlacedItem ρ)) :
    env.cost (entries ++ others) = env.cost entries + env.cost others := by
  rw [TrimEnv.cost, List.map_append, List.sum_append]
  rfl

theorem cost_flatten (env : TrimEnv ρ) (groups : List (List (PlacedItem ρ))) :
    env.cost groups.flatten = (groups.map env.cost).sum := by
  induction groups with
  | nil => rfl
  | cons group groups ih => rw [List.flatten_cons, cost_append, ih]; rfl

/-- What a choice of older turns keeps is of the body. -/
theorem kept_subset (h : DisjointTurns items groups) {older : List (List (PlacedItem ρ))}
    (holder : older.Sublist (trimParts items groups).trimmable) :
    ((trimParts items groups).system ++ older ++
      (trimParts items groups).protectedTurns).flatten ++
        (trimParts items groups).trailing ⊆ items.zipIdx := by
  have hgroups : ((trimParts items groups).system ++ older ++
      (trimParts items groups).protectedTurns).Sublist groups := by
    conv_rhs => rw [← parts_append items groups]
    exact (((List.Sublist.refl _).append holder).append (List.Sublist.refl _))
  refine List.append_subset.mpr ⟨?_, fun entry hentry => (List.mem_filter.mp hentry).1⟩
  intro entry hentry
  obtain ⟨group, hgroup, hmem⟩ := List.mem_flatten.mp hentry
  exact h.sublist.subset (List.mem_flatten.mpr ⟨group, hgroups.subset hgroup, hmem⟩)

/-- The older turns that are kept can be read off from what is kept. -/
theorem mem_of_keeping (h : DisjointTurns items groups)
    {older other : List (List (PlacedItem ρ))}
    (holder : older.Sublist (trimParts items groups).trimmable)
    (hother : other.Sublist (trimParts items groups).trimmable)
    (hsub : (trimParts items groups).keeping items older ⊆
      (trimParts items groups).keeping items other) : older ⊆ other := by
  intro group hgroup
  have htrimmable := holder.subset hgroup
  have hflat : groups.flatten.Nodup := (zipIdx_nodup items).sublist h.sublist
  have hin : group ∈ groups := by
    rw [← parts_append items groups]
    simp [htrimmable]
  obtain ⟨entry, hentry⟩ := List.exists_mem_of_ne_nil group (h.nonempty group hin)
  have hmem : entry ∈ (trimParts items groups).keeping items older := by
    rw [TrimParts.keeping, mem_keepItems (kept_subset h holder)]
    exact List.mem_append_left _ (List.mem_flatten.mpr ⟨group, by simp [hgroup], hentry⟩)
  have hkept := hsub hmem
  rw [TrimParts.keeping, mem_keepItems (kept_subset h hother), List.mem_append] at hkept
  rcases hkept with hkept | htrailing
  · obtain ⟨found, hfound, hentry'⟩ := List.mem_flatten.mp hkept
    rw [← parts_append items groups, List.flatten_append, List.flatten_append,
      List.nodup_append, List.nodup_append] at hflat
    obtain ⟨⟨-, hturns, hsystem⟩, -, hprotected⟩ := hflat
    have hflatGroup : entry ∈ (trimParts items groups).trimmable.flatten :=
      List.mem_flatten.mpr ⟨group, htrimmable, hentry⟩
    rcases List.mem_append.mp hfound with hfound | hlast
    · rcases List.mem_append.mp hfound with hfirst | hfound
      · exact absurd rfl (hsystem entry (List.mem_flatten.mpr ⟨found, hfirst, hentry'⟩)
          entry hflatGroup)
      · -- an item is in one turn only
        have hsame : found = group := by
          by_contra hne
          have hpairwise := (List.nodup_flatten.mp hturns).2
          have hsymm : Std.Symm (List.Disjoint (α := PlacedItem ρ)) := ⟨fun _ _ h _ hb ha => h ha hb⟩
          exact hpairwise.forall (hother.subset hfound) htrimmable hne hentry' hentry
        exact hsame ▸ hfound
    · exact absurd rfl (hprotected entry (List.mem_append_right _ hflatGroup) entry
        (List.mem_flatten.mpr ⟨found, hlast, hentry'⟩))
  · obtain ⟨-, hnot⟩ := List.mem_filter.mp htrailing
    have hindex : entry.2 ∈ groups.flatten.map (·.2) :=
      List.mem_map_of_mem (List.mem_flatten.mpr ⟨group, hin, hentry⟩)
    simp only [decide_eq_true_eq] at hnot
    exact absurd hindex hnot

/-! ## Whole turns -/

variable (env : TrimEnv ρ) (limit : Int)

/-- What is kept are the system messages, the last two turns, what is in no turn, and
older turns, all whole; with older turns everything fits. -/
def KeepsWholeTurns (items : List (TrimItem ρ)) (parts : TrimParts ρ)
    (kept : List (PlacedItem ρ)) (removed : Nat) : Prop :=
  ∃ older : List (List (PlacedItem ρ)), older.Sublist parts.trimmable ∧
    older.length + removed = parts.trimmable.length ∧
    kept = parts.keeping items older ∧
    (older ≠ [] → (env.cost kept + env.fixedTokens items : Int) ≤ limit)

variable {env limit} {kept : List (PlacedItem ρ)} {removed : Nat}

/-- The two ways in which turns are removed. -/
theorem trimPlaced_cases (hgroups : trimGroups fmt items = some groups)
    (h : trimPlaced env fmt limit items = some (kept, removed)) (hremoved : 0 < removed) :
    let parts := trimParts items groups
    let available := limit - env.fixedTokens items
    (available ≤ 0 ∧ kept = parts.keeping items [] ∧
        removed = parts.trimmable.length) ∨
      (0 < available ∧ removed = parts.trimmable.length -
          (parts.fitting env available).length ∧
        kept = dropOrphansRounds (·.1.toolUses) (·.1.toolResults) 3
          (parts.keeping items (parts.fitting env available))) := by
  intro parts available
  have hnot {n : Nat} (heq : some (items.zipIdx, 0) = some (kept, n)) (hn : 0 < n) :
      False := by
    cases heq
    exact Nat.lt_irrefl 0 hn
  unfold trimPlaced at h
  split_ifs at h
  · exact (hnot h hremoved).elim
  rw [hgroups, Option.bind_some] at h
  dsimp only at h
  split_ifs at h with hfew hfixed hnone
  · exact (hnot h hremoved).elim
  · cases h
    exact .inl ⟨hfixed, rfl, rfl⟩
  · exact (hnot h hremoved).elim
  · refine .inr ⟨not_le.mp hfixed, ?_⟩
    obtain ⟨entries, hentries, heq⟩ := Option.map_eq_some_iff.mp h
    cases heq
    obtain ⟨-, hclean⟩ := Option.ite_none_right_eq_some.mp hentries
    exact ⟨rfl, (Option.some.inj hclean).symm⟩

theorem keepsWholeTurns_of_budget (h : DisjointTurns items groups)
    {older : List (List (PlacedItem ρ))}
    (holder : older.Sublist (trimParts items groups).trimmable)
    (hbudget : older = [] ∨ ((env.cost (trimParts items groups).trailing +
      env.cost (trimParts items groups).system.flatten +
      env.cost (trimParts items groups).protectedTurns.flatten : Nat) : Int) +
        ((older.map env.cost).sum : Nat) ≤ limit - env.fixedTokens items) :
    KeepsWholeTurns env limit items (trimParts items groups)
      ((trimParts items groups).keeping items older)
      ((trimParts items groups).trimmable.length - older.length) := by
  have hlength := holder.length_le
  refine ⟨older, holder, by omega, rfl, fun hne => ?_⟩
  have hle := cost_keepItems_le env (kept_subset h holder)
  have hcost : env.cost (((trimParts items groups).system ++ older ++
      (trimParts items groups).protectedTurns).flatten ++
        (trimParts items groups).trailing) =
      env.cost (trimParts items groups).system.flatten + (older.map env.cost).sum +
        env.cost (trimParts items groups).protectedTurns.flatten +
          env.cost (trimParts items groups).trailing := by
    rw [cost_append, List.flatten_append, List.flatten_append, cost_append, cost_append,
      cost_flatten env older]
  have hfits := hbudget.resolve_left hne
  rw [TrimParts.keeping]
  omega

end

/--
Where turns are removed, whole turns are kept and nothing else is lost, unless a
message that fits has lost the other end of a tool call.
-/
theorem trim_keeps_whole_turns_iff (env : TrimEnv ρ) (fmt : ApiFormat) (limit : Int)
    (items : List (TrimItem ρ)) (groups : List (List (PlacedItem ρ))) (kept : List (PlacedItem ρ))
    (removed : Nat) (hgroups : trimGroups fmt items = some groups)
    (h : trimPlaced env fmt limit items = some (kept, removed)) (hremoved : 0 < removed) :
    let parts := trimParts items groups
    let available := limit - env.fixedTokens items
    KeepsWholeTurns env limit items parts kept removed ↔
      (0 < available → Paired (·.1.toolUses) (·.1.toolResults)
        (parts.keeping items (parts.fitting env available))) := by
  intro parts available
  have hdisjoint := trimGroups_disjoint hgroups
  rcases trimPlaced_cases hgroups h hremoved with ⟨hfixed, rfl, rfl⟩ | ⟨hsome, hcount, hkept⟩
  · refine iff_of_true ?_ fun hpos => absurd hfixed (not_le.mpr hpos)
    exact keepsWholeTurns_of_budget hdisjoint (List.nil_sublist _) (.inl rfl)
  · have hfitting := parts.fitting_sublist env available
    have hlength := hfitting.length_le
    rw [imp_iff_right hsome, ← dropOrphansRounds_eq_self_iff 2, ← hkept]
    constructor
    · rintro ⟨older, holder, holderCount, hwhole, -⟩
      -- what was kept is of as many turns, so of the same ones
      have hsub : kept ⊆ parts.keeping items (parts.fitting env available) := by
        rw [hkept, dropOrphansRounds_eq_iterate]
        exact fun entry hentry => ((mem_iterate_dropOrphans 3).mp hentry).1
      rw [hwhole] at hsub
      have holderSub := mem_of_keeping hdisjoint holder hfitting hsub
      have hnodup : parts.trimmable.Nodup := by
        have hflat : groups.flatten.Nodup := (zipIdx_nodup items).sublist hdisjoint.sublist
        have hall : groups.Nodup := by
          refine (List.nodup_flatten.mp hflat).2.imp_of_mem fun hmem _ hdis heq => ?_
          subst heq
          obtain ⟨entry, hentry⟩ := List.exists_mem_of_ne_nil _ (hdisjoint.nonempty _ hmem)
          exact hdis hentry hentry
        rw [← parts_append items groups, List.append_assoc] at hall
        exact (List.nodup_append.mp (List.nodup_append.mp hall).2.1).1
      have hmany : older.length + (parts.trimmable.length -
          (parts.fitting env available).length) = parts.trimmable.length :=
        hcount ▸ holderCount
      have hperm : older.Perm (parts.fitting env available) :=
        ((hnodup.sublist holder).subperm holderSub).perm_of_length_le (by omega)
      rw [hwhole, TrimParts.keeping, TrimParts.keeping]
      refine List.filter_congr fun entry _ => ?_
      simp [hperm.mem_iff]
    · intro hsame
      rw [hsame, hcount]
      exact keepsWholeTurns_of_budget hdisjoint hfitting (fillBudget_cost _ _ _ _)

/-! ## Small bodies -/

/-- Every message is one token, and the system prompt and tools are some. -/
def flatTokens (fixed : Nat) : TrimEnv String where
  payloadTokens items := items.length + fixed
  fixedTokens _ := fixed
  messageTokens _ := 1

def trimmed (messages : List (PayloadMessage String)) : List (TrimItem String) :=
  messages.map fun msg => .message { message := msg }

/-- An answer with several tool calls. -/
def callsMessage (ids : List String) : PayloadMessage String :=
  { role := some "assistant"
    content := .elements (ids.map fun id =>
      .block { type := some "tool_use", id := some id, rest := "" })
    rest := "" }

def resultsMessage (ids : List String) : PayloadMessage String :=
  { role := some "user"
    content := .elements (ids.map fun id =>
      .block { type := some "tool_result", toolUseId := some id, rest := "" })
    rest := "" }

/-- Three turns, the second with the result of a call of the first. -/
def interrupted : List (TrimItem String) :=
  trimmed
    [textMessage "user" "run them", callMessage "call_1", textMessage "user" "wait",
      resultMessage "call_1", textMessage "user" "thanks"]

/-- The result in the last turn but one goes with the call in the turn removed. -/
theorem protected_result_removed :
    (trimPlaced (flatTokens 1) .anthropic 5 interrupted).map
        (fun trimmed => (trimmed.1.map (·.2), trimmed.2)) = some ([2, 4], 1) ∧
      (trimGroups .anthropic interrupted).map
        (·.map (·.map (·.2))) = some [[0, 1], [2, 3], [4]] := by
  decide +kernel

/-- Without tools, the two turns that are kept are whole. -/
theorem trim_keeps_whole_turns_iff_plainTurns :
    ∃ groups kept removed, KeepsWholeTurns (flatTokens 1) 4 (trimmed plainTurns)
      (trimParts (trimmed plainTurns) groups) kept removed := by
  refine ⟨_, _, 1, (trim_keeps_whole_turns_iff (flatTokens 1) .anthropic 4 (trimmed plainTurns)
    ((trimGroups .anthropic (trimmed plainTurns)).get (by decide +kernel))
    ((trimPlaced (flatTokens 1) .anthropic 4 (trimmed plainTurns)).get
      (by decide +kernel)).1 1 (by simp) (by decide +kernel) (by decide)).mpr ?_⟩
  intro _
  decide +kernel

/-! ## Cascades -/

/-- The rounds of cleanup that are made. -/
def cleanupRounds (available : Int) : Nat := if available ≤ 0 then 0 else 3

/--
Where turns are removed, nothing that is kept has lost the other end of a tool call
exactly if no cascade is longer than the rounds that are made.
-/
theorem trim_leaves_pairs_iff (env : TrimEnv ρ) (fmt : ApiFormat) (limit : Int)
    (items : List (TrimItem ρ)) (groups : List (List (PlacedItem ρ))) (kept : List (PlacedItem ρ))
    (removed : Nat) (hgroups : trimGroups fmt items = some groups)
    (h : trimPlaced env fmt limit items = some (kept, removed)) (hremoved : 0 < removed) :
    let parts := trimParts items groups
    let available := limit - env.fixedTokens items
    let fitting := parts.keeping items
      (if available ≤ 0 then [] else parts.fitting env available)
    Paired (·.1.toolUses) (·.1.toolResults) kept ↔
      ∀ entry ∈ fitting, Loose (·.1.toolUses) (·.1.toolResults) fitting entry →
        LooseWithin (·.1.toolUses) (·.1.toolResults) fitting (cleanupRounds available)
          entry := by
  intro parts available fitting
  rw [← paired_dropOrphansRounds_iff]
  rcases trimPlaced_cases hgroups h hremoved with ⟨hfixed, hkept, -⟩ | ⟨hsome, -, hkept⟩
  · have hnone : available ≤ 0 := hfixed
    have hfitting : fitting = parts.keeping items [] := by
      simp only [fitting, if_pos hnone]
    rw [cleanupRounds, if_pos hnone, dropOrphansRounds, hkept, hfitting]
  · have hpos : ¬available ≤ 0 := not_le.mpr hsome
    have hfitting : fitting = parts.keeping items (parts.fitting env available) := by
      simp only [fitting, if_neg hpos]
    rw [cleanupRounds, if_neg hpos, hkept, hfitting]

/-- A call without its result takes four rounds to bring everything down. -/
def longCascade : List (TrimItem String) :=
  trimmed
    [textMessage "user" "set up auth", textMessage "assistant" "done",
      textMessage "user" "run them", callsMessage ["call_1", "call_2"],
      callsMessage ["call_3", "call_4"], resultsMessage ["call_2", "call_3"],
      resultsMessage ["call_4"], textMessage "user" "thanks"]

/-- A result is left without its call, after three rounds and where there are none. -/
theorem cleanup_leaves_orphans :
    (trimToUpstreamLimit (flatTokens 0) .anthropic 6 longCascade).map (·.1) =
        some (trimmed [textMessage "user" "run them", resultsMessage ["call_4"],
          textMessage "user" "thanks"]) ∧
      (trimToUpstreamLimit (flatTokens 5) .anthropic 5 interrupted).map (·.1) =
        some (trimmed [textMessage "user" "wait", resultMessage "call_1",
          textMessage "user" "thanks"]) := by
  decide +kernel

/-- Where the call is kept with its result, nothing is loose. -/
theorem trim_leaves_pairs_iff_plainTurns :
    ∃ fitting : List (PlacedItem String), fitting.length = 3 ∧ ∀ entry ∈ fitting,
      Loose (·.1.toolUses) (·.1.toolResults) fitting entry →
        LooseWithin (·.1.toolUses) (·.1.toolResults) fitting 3 entry := by
  refine ⟨_, ?_, (trim_leaves_pairs_iff (flatTokens 1) .anthropic 4 (trimmed plainTurns)
    ((trimGroups .anthropic (trimmed plainTurns)).get (by decide +kernel))
    ((trimPlaced (flatTokens 1) .anthropic 4 (trimmed plainTurns)).get
      (by decide +kernel)).1 1 (by simp) (by decide +kernel) (by decide)).mp ?_⟩
  · decide +kernel
  · decide +kernel

end VirtualContext
