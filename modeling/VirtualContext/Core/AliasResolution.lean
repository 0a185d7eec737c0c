import Mathlib.Data.String.Basic
import VirtualContext.Library.Chains
import VirtualContext.Library.Ordered
import VirtualContext.Types

/-!
# Resolving conversation aliases

`walk_conversation_alias_chain` follows aliases forward to their terminal
target, `compute_reverse_dependents` searches backward for everything that a
target stands for.  They agree on all chains but those that are exactly as long
as the hop bound, which the walker gives up one lookup too early.
-/

namespace VirtualContext

open VirtualContext.Library

/-! ## The alias table -/

structure ConversationAlias where
  aliasId : ConversationId
  targetId : ConversationId
  deriving DecidableEq, Repr

/-- `conversation_aliases`; aliases lead from conversations to conversations. -/
structure ConversationAliases where
  rows : List ConversationAlias
  primaryKey : (rows.map (·.aliasId)).Nodup
  named : ∀ row ∈ rows, row.aliasId ≠ "" ∧ row.targetId ≠ ""

namespace ConversationAliases

protected def empty : ConversationAliases := ⟨[], List.nodup_nil, nofun⟩

def resolveConversationAlias (aliases : ConversationAliases)
    (aliasId : ConversationId) : Option ConversationId :=
  (aliases.rows.find? (·.aliasId = aliasId)).map (·.targetId)

def listConversationAliasesByTarget (aliases : ConversationAliases)
    (targetId : ConversationId) : List ConversationId :=
  orderBy id
    ((aliases.rows.filter (·.targetId = targetId)).map (·.aliasId))

end ConversationAliases

/-! ## Walking forward -/

inductive AliasResolutionReason where
  | cycle | maxHops
  deriving DecidableEq, Repr

structure AliasResolutionError where
  reason : AliasResolutionReason
  chain : List ConversationId
  deriving DecidableEq, Repr

/-- The loop of the walker with the hops that are left. -/
def walkLoop (resolve : ConversationId → Option ConversationId) :
    Nat → (seen chain : List ConversationId) → (current : ConversationId) →
      Except AliasResolutionError ConversationId
  | 0, _, chain, _ => .error ⟨.maxHops, chain⟩
  | hops + 1, seen, chain, current =>
      match resolve current with
      | none => .ok current
      | some nxt =>
          if nxt = "" then .ok current
          else if nxt ∈ seen then .error ⟨.cycle, chain ++ [nxt]⟩
          else walkLoop resolve hops (nxt :: seen) (chain ++ [nxt]) nxt

def walkConversationAliasChain (aliases : ConversationAliases)
    (conversationId : ConversationId) (maxHops : Nat) :
    Except AliasResolutionError ConversationId :=
  if conversationId = "" then .ok conversationId
  else
    walkLoop aliases.resolveConversationAlias maxHops [conversationId]
      [conversationId] conversationId

/-! ## Searching backward -/

def MAX_REVERSE_DEPENDENT_FAN_OUT : Nat := 256

/-- What the search has seen, its result and the next frontier. -/
structure Discovery where
  seen : List ConversationId
  out : List ConversationId
  nextFrontier : List ConversationId

/-- The loop over the incoming aliases of one node. -/
def keepIncoming : (kept : Nat) → List ConversationId → Discovery → Discovery
  | _, [], found => found
  | kept, src :: incoming, found =>
      if src ∈ found.seen then keepIncoming kept incoming found
      else if MAX_REVERSE_DEPENDENT_FAN_OUT ≤ kept then found
      else
        keepIncoming (kept + 1) incoming
          ⟨src :: found.seen, found.out ++ [src], found.nextFrontier ++ [src]⟩

def expandFrontier (aliases : ConversationAliases)
    (frontier : List ConversationId) (found : Discovery) : Discovery :=
  frontier.foldl (fun found node =>
    keepIncoming 0 (aliases.listConversationAliasesByTarget node) found) found

/-- The loop over the levels. -/
def reverseLoop (aliases : ConversationAliases) :
    Nat → (frontier seen out : List ConversationId) → List ConversationId
  | 0, _, _, out => out
  | hops + 1, frontier, seen, out =>
      if frontier.isEmpty then out
      else
        let found := expandFrontier aliases frontier ⟨seen, out, []⟩
        reverseLoop aliases hops found.nextFrontier found.seen found.out

def computeReverseDependents (aliases : ConversationAliases)
    (targetId : ConversationId) (maxHops : Nat) : List ConversationId :=
  reverseLoop aliases maxHops [targetId] [targetId] []

/-! ## What the walk finds -/

section Walk

variable {aliases : ConversationAliases}

/-- What one walk should do: stop at the end, or report what kept it. -/
structure WalksRight (aliases : ConversationAliases) (maxHops : Nat)
    (x : ConversationId) : Prop where
  revisits : (∃ chain, walkConversationAliasChain aliases x maxHops =
      .error ⟨.cycle, chain⟩) ↔
    Revisits aliases.resolveConversationAlias x maxHops
  tooLong : (∃ chain, walkConversationAliasChain aliases x maxHops =
      .error ⟨.maxHops, chain⟩) ↔
    ¬ Revisits aliases.resolveConversationAlias x maxHops ∧
      hop aliases.resolveConversationAlias (maxHops + 1) x ≠ none
  terminal : ∀ y, walkConversationAliasChain aliases x maxHops = .ok y ↔
    ∃ k ≤ maxHops, EndsAt aliases.resolveConversationAlias x k y

theorem ConversationAliases.target_ne_empty {x y : ConversationId}
    (h : aliases.resolveConversationAlias x = some y) : y ≠ "" := by
  obtain ⟨row, hrow, rfl⟩ := Option.map_eq_some_iff.mp h
  exact (aliases.named row (List.mem_of_find?_eq_some hrow)).2

theorem ConversationAliases.resolve_empty :
    aliases.resolveConversationAlias "" = none := by
  unfold resolveConversationAlias
  rw [Option.map_eq_none_iff, List.find?_eq_none]
  intro row hrow
  simpa using (aliases.named row hrow).1

/-- What the loop returns after `d` hops that came to no known point. -/
inductive WalkOutcome (aliases : ConversationAliases) (x : ConversationId)
    (bound : Nat) : Except AliasResolutionError ConversationId → Prop where
  | ended {k : Nat} {y : ConversationId} (hk : k < bound)
      (h : EndsAt aliases.resolveConversationAlias x k y) :
      WalkOutcome aliases x bound (.ok y)
  | cycle {chain : List ConversationId}
      (h : Revisits aliases.resolveConversationAlias x bound) :
      WalkOutcome aliases x bound (.error ⟨.cycle, chain⟩)
  | maxHops {chain : List ConversationId}
      (hnew : ¬ Revisits aliases.resolveConversationAlias x bound)
      (h : hop aliases.resolveConversationAlias bound x ≠ none) :
      WalkOutcome aliases x bound (.error ⟨.maxHops, chain⟩)

theorem walkLoop_outcome {x current : ConversationId} {d hops : Nat}
    {seen chain : List ConversationId}
    (hcurrent : hop aliases.resolveConversationAlias d x = some current)
    (hseen : ∀ y, y ∈ seen ↔
      ∃ i ≤ d, hop aliases.resolveConversationAlias i x = some y)
    (hnew : ¬ Revisits aliases.resolveConversationAlias x d) :
    WalkOutcome aliases x (d + hops)
      (walkLoop aliases.resolveConversationAlias hops seen chain current) := by
  induction hops generalizing d current seen chain with
  | zero =>
      exact .maxHops hnew (by simp [hcurrent])
  | succ hops ih =>
      cases hnext : aliases.resolveConversationAlias current with
      | none =>
          rw [walkLoop, hnext]
          exact .ended (by omega) ⟨hcurrent, hnext⟩
      | some nxt =>
          have hhop : hop aliases.resolveConversationAlias (d + 1) x =
              some nxt := by
            rw [hop_succ, hcurrent]
            exact hnext
          rw [walkLoop, hnext]
          simp only [ConversationAliases.target_ne_empty hnext, if_false]
          by_cases hmem : nxt ∈ seen
          · rw [if_pos hmem]
            obtain ⟨i, hi, heq⟩ := (hseen nxt).mp hmem
            exact .cycle ⟨i, d + 1, by omega, by omega, nxt, heq, hhop⟩
          · rw [if_neg hmem, ← Nat.add_assoc, Nat.add_right_comm]
            apply ih hhop
            · intro y
              rw [List.mem_cons, hseen]
              constructor
              · rintro (rfl | ⟨i, hi, heq⟩)
                · exact ⟨d + 1, le_rfl, hhop⟩
                · exact ⟨i, by omega, heq⟩
              · rintro ⟨i, hi, heq⟩
                rcases Nat.lt_or_eq_of_le hi with hlt | rfl
                · exact .inr ⟨i, by omega, heq⟩
                · exact .inl (Option.some.inj (heq.symm.trans hhop))
            · apply not_revisits_succ hnew
              intro i hi z hz hz'
              rw [hhop] at hz'
              cases hz'
              exact hmem ((hseen nxt).mpr ⟨i, hi, hz⟩)

variable (aliases) in
theorem walk_outcome (x : ConversationId) (hne : x ≠ "") (maxHops : Nat) :
    WalkOutcome aliases x maxHops
      (walkConversationAliasChain aliases x maxHops) := by
  unfold walkConversationAliasChain
  rw [if_neg hne]
  have hnew : ¬ Revisits aliases.resolveConversationAlias x 0 := by
    rintro ⟨i, j, hij, hj, -⟩
    omega
  have h : WalkOutcome aliases x (0 + maxHops)
      (walkLoop aliases.resolveConversationAlias maxHops [x] [x] x) :=
    walkLoop_outcome hop_zero (fun y => by simp [eq_comm]) hnew
  rwa [Nat.zero_add] at h

/-- The chain from the conversation ends after exactly as many hops as allowed. -/
def EndsAtBound (aliases : ConversationAliases) (maxHops : Nat)
    (x : ConversationId) : Prop :=
  x ≠ "" ∧ ∃ y, EndsAt aliases.resolveConversationAlias x maxHops y

/-- The walker looks at the end of a chain of exactly the bound no more. -/
theorem walksRight_iff (x : ConversationId) (maxHops : Nat) :
    WalksRight aliases maxHops x ↔ ¬ EndsAtBound aliases maxHops x := by
  by_cases hne : x = ""
  · subst hne
    have hend : EndsAt aliases.resolveConversationAlias "" 0 "" :=
      ⟨rfl, ConversationAliases.resolve_empty⟩
    have hwalk : walkConversationAliasChain aliases "" maxHops = .ok "" := rfl
    refine iff_of_true ⟨?_, ?_, fun y => ?_⟩ fun h => h.1 rfl
    · simp [hwalk, hend.not_revisits]
    · simp [hwalk, hend.hop_eq_none (Nat.succ_pos maxHops)]
    · rw [hwalk, Except.ok.injEq]
      constructor
      · rintro rfl
        exact ⟨0, Nat.zero_le _, hend⟩
      · rintro ⟨k, -, h⟩
        exact (hend.unique h).2
  · have h := walk_outcome aliases x hne maxHops
    generalize hresult : walkConversationAliasChain aliases x maxHops = result
      at h
    cases h with
    | ended hk hend =>
        refine iff_of_true ⟨?_, ?_, fun y => ?_⟩ ?_
        · simp [hresult, hend.not_revisits]
        · simp [hresult, hend.hop_eq_none (Nat.lt_succ_of_lt hk)]
        · rw [hresult, Except.ok.injEq]
          constructor
          · rintro rfl
            exact ⟨_, hk.le, hend⟩
          · rintro ⟨k, -, h⟩
            exact (hend.unique h).2
        · rintro ⟨-, y, h⟩
          have := (hend.unique h).1
          omega
    | cycle hagain =>
        refine iff_of_true ⟨?_, ?_, fun y => ?_⟩ ?_
        · simp [hresult, hagain]
        · simp [hresult, hagain]
        · simp only [hresult, reduceCtorEq, false_iff]
          rintro ⟨k, -, h⟩
          exact h.not_revisits maxHops hagain
        · rintro ⟨-, y, h⟩
          exact h.not_revisits maxHops hagain
    | maxHops hnew hlong =>
        obtain ⟨z, hz⟩ := Option.ne_none_iff_exists'.mp hlong
        have hsucc : hop aliases.resolveConversationAlias (maxHops + 1) x = _ :=
          hop_succ maxHops x
        rw [hz] at hsucc
        cases hnext : aliases.resolveConversationAlias z with
        | none =>
            have hend : hop aliases.resolveConversationAlias (maxHops + 1) x =
                none := hsucc.trans hnext
            refine iff_of_false (fun h => ?_) fun h => h ⟨hne, z, hz, hnext⟩
            exact (h.tooLong.mp ⟨_, hresult⟩).2 hend
        | some w =>
            have hmore : hop aliases.resolveConversationAlias (maxHops + 1) x ≠
                none := by
              rw [hsucc]
              simp [hnext]
            have hopen : ∀ k ≤ maxHops, ∀ y,
                ¬ EndsAt aliases.resolveConversationAlias x k y :=
              fun k hk y hend => absurd (hend.le hmore) (by omega)
            refine iff_of_true ⟨?_, ?_, fun y => ?_⟩ ?_
            · simp [hresult, hnew]
            · simp [hresult, hnew, hmore]
            · simp only [hresult, reduceCtorEq, false_iff]
              rintro ⟨k, hk, h⟩
              exact hopen k hk y h
            · rintro ⟨-, y, h⟩
              exact hopen maxHops le_rfl y h

end Walk

/-! ## What the search finds -/

section Search

variable {aliases : ConversationAliases}

theorem ConversationAliases.mem_listByTarget {src node : ConversationId} :
    src ∈ aliases.listConversationAliasesByTarget node ↔
      aliases.resolveConversationAlias src = some node := by
  simp only [listConversationAliasesByTarget, mem_orderBy, List.mem_map,
    List.mem_filter, decide_eq_true_eq, resolveConversationAlias,
    Option.map_eq_some_iff]
  constructor
  · rintro ⟨row, ⟨hrow, rfl⟩, rfl⟩
    have hfound : (aliases.rows.find? (·.aliasId = row.aliasId)).isSome := by
      simpa using ⟨row, hrow, rfl⟩
    obtain ⟨found, hfind⟩ := Option.isSome_iff_exists.mp hfound
    have hid : found.aliasId = row.aliasId := by
      simpa using List.find?_some hfind
    obtain rfl := List.inj_on_of_nodup_map aliases.primaryKey
      (List.mem_of_find?_eq_some hfind) hrow hid
    exact ⟨found, hfind, rfl⟩
  · rintro ⟨row, hfind, rfl⟩
    have hid : row.aliasId = src := by simpa using List.find?_some hfind
    exact ⟨row, ⟨List.mem_of_find?_eq_some hfind, rfl⟩, hid⟩

/-- No more aliases than the search keeps at one node. -/
def FansIn (aliases : ConversationAliases) (node : ConversationId) : Prop :=
  (aliases.listConversationAliasesByTarget node).length ≤
    MAX_REVERSE_DEPENDENT_FAN_OUT

/-- Below the fan-out bound every source that is new is kept. -/
theorem keepIncoming_spec (kept : Nat) {incoming : List ConversationId}
    (hlength : kept + incoming.length ≤ MAX_REVERSE_DEPENDENT_FAN_OUT)
    (found : Discovery) (x : ConversationId) :
    (x ∈ (keepIncoming kept incoming found).seen ↔
        x ∈ found.seen ∨ x ∈ incoming) ∧
      (x ∈ (keepIncoming kept incoming found).out ↔
        x ∈ found.out ∨ x ∉ found.seen ∧ x ∈ incoming) ∧
      (x ∈ (keepIncoming kept incoming found).nextFrontier ↔
        x ∈ found.nextFrontier ∨ x ∉ found.seen ∧ x ∈ incoming) := by
  induction incoming generalizing kept found with
  | nil => simp [keepIncoming]
  | cons src incoming ih =>
      rw [List.length_cons] at hlength
      unfold keepIncoming
      by_cases hseen : src ∈ found.seen
      · rw [if_pos hseen]
        obtain ⟨h, h', h''⟩ := ih kept (by omega) found
        rw [h, h', h'']
        grind
      · rw [if_neg hseen, if_neg (by omega)]
        obtain ⟨h, h', h''⟩ := ih (kept + 1) (by omega)
          ⟨src :: found.seen, found.out ++ [src], found.nextFrontier ++ [src]⟩
        rw [h, h', h'']
        grind

variable (aliases) in
theorem expandFrontier_spec {frontier : List ConversationId}
    (hfan : ∀ node ∈ frontier, FansIn aliases node) (found : Discovery)
    (x : ConversationId) :
    (x ∈ (expandFrontier aliases frontier found).seen ↔ x ∈ found.seen ∨
        ∃ node ∈ frontier, aliases.resolveConversationAlias x = some node) ∧
      (x ∈ (expandFrontier aliases frontier found).out ↔ x ∈ found.out ∨
        x ∉ found.seen ∧
          ∃ node ∈ frontier, aliases.resolveConversationAlias x = some node) ∧
      (x ∈ (expandFrontier aliases frontier found).nextFrontier ↔
        x ∈ found.nextFrontier ∨ x ∉ found.seen ∧
          ∃ node ∈ frontier, aliases.resolveConversationAlias x = some node) := by
  induction frontier generalizing found with
  | nil => simp [expandFrontier]
  | cons node frontier ih =>
      obtain ⟨hseen, hout, hnext⟩ := keepIncoming_spec 0
        ((Nat.zero_add _).trans_le (hfan node List.mem_cons_self)) found x
      obtain ⟨hseen', hout', hnext'⟩ := ih
        (fun node hnode => hfan node (List.mem_cons_of_mem _ hnode))
        (keepIncoming 0 (aliases.listConversationAliasesByTarget node) found)
      rw [ConversationAliases.mem_listByTarget] at hseen hout hnext
      have hcons : expandFrontier aliases (node :: frontier) found =
          expandFrontier aliases frontier (keepIncoming 0
            (aliases.listConversationAliasesByTarget node) found) := rfl
      rw [hcons]
      rw [hseen', hout', hnext', hseen, hout, hnext]
      simp only [List.mem_cons, exists_eq_or_imp]
      generalize (∃ a ∈ frontier, aliases.resolveConversationAlias x = some a) =
        later
      generalize (aliases.resolveConversationAlias x = some node) = direct
      by_cases hdirect : direct <;> simp [hdirect, or_assoc]

/-- The target is reached from `x` in exactly or at most so many hops. -/
theorem mem_reverseLoop {t : ConversationId}
    (hterminal : aliases.resolveConversationAlias t = none)
    (hfan : ∀ node k, hop aliases.resolveConversationAlias k node = some t →
      FansIn aliases node) {hops i : Nat}
    {frontier seen out : List ConversationId}
    (hfrontier : ∀ x, x ∈ frontier ↔
      hop aliases.resolveConversationAlias i x = some t)
    (hseen : ∀ x, x ∈ seen ↔
      ∃ k ≤ i, hop aliases.resolveConversationAlias k x = some t)
    (hout : ∀ x, x ∈ out ↔ x ≠ t ∧
      ∃ k ≤ i, hop aliases.resolveConversationAlias k x = some t)
    (x : ConversationId) :
    x ∈ reverseLoop aliases hops frontier seen out ↔ x ≠ t ∧
      ∃ k ≤ i + hops, hop aliases.resolveConversationAlias k x = some t := by
  induction hops generalizing i frontier seen out with
  | zero => exact hout x
  | succ hops ih =>
      unfold reverseLoop
      by_cases hempty : frontier = []
      · rw [if_pos (by simpa using hempty), hout]
        refine and_congr_right fun _ => ⟨fun ⟨k, hk, h⟩ => ⟨k, by omega, h⟩, ?_⟩
        rintro ⟨k, -, h⟩
        rcases Nat.lt_or_ge i k with hlt | hle
        -- a longer chain would come through the frontier
        · obtain ⟨d, rfl⟩ := Nat.exists_eq_add_of_lt hlt
          rw [show i + d + 1 = (d + 1) + i by omega] at h
          obtain ⟨z, -, hz⟩ := hop_of_add h
          rw [← hfrontier, hempty] at hz
          simp at hz
        · exact ⟨k, hle, h⟩
      · rw [if_neg (by simpa using hempty)]
        have hspec := expandFrontier_spec aliases
          (fun node hnode => hfan node i ((hfrontier node).mp hnode))
          ⟨seen, out, []⟩
        have hstep : ∀ y, (∃ node ∈ frontier,
            aliases.resolveConversationAlias y = some node) ↔
            hop aliases.resolveConversationAlias (i + 1) y = some t := by
          intro y
          rw [hop, Option.bind_eq_some_iff]
          simp only [hfrontier]
          exact exists_congr fun node => and_comm
        have hfresh : ∀ y, hop aliases.resolveConversationAlias (i + 1) y =
            some t → y ∉ seen := by
          intro y hy hmem
          obtain ⟨k, hk, h⟩ := (hseen y).mp hmem
          have := (EndsAt.unique ⟨h, hterminal⟩ ⟨hy, hterminal⟩).1
          omega
        have hle : ∀ y, (∃ k ≤ i + 1,
            hop aliases.resolveConversationAlias k y = some t) ↔
            (∃ k ≤ i, hop aliases.resolveConversationAlias k y = some t) ∨
              hop aliases.resolveConversationAlias (i + 1) y = some t := by
          intro y
          simp only [Nat.le_succ_iff, or_and_right, exists_or, exists_eq_left]
        rw [← Nat.succ_add_eq_add_succ]
        apply ih
        · intro y
          rw [(hspec y).2.2, hstep]
          simpa using fun h => hfresh y h
        · intro y
          rw [(hspec y).1, hstep, hle, hseen]
        · intro y
          rw [(hspec y).2.1, hstep, hle, hout]
          constructor
          · rintro (⟨hne, h⟩ | ⟨-, h⟩)
            · exact ⟨hne, .inl h⟩
            · refine ⟨?_, .inr h⟩
              rintro rfl
              have := (EndsAt.unique ⟨h, hterminal⟩ ⟨hop_zero, hterminal⟩).1
              omega
          · rintro ⟨hne, h | h⟩
            · exact .inl ⟨hne, h⟩
            · exact .inr ⟨hfresh y h, h⟩

/-- The search finds the conversations whose chains end at the target. -/
theorem mem_computeReverseDependents {t : ConversationId}
    (hterminal : aliases.resolveConversationAlias t = none)
    (hfan : ∀ node k, hop aliases.resolveConversationAlias k node = some t →
      FansIn aliases node) (maxHops : Nat) (x : ConversationId) :
    x ∈ computeReverseDependents aliases t maxHops ↔ x ≠ t ∧
      ∃ k ≤ maxHops, EndsAt aliases.resolveConversationAlias x k t := by
  unfold computeReverseDependents
  rw [mem_reverseLoop hterminal hfan (i := 0), Nat.zero_add]
  · simp [EndsAt, hterminal]
  · simp [eq_comm]
  · simp [eq_comm]
  · simp [eq_comm]

end Search

/-! ## Both together -/

/-- The search and the walker agree on a conversation, and the walk is right. -/
structure AliasesAgree (aliases : ConversationAliases) (maxHops : Nat)
    (t x : ConversationId) : Prop where
  dependents : x ∈ computeReverseDependents aliases t maxHops ↔
    x ≠ t ∧ walkConversationAliasChain aliases x maxHops = .ok t
  walk : WalksRight aliases maxHops x

/-- They agree unless the chain is exactly as long as the bound. -/
theorem aliasesAgree_iff (aliases : ConversationAliases) (maxHops : Nat)
    {t : ConversationId}
    (hterminal : aliases.resolveConversationAlias t = none)
    (hfan : ∀ node k, hop aliases.resolveConversationAlias k node = some t →
      FansIn aliases node) (x : ConversationId) :
    AliasesAgree aliases maxHops t x ↔ ¬ EndsAtBound aliases maxHops x := by
  rw [← walksRight_iff]
  refine ⟨fun h => h.walk, fun h => ⟨?_, h⟩⟩
  rw [mem_computeReverseDependents hterminal hfan, h.terminal]

/-- One alias. -/
def oneAlias : ConversationAliases where
  rows := [⟨"a", "b"⟩]
  primaryKey := by decide
  named := by decide

theorem aliasesAgree_iff_oneAlias :
    AliasesAgree oneAlias 8 "b" "a" ↔ ¬ EndsAtBound oneAlias 8 "a" := by
  refine aliasesAgree_iff oneAlias 8 (by decide) (fun node k _ => ?_) "a"
  refine (le_of_eq (length_orderBy _ _)).trans ?_
  rw [List.length_map]
  exact (List.length_filter_le _ _).trans (by decide)

/-- With one hop allowed the search finds `a`, but the walker gives up on it. -/
theorem walker_gives_up_at_bound :
    "a" ∈ computeReverseDependents oneAlias "b" 1 ∧
      walkConversationAliasChain oneAlias "a" 1 =
        .error ⟨.maxHops, ["a", "b"]⟩ := by
  decide +kernel

end VirtualContext
