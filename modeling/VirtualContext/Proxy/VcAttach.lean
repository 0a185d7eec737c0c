import Mathlib.Tactic.ByContra
import VirtualContext.Core.AliasResolution
import VirtualContext.Library.Keyed
import VirtualContext.Library.Reach

/-!
# VCATTACH

An attach removes the alias of the target and sets the alias of the old
conversation.  The target is then the end of every chain to the old
conversation, but the chains grow by one hop each time they are extended, and
the walker follows eight aliases only to give up there.
-/

namespace VirtualContext

open VirtualContext.Library

/-! ## The table and its updates -/

/-- `conversation_aliases`, with whatever identifiers were attached. -/
structure AliasTable where
  rows : List ConversationAlias
  primaryKey : (rows.map (·.aliasId)).Nodup

/-- The default of `max_hops`. -/
def DEFAULT_MAX_HOPS : Nat := 8

namespace AliasTable

def empty : AliasTable := ⟨[], List.nodup_nil⟩

def resolveConversationAlias (aliases : AliasTable) (aliasId : ConversationId) :
    Option ConversationId :=
  (aliases.rows.find? (·.aliasId = aliasId)).map (·.targetId)

def deleteConversationAlias (aliasId : ConversationId) (aliases : AliasTable) :
    AliasTable where
  rows := aliases.rows.filter (·.aliasId ≠ aliasId)
  primaryKey := aliases.primaryKey.sublist (List.filter_sublist.map _)

def saveConversationAlias (aliasId targetId : ConversationId) (aliases : AliasTable) :
    AliasTable where
  rows := replaceBy (·.aliasId) ⟨aliasId, targetId⟩ aliases.rows
  primaryKey := nodup_replaceBy aliases.primaryKey

/-- `walk_conversation_alias_chain` with its default bound. -/
def walk (aliases : AliasTable) (conversationId : ConversationId) :
    Except AliasResolutionError ConversationId :=
  if conversationId = "" then .ok conversationId
  else
    walkLoop aliases.resolveConversationAlias DEFAULT_MAX_HOPS [conversationId]
      [conversationId] conversationId

end AliasTable

/-- The arguments of `execute_attach`. -/
structure Attach where
  oldId : ConversationId
  targetId : ConversationId
  ne : oldId ≠ targetId

/-- What `execute_attach` does to the aliases. -/
def executeAttach (call : Attach) (aliases : AliasTable) : AliasTable :=
  (aliases.deleteConversationAlias call.targetId).saveConversationAlias call.oldId
    call.targetId

/-! ## What the updates resolve to -/

namespace AliasTable

variable {aliases : AliasTable} {call : Attach}

theorem resolve_delete (aliasId x : ConversationId) :
    (aliases.deleteConversationAlias aliasId).resolveConversationAlias x =
      if x = aliasId then none else aliases.resolveConversationAlias x := by
  unfold resolveConversationAlias deleteConversationAlias
  rw [List.find?_filter]
  split_ifs with hx
  · subst hx
    simp only [Option.map_eq_none_iff, List.find?_eq_none]
    intro row _
    simp
  · congr 2
    funext row
    by_cases hrow : row.aliasId = x
    · simp [hrow, hx]
    · simp [hrow]

theorem resolve_save (aliasId targetId x : ConversationId) :
    (aliases.saveConversationAlias aliasId targetId).resolveConversationAlias x =
      if x = aliasId then some targetId else aliases.resolveConversationAlias x := by
  have hdelete : (aliases.deleteConversationAlias aliasId).resolveConversationAlias x =
      if x = aliasId then none else aliases.resolveConversationAlias x := resolve_delete _ _
  unfold resolveConversationAlias deleteConversationAlias at hdelete
  unfold resolveConversationAlias saveConversationAlias replaceBy
  simp only [List.find?_append, Option.map_or, hdelete]
  split_ifs with hx
  · simp [hx]
  · simp [Ne.symm hx, resolveConversationAlias]

/-- One alias is gone and one is set. -/
theorem resolve_executeAttach (x : ConversationId) :
    (executeAttach call aliases).resolveConversationAlias x =
      if x = call.oldId then some call.targetId
      else (aliases.deleteConversationAlias call.targetId).resolveConversationAlias x :=
  resolve_save _ _ _

/-! ## Tables with short chains -/

/-- Aliases that lead from conversations to conversations. -/
def Named (aliases : AliasTable) : Prop :=
  ∀ row ∈ aliases.rows, row.aliasId ≠ "" ∧ row.targetId ≠ ""

theorem Named.executeAttach (h : aliases.Named) (hold : call.oldId ≠ "")
    (htarget : call.targetId ≠ "") : (executeAttach call aliases).Named := by
  intro row hrow
  rcases mem_replaceBy.mp hrow with rfl | ⟨hmem, -⟩
  · exact ⟨hold, htarget⟩
  · exact h row (List.mem_of_mem_filter hmem)

/-- Such a table is one that the walker was verified for. -/
def Named.toAliases (h : aliases.Named) : ConversationAliases :=
  ⟨aliases.rows, aliases.primaryKey, h⟩

theorem Named.resolve_empty (h : aliases.Named) :
    aliases.resolveConversationAlias "" = none := by
  have hempty : h.toAliases.resolveConversationAlias "" = none :=
    ConversationAliases.resolve_empty
  exact hempty

/-- Where the walk ends, if the walker does not give up there. -/
theorem Named.walk_eq {x y : ConversationId} {k : Nat} (h : aliases.Named)
    (hend : EndsAt aliases.resolveConversationAlias x k y) (hk : k < DEFAULT_MAX_HOPS) :
    aliases.walk x = .ok y := by
  have hbound : ¬ EndsAtBound h.toAliases DEFAULT_MAX_HOPS x := by
    rintro ⟨-, z, hz⟩
    have := (EndsAt.unique hend hz).1
    omega
  exact (((walksRight_iff x DEFAULT_MAX_HOPS).mpr hbound).terminal y).mpr ⟨k, hk.le, hend⟩

/-- The walker gives up at the end of a chain as long as its bound. -/
theorem Named.walk_ne_ok {x y : ConversationId} (h : aliases.Named)
    (hend : EndsAt aliases.resolveConversationAlias x DEFAULT_MAX_HOPS y) (hx : x ≠ "")
    (z : ConversationId) : aliases.walk x ≠ .ok z := by
  intro hwalk
  have houtcome := walk_outcome h.toAliases x hx DEFAULT_MAX_HOPS
  change WalkOutcome _ x DEFAULT_MAX_HOPS (aliases.walk x) at houtcome
  rw [hwalk] at houtcome
  cases houtcome with
  | ended hk hz =>
      have := (EndsAt.unique hend hz).1
      omega

/-- Identifiers are nonempty, and every chain ends before the walker gives up. -/
structure Short (aliases : AliasTable) : Prop where
  named : aliases.Named
  ends : ∀ x, ∃ k y, k < DEFAULT_MAX_HOPS ∧
    EndsAt aliases.resolveConversationAlias x k y

theorem Short.empty : Short empty :=
  ⟨nofun, fun x => ⟨0, x, by decide, rfl, rfl⟩⟩

/-! ## Chains before and after an attach -/

/-- A chain that comes to the target is cut there. -/
theorem endsAt_delete {x y a : ConversationId} {k : Nat}
    (h : EndsAt aliases.resolveConversationAlias x k y) :
    (∃ j ≤ k, hop aliases.resolveConversationAlias j x = some a ∧
        EndsAt (aliases.deleteConversationAlias a).resolveConversationAlias x j a) ∨
      (∀ j, hop aliases.resolveConversationAlias j x ≠ some a) ∧
        EndsAt (aliases.deleteConversationAlias a).resolveConversationAlias x k y := by
  have hoff (z : ConversationId) (hz : z ≠ a) :
      (aliases.deleteConversationAlias a).resolveConversationAlias z =
        aliases.resolveConversationAlias z := by rw [resolve_delete, if_neg hz]
  rcases h.visits_or hoff with ⟨j, hj, hvisit, hvisit'⟩ | hnever
  · exact .inl ⟨j, hj, hvisit, hvisit', by rw [resolve_delete, if_pos rfl]⟩
  · exact .inr hnever

theorem hop_delete {x a : ConversationId}
    (h : ∀ j, hop aliases.resolveConversationAlias j x ≠ some a) (k : Nat) :
    hop (aliases.deleteConversationAlias a).resolveConversationAlias k x =
      hop aliases.resolveConversationAlias k x := by
  refine hop_congr fun j _ z hz => ?_
  rw [resolve_delete, if_neg]
  rintro rfl
  exact h j hz

/-- A chain that comes to the old conversation goes one hop further. -/
theorem endsAt_executeAttach {x y : ConversationId} {k : Nat}
    (h : EndsAt (aliases.deleteConversationAlias call.targetId).resolveConversationAlias
      x k y) :
    (∃ j ≤ k, hop (aliases.deleteConversationAlias
          call.targetId).resolveConversationAlias j x = some call.oldId ∧
        EndsAt (executeAttach call aliases).resolveConversationAlias x (j + 1)
          call.targetId) ∨
      (∀ j, hop (aliases.deleteConversationAlias
          call.targetId).resolveConversationAlias j x ≠ some call.oldId) ∧
        EndsAt (executeAttach call aliases).resolveConversationAlias x k y := by
  have hoff (z : ConversationId) (hz : z ≠ call.oldId) :
      (executeAttach call aliases).resolveConversationAlias z =
        (aliases.deleteConversationAlias call.targetId).resolveConversationAlias z := by
    rw [resolve_executeAttach, if_neg hz]
  rcases h.visits_or hoff with ⟨j, hj, hvisit, hvisit'⟩ | hnever
  · refine .inl ⟨j, hj, hvisit, ?_, ?_⟩
    · rw [hop_succ, hvisit']
      simp [resolve_executeAttach]
    · rw [resolve_executeAttach, if_neg call.ne.symm, resolve_delete, if_pos rfl]
  · exact .inr hnever

end AliasTable

/-! ## What an attach should do -/

/-- Every identifier resolves, and only those that led to the two are changed. -/
structure KeepsResolvable (aliases : AliasTable) (call : Attach) : Prop where
  acyclic : ∀ x n,
    hop (executeAttach call aliases).resolveConversationAlias (n + 1) x ≠ some x
  resolves : ∀ x, ∃ y, (executeAttach call aliases).walk x = .ok y
  old : ∀ x k, hop aliases.resolveConversationAlias k x = some call.oldId →
    (executeAttach call aliases).walk x = .ok call.targetId
  target : ∀ x k, hop aliases.resolveConversationAlias k x = some call.targetId →
    (executeAttach call aliases).walk x = .ok call.targetId
  others : ∀ x,
    (∀ k, hop aliases.resolveConversationAlias k x ≠ some call.oldId ∧
      hop aliases.resolveConversationAlias k x ≠ some call.targetId) →
    (executeAttach call aliases).walk x = aliases.walk x

/--
No chain of seven aliases leads to the old conversation, not counting those
through the target.
-/
structure LeavesRoom (aliases : AliasTable) (call : Attach) : Prop where
  old : call.oldId ≠ ""
  target : call.targetId ≠ ""
  room : ∀ x, hop (aliases.deleteConversationAlias call.targetId).resolveConversationAlias
    (DEFAULT_MAX_HOPS - 1) x ≠ some call.oldId

section

open AliasTable

variable {aliases : AliasTable} {call : Attach}

/-- Where every chain ends after an attach that leaves room. -/
theorem LeavesRoom.ends (hshort : aliases.Short) (h : LeavesRoom aliases call)
    (x : ConversationId) :
    ∃ k y, k < DEFAULT_MAX_HOPS ∧
      EndsAt (executeAttach call aliases).resolveConversationAlias x k y ∧
      ((∃ j, hop aliases.resolveConversationAlias j x = some call.oldId ∨
        hop aliases.resolveConversationAlias j x = some call.targetId) →
          y = call.targetId) ∧
      ((∀ j, hop aliases.resolveConversationAlias j x ≠ some call.oldId ∧
        hop aliases.resolveConversationAlias j x ≠ some call.targetId) →
          EndsAt aliases.resolveConversationAlias x k y) := by
  obtain ⟨k, y, hk, hend⟩ := hshort.ends x
  rcases endsAt_delete (a := call.targetId) hend with
    ⟨j, hj, hvisit, hcut⟩ | ⟨hnever, hcut⟩
  · -- the chain came through the target
    have hsame (hother : ∀ j, hop aliases.resolveConversationAlias j x ≠ some call.oldId ∧
        hop aliases.resolveConversationAlias j x ≠ some call.targetId) (k : Nat) :
        EndsAt aliases.resolveConversationAlias x k call.targetId :=
      absurd hvisit (hother j).2
    rcases endsAt_executeAttach hcut with ⟨i, hi, hold, hlink⟩ | ⟨-, hkept⟩
    · refine ⟨i + 1, call.targetId, ?_, hlink, fun _ => rfl, fun h => hsame h _⟩
      have hne : i ≠ DEFAULT_MAX_HOPS - 1 := by
        rintro rfl
        exact h.room x hold
      omega
    · exact ⟨j, call.targetId, by omega, hkept, fun _ => rfl, fun h => hsame h _⟩
  · rcases endsAt_executeAttach hcut with ⟨i, hi, hold, hlink⟩ | ⟨hnever', hkept⟩
    · refine ⟨i + 1, call.targetId, ?_, hlink, fun _ => rfl, fun hother => ?_⟩
      · have hne : i ≠ DEFAULT_MAX_HOPS - 1 := by
          rintro rfl
          exact h.room x hold
        omega
      · rw [hop_delete hnever] at hold
        exact absurd hold (hother i).1
    · refine ⟨k, y, hk, hkept, ?_, fun _ => hend⟩
      rintro ⟨j, hj | hj⟩
      · rw [← hop_delete hnever] at hj
        exact absurd hj (hnever' j)
      · exact absurd hj (hnever j)

theorem LeavesRoom.short (hshort : aliases.Short) (h : LeavesRoom aliases call) :
    (executeAttach call aliases).Short where
  named := hshort.named.executeAttach h.old h.target
  ends x := by
    obtain ⟨k, y, hk, hend, -⟩ := h.ends hshort x
    exact ⟨k, y, hk, hend⟩

theorem LeavesRoom.keepsResolvable (hshort : aliases.Short) (h : LeavesRoom aliases call) :
    KeepsResolvable aliases call := by
  have hnamed := (h.short hshort).named
  constructor
  · intro x n hback
    obtain ⟨k, y, -, hend, -⟩ := h.ends hshort x
    exact hend.not_revisits (n + 1) ⟨0, n + 1, by omega, Nat.le_refl _, x, rfl, hback⟩
  · intro x
    obtain ⟨k, y, hk, hend, -⟩ := h.ends hshort x
    exact ⟨y, hnamed.walk_eq hend hk⟩
  · intro x j hold
    obtain ⟨k, y, hk, hend, hled, -⟩ := h.ends hshort x
    obtain rfl := hled ⟨j, .inl hold⟩
    exact hnamed.walk_eq hend hk
  · intro x j htarget
    obtain ⟨k, y, hk, hend, hled, -⟩ := h.ends hshort x
    obtain rfl := hled ⟨j, .inr htarget⟩
    exact hnamed.walk_eq hend hk
  · intro x hother
    obtain ⟨k, y, hk, hend, -, hsame⟩ := h.ends hshort x
    rw [hnamed.walk_eq hend hk, hshort.named.walk_eq (hsame hother) hk]

theorem walk_of_resolve_empty {x : ConversationId}
    (h : aliases.resolveConversationAlias x = some "") : aliases.walk x = .ok x := by
  unfold AliasTable.walk
  split_ifs with hx
  · rw [hx]
  · simp [DEFAULT_MAX_HOPS, walkLoop, h]

theorem LeavesRoom.of_keepsResolvable (hshort : aliases.Short)
    (h : KeepsResolvable aliases call) : LeavesRoom aliases call := by
  have hold : call.oldId ≠ "" := by
    intro hempty
    have hwalk := h.old call.oldId 0 rfl
    rw [hempty, AliasTable.walk, if_pos rfl] at hwalk
    exact call.ne (hempty.trans (Except.ok.inj hwalk))
  have htarget : call.targetId ≠ "" := by
    intro hempty
    have hresolve : (executeAttach call aliases).resolveConversationAlias call.oldId =
        some "" := by simp [resolve_executeAttach, hempty]
    have hwalk := h.old call.oldId 0 rfl
    rw [walk_of_resolve_empty hresolve] at hwalk
    exact call.ne (Except.ok.inj hwalk)
  refine ⟨hold, htarget, fun x hroom => ?_⟩
  -- the chain of seven gets an eighth alias, at whose end the walker gives up
  have hnamed := hshort.named.executeAttach hold htarget
  obtain ⟨k, y, hk, hend⟩ := hshort.ends x
  have hcut : ∃ k y, EndsAt
      (aliases.deleteConversationAlias call.targetId).resolveConversationAlias x k y := by
    rcases endsAt_delete (a := call.targetId) hend with ⟨j, -, -, hcut⟩ | ⟨-, hcut⟩
    · exact ⟨j, _, hcut⟩
    · exact ⟨k, y, hcut⟩
  obtain ⟨k', y', hcut⟩ := hcut
  rcases endsAt_executeAttach hcut with ⟨i, -, hvisit, hlink⟩ | ⟨hnever, -⟩
  · have hi : i = DEFAULT_MAX_HOPS - 1 := by
      by_contra hne
      rcases Nat.lt_or_gt_of_ne hne with hlt | hlt
      · exact hcut.not_revisits _ ⟨i, _, hlt, Nat.le_refl _, _, hvisit, hroom⟩
      · exact hcut.not_revisits _ ⟨_, i, hlt, Nat.le_refl _, _, hroom, hvisit⟩
    subst hi
    have hx : x ≠ "" := by
      rintro rfl
      have hnone : (aliases.deleteConversationAlias
          call.targetId).resolveConversationAlias "" = none := by
        rw [resolve_delete, hshort.named.resolve_empty, ite_self]
      simp [DEFAULT_MAX_HOPS, hop, hnone] at hroom
    obtain ⟨z, hz⟩ := h.resolves x
    exact hnamed.walk_ne_ok hlink hx z hz
  · exact hnever _ hroom

theorem keepsResolvable_iff_leavesRoom (hshort : aliases.Short) :
    KeepsResolvable aliases call ↔ LeavesRoom aliases call :=
  ⟨.of_keepsResolvable hshort, fun h => h.keepsResolvable hshort⟩

end

/-! ## Runs -/

def attachStep (aliases : AliasTable) (call : Attach) : Option AliasTable :=
  some (executeAttach call aliases)

/-- A run keeps every identifier resolvable just when each attach leaves room. -/
theorem attaches_keep_resolvable_iff (calls : List Attach) :
    Meets attachStep KeepsResolvable .empty calls ↔
      Meets attachStep LeavesRoom .empty calls := by
  have hsome : ∃ aliases, runSteps attachStep .empty calls = some aliases := by
    generalize AliasTable.empty = start
    induction calls generalizing start with
    | nil => exact ⟨start, rfl⟩
    | cons call calls ih => exact ih (executeAttach call start)
  obtain ⟨aliases, hruns⟩ := hsome
  refine Meets.iff_of_invariant AliasTable.Short ?_ ?_ AliasTable.Short.empty hruns
  · intro aliases call _ hshort _
    exact keepsResolvable_iff_leavesRoom hshort
  · intro aliases call next hshort hroom hstep
    obtain rfl := Option.some.inj hstep
    exact hroom.short hshort

/-- Eight attaches, each from the conversation that the one before led to. -/
def eightAttaches : List Attach :=
  [⟨"1", "2", by decide⟩, ⟨"2", "3", by decide⟩, ⟨"3", "4", by decide⟩,
   ⟨"4", "5", by decide⟩, ⟨"5", "6", by decide⟩, ⟨"6", "7", by decide⟩,
   ⟨"7", "8", by decide⟩, ⟨"8", "9", by decide⟩]

theorem eighth_attach_breaks_resolution :
    ¬ ∀ calls, Meets attachStep KeepsResolvable .empty calls := by
  intro h
  have hmeets := h eightAttaches
  simp only [eightAttaches, Meets, attachStep, Option.mem_some, forall_eq'] at hmeets
  obtain ⟨-, -, -, -, -, -, -, hlast, -⟩ := hmeets
  obtain ⟨y, hwalk⟩ := hlast.resolves "1"
  have hsome := (congrArg (fun result => result.toOption.isSome) hwalk).trans
    (rfl : _ = true)
  exact absurd hsome (by decide +kernel)

end VirtualContext
