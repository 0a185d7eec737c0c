import Mathlib.Algebra.GroupWithZero.Nat
import Mathlib.Data.List.Flatten
import VirtualContext.Proxy.FillPass
import VirtualContext.Proxy.TurnGroups

/-!
# Restoring dropped turns

Old turns without tools are dropped from the body.  When tokens are left, turns
of the body before filtering are put back behind the system messages, the
newest first.  Which turns were dropped is inferred from how many there are.
-/

namespace VirtualContext

open VirtualContext.Library

variable {ρ : Type}

/-- The items of a body with the indices that they had before filtering. -/
abbrev TracedBody (ρ : Type) := List (TurnItem ρ × Nat)

/-! ## Dropping turns -/

section

variable (fmt : ApiFormat) (compactedPrefixMessages : Int) (protectedRecentTurns : Nat)
  (dropBoundary : Option Int)

/-- How many of the oldest turns may be dropped. -/
def dropLimit (turns : List (MessageTurn ρ)) : Nat :=
  let protectedStart := (unprotectedTurns protectedRecentTurns turns).length
  match dropBoundary with
  | some boundary => (min (boundary / 2) protectedStart).toNat
  | none => protectedStart

def droppedTurns (turns : List (MessageTurn ρ)) : List (MessageTurn ρ) :=
  if compactedPrefixMessages ≤ 0 then []
  else
    ((historyTurns turns).take (dropLimit protectedRecentTurns dropBoundary turns)).filter
      (!·.hasToolActivity fmt)

/-- `drop_compacted_turns` -/
def dropCompactedTurns (body : TracedBody ρ) : Option (TracedBody ρ) :=
  if compactedPrefixMessages ≤ 0 then some body
  else
    (messageTurns fmt (body.map (·.1))).map fun turns =>
      let dropped := droppedTurns fmt compactedPrefixMessages protectedRecentTurns
        dropBoundary turns
      removeItems body
        ((List.range body.length).filter (· ∈ dropped.flatMap (·.indices)))

end

/-! ## Sanitizing turns -/

/-- How values are read that are kept as they are, and the length of a dump. -/
structure RestoreEnv (ρ : Type) where
  /-- The type of a `source` that is a dict. -/
  sourceType : ρ → Option (Option String)
  dumpedLength : List (TurnItem ρ) → Nat

def imageRemoved : Text := "[image removed from restored turn]".toList

def toolContentRemoved : Text := "[restored turn — tool content removed]".toList

namespace StubBlock

/-- `block.get("source", {}).get("type")`, if it does not fail. -/
def sourceType? (env : RestoreEnv ρ) (block : StubBlock ρ) : Option (Option String) :=
  match block.fields.lookup "source" with
  | some source => env.sourceType source
  | none => some none

/-- What becomes of a block, if nothing fails. -/
def sanitize (env : RestoreEnv ρ) (block : StubBlock ρ) : Option (Option (StubBlock ρ)) :=
  match block.type? with
  | none => some (some block)
  | some type =>
      if type ∈ [some "thinking", some "tool_use", some "tool_result"] then some none
      else if type ∈ [some "image", some "image_url"] then
        some (some (.text "text" imageRemoved []))
      else
        (block.sourceType? env).map fun source =>
          if source = some "base64" then some (.text "text" imageRemoved [])
          else if type = some "input_image" then some (.text "input_text" imageRemoved [])
          else some block

end StubBlock

def StubPart.sanitize (part : StubPart ρ) : StubPart ρ :=
  if (part.rest.lookup "inlineData").isSome then { text := some imageRemoved } else part

def sanitizeContent (env : RestoreEnv ρ) : StubContent ρ → Option (StubContent ρ)
  | .blocks blocks =>
      (blocks.mapM (StubBlock.sanitize env)).map fun cleaned =>
        .blocks
          (if cleaned.reduceOption.isEmpty then [.text "text" toolContentRemoved []]
          else cleaned.reduceOption)
  | content => some content

/-- A message of the role `tool` is left out. -/
def TurnItem.sanitize (env : RestoreEnv ρ) : TurnItem ρ → Option (Option (TurnItem ρ))
  | .message msg =>
      (sanitizeContent env msg.content).map fun content =>
        if msg.role = some "tool" then none
        else
          some (.message
            { msg with
              content := content
              toolCalls := []
              emptyToolCalls := .missing
              parts := msg.parts.map (·.sanitize) })
  | .other _ => none

/-- `_sanitize_restored_turn` -/
def sanitizeRestoredTurn (env : RestoreEnv ρ) : MessageTurn ρ → Option (TracedBody ρ)
  | [] => some []
  | entry :: rest =>
      (entry.1.sanitize env).bind fun item =>
        (sanitizeRestoredTurn env rest).map fun items =>
          (item.map fun item => (item, entry.2)).toList ++ items

/-! ## Restoring turns -/

def TurnItem.role : TurnItem ρ → Option String
  | .message msg => msg.role
  | .other _ => none

/-- Behind the system and developer prefix; what is no dict behind it has no role. -/
def insertionPoint (body : TracedBody ρ) : Option Nat :=
  let position := prefixLength (·.1.role) body
  match body[position]? with
  | some (.other _, _) => none
  | _ => some position

/-- A turn, and what it is restored as. -/
structure RestoredTurn (ρ : Type) where
  turn : MessageTurn ρ
  items : TracedBody ρ

/-- The source counts the turns that it restores; here they are kept. -/
structure RestoreState (ρ : Type) where
  body : TracedBody ρ
  turnBudget : Int
  restored : List (RestoredTurn ρ) := []

section

variable (env : RestoreEnv ρ) (fmt : ApiFormat)

def RestoreEnv.tokens (items : TracedBody ρ) : Nat :=
  env.dumpedLength (items.map (·.1)) / 4

def restoreTurn (st : RestoreState ρ) (turn : MessageTurn ρ) : Option (RestoreState ρ) :=
  if turn.hasToolActivity fmt then some st
  else
    (sanitizeRestoredTurn env turn).bind fun items =>
      if (env.tokens items : Int) > st.turnBudget then some st
      else
        (insertionPoint st.body).map fun position =>
          { body := insertItems st.body position items
            turnBudget := st.turnBudget - env.tokens items
            restored := ⟨turn, items⟩ :: st.restored }

/-- Phase 2 of `fill_pass`, from the body before filtering. -/
def fillTurns (headroom : Int) (preFilter : List (TurnItem ρ)) (body : TracedBody ρ) :
    Option (RestoreState ρ) :=
  if headroom ≤ 200 then some { body, turnBudget := headroom }
  else
    (messageTurns fmt preFilter).bind fun preTurns =>
      (messageTurns fmt (body.map (·.1))).bind fun turns =>
        (preTurns.take (preTurns.length - turns.length)).reverse.foldlM (restoreTurn env fmt)
          { body, turnBudget := headroom }

end

/-! ## What is dropped -/

section

variable {fmt : ApiFormat} {compactedPrefixMessages : Int} {protectedRecentTurns : Nat}
  {dropBoundary : Option Int} {items : List (TurnItem ρ)} {turns : List (MessageTurn ρ)}
  {body : TracedBody ρ} {limit : Nat}

/-- The turns that stay when those without tools below a limit are dropped. -/
def keptTurns (fmt : ApiFormat) (limit : Nat) (turns : List (MessageTurn ρ)) :
    List (MessageTurn ρ) :=
  (turns.take limit).filter (·.hasToolActivity fmt) ++ turns.drop limit

theorem keptTurns_sublist (fmt : ApiFormat) (limit : Nat) (turns : List (MessageTurn ρ)) :
    (keptTurns fmt limit turns).Sublist turns := by
  conv_rhs => rw [← List.take_append_drop limit turns]
  exact List.filter_sublist.append (List.Sublist.refl _)

theorem droppedTurns_eq (fmt : ApiFormat) (compactedPrefixMessages : Int)
    (protectedRecentTurns : Nat) (dropBoundary : Option Int)
    (turns : List (MessageTurn ρ)) :
    ∃ limit, droppedTurns fmt compactedPrefixMessages protectedRecentTurns dropBoundary turns =
      (turns.take limit).filter (!·.hasToolActivity fmt) := by
  rw [droppedTurns]
  split_ifs
  · exact ⟨0, rfl⟩
  · have htake {front all : List (MessageTurn ρ)} (hfront : front <+: all) (n : Nat) :
        front.take n = all.take (min n front.length) := by
      obtain ⟨rest, rfl⟩ := hfront
      rw [List.take_append_of_le_length (Nat.min_le_right _ _), ← List.take_take,
        List.take_length]
    refine ⟨min (dropLimit protectedRecentTurns dropBoundary turns)
      (historyTurns turns).length, ?_⟩
    rw [htake (historyTurns_prefix_turns turns)]

/-- The body without the dropped turns. -/
theorem dropCompactedTurns_eq (hturns : messageTurns fmt items = some turns)
    (h : dropCompactedTurns fmt compactedPrefixMessages protectedRecentTurns dropBoundary
      items.zipIdx = some body) :
    body = items.zipIdx.filter (·.2 ∉ (droppedTurns fmt compactedPrefixMessages
      protectedRecentTurns dropBoundary turns).flatMap (·.indices)) := by
  rw [dropCompactedTurns] at h
  split_ifs at h with hnone
  · rw [droppedTurns, if_pos hnone]
    simpa using (Option.some.inj h).symm
  · rw [List.zipIdx_map_fst, hturns, Option.map_some] at h
    rw [← Option.some.inj h, removeItems_eq (List.pairwise_lt_range.sublist List.filter_sublist),
      replaceAt_zipIdx]
    generalize (droppedTurns fmt compactedPrefixMessages protectedRecentTurns dropBoundary
      turns).flatMap (·.indices) = dropped
    refine List.filter_congr fun entry hentry => ?_
    have hlt := (List.getElem?_eq_some_iff.mp (List.mem_zipIdx_iff_getElem?.mp hentry)).1
    simp [hlt]

/-- The items of the turns that stay. -/
theorem messages_of_dropped (hturns : messageTurns fmt items = some turns) :
    (items.zipIdx.filter (·.2 ∉ ((turns.take limit).filter
      (!·.hasToolActivity fmt)).flatMap (·.indices))).filter (·.1.isMessage) =
      (keptTurns fmt limit turns).flatten := by
  have hsplit : turns.flatten = (turns.take limit).flatten ++ (turns.drop limit).flatten := by
    rw [← List.flatten_append, List.take_append_drop]
  have hmem {turn : MessageTurn ρ} {entry : TurnItem ρ × Nat} (hentry : entry ∈ turn) :
      entry.2 ∈ ((turns.take limit).filter (!·.hasToolActivity fmt)).flatMap (·.indices) ↔
        ∃ other ∈ turns.take limit, other.hasToolActivity fmt = false ∧
          ∃ entry' ∈ other, entry'.2 = entry.2 := by
    simp [MessageTurn.indices, and_assoc]
  rw [List.filter_comm, ← flatten_messageTurns hturns, hsplit, List.filter_append, keptTurns,
    List.flatten_append]
  congr 1
  · refine filter_flatten fun turn hturn entry hentry => ?_
    rw [decide_not, Bool.not_eq_eq_eq_not, Bool.eq_iff_iff, decide_eq_true_iff,
      hmem hentry]
    constructor
    · rintro ⟨other, hother, hplain, entry', hentry', heq⟩
      rw [eq_of_mem_turns hturns (List.mem_of_mem_take hturn) (List.mem_of_mem_take hother)
        hentry hentry' heq.symm, hplain]
      rfl
    · intro hplain
      exact ⟨turn, hturn, by simpa using hplain, entry, hentry, rfl⟩
  · rw [List.filter_eq_self]
    intro entry hentry
    rw [decide_eq_true_iff]
    intro hdropped
    obtain ⟨turn, hturn, hin⟩ := List.mem_flatten.mp hentry
    obtain ⟨other, hother, -, entry', hentry', heq⟩ := (hmem hin).mp hdropped
    have hincreasing := List.pairwise_map.mp (indices_increasing hturns)
    rw [hsplit, List.pairwise_append] at hincreasing
    have hlt := hincreasing.2.2 entry' (List.mem_flatten.mpr ⟨other, hother, hentry'⟩) entry
      hentry
    exact Nat.ne_of_lt hlt heq

end

/-! ## What is restored -/

/-- `m.get("role") in ("system", "developer")` -/
def TurnItem.isLeading (item : TurnItem ρ) : Bool :=
  item.role = some "system" || item.role = some "developer"

/-- A turn but perhaps the first one. -/
def BeginsWithUser (fmt : ApiFormat) (turn : MessageTurn ρ) : Prop :=
  ∃ first rest, turn = first :: rest ∧ first.1.isRealUser fmt = true

section

variable {env : RestoreEnv ρ} {fmt : ApiFormat} {turn : MessageTurn ρ} {items : TracedBody ρ}

theorem role_of_isRealUser {item : TurnItem ρ} (h : item.isRealUser fmt = true) :
    item.role = some "user" := by
  cases item with
  | other value => cases h
  | message msg =>
      unfold TurnItem.isRealUser StubMessage.isRealUser at h
      exact of_decide_eq_true (Bool.and_eq_true_iff.mp h).1

theorem not_isLeading_of_user {item : TurnItem ρ} (h : item.role = some "user") :
    item.isLeading = false := by
  simp [TurnItem.isLeading, h]

theorem isMessage_of_isLeading {item : TurnItem ρ} (h : item.isLeading = true) :
    item.isMessage = true := by
  cases item with
  | other value => cases h
  | message msg => rfl

/-- Only messages of a turn are restored, in their order. -/
theorem sanitizeRestoredTurn_sublist (h : sanitizeRestoredTurn env turn = some items) :
    (items.map (·.2)).Sublist (turn.map (·.2)) := by
  induction turn generalizing items with
  | nil =>
      obtain rfl := Option.some.inj h
      exact List.Sublist.refl _
  | cons entry rest ih =>
      obtain ⟨item, -, h⟩ := Option.bind_eq_some_iff.mp h
      obtain ⟨others, hothers, rfl⟩ := Option.map_eq_some_iff.mp h
      have hrest := ih hothers
      cases item with
      | none => exact hrest.cons _
      | some item => exact hrest.cons_cons _

/-- The user message that begins a turn is restored. -/
theorem sanitizeRestoredTurn_begins (h : sanitizeRestoredTurn env turn = some items)
    (hbegins : BeginsWithUser fmt turn) :
    ∃ first rest, items = first :: rest ∧ first.1.role = some "user" := by
  obtain ⟨entry, rest, rfl, huser⟩ := hbegins
  obtain ⟨item, hitem, h⟩ := Option.bind_eq_some_iff.mp h
  obtain ⟨others, -, rfl⟩ := Option.map_eq_some_iff.mp h
  have hrole := role_of_isRealUser huser
  cases hentry : entry.1 with
  | other value => simp [hentry, TurnItem.role] at hrole
  | message msg =>
      rw [hentry] at hrole hitem
      obtain ⟨content, -, hsanitized⟩ := Option.map_eq_some_iff.mp hitem
      have hmsg : msg.role = some "user" := hrole
      rw [if_neg (by simp [hmsg])] at hsanitized
      subst hsanitized
      exact ⟨_, others, rfl, hmsg⟩

variable (env fmt) in
/-- A turn that could be restored with so many tokens. -/
def Restorable (tokens : Int) (turn : MessageTurn ρ) : Prop :=
  turn.hasToolActivity fmt = false ∧
    ∃ items, sanitizeRestoredTurn env turn = some items ∧ (env.tokens items : Int) ≤ tokens

variable (env fmt) in
/-- After a walk over turns from the newest on, what was restored stands behind the
system messages, and the first turn that could be restored was. -/
structure Restores (headroom : Int) (body : TracedBody ρ) (walked : List (MessageTurn ρ))
    (st : RestoreState ρ) : Prop where
  turns : (st.restored.map (·.turn)).Sublist walked.reverse
  sanitized : ∀ r ∈ st.restored, r.turn.hasToolActivity fmt = false ∧
    sanitizeRestoredTurn env r.turn = some r.items ∧ (env.tokens r.items : Int) ≤ headroom
  budget : ((st.restored.map fun r => env.tokens r.items).sum : Int) + st.turnBudget = headroom
  nonneg : 0 ≤ st.turnBudget
  placed : st.body = body.takeWhile (·.1.isLeading) ++ st.restored.flatMap (·.items) ++
    body.dropWhile (·.1.isLeading)
  behind : st.restored ≠ [] →
    ∀ entry ∈ (body.dropWhile (·.1.isLeading)).head?, entry.1.isMessage = true
  newest : ∀ before turn after, walked = before ++ turn :: after →
    Restorable env fmt headroom turn → ∃ r ∈ st.restored, r.turn ∈ before ++ [turn]

variable {headroom : Int} {body : TracedBody ρ} {walked : List (MessageTurn ρ)}
  {st st' : RestoreState ρ}

theorem restores_start (h : 0 ≤ headroom) :
    Restores env fmt headroom body [] { body, turnBudget := headroom } where
  turns := List.Sublist.refl _
  sanitized := by simp
  budget := by simp
  nonneg := h
  placed := by simp
  behind hne := absurd rfl hne
  newest := by simp

theorem insertionPoint_append {lead rest : TracedBody ρ}
    (hlead : ∀ entry ∈ lead, entry.1.isLeading = true)
    (hrest : ∀ entry ∈ rest.head?, entry.1.isLeading = false) {position : Nat}
    (h : insertionPoint (lead ++ rest) = some position) :
    position = lead.length ∧ ∀ entry ∈ rest.head?, entry.1.isMessage = true := by
  have hprefix : prefixLength (·.1.role) (lead ++ rest) = lead.length := by
    have htake : rest.takeWhile (·.1.isLeading) = [] := by
      cases rest with
      | nil => rfl
      | cons entry rest => rw [List.takeWhile_cons, hrest entry rfl, if_neg Bool.false_ne_true]
    change ((lead ++ rest).takeWhile (·.1.isLeading)).length = _
    rw [List.takeWhile_append_of_pos hlead, htake, List.append_nil]
  rw [insertionPoint, hprefix, List.getElem?_append_right (Nat.le_refl _), Nat.sub_self] at h
  cases rest with
  | nil => exact ⟨(Option.some.inj h).symm, by simp⟩
  | cons entry rest =>
      obtain ⟨item, index⟩ := entry
      cases item with
      | other value => cases h
      | message msg =>
          refine ⟨(Option.some.inj h).symm, fun entry hentry => ?_⟩
          obtain rfl := Option.some.inj hentry
          rfl

/-- The restored turns begin with a user, so the place behind the system messages stays. -/
theorem Restores.insertionPoint_eq (h : Restores env fmt headroom body walked st)
    (hbegins : ∀ turn ∈ walked, BeginsWithUser fmt turn) {position : Nat}
    (hposition : insertionPoint st.body = some position) :
    position = (body.takeWhile (·.1.isLeading)).length ∧
      ∀ entry ∈ (body.dropWhile (·.1.isLeading)).head?, entry.1.isMessage = true := by
  have hlead (entry : TurnItem ρ × Nat) (hentry : entry ∈ body.takeWhile (·.1.isLeading)) :
      entry.1.isLeading = true :=
    List.mem_takeWhile_imp (p := fun entry : TurnItem ρ × Nat => entry.1.isLeading) hentry
  rw [h.placed, List.append_assoc] at hposition
  cases hrestored : st.restored with
  | nil =>
      rw [hrestored, List.flatMap_nil, List.nil_append] at hposition
      refine insertionPoint_append hlead (fun entry hentry => ?_) hposition
      have hhead := List.head?_dropWhile_not
        (fun entry : TurnItem ρ × Nat => entry.1.isLeading) body
      rw [Option.mem_def.mp hentry] at hhead
      exact hhead
  | cons r others =>
      refine ⟨(insertionPoint_append hlead (fun entry hentry => ?_) hposition).1,
        h.behind (by simp [hrestored])⟩
      have hmem : r ∈ st.restored := by simp [hrestored]
      have hwalked : r.turn ∈ walked :=
        List.mem_reverse.mp (h.turns.subset (List.mem_map_of_mem hmem))
      obtain ⟨first, rest, hitems, huser⟩ :=
        sanitizeRestoredTurn_begins (h.sanitized r hmem).2.1 (hbegins r.turn hwalked)
      rw [hrestored, List.flatMap_cons, hitems] at hentry
      obtain rfl := Option.some.inj hentry
      exact not_isLeading_of_user huser

theorem Restores.step (h : Restores env fmt headroom body walked st)
    (hbegins : ∀ turn ∈ walked, BeginsWithUser fmt turn)
    (hstep : restoreTurn env fmt st turn = some st') :
    Restores env fmt headroom body (walked ++ [turn]) st' := by
  have hnewest (new : RestoreState ρ) (hsub : st.restored ⊆ new.restored)
      (hturn : st.restored = [] → Restorable env fmt headroom turn →
        ∃ r ∈ new.restored, r.turn = turn)
      (before : List (MessageTurn ρ)) (other : MessageTurn ρ) (after : List (MessageTurn ρ))
      (hsplit : walked ++ [turn] = before ++ other :: after)
      (hother : Restorable env fmt headroom other) :
      ∃ r ∈ new.restored, r.turn ∈ before ++ [other] := by
    cases after using List.reverseRecOn with
    | nil =>
        obtain ⟨rfl, heq⟩ := List.append_inj' hsplit rfl
        obtain rfl := (List.cons.inj heq).1
        cases hrestored : st.restored with
        | nil =>
            obtain ⟨r, hr, rfl⟩ := hturn hrestored hother
            exact ⟨r, hr, by simp⟩
        | cons r others =>
            have hr : r ∈ st.restored := by simp [hrestored]
            have hwalked := h.turns.subset (List.mem_map_of_mem hr)
            exact ⟨r, hsub hr, List.mem_append_left _ (List.mem_reverse.mp hwalked)⟩
    | append_singleton after last =>
        rw [← List.cons_append, ← List.append_assoc] at hsplit
        obtain ⟨hwalked, -⟩ := List.append_inj' hsplit rfl
        obtain ⟨r, hr, hin⟩ := h.newest before other after hwalked hother
        exact ⟨r, hsub hr, hin⟩
  have hturns : (st.restored.map (·.turn)).Sublist (walked ++ [turn]).reverse := by
    rw [List.reverse_append]
    exact h.turns.cons _
  rw [restoreTurn] at hstep
  split_ifs at hstep with htools
  · obtain rfl := Option.some.inj hstep
    refine { h with turns := hturns, newest := hnewest st (List.Subset.refl _) ?_ }
    rintro - ⟨hplain, -⟩
    rw [htools] at hplain
    cases hplain
  · obtain ⟨items, hitems, hstep⟩ := Option.bind_eq_some_iff.mp hstep
    split_ifs at hstep with hlarge
    · obtain rfl := Option.some.inj hstep
      refine { h with turns := hturns, newest := hnewest st (List.Subset.refl _) ?_ }
      rintro hnone ⟨-, other, hother, hfits⟩
      obtain rfl := Option.some.inj (hitems.symm.trans hother)
      have hbudget := h.budget
      rw [hnone] at hbudget
      simp only [List.map_nil, List.sum_nil, Nat.cast_zero] at hbudget
      omega
    · obtain ⟨position, hposition, rfl⟩ := Option.map_eq_some_iff.mp hstep
      obtain ⟨rfl, hmessage⟩ := h.insertionPoint_eq hbegins hposition
      have hbudget := h.budget
      refine ⟨?_, ?_, ?_, ?_, ?_, fun _ => hmessage, hnewest _ ?_ ?_⟩
      · rw [List.reverse_append]
        exact h.turns.cons_cons _
      · rintro r hr
        rcases List.mem_cons.mp hr with rfl | hr
        · refine ⟨by simpa using htools, hitems, ?_⟩
          dsimp only
          have hnonneg : (0 : Int) ≤
            ((st.restored.map fun r => env.tokens r.items).sum : Nat) := Int.natCast_nonneg _
          omega
        · exact h.sanitized r hr
      · rw [List.map_cons, List.sum_cons, Nat.cast_add]
        dsimp only
        omega
      · dsimp only
        omega
      · have hplaced := h.placed
        rw [List.append_assoc] at hplaced
        dsimp only
        rw [hplaced, insertItems_eq, insertAt, List.take_left, List.drop_left,
          List.flatMap_cons]
        simp only [List.append_assoc]
      · exact List.subset_cons_self _ _
      · exact fun _ _ => ⟨_, List.mem_cons_self, rfl⟩

/-- The whole walk. -/
theorem Restores.walk {walk : List (MessageTurn ρ)}
    (h : Restores env fmt headroom body walked st)
    (hbegins : ∀ turn ∈ (walked ++ walk).dropLast, BeginsWithUser fmt turn)
    (hwalk : walk.foldlM (restoreTurn env fmt) st = some st') :
    Restores env fmt headroom body (walked ++ walk) st' := by
  induction walk generalizing walked st with
  | nil =>
      obtain rfl := Option.some.inj hwalk
      rwa [List.append_nil]
  | cons turn walk ih =>
      rw [List.foldlM_cons] at hwalk
      obtain ⟨next, hnext, hwalk⟩ := Option.bind_eq_some_iff.mp hwalk
      have hsplit : walked ++ turn :: walk = walked ++ [turn] ++ walk := by simp
      rw [hsplit] at hbegins ⊢
      refine ih (h.step (fun other hother => hbegins other ?_) hnext) hbegins hwalk
      rw [List.append_assoc, List.dropLast_append_of_ne_nil (by simp)]
      exact List.mem_append_left _ hother

end

/-! ## Order and budget -/

section

variable {env : RestoreEnv ρ} {fmt : ApiFormat} {compactedPrefixMessages : Int}
  {protectedRecentTurns : Nat} {dropBoundary : Option Int} {items : List (TurnItem ρ)}
  {turns : List (MessageTurn ρ)} {limit : Nat} {body : TracedBody ρ}

/-- What comes in order in the turns comes in order in the body. -/
theorem lt_of_turns (h : messageTurns fmt items = some turns) {i j : Nat}
    {turn other : MessageTurn ρ} (hi : turns[i]? = some turn) (hj : turns[j]? = some other)
    (hlt : i < j) {entry entry' : TurnItem ρ × Nat} (hentry : entry ∈ turn)
    (hentry' : entry' ∈ other) : entry.2 < entry'.2 := by
  obtain ⟨hleft, rfl⟩ := List.getElem?_eq_some_iff.mp hi
  obtain ⟨hright, rfl⟩ := List.getElem?_eq_some_iff.mp hj
  have hpairwise := (List.pairwise_flatten.mp (List.pairwise_map.mp (indices_increasing h))).2
  exact List.pairwise_iff_getElem.mp hpairwise i j hleft hright hlt entry hentry entry' hentry'

theorem mem_keptTurns_iff {turn : MessageTurn ρ} : turn ∈ keptTurns fmt limit turns ↔
    ∃ i, turns[i]? = some turn ∧ (turn.hasToolActivity fmt = true ∨ limit ≤ i) := by
  rw [keptTurns, List.mem_append, List.mem_filter]
  constructor
  · rintro (⟨hmem, htools⟩ | hmem)
    · obtain ⟨i, hi⟩ := List.mem_iff_getElem?.mp (List.mem_of_mem_take hmem)
      exact ⟨i, hi, .inl htools⟩
    · obtain ⟨i, hi⟩ := List.mem_iff_getElem?.mp hmem
      rw [List.getElem?_drop] at hi
      exact ⟨limit + i, hi, .inr (Nat.le_add_right _ _)⟩
  · rintro ⟨i, hi, hkept⟩
    rcases Nat.lt_or_ge i limit with hlt | hge
    · have htools := hkept.resolve_right (by omega)
      refine .inl ⟨List.mem_iff_getElem?.mpr ⟨i, ?_⟩, htools⟩
      rw [List.getElem?_take_of_lt hlt, hi]
    · refine .inr (List.mem_iff_getElem?.mpr ⟨i - limit, ?_⟩)
      rw [List.getElem?_drop, Nat.add_sub_cancel' hge, hi]

theorem beginsWithUser_of_pos (h : messageTurns fmt items = some turns) {i : Nat}
    {turn : MessageTurn ρ} (hi : turns[i]? = some turn) (hpos : 0 < i) :
    BeginsWithUser fmt turn := by
  have hruns := messageTurns_isRuns h
  obtain ⟨first, rest, rfl, -⟩ := hruns.inner turn (List.mem_iff_getElem?.mpr ⟨i, hi⟩)
  refine ⟨first, rest, rfl,
    hruns.begins (first :: rest) (List.mem_iff_getElem?.mpr ⟨i - 1, ?_⟩) first rfl⟩
  rw [List.getElem?_tail, Nat.sub_add_cancel hpos, hi]

/-- The first item of a turn has its least index. -/
theorem le_of_first (h : messageTurns fmt items = some turns) {first : TurnItem ρ × Nat}
    {rest : MessageTurn ρ} (hturn : first :: rest ∈ turns) {entry : TurnItem ρ × Nat}
    (hentry : entry ∈ first :: rest) : first.2 ≤ entry.2 := by
  have hpairwise := (List.pairwise_flatten.mp
    (List.pairwise_map.mp (indices_increasing h))).1 _ hturn
  rcases List.mem_cons.mp hentry with rfl | hrest
  · exact Nat.le_refl _
  · exact Nat.le_of_lt ((List.pairwise_cons.mp hpairwise).1 entry hrest)

/-- A body without some of its turns. -/
structure DropsTurns (fmt : ApiFormat) (items : List (TurnItem ρ))
    (turns : List (MessageTurn ρ)) (limit : Nat) (body : TracedBody ρ) : Prop where
  grouped : messageTurns fmt items = some turns
  sublist : body.Sublist items.zipIdx
  messages : body.filter (·.1.isMessage) = (keptTurns fmt limit turns).flatten

theorem dropCompactedTurns_drops (hturns : messageTurns fmt items = some turns)
    (h : dropCompactedTurns fmt compactedPrefixMessages protectedRecentTurns dropBoundary
      items.zipIdx = some body) :
    ∃ limit, DropsTurns fmt items turns limit body ∧
      droppedTurns fmt compactedPrefixMessages protectedRecentTurns dropBoundary turns =
        (turns.take limit).filter (!·.hasToolActivity fmt) := by
  obtain ⟨limit, hlimit⟩ := droppedTurns_eq fmt compactedPrefixMessages protectedRecentTurns
    dropBoundary turns
  rw [dropCompactedTurns_eq hturns h]
  refine ⟨limit, ⟨hturns, List.filter_sublist, ?_⟩, hlimit⟩
  rw [hlimit]
  exact messages_of_dropped hturns

namespace DropsTurns

theorem increasing (h : DropsTurns fmt items turns limit body) :
    (body.map (·.2)).Pairwise (· < ·) := by
  refine List.Pairwise.sublist (h.sublist.map _) ?_
  rw [List.zipIdx_map_snd]
  exact List.pairwise_lt_range'

theorem mem_body (h : DropsTurns fmt items turns limit body) {i : Nat}
    {turn : MessageTurn ρ} (hi : turns[i]? = some turn)
    (hkept : turn.hasToolActivity fmt = true ∨ limit ≤ i) {entry : TurnItem ρ × Nat}
    (hentry : entry ∈ turn) : entry ∈ body := by
  have hmem : entry ∈ body.filter (·.1.isMessage) := by
    rw [h.messages]
    exact List.mem_flatten.mpr ⟨turn, mem_keptTurns_iff.mpr ⟨i, hi, hkept⟩, hentry⟩
  exact (List.mem_filter.mp hmem).1

theorem turn_of_message (h : DropsTurns fmt items turns limit body)
    {entry : TurnItem ρ × Nat} (hentry : entry ∈ body) (hmessage : entry.1.isMessage = true) :
    ∃ i turn, turns[i]? = some turn ∧ (turn.hasToolActivity fmt = true ∨ limit ≤ i) ∧
      entry ∈ turn := by
  have hmem : entry ∈ (keptTurns fmt limit turns).flatten := by
    rw [← h.messages]
    exact List.mem_filter.mpr ⟨hentry, hmessage⟩
  obtain ⟨turn, hturn, hin⟩ := List.mem_flatten.mp hmem
  obtain ⟨i, hi, hkept⟩ := mem_keptTurns_iff.mp hturn
  exact ⟨i, turn, hi, hkept, hin⟩

/-- As many turns are missing as were dropped. -/
theorem count_eq (h : DropsTurns fmt items turns limit body) {left : List (MessageTurn ρ)}
    (hleft : messageTurns fmt (body.map (·.1)) = some left) :
    turns.length - left.length = ((turns.take limit).filter (!·.hasToolActivity fmt)).length := by
  have hbody : (body.map (·.1)).filter (·.isMessage) =
      (keptTurns fmt limit turns).flatten.map (·.1) := by
    rw [← h.messages, List.filter_map]
    rfl
  have hlength := length_messageTurns_kept h.grouped (keptTurns_sublist fmt limit turns) hbody hleft
  have hcount := List.length_eq_length_filter_add (l := turns.take limit)
    (·.hasToolActivity fmt)
  have hsplit : (turns.take limit).length + (turns.drop limit).length = turns.length := by
    rw [← List.length_append, List.take_append_drop]
  rw [hlength, keptTurns, List.length_append]
  omega

end DropsTurns

end

/-- The items are in the order of the body before filtering, none of them twice, and what
was restored stays within the tokens that were left. -/
structure RestoresInOrder (env : RestoreEnv ρ) (headroom : Int) (filled : RestoreState ρ) :
    Prop where
  increasing : (filled.body.map (·.2)).Pairwise (· < ·)
  budget : filled.restored ≠ [] →
    ((filled.restored.map fun r => env.tokens r.items).sum : Int) ≤ headroom

/-- Of so many turns, those that could be restored follow no turn with tools, unless it
is all system messages. -/
def FollowsNoTools (env : RestoreEnv ρ) (fmt : ApiFormat) (headroom : Int)
    (turns : List (MessageTurn ρ)) (count : Nat) : Prop :=
  200 < headroom → ∀ t turn, t < count → turns[t]? = some turn →
    Restorable env fmt headroom turn →
      ∀ s other, s < t → turns[s]? = some other → other.hasToolActivity fmt = true →
        ∀ entry ∈ other, entry.1.isLeading = true

section

variable {env : RestoreEnv ρ} {fmt : ApiFormat} {headroom : Int}
  {items : List (TurnItem ρ)} {turns : List (MessageTurn ρ)} {limit count : Nat}
  {body : TracedBody ρ} {filled : RestoreState ρ}

/-- A restored turn is one of the oldest, by its position. -/
theorem Restores.position (h : Restores env fmt headroom body (turns.take count).reverse filled)
    {r : RestoredTurn ρ} (hr : r ∈ filled.restored) : ∃ j < count, turns[j]? = some r.turn := by
  have hmem := h.turns.subset (List.mem_map_of_mem hr)
  rw [List.reverse_reverse] at hmem
  obtain ⟨j, hj⟩ := List.mem_iff_getElem?.mp hmem
  have hlt : j < count := by
    have hlength := (List.getElem?_eq_some_iff.mp hj).1
    rw [List.length_take] at hlength
    omega
  rw [List.getElem?_take_of_lt hlt] at hj
  exact ⟨j, hlt, hj⟩

/-- A turn that could be restored is, or a newer one. -/
theorem Restores.newer (h : Restores env fmt headroom body (turns.take count).reverse filled)
    {t : Nat} {turn : MessageTurn ρ} (ht : turns[t]? = some turn) (hlt : t < count)
    (hturn : Restorable env fmt headroom turn) :
    ∃ r ∈ filled.restored, ∃ j, t ≤ j ∧ turns[j]? = some r.turn := by
  obtain ⟨hlength, rfl⟩ := List.getElem?_eq_some_iff.mp ht
  have htake : t < (turns.take count).length := by
    rw [List.length_take]
    omega
  have hsplit : (turns.take count).reverse =
      ((turns.take count).drop (t + 1)).reverse ++
        turns[t] :: ((turns.take count).take t).reverse := by
    conv_lhs => rw [← List.take_append_drop t (turns.take count),
      List.drop_eq_getElem_cons htake, List.reverse_append, List.reverse_cons]
    simp
  obtain ⟨r, hr, hmem⟩ := h.newest _ _ _ hsplit hturn
  refine ⟨r, hr, ?_⟩
  rcases List.mem_append.mp hmem with hnewer | hsame
  · obtain ⟨i, hi⟩ := List.mem_iff_getElem?.mp (List.mem_reverse.mp hnewer)
    rw [List.getElem?_drop] at hi
    have hcount : t + 1 + i < count := by
      have hbound := (List.getElem?_eq_some_iff.mp hi).1
      rw [List.length_take] at hbound
      omega
    rw [List.getElem?_take_of_lt hcount] at hi
    exact ⟨t + 1 + i, by omega, hi⟩
  · rw [List.mem_singleton.mp hsame]
    exact ⟨t, Nat.le_refl _, List.getElem?_eq_getElem hlength⟩

/-- The restored items, by the turns they come from. -/
theorem Restores.source (h : Restores env fmt headroom body (turns.take count).reverse filled)
    {entry : TurnItem ρ × Nat} (hentry : entry ∈ filled.restored.flatMap (·.items)) :
    ∃ j < count, ∃ turn, turns[j]? = some turn ∧ Restorable env fmt headroom turn ∧
      ∃ entry' ∈ turn, entry'.2 = entry.2 := by
  obtain ⟨r, hr, hin⟩ := List.mem_flatMap.mp hentry
  obtain ⟨j, hj, hturn⟩ := h.position hr
  obtain ⟨hplain, hsanitized, hfits⟩ := h.sanitized r hr
  obtain ⟨entry', hentry', heq⟩ := List.mem_map.mp
    ((sanitizeRestoredTurn_sublist hsanitized).subset (List.mem_map_of_mem hin))
  exact ⟨j, hj, r.turn, hturn, ⟨hplain, r.items, hsanitized, hfits⟩, entry', hentry', heq⟩

/-- The restored items stand in the order of the body before filtering. -/
theorem Restores.increasing (h : Restores env fmt headroom body (turns.take count).reverse filled)
    (hturns : messageTurns fmt items = some turns) :
    ((filled.restored.flatMap (·.items)).map (·.2)).Pairwise (· < ·) := by
  have hsub : ((filled.restored.map (·.turn)).flatten.map (·.2)).Sublist
      (turns.flatten.map (·.2)) := by
    have hturn := h.turns
    rw [List.reverse_reverse] at hturn
    exact (hturn.trans (List.take_sublist _ _)).flatten.map _
  refine ((indices_increasing hturns).sublist hsub).sublist ?_
  have hsanitized : ∀ r ∈ filled.restored, (r.items.map (·.2)).Sublist (r.turn.map (·.2)) :=
    fun r hr => sanitizeRestoredTurn_sublist (h.sanitized r hr).2.1
  clear h hsub
  generalize filled.restored = restored at hsanitized ⊢
  induction restored with
  | nil => exact List.Sublist.refl _
  | cons r others ih =>
      rw [List.flatMap_cons, List.map_append, List.map_cons, List.flatten_cons, List.map_append]
      exact (hsanitized r List.mem_cons_self).append
        (ih fun other hother => hsanitized other (List.mem_cons_of_mem _ hother))

theorem not_same_turn (hlimit : count ≤ limit) {i j : Nat} {turn other : MessageTurn ρ}
    (hi : turns[i]? = some turn) (hj : turns[j]? = some other)
    (hkept : turn.hasToolActivity fmt = true ∨ limit ≤ i) (hcount : j < count)
    (hplain : other.hasToolActivity fmt = false) : i ≠ j := by
  rintro rfl
  obtain rfl := Option.some.inj (hi.symm.trans hj)
  rcases hkept with htools | hlarge
  · rw [hplain] at htools
    cases htools
  · omega

/-- System messages come before all that is restored. -/
theorem lead_lt_restored (h : DropsTurns fmt items turns limit body) (hlimit : count ≤ limit)
    (hfilled : Restores env fmt headroom body (turns.take count).reverse filled)
    {entry entry' : TurnItem ρ × Nat} (hentry : entry ∈ body.takeWhile (·.1.isLeading))
    (hentry' : entry' ∈ filled.restored.flatMap (·.items)) : entry.2 < entry'.2 := by
  have hleading : entry.1.isLeading = true :=
    List.mem_takeWhile_imp (p := fun entry : TurnItem ρ × Nat => entry.1.isLeading) hentry
  obtain ⟨i, turn, hi, hkept, hin⟩ := h.turn_of_message
    ((List.takeWhile_sublist _).subset hentry) (isMessage_of_isLeading hleading)
  obtain ⟨j, hj, other, hother, hrestorable, found, hfound, heq⟩ := hfilled.source hentry'
  rcases Nat.lt_trichotomy i j with hlt | hsame | hgt
  · rw [← heq]
    exact lt_of_turns h.grouped hi hother hlt hin hfound
  · exact absurd hsame (not_same_turn hlimit hi hother hkept hj hrestorable.1)
  · -- the user that begins the turn would come before its system message
    obtain ⟨first, rest, rfl, huser⟩ := beginsWithUser_of_pos h.grouped hi (by omega)
    have hfirst : first ∈ body := h.mem_body hi hkept List.mem_cons_self
    have hle := le_of_first h.grouped (List.mem_iff_getElem?.mpr ⟨i, hi⟩) hin
    rw [← List.takeWhile_append_dropWhile (p := fun entry : TurnItem ρ × Nat =>
      entry.1.isLeading) (l := body), List.mem_append] at hfirst
    have hbehind : first ∈ body.dropWhile (·.1.isLeading) := by
      refine hfirst.resolve_left fun hlead => ?_
      have htrue := List.mem_takeWhile_imp
        (p := fun entry : TurnItem ρ × Nat => entry.1.isLeading) hlead
      rw [not_isLeading_of_user (role_of_isRealUser huser)] at htrue
      cases htrue
    have hincreasing := List.pairwise_map.mp h.increasing
    rw [← List.takeWhile_append_dropWhile (p := fun entry : TurnItem ρ × Nat =>
      entry.1.isLeading) (l := body)] at hincreasing
    have hlt := (List.pairwise_append.mp hincreasing).2.2 entry hentry first hbehind
    omega

/-- What is restored comes before the rest if it follows no tools. -/
theorem restored_lt_behind (h : DropsTurns fmt items turns limit body) (hlimit : count ≤ limit)
    (hfilled : Restores env fmt headroom body (turns.take count).reverse filled)
    (hheadroom : 200 < headroom) (hfollows : FollowsNoTools env fmt headroom turns count)
    {entry entry' : TurnItem ρ × Nat} (hentry : entry ∈ body.dropWhile (·.1.isLeading))
    (hentry' : entry' ∈ filled.restored.flatMap (·.items)) : entry'.2 < entry.2 := by
  obtain ⟨j, hj, other, hother, hrestorable, found, hfound, heq⟩ := hfilled.source hentry'
  have hrestored : filled.restored ≠ [] := by
    rintro hnone
    rw [hnone] at hentry'
    cases hentry'
  obtain ⟨first, rest, hbehind⟩ : ∃ first rest,
      body.dropWhile (·.1.isLeading) = first :: rest :=
    List.exists_cons_of_ne_nil (List.ne_nil_of_mem hentry)
  have hsub : first ∈ body :=
    (List.dropWhile_sublist _).subset (by rw [hbehind]; exact List.mem_cons_self)
  have hmessage := hfilled.behind hrestored first (by rw [hbehind]; rfl)
  have hnot : first.1.isLeading = false := by
    have hhead := List.head?_dropWhile_not
      (fun entry : TurnItem ρ × Nat => entry.1.isLeading) body
    rw [hbehind] at hhead
    exact hhead
  have hle : first.2 ≤ entry.2 := by
    have hincreasing := (List.pairwise_map.mp h.increasing).sublist
      (List.dropWhile_sublist fun entry : TurnItem ρ × Nat => entry.1.isLeading)
    rw [hbehind] at hincreasing hentry
    rcases List.mem_cons.mp hentry with rfl | hrest
    · exact Nat.le_refl _
    · exact Nat.le_of_lt ((List.pairwise_cons.mp hincreasing).1 entry hrest)
  obtain ⟨i, turn, hi, hkept, hin⟩ := h.turn_of_message hsub hmessage
  rcases Nat.lt_trichotomy i j with hlt | hsame | hgt
  · -- a turn that stayed before a restored one has tools, and only system messages
    have htools := hkept.resolve_right (by omega)
    have hleading := hfollows hheadroom j other hj hother hrestorable i turn hlt hi htools
      first hin
    rw [hnot] at hleading
    cases hleading
  · exact absurd hsame (not_same_turn hlimit hi hother hkept hj hrestorable.1)
  · have hlt := lt_of_turns h.grouped hother hi hgt hfound hin
    omega

/-- What was restored is in order just if it follows no tools. -/
theorem increasing_filled_iff (h : DropsTurns fmt items turns limit body)
    (hlimit : count ≤ limit)
    (hfilled : Restores env fmt headroom body (turns.take count).reverse filled)
    (hheadroom : 200 < headroom) :
    (filled.body.map (·.2)).Pairwise (· < ·) ↔
      FollowsNoTools env fmt headroom turns count := by
  have hsplit : body.takeWhile (·.1.isLeading) ++ body.dropWhile (·.1.isLeading) = body :=
    List.takeWhile_append_dropWhile
  have hbody := List.pairwise_map.mp h.increasing
  rw [← hsplit] at hbody
  obtain ⟨hlead, hbehind, hcross⟩ := List.pairwise_append.mp hbody
  rw [List.pairwise_map, hfilled.placed, List.append_assoc]
  constructor
  · intro hincreasing _ t turn ht hturn hrestorable s other hs hother htools entry hentry
    by_contra hnot
    obtain ⟨r, hr, j, hle, hj⟩ := hfilled.newer hturn ht hrestorable
    obtain ⟨first, rest, hitems, -⟩ := sanitizeRestoredTurn_begins
      (hfilled.sanitized r hr).2.1 (beginsWithUser_of_pos h.grouped hj (by omega))
    have hfirst : first ∈ r.items := by
      rw [hitems]
      exact List.mem_cons_self
    have hmem : entry ∈ body.dropWhile (·.1.isLeading) := by
      have hin := h.mem_body hother (.inl htools) hentry
      rw [← hsplit, List.mem_append] at hin
      exact hin.resolve_left fun hlead => hnot (List.mem_takeWhile_imp
        (p := fun entry : TurnItem ρ × Nat => entry.1.isLeading) hlead)
    have hafter := (List.pairwise_append.mp (List.pairwise_append.mp hincreasing).2.1).2.2 first
      (List.mem_flatMap.mpr ⟨r, hr, hfirst⟩) entry hmem
    obtain ⟨found, hfound, heq⟩ := List.mem_map.mp
      ((sanitizeRestoredTurn_sublist (hfilled.sanitized r hr).2.1).subset
        (List.mem_map_of_mem hfirst))
    have hbefore := lt_of_turns h.grouped hother hj (by omega) hentry hfound
    omega
  · intro hfollows
    refine List.pairwise_append.mpr ⟨hlead, List.pairwise_append.mpr ⟨?_, hbehind, ?_⟩, ?_⟩
    · exact List.pairwise_map.mp (hfilled.increasing h.grouped)
    · exact fun entry hentry other hother =>
        restored_lt_behind h hlimit hfilled hheadroom hfollows hother hentry
    · intro entry hentry other hother
      rcases List.mem_append.mp hother with hrestored | hrest
      · exact lead_lt_restored h hlimit hfilled hentry hrestored
      · exact hcross entry hentry other hrest

end

/--
However turns were dropped, filling keeps the order of the turns and the budget exactly
if no turn that could be restored follows a turn with tools.
-/
theorem fill_restores_in_order_iff (env : RestoreEnv ρ) (fmt : ApiFormat)
    (compactedPrefixMessages : Int) (protectedRecentTurns : Nat) (dropBoundary : Option Int)
    (targetTokens outboundTokens : Int) (items : List (TurnItem ρ))
    (turns : List (MessageTurn ρ)) (body : TracedBody ρ) (filled : RestoreState ρ)
    (hturns : messageTurns fmt items = some turns)
    (hbody : dropCompactedTurns fmt compactedPrefixMessages protectedRecentTurns dropBoundary
      items.zipIdx = some body)
    (hfilled : fillTurns env fmt (targetTokens - outboundTokens) items body = some filled) :
    RestoresInOrder env (targetTokens - outboundTokens) filled ↔
      FollowsNoTools env fmt (targetTokens - outboundTokens) turns
        (droppedTurns fmt compactedPrefixMessages protectedRecentTurns dropBoundary
          turns).length := by
  obtain ⟨limit, hdrops, hdropped⟩ := dropCompactedTurns_drops hturns hbody
  rw [fillTurns] at hfilled
  split_ifs at hfilled with hsmall
  · obtain rfl := Option.some.inj hfilled
    refine iff_of_true ⟨hdrops.increasing, fun hne => absurd rfl hne⟩ fun hlarge => ?_
    omega
  · rw [hturns, Option.bind_some] at hfilled
    obtain ⟨left, hleft, hwalk⟩ := Option.bind_eq_some_iff.mp hfilled
    rw [hdrops.count_eq hleft, ← hdropped] at hwalk
    generalize hcount : (droppedTurns fmt compactedPrefixMessages protectedRecentTurns
      dropBoundary turns).length = count at *
    have hlimit : count ≤ limit := by
      rw [← hcount, hdropped]
      exact (List.length_filter_le _ _).trans (List.length_take_le _ _)
    have hstart : Restores env fmt (targetTokens - outboundTokens) body []
        { body, turnBudget := targetTokens - outboundTokens } :=
      restores_start (by omega : (0 : Int) ≤ targetTokens - outboundTokens)
    have hrestores := hstart.walk (fun turn hturn => ?_) hwalk
    · rw [List.nil_append] at hrestores
      have hiff := increasing_filled_iff hdrops hlimit hrestores (by omega)
      refine ⟨fun h => hiff.mp h.increasing, fun h => ⟨hiff.mpr h, fun _ => ?_⟩⟩
      have hbudget := hrestores.budget
      have hnonneg := hrestores.nonneg
      omega
    · rw [List.nil_append, List.dropLast_reverse, List.mem_reverse] at hturn
      obtain ⟨i, hi⟩ := List.mem_iff_getElem?.mp hturn
      rw [List.getElem?_tail] at hi
      have htaken := (List.take_sublist count turns)
      have hget : turns[i + 1]? = some turn := by
        have hlt := (List.getElem?_eq_some_iff.mp hi).1
        rw [List.length_take] at hlt
        rwa [List.getElem?_take_of_lt (by omega)] at hi
      exact beginsWithUser_of_pos hturns hget (Nat.succ_pos i)

/-! ## Small bodies -/

/-- Every message takes 100 tokens. -/
def flatDumps : RestoreEnv String where
  sourceType _ := some none
  dumpedLength items := 400 * items.length

def saying (role text : String) : TurnItem String :=
  .message { role := some role, content := .text text.toList }

/-- Three turns and a question. -/
def plainExchange : List (TurnItem String) :=
  [saying "user" "hello", saying "assistant" "hi", saying "user" "how are you",
    saying "assistant" "fine", saying "user" "bye"]

/-- The same after a turn with a tool. -/
def toolsFirst : List (TurnItem String) :=
  [saying "user" "check the logs",
    .message {
      role := some "assistant", toolCalls := [{ id := "call_1", name := "read_file" }] },
    .message {
      role := some "tool", toolCallId := "call_1", content := .text "404".toList }] ++
    plainExchange

/-- The first of the dropped turns comes back before the turn with the tool. -/
theorem restored_before_tools :
    (dropCompactedTurns .openai 8 0 none toolsFirst.zipIdx).bind (fun body =>
      (fillTurns flatDumps .openai 300 toolsFirst body).map fun filled =>
        (body.map (·.2), filled.body.map (·.2))) =
      some ([0, 1, 2, 7], [3, 4, 0, 1, 2, 7]) := by
  decide +kernel

/-- Without tools before them, both turns come back in order. -/
theorem fill_restores_in_order_iff_plain :
    ∃ turns, messageTurns .openai plainExchange = some turns ∧
      FollowsNoTools flatDumps .openai (1000 - 500) turns
        (droppedTurns .openai 8 0 none turns).length := by
  refine ⟨(messageTurns .openai plainExchange).get (by decide +kernel),
    (Option.some_get _).symm, ?_⟩
  refine (fill_restores_in_order_iff flatDumps .openai 8 0 none 1000 500 plainExchange _
    ((dropCompactedTurns .openai 8 0 none plainExchange.zipIdx).get (by decide +kernel))
    ((fillTurns flatDumps .openai (1000 - 500) plainExchange
      ((dropCompactedTurns .openai 8 0 none plainExchange.zipIdx).get
        (by decide +kernel))).get (by decide +kernel))
    (Option.some_get _).symm (Option.some_get _).symm (Option.some_get _).symm).mp ⟨?_, ?_⟩
  · decide +kernel
  · intro _
    decide +kernel

end VirtualContext
