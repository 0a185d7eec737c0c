import Mathlib.Data.List.Pairwise
import VirtualContext.Library.Replacements
import VirtualContext.Library.Runs
import VirtualContext.Proxy.ToolOutputs

/-!
# Turns of a request

The items of a body are grouped into turns.  A last turn without an answer is
the question at hand, the others are the history, and the newest of them are
protected.
-/

namespace VirtualContext

open VirtualContext.Library

variable {ρ : Type}

/-! ## Bodies -/

/-- What `tool_calls` is if no dict is in it. -/
inductive EmptyToolCalls where
  | missing
  | null
  | list
  deriving DecidableEq, Repr

structure TurnMessage (ρ : Type) extends StubMessage ρ where
  emptyToolCalls : EmptyToolCalls := .missing
  deriving DecidableEq, Repr

/-- An item of the message list, which may be no dict. -/
inductive TurnItem (ρ : Type) where
  | message (message : TurnMessage ρ)
  | other (value : ρ)
  deriving DecidableEq, Repr

namespace TurnMessage

variable (msg : TurnMessage ρ)

/-- `isinstance(msg.get("tool_calls"), list)` -/
def hasToolCallsList : Bool := !msg.toolCalls.isEmpty || msg.emptyToolCalls = .list

/-- `for tc in msg.get("tool_calls", [])` fails. -/
def hasNullToolCalls : Bool := msg.toolCalls.isEmpty && msg.emptyToolCalls = .null

/-- The signals of tool activity, in a message that begins no turn. -/
def bringsTools : ApiFormat → Bool
  | .anthropic =>
      (msg.role = some "assistant" &&
        msg.blocks.any (·.type? = some (some "tool_use"))) || msg.role = some "user"
  | .openai =>
      msg.role = some "tool" || (msg.role = some "assistant" && msg.hasToolCallsList)
  | .gemini => msg.parts.any fun part => part.functionCall || part.functionResponse
  | .openaiResponses =>
      msg.role ≠ some "user" &&
        (msg.type = some "function_call" || msg.type = some "function_call_output")

end TurnMessage

namespace TurnItem

def isMessage : TurnItem ρ → Bool
  | message _ => true
  | other _ => false

def isRealUser (fmt : ApiFormat) : TurnItem ρ → Bool
  | message msg => msg.isRealUser fmt
  | other _ => false

def isUser : TurnItem ρ → Bool
  | message msg => msg.role = some "user" || msg.role = some "human"
  | other _ => false

def bringsTools (fmt : ApiFormat) : TurnItem ρ → Bool
  | message msg => !msg.isRealUser fmt && msg.bringsTools fmt
  | other _ => false

end TurnItem

/-! ## Turns -/

/-- The items of a turn with their indices in the body. -/
abbrev MessageTurn (ρ : Type) := List (TurnItem ρ × Nat)

/-- `group_into_turns`; only the Responses API passes over what is no dict. -/
def messageTurns (fmt : ApiFormat) (items : List (TurnItem ρ)) :
    Option (List (MessageTurn ρ)) :=
  if fmt ≠ .openaiResponses ∧ !items.all (·.isMessage) then none
  else
    some (groupRuns (·.1.isRealUser fmt) (items.zipIdx.filter (·.1.isMessage)))

namespace MessageTurn

def hasToolActivity (fmt : ApiFormat) (turn : MessageTurn ρ) : Bool :=
  turn.any (·.1.bringsTools fmt)

def indices (turn : MessageTurn ρ) : List Nat := turn.map (·.2)

end MessageTurn

/-- The turns but a last one that only asks. -/
def historyTurns (turns : List (MessageTurn ρ)) : List (MessageTurn ρ) :=
  match turns.getLast? with
  | some last => if last.all (·.1.isUser) then turns.dropLast else turns
  | none => []

/-- The history turns before the protected ones. -/
def unprotectedTurns (protectedRecentTurns : Nat) (turns : List (MessageTurn ρ)) :
    List (MessageTurn ρ) :=
  let total := (historyTurns turns).length
  (historyTurns turns).take (total - min protectedRecentTurns total)

/-! ## Changes to a list -/

section

variable {α : Type}

/-- `remove_items`, which pops the highest index first. -/
def removeItems (items : List α) (indices : List Nat) : List α :=
  (orderBy id indices).reverse.foldl List.eraseIdx items

/-- `insert_items`, which inserts one item after the other. -/
def insertItems (items : List α) (position : Nat) (new : List α) : List α :=
  new.zipIdx.foldl (fun items entry => insertAt (position + entry.2) [entry.1] items) items

theorem removeItems_eq {indices : List Nat} (h : indices.Pairwise (· < ·)) (items : List α) :
    removeItems items indices =
      replaceAt (fun _ => []) (fun index => index ∈ indices) 0 items := by
  have hsorted : orderBy id indices = indices := orderBy_of_increasing h
  rw [removeItems, hsorted, foldl_eraseIdx (List.pairwise_reverse.mpr h)]
  exact replaceAt_congr fun index _ _ => ⟨rfl, by simp⟩

theorem insertItems_eq (items : List α) (position : Nat) (new : List α) :
    insertItems items position new = insertAt position new items := by
  induction new using List.reverseRecOn with
  | nil => exact (insertAt_nil position items).symm
  | append_singleton new item ih =>
      rw [insertItems, List.zipIdx_append, List.foldl_append]
      change List.foldl _ (insertItems items position new) _ = _
      rw [ih]
      simp only [List.zipIdx_singleton, List.foldl_cons, List.foldl_nil, Nat.zero_add]
      rcases Nat.le_total position items.length with hle | hge
      · have hlength : (items.take position ++ new).length = position + new.length := by
          rw [List.length_append, List.length_take]
          omega
        rw [insertAt, insertAt, insertAt, List.take_left' hlength, List.drop_left' hlength]
        simp
      · rw [insertAt, insertAt, insertAt, List.take_of_length_le hge,
          List.drop_eq_nil_of_le hge, List.append_nil,
          List.take_of_length_le (by rw [List.length_append]; omega),
          List.drop_eq_nil_of_le (by rw [List.length_append]; omega)]
        simp

end

/-! ## Facts -/

section

variable {fmt : ApiFormat} {items : List (TurnItem ρ)} {turns : List (MessageTurn ρ)}

theorem flatten_messageTurns (h : messageTurns fmt items = some turns) :
    turns.flatten = items.zipIdx.filter (·.1.isMessage) := by
  obtain ⟨-, h⟩ := Option.ite_none_left_eq_some.mp h
  obtain rfl := Option.some.inj h
  exact flatten_groupRuns _

theorem messageTurns_isRuns (h : messageTurns fmt items = some turns) :
    IsRuns (fun entry => entry.1.isRealUser fmt) turns := by
  obtain ⟨-, h⟩ := Option.ite_none_left_eq_some.mp h
  obtain rfl := Option.some.inj h
  exact groupRuns_isRuns _

theorem historyTurns_prefix_turns (turns : List (MessageTurn ρ)) :
    historyTurns turns <+: turns := by
  rw [historyTurns]
  cases turns.getLast? with
  | none => exact List.nil_prefix
  | some last =>
      dsimp only
      split_ifs
      · exact List.dropLast_prefix _
      · exact List.prefix_rfl

theorem unprotectedTurns_sublist (protectedRecentTurns : Nat) (turns : List (MessageTurn ρ)) :
    (unprotectedTurns protectedRecentTurns turns).Sublist turns :=
  (List.take_sublist _ _).trans (historyTurns_prefix_turns turns).sublist

/-- The indices of an item stand in the order of the body. -/
theorem indices_increasing (h : messageTurns fmt items = some turns) :
    (turns.flatten.map (·.2)).Pairwise (· < ·) := by
  rw [flatten_messageTurns h]
  refine List.Pairwise.sublist (List.filter_sublist.map _) ?_
  rw [List.zipIdx_map_snd]
  exact List.pairwise_lt_range'

theorem mem_items {turn : MessageTurn ρ} {entry : TurnItem ρ × Nat}
    (h : messageTurns fmt items = some turns) (hturn : turn ∈ turns) (hentry : entry ∈ turn) :
    items[entry.2]? = some entry.1 := by
  have hmem : entry ∈ turns.flatten := List.mem_flatten.mpr ⟨turn, hturn, hentry⟩
  rw [flatten_messageTurns h] at hmem
  exact List.mem_zipIdx_iff_getElem?.mp (List.mem_filter.mp hmem).1

/-- An item is in one turn only. -/
theorem eq_of_mem_turns (h : messageTurns fmt items = some turns) {turn other : MessageTurn ρ}
    (hturn : turn ∈ turns) (hother : other ∈ turns) {entry entry' : TurnItem ρ × Nat}
    (hentry : entry ∈ turn) (hentry' : entry' ∈ other) (heq : entry.2 = entry'.2) :
    turn = other := by
  have hpairwise := (List.pairwise_flatten.mp (List.pairwise_map.mp (indices_increasing h))).2
  have hne : turns.Pairwise fun t t' => ∀ a ∈ t, ∀ b ∈ t', a.2 ≠ b.2 :=
    hpairwise.imp fun hlt a ha b hb => Nat.ne_of_lt (hlt a ha b hb)
  have hsymm : Std.Symm fun t t' : MessageTurn ρ => ∀ a ∈ t, ∀ b ∈ t', a.2 ≠ b.2 :=
    ⟨fun _ _ hne a ha b hb => (hne b hb a ha).symm⟩
  by_contra hdiff
  exact hne.forall hturn hother hdiff entry hentry entry' hentry' heq

/-- Where turns are left out, the others are the turns of what is left. -/
theorem length_messageTurns_kept (h : messageTurns fmt items = some turns)
    {kept : List (MessageTurn ρ)} (hkept : kept.Sublist turns) {body : List (TurnItem ρ)}
    (hbody : body.filter (·.isMessage) = kept.flatten.map (·.1)) {left : List (MessageTurn ρ)}
    (hleft : messageTurns fmt body = some left) : left.length = kept.length := by
  have hruns := (messageTurns_isRuns h).sublist hkept
  obtain ⟨-, hleft⟩ := Option.ite_none_left_eq_some.mp hleft
  obtain rfl := Option.some.inj hleft
  have hmap (entries : List (TurnItem ρ × Nat)) :
      (groupRuns (fun entry => entry.1.isRealUser fmt) entries).length =
        (groupRuns (·.isRealUser fmt) (entries.map (·.1))).length := by
    rw [groupRuns_map, List.length_map]
    rfl
  have hsame : (body.zipIdx.filter (·.1.isMessage)).map (·.1) = kept.flatten.map (·.1) := by
    rw [← hbody]
    conv_rhs => rw [← List.zipIdx_map_fst 0 body, List.filter_map]
    rfl
  rw [hmap, hsame, ← hmap, hruns.groupRuns_flatten]

end

end VirtualContext
