import Mathlib.Algebra.Order.Field.Rat
import Mathlib.Data.Prod.Lex
import Mathlib.Data.String.Basic
import VirtualContext.Library.Ordered
import VirtualContext.Storage.Tables

/-!
# The protected window

`_merge_protected_window` appends recent rows of the store to the payload,
except those that the payload carries already.  A row is recognized by its
identifier or by its hash, and the rows that were appended count as carried.
-/

namespace VirtualContext

open VirtualContext.Library

/-! ## Messages -/

/-- A value in a metadata dictionary; identifiers and digests are strings. -/
inductive MetadataValue where
  | turnId (id : Uuid)
  | digest (hash : HexDigest)
  | text (value : String)
  | int (value : Int)
  deriving DecidableEq, Repr

/-- A message; its timestamps are of a type `τ` of points in time. -/
structure Message (τ : Type) where
  role : String
  content : String
  timestamp : Option τ := none
  metadata : Option (List (String × MetadataValue)) := none
  deriving DecidableEq, Repr

namespace Message

variable {τ : Type}

def metadataValue (message : Message τ) (key : String) : Option MetadataValue :=
  (message.metadata.getD []).lookup key

/-- `metadata.get("canonical_turn_id")`, if it is an identifier. -/
def canonicalTurnId? (message : Message τ) : Option Uuid :=
  match message.metadataValue "canonical_turn_id" with
  | some (.turnId id) => if id = 0 then none else some id
  | _ => none

/-- `metadata.get("turn_hash")`, if it is a digest. -/
def turnHash? (message : Message τ) : Option HexDigest :=
  match message.metadataValue "turn_hash" with
  | some (.digest hash) => if hash = [] then none else some hash
  | _ => none

end Message

/-! ## Rows as messages -/

section Merge

variable {τ : Type} (fromisoformat : String → Option τ)

/-- `_row_timestamp`: the first of the four texts that can be parsed. -/
def rowTimestamp (row : CanonicalTurnRow) : Option τ :=
  [row.lastSeenAt, row.firstSeenAt, some row.updatedAt,
    some row.createdAt].findSome? fun value =>
      (orNone value).bind fun text => fromisoformat (text.replace "Z" "+00:00")

/-- The user message and the assistant message of a row, if it has them. -/
def rowMessages (row : CanonicalTurnRow) : List (Message τ) :=
  let baseMetadata : List (String × MetadataValue) :=
    [("canonical_turn_id", .turnId row.canonicalTurnId),
      ("turn_number", .int row.turnNumber), ("source", .text "db_recent")]
  let message (role content : String) : List (Message τ) :=
    if content = "" then []
    else
      [{ role := role
         content := content
         timestamp := rowTimestamp fromisoformat row
         metadata := some baseMetadata }]
  message "user" row.userContent ++ message "assistant" row.assistantContent

/-- `_sort_key_tuple` -/
def sortKeyTuple (row : CanonicalTurnRow) : ℚ ×ₗ String ×ₗ Uuid :=
  toLex (row.sortKey, toLex (row.createdAt, row.canonicalTurnId))

/-- The loop over the sorted rows, with the two sets for recognizing rows. -/
def appendRows : (ids : List Uuid) → (hashes : List HexDigest) →
    List CanonicalTurnRow → List (Message τ)
  | _, _, [] => []
  | ids, hashes, row :: rows =>
      if row.canonicalTurnId ≠ 0 ∧ row.canonicalTurnId ∈ ids then
        appendRows ids hashes rows
      else if row.turnHash ≠ [] ∧ row.turnHash ∈ hashes then
        appendRows ids hashes rows
      else
        rowMessages fromisoformat row ++
          appendRows
            (if row.canonicalTurnId ≠ 0 then row.canonicalTurnId :: ids else ids)
            (if row.turnHash ≠ [] then row.turnHash :: hashes else hashes) rows

def mergeProtectedWindow (payloadHistory : List (Message τ))
    (dbRecentRows : List CanonicalTurnRow) (mode : String) : List (Message τ) :=
  if mode ≠ "merge" then payloadHistory
  else if dbRecentRows.isEmpty then payloadHistory
  else
    payloadHistory ++ appendRows fromisoformat
      (payloadHistory.filterMap (·.canonicalTurnId?))
      (payloadHistory.filterMap (·.turnHash?)) (orderBy sortKeyTuple dbRecentRows)

/-! ## The rows that the payload lacks -/

/-- The payload carries neither the identifier nor the hash of the row. -/
def LacksRow (payloadHistory : List (Message τ)) (row : CanonicalTurnRow) :
    Prop :=
  (∀ message ∈ payloadHistory,
      message.canonicalTurnId? ≠ some row.canonicalTurnId) ∧
    ∀ message ∈ payloadHistory, message.turnHash? ≠ some row.turnHash

instance (payloadHistory : List (Message τ)) :
    DecidablePred (LacksRow payloadHistory) := fun _ =>
  inferInstanceAs (Decidable (_ ∧ _))

/-- The rows to append, in the order of their keys. -/
def lackedRows (payloadHistory : List (Message τ))
    (dbRecentRows : List CanonicalTurnRow) : List CanonicalTurnRow :=
  (orderBy sortKeyTuple dbRecentRows).filter fun row =>
    decide (LacksRow payloadHistory row)

/-- The second row is passed over because of the first, and it has a text. -/
def Repeats (row later : CanonicalTurnRow) : Prop :=
  later.turnHash ≠ [] ∧ row.turnHash = later.turnHash ∧
    (later.userContent ≠ "" ∨ later.assistantContent ≠ "")

theorem rowMessages_eq_nil {row : CanonicalTurnRow} :
    rowMessages fromisoformat row = [] ↔
      row.userContent = "" ∧ row.assistantContent = "" := by
  by_cases hu : row.userContent = "" <;>
    by_cases ha : row.assistantContent = "" <;> simp [rowMessages, hu, ha]

/-- What the loop appends once identifiers only recognize payload rows. -/
def appendNew (lacked : CanonicalTurnRow → Bool) :
    (hashes : List HexDigest) → List CanonicalTurnRow → List (Message τ)
  | _, [] => []
  | hashes, row :: rows =>
      if !lacked row || decide (row.turnHash ≠ [] ∧ row.turnHash ∈ hashes) then
        appendNew lacked hashes rows
      else
        rowMessages fromisoformat row ++
          appendNew lacked
            (if row.turnHash ≠ [] then row.turnHash :: hashes else hashes) rows

/-- Distinct identifiers never recognize a row that was appended. -/
theorem appendRows_eq {payloadIds ids : List Uuid}
    {payloadHashes : List HexDigest} (hashes : List HexDigest) {lacked : CanonicalTurnRow → Bool}
    (hlacked : ∀ row, lacked row = true ↔
      ¬ (row.canonicalTurnId ≠ 0 ∧ row.canonicalTurnId ∈ payloadIds) ∧
        ¬ (row.turnHash ≠ [] ∧ row.turnHash ∈ payloadHashes))
    {rows : List CanonicalTurnRow} (hrows : (rows.map (·.canonicalTurnId)).Nodup)
    (hids : ∀ row ∈ rows, row.canonicalTurnId ∈ ids ↔
      row.canonicalTurnId ∈ payloadIds) :
    appendRows fromisoformat ids (hashes ++ payloadHashes) rows =
      appendNew fromisoformat lacked hashes rows := by
  induction rows generalizing ids hashes with
  | nil => rfl
  | cons row rows ih =>
      obtain ⟨hrow, hrest⟩ := List.nodup_cons.mp hrows
      have hids' := fun other hother => hids other (List.mem_cons_of_mem row hother)
      unfold appendRows appendNew
      have hknown := hids row List.mem_cons_self
      by_cases hid : row.canonicalTurnId ≠ 0 ∧ row.canonicalTurnId ∈ ids
      · have hfalse : lacked row = false := by
          simp only [Bool.eq_false_iff, ne_eq, hlacked]
          exact fun h => h.1 ⟨hid.1, hknown.mp hid.2⟩
        rw [if_pos hid, hfalse]
        exact ih hashes hrest hids'
      · rw [if_neg hid]
        by_cases hhash : row.turnHash ≠ [] ∧ row.turnHash ∈ payloadHashes
        · have hfalse : lacked row = false := by
            simp only [Bool.eq_false_iff, ne_eq, hlacked]
            exact fun h => h.2 hhash
          rw [if_pos ⟨hhash.1, List.mem_append_right _ hhash.2⟩, hfalse]
          exact ih hashes hrest hids'
        · have htrue : lacked row = true := (hlacked row).mpr
            ⟨fun h => hid ⟨h.1, hknown.mpr h.2⟩, hhash⟩
          have hseen : (row.turnHash ≠ [] ∧
              row.turnHash ∈ hashes ++ payloadHashes) ↔
              row.turnHash ≠ [] ∧ row.turnHash ∈ hashes := by
            rw [List.mem_append]
            constructor
            · rintro ⟨hne, hmem | hmem⟩
              · exact ⟨hne, hmem⟩
              · exact absurd ⟨hne, hmem⟩ hhash
            · exact fun ⟨hne, hmem⟩ => ⟨hne, .inl hmem⟩
          simp only [hseen, htrue, Bool.not_true, Bool.false_or, decide_eq_true_eq]
          by_cases hrepeated : row.turnHash ≠ [] ∧ row.turnHash ∈ hashes
          · rw [if_pos hrepeated, if_pos hrepeated]
            exact ih hashes hrest hids'
          · rw [if_neg hrepeated, if_neg hrepeated]
            have hadd : (if row.turnHash ≠ [] then
                row.turnHash :: (hashes ++ payloadHashes)
                else hashes ++ payloadHashes) =
                (if row.turnHash ≠ [] then row.turnHash :: hashes else hashes) ++
                  payloadHashes := by
              split_ifs <;> rfl
            rw [hadd, ih _ hrest]
            intro other hother
            have hne : other.canonicalTurnId ≠ row.canonicalTurnId := by
              rintro heq
              exact hrow (List.mem_map.mpr ⟨other, hother, heq⟩)
            split_ifs
            · rw [List.mem_cons, or_iff_right hne]
              exact hids' other hother
            · exact hids' other hother

theorem length_appendNew_le (lacked : CanonicalTurnRow → Bool)
    (hashes : List HexDigest) (rows : List CanonicalTurnRow) :
    (appendNew fromisoformat lacked hashes rows).length ≤
      ((rows.filter lacked).flatMap (rowMessages fromisoformat)).length := by
  induction rows generalizing hashes with
  | nil => exact le_rfl
  | cons row rows ih =>
      unfold appendNew
      cases hlacked : lacked row
      · simpa [hlacked] using ih hashes
      · rw [List.filter_cons_of_pos hlacked, List.flatMap_cons, List.length_append]
        split
        · exact (ih hashes).trans (Nat.le_add_left _ _)
        · rw [List.length_append]
          exact Nat.add_le_add_left (ih _) _

/-- Nothing is lost exactly if no row with a text repeats an earlier one. -/
theorem appendNew_eq_iff (lacked : CanonicalTurnRow → Bool)
    (hashes : List HexDigest) (rows : List CanonicalTurnRow) :
    appendNew fromisoformat lacked hashes rows =
        (rows.filter lacked).flatMap (rowMessages fromisoformat) ↔
      (∀ row ∈ rows.filter lacked, row.turnHash ≠ [] → row.turnHash ∈ hashes →
          rowMessages fromisoformat row = []) ∧
        (rows.filter lacked).Pairwise fun row later => ¬ Repeats row later := by
  induction rows generalizing hashes with
  | nil => simp [appendNew]
  | cons row rows ih =>
      cases hlacked : lacked row with
      | false =>
          unfold appendNew
          simpa [hlacked] using ih hashes
      | true =>
          rw [List.filter_cons_of_pos hlacked, List.flatMap_cons,
            List.forall_mem_cons, List.pairwise_cons]
          unfold appendNew
          simp only [hlacked, Bool.not_true, Bool.false_or, decide_eq_true_eq]
          by_cases hrepeated : row.turnHash ≠ [] ∧ row.turnHash ∈ hashes
          · rw [if_pos hrepeated]
            have hsilent : appendNew fromisoformat lacked hashes rows =
                rowMessages fromisoformat row ++
                  (rows.filter lacked).flatMap (rowMessages fromisoformat) ↔
                rowMessages fromisoformat row = [] ∧
                  appendNew fromisoformat lacked hashes rows =
                    (rows.filter lacked).flatMap
                      (rowMessages fromisoformat) := by
              constructor
              · intro heq
                have hlength := congrArg List.length heq
                have hle := length_appendNew_le fromisoformat lacked hashes rows
                rw [List.length_append] at hlength
                have hnil : rowMessages fromisoformat row = [] :=
                  List.length_eq_zero_iff.mp (by omega)
                exact ⟨hnil, by rw [heq, hnil, List.nil_append]⟩
              · rintro ⟨hnil, heq⟩
                rw [hnil, heq, List.nil_append]
            rw [hsilent, ih hashes]
            constructor
            · rintro ⟨hnil, hmembers, hpairs⟩
              refine ⟨⟨fun _ _ => hnil, hmembers⟩, fun later hlater h => ?_, hpairs⟩
              -- a row that repeats this one was recognized before
              have := hmembers later hlater h.1 (h.2.1 ▸ hrepeated.2)
              rw [rowMessages_eq_nil] at this
              exact h.2.2.elim (fun hu => hu this.1) fun ha => ha this.2
            · rintro ⟨⟨hnil, hmembers⟩, -, hpairs⟩
              exact ⟨hnil hrepeated.1 hrepeated.2, hmembers, hpairs⟩
          · rw [if_neg hrepeated, List.append_cancel_left_eq, ih]
            constructor
            · rintro ⟨hmembers, hpairs⟩
              refine ⟨⟨fun hne hmem => absurd ⟨hne, hmem⟩ hrepeated,
                fun later hlater hne hmem => ?_⟩, fun later hlater h => ?_, hpairs⟩
              · apply hmembers later hlater hne
                split_ifs
                · exact List.mem_cons_of_mem _ hmem
                · exact hmem
              · have hne : row.turnHash ≠ [] := h.2.1 ▸ h.1
                have := hmembers later hlater h.1
                  (by rw [if_pos hne, h.2.1]; exact List.mem_cons_self)
                rw [rowMessages_eq_nil] at this
                exact h.2.2.elim (fun hu => hu this.1) fun ha => ha this.2
            · rintro ⟨⟨-, hmembers⟩, hfirst, hpairs⟩
              refine ⟨fun later hlater hne hmem => ?_, hpairs⟩
              split_ifs at hmem with hnew
              · rcases List.mem_cons.mp hmem with heq | hmem
                · rw [rowMessages_eq_nil]
                  by_contra htext
                  exact hfirst later hlater
                    ⟨hne, heq.symm, not_and_or.mp htext⟩
                · exact hmembers later hlater hne hmem
              · exact hmembers later hlater hne hmem

end Merge

/-! ## The merge -/

theorem lacksRow_iff {τ : Type} {payloadHistory : List (Message τ)}
    {row : CanonicalTurnRow} :
    LacksRow payloadHistory row ↔
      ¬ (row.canonicalTurnId ≠ 0 ∧ row.canonicalTurnId ∈
          payloadHistory.filterMap (·.canonicalTurnId?)) ∧
        ¬ (row.turnHash ≠ [] ∧ row.turnHash ∈
          payloadHistory.filterMap (·.turnHash?)) := by
  have hid : ∀ message : Message τ, message.canonicalTurnId? ≠ some 0 := by
    intro message
    unfold Message.canonicalTurnId?
    split
    · split_ifs with h <;> simp [h]
    · simp
  have hhash : ∀ message : Message τ, message.turnHash? ≠ some [] := by
    intro message
    unfold Message.turnHash?
    split
    · split_ifs with h <;> simp [h]
    · simp
  unfold LacksRow
  simp only [List.mem_filterMap, not_and, not_exists]
  constructor
  · rintro ⟨hids, hhashes⟩
    exact ⟨fun _ message hmem => hids message hmem,
      fun _ message hmem => hhashes message hmem⟩
  · rintro ⟨hids, hhashes⟩
    refine ⟨fun message hmem heq => ?_, fun message hmem heq => ?_⟩
    · refine hids (fun hzero => hid message ?_) message hmem heq
      rw [heq, hzero]
    · refine hhashes (fun hnil => hhash message ?_) message hmem heq
      rw [heq, hnil]

/--
The merge appends the messages of every row that the payload lacks exactly if
no such row with a text has the hash of one before it.
-/
theorem mergeProtectedWindow_eq_iff {τ : Type}
    (fromisoformat : String → Option τ) (payloadHistory : List (Message τ))
    {dbRecentRows : List CanonicalTurnRow}
    (hids : (dbRecentRows.map (·.canonicalTurnId)).Nodup) :
    mergeProtectedWindow fromisoformat payloadHistory dbRecentRows "merge" =
        payloadHistory ++ (lackedRows payloadHistory dbRecentRows).flatMap
          (rowMessages fromisoformat) ↔
      (lackedRows payloadHistory dbRecentRows).Pairwise
        fun row later => ¬ Repeats row later := by
  unfold mergeProtectedWindow
  rw [if_neg (by simp)]
  by_cases hempty : dbRecentRows = []
  · simp [hempty, lackedRows]
  · rw [if_neg (by simpa using hempty), List.append_cancel_left_eq]
    have hsorted := ((orderBy_perm sortKeyTuple dbRecentRows).map
      (·.canonicalTurnId)).nodup_iff.mpr hids
    have hlacked : ∀ row, decide (LacksRow payloadHistory row) = true ↔ _ :=
      fun row => decide_eq_true_iff.trans lacksRow_iff
    have heq := appendRows_eq fromisoformat [] hlacked hsorted fun _ _ => Iff.rfl
    unfold lackedRows
    rw [← List.nil_append (payloadHistory.filterMap (·.turnHash?)), heq,
      appendNew_eq_iff]
    simp

/-- Two stored turns with the same text. -/
def repeatedTurns : List CanonicalTurnRow :=
  [{ conversationId := "chat", canonicalTurnId := 1, sortKey := 1000,
     turnHash := Sha256.spell [], userContent := "yes" },
   { conversationId := "chat", canonicalTurnId := 2, sortKey := 2000,
     turnHash := Sha256.spell [], userContent := "yes" }]

theorem mergeProtectedWindow_eq_iff_repeated :
    mergeProtectedWindow (fun _ => (none : Option Unit)) [] repeatedTurns "merge" =
        [] ++ (lackedRows ([] : List (Message Unit)) repeatedTurns).flatMap
          (rowMessages fun _ => none) ↔
      (lackedRows ([] : List (Message Unit)) repeatedTurns).Pairwise
        fun row later => ¬ Repeats row later :=
  mergeProtectedWindow_eq_iff (fun _ => none) [] (by decide)

/-- The payload carries neither turn, but only the first one is appended. -/
theorem second_repeated_turn_dropped :
    (lackedRows ([] : List (Message Unit)) repeatedTurns).map (·.canonicalTurnId) = [1, 2] ∧
      (mergeProtectedWindow (fun _ => (none : Option Unit)) [] repeatedTurns
        "merge").map (·.content) = ["yes"] := by
  decide +kernel

end VirtualContext
