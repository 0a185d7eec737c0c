import VirtualContext.Core.TurnTagIndex
import VirtualContext.Library.GreedyChoice
import VirtualContext.Proxy.Envelope
import VirtualContext.Proxy.TurnRestoration
import VirtualContext.Storage.GroupingAgreement

/-!
# Restoring turns from the store

When the client has cut off its history, the fill pass restores turns from the
canonical rows.  Each row is taken for a turn, and the rows that ingestion writes
hold one half of a turn.
-/

namespace VirtualContext

open VirtualContext.Library

variable {ρ : Type}

/-- What is read besides the rows. -/
structure StoreRestoreEnv (ρ : Type) where
  stripEnvelope : Text → Text
  turnHash : Text → HexDigest
  dumpedLength : List (TurnItem ρ) → Nat
  /-- `get_tool_outputs_for_turn`, if it does not fail -/
  toolOutputs : Int → Option (List String)

/-! ## Turns of the payload -/

section

variable (env : StoreRestoreEnv ρ)

/-- The text of its last user message, and the first text of its answer. -/
def MessageTurn.texts (turn : MessageTurn ρ) : Text × Text :=
  turn.foldl (fun (texts : Text × Text) entry =>
    match entry.1 with
    | .other _ => texts
    | .message msg =>
        if msg.role = some "user" ∨ msg.role = some "human" then
          (msg.textForStubHash env.stripEnvelope, texts.2)
        else if (msg.role = some "assistant" ∨ msg.role = some "model") ∧ texts.2 = [] then
          (texts.1, msg.textForStubHash env.stripEnvelope)
        else texts) ([], [])

/-- The number that the index has for a turn. -/
def MessageTurn.canonicalTurn (index : TurnTagIndex) (turn : MessageTurn ρ) : Option Int :=
  let texts := turn.texts env
  if texts.1 = [] then none
  else
    (index.getEntryByHash (env.turnHash (texts.1 ++ ' ' :: texts.2))).map (·.turnNumber)

variable (fmt : ApiFormat)

/-- `_payload_canonical_turns`; without an index no turn is looked up. -/
def payloadCanonicalTurns (index : Option TurnTagIndex) (body : List (TurnItem ρ)) :
    Option (List Int) :=
  match index with
  | none => some []
  | some index =>
      (messageTurns fmt body).map fun turns => turns.filterMap (·.canonicalTurn env index)

/-! ## Restoring rows -/

/-- The messages of a row. -/
def CanonicalTurnRow.messagePair (row : CanonicalTurnRow) : List (TurnItem ρ) :=
  let userText := row.userContent.toList
  let assistantText := row.assistantContent.toList
  match fmt with
  | .gemini =>
      [.message { role := some "user", parts := [{ text := some userText }] },
        .message { role := some "model", parts := [{ text := some assistantText }] }]
  | .openaiResponses =>
      [.message { role := some "user", content := .text userText },
        .message {
          role := some "assistant"
          content := .blocks [.text "output_text" assistantText []] }]
  | _ =>
      [.message { role := some "user", content := .text userText },
        .message {
          role := some "assistant", content := .blocks [.text "text" assistantText []] }]

def StoreRestoreEnv.rowTokens (row : CanonicalTurnRow) : Nat :=
  env.dumpedLength (row.messagePair fmt) / 4

/-- The source counts the rows that it restores; here they are kept. -/
structure StoreRestoreState (ρ : Type) where
  body : List (TurnItem ρ)
  turnBudget : Int
  restored : List CanonicalTurnRow := []

def restoreRow (inPayload : List Int) (st : StoreRestoreState ρ) (row : CanonicalTurnRow) :
    Option (StoreRestoreState ρ) :=
  if pyStrip row.userContent = "" then some st
  else if row.turnNumber ∈ inPayload then some st
  else if (env.toolOutputs row.turnNumber).any (· ≠ []) then some st
  else if (env.rowTokens fmt row : Int) > st.turnBudget then some st
  else
    (insertionPoint st.body.zipIdx).map fun position =>
      { body := insertItems st.body position (row.messagePair fmt)
        turnBudget := st.turnBudget - env.rowTokens fmt row
        restored := row :: st.restored }

/-- `store_rows[-200:]` -/
def newestRows (rows : List CanonicalTurnRow) : List CanonicalTurnRow :=
  rows.drop (rows.length - 200)

/-- Phase 2 of `fill_pass`, from the store. -/
def fillFromStore (index : Option TurnTagIndex) (headroom : Int)
    (rows : List CanonicalTurnRow) (body : List (TurnItem ρ)) :
    Option (StoreRestoreState ρ) :=
  if headroom ≤ 200 then some { body, turnBudget := headroom }
  else
    (payloadCanonicalTurns env fmt index body).bind fun inPayload =>
      (newestRows rows).reverse.foldlM (restoreRow env fmt inPayload)
        { body, turnBudget := headroom }

end

/-! ## Rows of ingestion -/

/-- Halves of turns under the numbers that ingestion gives them. -/
structure IngestedHalves (rows : List CanonicalTurnRow) : Prop where
  half : ∀ row ∈ rows, row.hasUser = !row.hasAssistant
  groups : rows.map (·.turnGroupNumber) = turnGroups rows

/-- No row answers the row. -/
def Unanswered (rows : List CanonicalTurnRow) (row : CanonicalTurnRow) : Prop :=
  ∀ other ∈ rows, other.turnGroupNumber = row.turnGroupNumber → other.hasAssistant = false

/-- Each user row begins a turn. -/
theorem assignGroups_users {current pending : Int} (hcurrent : -1 ≤ current)
    (hpending : pending ≤ current) {rows : List CanonicalTurnRow}
    (hrows : rows.map (·.turnGroupNumber) = assignGroups current pending rows) :
    (current :: (rows.filter (·.hasUser)).map (·.turnGroupNumber)).Pairwise (· < ·) := by
  induction rows generalizing current pending with
  | nil => exact List.pairwise_singleton _ _
  | cons row rows ih =>
      rw [assignGroups, List.map_cons] at hrows
      have hlater {current' : Int} (hle : current ≤ current')
          (h : (current' :: (rows.filter (·.hasUser)).map (·.turnGroupNumber)).Pairwise (· < ·)) :
          (current :: (rows.filter (·.hasUser)).map (·.turnGroupNumber)).Pairwise (· < ·) :=
        List.pairwise_cons.mpr ⟨fun number hnumber =>
          hle.trans_lt ((List.pairwise_cons.mp h).1 number hnumber), (List.pairwise_cons.mp h).2⟩
      have hown {pending' : Int} (huser : row.hasUser = true) (hpending' : pending' ≤ current + 1)
          (h : row.turnGroupNumber :: rows.map (·.turnGroupNumber) =
            (current + 1) :: assignGroups (current + 1) pending' rows) :
          (current :: ((row :: rows).filter (·.hasUser)).map
            (·.turnGroupNumber)).Pairwise (· < ·) := by
        obtain ⟨hnumber, hrest⟩ := List.cons.inj h
        have hpairwise := ih (by omega) hpending' hrest
        rw [List.filter_cons_of_pos huser, List.map_cons, hnumber]
        refine List.pairwise_cons.mpr ⟨fun number hmem => ?_, hpairwise⟩
        rcases List.mem_cons.mp hmem with rfl | hmem
        · omega
        · exact (Int.lt_succ current).trans ((List.pairwise_cons.mp hpairwise).1 number hmem)
      have hother {current' pending' : Int} (huser : ¬ row.hasUser = true)
          (hle : current ≤ current') (hpending' : pending' ≤ current')
          (h : rows.map (·.turnGroupNumber) = assignGroups current' pending' rows) :
          (current :: ((row :: rows).filter (·.hasUser)).map
            (·.turnGroupNumber)).Pairwise (· < ·) := by
        rw [List.filter_cons_of_neg huser]
        exact hlater hle (ih (by omega) hpending' h)
      split_ifs at hrows with hboth huser hassistant hwaiting
      · exact hown (Bool.and_eq_true_iff.mp hboth).1 (by omega) hrows
      · exact hown huser (le_refl _) hrows
      · exact hother huser (le_refl _) (by omega) (List.cons.inj hrows).2
      · exact hother huser (by omega) (by omega) (List.cons.inj hrows).2
      · exact hother huser (by omega) (by omega) (List.cons.inj hrows).2

namespace IngestedHalves

variable {rows : List CanonicalTurnRow}

theorem users_increasing (h : IngestedHalves rows) :
    ((rows.filter (·.hasUser)).map (·.turnGroupNumber)).Pairwise (· < ·) :=
  (List.pairwise_cons.mp (assignGroups_users (le_refl _) (le_refl _) h.groups)).2

theorem eq_of_users (h : IngestedHalves rows) {row other : CanonicalTurnRow} (hrow : row ∈ rows)
    (hother : other ∈ rows) (huser : row.hasUser = true) (huser' : other.hasUser = true)
    (hnumber : other.turnGroupNumber = row.turnGroupNumber) : other = row := by
  have hnodup : ((rows.filter (·.hasUser)).map (·.turnGroupNumber)).Nodup :=
    h.users_increasing.imp ne_of_lt
  exact List.inj_on_of_nodup_map hnodup (List.mem_filter.mpr ⟨hother, huser'⟩)
    (List.mem_filter.mpr ⟨hrow, huser⟩) hnumber

theorem mem_merge_iff (h : IngestedHalves rows) {number : Int} {turn : CanonicalTurnRow} :
    (number, turn) ∈ mergeCanonicalTurnRows rows ↔
      ∃ first rest, rows.filter (fun row => row.turnGroupNumber = number) = first :: rest ∧
        turn = mergeTurn number first rest := by
  have hnonneg : ∀ row ∈ rows, 0 ≤ row.turnGroupNumber := fun row hrow =>
    turnGroups_nonneg rows _ (h.groups ▸ List.mem_map_of_mem hrow)
  rw [mergeCanonicalTurnRows, groupedRows_explicit hnonneg, List.mem_filterMap]
  constructor
  · rintro ⟨⟨number', members⟩, hmem, hmerge⟩
    obtain ⟨hmembers, -⟩ := mem_explicitGroups.mp hmem
    cases members with
    | nil => cases hmerge
    | cons first rest =>
        obtain ⟨rfl, rfl⟩ := Prod.mk.inj (Option.some.inj hmerge)
        exact ⟨first, rest, hmembers.symm, rfl⟩
  · rintro ⟨first, rest, hmembers, rfl⟩
    exact ⟨(number, first :: rest),
      mem_explicitGroups.mpr ⟨hmembers.symm, List.cons_ne_nil _ _⟩, rfl⟩

theorem exists_turn (h : IngestedHalves rows) {row : CanonicalTurnRow} (hrow : row ∈ rows) :
    ∃ turn, (row.turnGroupNumber, turn) ∈ mergeCanonicalTurnRows rows := by
  have hmem : row ∈ rows.filter fun other => other.turnGroupNumber = row.turnGroupNumber :=
    List.mem_filter.mpr ⟨hrow, decide_eq_true rfl⟩
  obtain ⟨first, rest, hmembers⟩ := List.exists_cons_of_ne_nil (List.ne_nil_of_mem hmem)
  exact ⟨_, h.mem_merge_iff.mpr ⟨first, rest, hmembers, rfl⟩⟩

end IngestedHalves

/-- A half of a merged row is that of the first member that has it. -/
theorem foldl_half {half : CanonicalTurnRow → String}
    {step : CanonicalTurnRow → CanonicalTurnRow → CanonicalTurnRow}
    (hstep : ∀ merged row, half (step merged row) =
      if half row != "" && !(half merged != "") then half row else half merged)
    (members : List CanonicalTurnRow) (merged : CanonicalTurnRow) :
    half (members.foldl step merged) =
      if half merged != "" then half merged
      else ((members.find? fun row => half row != "").map half).getD "" := by
  induction members generalizing merged with
  | nil =>
      by_cases hmerged : half merged = ""
      · simp [hmerged]
      · simp [hmerged]
  | cons row members ih =>
      rw [List.foldl_cons, ih, hstep]
      by_cases hmerged : half merged = ""
      · by_cases hrow : half row = ""
        · simp [hmerged, hrow]
        · simp [hmerged, hrow]
      · simp [hmerged]

theorem mergeTurn_halves (number : Int) (first : CanonicalTurnRow)
    (rest : List CanonicalTurnRow) :
    (mergeTurn number first rest).userContent =
        (((first :: rest).find? (·.hasUser)).map (·.userContent)).getD "" ∧
      (mergeTurn number first rest).assistantContent =
        (((first :: rest).find? (·.hasAssistant)).map (·.assistantContent)).getD "" := by
  have huser (merged row : CanonicalTurnRow) :
      (mergeMetadata (mergeContents merged row) row).userContent =
        if row.hasUser && !merged.hasUser then row.userContent else merged.userContent := by
    simp only [mergeMetadata, mergeContents]
    split_ifs <;> rfl
  have hassistant (merged row : CanonicalTurnRow) :
      (mergeMetadata (mergeContents merged row) row).assistantContent =
        if row.hasAssistant && !merged.hasAssistant then row.assistantContent
        else merged.assistantContent := by
    simp only [mergeMetadata, mergeContents]
    split_ifs <;> simp_all [CanonicalTurnRow.hasAssistant]
  exact ⟨foldl_half huser (first :: rest) _, foldl_half hassistant (first :: rest) _⟩

/-- The turn of a user row holds its text, and no answer exactly if none is stored. -/
theorem IngestedHalves.turn_texts {rows : List CanonicalTurnRow} (h : IngestedHalves rows)
    {row turn : CanonicalTurnRow} (hrow : row ∈ rows) (huser : row.hasUser = true)
    (hturn : (row.turnGroupNumber, turn) ∈ mergeCanonicalTurnRows rows) :
    turn.userContent = row.userContent ∧
      (turn.assistantContent = "" ↔ Unanswered rows row) := by
  obtain ⟨first, rest, hmembers, rfl⟩ := h.mem_merge_iff.mp hturn
  obtain ⟨huserText, hassistantText⟩ := mergeTurn_halves row.turnGroupNumber first rest
  have hmem {other : CanonicalTurnRow} : other ∈ first :: rest ↔
      other ∈ rows ∧ other.turnGroupNumber = row.turnGroupNumber := by
    rw [← hmembers, List.mem_filter, decide_eq_true_iff]
  rw [huserText, hassistantText]
  constructor
  · cases hfind : (first :: rest).find? (·.hasUser) with
    | none => exact absurd huser (List.find?_eq_none.mp hfind row (hmem.mpr ⟨hrow, rfl⟩))
    | some other =>
        obtain ⟨hother, hnumber⟩ := hmem.mp (List.mem_of_find?_eq_some hfind)
        have huser' : other.hasUser = true := List.find?_some hfind
        rw [h.eq_of_users hrow hother huser huser' hnumber]
        rfl
  · cases hfind : (first :: rest).find? (·.hasAssistant) with
    | none =>
        refine iff_of_true rfl fun other hother hnumber => ?_
        exact Bool.eq_false_iff.mpr
          (List.find?_eq_none.mp hfind other (hmem.mpr ⟨hother, hnumber⟩))
    | some other =>
        obtain ⟨hother, hnumber⟩ := hmem.mp (List.mem_of_find?_eq_some hfind)
        have hassistant : other.hasAssistant = true := List.find?_some hfind
        refine iff_of_false (fun hnone => ?_) fun hnone => ?_
        · exact absurd hnone (bne_iff_ne.mp hassistant)
        · rw [hnone other hother hnumber] at hassistant
          cases hassistant

/-! ## What is restored -/

section

variable (env : StoreRestoreEnv ρ) (fmt : ApiFormat)

/-- A row with a text, of a turn without tools that the payload is not known to hold. -/
def StoreRestorable (inPayload : List Int) (row : CanonicalTurnRow) : Prop :=
  pyStrip row.userContent ≠ "" ∧ row.turnNumber ∉ inPayload ∧
    ∀ refs, env.toolOutputs row.turnNumber = some refs → refs = []

/-- A row of the newest ones that the budget holds besides the newer ones. -/
def FitsBudget (index : Option TurnTagIndex) (headroom : Int) (rows : List CanonicalTurnRow)
    (payload : List (TurnItem ρ)) (row : CanonicalTurnRow) : Prop :=
  200 < headroom ∧ ∃ inPayload chosen,
    payloadCanonicalTurns env fmt index payload = some inPayload ∧
      GreedyChoice (StoreRestorable env inPayload) (fun row => env.rowTokens fmt row) headroom
        (newestRows rows).reverse chosen ∧
      row ∈ chosen

/-- The texts of the turns that the payload holds. -/
def payloadTexts (payload : List (TurnItem ρ)) : List (Text × Text) :=
  ((messageTurns fmt payload).getD []).map (·.texts env)

/-- The inserted messages are turns of the store, each once and in its order, in front of
what the payload holds of the conversation. -/
structure RestoresTurns (rows : List CanonicalTurnRow) (payload : List (TurnItem ρ))
    (filled : StoreRestoreState ρ) : Prop where
  placed : filled.body = payload.takeWhile (·.isLeading) ++
    filled.restored.flatMap (·.messagePair fmt) ++ payload.dropWhile (·.isLeading)
  ordered : filled.restored.Sublist rows
  once : (filled.restored.map (·.turnGroupNumber)).Nodup
  turns : ∀ row ∈ filled.restored, ∃ turn,
    (row.turnGroupNumber, turn) ∈ mergeCanonicalTurnRows rows ∧
      turn.userContent = row.userContent ∧ turn.assistantContent = row.assistantContent ∧
      (turn.userContent.toList, turn.assistantContent.toList) ∉ payloadTexts env fmt payload

variable {env fmt}

theorem messagePair_begins (row : CanonicalTurnRow) :
    ∃ (first : TurnItem ρ) (rest : List (TurnItem ρ)),
      row.messagePair fmt = first :: rest ∧ first.role = some "user" := by
  cases fmt with
  | anthropic => exact ⟨_, _, rfl, rfl⟩
  | openai => exact ⟨_, _, rfl, rfl⟩
  | gemini => exact ⟨_, _, rfl, rfl⟩
  | openaiResponses => exact ⟨_, _, rfl, rfl⟩

theorem restoreRow_cases {inPayload : List Int} {st st' : StoreRestoreState ρ}
    {row : CanonicalTurnRow} (h : restoreRow env fmt inPayload st row = some st') :
    ¬ (StoreRestorable env inPayload row ∧ (env.rowTokens fmt row : Int) ≤ st.turnBudget) ∧
        st' = st ∨
      StoreRestorable env inPayload row ∧ (env.rowTokens fmt row : Int) ≤ st.turnBudget ∧
        ∃ position, insertionPoint st.body.zipIdx = some position ∧
          st' = { body := insertItems st.body position (row.messagePair fmt)
                  turnBudget := st.turnBudget - env.rowTokens fmt row
                  restored := row :: st.restored } := by
  unfold restoreRow at h
  split_ifs at h with hblank hpayload htools hlarge
  · exact .inl ⟨fun hfits => hfits.1.1 hblank, (Option.some.inj h).symm⟩
  · exact .inl ⟨fun hfits => hfits.1.2.1 hpayload, (Option.some.inj h).symm⟩
  · refine .inl ⟨fun hfits => ?_, (Option.some.inj h).symm⟩
    cases hrefs : env.toolOutputs row.turnNumber with
    | none => simp [hrefs] at htools
    | some refs => simp [hrefs, hfits.1.2.2 refs hrefs] at htools
  · exact .inl ⟨fun hfits => absurd hfits.2 (by omega), (Option.some.inj h).symm⟩
  · obtain ⟨position, hposition, rfl⟩ := Option.map_eq_some_iff.mp h
    refine .inr ⟨⟨hblank, hpayload, fun refs hrefs => ?_⟩, by omega, position, hposition, rfl⟩
    by_contra hne
    exact htools (by simp [hrefs, hne])

/-- Behind the system messages, where a user message follows. -/
theorem insertionPoint_zipIdx {lead rest : List (TurnItem ρ)}
    (hlead : ∀ item ∈ lead, item.isLeading = true)
    (hrest : ∀ item ∈ rest.head?, item.isLeading = false) {position : Nat}
    (h : insertionPoint (lead ++ rest).zipIdx = some position) : position = lead.length := by
  rw [List.zipIdx_append, Nat.zero_add] at h
  refine (insertionPoint_append (fun entry hentry => ?_) (fun entry hentry => ?_) h).1.trans
    List.length_zipIdx
  · exact hlead entry.1 (List.fst_mem_of_mem_zipIdx hentry)
  · cases rest with
    | nil => cases hentry
    | cons item rest =>
        obtain rfl := Option.some.inj hentry
        exact hrest item rfl

/-- A walk from the newest row on chooses greedily. -/
theorem restoreRows_run {inPayload : List Int} {walk : List CanonicalTurnRow}
    {st st' : StoreRestoreState ρ} {lead rest : List (TurnItem ρ)}
    (hlead : ∀ item ∈ lead, item.isLeading = true)
    (hrest : ∀ item ∈ rest.head?, item.isLeading = false)
    (hbody : st.body = lead ++ st.restored.flatMap (·.messagePair fmt) ++ rest)
    (h : walk.foldlM (restoreRow env fmt inPayload) st = some st') :
    ∃ chosen, GreedyChoice (StoreRestorable env inPayload) (fun row => env.rowTokens fmt row)
        st.turnBudget walk chosen ∧
      st'.restored = chosen.reverse ++ st.restored ∧
      st'.body = lead ++ st'.restored.flatMap (·.messagePair fmt) ++ rest := by
  induction walk generalizing st with
  | nil =>
      obtain rfl := Option.some.inj h
      exact ⟨[], .nil, rfl, hbody⟩
  | cons row walk ih =>
      rw [List.foldlM_cons] at h
      obtain ⟨middle, hstep, hwalk⟩ := Option.bind_eq_some_iff.mp h
      rcases restoreRow_cases hstep with ⟨hpass, rfl⟩ | ⟨hrow, hfits, position, hposition, rfl⟩
      · obtain ⟨chosen, hchosen, hrestored, hplaced⟩ := ih hbody hwalk
        exact ⟨chosen, .pass hpass hchosen, hrestored, hplaced⟩
      · rw [hbody, List.append_assoc] at hposition
        have hhead : ∀ item ∈ (st.restored.flatMap (CanonicalTurnRow.messagePair fmt) ++ rest).head?,
            item.isLeading = false := by
          intro item hitem
          cases hrestored : st.restored with
          | nil =>
              rw [hrestored, List.flatMap_nil, List.nil_append] at hitem
              exact hrest item hitem
          | cons newest others =>
              have hbegins : ∃ (first : TurnItem ρ) (rest : List (TurnItem ρ)),
                  newest.messagePair fmt = first :: rest ∧ first.role = some "user" :=
                messagePair_begins newest
              obtain ⟨first, second, hpair, huser⟩ := hbegins
              rw [hrestored, List.flatMap_cons, hpair] at hitem
              obtain rfl := Option.some.inj hitem
              exact not_isLeading_of_user huser
        obtain rfl := insertionPoint_zipIdx hlead hhead hposition
        have hinserted : insertItems st.body lead.length (row.messagePair fmt) =
            lead ++ (row :: st.restored).flatMap (·.messagePair fmt) ++ rest := by
          rw [insertItems_eq, hbody, List.append_assoc lead, insertAt, List.take_left,
            List.drop_left, List.flatMap_cons]
          simp
        obtain ⟨chosen, hchosen, hrestored, hplaced⟩ := ih hinserted hwalk
        refine ⟨row :: chosen, .take hrow hfits hchosen, ?_, hplaced⟩
        rw [hrestored, List.reverse_cons, List.append_assoc]
        rfl

variable {index : Option TurnTagIndex} {headroom : Int} {rows : List CanonicalTurnRow}
  {payload : List (TurnItem ρ)} {filled : StoreRestoreState ρ} {row : CanonicalTurnRow}

/-- What is restored: the rows that fit, in their order. -/
theorem fillFromStore_spec
    (h : fillFromStore env fmt index headroom rows payload = some filled) :
    filled.body = payload.takeWhile (·.isLeading) ++
        filled.restored.flatMap (·.messagePair fmt) ++ payload.dropWhile (·.isLeading) ∧
      filled.restored.Sublist rows ∧
      ∀ row, row ∈ filled.restored ↔ FitsBudget env fmt index headroom rows payload row := by
  unfold fillFromStore at h
  split_ifs at h with hheadroom
  · obtain rfl := Option.some.inj h
    refine ⟨by simp, List.nil_sublist _, fun row => iff_of_false nofun fun hfits => ?_⟩
    exact absurd hfits.1 (by omega)
  · obtain ⟨inPayload, hpayload, h⟩ := Option.bind_eq_some_iff.mp h
    obtain ⟨chosen, hchosen, hrestored, hplaced⟩ := restoreRows_run
      (fun item (hitem : item ∈ payload.takeWhile (·.isLeading)) => List.mem_takeWhile_imp hitem)
      (fun item (hitem : item ∈ (payload.dropWhile (·.isLeading)).head?) => by
        have hhead := List.head?_dropWhile_not (fun item : TurnItem ρ => item.isLeading) payload
        rw [Option.mem_def.mp hitem] at hhead
        exact hhead)
      (by simp) h
    rw [List.append_nil] at hrestored
    refine ⟨hplaced, ?_, fun row => ?_⟩
    · rw [hrestored]
      have hsublist := List.reverse_sublist.mpr hchosen.sublist
      rw [List.reverse_reverse] at hsublist
      exact hsublist.trans (List.drop_sublist _ _)
    · rw [hrestored, List.mem_reverse]
      constructor
      · exact fun hmem => ⟨by omega, inPayload, chosen, hpayload, hchosen, hmem⟩
      · rintro ⟨-, inPayload', chosen', hpayload', hchosen', hmem⟩
        obtain rfl := Option.some.inj (hpayload.symm.trans hpayload')
        rwa [hchosen.unique hchosen']

theorem FitsBudget.hasUser (h : FitsBudget env fmt index headroom rows payload row) :
    row.hasUser = true := by
  obtain ⟨-, inPayload, chosen, -, hchosen, hmem⟩ := h
  refine bne_iff_ne.mpr fun hempty => ?_
  have hblank := (hchosen.eligible_of_mem row hmem).1
  rw [hempty] at hblank
  exact hblank rfl

end

/-- What is restored are turns of the store that the payload lacks exactly if every row
that fits is unanswered and not in the payload without an answer. -/
theorem store_restores_turns_iff (env : StoreRestoreEnv ρ) (fmt : ApiFormat)
    (index : Option TurnTagIndex) (headroom : Int) (rows : List CanonicalTurnRow)
    (payload : List (TurnItem ρ)) (filled : StoreRestoreState ρ) (hrows : IngestedHalves rows)
    (h : fillFromStore env fmt index headroom rows payload = some filled) :
    RestoresTurns env fmt rows payload filled ↔
      ∀ row, FitsBudget env fmt index headroom rows payload row →
        Unanswered rows row ∧ (row.userContent.toList, []) ∉ payloadTexts env fmt payload := by
  obtain ⟨hplaced, hordered, hmem⟩ := fillFromStore_spec h
  have hassistant {row : CanonicalTurnRow} (hrow : row ∈ rows) (huser : row.hasUser = true) :
      row.assistantContent = "" := by
    have hhalf := hrows.half row hrow
    rw [huser] at hhalf
    simpa [CanonicalTurnRow.hasAssistant] using hhalf
  constructor
  · intro hrestores row hfits
    obtain ⟨turn, hturn, huserText, hassistantText, hnew⟩ :=
      hrestores.turns row ((hmem row).mpr hfits)
    have hrow := hordered.subset ((hmem row).mpr hfits)
    have hnone := hassistantText.trans (hassistant hrow hfits.hasUser)
    refine ⟨(hrows.turn_texts hrow hfits.hasUser hturn).2.mp hnone, ?_⟩
    rwa [huserText, hnone] at hnew
  · intro hall
    refine ⟨hplaced, hordered, ?_, fun row hrestored => ?_⟩
    · have husers : filled.restored.Sublist (rows.filter (·.hasUser)) := by
        have hfilter := hordered.filter (·.hasUser)
        rwa [List.filter_eq_self.mpr fun row hrow => ((hmem row).mp hrow).hasUser] at hfilter
      exact (hrows.users_increasing.imp ne_of_lt).sublist (husers.map _)
    · have hfits := (hmem row).mp hrestored
      have hrow := hordered.subset hrestored
      obtain ⟨turn, hturn⟩ := hrows.exists_turn hrow
      obtain ⟨huserText, hanswer⟩ := hrows.turn_texts hrow hfits.hasUser hturn
      obtain ⟨hunanswered, hnew⟩ := hall row hfits
      have hnone := hanswer.mpr hunanswered
      refine ⟨turn, hturn, huserText, hnone.trans (hassistant hrow hfits.hasUser).symm, ?_⟩
      rwa [huserText, hnone]

/-! ## Small stores -/

/-- Every message takes 100 tokens, and no turn has tool outputs. -/
def flatStore : StoreRestoreEnv String where
  stripEnvelope := stripEnvelope asciiClasses
  turnHash _ := []
  dumpedLength items := 400 * items.length
  toolOutputs _ := some []

def askedRow : CanonicalTurnRow where
  conversationId := "c"
  canonicalTurnId := 1
  turnNumber := 0
  turnGroupNumber := 0
  userContent := "hi"

def answerRow : CanonicalTurnRow where
  conversationId := "c"
  canonicalTurnId := 2
  turnNumber := 1
  turnGroupNumber := 0
  assistantContent := "hello"

/-- The answer is in a row of its own, so the question is restored without it. -/
theorem restored_without_answer :
    ¬ ∀ (env : StoreRestoreEnv String) (fmt : ApiFormat) (index : Option TurnTagIndex)
      (headroom : Int) (rows : List CanonicalTurnRow) (payload : List (TurnItem String))
      (filled : StoreRestoreState String), IngestedHalves rows →
        fillFromStore env fmt index headroom rows payload = some filled →
        RestoresTurns env fmt rows payload filled := by
  intro h
  have hrows : IngestedHalves [askedRow, answerRow] := ⟨by decide, by decide⟩
  obtain ⟨filled, hfilled, hrestored⟩ : ∃ filled, fillFromStore flatStore .anthropic none 1000
      [askedRow, answerRow] [saying "user" "bye"] = some filled ∧
        filled.restored = [askedRow] :=
    ⟨_, rfl, rfl⟩
  obtain ⟨turn, hturn, -, hassistant, -⟩ := (h _ _ _ _ _ _ _ hrows hfilled).turns askedRow
    (by rw [hrestored]; exact List.mem_singleton_self _)
  have hunanswered := (hrows.turn_texts List.mem_cons_self rfl hturn).2.mp hassistant
  exact absurd (hunanswered answerRow (by simp) rfl) (by decide)

theorem store_restores_turns_iff_unanswered :
    ∃ filled, fillFromStore flatStore .anthropic none 1000 [askedRow] [saying "user" "bye"] =
        some filled ∧
      RestoresTurns flatStore .anthropic [askedRow] [saying "user" "bye"] filled := by
  refine ⟨_, rfl, (store_restores_turns_iff flatStore .anthropic none 1000 [askedRow]
    [saying "user" "bye"] _ ⟨by decide, by decide⟩ rfl).mpr ?_⟩
  rintro row ⟨-, inPayload, chosen, -, hchosen, hmem⟩
  obtain rfl : row = askedRow := List.mem_singleton.mp (hchosen.sublist.subset hmem)
  exact ⟨by unfold Unanswered; decide, by decide +kernel⟩

end VirtualContext
