import VirtualContext.Core.SegmentTurns
import VirtualContext.Library.Trimming

/-!
# Session headers and whole turns

A message that was split at a session header is split no further.  The turns of
a conversation are whole: if some of them are paired anew they may be merged,
but none is taken apart.
-/

namespace VirtualContext

open VirtualContext.Library

/-! ## Finding a header -/

theorem matchSession_eq_some_iff {text date after : List Char} :
    matchSession text = some (date, after) ↔
      text = sessionHeader ++ date ++ ']' :: after ∧ date ≠ [] ∧ ']' ∉ date := by
  unfold matchSession
  constructor
  · intro h
    split_ifs at h with hheader
    obtain ⟨inside, rfl⟩ := List.isPrefixOf_iff_prefix.mp hheader
    rw [List.drop_left] at h
    have hinside := List.takeWhile_append_dropWhile (p := (· != ']')) (l := inside)
    dsimp only at h
    split at h
    next c chars bracket rest hdate hrest =>
      obtain ⟨rfl, rfl⟩ := Prod.mk.inj (Option.some.inj h)
      have hbracket : bracket = ']' := by
        have hhead := @head_of_dropWhile _ (· != ']') inside bracket (by rw [hrest]; rfl)
        simpa using hhead
      refine ⟨?_, by simp, fun hmem => ?_⟩
      · rw [← hinside, hdate, hrest, hbracket, List.append_assoc]
      · rw [← hdate] at hmem
        simpa using List.mem_takeWhile_imp hmem
    next => cases h
  · rintro ⟨rfl, hdate, hfree⟩
    rw [if_pos (List.isPrefixOf_iff_prefix.mpr ⟨date ++ ']' :: after, by simp⟩),
      List.append_assoc, List.drop_left]
    have hall : ∀ c ∈ date, (c != ']') = true := by
      intro c hc
      simp only [bne_iff_ne]
      rintro rfl
      exact hfree hc
    have htake : (date ++ ']' :: after).takeWhile (· != ']') = date := by
      rw [List.takeWhile_append_of_pos hall]
      simp
    have hdrop : (date ++ ']' :: after).dropWhile (· != ']') = ']' :: after := by
      rw [dropWhile_append_of_all hall]
      simp
    dsimp only
    rw [htake, hdrop]
    obtain ⟨c, chars, rfl⟩ := List.exists_cons_of_ne_nil hdate
    rfl

/-- A header is found in a longer text too. -/
theorem matchSession_append {text date after : List Char}
    (h : matchSession text = some (date, after)) (rest : List Char) :
    matchSession (text ++ rest) = some (date, after ++ rest) := by
  obtain ⟨htext, hdate, hfree⟩ := matchSession_eq_some_iff.mp h
  have hlong : text ++ rest = sessionHeader ++ date ++ ']' :: (after ++ rest) := by
    rw [htext, List.append_assoc, List.cons_append]
  exact matchSession_eq_some_iff.mpr ⟨hlong, hdate, hfree⟩

theorem matchSession_nil : matchSession [] = none := by
  cases h : matchSession [] with
  | none => rfl
  | some found =>
      have hlength := congrArg List.length (matchSession_eq_some_iff.mp h).1
      simp at hlength

theorem searchSession_eq_none_iff {text : List Char} :
    searchSession text = none ↔ ∀ rest, rest <:+ text → matchSession rest = none := by
  induction text with
  | nil => simp [searchSession, matchSession_nil]
  | cons c text ih =>
      rw [searchSession]
      cases hmatch : matchSession (c :: text) with
      | some found =>
          refine ⟨nofun, fun h => ?_⟩
          have hnone := h _ (List.suffix_refl _)
          rw [hmatch] at hnone
          cases hnone
      | none =>
          rw [Option.map_eq_none_iff, ih]
          constructor
          · intro h rest hrest
            rcases List.suffix_cons_iff.mp hrest with rfl | hrest
            · exact hmatch
            · exact h rest hrest
          · exact fun h rest hrest => h rest (hrest.trans (List.suffix_cons c text))

/-- Where the first header is, and that none begins before it. -/
theorem searchSession_spec {text before date after : List Char}
    (h : searchSession text = some (before, date, after)) :
    ∃ rest, text = before ++ rest ∧ matchSession rest = some (date, after) ∧
      ∀ late, late ≠ [] → late <:+ before → matchSession (late ++ rest) = none := by
  induction text generalizing before with
  | nil => cases h
  | cons c text ih =>
      rw [searchSession] at h
      split at h
      next date' after' hmatch =>
        cases h
        refine ⟨c :: text, rfl, hmatch, fun late hne hlate => ?_⟩
        exact absurd (List.suffix_nil.mp hlate) hne
      next hmatch =>
        obtain ⟨⟨before', date', after'⟩, hfound, heq⟩ := Option.map_eq_some_iff.mp h
        cases heq
        obtain ⟨rest, rfl, hrest, hnone⟩ := ih hfound
        refine ⟨rest, rfl, hrest, fun late hne hlate => ?_⟩
        rcases List.suffix_cons_iff.mp hlate with rfl | hlate
        · exact hmatch
        · exact hnone late hne hlate

theorem searchSession_of_match {text date after : List Char}
    (h : matchSession text = some (date, after)) :
    searchSession text = some ([], date, after) := by
  cases text with
  | nil =>
      rw [matchSession_nil] at h
      cases h
  | cons c text =>
      unfold searchSession
      rw [h]

/-- There is no header within what precedes the first one. -/
theorem searchSession_before {text before date after part : List Char}
    (h : searchSession text = some (before, date, after)) (hpart : part <:+: before) :
    searchSession part = none := by
  obtain ⟨rest, -, -, hnone⟩ := searchSession_spec h
  refine searchSession_eq_none_iff.mpr fun late hlate => ?_
  by_contra hsome
  obtain ⟨⟨date', after'⟩, hmatch⟩ := Option.ne_none_iff_exists'.mp hsome
  obtain ⟨front, back, rfl⟩ := hpart
  have hne : late ++ back ≠ [] := by
    rintro hnil
    rw [(List.append_eq_nil_iff.mp hnil).1, matchSession_nil] at hmatch
    cases hmatch
  have hsuffix : late ++ back <:+ front ++ part ++ back := by
    obtain ⟨mid, rfl⟩ := hlate
    exact ⟨front ++ mid, by simp⟩
  have hlong := matchSession_append hmatch (back ++ rest)
  rw [← List.append_assoc, hnone _ hne hsuffix] at hlong
  cases hlong

/-! ## Splitting a message -/

/-- The parts of a message are split no further. -/
theorem splitSessionBoundaryMessage_part {msg part : RowMessage}
    (h : part ∈ splitSessionBoundaryMessage msg) :
    splitSessionBoundaryMessage part = [part] := by
  unfold splitSessionBoundaryMessage at h
  split at h
  next before date after hsearch =>
    split_ifs at h with hbefore
    · rcases List.mem_pair.mp h with rfl | rfl
      · have hnone : searchSession (pyStripChars before) = none :=
          searchSession_before hsearch trim_infix
        simp [splitSessionBoundaryMessage, hnone]
      · obtain ⟨rest, -, hmatch, -⟩ := searchSession_spec hsearch
        have hrest := (matchSession_eq_some_iff.mp hmatch).1
        have hagain := searchSession_of_match hmatch
        rw [hrest] at hagain
        have hstrip : pyStripChars [] = [] := rfl
        simp only [splitSessionBoundaryMessage, String.toList_ofList, hagain, hstrip, ne_eq,
          not_true_eq_false, if_false]
    · obtain rfl := List.mem_singleton.mp h
      simp [splitSessionBoundaryMessage, hsearch, hbefore]
  next hsearch =>
    obtain rfl := List.mem_singleton.mp h
    simp [splitSessionBoundaryMessage, hsearch]

theorem splitSessionBoundaryMessages_of_parts {messages parts : List RowMessage}
    (h : ∀ msg ∈ parts, msg ∈ splitSessionBoundaryMessages messages) :
    splitSessionBoundaryMessages parts = parts := by
  induction parts with
  | nil => rfl
  | cons part parts ih =>
      obtain ⟨msg, -, hpart⟩ := List.mem_flatMap.mp (h part List.mem_cons_self)
      rw [splitSessionBoundaryMessages, List.flatMap_cons, splitSessionBoundaryMessage_part hpart]
      exact congrArg (part :: ·) (ih fun msg hmsg => h msg (List.mem_cons_of_mem _ hmsg))

/-! ## Whole turns -/

/-- Only the first message is one of the user, and only the last an answer. -/
structure TurnPair.Whole (pair : TurnPair) : Prop where
  ne_nil : pair.messages ≠ []
  user : ∀ msg ∈ pair.messages.tail, msg.role ≠ "user"
  answer : ∀ msg ∈ pair.messages.dropLast, msg.role ≠ "assistant"

theorem whole_of_mem_flushTurn {current : List RowMessage} {pair : TurnPair}
    (huser : ∀ msg ∈ current.tail, msg.role ≠ "user")
    (hanswer : ∀ msg ∈ current, msg.role ≠ "assistant") (h : pair ∈ flushTurn current) :
    pair.Whole := by
  unfold flushTurn at h
  split_ifs at h with hempty
  · cases h
  · obtain rfl := List.mem_singleton.mp h
    exact ⟨by simpa using hempty, huser, fun msg hmsg => hanswer msg (List.dropLast_subset _ hmsg)⟩

theorem whole_of_mem_pairMessages {current messages : List RowMessage} {pair : TurnPair}
    (huser : ∀ msg ∈ current.tail, msg.role ≠ "user")
    (hanswer : ∀ msg ∈ current, msg.role ≠ "assistant")
    (h : pair ∈ pairMessages current messages) : pair.Whole := by
  induction messages generalizing current with
  | nil => exact whole_of_mem_flushTurn huser hanswer h
  | cons msg messages ih =>
      have htail : msg.role ≠ "user" → ∀ m ∈ (current ++ [msg]).tail, m.role ≠ "user" := by
        intro hrole m hm
        cases current with
        | nil => cases hm
        | cons first current =>
            rcases List.mem_append.mp hm with hm | hm
            · exact huser m hm
            · rwa [List.mem_singleton.mp hm]
      rw [pairMessages] at h
      split_ifs at h with hisUser hisAnswer
      · rcases List.mem_append.mp h with h | h
        · exact whole_of_mem_flushTurn huser hanswer h
        · refine ih (fun m hm => by cases hm) (fun m hm => ?_) h
          rw [List.mem_singleton.mp hm, hisUser]
          decide
      · rcases List.mem_cons.mp h with rfl | h
        · refine ⟨by simp, htail hisUser, fun m hm => hanswer m ?_⟩
          rwa [List.dropLast_concat] at hm
        · exact ih (fun m hm => by cases hm) (fun m hm => by cases hm) h
      · refine ih (htail hisUser) (fun m hm => ?_) h
        rcases List.mem_append.mp hm with hm | hm
        · exact hanswer m hm
        · rwa [List.mem_singleton.mp hm]

theorem whole_of_mem_pairTurns {messages : List RowMessage} {pair : TurnPair}
    (h : pair ∈ pairTurns messages) : pair.Whole :=
  whole_of_mem_pairMessages (fun msg hmsg => by cases hmsg) (fun msg hmsg => by cases hmsg) h

/-! ## Pairing turns anew -/

/-- Messages without one of the user and with an answer at most at the end. -/
theorem pairMessages_tail {rest : List RowMessage} :
    ∀ {messages current : List RowMessage}, (∀ msg ∈ messages, msg.role ≠ "user") →
      (∀ msg ∈ messages.dropLast, msg.role ≠ "assistant") →
      pairMessages current (messages ++ rest) = ⟨current ++ messages⟩ :: pairMessages [] rest ∨
        pairMessages current (messages ++ rest) = pairMessages (current ++ messages) rest
  | [], current, _, _ => .inr (by simp)
  | [msg], current, huser, _ => by
      have hrole := huser msg List.mem_cons_self
      rw [List.cons_append, pairMessages, if_neg hrole]
      split_ifs
      · exact .inl rfl
      · exact .inr rfl
  | msg :: next :: messages, current, huser, hanswer => by
      have hrole := huser msg List.mem_cons_self
      have hopen := hanswer msg (by simp)
      have hrest := @pairMessages_tail rest (next :: messages) (current ++ [msg])
        (fun m hm => huser m (List.mem_cons_of_mem _ hm))
        (fun m hm => hanswer m (by
          rw [List.dropLast_cons_of_ne_nil (by simp)]
          exact List.mem_cons_of_mem _ hm))
      rw [List.cons_append, pairMessages, if_neg hrole, if_neg hopen]
      simpa only [List.append_assoc, List.singleton_append] using hrest

/-- The turn that several turns make together. -/
def mergeTurns (turns : List TurnPair) : TurnPair := ⟨turns.flatMap (·.messages)⟩

theorem mergeTurns_singleton (pair : TurnPair) : mergeTurns [pair] = pair := by
  simp [mergeTurns]

/-- The turns that are open when whole turns are paired anew. -/
theorem pairMessages_turns {turns opened : List TurnPair} (hopened : ∀ t ∈ opened, t.Whole)
    (hturns : ∀ t ∈ turns, t.Whole) :
    ∃ parts : List (List TurnPair),
      pairMessages (mergeTurns opened).messages (mergeTurns turns).messages =
        parts.map mergeTurns ∧ parts.flatten = opened ++ turns := by
  have hflush : ∀ opened : List TurnPair, (∀ t ∈ opened, t.Whole) →
      ∃ parts : List (List TurnPair),
        flushTurn (mergeTurns opened).messages = parts.map mergeTurns ∧
          parts.flatten = opened := by
    intro opened hopened
    cases opened with
    | nil => exact ⟨[], rfl, rfl⟩
    | cons t opened =>
        refine ⟨[t :: opened], ?_, by simp⟩
        have hne := (hopened t List.mem_cons_self).ne_nil
        rw [flushTurn, if_neg (by simp [mergeTurns, hne])]
        rfl
  induction turns generalizing opened with
  | nil =>
      obtain ⟨parts, heq, hflatten⟩ := hflush opened hopened
      exact ⟨parts, heq, by rw [hflatten, List.append_nil]⟩
  | cons t turns ih =>
      have hrest : ∀ s ∈ turns, s.Whole := fun s hs => hturns s (List.mem_cons_of_mem _ hs)
      have hwhole := hturns t List.mem_cons_self
      have hmerge : (mergeTurns (t :: turns)).messages =
          t.messages ++ (mergeTurns turns).messages := rfl
      have hone : (mergeTurns [t]).messages = t.messages := by rw [mergeTurns_singleton]
      have hnil : (mergeTurns []).messages = [] := rfl
      obtain ⟨parts, hparts, hflatten⟩ := @ih [] (fun s hs => by cases hs) hrest
      rw [hnil] at hparts
      rw [hmerge]
      obtain ⟨first, later, heq⟩ := List.exists_cons_of_ne_nil hwhole.ne_nil
      by_cases hrole : first.role = "user"
      · -- the turn begins anew
        obtain ⟨flushed, hflushed, hopenedEq⟩ := hflush opened hopened
        have hbegin : pairMessages (mergeTurns opened).messages
            (t.messages ++ (mergeTurns turns).messages) =
              flushed.map mergeTurns ++ pairMessages [first] (later ++ (mergeTurns turns).messages) := by
          rw [heq, List.cons_append, pairMessages, if_pos hrole, hflushed]
        have htail := @pairMessages_tail (mergeTurns turns).messages later [first]
          (fun msg hmsg => hwhole.user msg (by rwa [heq]))
          (fun msg hmsg => hwhole.answer msg (by
            rw [heq, List.dropLast_cons_of_ne_nil (List.ne_nil_of_mem (List.dropLast_subset _ hmsg))]
            exact List.mem_cons_of_mem _ hmsg))
        rw [List.singleton_append, ← heq] at htail
        rcases htail with hclosed | hopen
        · refine ⟨flushed ++ [t] :: parts, ?_, ?_⟩
          · rw [hbegin, hclosed, hparts, List.map_append, List.map_cons, mergeTurns_singleton]
          · simp [hopenedEq, hflatten]
        · obtain ⟨more, hmore, hmoreEq⟩ := @ih [t] (by simpa using hwhole) hrest
          rw [hone] at hmore
          refine ⟨flushed ++ more, ?_, ?_⟩
          · rw [hbegin, hopen, hmore, List.map_append]
          · simp [hopenedEq, hmoreEq]
      · -- the turn goes on with the turns that are open
        have hnoUser : ∀ msg ∈ t.messages, msg.role ≠ "user" := by
          intro msg hmsg
          rw [heq] at hmsg
          rcases List.mem_cons.mp hmsg with rfl | hmsg
          · exact hrole
          · exact hwhole.user msg (by rwa [heq])
        have hjoin : (mergeTurns opened).messages ++ t.messages =
            (mergeTurns (opened ++ [t])).messages := by simp [mergeTurns]
        have htail := @pairMessages_tail (mergeTurns turns).messages t.messages
          (mergeTurns opened).messages hnoUser hwhole.answer
        rw [hjoin] at htail
        rcases htail with hclosed | hopen
        · refine ⟨(opened ++ [t]) :: parts, ?_, ?_⟩
          · rw [hclosed, hparts, List.map_cons]
          · simp [hflatten]
        · obtain ⟨more, hmore, hmoreEq⟩ := @ih (opened ++ [t])
            (List.forall_mem_append.mpr ⟨hopened, by simpa using hwhole⟩) hrest
          exact ⟨more, hopen.trans hmore, by simp [hmoreEq]⟩

/-- Turns that are paired anew are merged, and none is taken apart. -/
theorem pairTurns_turns {messages : List RowMessage} {turns : List TurnPair}
    (h : ∀ t ∈ turns, t ∈ pairTurns messages) :
    ∃ parts : List (List TurnPair),
      pairTurns (turns.flatMap (·.messages)) = parts.map mergeTurns ∧ parts.flatten = turns := by
  have hsplit : splitSessionBoundaryMessages (turns.flatMap (·.messages)) =
      turns.flatMap (·.messages) := by
    refine @splitSessionBoundaryMessages_of_parts messages _ fun msg hmsg => ?_
    obtain ⟨t, ht, hmsg⟩ := List.mem_flatMap.mp hmsg
    exact ((mem_pairMessages (h t ht)).2 msg hmsg).resolve_left (by simp)
  obtain ⟨parts, hparts, hflatten⟩ := @pairMessages_turns turns [] (fun t ht => by cases ht)
    (fun t ht => whole_of_mem_pairTurns (h t ht))
  refine ⟨parts, ?_, hflatten⟩
  rw [pairTurns, hsplit]
  exact hparts

end VirtualContext
