import VirtualContext.Core.SegmentPartition
import VirtualContext.Core.TurnNumbering

/-!
# Session boundaries

A turn has the session of the latest header in it or before it.  A turn joins a
segment of another session if that segment admits it, scores at the threshold,
and is not beaten by another one.
-/

namespace VirtualContext

open VirtualContext.Library

/-! ## The session of a turn -/

def headerDatesFrom : Nat → List Char → List (List Char)
  | 0, _ => []
  | fuel + 1, text =>
      match searchSession text with
      | none => []
      | some (_, date, after) => date :: headerDatesFrom fuel after

/-- The dates of the headers in a text, in their order. -/
def headerDates (text : List Char) : List (List Char) := headerDatesFrom text.length text

theorem headerDatesFrom_eq {fuel : Nat} {text : List Char} (h : text.length ≤ fuel) :
    headerDatesFrom fuel text = headerDates text := by
  unfold headerDates
  generalize hlength : text.length = length at h
  induction length using Nat.strong_induction_on generalizing fuel text with
  | _ length ih =>
      cases hsearch : searchSession text with
      | none => cases fuel <;> cases length <;> simp [headerDatesFrom, hsearch]
      | some found =>
          obtain ⟨before, date, after⟩ := found
          have hafter : after.length < length := by
            obtain ⟨rest, rfl, hmatch, -⟩ := searchSession_spec hsearch
            obtain ⟨rfl, -, -⟩ := matchSession_eq_some_iff.mp hmatch
            simp only [List.length_append, List.length_cons] at hlength
            omega
          obtain ⟨fuel, rfl⟩ : ∃ n, fuel = n + 1 := ⟨fuel - 1, by omega⟩
          obtain ⟨length, rfl⟩ : ∃ n, length = n + 1 := ⟨length - 1, by omega⟩
          have hlong := ih after.length hafter rfl (by omega : after.length ≤ fuel)
          have hshort := ih after.length hafter rfl (by omega : after.length ≤ length)
          simp only [headerDatesFrom, hsearch, hlong, hshort]

/-- Past a header the rest of the text is searched. -/
theorem headerDates_eq (text : List Char) :
    headerDates text = match searchSession text with
      | none => []
      | some (_, date, after) => date :: headerDates after := by
  cases text with
  | nil => rfl
  | cons c text =>
      rw [headerDates, List.length_cons, headerDatesFrom]
      cases hsearch : searchSession (c :: text) with
      | none => rfl
      | some found =>
          obtain ⟨before, date, after⟩ := found
          obtain ⟨rest, htext, hmatch, -⟩ := searchSession_spec hsearch
          obtain ⟨rfl, -, -⟩ := matchSession_eq_some_iff.mp hmatch
          have hlength := congrArg List.length htext
          simp only [List.length_append, List.length_cons] at hlength
          dsimp only
          rw [headerDatesFrom_eq (by omega)]

/-- The date of the last header of a turn. -/
def TurnPair.latestSession (pair : TurnPair) : Option String :=
  (pair.messages.flatMap fun msg => headerDates msg.content.toList).getLast?.map String.ofList

/-- A blank turn has no header. -/
theorem latestSession_of_isBlank {pair : TurnPair} (h : pair.isBlank = true) :
    pair.latestSession = none := by
  have hspace := (pyStrip_eq_empty_iff _).mp (of_decide_eq_true h)
  have hnone : ∀ msg ∈ pair.messages, headerDates msg.content.toList = [] := by
    intro msg hmsg
    rw [headerDates_eq]
    cases hsearch : searchSession msg.content.toList with
    | none => rfl
    | some found =>
        obtain ⟨before, date, after⟩ := found
        obtain ⟨rest, htext, hmatch, -⟩ := searchSession_spec hsearch
        obtain ⟨rfl, -, -⟩ := matchSession_eq_some_iff.mp hmatch
        have hbracket : '[' ∈ msg.content.toList := by
          have hheader : '[' ∈ sessionHeader := by decide +kernel
          rw [htext]
          simp [hheader]
        have hjoined : '[' ∈ (joinContents pair.messages).toList := by
          rw [joinContents, String.toList_intercalate]
          refine List.mem_flatten.mpr ⟨msg.content.toList, ?_, hbracket⟩
          exact mem_intersperse_of_mem (List.mem_map_of_mem (List.mem_map_of_mem hmsg))
        exact absurd (hspace _ hjoined) (by decide)
  rw [TurnPair.latestSession, List.flatMap_eq_nil_iff.mpr hnone]
  rfl

/-- The session after these turns. -/
def sessionAfter (turns : List TaggedTurn) : String :=
  turns.foldl (fun session turn => turn.pair.latestSession.getD session) ""

/-- The turns with their sessions. -/
def withSessions (session : String) : List TaggedTurn → List (TaggedTurn × String)
  | [] => []
  | turn :: turns =>
      let latest := turn.pair.latestSession.getD session
      (turn, latest) :: withSessions latest turns

theorem map_fst_withSessions (session : String) (turns : List TaggedTurn) :
    (withSessions session turns).map Prod.fst = turns := by
  induction turns generalizing session with
  | nil => rfl
  | cons turn turns ih => rw [withSessions, List.map_cons, ih]

theorem withSessions_concat (turns : List TaggedTurn) (turn : TaggedTurn) :
    withSessions "" (turns ++ [turn]) =
      withSessions "" turns ++ [(turn, sessionAfter (turns ++ [turn]))] := by
  rw [sessionAfter, List.foldl_append]
  generalize "" = session
  induction turns generalizing session with
  | nil => rfl
  | cons first turns ih => simp only [List.cons_append, withSessions, List.foldl_cons, ih]

/-! ## The sessions of the segments -/

namespace TopicSegmenter

variable (segmenter : TopicSegmenter)

/-- The turns of each group of the library, with their sessions. -/
def sessionGroups (turns : List TaggedTurn) : List (List (TaggedTurn × String)) :=
  placeAll [] ((withSessions "" turns).zip ((segmenter.choices "" [] turns).map Prod.snd))

theorem choices_concat (session : String) (library : List SegmentGroup) (turns : List TaggedTurn)
    (turn : TaggedTurn) :
    segmenter.choices session library (turns ++ [turn]) =
      segmenter.choices session library turns ++
        [(turn, segmenter.bestSegment (segmenter.groupTurns session library turns) turn)] := by
  induction turns generalizing session library with
  | nil => rfl
  | cons first turns ih => simp only [List.cons_append, choices, groupTurns, ih]

/-- The library after the turns. -/
def libraryOf (turns : List TaggedTurn) : List SegmentGroup := segmenter.groupTurns "" [] turns

theorem sessionGroups_concat (turns : List TaggedTurn) (turn : TaggedTurn) :
    segmenter.sessionGroups (turns ++ [turn]) =
      place (segmenter.bestSegment (segmenter.libraryOf turns) turn)
        (turn, sessionAfter (turns ++ [turn])) (segmenter.sessionGroups turns) := by
  have hlength : (withSessions "" turns).length =
      ((segmenter.choices "" [] turns).map Prod.snd).length := by
    have hleft := congrArg List.length (map_fst_withSessions "" turns)
    have hright := congrArg List.length (segmenter.map_fst_choices "" [] turns)
    rw [List.length_map] at hleft hright ⊢
    rw [hleft, hright]
  rw [sessionGroups, withSessions_concat, choices_concat, List.map_append, List.zip_append hlength,
    placeAll_append]
  rfl

/-- The groups are those of the library. -/
theorem map_sessionGroups (turns : List TaggedTurn) :
    (segmenter.sessionGroups turns).map (List.map Prod.fst) =
      (segmenter.libraryOf turns).map (·.turns) := by
  induction turns using List.reverseRecOn with
  | nil => rfl
  | append_singleton turns turn ih =>
      have hlibrary : (segmenter.libraryOf (turns ++ [turn])).map (·.turns) =
          place (segmenter.bestSegment (segmenter.libraryOf turns) turn) turn
            ((segmenter.libraryOf turns).map (·.turns)) := by
        rw [libraryOf, turns_groupTurns, choices_concat, placeAll_append, ← turns_groupTurns]
        rfl
      rw [sessionGroups_concat, map_place, ih, hlibrary]

/-- All turns have one session. -/
def OneSession (turns : List (TaggedTurn × String)) : Prop :=
  ∀ a ∈ turns, ∀ b ∈ turns, a.2 = b.2

theorem OneSession.of_subset {turns part : List (TaggedTurn × String)} (h : OneSession turns)
    (hpart : part ⊆ turns) : OneSession part :=
  fun a ha b hb => h a (hpart ha) b (hpart hb)

theorem oneSession_concat {turns : List (TaggedTurn × String)} {entry : TaggedTurn × String} :
    OneSession (turns ++ [entry]) ↔ OneSession turns ∧ ∀ a ∈ turns, a.2 = entry.2 := by
  constructor
  · intro h
    exact ⟨h.of_subset (List.subset_append_left _ _),
      fun a ha => h a (List.mem_append_left _ ha) entry (by simp)⟩
  · rintro ⟨hturns, hentry⟩ a ha b hb
    have hsame : ∀ c ∈ turns ++ [entry], c.2 = entry.2 := by
      intro c hc
      rcases List.mem_append.mp hc with hc | hc
      · exact hentry c hc
      · rw [List.mem_singleton.mp hc]
    exact (hsame a ha).trans (hsame b hb).symm

theorem forall_mem_modify_iff {β : Type} {P : β → Prop} {f : β → β} {i : Nat} {xs : List β} :
    (∀ x ∈ xs.modify i f, P x) ↔ ∀ k x, xs[k]? = some x → P (if i = k then f x else x) := by
  have hget : ∀ k, (xs.modify i f)[k]? = xs[k]?.map fun x => if i = k then f x else x := by
    intro k
    rw [List.getElem?_modify]
    cases xs[k]? <;> split_ifs <;> rfl
  constructor
  · intro h k x hx
    refine h _ (List.mem_iff_getElem?.mpr ⟨k, ?_⟩)
    rw [hget, hx, Option.map_some]
  · intro h y hy
    obtain ⟨k, hk⟩ := List.mem_iff_getElem?.mp hy
    rw [hget, Option.map_eq_some_iff] at hk
    obtain ⟨x, hx, rfl⟩ := hk
    exact h k x hx

/-- A turn must join a group of its session. -/
theorem oneSession_place {groups : List (List (TaggedTurn × String))} {choice : Option Nat}
    {entry : TaggedTurn × String} :
    (∀ group ∈ place choice entry groups, OneSession group) ↔
      (∀ group ∈ groups, OneSession group) ∧
        ∀ i ∈ choice, ∀ group ∈ groups[i]?, ∀ a ∈ group, a.2 = entry.2 := by
  cases choice with
  | none =>
      rw [place, List.forall_mem_append, List.forall_mem_singleton]
      refine and_congr_right fun _ => iff_of_true ?_ (fun i hi => by cases hi)
      intro a ha b hb
      rw [List.mem_singleton.mp ha, List.mem_singleton.mp hb]
  | some i =>
      rw [place, forall_mem_modify_iff]
      constructor
      · intro h
        refine ⟨fun group hgroup => ?_, fun j hj group hgroup => ?_⟩
        · obtain ⟨k, hk⟩ := List.mem_iff_getElem?.mp hgroup
          have hplaced := h k group hk
          split_ifs at hplaced
          · exact (oneSession_concat.mp hplaced).1
          · exact hplaced
        · obtain rfl := Option.some.inj hj
          have hplaced := h i group hgroup
          rw [if_pos rfl] at hplaced
          exact (oneSession_concat.mp hplaced).2
      · rintro ⟨hgroups, hjoined⟩ k group hk
        have hgroup := hgroups group (List.mem_of_getElem? hk)
        split_ifs with hik
        · subst hik
          exact oneSession_concat.mpr ⟨hgroup, hjoined i rfl group hk⟩
        · exact hgroup

/-- Every segment that would take a turn holds turns of its session or is beaten. -/
def JoinsOwnSession (turns : List TaggedTurn) : Prop :=
  ∀ before turn after, turns = before ++ turn :: after →
    ∀ i score, segmenter.ScoredAt (segmenter.libraryOf before) turn i score →
      (∀ group ∈ (segmenter.sessionGroups before)[i]?, ∀ earlier ∈ group,
        earlier.2 = sessionAfter (before ++ [turn])) ∨
      ∃ j other, segmenter.ScoredAt (segmenter.libraryOf before) turn j other ∧
        (score < other ∨ score ≤ other ∧ j < i)

theorem joinsOwnSession_concat {turns : List TaggedTurn} {turn : TaggedTurn} :
    segmenter.JoinsOwnSession (turns ++ [turn]) ↔
      segmenter.JoinsOwnSession turns ∧
        ∀ i ∈ segmenter.bestSegment (segmenter.libraryOf turns) turn,
          ∀ group ∈ (segmenter.sessionGroups turns)[i]?, ∀ a ∈ group,
            a.2 = sessionAfter (turns ++ [turn]) := by
  constructor
  · intro h
    refine ⟨fun before t after heq => h before t (after ++ [turn]) (by simp [heq]), ?_⟩
    intro i hi
    obtain ⟨score, hscored, hbest⟩ := bestSegment_eq_some_iff.mp hi
    rcases h turns turn [] rfl i score hscored with hsame | ⟨j, other, hother, hbeaten⟩
    · exact hsame
    · obtain ⟨hle, hlt⟩ := hbest j other hother
      rcases hbeaten with hbeaten | ⟨hbeaten, hji⟩
      · exact absurd hbeaten hle.not_gt
      · exact absurd hbeaten (hlt hji).not_ge
  · rintro ⟨hturns, hlast⟩ before t after heq i score hscored
    rcases List.eq_nil_or_concat after with rfl | ⟨after, final, rfl⟩
    · obtain ⟨rfl, hturn⟩ := List.append_inj' heq rfl
      obtain rfl : turn = t := by simpa using hturn
      by_cases hbest : segmenter.bestSegment (segmenter.libraryOf turns) turn = some i
      · exact .inl (hlast i hbest)
      · right
        by_contra hnone
        push Not at hnone
        refine hbest (bestSegment_eq_some_iff.mpr ⟨score, hscored, fun j other hother => ?_⟩)
        obtain ⟨hle, hlt⟩ := hnone j other hother
        refine ⟨hle, fun hji => ?_⟩
        by_contra hge
        exact absurd (hlt (Rat.not_lt.mp hge)) hji.not_ge
    · rw [List.concat_eq_append, ← List.cons_append, ← List.append_assoc] at heq
      obtain ⟨heq, -⟩ := List.append_inj' heq rfl
      exact hturns before t after heq i score hscored

theorem oneSession_iff (turns : List TaggedTurn) :
    (∀ group ∈ segmenter.sessionGroups turns, OneSession group) ↔
      segmenter.JoinsOwnSession turns := by
  induction turns using List.reverseRecOn with
  | nil =>
      refine iff_of_true (fun group hgroup => by cases hgroup) fun before turn after heq => ?_
      simp at heq
  | append_singleton turns turn ih =>
      rw [sessionGroups_concat, oneSession_place, ih, joinsOwnSession_concat]

/-! ## Turns with a header each -/

/-- The code takes the first header of a turn, the session is that of the last. -/
def HasOneDate (turn : TaggedTurn) : Prop :=
  turn.pair.sessionDate ≠ "" ∧ turn.pair.latestSession = some turn.pair.sessionDate

theorem groupTurns_concat {session : String} {library : List SegmentGroup}
    {turns : List TaggedTurn} {turn : TaggedTurn} (h : turn.pair.sessionDate ≠ "") :
    segmenter.groupTurns session library (turns ++ [turn]) =
      segmenter.placeTurn turn.pair.sessionDate (segmenter.groupTurns session library turns)
        turn := by
  induction turns generalizing session library with
  | nil => simp [groupTurns, h]
  | cons first turns ih => exact ih

variable {segmenter} in
theorem session_of_score {group : SegmentGroup} {turn : TaggedTurn} {score : ℚ}
    (hscore : segmenter.score group turn = some score) (hdate : turn.pair.sessionDate ≠ "") :
    turn.pair.sessionDate = group.session := by
  unfold TopicSegmenter.score at hscore
  dsimp only at hscore
  split_ifs at hscore with _ _ hother hnone
  all_goals
    by_contra hne
    by_cases hempty : group.session = ""
    · exact hnone ⟨hdate, hempty⟩
    · exact hother ⟨hdate, hempty, hne⟩

theorem sessionAfter_concat (turns : List TaggedTurn) {turn : TaggedTurn}
    (h : HasOneDate turn) : sessionAfter (turns ++ [turn]) = turn.pair.sessionDate := by
  rw [sessionAfter, List.foldl_append, List.foldl_cons, List.foldl_nil, h.2, Option.getD_some]

/-- Each group is of the session that it was opened with. -/
theorem session_of_sessionGroups {turns : List TaggedTurn} (h : ∀ turn ∈ turns, HasOneDate turn) :
    List.Forall₂ (fun group entries => ∀ entry ∈ entries, entry.2 = group.session)
      (segmenter.libraryOf turns) (segmenter.sessionGroups turns) := by
  induction turns using List.reverseRecOn with
  | nil => exact .nil
  | append_singleton turns turn ih =>
      have hgroups := ih fun t ht => h t (List.mem_append_left _ ht)
      have hturn := h turn (by simp)
      rw [libraryOf, groupTurns_concat segmenter hturn.1, sessionGroups_concat,
        sessionAfter_concat turns hturn]
      change List.Forall₂ _ (segmenter.placeTurn _ (segmenter.libraryOf turns) turn) _
      unfold placeTurn
      dsimp only
      cases hbest : segmenter.bestSegment (segmenter.libraryOf turns) turn with
      | none => exact List.rel_append hgroups (.cons (by simp) .nil)
      | some i =>
          obtain ⟨score, ⟨group, hget, hscore, -⟩, -⟩ := bestSegment_eq_some_iff.mp hbest
          have hsession := session_of_score hscore hturn.1
          refine List.forall₂_iff_get.mpr ⟨by simp [place, hgroups.length_eq], fun k hk hk' => ?_⟩
          simp only [place, List.length_modify] at hk hk'
          have hold := (List.forall₂_iff_get.mp hgroups).2 k hk hk'
          simp only [place, List.get_eq_getElem, List.getElem_modify] at hold ⊢
          split_ifs with hik
          · subst hik
            rw [List.getElem?_eq_getElem hk] at hget
            obtain rfl := Option.some.inj hget
            intro entry hentry
            rcases List.mem_append.mp hentry with hentry | hentry
            · exact hold entry hentry
            · rw [List.mem_singleton.mp hentry]
              exact hsession
          · exact hold

/-- Turns that carry one date each are kept apart. -/
theorem joinsOwnSession_of_headers {turns : List TaggedTurn}
    (h : ∀ turn ∈ turns, HasOneDate turn) : segmenter.JoinsOwnSession turns := by
  rintro before turn after rfl i score ⟨group, hget, hscore, -⟩
  have hturn := h turn (by simp)
  have hgroups := segmenter.session_of_sessionGroups fun t ht =>
    h t (List.mem_append_left (turn :: after) ht)
  left
  intro entries hentries entry hentry
  obtain ⟨hi, rfl⟩ := List.getElem?_eq_some_iff.mp hget
  obtain ⟨hi', rfl⟩ := List.getElem?_eq_some_iff.mp hentries
  rw [sessionAfter_concat before hturn, session_of_score hscore hturn.1]
  exact (List.forall₂_iff_get.mp hgroups).2 i hi hi' entry hentry

/-! ## The turns of the segments -/

/-- The segments hold the grouped turns, and each those of one session. -/
def SessionsSplit (turns : List TaggedTurn) (segments : List TaggedSegment) : Prop :=
  ∃ parts : List (List (TaggedTurn × String)),
    parts.flatten = (segmenter.sessionGroups turns).flatten ∧
    List.Forall₂ (fun part seg => seg.messages = part.flatMap fun entry => entry.1.pair.messages)
      parts segments ∧
    ∀ part ∈ parts, OneSession part

variable {segmenter} {supply : SegmentSupply}
variable {closerToPrevious : TaggedSegment → TaggedSegment → TaggedSegment → Bool}
variable {messages : List RowMessage} {turnOffset : Int}

theorem mem_sessionGroups {turns : List TaggedTurn} {group : List (TaggedTurn × String)}
    {entry : TaggedTurn × String} (hgroup : group ∈ segmenter.sessionGroups turns)
    (hentry : entry ∈ group) : entry.1 ∈ turns := by
  rcases mem_flatten_placeAll (List.mem_flatten.mpr ⟨group, hgroup, hentry⟩) with hmem | hmem
  · cases hmem
  · obtain ⟨step, hstep, rfl⟩ := List.mem_map.mp hmem
    have hfst := List.mem_map_of_mem (f := Prod.fst) (List.of_mem_zip hstep).1
    rwa [map_fst_withSessions] at hfst

theorem mem_pairTurns_of_mem_tagTurns {turn : TaggedTurn}
    (h : turn ∈ segmenter.tagTurns turnOffset (pairTurns messages)) :
    turn.pair ∈ pairTurns messages := by
  have hpair := List.mem_map_of_mem (f := TaggedTurn.pair) h
  rw [map_pair_tagTurns] at hpair
  exact (List.mem_filter.mp hpair).1

/-- The groups hold the turns of the segments before any is split. -/
theorem sessionGroups_segment :
    List.Forall₂ (fun group seg =>
        (∀ entry ∈ group, entry.1.pair ∈ pairTurns messages) ∧
        seg.messages = group.flatMap fun entry => entry.1.pair.messages)
      (segmenter.sessionGroups (segmenter.tagTurns turnOffset (pairTurns messages)))
      (segmenter.segment supply closerToPrevious messages turnOffset) := by
  have hbuilt := @builtFrom_segment segmenter supply closerToPrevious messages turnOffset
  have hgroups := segmenter.map_sessionGroups
    (segmenter.tagTurns turnOffset (pairTurns messages))
  have hlength := congrArg List.length hgroups
  rw [List.length_map, List.length_map] at hlength
  refine List.forall₂_iff_get.mpr ⟨hlength.trans hbuilt.length_eq, fun i hi hi' => ⟨?_, ?_⟩⟩
  · intro entry hentry
    exact mem_pairTurns_of_mem_tagTurns (mem_sessionGroups (List.getElem_mem hi) hentry)
  · have hi'' := hlength ▸ hi
    have hmessages := ((List.forall₂_iff_get.mp hbuilt).2 i hi'' hi').messages
    have hturns := congrArg (·[i]?) hgroups
    rw [List.getElem?_map, List.getElem?_map, List.getElem?_eq_getElem hi,
      List.getElem?_eq_getElem hi''] at hturns
    refine hmessages.trans ?_
    change (segmenter.libraryOf _)[i].turns.flatMap _ = _
    have hsame : (segmenter.sessionGroups
        (segmenter.tagTurns turnOffset (pairTurns messages)))[i].map Prod.fst =
          (segmenter.libraryOf (segmenter.tagTurns turnOffset (pairTurns messages)))[i].turns :=
      Option.some.inj hturns
    rw [← hsame, List.flatMap_map]
    rfl

/-- Whether the turns of the segments are told apart by session, if none is split. -/
theorem sessionsSplit_segment_iff :
    segmenter.SessionsSplit (segmenter.tagTurns turnOffset (pairTurns messages))
        (segmenter.segment supply closerToPrevious messages turnOffset) ↔
      ∀ group ∈ segmenter.sessionGroups (segmenter.tagTurns turnOffset (pairTurns messages)),
        OneSession group := by
  have hgroups := @sessionGroups_segment segmenter supply closerToPrevious messages turnOffset
  constructor
  · rintro ⟨parts, hflatten, hparts, hone⟩
    have hsame : segmenter.sessionGroups
        (segmenter.tagTurns turnOffset (pairTurns messages)) = parts := by
      refine @eq_of_flatMap_eq _ _ (fun entry => entry.1.pair.messages) _ _ ?_ hflatten.symm ?_
      · intro entry hentry
        obtain ⟨group, hgroup, hmem⟩ := List.mem_flatten.mp hentry
        have hpair := mem_pairTurns_of_mem_tagTurns (mem_sessionGroups hgroup hmem)
        exact (mem_pairMessages hpair).1
      · refine List.forall₂_iff_get.mpr ⟨hgroups.length_eq.trans hparts.length_eq.symm, ?_⟩
        intro i hi hi'
        have hseg := ((List.forall₂_iff_get.mp hgroups).2 i hi (hgroups.length_eq ▸ hi)).2
        exact hseg.symm.trans ((List.forall₂_iff_get.mp hparts).2 i hi' (hparts.length_eq ▸ hi'))
    rwa [hsame]
  · intro hone
    exact ⟨_, rfl, hgroups.imp fun _ _ h => h.2, hone⟩

/-- Splitting off tool results keeps the sessions apart. -/
theorem SessionsSplit.segmentAll
    (h : ∀ group ∈ segmenter.sessionGroups (segmenter.tagTurns turnOffset (pairTurns messages)),
      OneSession group) :
    segmenter.SessionsSplit (segmenter.tagTurns turnOffset (pairTurns messages))
      (segmenter.segmentAll supply closerToPrevious messages turnOffset) := by
  have hgroups := @sessionGroups_segment segmenter supply closerToPrevious messages turnOffset
  unfold TopicSegmenter.segmentAll
  dsimp only
  split_ifs
  · obtain ⟨parts, hflatten, hparts⟩ := @parts_splitLargeToolResults segmenter supply messages _
      (fun entry : TaggedTurn × String => entry.1.pair) _ _ hgroups
      (segmenter.segment supply closerToPrevious messages turnOffset).length
    have hoff : ∀ {part : List (TaggedTurn × String)} {seg' : TaggedSegment},
        (∃ entry ∈ (segmenter.sessionGroups
            (segmenter.tagTurns turnOffset (pairTurns messages))).zip
            (segmenter.segment supply closerToPrevious messages turnOffset),
          SplitOff segmenter (fun entry : TaggedTurn × String => entry.1.pair)
            entry.1 entry.2 part seg') →
        seg'.messages = part.flatMap (fun entry => entry.1.pair.messages) ∧ OneSession part := by
      rintro part seg' ⟨⟨group, seg⟩, hentry, hoff⟩
      have hone := h group (List.of_mem_zip hentry).1
      cases hoff with
      | kept => exact ⟨((List.forall₂_iff_zip.mp hgroups).2 hentry).2, hone⟩
      | split _ hpart hmessages => exact ⟨hmessages, hone.of_subset hpart.subset⟩
    refine ⟨parts, hflatten, hparts.imp fun _ _ hpart => (hoff hpart).1, fun part hpart => ?_⟩
    obtain ⟨i, hi, rfl⟩ := List.mem_iff_getElem.mp hpart
    exact (hoff ((List.forall₂_iff_get.mp hparts).2 i hi (hparts.length_eq ▸ hi))).2
  · exact sessionsSplit_segment_iff.mpr h

/-! ## Messages without large tool results -/

theorem hasLargeToolResult_eq_any (threshold : Nat) (messages : List RowMessage) :
    hasLargeToolResult threshold messages =
      messages.any fun msg => hasLargeToolResult threshold [msg] := by
  simp [hasLargeToolResult]

theorem isLarge_mergeTurns (turns : List TurnPair) :
    segmenter.isLarge (mergeTurns turns) = turns.any segmenter.isLarge := by
  simp only [isLarge, hasLargeToolResult, mergeTurns, List.any_flatMap]
  rfl

theorem hasLargeToolResult_part {threshold : Nat} {msg part : RowMessage}
    (hmsg : hasLargeToolResult threshold [msg] = false)
    (hpart : part ∈ splitSessionBoundaryMessage msg) :
    hasLargeToolResult threshold [part] = false := by
  unfold splitSessionBoundaryMessage at hpart
  split at hpart
  · split_ifs at hpart
    · rcases List.mem_pair.mp hpart with rfl | rfl <;> rfl
    · rwa [List.mem_singleton.mp hpart]
  · rwa [List.mem_singleton.mp hpart]

/-- Without large tool results no segment is split. -/
theorem segmentAll_eq_segment
    (h : ∀ msg ∈ messages,
      hasLargeToolResult segmenter.config.toolResultSegmentThreshold [msg] = false) :
    segmenter.segmentAll supply closerToPrevious messages turnOffset =
      segmenter.segment supply closerToPrevious messages turnOffset := by
  have hkept : ∀ k segments, (∀ seg ∈ segments, segmenter.needsSplit seg = false) →
      segmenter.splitLargeToolResults supply k segments = segments := by
    intro k segments hsegments
    induction segments with
    | nil => rfl
    | cons seg segments ih =>
        rw [splitLargeToolResults, if_neg (by simp [hsegments seg List.mem_cons_self]),
          ih fun other hother => hsegments other (List.mem_cons_of_mem _ hother)]
  have hsmall : ∀ pair ∈ pairTurns messages, segmenter.isLarge pair = false := by
    intro pair hpair
    rw [isLarge, hasLargeToolResult_eq_any, List.any_eq_false]
    intro part hpart
    have hsplit := ((mem_pairMessages hpair).2 part hpart).resolve_left (by simp)
    obtain ⟨msg, hmsg, hmem⟩ := List.mem_flatMap.mp hsplit
    simp [hasLargeToolResult_part (h msg hmsg) hmem]
  unfold TopicSegmenter.segmentAll
  dsimp only
  rw [hkept, ite_self]
  intro seg hseg
  obtain ⟨i, hi, rfl⟩ := List.mem_iff_getElem.mp hseg
  have hgroups := @sessionGroups_segment segmenter supply closerToPrevious messages turnOffset
  have hi' := hgroups.length_eq ▸ hi
  obtain ⟨hpairs, hmessages⟩ := (List.forall₂_iff_get.mp hgroups).2 i hi' hi
  have hwhole : ∀ pair ∈ ((segmenter.sessionGroups
      (segmenter.tagTurns turnOffset (pairTurns messages))).get ⟨i, hi'⟩).map (·.1.pair),
      pair ∈ pairTurns messages := List.forall_mem_map.mpr hpairs
  obtain ⟨parts, hparts, hflatten⟩ := pairTurns_turns hwhole
  rw [List.flatMap_map] at hparts
  have hnone : (pairTurns (segmenter.segment supply closerToPrevious messages turnOffset)[i].messages).any
      segmenter.isLarge = false := by
    have hseg : (segmenter.segment supply closerToPrevious messages turnOffset)[i].messages = _ :=
      hmessages
    rw [hseg, hparts, List.any_map, List.any_eq_false]
    intro part hpart
    rw [Function.comp_apply, isLarge_mergeTurns, List.any_eq_true]
    rintro ⟨pair, hpair, hlarge⟩
    have hmem := hwhole pair (hflatten ▸ List.mem_flatten.mpr ⟨part, hpart, hpair⟩)
    rw [hsmall pair hmem] at hlarge
    cases hlarge
  simp [needsSplit, hnone]

/--
The segments keep the sessions apart if no turn is taken by a segment of another
one, and only then if no tool result is large enough to be split off.
-/
theorem sessions_are_split_iff (segmenter : TopicSegmenter) (supply : SegmentSupply)
    (closerToPrevious : TaggedSegment → TaggedSegment → TaggedSegment → Bool)
    (messages : List RowMessage) (turnOffset : Int) :
    (segmenter.JoinsOwnSession (segmenter.tagTurns turnOffset (pairTurns messages)) →
      segmenter.SessionsSplit (segmenter.tagTurns turnOffset (pairTurns messages))
        (segmenter.segmentAll supply closerToPrevious messages turnOffset)) ∧
    ((∀ msg ∈ messages,
        hasLargeToolResult segmenter.config.toolResultSegmentThreshold [msg] = false) →
      (segmenter.SessionsSplit (segmenter.tagTurns turnOffset (pairTurns messages))
          (segmenter.segmentAll supply closerToPrevious messages turnOffset) ↔
        segmenter.JoinsOwnSession (segmenter.tagTurns turnOffset (pairTurns messages)))) := by
  refine ⟨fun h => SessionsSplit.segmentAll ((segmenter.oneSession_iff _).mpr h), fun hsmall => ?_⟩
  rw [segmentAll_eq_segment hsmall, sessionsSplit_segment_iff, oneSession_iff]

/-- A segmenter that merges all it may. -/
def general : TopicSegmenter where
  tokenCounter := String.length
  tagsOfTurn := fun _ _ => ⟨["_general"], "_general"⟩
  exceedsSessionGap := fun _ _ => false
  computeRelatedness := fun _ _ _ _ => 0

/-- Two headers, and a turn without one. -/
def threeTurns : List RowMessage :=
  [{ role := "user", content := "[Session from May 1] a" },
    { role := "user", content := "[Session from May 2] b" }, { role := "user", content := "c" }]

/-- A turn without a header joins a segment of an earlier session. -/
theorem sessions_are_mixed :
    ¬ general.SessionsSplit (general.tagTurns 0 (pairTurns threeTurns))
      (general.segmentAll ⟨fun _ => "", fun _ => ""⟩ (fun _ _ _ => true) threeTurns 0) := by
  have hsmall : ∀ msg ∈ threeTurns,
      hasLargeToolResult general.config.toolResultSegmentThreshold [msg] = false := by decide
  rw [segmentAll_eq_segment hsmall, sessionsSplit_segment_iff]
  have hmixed : ∃ group ∈ general.sessionGroups (general.tagTurns 0 (pairTurns threeTurns)),
      ∃ a ∈ group, ∃ b ∈ group, a.2 ≠ b.2 := by decide +kernel
  obtain ⟨group, hgroup, a, ha, b, hb, hne⟩ := hmixed
  exact fun h => hne (h group hgroup a ha b hb)

end TopicSegmenter

end VirtualContext
