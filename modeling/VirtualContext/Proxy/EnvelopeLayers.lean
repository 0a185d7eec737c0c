import VirtualContext.Proxy.Envelope

/-!
# What an envelope encloses

Every layer takes something away, so that a text stays as it is if it has none.
Stripping twice is stripping once if the enclosed text has no layer of its own.
-/

namespace VirtualContext

open VirtualContext.Library

/-! ## The first occurrence of a separator -/

theorem splitOnce_eq_some_iff {separator text before after : Text} (hne : separator ≠ []) :
    splitOnce separator text = some (before, after) ↔
      text = before ++ separator ++ after ∧ ¬ separator <:+: before ++ separator.dropLast := by
  have hfront : ∀ {front : Text}, separator <+: front ++ separator ++ after → front ≠ [] →
      separator <+: front ++ separator.dropLast := by
    intro front hstarts hfront
    have hlonger : front ++ separator.dropLast <+: front ++ separator ++ after := by
      rw [List.append_assoc]
      exact (List.prefix_append_right_inj front).mpr
        ((List.dropLast_prefix separator).trans (List.prefix_append _ _))
    refine List.prefix_of_prefix_length_le hstarts hlonger ?_
    have hpos := List.length_pos_of_ne_nil hfront
    rw [List.length_append, List.length_dropLast]
    omega
  induction text generalizing before with
  | nil =>
      refine iff_of_false nofun ?_
      rintro ⟨hnil, -⟩
      simp [hne] at hnil
  | cons c text ih =>
      rw [splitOnce]
      split_ifs with hhere
      · obtain ⟨rest, hrest⟩ := List.isPrefixOf_iff_prefix.mp hhere
        rw [← hrest, List.drop_left, Option.some.injEq, Prod.mk.injEq]
        constructor
        · rintro ⟨rfl, rfl⟩
          refine ⟨rfl, fun hinside => ?_⟩
          have hle := hinside.length_le
          have hpos := List.length_pos_of_ne_nil hne
          rw [List.nil_append, List.length_dropLast] at hle
          omega
        · rintro ⟨htext, hfirst⟩
          cases before with
          | nil => exact ⟨rfl, List.append_cancel_left htext⟩
          | cons d before =>
              have hstarts := hfront (htext ▸ List.prefix_append separator rest)
                (List.cons_ne_nil d before)
              exact absurd hstarts.isInfix hfirst
      · rw [Option.map_eq_some_iff]
        constructor
        · rintro ⟨⟨before', after'⟩, hparts, heq⟩
          obtain ⟨rfl, rfl⟩ := Prod.mk.inj heq
          obtain ⟨htext, hfirst⟩ := ih.mp hparts
          refine ⟨congrArg (c :: ·) htext, fun hinside => ?_⟩
          rcases List.infix_cons_iff.mp hinside with hstarts | hinside
          · refine hhere (List.isPrefixOf_iff_prefix.mpr (hstarts.trans ?_))
            rw [htext, List.append_assoc]
            exact (List.prefix_append_right_inj (c :: before')).mpr
              ((List.dropLast_prefix separator).trans (List.prefix_append _ _))
          · exact hfirst hinside
        · rintro ⟨htext, hfirst⟩
          cases before with
          | nil =>
              refine absurd (List.isPrefixOf_iff_prefix.mpr ?_) hhere
              rw [htext, List.nil_append]
              exact List.prefix_append _ _
          | cons d before =>
              obtain ⟨rfl, hrest⟩ := List.cons.inj htext
              refine ⟨(before, after), ih.mpr ⟨hrest, fun hinside => hfirst ?_⟩, rfl⟩
              exact hinside.trans (List.suffix_cons c _).isInfix

theorem splitOnce_eq_none_iff {separator text : Text} (hne : separator ≠ []) :
    splitOnce separator text = none ↔ ¬ separator <:+: text := by
  induction text with
  | nil => exact iff_of_true rfl fun h => hne (List.infix_nil.mp h)
  | cons c text ih =>
      rw [splitOnce, List.infix_cons_iff]
      split_ifs with hhere
      · exact iff_of_false nofun fun h => h (.inl (List.isPrefixOf_iff_prefix.mp hhere))
      · rw [Option.map_eq_none_iff, ih, not_or]
        exact (and_iff_right fun h => hhere (List.isPrefixOf_iff_prefix.mpr h)).symm

/-! ## Bare texts -/

/-- The text carries none of the layers. -/
structure Bare (classes : CharClasses) (text : Text) : Prop where
  marker : ¬ vcPromptMarker <+: text
  preamble : ¬ (rolePreamble <+: text ∧ memosQueryDelim <:+: text)
  wrapper : ∀ inner after, text ≠ userOpening ++ inner ++ userClosing ++ after
  block : metadataBlockRe.stripped? text = none
  event : systemEventRe.stripped? text = none
  header : (channelHeaderRe classes).stripped? text = none
  footer : ¬ (messageIdRe classes).FoundIn text
  blanks : pyStripChars text = text

/-! ## Layers of a text -/

theorem length_lstrip_le (text : Text) : (lstrip text).length ≤ text.length :=
  (List.dropWhile_sublist _).length_le

theorem shrinks_lstrip : Shrinks lstrip := by
  intro text
  rcases Nat.lt_or_eq_of_le (length_lstrip_le text) with hlt | heq
  · exact .inr hlt
  · exact .inl ((List.dropWhile_sublist _).eq_of_length heq)

theorem shrinks_pyStripChars : Shrinks pyStripChars := by
  intro text
  have hinside : pyStripChars text <:+: text := trim_infix
  rcases Nat.lt_or_eq_of_le hinside.length_le with hlt | heq
  · exact .inr hlt
  · exact .inl (hinside.eq_of_length heq)

theorem vcPromptMarker_ne_nil : vcPromptMarker ≠ [] := by decide +kernel

theorem memosQueryDelim_ne_nil : memosQueryDelim ≠ [] := by decide +kernel

theorem userClosing_ne_nil : userClosing ≠ [] := by decide +kernel

theorem systemEventRe_consumes : systemEventRe.consumes = true := by decide +kernel

theorem metadataBlockRe_consumes : metadataBlockRe.consumes = true := by decide +kernel

theorem channelHeaderRe_consumes (classes : CharClasses) :
    (channelHeaderRe classes).consumes = true := rfl

theorem messageIdRe_consumes (classes : CharClasses) :
    (messageIdRe classes).consumes = true := rfl

/-- A text that is shorter without a layer shrinks by stripping it. -/
theorem length_lstrip_lt {front rest : Text} (h : front ≠ []) :
    (lstrip rest).length < (front ++ rest).length := by
  have hle := length_lstrip_le rest
  have hpos := List.length_pos_of_ne_nil h
  rw [List.length_append]
  omega

/-! ## Each layer takes something away -/

theorem stripMarker_cases (text : Text) :
    stripMarker text = text ∧ ¬ vcPromptMarker <+: text ∨
      (stripMarker text).length < text.length ∧ vcPromptMarker <+: text := by
  unfold stripMarker
  split_ifs with hmarker
  · obtain ⟨rest, rfl⟩ := List.isPrefixOf_iff_prefix.mp hmarker
    rw [List.drop_left]
    exact .inr ⟨length_lstrip_lt vcPromptMarker_ne_nil, List.prefix_append _ _⟩
  · exact .inl ⟨rfl, fun h => hmarker (List.isPrefixOf_iff_prefix.mpr h)⟩

theorem stripPreamble_cases (text : Text) :
    stripPreamble text = text ∧ ¬ (rolePreamble <+: text ∧ memosQueryDelim <:+: text) ∨
      (stripPreamble text).length < text.length ∧
        rolePreamble <+: text ∧ memosQueryDelim <:+: text := by
  unfold stripPreamble
  split_ifs with hrole
  · have hstarts := List.isPrefixOf_iff_prefix.mp hrole
    cases hsplit : splitOnce memosQueryDelim text with
    | none =>
        exact .inl ⟨rfl, fun h => (splitOnce_eq_none_iff memosQueryDelim_ne_nil).mp hsplit h.2⟩
    | some parts =>
        obtain ⟨before, after⟩ := parts
        obtain ⟨rfl, -⟩ := (splitOnce_eq_some_iff memosQueryDelim_ne_nil).mp hsplit
        have hne : before ++ memosQueryDelim ≠ [] := by simp [memosQueryDelim_ne_nil]
        exact .inr ⟨length_lstrip_lt hne, hstarts, ⟨before, after, rfl⟩⟩
  · exact .inl ⟨rfl, fun h => hrole (List.isPrefixOf_iff_prefix.mpr h.1)⟩

theorem userContent?_eq_some_iff {text inner : Text} :
    userContent? text = some inner ↔
      ∃ after, text = userOpening ++ inner ++ userClosing ++ after ∧
        ¬ userClosing <:+: inner ++ userClosing.dropLast := by
  unfold userContent?
  split_ifs with hopening
  · obtain ⟨rest, rfl⟩ := List.isPrefixOf_iff_prefix.mp hopening
    rw [List.drop_left, Option.map_eq_some_iff]
    constructor
    · rintro ⟨⟨inner, after⟩, hsplit, rfl⟩
      obtain ⟨rfl, hfirst⟩ := (splitOnce_eq_some_iff userClosing_ne_nil).mp hsplit
      exact ⟨after, by simp, hfirst⟩
    · rintro ⟨after, htext, hfirst⟩
      refine ⟨(inner, after), (splitOnce_eq_some_iff userClosing_ne_nil).mpr ⟨?_, hfirst⟩, rfl⟩
      rw [List.append_assoc, List.append_assoc] at htext
      rw [List.append_assoc]
      exact List.append_cancel_left htext
  · refine iff_of_false nofun ?_
    rintro ⟨after, rfl, -⟩
    refine hopening (List.isPrefixOf_iff_prefix.mpr ?_)
    rw [List.append_assoc, List.append_assoc]
    exact List.prefix_append _ _

theorem userContent?_eq_none_iff {text : Text} :
    userContent? text = none ↔
      ∀ inner after, text ≠ userOpening ++ inner ++ userClosing ++ after := by
  unfold userContent?
  constructor
  · rintro h inner after rfl
    have hstarts : userOpening <+: userOpening ++ inner ++ userClosing ++ after := by
      rw [List.append_assoc, List.append_assoc]
      exact List.prefix_append _ _
    rw [if_pos (List.isPrefixOf_iff_prefix.mpr hstarts), Option.map_eq_none_iff,
      splitOnce_eq_none_iff userClosing_ne_nil, List.append_assoc, List.append_assoc,
      List.drop_left, ← List.append_assoc] at h
    exact h ⟨inner, after, rfl⟩
  · intro h
    split_ifs with hopening
    · obtain ⟨rest, rfl⟩ := List.isPrefixOf_iff_prefix.mp hopening
      rw [List.drop_left, Option.map_eq_none_iff, splitOnce_eq_none_iff userClosing_ne_nil]
      rintro ⟨inner, after, rfl⟩
      exact h inner after (by simp)
    · rfl

theorem shrinks_stripMetadataBlocksFrom (fuel : Nat) :
    Shrinks (stripMetadataBlocksFrom fuel) := by
  intro text
  induction fuel generalizing text with
  | zero => exact shrinks_lstrip text
  | succ fuel ih =>
      rw [stripMetadataBlocksFrom]
      split
      next rest hmatch =>
        have hlt := Regex.length_stripped metadataBlockRe_consumes hmatch
        have hle := Shrinks.length_le ih rest
        have hlstrip := length_lstrip_le text
        exact .inr (by omega)
      next => exact shrinks_lstrip text

theorem shrinks_stripMetadataBlocks : Shrinks stripMetadataBlocks :=
  fun text => shrinks_stripMetadataBlocksFrom text.length text

theorem stripMetadataBlocks_eq_self_iff {text : Text} :
    stripMetadataBlocks text = text ↔
      lstrip text = text ∧ metadataBlockRe.stripped? text = none := by
  unfold stripMetadataBlocks
  cases text with
  | nil => exact iff_of_true rfl ⟨rfl, Regex.stripped?_nil metadataBlockRe_consumes⟩
  | cons c text =>
      rw [List.length_cons, stripMetadataBlocksFrom]
      constructor
      · intro h
        split at h
        next rest hmatch =>
          have hlt := Regex.length_stripped metadataBlockRe_consumes hmatch
          have hle := (shrinks_stripMetadataBlocksFrom text.length).length_le rest
          have hlstrip := length_lstrip_le (c :: text)
          rw [h] at hle
          omega
        next hnone => exact ⟨h, by rwa [h] at hnone⟩
      · rintro ⟨hlstrip, hnone⟩
        rw [hlstrip, hnone]

variable (classes : CharClasses)

/-- The event lines and the header, behind the blocks. -/
def stripFront (text : Text) : Text :=
  (channelHeaderRe classes).strip (systemEventRe.strip (stripMetadataBlocks text))

theorem stripLayers_eq (text : Text) :
    stripLayers classes text =
      pyStripChars ((messageIdRe classes).remove (stripFront classes text)) :=
  rfl

theorem shrinks_events : Shrinks fun text => systemEventRe.strip (stripMetadataBlocks text) :=
  shrinks_stripMetadataBlocks.comp (Regex.shrinks_strip systemEventRe_consumes)

theorem shrinks_stripFront : Shrinks (stripFront classes) :=
  shrinks_events.comp (Regex.shrinks_strip (channelHeaderRe_consumes classes))

theorem shrinks_footer :
    Shrinks fun text => (messageIdRe classes).remove (stripFront classes text) :=
  (shrinks_stripFront classes).comp (Regex.shrinks_remove (messageIdRe_consumes classes))

theorem shrinks_stripLayers : Shrinks (stripLayers classes) := by
  intro text
  rw [stripLayers_eq]
  exact (shrinks_footer classes).comp shrinks_pyStripChars text

theorem stripLayers_eq_self_iff {text : Text} :
    stripLayers classes text = text ↔
      metadataBlockRe.stripped? text = none ∧ systemEventRe.stripped? text = none ∧
        (channelHeaderRe classes).stripped? text = none ∧
        ¬ (messageIdRe classes).FoundIn text ∧ pyStripChars text = text := by
  have hlstrip : pyStripChars text = text → lstrip text = text := fun h =>
    dropWhile_of_head (trim_eq_self_iff.mp h).1
  rw [stripLayers_eq, (shrinks_footer classes).comp_eq_self_iff shrinks_pyStripChars,
    (shrinks_stripFront classes).comp_eq_self_iff
      (Regex.shrinks_remove (messageIdRe_consumes classes)),
    stripFront, shrinks_events.comp_eq_self_iff
      (Regex.shrinks_strip (channelHeaderRe_consumes classes)),
    shrinks_stripMetadataBlocks.comp_eq_self_iff (Regex.shrinks_strip systemEventRe_consumes),
    stripMetadataBlocks_eq_self_iff, Regex.strip_eq_self_iff systemEventRe_consumes,
    Regex.strip_eq_self_iff (channelHeaderRe_consumes classes),
    Regex.remove_eq_self_iff (messageIdRe_consumes classes)]
  constructor
  · rintro ⟨⟨⟨⟨⟨-, hblock⟩, hevent⟩, hheader⟩, hfooter⟩, hblanks⟩
    exact ⟨hblock, hevent, hheader, hfooter, hblanks⟩
  · rintro ⟨hblock, hevent, hheader, hfooter, hblanks⟩
    exact ⟨⟨⟨⟨⟨hlstrip hblanks, hblock⟩, hevent⟩, hheader⟩, hfooter⟩, hblanks⟩

/-- What is behind the marker and the preamble. -/
def stripRest (text : Text) : Text :=
  match userContent? text with
  | some inner => pyStripChars inner
  | none => stripLayers classes text

theorem length_userContent {text inner : Text} (h : userContent? text = some inner) :
    (pyStripChars inner).length < text.length := by
  obtain ⟨after, rfl, -⟩ := userContent?_eq_some_iff.mp h
  have hle := shrinks_pyStripChars.length_le inner
  have hpos := List.length_pos_of_ne_nil userClosing_ne_nil
  simp only [List.length_append]
  omega

theorem shrinks_stripRest : Shrinks (stripRest classes) := by
  intro text
  unfold stripRest
  split
  next inner h => exact .inr (length_userContent h)
  next => exact shrinks_stripLayers classes text

theorem stripRest_eq_self_iff {text : Text} :
    stripRest classes text = text ↔
      userContent? text = none ∧ stripLayers classes text = text := by
  unfold stripRest
  split
  next inner h =>
    refine iff_of_false (fun heq => ?_) fun hnone => by simp [h] at hnone
    have hlt := length_userContent h
    rw [heq] at hlt
    exact Nat.lt_irrefl _ hlt
  next h => simp [h]

theorem shrinks_stripMarker : Shrinks stripMarker := fun text =>
  (stripMarker_cases text).imp And.left And.left

theorem shrinks_stripPreamble : Shrinks stripPreamble := fun text =>
  (stripPreamble_cases text).imp And.left And.left

/-- The empty text is no special case. -/
theorem stripEnvelope_eq (text : Text) :
    stripEnvelope classes text = stripRest classes (stripPreamble (stripMarker text)) := by
  unfold stripEnvelope
  split_ifs with hnil
  · subst hnil
    have hshrinks := ((shrinks_stripMarker.comp shrinks_stripPreamble).comp
      (shrinks_stripRest classes)).length_le []
    exact (List.eq_nil_of_length_eq_zero (Nat.le_zero.mp hshrinks)).symm
  · rfl

/-- A text stays as it is exactly if it has no layer. -/
theorem stripEnvelope_eq_self_iff {text : Text} :
    stripEnvelope classes text = text ↔ Bare classes text := by
  have hmarker : stripMarker text = text ↔ ¬ vcPromptMarker <+: text := by
    rcases stripMarker_cases text with ⟨heq, hnot⟩ | ⟨hlt, hthere⟩
    · exact iff_of_true heq hnot
    · exact iff_of_false (fun heq => by rw [heq] at hlt; exact Nat.lt_irrefl _ hlt)
        (not_not.mpr hthere)
  have hpreamble : stripPreamble text = text ↔
      ¬ (rolePreamble <+: text ∧ memosQueryDelim <:+: text) := by
    rcases stripPreamble_cases text with ⟨heq, hnot⟩ | ⟨hlt, hthere⟩
    · exact iff_of_true heq hnot
    · exact iff_of_false (fun heq => by rw [heq] at hlt; exact Nat.lt_irrefl _ hlt)
        (not_not.mpr hthere)
  rw [stripEnvelope_eq, (shrinks_stripMarker.comp shrinks_stripPreamble).comp_eq_self_iff
    (shrinks_stripRest classes), shrinks_stripMarker.comp_eq_self_iff shrinks_stripPreamble,
    hmarker, hpreamble, stripRest_eq_self_iff, userContent?_eq_none_iff, stripLayers_eq_self_iff]
  constructor
  · rintro ⟨⟨hmarker, hpreamble⟩, hwrapper, hblock, hevent, hheader, hfooter, hblanks⟩
    exact ⟨hmarker, hpreamble, hwrapper, hblock, hevent, hheader, hfooter, hblanks⟩
  · rintro ⟨hmarker, hpreamble, hwrapper, hblock, hevent, hheader, hfooter, hblanks⟩
    exact ⟨⟨hmarker, hpreamble⟩, hwrapper, hblock, hevent, hheader, hfooter, hblanks⟩

/-! ## What an envelope encloses -/

/-- The text behind the marker. -/
inductive BehindMarker : Text → Text → Prop where
  | marked (rest : Text) : BehindMarker (vcPromptMarker ++ rest) (lstrip rest)
  | unmarked {text : Text} : ¬ vcPromptMarker <+: text → BehindMarker text text

/-- The text behind the preamble, up to the first delimiter. -/
inductive BehindPreamble : Text → Text → Prop where
  | preamble {before after : Text} :
      rolePreamble <+: before ++ memosQueryDelim ++ after →
        ¬ memosQueryDelim <:+: before ++ memosQueryDelim.dropLast →
        BehindPreamble (before ++ memosQueryDelim ++ after) (lstrip after)
  | plain {text : Text} :
      ¬ (rolePreamble <+: text ∧ memosQueryDelim <:+: text) → BehindPreamble text text

/-- The text behind the metadata blocks. -/
inductive BehindBlocks : Text → Text → Prop where
  | block {text rest body : Text} :
      metadataBlockRe.stripped? (lstrip text) = some rest → BehindBlocks rest body →
        BehindBlocks text body
  | plain {text : Text} :
      metadataBlockRe.stripped? (lstrip text) = none → BehindBlocks text (lstrip text)

/-- The text inside the envelope: the first wrapper's content, or what is between the
layers in front and the footer. -/
inductive Encloses : Text → Text → Prop where
  | wrapped {text marked inner after : Text} :
      BehindMarker text marked →
        BehindPreamble marked (userOpening ++ inner ++ userClosing ++ after) →
        ¬ userClosing <:+: inner ++ userClosing.dropLast →
        Encloses text (pyStripChars inner)
  | layered {text marked rest body : Text} :
      BehindMarker text marked → BehindPreamble marked rest →
        (∀ inner after, rest ≠ userOpening ++ inner ++ userClosing ++ after) →
        BehindBlocks rest body →
        Encloses text (pyStripChars ((messageIdRe classes).remove
          ((channelHeaderRe classes).strip (systemEventRe.strip body))))

theorem behindMarker_iff {text rest : Text} :
    BehindMarker text rest ↔ stripMarker text = rest := by
  constructor
  · rintro (⟨rest⟩ | hnot)
    · rw [stripMarker, if_pos (List.isPrefixOf_iff_prefix.mpr (List.prefix_append _ _)),
        List.drop_left]
    · rw [stripMarker, if_neg fun h => hnot (List.isPrefixOf_iff_prefix.mp h)]
  · rintro rfl
    unfold stripMarker
    split_ifs with hmarker
    · obtain ⟨rest, rfl⟩ := List.isPrefixOf_iff_prefix.mp hmarker
      rw [List.drop_left]
      exact .marked rest
    · exact .unmarked fun h => hmarker (List.isPrefixOf_iff_prefix.mpr h)

theorem behindPreamble_iff {text rest : Text} :
    BehindPreamble text rest ↔ stripPreamble text = rest := by
  constructor
  · rintro (⟨hrole, hfirst⟩ | hnot)
    · rw [stripPreamble, if_pos (List.isPrefixOf_iff_prefix.mpr hrole),
        (splitOnce_eq_some_iff memosQueryDelim_ne_nil).mpr ⟨rfl, hfirst⟩]
    · rcases stripPreamble_cases text with ⟨heq, -⟩ | ⟨-, hthere⟩
      · exact heq
      · exact absurd hthere hnot
  · rintro rfl
    unfold stripPreamble
    split_ifs with hrole
    · have hstarts := List.isPrefixOf_iff_prefix.mp hrole
      cases hsplit : splitOnce memosQueryDelim text with
      | none =>
          exact .plain fun h => (splitOnce_eq_none_iff memosQueryDelim_ne_nil).mp hsplit h.2
      | some parts =>
          obtain ⟨before, after⟩ := parts
          obtain ⟨rfl, hfirst⟩ := (splitOnce_eq_some_iff memosQueryDelim_ne_nil).mp hsplit
          exact .preamble hstarts hfirst
    · exact .plain fun h => hrole (List.isPrefixOf_iff_prefix.mpr h.1)

/-- As every block takes characters, the fuel of the loop does not run out. -/
theorem behindBlocks_iff_from {fuel : Nat} {text body : Text} (hfuel : text.length ≤ fuel) :
    BehindBlocks text body ↔ stripMetadataBlocksFrom fuel text = body := by
  induction fuel generalizing text with
  | zero =>
      obtain rfl : text = [] := List.eq_nil_of_length_eq_zero (Nat.le_zero.mp hfuel)
      have hnone : metadataBlockRe.stripped? (lstrip []) = none :=
        Regex.stripped?_nil metadataBlockRe_consumes
      constructor
      · rintro (⟨hsome, -⟩ | -)
        · rw [hnone] at hsome
          cases hsome
        · rfl
      · rintro rfl
        exact .plain hnone
  | succ fuel ih =>
      rw [stripMetadataBlocksFrom]
      split
      next rest hmatch =>
        have hlt := Regex.length_stripped metadataBlockRe_consumes hmatch
        have hle := length_lstrip_le text
        rw [← ih (by omega)]
        constructor
        · rintro (⟨hsome, hrest⟩ | hnone)
          · rw [hmatch] at hsome
            cases hsome
            exact hrest
          · rw [hmatch] at hnone
            cases hnone
        · exact .block hmatch
      next hnone =>
        constructor
        · rintro (⟨hsome, -⟩ | -)
          · rw [hnone] at hsome
            cases hsome
          · rfl
        · rintro rfl
          exact .plain hnone

theorem behindBlocks_iff {text body : Text} :
    BehindBlocks text body ↔ stripMetadataBlocks text = body :=
  behindBlocks_iff_from (Nat.le_refl _)

theorem encloses_iff {text core : Text} :
    Encloses classes text core ↔ stripEnvelope classes text = core := by
  rw [stripEnvelope_eq, stripRest]
  constructor
  · rintro (⟨hmarker, hpreamble, hfirst⟩ | ⟨hmarker, hpreamble, hplain, hblocks⟩)
    · rw [behindMarker_iff.mp hmarker, behindPreamble_iff.mp hpreamble,
        userContent?_eq_some_iff.mpr ⟨_, rfl, hfirst⟩]
    · rw [behindMarker_iff.mp hmarker, behindPreamble_iff.mp hpreamble,
        userContent?_eq_none_iff.mpr hplain]
      dsimp only
      rw [stripLayers_eq, stripFront, behindBlocks_iff.mp hblocks]
  · rintro rfl
    have hmarker : BehindMarker text (stripMarker text) := behindMarker_iff.mpr rfl
    split
    next inner hwrapper =>
      obtain ⟨after, heq, hfirst⟩ := userContent?_eq_some_iff.mp hwrapper
      exact .wrapped hmarker (behindPreamble_iff.mpr heq) hfirst
    next hplain =>
      exact .layered hmarker (behindPreamble_iff.mpr rfl) (userContent?_eq_none_iff.mp hplain)
        (behindBlocks_iff.mpr rfl)

/-- Stripping twice is stripping once exactly if the enclosed text has no layer. -/
theorem strip_twice_iff (text : Text) :
    stripEnvelope classes (stripEnvelope classes text) = stripEnvelope classes text ↔
      ∃ core, Encloses classes text core ∧ Bare classes core := by
  rw [stripEnvelope_eq_self_iff]
  constructor
  · exact fun hbare => ⟨_, (encloses_iff classes).mpr rfl, hbare⟩
  · rintro ⟨core, hcore, hbare⟩
    rwa [(encloses_iff classes).mp hcore]

/-- A wrapper around an event line: the second strip takes the line. -/
theorem wrapped_event_is_stripped_later :
    ¬ ∀ (classes : CharClasses) (text : Text),
      stripEnvelope classes (stripEnvelope classes text) = stripEnvelope classes text := by
  intro h
  have hwrapped : stripEnvelope asciiClasses "[vc:user]System: [t] x\nhello[/vc:user]".toList =
      "System: [t] x\nhello".toList := by
    decide +kernel
  have hevent : stripEnvelope asciiClasses "System: [t] x\nhello".toList = "hello".toList := by
    decide +kernel
  have htwice := h asciiClasses "[vc:user]System: [t] x\nhello[/vc:user]".toList
  rw [hwrapped, hevent] at htwice
  revert htwice
  decide +kernel

end VirtualContext
