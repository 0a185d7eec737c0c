import VirtualContext.Core.CanonicalTurns
import VirtualContext.Library.Entries
import VirtualContext.Library.Reach
import VirtualContext.Library.Trimming

/-!
# Canonical tags

A tag is normalized, looked up among the aliases and folded into its singular or
plural if that one is known.  Aliases are registered at any time.
-/

namespace VirtualContext

open VirtualContext.Library

/-- The characters of a tag. -/
abbrev TagText := List Char

structure TagCanonicalizer where
  aliasCache : Entries TagText TagText := []
  knownTags : List TagText := []

section

variable (lower : TagText → TagText)

/-- `tag.lower().strip().replace(" ", "-").replace("_", "-")` -/
def hyphenate (tag : TagText) : TagText :=
  (pyStripChars (lower tag)).map fun c => if c == ' ' || c == '_' then '-' else c

/-- The form in which `canonicalize` looks a tag up. -/
def canonicalSpelling (tag : TagText) : TagText :=
  trim (· == '-') (collapse '-' (hyphenate lower tag))

/-- The known singular or plural of a tag. -/
def foldPlural (knownTags : List TagText) (tag : TagText) : Option TagText :=
  if tag.getLast? = some 's' ∧ 2 < tag.length then
    if tag.dropLast ∈ knownTags then some tag.dropLast else none
  else if tag ++ ['s'] ∈ knownTags then some (tag ++ ['s'])
  else none

namespace TagCanonicalizer

/-- `canonicalize`, with the tags that are known afterwards -/
def canonicalize (state : TagCanonicalizer) (tag : TagText) : TagText × TagCanonicalizer :=
  let tag := canonicalSpelling lower tag
  match state.aliasCache.get tag with
  | some canonical => (canonical, state)
  | none =>
      match foldPlural state.knownTags tag with
      | some folded => (folded, state)
      | none => (tag, { state with knownTags := tag :: state.knownTags })

/-- `register_alias` -/
def registerAlias (state : TagCanonicalizer) (aliasTag canonical : TagText) : TagCanonicalizer :=
  { state with aliasCache := state.aliasCache.set (hyphenate lower aliasTag) canonical }

end TagCanonicalizer

/-- The calls that change what tags stand for. -/
inductive CanonicalizerCall where
  | registerAlias (aliasTag canonical : TagText)
  | canonicalize (tag : TagText)

def canonicalizerStep (state : TagCanonicalizer) :
    CanonicalizerCall → Option TagCanonicalizer
  | .registerAlias aliasTag canonical => some (state.registerAlias lower aliasTag canonical)
  | .canonicalize tag => some (state.canonicalize lower tag).2

/-! ## Tags that lead to others -/

namespace TagCanonicalizer

variable (state : TagCanonicalizer)

/-- A spelling is an alias of a tag, or folded into it. -/
def Leads (spelling canonical : TagText) : Prop :=
  state.aliasCache.get spelling = some canonical ∨
    state.aliasCache.get spelling = none ∧ foldPlural state.knownTags spelling = some canonical

/-- A tag is an alias for itself, or it is spelled canonically and leads to no other. -/
def Fixed (canonical : TagText) : Prop :=
  let spelling := canonicalSpelling lower canonical
  state.aliasCache.get spelling = some canonical ∨
    state.aliasCache.get spelling = none ∧ spelling = canonical ∧
      foldPlural state.knownTags canonical = none

/-- What an alias may be registered for. -/
structure AliasFits (aliasTag canonical : TagText) : Prop where
  reached : hyphenate lower aliasTag = canonicalSpelling lower aliasTag ∨
    canonicalSpelling lower canonical = canonicalSpelling lower aliasTag ∨
      state.Leads (canonicalSpelling lower aliasTag) canonical
  fixed : hyphenate lower aliasTag = canonicalSpelling lower aliasTag →
    { state with aliasCache := state.aliasCache.set (hyphenate lower aliasTag) canonical }.Fixed
      lower canonical
  others_fixed : hyphenate lower aliasTag = canonicalSpelling lower aliasTag →
    ∀ tag other, canonicalSpelling lower tag ≠ canonicalSpelling lower aliasTag →
      state.Leads (canonicalSpelling lower tag) other →
        canonicalSpelling lower other = canonicalSpelling lower aliasTag → other = canonical

/-- A tag keeps its spelling when it is canonicalized again. -/
def Stable (spelling : TagText) : Prop :=
  state.aliasCache.get (canonicalSpelling lower spelling) = some spelling ∨
    canonicalSpelling lower spelling = spelling

/-- Which tag may become known. -/
structure TagFits (spelling : TagText) : Prop where
  stable : state.Stable lower spelling
  others_fixed : ∀ tag other, state.Leads (canonicalSpelling lower tag) other →
    state.aliasCache.get (canonicalSpelling lower other) = none →
      foldPlural [spelling] other = none

def CallFits : CanonicalizerCall → Prop
  | .registerAlias aliasTag canonical => state.AliasFits lower aliasTag canonical
  | .canonicalize tag =>
      let spelling := canonicalSpelling lower tag
      state.aliasCache.get spelling = none → foldPlural state.knownTags spelling = none →
        state.TagFits lower spelling

end TagCanonicalizer

/-! ## What each call keeps -/

namespace TagCanonicalizer

/-- Whatever tags lead to leads to itself. -/
def Settled (state : TagCanonicalizer) : Prop :=
  ∀ tag canonical, state.Leads (canonicalSpelling lower tag) canonical →
    state.Fixed lower canonical

variable {lower} {state : TagCanonicalizer}

theorem canonicalize_of_leads {tag canonical : TagText}
    (h : state.Leads (canonicalSpelling lower tag) canonical) :
    state.canonicalize lower tag = (canonical, state) := by
  rw [canonicalize]
  rcases h with hget | ⟨hget, hfold⟩
  · simp only [hget]
  · simp only [hget, hfold]

theorem canonicalize_of_new {tag : TagText}
    (hget : state.aliasCache.get (canonicalSpelling lower tag) = none)
    (hfold : foldPlural state.knownTags (canonicalSpelling lower tag) = none) :
    state.canonicalize lower tag = (canonicalSpelling lower tag,
      { state with knownTags := canonicalSpelling lower tag :: state.knownTags }) := by
  rw [canonicalize]
  simp only [hget, hfold]

theorem leads_or_new (state : TagCanonicalizer) (spelling : TagText) :
    (∃ canonical, state.Leads spelling canonical) ∨
      state.aliasCache.get spelling = none ∧ foldPlural state.knownTags spelling = none := by
  cases hget : state.aliasCache.get spelling with
  | some canonical => exact .inl ⟨canonical, .inl hget⟩
  | none =>
      cases hfold : foldPlural state.knownTags spelling with
      | some canonical => exact .inl ⟨canonical, .inr ⟨hget, hfold⟩⟩
      | none => exact .inr ⟨rfl, rfl⟩

theorem Fixed.canonicalize_eq {canonical : TagText} (h : state.Fixed lower canonical) :
    (state.canonicalize lower canonical).1 = canonical := by
  rcases h with hget | ⟨hget, hspelling, hfold⟩
  · rw [canonicalize_of_leads (.inl hget)]
  · rw [canonicalize_of_new hget (hspelling.symm ▸ hfold), hspelling]

end TagCanonicalizer

theorem foldPlural_cons {spelling tag : TagText} {knownTags : List TagText} :
    foldPlural (spelling :: knownTags) tag =
      (foldPlural knownTags tag).or (foldPlural [spelling] tag) := by
  unfold foldPlural
  split
  · by_cases hknown : tag.dropLast ∈ knownTags
    · simp [hknown]
    · by_cases hspelling : tag.dropLast = spelling
      · subst hspelling
        simp [hknown]
      · simp [hknown, hspelling]
  · by_cases hknown : tag ++ ['s'] ∈ knownTags
    · simp [hknown]
    · by_cases hspelling : tag ++ ['s'] = spelling
      · subst hspelling
        simp [hknown]
      · simp [hknown, hspelling]

theorem eq_of_foldPlural_singleton {spelling tag canonical : TagText}
    (h : foldPlural [spelling] tag = some canonical) : canonical = spelling := by
  unfold foldPlural at h
  split_ifs at h with hends hmem hmem
  · exact (Option.some.inj h).symm.trans (List.mem_singleton.mp hmem)
  · exact (Option.some.inj h).symm.trans (List.mem_singleton.mp hmem)

/-- No tag is its own singular or plural. -/
theorem foldPlural_self (spelling : TagText) : foldPlural [spelling] spelling = none := by
  unfold foldPlural
  split_ifs with hends hmem hmem
  · have hlength := congrArg List.length (List.mem_singleton.mp hmem)
    rw [List.length_dropLast] at hlength
    omega
  · rfl
  · have hlength := congrArg List.length (List.mem_singleton.mp hmem)
    simp at hlength
  · rfl

namespace TagCanonicalizer

variable {lower} {state : TagCanonicalizer}

/-- A call that does not register the alias anew keeps what it leads to. -/
theorem Leads.step {spelling canonical : TagText} (h : state.Leads spelling canonical)
    {call : CanonicalizerCall}
    (hother : ∀ aliasTag target, call = .registerAlias aliasTag target →
      hyphenate lower aliasTag ≠ spelling)
    {next : TagCanonicalizer} (hnext : canonicalizerStep lower state call = some next) :
    next.Leads spelling canonical := by
  cases call with
  | registerAlias aliasTag target =>
      obtain rfl := Option.some.inj hnext
      rw [Leads, TagCanonicalizer.registerAlias, Entries.get_set,
        if_neg (hother aliasTag target rfl)]
      exact h
  | canonicalize tag =>
      obtain rfl := Option.some.inj hnext
      rcases state.leads_or_new (canonicalSpelling lower tag) with ⟨target, hleads⟩ | ⟨hget, hfold⟩
      · rwa [canonicalize_of_leads hleads]
      · rw [canonicalize_of_new hget hfold, Leads]
        refine h.imp_right fun ⟨hnone, hsome⟩ => ⟨hnone, ?_⟩
        rw [foldPlural_cons, hsome]
        rfl

theorem singleSeparators_canonicalSpelling {tag : TagText} :
    SingleSeparators '-' (canonicalSpelling lower tag) := by
  obtain ⟨front, back, heq⟩ : canonicalSpelling lower tag <:+: _ := trim_infix
  have hcollapsed := heq ▸ singleSeparators_collapse (hyphenate lower tag)
  exact List.IsChain.right_of_append (List.IsChain.left_of_append hcollapsed)

/-- An alias that is not written canonically is never looked up. -/
theorem written_of_looked_up {aliasTag tag : TagText}
    (h : hyphenate lower aliasTag = canonicalSpelling lower tag) :
    hyphenate lower aliasTag = canonicalSpelling lower aliasTag := by
  rw [canonicalSpelling, h, collapse_eq_self singleSeparators_canonicalSpelling]
  exact trim_trim.symm

/-- A canonical spelling is stable if there is no other whitespace next to its hyphens. -/
theorem canonicalSpelling_stable {tag : TagText}
    (hlower : lower (canonicalSpelling lower tag) = canonicalSpelling lower tag)
    (hstrip : pyStripChars (canonicalSpelling lower tag) = canonicalSpelling lower tag) :
    canonicalSpelling lower (canonicalSpelling lower tag) = canonicalSpelling lower tag := by
  have hhyphenate : hyphenate lower (canonicalSpelling lower tag) =
      canonicalSpelling lower tag := by
    rw [hyphenate, hlower, hstrip]
    refine (List.map_congr_left fun c hc => ?_).trans (List.map_id _)
    have hmem := mem_of_mem_collapse (List.IsInfix.subset trim_infix hc)
    obtain ⟨d, -, rfl⟩ := List.mem_map.mp hmem
    split_ifs with hd <;> simp_all
  rw [canonicalSpelling.eq_1 lower (canonicalSpelling lower tag), hhyphenate,
    collapse_eq_self singleSeparators_canonicalSpelling]
  exact trim_trim

theorem settled_registerAlias {aliasTag canonical : TagText} (h : state.Settled lower)
    (hfits : state.AliasFits lower aliasTag canonical) :
    (state.registerAlias lower aliasTag canonical).Settled lower := by
  by_cases hwritten : hyphenate lower aliasTag = canonicalSpelling lower aliasTag
  · intro tag other hleads
    by_cases hspelling : canonicalSpelling lower tag = canonicalSpelling lower aliasTag
    · rw [Leads, TagCanonicalizer.registerAlias, Entries.get_set, hwritten, hspelling,
        if_pos rfl] at hleads
      simp only [Option.some.injEq, reduceCtorEq, false_and, or_false] at hleads
      exact hleads ▸ hfits.fixed hwritten
    · rw [Leads, TagCanonicalizer.registerAlias, Entries.get_set, hwritten,
        if_neg (Ne.symm hspelling)] at hleads
      by_cases htarget : canonicalSpelling lower other = canonicalSpelling lower aliasTag
      · refine .inl ?_
        rw [TagCanonicalizer.registerAlias, Entries.get_set, hwritten, htarget, if_pos rfl,
          hfits.others_fixed hwritten tag other hspelling hleads htarget]
      · rw [Fixed, TagCanonicalizer.registerAlias, Entries.get_set, hwritten,
          if_neg (Ne.symm htarget)]
        exact h tag other hleads
  · have hget (tag : TagText) : (state.registerAlias lower aliasTag canonical).aliasCache.get
        (canonicalSpelling lower tag) = state.aliasCache.get (canonicalSpelling lower tag) := by
      rw [TagCanonicalizer.registerAlias, Entries.get_set, if_neg]
      exact fun heq => hwritten (written_of_looked_up heq)
    intro tag other hleads
    rw [Leads, hget] at hleads
    rw [Fixed, hget]
    exact h tag other hleads

theorem settled_canonicalize {tag : TagText} (h : state.Settled lower)
    (hfits : state.CallFits lower (.canonicalize tag)) :
    (state.canonicalize lower tag).2.Settled lower := by
  rcases state.leads_or_new (canonicalSpelling lower tag) with ⟨target, hleads⟩ | ⟨hget, hfold⟩
  · rwa [canonicalize_of_leads hleads]
  · obtain ⟨hstable, hothers⟩ := hfits hget hfold
    rw [canonicalize_of_new hget hfold]
    generalize canonicalSpelling lower tag = spelling at *
    intro other canonical hleads
    rcases hleads with halias | ⟨hnone, hsome⟩
    · rcases h other canonical (.inl halias) with hself | ⟨hnot, hspelling, hnofold⟩
      · exact .inl hself
      · refine .inr ⟨hnot, hspelling, ?_⟩
        rw [foldPlural_cons, hnofold, Option.none_or]
        exact hothers other canonical (.inl halias) hnot
    · rw [foldPlural_cons] at hsome
      cases hold : foldPlural state.knownTags (canonicalSpelling lower other) with
      | some folded =>
          rw [hold, Option.some_or] at hsome
          obtain rfl := Option.some.inj hsome
          rcases h other folded (.inr ⟨hnone, hold⟩) with hself | ⟨hnot, hspelling, hnofold⟩
          · exact .inl hself
          · refine .inr ⟨hnot, hspelling, ?_⟩
            rw [foldPlural_cons, hnofold, Option.none_or]
            exact hothers other folded (.inr ⟨hnone, hold⟩) hnot
      | none =>
          rw [hold, Option.none_or] at hsome
          obtain rfl := eq_of_foldPlural_singleton hsome
          have hnofold : foldPlural (canonical :: state.knownTags) canonical = none := by
            rw [foldPlural_cons, hfold, foldPlural_self]
            rfl
          rcases hstable with hself | hspelling
          · exact .inl hself
          · refine .inr ⟨?_, hspelling, hnofold⟩
            rw [hspelling]
            exact hget

theorem settled_step {call : CanonicalizerCall} (h : state.Settled lower)
    (hfits : state.CallFits lower call) {next : TagCanonicalizer}
    (hnext : canonicalizerStep lower state call = some next) : next.Settled lower := by
  cases call with
  | registerAlias aliasTag canonical =>
      obtain rfl := Option.some.inj hnext
      exact settled_registerAlias h hfits
  | canonicalize tag =>
      obtain rfl := Option.some.inj hnext
      exact settled_canonicalize h hfits

theorem settled_new : ({} : TagCanonicalizer).Settled lower := by
  rintro tag canonical (halias | ⟨-, hfold⟩)
  · cases halias
  · unfold foldPlural at hfold
    simp at hfold

/-! ## Runs -/

theorem settled_run {calls : List CanonicalizerCall} (h : state.Settled lower)
    (hmeets : Meets (canonicalizerStep lower) (CallFits lower) state calls)
    {last : TagCanonicalizer} (hruns : runSteps (canonicalizerStep lower) state calls = some last) :
    last.Settled lower := by
  induction calls generalizing state with
  | nil =>
      obtain rfl := Option.some.inj hruns
      exact h
  | cons call calls ih =>
      obtain ⟨next, hnext, hrest⟩ := Option.bind_eq_some_iff.mp hruns
      exact ih (settled_step h hmeets.1 hnext) (hmeets.2 next hnext) hrest

/-- No call registers a spelling of the alias. -/
def NotRegistered (lower : TagText → TagText) (aliasTag : TagText)
    (calls : List CanonicalizerCall) : Prop :=
  ∀ other canonical, CanonicalizerCall.registerAlias other canonical ∈ calls →
    canonicalSpelling lower other ≠ canonicalSpelling lower aliasTag

theorem Leads.run {calls : List CanonicalizerCall} {aliasTag canonical : TagText}
    (h : state.Leads (canonicalSpelling lower aliasTag) canonical)
    (hother : NotRegistered lower aliasTag calls) {last : TagCanonicalizer}
    (hruns : runSteps (canonicalizerStep lower) state calls = some last) :
    last.Leads (canonicalSpelling lower aliasTag) canonical := by
  induction calls generalizing state with
  | nil =>
      obtain rfl := Option.some.inj hruns
      exact h
  | cons call calls ih =>
      obtain ⟨next, hnext, hrest⟩ := Option.bind_eq_some_iff.mp hruns
      refine ih (h.step ?_ hnext) ?_ hrest
      · rintro other target rfl heq
        exact hother other target List.mem_cons_self ((written_of_looked_up heq).symm.trans heq)
      · exact fun other target hmem => hother other target (List.mem_cons_of_mem call hmem)

/-- Once an alias is registered, its spellings lead to its tag or are those of the tag. -/
theorem leads_registerAlias {aliasTag canonical : TagText}
    (hfits : state.AliasFits lower aliasTag canonical) :
    canonicalSpelling lower canonical = canonicalSpelling lower aliasTag ∨
      (state.registerAlias lower aliasTag canonical).Leads
        (canonicalSpelling lower aliasTag) canonical := by
  rw [Leads, TagCanonicalizer.registerAlias, Entries.get_set]
  by_cases hwritten : hyphenate lower aliasTag = canonicalSpelling lower aliasTag
  · exact .inr (.inl (if_pos hwritten))
  · rw [if_neg hwritten]
    exact (hfits.reached.resolve_left hwritten)

/-- A tag that is canonicalized twice. -/
def Idempotent (lower : TagText → TagText) (state : TagCanonicalizer) (tag : TagText) : Prop :=
  ((state.canonicalize lower tag).2.canonicalize lower (state.canonicalize lower tag).1).1 =
    (state.canonicalize lower tag).1

/-- A tag that is new keeps its spelling. -/
def StableIfNew (lower : TagText → TagText) (state : TagCanonicalizer) (tag : TagText) : Prop :=
  let spelling := canonicalSpelling lower tag
  state.aliasCache.get spelling = none → foldPlural state.knownTags spelling = none →
    state.Stable lower spelling

theorem Settled.idempotent (h : state.Settled lower) {tag : TagText}
    (hstable : state.StableIfNew lower tag) : state.Idempotent lower tag := by
  rw [Idempotent]
  rcases state.leads_or_new (canonicalSpelling lower tag) with ⟨canonical, hleads⟩ | ⟨hget, hfold⟩
  · rw [canonicalize_of_leads hleads]
    exact (h tag canonical hleads).canonicalize_eq
  · rw [canonicalize_of_new hget hfold]
    have hstable := hstable hget hfold
    generalize canonicalSpelling lower tag = spelling at *
    refine Fixed.canonicalize_eq (hstable.imp_right fun hspelling => ?_)
    have hnofold : foldPlural (spelling :: state.knownTags) spelling = none := by
      rw [foldPlural_cons, hfold, foldPlural_self]
      rfl
    refine ⟨?_, hspelling, hnofold⟩
    rw [hspelling]
    exact hget

end TagCanonicalizer

open TagCanonicalizer in
/-- In a run of fitting calls canonical tags are settled, and each spelling of an alias
leads to the same tag as the tag it was registered for. -/
theorem canonical_tags_settle (lower : TagText → TagText) (calls : List CanonicalizerCall)
    (state : TagCanonicalizer)
    (hmeets : Meets (canonicalizerStep lower) (CallFits lower) {} calls)
    (hruns : runSteps (canonicalizerStep lower) {} calls = some state) :
    (∀ tag, state.StableIfNew lower tag → state.Idempotent lower tag) ∧
      ∀ before aliasTag canonical after,
        calls = before ++ .registerAlias aliasTag canonical :: after →
          NotRegistered lower aliasTag after →
            ∀ tag, canonicalSpelling lower tag = canonicalSpelling lower aliasTag →
              (state.canonicalize lower tag).1 = (state.canonicalize lower canonical).1 := by
  have hsettled := settled_run settled_new hmeets hruns
  refine ⟨fun tag hstable => hsettled.idempotent hstable, ?_⟩
  rintro before aliasTag canonical after rfl hother tag hspelling
  obtain ⟨middle, hbefore, hrest⟩ := runSteps_append.mp hruns
  obtain ⟨next, hnext, hafter⟩ := Option.bind_eq_some_iff.mp hrest
  obtain rfl := Option.some.inj hnext
  have hfits : middle.AliasFits lower aliasTag canonical :=
    (meets_append.mp hmeets).2 middle hbefore |>.1
  rcases leads_registerAlias hfits with hsame | hleads
  · have heq : canonicalSpelling lower tag = canonicalSpelling lower canonical :=
      hspelling.trans hsame.symm
    rw [canonicalize, canonicalize, heq]
  · have hlast := hleads.run hother hafter
    rw [canonicalize_of_leads (hspelling ▸ hlast)]
    exact (hsettled aliasTag canonical hlast).canonicalize_eq.symm

end

/-! ## An alias in several spellings -/

theorem db_fits : ({} : TagCanonicalizer).AliasFits (List.map Char.toLower) "db".toList
    "database".toList where
  reached := .inl (by decide)
  fixed _ := .inr (by decide)
  others_fixed := by
    rintro - tag other - (hget | ⟨-, hfold⟩)
    · cases hget
    · unfold foldPlural at hfold
      simp at hfold

theorem canonical_tags_settle_db :
    ((⟨[("db".toList, "database".toList)], []⟩ : TagCanonicalizer).canonicalize
        (List.map Char.toLower) "-DB_".toList).1 =
      ((⟨[("db".toList, "database".toList)], []⟩ : TagCanonicalizer).canonicalize
        (List.map Char.toLower) "database".toList).1 :=
  (canonical_tags_settle (List.map Char.toLower)
    [.registerAlias "db".toList "database".toList] _ ⟨db_fits, fun _ _ => trivial⟩ rfl).2
    [] "db".toList "database".toList [] rfl (fun _ _ h => nomatch h) "-DB_".toList (by decide)

/-! ## An alias of an alias -/

def aliasChain : List CanonicalizerCall :=
  [.registerAlias "db".toList "database".toList, .registerAlias "database".toList "sql".toList]

/-- The first alias leads to a tag that is itself an alias by then. -/
theorem alias_chain_unsettled :
    ¬ ∀ (calls : List CanonicalizerCall) (state : TagCanonicalizer),
      runSteps (canonicalizerStep (List.map Char.toLower)) {} calls = some state →
        (∀ tag, state.Idempotent (List.map Char.toLower) tag) ∧
          ∀ before aliasTag canonical after,
            calls = before ++ .registerAlias aliasTag canonical :: after →
              TagCanonicalizer.NotRegistered (List.map Char.toLower) aliasTag after →
                ∀ tag, canonicalSpelling (List.map Char.toLower) tag =
                    canonicalSpelling (List.map Char.toLower) aliasTag →
                  (state.canonicalize (List.map Char.toLower) tag).1 =
                    (state.canonicalize (List.map Char.toLower) canonical).1 := by
  intro h
  have hidempotent := (h aliasChain
    ⟨[("db".toList, "database".toList), ("database".toList, "sql".toList)], []⟩ rfl).1 "DB".toList
  exact absurd hidempotent (by unfold TagCanonicalizer.Idempotent; decide +kernel)

end VirtualContext
