import VirtualContext.Core.TagBackfill

/-!
# Which segments a consolidation changes

A completed run adds the canonical tag of each group to the segments that match the
group first, of all conversations, and every segment that gets a tag loses the
columns which only the store knows.
-/

namespace VirtualContext

open VirtualContext.Library

namespace ConversationStoreView

/-! ## The segments that match a group -/

theorem overlapCount_congr {tags : List String} {row row' : SegmentRecord}
    (h : ∀ tag ∈ tags, tag ∈ row'.tags ↔ tag ∈ row.tags) (hrow : row.tags.Nodup)
    (hrow' : row'.tags.Nodup) : overlapCount tags row' = overlapCount tags row := by
  refine List.Perm.length_eq ((List.perm_ext_iff_of_nodup (hrow'.filter _)
    (hrow.filter _)).mpr fun tag => ?_)
  simp only [List.mem_filter, decide_eq_true_eq]
  constructor
  · rintro ⟨hmem, htag⟩
    exact ⟨(h tag htag).mp hmem, htag⟩
  · rintro ⟨hmem, htag⟩
    exact ⟨(h tag htag).mpr hmem, htag⟩

/-- Rows that match the tags alike are listed alike. -/
theorem matchingRefs_of_perm {t t' : Tables} {tags : List String}
    {change : SegmentRecord → SegmentRecord} (hrefs : (t'.segments.map (·.ref)).Nodup)
    (hperm : t'.segments.Perm (t.segments.map change))
    (hkeeps : ∀ row ∈ t.segments, (change row).ref = row.ref ∧
      (change row).createdAt = row.createdAt ∧
      overlapCount tags (change row) = overlapCount tags row) :
    matchingRefs t' tags = matchingRefs t tags := by
  let found (segment : SegmentRecord) : Bool :=
    inScope none segment.conversationId && decide (0 < overlapCount tags segment) &&
      decide (1 ≤ overlapCount tags segment)
  let order (segment : SegmentRecord) : ℕ ×ₗ List Char :=
    toLex (overlapCount tags segment, segment.createdAt.toList)
  have hfound : (t'.segments.filter found).Perm ((t.segments.filter found).map change) := by
    refine (hperm.filter _).trans (List.Perm.of_eq ?_)
    rw [List.filter_map]
    refine congrArg (List.map change) (List.filter_congr fun row hrow => ?_)
    simp only [found, Function.comp_apply, inScope, Option.all_none, (hkeeps row hrow).2.2]
  have hkeys : ((t'.segments.filter found).map fun row => row.ref.toList).Nodup := by
    have hsome := hrefs.sublist ((List.filter_sublist (l := t'.segments) (p := found)).map _)
    have hlists := hsome.map fun _ _ => String.toList_inj.mp
    rwa [List.map_map] at hlists
  have hrows : orderBy (·.ref.toList) (t'.segments.filter found) =
      (orderBy (·.ref.toList) (t.segments.filter found)).map change := by
    rw [orderBy_congr_perm hfound hkeys]
    refine orderBy_map change _ fun row hrow row' hrow' => ?_
    rw [(hkeeps row (List.mem_filter.mp hrow).1).1,
      (hkeeps row' (List.mem_filter.mp hrow').1).1]
  have hordered : orderByDesc order (orderBy (·.ref.toList) (t'.segments.filter found)) =
      (orderByDesc order (orderBy (·.ref.toList) (t.segments.filter found))).map change := by
    rw [hrows]
    refine orderByDesc_map change _ fun row hrow => ?_
    have hmem := (List.mem_filter.mp ((mem_orderBy _).mp hrow)).1
    dsimp only [order]
    rw [(hkeeps row hmem).2.2, (hkeeps row hmem).2.1]
  have hmatching (t : Tables) : matchingRefs t tags =
      if tags.isEmpty then []
      else ((orderByDesc order (orderBy (·.ref.toList) (t.segments.filter found))).take 1000).map
        (·.ref) := by
    unfold matchingRefs Tables.summariesByTags
    split_ifs
    · rfl
    · rw [List.map_map]
      rfl
  rw [hmatching, hmatching, hordered, ← List.map_take, List.map_map]
  split_ifs
  · rfl
  · refine List.map_congr_left fun row hrow => ?_
    have hmem := (List.mem_filter.mp ((mem_orderBy _).mp
      ((orderByDesc_perm _).mem_iff.mp (List.mem_of_mem_take hrow)))).1
    exact (hkeeps row hmem).1

/-- The row after the groups, whose segments are those that match at the beginning. -/
def addTags (t : Tables) (groups : List ConsolidationGroup) (row : SegmentRecord) :
    SegmentRecord :=
  groups.foldl (fun row group => addTag (matchingRefs t group.aliases) group.canonical row) row

/-- The rows to which a group adds its tag. -/
def Gets (t : Tables) (group : ConsolidationGroup) (row : SegmentRecord) : Prop :=
  row.ref ∈ matchingRefs t group.aliases ∧ group.canonical ∉ row.tags

instance (t : Tables) (group : ConsolidationGroup) (row : SegmentRecord) :
    Decidable (Gets t group row) := inferInstanceAs (Decidable (_ ∧ _))

section

variable {t : Tables} {groups : List ConsolidationGroup} {row : SegmentRecord}

theorem addTags_append (group : ConsolidationGroup) :
    addTags t (groups ++ [group]) row =
      addTag (matchingRefs t group.aliases) group.canonical (addTags t groups row) := by
  rw [addTags, List.foldl_append]
  rfl

@[simp] theorem ref_addTags : (addTags t groups row).ref = row.ref := by
  induction groups using List.reverseRecOn with
  | nil => rfl
  | append_singleton groups group ih => rw [addTags_append, ref_addTag, ih]

theorem mem_tags_addTags {tag : String} :
    tag ∈ (addTags t groups row).tags ↔ tag ∈ row.tags ∨
      ∃ group ∈ groups, tag = group.canonical ∧ row.ref ∈ matchingRefs t group.aliases := by
  induction groups using List.reverseRecOn with
  | nil => simp [addTags]
  | append_singleton groups group ih =>
      rw [addTags_append, mem_tags_addTag, ih, ref_addTags, or_assoc]
      simp only [List.mem_append, List.mem_singleton, or_and_right, exists_or, exists_eq_left]

theorem createdAt_addTags : (addTags t groups row).createdAt = row.createdAt := by
  induction groups using List.reverseRecOn with
  | nil => rfl
  | append_singleton groups group ih =>
      rw [addTags_append, ← ih]
      unfold addTag
      split_ifs <;> rfl

theorem nodup_tags_addTags (h : row.tags.Nodup) : (addTags t groups row).tags.Nodup := by
  induction groups using List.reverseRecOn with
  | nil => exact h
  | append_singleton groups group ih =>
      rw [addTags_append]
      unfold addTag
      split_ifs with htouched
      · exact List.Nodup.append ih (List.nodup_singleton _)
          (List.disjoint_singleton.mpr htouched.2)
      · exact ih

/-- A row that gets no tag stays. -/
theorem addTags_eq_self (h : ∀ group ∈ groups, ¬ Gets t group row) :
    addTags t groups row = row := by
  induction groups using List.reverseRecOn with
  | nil => rfl
  | append_singleton groups group ih =>
      rw [addTags_append, ih fun group hgroup => h group (List.mem_append_left _ hgroup)]
      exact if_neg (h group (by simp))

/-- The columns that a new row of `segments` does not set. -/
def Plain (row : SegmentRecord) : Prop :=
  row.operationId = none ∧ row.originConversationId = ""

instance (row : SegmentRecord) : Decidable (Plain row) := inferInstanceAs (Decidable (_ ∧ _))

theorem plain_addTag {refs : List String} {canonical : String} (h : Plain row) :
    Plain (addTag refs canonical row) := by
  unfold addTag
  split_ifs
  · exact ⟨rfl, rfl⟩
  · exact h

theorem plain_addTags (h : Plain row) : Plain (addTags t groups row) := by
  induction groups using List.reverseRecOn with
  | nil => exact h
  | append_singleton groups group ih =>
      rw [addTags_append]
      exact plain_addTag ih

/-- Of a plain row only the tags change. -/
theorem fields_addTags (h : Plain row) :
    { addTags t groups row with tags := row.tags } = row := by
  induction groups using List.reverseRecOn with
  | nil => rfl
  | append_singleton groups group ih =>
      rw [addTags_append]
      unfold addTag
      split_ifs
      · have hplain : Plain (addTags t groups row) := plain_addTags h
        conv_rhs => rw [← ih]
        simp [withTag, StoredSegment.record, hplain.1, hplain.2]
      · exact ih

/-- A row that gets a tag is plain. -/
theorem plain_of_gets (h : ∃ group ∈ groups, Gets t group row) :
    Plain (addTags t groups row) := by
  induction groups using List.reverseRecOn with
  | nil => simp at h
  | append_singleton groups group ih =>
      rw [addTags_append]
      by_cases hearlier : ∃ group ∈ groups, Gets t group row
      · exact plain_addTag (ih hearlier)
      · push Not at hearlier
        obtain ⟨last, hlast, hgets⟩ := h
        rcases List.mem_append.mp hlast with hmem | hmem
        · exact absurd hgets (hearlier last hmem)
        · obtain rfl := List.mem_singleton.mp hmem
          rw [addTags_eq_self hearlier]
          have hadded : addTag (matchingRefs t last.aliases) last.canonical row =
              withTag last.canonical row := if_pos hgets
          rw [hadded]
          exact ⟨rfl, rfl⟩

end

/-! ## A run -/

section

variable {view : ConversationStoreView} {s s' : TaggedStore}

theorem alias_of_matching {row : SegmentRecord} {tags : List String}
    (hrow : row ∈ s.tables.segments) (h : row.ref ∈ matchingRefs s.tables tags) :
    ∃ tag ∈ tags, tag ∈ row.tags := by
  obtain ⟨summary, hsummary, href⟩ := List.mem_map.mp h
  obtain ⟨other, hother, rfl, -, hoverlap⟩ := mem_summariesByTags hsummary
  obtain rfl := List.inj_on_of_nodup_map s.refs_nodup hother hrow href
  obtain ⟨tag, htag⟩ := List.exists_mem_of_length_pos hoverlap
  obtain ⟨hmem, htag⟩ := List.mem_filter.mp htag
  exact ⟨tag, of_decide_eq_true htag, hmem⟩

theorem canonical_of_matching {row : SegmentRecord} {canonical : String}
    (hrow : row ∈ s.tables.segments) (h : row.ref ∈ matchingRefs s.tables [canonical]) :
    canonical ∈ row.tags := by
  obtain ⟨tag, htag, hmem⟩ := alias_of_matching hrow h
  exact List.mem_singleton.mp htag ▸ hmem

/-- What earlier groups add does not change which segments match. -/
theorem matchingRefs_addTags {groups : List ConsolidationGroup} {group : ConsolidationGroup}
    (hperm : s'.tables.segments.Perm (s.tables.segments.map (addTags s.tables groups)))
    (hdisjoint : ∀ other ∈ groups, ∀ tag ∈ other.tags, tag ∉ group.tags) :
    matchingRefs s'.tables group.aliases = matchingRefs s.tables group.aliases := by
  refine matchingRefs_of_perm s'.refs_nodup hperm fun row hrow =>
    ⟨ref_addTags, createdAt_addTags, overlapCount_congr (fun tag htag => ?_)
      (s.tags_nodup row hrow) (nodup_tags_addTags (s.tags_nodup row hrow))⟩
  rw [mem_tags_addTags]
  refine or_iff_left ?_
  rintro ⟨other, hother, rfl, -⟩
  exact hdisjoint other hother _ List.mem_cons_self (List.mem_cons_of_mem _ htag)

theorem backfillSegmentTags_perm {groups : List ConsolidationGroup} {added : Nat}
    (hdisjoint : groups.Pairwise fun group other => ∀ tag ∈ group.tags, tag ∉ other.tags)
    (h : view.backfillSegmentTags groups s = some (added, s')) :
    s'.tagAliases = s.tagAliases ∧
      s'.tables.segments.Perm (s.tables.segments.map (addTags s.tables groups)) := by
  induction groups using List.reverseRecOn generalizing added s' with
  | nil =>
      obtain ⟨-, rfl⟩ := Prod.mk.inj (Option.some.inj h)
      exact ⟨rfl, List.Perm.of_eq (List.map_id _).symm⟩
  | append_singleton groups group ih =>
      rw [backfillSegmentTags, List.foldlM_append] at h
      obtain ⟨middle, hmiddle, hlast⟩ := Option.bind_eq_some_iff.mp h
      obtain ⟨hearlier, -, hgroup⟩ := List.pairwise_append.mp hdisjoint
      obtain ⟨haliases, hperm⟩ := ih hearlier hmiddle
      rw [List.foldlM_cons] at hlast
      obtain ⟨final, hfinal, hdone⟩ := Option.bind_eq_some_iff.mp hlast
      obtain rfl := Option.some.inj hdone
      obtain ⟨haliases', hperm'⟩ := backfillRefs_perm
        (fun row hrow href => canonical_of_matching hrow href) hfinal
      refine ⟨haliases'.trans haliases, hperm'.trans ?_⟩
      rw [matchingRefs_addTags hperm fun other hother =>
        hgroup other hother group (List.mem_singleton_self _)]
      refine (hperm.map _).trans (List.Perm.of_eq ?_)
      rw [List.map_map]
      exact List.map_congr_left fun row _ => (addTags_append group).symm

theorem setTagAlias_others (s : TaggedStore) (aliasTag canonical : String)
    (conversationId : ConversationId) :
    (s.setTagAlias aliasTag canonical conversationId).tagAliases.filter
        (·.conversationId ≠ conversationId) =
      s.tagAliases.filter (·.conversationId ≠ conversationId) := by
  simp only [TaggedStore.setTagAlias, replaceBy, List.filter_append, List.filter_filter]
  rw [List.filter_singleton]
  simp only [ne_eq, not_true_eq_false, decide_false, cond_false, List.append_nil]
  refine List.filter_congr fun row _ => ?_
  by_cases howner : row.conversationId = conversationId
  · simp [howner]
  · simp [howner]

/-- Aliases are written for the conversation of the view. -/
theorem writeAliases_others {groups : List ConsolidationGroup} {written : Nat}
    (h : view.writeAliases groups s = some (written, s')) :
    s'.tables = s.tables ∧
      s'.tagAliases.filter (·.conversationId ≠ view.conversationId) =
        s.tagAliases.filter (·.conversationId ≠ view.conversationId) := by
  let Keeps (st : Nat × TaggedStore) : Prop := st.2.tables = s.tables ∧
    st.2.tagAliases.filter (·.conversationId ≠ view.conversationId) =
      s.tagAliases.filter (·.conversationId ≠ view.conversationId)
  have hstart : Keeps (0, s) := ⟨rfl, rfl⟩
  refine foldlM_keeps (P := Keeps) (fun st group st' hst hgroup => ?_) hstart h
  refine foldlM_keeps (P := Keeps) (fun st tag st' hst htag => ?_) hst hgroup
  unfold writeAlias at htag
  split_ifs at htag
  · exact Option.some.inj htag ▸ hst
  · obtain ⟨s', hguard, rfl⟩ := Option.map_eq_some_iff.mp htag
    unfold guardWrite at hguard
    split_ifs at hguard
    obtain rfl := Option.some.inj hguard
    exact ⟨hst.1, (setTagAlias_others _ _ _ _).trans hst.2⟩

end

/-! ## No write fails -/

section

variable {view : ConversationStoreView}

theorem writeAliases_completes (hcurrent : view.isCurrent = true)
    (groups : List ConsolidationGroup) (s : TaggedStore) :
    ∃ written, view.writeAliases groups s = some written := by
  refine foldlM_completes (fun st group _ => foldlM_completes (fun st tag _ => ?_) st) _
  unfold writeAlias guardWrite
  rw [if_pos hcurrent]
  split_ifs
  · exact ⟨_, rfl⟩
  · exact ⟨_, rfl⟩

theorem backfillSegmentTags_completes (hcurrent : view.isCurrent = true)
    (groups : List ConsolidationGroup) (s : TaggedStore) :
    ∃ backfilled, view.backfillSegmentTags groups s = some backfilled := by
  refine foldlM_completes (fun st group _ => foldlM_completes (fun st ref _ => ?_) st) _
  unfold backfillSegment
  split_ifs with hknown
  · exact ⟨_, rfl⟩
  · cases hget : st.2.tables.getSegment ref none with
    | none => exact ⟨_, rfl⟩
    | some segment =>
        dsimp only
        split_ifs with hmem
        · exact ⟨_, rfl⟩
        · obtain ⟨row, hfind, rfl⟩ := Option.map_eq_some_iff.mp hget
          have hnodup : (row.tags ++ [group.canonical]).Nodup :=
            (st.2.tags_nodup row (List.mem_of_find?_eq_some hfind)).append
              (List.nodup_singleton _) (List.disjoint_singleton.mpr hmem)
          let tagged : StoredSegment :=
            { row.toStoredSegment with tags := row.tags ++ [group.canonical] }
          have htagged : tagged.tags.Nodup := hnodup
          obtain ⟨s', hs'⟩ := st.2.storeSegment_completes htagged
          unfold guardWrite
          rw [if_pos hcurrent]
          exact ⟨(st.1 + 1, s'), Option.map_eq_some_iff.mpr ⟨s', hs', rfl⟩⟩

end

/-! ## What a run may change -/

section

variable (conversationId : ConversationId) (groups : List ConsolidationGroup)

/-- The run adds the canonical tags to the segments of its conversation, and that is
all it changes. -/
structure StaysInConversation (s s' : TaggedStore) : Prop where
  tagged : ∀ group ∈ groups,
    ∀ summary ∈ s.tables.summariesByTags group.aliases 1 1000 (some conversationId),
      ∃ row ∈ s'.tables.segments, row.ref = summary.ref ∧ group.canonical ∈ row.tags
  refs : (s'.tables.segments.map (·.ref)).Perm (s.tables.segments.map (·.ref))
  fields : ∀ row ∈ s.tables.segments, ∃ row' ∈ s'.tables.segments,
    { row' with tags := row.tags } = row ∧ row.tags ⊆ row'.tags ∧
      ∀ tag ∈ row'.tags, tag ∈ row.tags ∨
        ∃ group ∈ groups, tag = group.canonical ∧ ∃ aliasTag ∈ group.aliases, aliasTag ∈ row.tags
  others : ∀ row ∈ s.tables.segments, row.conversationId ≠ conversationId →
    row ∈ s'.tables.segments
  aliases : s'.tagAliases.filter (·.conversationId ≠ conversationId) =
    s.tagAliases.filter (·.conversationId ≠ conversationId)

/-- Of the segments that match a group first, those that lack its tag belong to the
conversation and have no more columns than a new one, and no other segment of the
conversation that would match first in it lacks the tag. -/
structure MatchesOwn (s : TaggedStore) : Prop where
  own : ∀ group ∈ groups, ∀ row ∈ s.tables.segments, Gets s.tables group row →
    row.conversationId = conversationId ∧ Plain row
  reached : ∀ group ∈ groups, ∀ row ∈ s.tables.segments,
    row.ref ∈ (s.tables.summariesByTags group.aliases 1 1000 (some conversationId)).map
      (·.ref) →
    group.canonical ∉ row.tags → row.ref ∈ matchingRefs s.tables group.aliases

instance (s : TaggedStore) : Decidable (MatchesOwn conversationId groups s) :=
  decidable_of_iff (_ ∧ _) ⟨fun h => ⟨h.1, h.2⟩, fun h => ⟨h.own, h.reached⟩⟩

end

section

variable {s s' : TaggedStore} {conversationId : ConversationId}
  {groups : List ConsolidationGroup}

/-- The row of the store after the run that has the reference of a row before it. -/
theorem eq_addTags
    (hperm : s'.tables.segments.Perm (s.tables.segments.map (addTags s.tables groups)))
    {row row' : SegmentRecord} (hrow : row ∈ s.tables.segments)
    (hrow' : row' ∈ s'.tables.segments) (href : row'.ref = row.ref) :
    row' = addTags s.tables groups row :=
  List.inj_on_of_nodup_map s'.refs_nodup hrow'
    (hperm.mem_iff.mpr (List.mem_map_of_mem hrow)) (href.trans ref_addTags.symm)

theorem matchesOwn_of_stays
    (hdistinct : ∀ group ∈ groups, ∀ other ∈ groups, group.canonical = other.canonical →
      group = other)
    (hperm : s'.tables.segments.Perm (s.tables.segments.map (addTags s.tables groups)))
    (h : StaysInConversation conversationId groups s s') :
    MatchesOwn conversationId groups s := by
  refine ⟨fun group hgroup row hrow hgets => ⟨?_, ?_⟩,
    fun group hgroup row hrow hscoped hnew => ?_⟩
  · by_contra howner
    have hsame := eq_addTags hperm hrow (h.others row hrow howner) rfl
    have htag : group.canonical ∈ (addTags s.tables groups row).tags :=
      mem_tags_addTags.mpr (.inr ⟨group, hgroup, rfl, hgets.1⟩)
    exact hgets.2 (hsame ▸ htag)
  · obtain ⟨row', hrow', hfields, -⟩ := h.fields row hrow
    have href : row'.ref = row.ref := congrArg (·.ref) hfields
    obtain rfl := eq_addTags hperm hrow hrow' href
    obtain ⟨hoperation, horigin⟩ := plain_of_gets ⟨group, hgroup, hgets⟩
    rw [← hfields]
    exact ⟨hoperation, horigin⟩
  · obtain ⟨summary, hsummary, href⟩ := List.mem_map.mp hscoped
    obtain ⟨row', hrow', href', htag⟩ := h.tagged group hgroup summary hsummary
    obtain rfl := eq_addTags hperm hrow hrow' (href'.trans href)
    rcases mem_tags_addTags.mp htag with hmem | ⟨other, hother, heq, hmatch⟩
    · exact absurd hmem hnew
    · rwa [hdistinct group hgroup other hother heq]

theorem stays_of_matchesOwn
    (hperm : s'.tables.segments.Perm (s.tables.segments.map (addTags s.tables groups)))
    (haliases : s'.tagAliases.filter (·.conversationId ≠ conversationId) =
      s.tagAliases.filter (·.conversationId ≠ conversationId))
    (h : MatchesOwn conversationId groups s) :
    StaysInConversation conversationId groups s s' := by
  have hafter {row : SegmentRecord} (hrow : row ∈ s.tables.segments) :
      addTags s.tables groups row ∈ s'.tables.segments :=
    hperm.mem_iff.mpr (List.mem_map_of_mem hrow)
  refine ⟨fun group hgroup summary hsummary => ?_, ?_, fun row hrow => ?_,
    fun row hrow howner => ?_, haliases⟩
  · obtain ⟨row, hrow, rfl, -⟩ := mem_summariesByTags hsummary
    refine ⟨_, hafter hrow, ref_addTags, mem_tags_addTags.mpr ?_⟩
    by_cases hmem : group.canonical ∈ row.tags
    · exact .inl hmem
    · exact .inr ⟨group, hgroup, rfl,
        h.reached group hgroup row hrow (List.mem_map_of_mem hsummary) hmem⟩
  · refine (hperm.map _).trans (List.Perm.of_eq ?_)
    rw [List.map_map]
    exact List.map_congr_left fun row _ => ref_addTags
  · refine ⟨_, hafter hrow, ?_, fun tag htag => mem_tags_addTags.mpr (.inl htag),
      fun tag htag => ?_⟩
    · by_cases hgets : ∃ group ∈ groups, Gets s.tables group row
      · obtain ⟨group, hgroup, hgets⟩ := hgets
        exact fields_addTags (h.own group hgroup row hrow hgets).2
      · push Not at hgets
        rw [addTags_eq_self hgets]
    · rcases mem_tags_addTags.mp htag with hmem | ⟨group, hgroup, rfl, hmatch⟩
      · exact .inl hmem
      · exact .inr ⟨group, hgroup, rfl, alias_of_matching hrow hmatch⟩
  · have hnone : ∀ group ∈ groups, ¬ Gets s.tables group row := fun group hgroup hgets =>
      howner (h.own group hgroup row hrow hgets).1
    exact addTags_eq_self hnone ▸ hafter hrow

end

section

variable (view : ConversationStoreView) {run : ConsolidationRun} {groups : List ConsolidationGroup}
  (s : TaggedStore)

theorem mergeTransitiveGroups_nil (setOrder : SetOrder) :
    mergeTransitiveGroups setOrder [] = [] := by
  refine List.eq_nil_iff_forall_not_mem.mpr fun group hgroup => ?_
  obtain ⟨tag, htag, -⟩ := ((components_iff setOrder [] _).mp ⟨group, hgroup, rfl⟩).1
  simp [tagsInGroups] at htag

/-- A run that is not stale ends with the tags of the groups added. -/
theorem consolidateTags_spec (hcurrent : view.isCurrent = true)
    (hgroups : run.allGroups = some groups) (hwrites : run.dryRun = false) :
    ∃ result s', view.consolidateTags run s = some (result, s') ∧
      s'.tables.segments.Perm (s.tables.segments.map
        (addTags s.tables (mergeTransitiveGroups run.setOrder groups))) ∧
      s'.tagAliases.filter (·.conversationId ≠ view.conversationId) =
        s.tagAliases.filter (·.conversationId ≠ view.conversationId) := by
  unfold consolidateTags
  rw [hgroups]
  cases groups with
  | nil =>
      refine ⟨{}, s, rfl, List.Perm.of_eq ?_, rfl⟩
      rw [mergeTransitiveGroups_nil]
      exact (List.map_id _).symm
  | cons group groups =>
      obtain ⟨written, hwritten⟩ := writeAliases_completes hcurrent
        (mergeTransitiveGroups run.setOrder (group :: groups)) s
      obtain ⟨backfilled, hbackfilled⟩ := backfillSegmentTags_completes hcurrent
        (mergeTransitiveGroups run.setOrder (group :: groups)) written.2
      obtain ⟨htables, haliases⟩ := writeAliases_others hwritten
      obtain ⟨haliases', hperm⟩ := backfillSegmentTags_perm
        (mergesComponents run.setOrder (group :: groups)).disjoint hbackfilled
      rw [htables] at hperm
      dsimp only
      rw [if_neg (by rw [hwrites]; exact Bool.false_ne_true), hwritten, Option.bind_some,
        hbackfilled, Option.map_some]
      exact ⟨_, _, rfl, hperm, haliases' ▸ haliases⟩

/-- A consolidation stays in its conversation just when only segments of the conversation
get tags. -/
theorem consolidation_stays_iff (hcurrent : view.isCurrent = true)
    (hgroups : run.allGroups = some groups) (hwrites : run.dryRun = false) :
    ∃ result s', view.consolidateTags run s = some (result, s') ∧
      (StaysInConversation view.conversationId (mergeTransitiveGroups run.setOrder groups) s s' ↔
        MatchesOwn view.conversationId (mergeTransitiveGroups run.setOrder groups) s) := by
  obtain ⟨result, s', hrun, hperm, haliases⟩ :=
    view.consolidateTags_spec s hcurrent hgroups hwrites
  refine ⟨result, s', hrun, matchesOwn_of_stays (fun group hgroup other hother heq => ?_) hperm,
    stays_of_matchesOwn hperm haliases⟩
  exact (mergeTransitiveGroups_spec run.setOrder groups).distinct group hgroup other hother
    group.canonical List.mem_cons_self (heq ▸ List.mem_cons_self)

end

/-! ## Two conversations with one tag -/

def taggedSegment (ref : String) (conversationId : ConversationId) : SegmentRecord where
  ref := ref
  conversationId := conversationId
  tags := ["js"]

def scriptRun : ConsolidationRun := groupingRun [⟨"javascript", ["js"], ""⟩]

theorem allGroups_scriptRun : scriptRun.allGroups = some [⟨"javascript", ["js"], ""⟩] := rfl

def separateStore : TaggedStore where
  tables := { segments := [taggedSegment "r" "mine"] }

theorem consolidation_stays_alone :
    ∃ result s', ({ conversationId := "mine" } : ConversationStoreView).consolidateTags scriptRun
        separateStore = some (result, s') ∧
      StaysInConversation "mine"
        (mergeTransitiveGroups scriptRun.setOrder [⟨"javascript", ["js"], ""⟩])
        separateStore s' := by
  obtain ⟨result, s', hrun, hstays⟩ := consolidation_stays_iff { conversationId := "mine" }
    separateStore rfl allGroups_scriptRun rfl
  exact ⟨result, s', hrun, hstays.mpr (by decide +kernel)⟩

def sharedStore : TaggedStore where
  tables := { segments := [taggedSegment "r" "mine", taggedSegment "q" "yours"] }

/-- The segment of the other conversation gets the tag. -/
theorem consolidation_tags_other_conversation :
    ∃ result s', ({ conversationId := "mine" } : ConversationStoreView).consolidateTags scriptRun
        sharedStore = some (result, s') ∧
      ¬ StaysInConversation "mine"
        (mergeTransitiveGroups scriptRun.setOrder [⟨"javascript", ["js"], ""⟩])
        sharedStore s' := by
  obtain ⟨result, s', hrun, -⟩ := consolidateTags_spec { conversationId := "mine" }
    sharedStore rfl allGroups_scriptRun rfl
  refine ⟨result, s', hrun, fun h => ?_⟩
  have hmem := h.others (taggedSegment "q" "yours") (by decide) (by decide)
  have hafter : (({ conversationId := "mine" } : ConversationStoreView).consolidateTags scriptRun
      sharedStore).map (fun run => decide (taggedSegment "q" "yours" ∈ run.2.tables.segments)) =
        some false := by decide +kernel
  rw [hrun] at hafter
  exact absurd hmem (of_decide_eq_false (Option.some.inj hafter))

end ConversationStoreView

end VirtualContext
