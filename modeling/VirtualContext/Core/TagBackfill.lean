import VirtualContext.Core.TagComponents
import VirtualContext.Storage.CompactionWrites
import VirtualContext.Storage.SummaryQueries

/-!
# Consolidating the tags of one conversation

`consolidate_tags` runs through the view of a conversation.  The view names the
conversation of the aliases that are written, but every query for segments reads the
whole store, and a segment that gets a tag is stored as a new row.
-/

namespace VirtualContext

open VirtualContext.Library

/-! ## The store and its view -/

/-- A row of `tag_aliases`. -/
structure TagAliasRecord where
  aliasTag : String
  conversationId : ConversationId := ""
  canonical : String
  deriving DecidableEq, Repr

/-- The segments, with their references and tags as keys, and the aliases. -/
structure TaggedStore where
  tables : Tables := {}
  tagAliases : List TagAliasRecord := []
  refs_nodup : (tables.segments.map (·.ref)).Nodup := by decide
  tags_nodup : ∀ row ∈ tables.segments, row.tags.Nodup := by decide

namespace TaggedStore

variable (s : TaggedStore)

/-- `get_tag_aliases`; those of the conversation win over those of all. -/
def getTagAliases (conversationId : ConversationId) : TagAliases :=
  let shared := s.tagAliases.filter (·.conversationId = "")
  let own := s.tagAliases.filter fun row =>
    conversationId ≠ "" && row.conversationId = conversationId
  Entries.setAll [] ((shared ++ own).map fun row => (row.aliasTag, row.canonical))

/-- `set_tag_alias` -/
def setTagAlias (aliasTag canonical : String) (conversationId : ConversationId) :
    TaggedStore :=
  { s with
    tagAliases := replaceBy (fun row => (row.aliasTag, row.conversationId))
      { aliasTag, conversationId, canonical } s.tagAliases }

/-- `store_segment` without a lease; the key of `segment_tags` takes each tag once. -/
def storeSegment (segment : StoredSegment) : Option TaggedStore :=
  if htags : segment.tags.Nodup then
    some
      { s with
        tables := s.tables.replaceSegment (segment.record none)
        refs_nodup := nodup_replaceBy s.refs_nodup
        tags_nodup := fun row hrow => by
          rcases mem_replaceBy.mp hrow with rfl | ⟨hrow, -⟩
          · exact htags
          · exact s.tags_nodup row hrow }
  else none

theorem storeSegment_completes {segment : StoredSegment} (h : segment.tags.Nodup) :
    ∃ s', s.storeSegment segment = some s' := ⟨_, dif_pos h⟩

end TaggedStore

/-- `ConversationStoreView`; a view is current until its conversation is deleted. -/
structure ConversationStoreView where
  conversationId : ConversationId
  isCurrent : Bool := true

structure BackfillResult extends ConsolidationResult where
  segmentTagsAdded : Nat := 0

namespace ConversationStoreView

variable (view : ConversationStoreView)

/-- A guarded write raises if the view is stale. -/
def guardWrite (s : TaggedStore) (write : TaggedStore → Option TaggedStore) :
    Option TaggedStore :=
  if view.isCurrent then write s else none

/-! ## Writing aliases -/

def writeAlias (existing : TagAliases) (canonical : String) (st : Nat × TaggedStore)
    (tag : String) : Option (Nat × TaggedStore) :=
  if (existing.get tag).isSome then some st
  else
    (view.guardWrite st.2 fun s => some (s.setTagAlias tag canonical view.conversationId)).map
      fun s => (st.1 + 1, s)

def writeAliases (groups : List ConsolidationGroup) (s : TaggedStore) :
    Option (Nat × TaggedStore) :=
  groups.foldlM (fun st group => group.aliases.foldlM
    (view.writeAlias (s.getTagAliases view.conversationId) group.canonical) st) (0, s)

/-! ## Adding canonical tags -/

def backfillSegment (canonical : String) (canonicalRefs : List String)
    (st : Nat × TaggedStore) (ref : String) : Option (Nat × TaggedStore) :=
  if ref ∈ canonicalRefs then some st
  else
    match st.2.tables.getSegment ref none with
    | none => some st
    | some segment =>
        if canonical ∈ segment.tags then some st
        else
          (view.guardWrite st.2 fun s =>
            s.storeSegment { segment with tags := segment.tags ++ [canonical] }).map
              fun s => (st.1 + 1, s)

/-- The references of the segments that match first, of all conversations. -/
def matchingRefs (t : Tables) (tags : List String) : List String :=
  (t.summariesByTags tags 1 1000 none).map (·.ref)

def backfillGroup (st : Nat × TaggedStore) (group : ConsolidationGroup) :
    Option (Nat × TaggedStore) :=
  (matchingRefs st.2.tables group.aliases).foldlM
    (view.backfillSegment group.canonical (matchingRefs st.2.tables [group.canonical])) st

/-- `_backfill_segment_tags` -/
def backfillSegmentTags (groups : List ConsolidationGroup) (s : TaggedStore) :
    Option (Nat × TaggedStore) :=
  groups.foldlM view.backfillGroup (0, s)

/-- `consolidate_tags` through the view, with the store after it; no result if it
raises. -/
def consolidateTags (run : ConsolidationRun) (s : TaggedStore) :
    Option (BackfillResult × TaggedStore) :=
  match run.allGroups with
  | none => none
  | some [] => some ({}, s)
  | some groups =>
      let merged := mergeTransitiveGroups run.setOrder groups
      if run.dryRun then some ({ groups := merged }, s)
      else
        (view.writeAliases merged s).bind fun written =>
          (view.backfillSegmentTags merged written.2).map fun backfilled =>
            ({ groups := merged
               aliasesWritten := written.1
               segmentTagsAdded := backfilled.1 }, backfilled.2)

/-! ## Rows with a canonical tag added -/

/-- The row that takes the place of a row which gets a tag. -/
def withTag (canonical : String) (row : SegmentRecord) : SegmentRecord :=
  StoredSegment.record { row.toStoredSegment with tags := row.tags ++ [canonical] } none

def addTag (refs : List String) (canonical : String) (row : SegmentRecord) : SegmentRecord :=
  if row.ref ∈ refs ∧ canonical ∉ row.tags then withTag canonical row else row

section

variable {refs : List String} {canonical : String} {row : SegmentRecord}

theorem mem_tags_addTag {tag : String} :
    tag ∈ (addTag refs canonical row).tags ↔
      tag ∈ row.tags ∨ tag = canonical ∧ row.ref ∈ refs := by
  unfold addTag
  split_ifs with h
  · have htags : (withTag canonical row).tags = row.tags ++ [canonical] := rfl
    rw [htags, List.mem_append, List.mem_singleton]
    simp [h.1]
  · constructor
    · exact .inl
    · rintro (hmem | ⟨rfl, href⟩)
      · exact hmem
      · by_contra hnew
        exact h ⟨href, hnew⟩

@[simp] theorem ref_addTag : (addTag refs canonical row).ref = row.ref := by
  unfold addTag
  split_ifs <;> rfl

/-- One reference after the other. -/
theorem addTag_addTag (ref : String) :
    addTag refs canonical (addTag [ref] canonical row) =
      addTag (ref :: refs) canonical row := by
  by_cases hmem : canonical ∈ row.tags
  · have hkeeps (refs : List String) : addTag refs canonical row = row :=
      if_neg fun h => h.2 hmem
    rw [hkeeps, hkeeps, hkeeps]
  · by_cases href : row.ref = ref
    · have hfirst : canonical ∈ (addTag [ref] canonical row).tags :=
        mem_tags_addTag.mpr (.inr ⟨rfl, List.mem_singleton.mpr href⟩)
      have hnext : addTag refs canonical (addTag [ref] canonical row) =
          addTag [ref] canonical row := if_neg fun h => h.2 hfirst
      rw [hnext]
      unfold addTag
      rw [if_pos ⟨List.mem_singleton.mpr href, hmem⟩,
        if_pos ⟨href ▸ List.mem_cons_self, hmem⟩]
    · have hfirst : addTag [ref] canonical row = row :=
        if_neg fun h => href (List.mem_singleton.mp h.1)
      rw [hfirst]
      unfold addTag
      simp [href]

end

section

variable {view : ConversationStoreView} {canonical : String} {canonicalRefs : List String}
  {st st' : Nat × TaggedStore}

/-- One turn of the loop; a segment that is known to have the tag has it. -/
theorem backfillSegment_perm {ref : String}
    (hcanonical : ∀ row ∈ st.2.tables.segments, row.ref ∈ canonicalRefs → canonical ∈ row.tags)
    (h : view.backfillSegment canonical canonicalRefs st ref = some st') :
    st'.2.tagAliases = st.2.tagAliases ∧
      st'.2.tables.segments.Perm (st.2.tables.segments.map (addTag [ref] canonical)) := by
  have hkept (hall : ∀ row ∈ st.2.tables.segments, row.ref = ref → canonical ∈ row.tags) :
      st.2.tables.segments.Perm (st.2.tables.segments.map (addTag [ref] canonical)) := by
    refine List.Perm.of_eq ((List.map_congr_left fun row hrow => ?_).trans
      (List.map_id _)).symm
    exact if_neg fun htouched => htouched.2 (hall row hrow (List.mem_singleton.mp htouched.1))
  unfold backfillSegment at h
  split_ifs at h with href
  · obtain rfl := Option.some.inj h
    exact ⟨rfl, hkept fun row hrow hrow' => hcanonical row hrow (hrow' ▸ href)⟩
  · cases hfind : st.2.tables.segments.find? fun segment =>
        segment.ref = ref && inScope none segment.conversationId with
    | none =>
        have hget : st.2.tables.getSegment ref none = none := by
          rw [Tables.getSegment, hfind, Option.map_none]
        rw [hget] at h
        obtain rfl := Option.some.inj h
        refine ⟨rfl, hkept fun row hrow hrow' => ?_⟩
        have hnot := List.find?_eq_none.mp hfind row hrow
        simp [hrow', inScope] at hnot
    | some row =>
        have hget : st.2.tables.getSegment ref none = some row.toStoredSegment := by
          rw [Tables.getSegment, hfind, Option.map_some]
        have hrow := List.mem_of_find?_eq_some hfind
        have hrowRef : row.ref = ref := by
          have hfound := List.find?_some hfind
          simp only [Bool.and_eq_true, decide_eq_true_eq] at hfound
          exact hfound.1
        have hunique {other : SegmentRecord} (hother : other ∈ st.2.tables.segments)
            (heq : other.ref = ref) : other = row :=
          List.inj_on_of_nodup_map st.2.refs_nodup hother hrow (heq.trans hrowRef.symm)
        rw [hget] at h
        dsimp only at h
        split_ifs at h with hmem
        · obtain rfl := Option.some.inj h
          exact ⟨rfl, hkept fun other hother heq => hunique hother heq ▸ hmem⟩
        · obtain ⟨s', hguard, rfl⟩ := Option.map_eq_some_iff.mp h
          unfold guardWrite TaggedStore.storeSegment at hguard
          split_ifs at hguard
          obtain rfl := Option.some.inj hguard
          have hnew : (withTag canonical row).ref = row.ref := rfl
          have hperm := replaceBy_perm st.2.refs_nodup hrow hnew.symm
          refine ⟨rfl, hperm.trans (List.Perm.of_eq ?_)⟩
          refine List.map_congr_left fun other hother => ?_
          unfold addTag
          rw [hnew, hrowRef]
          by_cases heq : other.ref = ref
          · rw [hunique hother heq, if_pos hrowRef,
              if_pos ⟨List.mem_singleton.mpr hrowRef, hmem⟩]
          · rw [if_neg heq, if_neg fun htouched => heq (List.mem_singleton.mp htouched.1)]

theorem backfillRefs_perm {refs : List String}
    (hcanonical : ∀ row ∈ st.2.tables.segments, row.ref ∈ canonicalRefs → canonical ∈ row.tags)
    (h : refs.foldlM (view.backfillSegment canonical canonicalRefs) st = some st') :
    st'.2.tagAliases = st.2.tagAliases ∧
      st'.2.tables.segments.Perm (st.2.tables.segments.map (addTag refs canonical)) := by
  induction refs generalizing st with
  | nil =>
      obtain rfl := Option.some.inj h
      refine ⟨rfl, List.Perm.of_eq ((List.map_congr_left fun row _ => ?_).trans
        (List.map_id _)).symm⟩
      exact if_neg fun htouched => List.not_mem_nil htouched.1
  | cons ref refs ih =>
      rw [List.foldlM_cons] at h
      obtain ⟨middle, hmiddle, hrest⟩ := Option.bind_eq_some_iff.mp h
      obtain ⟨haliases, hperm⟩ := backfillSegment_perm hcanonical hmiddle
      obtain ⟨haliases', hperm'⟩ := ih (fun row hrow href => by
        obtain ⟨old, hold, rfl⟩ := List.mem_map.mp (hperm.mem_iff.mp hrow)
        rw [ref_addTag] at href
        exact mem_tags_addTag.mpr (.inl (hcanonical old hold href))) hrest
      refine ⟨haliases'.trans haliases, hperm'.trans ((hperm.map _).trans (List.Perm.of_eq ?_))⟩
      rw [List.map_map]
      exact List.map_congr_left fun row _ => addTag_addTag ref

end

end ConversationStoreView

end VirtualContext
