import VirtualContext.Core.ContextAssembler
import VirtualContext.Library.Flatten

/-!
# The segments that are presented

The hard cap leaves the sections of the longest leading part of the tags whose
text fits.  The references are those of all tags that were selected before it,
from their summaries and from their full segments.
-/

namespace VirtualContext

open VirtualContext.Library

namespace ContextAssembler

variable (assembler : ContextAssembler) (request : AssembleRequest)

/-! ## The tags -/

theorem nodup_summariesByTag : (summariesByTag request).keys.Nodup := by
  unfold summariesByTag
  dsimp only
  refine List.foldlRecOn (motive := fun groups : Entries String (List DatedSummary) =>
    groups.keys.Nodup) _ _ ?_ ?_
  · refine List.foldlRecOn (motive := fun groups : Entries String (List DatedSummary) =>
      groups.keys.Nodup) _ _ List.nodup_nil ?_
    exact fun groups h s _ => Entries.nodup_set h _ _
  · intro groups h tag _
    split_ifs
    · exact h
    · exact Entries.nodup_set h _ _

theorem nodup_sortedTags : (assembler.sortedTags request).Nodup :=
  (orderByDesc_perm _).nodup_iff.mpr (nodup_summariesByTag request)

/-- What holds of every section that can be selected. -/
theorem mem_fillPool {entry : String × SectionSource}
    (h : entry ∈ (assembler.fillPool request).tagSections) :
    entry ∈ assembler.builtSections request := by
  revert h
  unfold fillPool
  refine List.foldlRecOn (motive := fun st : PoolState => entry ∈ st.tagSections →
    entry ∈ assembler.builtSections request) _ _ (fun h => by cases h) ?_
  intro st ih item hitem h
  unfold fillStep at h
  split at h
  next tag source hkey =>
    split_ifs at h
    · exact ih h
    · exact ih h
    · rcases Entries.mem_set h with rfl | h
      · have hmem := (orderByDesc_perm _).mem_iff.mp hitem
        rcases List.mem_append.mp hmem with hmem | hmem
        · obtain ⟨built, hbuilt, rfl⟩ := List.mem_map.mp hmem
          cases hkey
          exact hbuilt
        · obtain ⟨i, hi, rfl⟩ := List.mem_mapIdx.mp hmem
          cases hkey
      · exact ih h
  next i hkey =>
    split_ifs at h <;> exact ih h

theorem mem_sortedTags_of_mem_fillPool {entry : String × SectionSource}
    (h : entry ∈ (assembler.fillPool request).tagSections) :
    entry.1 ∈ assembler.sortedTags request := by
  obtain ⟨tag, htag, heq⟩ := List.mem_filterMap.mp (assembler.mem_fillPool request h)
  obtain ⟨source, -, rfl⟩ := Option.map_eq_some_iff.mp heq
  exact htag

theorem nodup_fillPool : (assembler.fillPool request).tagSections.keys.Nodup := by
  unfold fillPool
  refine List.foldlRecOn (motive := fun st : PoolState => st.tagSections.keys.Nodup) _ _
    List.nodup_nil ?_
  intro st ih item _
  unfold fillStep
  split <;> split_ifs
  · exact ih
  · exact ih
  · exact Entries.nodup_set ih _ _
  · exact ih
  · exact ih
  · exact ih

/-! ## The hard cap -/

/-- The selected sections of the first tags by priority. -/
def leading (k : Nat) : Entries String SectionSource :=
  (assembler.fillPool request).tagSections.filter fun entry =>
    entry.1 ∈ (assembler.sortedTags request).take k

/-- The text with these sections is within the budget. -/
def Fits (tagSections : Entries String SectionSource) : Prop :=
  assembler.tokenCounter (assembler.prependText request tagSections) ≤ request.tokenBudget

theorem leading_zero : assembler.leading request 0 = [] := by
  simp [leading]

theorem leading_length :
    assembler.leading request (assembler.sortedTags request).length =
      (assembler.fillPool request).tagSections := by
  rw [leading, List.take_length]
  refine List.filter_eq_self.mpr fun entry hentry => ?_
  simpa using assembler.mem_sortedTags_of_mem_fillPool request hentry

/-- Without the last of the first tags. -/
theorem filter_leading {k : Nat} (hk : k < (assembler.sortedTags request).length) :
    (assembler.leading request (k + 1)).filter (·.1 ≠ (assembler.sortedTags request)[k]) =
      assembler.leading request k := by
  have hnot : (assembler.sortedTags request)[k] ∉ (assembler.sortedTags request).take k := by
    have hnodup := assembler.nodup_sortedTags request
    rw [← List.take_append_drop k (assembler.sortedTags request), List.drop_eq_getElem_cons hk,
      List.nodup_append] at hnodup
    intro hmem
    exact hnodup.2.2 _ hmem _ List.mem_cons_self rfl
  rw [leading, leading, List.filter_filter]
  refine List.filter_congr fun entry _ => ?_
  rw [List.take_succ_eq_append_getElem hk, Bool.eq_iff_iff]
  simp only [ne_eq, decide_not, Bool.and_eq_true, Bool.not_eq_true', decide_eq_false_iff_not,
    decide_eq_true_eq, List.mem_append, List.mem_singleton]
  constructor
  · rintro ⟨hne, hmem | heq⟩
    · exact hmem
    · exact absurd heq hne
  · exact fun hmem => ⟨fun heq => hnot (heq ▸ hmem), .inl hmem⟩

/-- What is left of the first `k` tags: the first `j`, of which no more would fit. -/
structure CappedAt (k j : Nat) (st : PrependState) : Prop where
  le : j ≤ k
  tagSections : st.tagSections = assembler.leading request j
  prependText : st.prependText = assembler.prependText request (assembler.leading request j)
  fits : assembler.Fits request (assembler.leading request j) ∨ assembler.leading request j = []
  longest : ∀ i, j < i → i ≤ k → ¬ assembler.Fits request (assembler.leading request i)

theorem cappedAt_dropTags {k : Nat} (hk : k ≤ (assembler.sortedTags request).length)
    {st : PrependState} (hsections : st.tagSections = assembler.leading request k)
    (htext : st.prependText = assembler.prependText request (assembler.leading request k))
    (hnot : ¬ assembler.Fits request (assembler.leading request k)) :
    ∃ j, assembler.CappedAt request k j
      (assembler.dropTags request ((assembler.sortedTags request).take k).reverse st) := by
  induction k generalizing st with
  | zero =>
      refine ⟨0, Nat.le_refl 0, hsections, htext, .inr (assembler.leading_zero request), ?_⟩
      intro i hlt hle
      omega
  | succ k ih =>
      have hlater : ∀ {j st'}, assembler.CappedAt request k j st' →
          ∃ j, assembler.CappedAt request (k + 1) j st' := by
        rintro j st' ⟨hle, hsections', htext', hfits, hlongest⟩
        refine ⟨j, hle.trans (Nat.le_succ k), hsections', htext', hfits, fun i hlt hi => ?_⟩
        rcases Nat.lt_or_eq_of_le hi with hi | rfl
        · exact hlongest i hlt (Nat.le_of_lt_succ hi)
        · exact hnot
      have hfilter := assembler.filter_leading request hk
      rw [List.take_succ_eq_append_getElem hk, List.reverse_append, List.reverse_singleton,
        List.singleton_append, dropTags]
      cases hget : st.tagSections.get (assembler.sortedTags request)[k] with
      | none =>
          have hsame : assembler.leading request (k + 1) = assembler.leading request k := by
            rw [← hfilter, eq_comm, List.filter_eq_self]
            intro entry hentry
            have hkeys := Entries.get_eq_none_iff.mp hget
            rw [hsections] at hkeys
            have hne : entry.1 ≠ (assembler.sortedTags request)[k] :=
              fun heq => hkeys (heq ▸ List.mem_map_of_mem hentry)
            simpa using hne
          rw [hsame] at hsections htext hnot
          obtain ⟨j, hj⟩ := ih (Nat.le_of_lt hk) hsections htext hnot
          exact hlater hj
      | some source =>
          dsimp only
          rw [hsections, hfilter]
          split_ifs with hfits
          · exact ⟨k, Nat.le_succ k, rfl, rfl, .inl hfits, fun i hlt hle => by
              obtain rfl : i = k + 1 := by omega
              exact hnot⟩
          · obtain ⟨j, hj⟩ := @ih (Nat.le_of_lt hk)
              { tagSections := assembler.leading request k
                tagTokens := st.tagTokens - assembler.tokenCounter
                  (assembler.formatSection (assembler.sortedTags request)[k] source)
                prependText := assembler.prependText request (assembler.leading request k) }
              rfl rfl hfits
            exact hlater hj

theorem cappedAt_hardCap : ∃ j, assembler.CappedAt request
    (assembler.sortedTags request).length j (assembler.hardCap request) := by
  have hall := assembler.leading_length request
  have htext : assembler.prependText request (assembler.fillPool request).tagSections =
      assembler.prependText request
        (assembler.leading request (assembler.sortedTags request).length) := by rw [hall]
  unfold hardCap
  dsimp only
  split_ifs with hover
  · have hdrop := @cappedAt_dropTags assembler request _ (Nat.le_refl _)
      { tagSections := (assembler.fillPool request).tagSections
        tagTokens := (assembler.fillPool request).tagTokens
        prependText := assembler.prependText request (assembler.fillPool request).tagSections }
      hall.symm htext (by rw [hall]; exact Int.not_le.mpr hover)
    rwa [List.take_length] at hdrop
  · refine ⟨_, Nat.le_refl _, hall.symm, htext, .inl ?_, fun i hlt hle => ?_⟩
    · rw [hall]
      exact Int.not_lt.mp hover
    · omega

/-- The tag is one of the first whose selected sections fit. -/
def Stays (tag : String) : Prop :=
  ∃ k ≤ (assembler.sortedTags request).length,
    assembler.Fits request (assembler.leading request k) ∧
      tag ∈ (assembler.sortedTags request).take k

/-- Of the selected sections those stay that are among the first that fit. -/
theorem mem_hardCap_iff {entry : String × SectionSource} :
    entry ∈ (assembler.hardCap request).tagSections ↔
      entry ∈ (assembler.fillPool request).tagSections ∧ assembler.Stays request entry.1 := by
  obtain ⟨j, hj⟩ := assembler.cappedAt_hardCap request
  have hleading : ∀ i, entry ∈ assembler.leading request i ↔
      entry ∈ (assembler.fillPool request).tagSections ∧
        entry.1 ∈ (assembler.sortedTags request).take i := by
    intro i
    rw [leading, List.mem_filter, decide_eq_true_eq]
  rw [hj.tagSections, hleading]
  refine and_congr_right fun hmem => ⟨fun htake => ?_, ?_⟩
  · refine ⟨j, hj.le, hj.fits.resolve_right fun hnil => ?_, htake⟩
    have hentry := (hleading j).mpr ⟨hmem, htake⟩
    rw [hnil] at hentry
    cases hentry
  · rintro ⟨k, hk, hfits, htake⟩
    have hkj : k ≤ j := by
      by_contra hlt
      exact hj.longest k (Nat.not_le.mp hlt) hk hfits
    exact (List.take_subset_take_left _ hkj) htake

/-- A section that stays is in the text. -/
theorem infix_prependText {entry : String × SectionSource}
    (h : entry ∈ (assembler.hardCap request).tagSections) :
    (assembler.formatSection entry.1 entry.2).toList <:+:
      (assembler.hardCap request).prependText.toList := by
  obtain ⟨j, hj⟩ := assembler.cappedAt_hardCap request
  obtain ⟨hmem, -⟩ := (assembler.mem_hardCap_iff request).mp h
  rw [hj.tagSections] at h
  have hnodup : (assembler.leading request j).keys.Nodup :=
    (List.filter_sublist.map Prod.fst).nodup (assembler.nodup_fillPool request)
  have hget : (assembler.leading request j).get entry.1 = some entry.2 :=
    Entries.get_of_mem hnodup h
  rw [hj.prependText, prependText, String.toList_intercalate]
  refine infix_intercalate (List.mem_map_of_mem ?_)
  refine List.mem_append_left _ (List.mem_append_right _ (List.mem_filterMap.mpr ⟨entry.1, ?_, ?_⟩))
  · exact assembler.mem_sortedTags_of_mem_fillPool request hmem
  · rw [hget, Option.map_some]

/-! ## The references -/

/-- A summary or a full segment of the tag has the reference. -/
def Carries (tag ref : String) : Prop :=
  (∃ s ∈ request.retrieval.summaries, s.primaryTag = tag ∧ s.ref = ref) ∨
    ∃ entry ∈ request.fullSegments, entry.1 = tag ∧ ∃ seg ∈ entry.2, seg.ref = ref

theorem mem_presentedRefs_iff {tagSections : Entries String SectionSource} {ref : String} :
    ref ∈ presentedRefs request tagSections ↔
      ref ≠ "" ∧ ∃ entry ∈ tagSections, Carries request entry.1 ref := by
  simp only [presentedRefs, mem_appendMissing, List.not_mem_nil, false_or, List.mem_append,
    List.mem_map, List.mem_filter, decide_eq_true_eq, List.mem_flatMap, Entries.keys]
  constructor
  · rintro (⟨s, ⟨hs, ⟨entry, hentry, htag⟩, hne⟩, rfl⟩ |
      ⟨⟨seg, ⟨full, ⟨hfull, entry, hentry, htag⟩, hseg⟩, rfl⟩, hne⟩)
    · exact ⟨hne, entry, hentry, .inl ⟨s, hs, htag.symm, rfl⟩⟩
    · exact ⟨hne, entry, hentry, .inr ⟨full, hfull, htag.symm, seg, hseg, rfl⟩⟩
  · rintro ⟨hne, entry, hentry, ⟨s, hs, htag, rfl⟩ | ⟨full, hfull, htag, seg, hseg, rfl⟩⟩
    · exact .inl ⟨s, ⟨hs, ⟨entry, hentry, htag.symm⟩, hne⟩, rfl⟩
    · exact .inr ⟨⟨seg, ⟨full, ⟨hfull, entry, hentry, htag.symm⟩, hseg⟩, rfl⟩, hne⟩

/-- What a selected tag carries is rendered by a section that stays. -/
def RendersCarried : Prop :=
  ∀ entry ∈ (assembler.fillPool request).tagSections, ∀ ref, ref ≠ "" →
    Carries request entry.1 ref →
      ∃ other ∈ (assembler.fillPool request).tagSections, assembler.Stays request other.1 ∧
        ref ∈ other.2.refs

/-- The presented references are in the text exactly if none that is carried is lost. -/
theorem presented_are_rendered_iff :
    ((∀ ref ∈ (assembler.assemble request).presentedSegmentRefs,
        ∃ entry ∈ (assembler.assemble request).tagSections, ref ∈ entry.2.refs ∧
          (assembler.formatSection entry.1 entry.2).toList <:+:
            (assembler.assemble request).prependText.toList) ↔
      assembler.RendersCarried request) ∧
    (assembler.tokenCounter (assembler.assemble request).prependText ≤ request.tokenBudget ∨
      (assembler.assemble request).tagSections = [] ∧
        (assembler.assemble request).prependText = assembler.prependText request []) := by
  have hrefs : ∀ ref, ref ∈ (assembler.assemble request).presentedSegmentRefs ↔
      ref ≠ "" ∧ ∃ entry ∈ (assembler.fillPool request).tagSections,
        Carries request entry.1 ref := fun ref => mem_presentedRefs_iff request
  have hsections : (assembler.assemble request).tagSections =
      (assembler.hardCap request).tagSections := rfl
  have htext : (assembler.assemble request).prependText =
      (assembler.hardCap request).prependText := rfl
  rw [hsections, htext]
  refine ⟨⟨fun h entry hentry ref hne hcarries => ?_, fun h ref href => ?_⟩, ?_⟩
  · obtain ⟨other, hother, hmem, -⟩ := h ref ((hrefs ref).mpr ⟨hne, entry, hentry, hcarries⟩)
    obtain ⟨hselected, hstays⟩ := (assembler.mem_hardCap_iff request).mp hother
    exact ⟨other, hselected, hstays, hmem⟩
  · obtain ⟨hne, entry, hentry, hcarries⟩ := (hrefs ref).mp href
    obtain ⟨other, hselected, hstays, hmem⟩ := h entry hentry ref hne hcarries
    have hother := (assembler.mem_hardCap_iff request).mpr ⟨hselected, hstays⟩
    exact ⟨other, hother, hmem, assembler.infix_prependText request hother⟩
  · obtain ⟨j, hj⟩ := assembler.cappedAt_hardCap request
    rw [hj.prependText, hj.tagSections]
    rcases hj.fits with hfits | hnil
    · exact .inl hfits
    · exact .inr ⟨hnil, by rw [hnil]⟩

/-! ## A dropped section -/

/-- An assembler that counts characters. -/
def counting : ContextAssembler where
  config := { contextInjectionMaxTokens := 1000 }
  tokenCounter := fun text => text.length
  tagPriority := fun _ => 5
  toolOutputs := fun _ => none
  text :=
    { lower := id, upper := id, isWordChar := fun _ => false, parseInt := fun _ => none
      parseFloat := fun _ => none, str := fun _ => "" }
  recency := fun _ => 0

/-- A budget below the length of the only section. -/
def smallBudget : AssembleRequest where
  retrieval := { summaries := [{ ref := "r", primaryTag := "t", summary := "s" }] }
  tokenBudget := 10

/-- The reference of a section that was dropped is presented. -/
theorem dropped_is_presented :
    ¬ ∀ ref ∈ (counting.assemble smallBudget).presentedSegmentRefs,
      ∃ entry ∈ (counting.assemble smallBudget).tagSections, ref ∈ entry.2.refs ∧
        (counting.formatSection entry.1 entry.2).toList <:+:
          (counting.assemble smallBudget).prependText.toList := by
  have hrefs : (counting.assemble smallBudget).presentedSegmentRefs = ["r"] := by decide +kernel
  have hnone : (counting.assemble smallBudget).tagSections = [] := by decide +kernel
  rw [hrefs, hnone]
  simp

end ContextAssembler

end VirtualContext
