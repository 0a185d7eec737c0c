import VirtualContext.Core.TagConsolidator
import VirtualContext.Library.Reach

/-!
# Flat aliases

When the aliases that are stored lead in one step from every tag of a group to
one common tag, run after run.
-/

namespace VirtualContext

open VirtualContext.Library

/-! ## What the groups connect -/

/-- Each alias of a group with its canonical tag. -/
def groupPairs (groups : List ConsolidationGroup) : List (String × String) :=
  groups.flatMap fun group => group.aliases.map fun tag => (tag, group.canonical)

/-- Two tags that the groups connect, transitively. -/
def ConnectedTags (groups : List ConsolidationGroup) : String → String → Prop :=
  Parents.Connected (groupPairs groups)

/-- The parents after some pairs were joined. -/
def Joined (pairs : List (String × String)) (parents : Parents String) : Prop :=
  ∃ root, Parents.Rooted parents root ∧ Parents.Classifies root pairs

theorem Joined.register {pairs : List (String × String)} {parents : Parents String}
    (h : Joined pairs parents) (tag : String) : Joined pairs (parents.register tag) := by
  obtain ⟨root, hrooted, hclassifies⟩ := h
  exact ⟨root, hrooted.register tag, hclassifies⟩

theorem Joined.joinAlias {pairs : List (String × String)} {parents : Parents String}
    (h : Joined pairs parents) (canonical tag : String) :
    Joined (pairs ++ [(tag, canonical)]) (joinAlias canonical parents tag) := by
  obtain ⟨root, hrooted, hclassifies⟩ := h.register tag
  exact ⟨_, hrooted.union tag canonical, hclassifies.join tag canonical⟩

theorem Joined.joinGroup {pairs : List (String × String)} {parents : Parents String}
    (h : Joined pairs parents) (group : ConsolidationGroup) :
    Joined (pairs ++ group.aliases.map fun tag => (tag, group.canonical))
      (joinGroup parents group) := by
  have hfold (aliases : List String) (pairs : List (String × String))
      (parents : Parents String) (h : Joined pairs parents) :
      Joined (pairs ++ aliases.map fun tag => (tag, group.canonical))
        (aliases.foldl (VirtualContext.joinAlias group.canonical) parents) := by
    induction aliases generalizing pairs parents with
    | nil => simpa using h
    | cons tag aliases ih =>
        have hrest := ih _ _ (h.joinAlias group.canonical tag)
        rwa [List.append_assoc] at hrest
  exact hfold _ _ _ (h.register group.canonical)

theorem Joined.of_groups (groups : List ConsolidationGroup) :
    Joined (groupPairs groups) (groups.foldl VirtualContext.joinGroup []) := by
  have hfold (groups : List ConsolidationGroup) (pairs : List (String × String))
      (parents : Parents String) (h : Joined pairs parents) :
      Joined (pairs ++ groupPairs groups)
        (groups.foldl VirtualContext.joinGroup parents) := by
    induction groups generalizing pairs parents with
    | nil => simpa [groupPairs] using h
    | cons group groups ih =>
        have hrest := ih _ _ (h.joinGroup group)
        rwa [List.append_assoc] at hrest
  exact hfold groups [] [] ⟨id, .nil, .nil⟩

/-! ## Clusters -/

/-- The tags by their roots. -/
structure Clusters (root : String → String) (tags : List String)
    (clusters : Entries String (List String)) : Prop where
  nodup : (Entries.keys clusters).Nodup
  members : ∀ r, (clusters.get r).getD [] = tags.filter (root · = r)
  nonempty : ∀ r, clusters.get r ≠ some []

section

variable {root : String → String} {tags : List String}
  {clusters : Entries String (List String)}

theorem Clusters.nil : Clusters root [] [] :=
  ⟨List.nodup_nil, fun _ => rfl, fun _ => by simp [Entries.get]⟩

theorem Clusters.add (h : Clusters root tags clusters) (tag : String) :
    Clusters root (tags ++ [tag])
      (clusters.set (root tag) ((clusters.get (root tag)).getD [] ++ [tag])) := by
  refine ⟨Entries.nodup_set h.nodup _ _, fun r => ?_, fun r => ?_⟩
  · rw [Entries.get_set, List.filter_append, List.filter_singleton]
    by_cases hr : root tag = r
    · simp [hr, ← h.members]
    · simp [hr, h.members]
  · rw [Entries.get_set]
    split_ifs
    · simp
    · exact h.nonempty r

theorem Clusters.mem (h : Clusters root tags clusters) {r : String} {members : List String}
    (hmem : (r, members) ∈ clusters) : members = tags.filter (root · = r) := by
  have hget := Entries.get_of_mem h.nodup hmem
  rw [← h.members, hget, Option.getD_some]

theorem Clusters.found (h : Clusters root tags clusters) {tag : String} (htag : tag ∈ tags) :
    (root tag, tags.filter (root · = root tag)) ∈ clusters := by
  have hmem : tag ∈ tags.filter (root · = root tag) := List.mem_filter.mpr ⟨htag, by simp⟩
  rw [← h.members] at hmem ⊢
  cases hget : clusters.get (root tag) with
  | none => simp [hget] at hmem
  | some members => exact Entries.mem_of_get hget

theorem collectClusters_spec {parents : Parents String}
    (h : Parents.Rooted parents root) (tags : List String) :
    Clusters root tags (collectClusters parents tags).2 := by
  have hfold (rest done : List String) (parents : Parents String)
      (clusters : Entries String (List String)) (hrooted : Parents.Rooted parents root)
      (hclusters : Clusters root done clusters) :
      Clusters root (done ++ rest)
        (rest.foldl (fun (found : Parents String × Entries String (List String)) tag =>
          ((found.1.find tag).2, found.2.set (found.1.find tag).1
            ((found.2.get (found.1.find tag).1).getD [] ++ [tag])))
          (parents, clusters)).2 := by
    induction rest generalizing done parents clusters with
    | nil => simpa using hclusters
    | cons tag rest ih =>
        obtain ⟨hroot, hfound⟩ := hrooted.find tag
        have hrest := ih (done ++ [tag]) _ _ hfound (hclusters.add tag)
        simpa [hroot] using hrest
  exact hfold tags [] parents [] h .nil

end

/-! ## Merged groups -/

theorem mem_tagsInGroups {groups : List ConsolidationGroup} {tag : String} :
    tag ∈ tagsInGroups groups ↔ ∃ group ∈ groups, tag ∈ group.tags := by
  simp [tagsInGroups]

theorem mem_groupPairs {groups : List ConsolidationGroup} {tag canonical : String} :
    (tag, canonical) ∈ groupPairs groups ↔
      ∃ group ∈ groups, tag ∈ group.aliases ∧ group.canonical = canonical := by
  simp [groupPairs]

/-- Groups connect only tags that they list. -/
theorem ConnectedTags.mem {groups : List ConsolidationGroup} {x y : String}
    (h : ConnectedTags groups x y) (hne : x ≠ y) :
    x ∈ tagsInGroups groups ∧ y ∈ tagsInGroups groups := by
  have hor : x = y ∨ (x ∈ tagsInGroups groups ∧ y ∈ tagsInGroups groups) := by
    clear hne
    induction h with
    | rel x y hmem =>
        obtain ⟨group, hgroup, htag, rfl⟩ := mem_groupPairs.mp hmem
        exact .inr ⟨mem_tagsInGroups.mpr ⟨group, hgroup, List.mem_cons_of_mem _ htag⟩,
          mem_tagsInGroups.mpr ⟨group, hgroup, List.mem_cons_self⟩⟩
    | refl x => exact .inl rfl
    | symm x y _ ih => exact ih.imp Eq.symm And.symm
    | trans x y z _ _ ih ih' =>
        rcases ih with rfl | ⟨hx, hy⟩
        · exact ih'
        · rcases ih' with rfl | ⟨-, hz⟩
          · exact .inr ⟨hx, hy⟩
          · exact .inr ⟨hx, hz⟩
  exact hor.resolve_left hne

theorem pickCanonical_mem {groups : List ConsolidationGroup} {members : List String}
    {best : String} (h : pickCanonical groups members = some best) : best ∈ members := by
  cases members with
  | nil => cases h
  | cons first members =>
      obtain rfl := Option.some.inj h
      refine List.foldlRecOn members _ List.mem_cons_self fun best hbest tag htag => ?_
      split_ifs
      · exact List.mem_cons_of_mem _ htag
      · exact hbest

/-- What the merged groups are: the classes of two or more connected tags. -/
structure MergedFrom (groups merged : List ConsolidationGroup) : Prop where
  split : ∀ group ∈ merged, group.canonical ∉ group.aliases ∧ group.aliases ≠ []
  connected : ∀ group ∈ merged, ∀ tag,
    tag ∈ group.tags ↔ ConnectedTags groups group.canonical tag
  covers : ∀ x y, ConnectedTags groups x y → x ≠ y → ∃ group ∈ merged, x ∈ group.tags
  distinct : ∀ group ∈ merged, ∀ other ∈ merged, ∀ tag,
    tag ∈ group.tags → tag ∈ other.tags → group = other

/-- A merged group has the tags of its cluster. -/
theorem mergeCluster_spec {setOrder : SetOrder} {groups : List ConsolidationGroup}
    {reasons : Entries String (List String)} {cluster : String × List String}
    {group : ConsolidationGroup} (hnodup : cluster.2.Nodup)
    (h : mergeCluster setOrder groups reasons cluster = some group) :
    group.canonical ∉ group.aliases ∧ group.aliases ≠ [] ∧
      group.canonical ∈ cluster.2 ∧ ∀ tag, tag ∈ group.tags ↔ tag ∈ cluster.2 := by
  unfold mergeCluster at h
  split_ifs at h with hsingle
  obtain ⟨best, hpick, rfl⟩ := Option.map_eq_some_iff.mp h
  have hbest : best ∈ cluster.2 := (setOrder.perm _).mem_iff.mp (pickCanonical_mem hpick)
  refine ⟨by simp, ?_, hbest, fun tag => ?_⟩
  · intro hnil
    have hall : ∀ tag ∈ cluster.2, tag = best := by
      intro tag htag
      by_contra hne
      have hmem : tag ∈ orderBy String.toList (cluster.2.filter (· ≠ best)) := by
        simp [htag, hne]
      exact List.ne_nil_of_mem hmem hnil
    have hreplicate := List.eq_replicate_of_mem hall
    rw [hreplicate, List.nodup_replicate] at hnodup
    exact hsingle hnodup
  · simp only [ConsolidationGroup.tags, List.mem_cons, mem_orderBy, List.mem_filter,
      decide_eq_true_eq]
    constructor
    · rintro (rfl | ⟨hmem, -⟩)
      · exact hbest
      · exact hmem
    · intro hmem
      by_cases heq : tag = best
      · exact .inl heq
      · exact .inr ⟨hmem, heq⟩

theorem mergeCluster_isSome (setOrder : SetOrder) (groups : List ConsolidationGroup)
    (reasons : Entries String (List String)) {cluster : String × List String}
    {x y : String} (hx : x ∈ cluster.2) (hy : y ∈ cluster.2) (hne : x ≠ y) :
    ∃ group, mergeCluster setOrder groups reasons cluster = some group := by
  have hlength : ¬ cluster.2.length ≤ 1 := by
    intro hle
    obtain ⟨i, hi, rfl⟩ := List.getElem_of_mem hx
    obtain ⟨j, hj, rfl⟩ := List.getElem_of_mem hy
    obtain rfl : i = j := by omega
    exact hne rfl
  have horder : setOrder.order cluster.2 ≠ [] :=
    List.ne_nil_of_mem ((setOrder.perm _).mem_iff.mpr hx)
  obtain ⟨first, members, heq⟩ := List.exists_cons_of_ne_nil horder
  simp [mergeCluster, hlength, heq, pickCanonical]

theorem mergeTransitiveGroups_spec (setOrder : SetOrder)
    (groups : List ConsolidationGroup) :
    MergedFrom groups (mergeTransitiveGroups setOrder groups) := by
  obtain ⟨root, hrooted, hclassifies⟩ := Joined.of_groups groups
  have hclusters := collectClusters_spec hrooted (setOrder.order (tagsInGroups groups))
  have hmem_tags (tag : String) : tag ∈ setOrder.order (tagsInGroups groups) ↔
      tag ∈ tagsInGroups groups := (setOrder.perm _).mem_iff
  have hnodup : (setOrder.order (tagsInGroups groups)).Nodup :=
    (setOrder.perm _).nodup_iff.mpr (List.nodup_dedup _)
  obtain ⟨reasons, hdef⟩ : ∃ reasons, mergeTransitiveGroups setOrder groups =
      (collectClusters (groups.foldl joinGroup [])
        (setOrder.order (tagsInGroups groups))).2.filterMap
          (mergeCluster setOrder groups reasons) := ⟨_, rfl⟩
  rw [hdef]
  -- a merged group comes from the cluster of one root
  have hmerged (group : ConsolidationGroup)
      (hgroup : group ∈ (collectClusters (groups.foldl joinGroup [])
        (setOrder.order (tagsInGroups groups))).2.filterMap
          (mergeCluster setOrder groups reasons)) :
      mergeCluster setOrder groups reasons (root group.canonical,
          (setOrder.order (tagsInGroups groups)).filter
            (root · = root group.canonical)) = some group ∧
        group.canonical ∉ group.aliases ∧ group.aliases ≠ [] ∧
        ∀ tag, tag ∈ group.tags ↔
          tag ∈ tagsInGroups groups ∧ root tag = root group.canonical := by
    obtain ⟨⟨r, members⟩, hcluster, hmerge⟩ := List.mem_filterMap.mp hgroup
    obtain rfl := hclusters.mem hcluster
    obtain ⟨hsplit, hmore, hcanonical, htags⟩ :=
      mergeCluster_spec (hnodup.sublist List.filter_sublist) hmerge
    have hroot : root group.canonical = r := by
      simpa using (List.mem_filter.mp hcanonical).2
    subst hroot
    refine ⟨hmerge, hsplit, hmore, fun tag => ?_⟩
    rw [htags, List.mem_filter, hmem_tags, decide_eq_true_eq]
  refine ⟨?_, ?_, ?_, ?_⟩
  · intro group hgroup
    obtain ⟨-, hsplit, hmore, -⟩ := hmerged group hgroup
    exact ⟨hsplit, hmore⟩
  · intro group hgroup tag
    obtain ⟨-, -, -, htags⟩ := hmerged group hgroup
    rw [htags]
    constructor
    · rintro ⟨-, hroot⟩
      exact (hclassifies _ _).mp hroot.symm
    · intro hconnected
      refine ⟨?_, ((hclassifies _ _).mpr hconnected).symm⟩
      by_cases heq : group.canonical = tag
      · exact heq ▸ ((htags group.canonical).mp List.mem_cons_self).1
      · exact (ConnectedTags.mem hconnected heq).2
  · intro x y hconnected hne
    obtain ⟨hx, hy⟩ := ConnectedTags.mem hconnected hne
    have hroot : root x = root y := (hclassifies x y).mpr hconnected
    have hcluster := hclusters.found ((hmem_tags x).mpr hx)
    obtain ⟨group, hmerge⟩ : ∃ group, mergeCluster setOrder groups reasons (root x,
        (setOrder.order (tagsInGroups groups)).filter (root · = root x)) = some group :=
      mergeCluster_isSome setOrder groups reasons
        (List.mem_filter.mpr ⟨(hmem_tags x).mpr hx, by simp⟩)
        (List.mem_filter.mpr ⟨(hmem_tags y).mpr hy, by simp [hroot]⟩) hne
    have hgroup := List.mem_filterMap.mpr ⟨_, hcluster, hmerge⟩
    have hspec := mergeCluster_spec (hnodup.sublist List.filter_sublist) hmerge
    exact ⟨group, hgroup, (hspec.2.2.2 x).mpr
      (List.mem_filter.mpr ⟨(hmem_tags x).mpr hx, by simp⟩)⟩
  · intro group hgroup other hother tag htag htag'
    obtain ⟨hmerge, -, -, htags⟩ := hmerged group hgroup
    obtain ⟨hmerge', -, -, htags'⟩ := hmerged other hother
    have hroot := ((htags tag).mp htag).2.symm.trans ((htags' tag).mp htag').2
    rw [hroot, hmerge'] at hmerge
    exact (Option.some.inj hmerge).symm

/-! ## What is written -/

section

variable {existing : TagAliases}

/-- The pairs that are written, one after another. -/
def writePairs (existing : TagAliases) (pairs : List (String × String))
    (written : Nat × TagAliases) : Nat × TagAliases :=
  pairs.foldl (fun written pair => writeAlias existing pair.2 written pair.1) written

theorem writeAliases_eq (groups : List ConsolidationGroup) (aliases : TagAliases) :
    writeAliases groups aliases = writePairs aliases (groupPairs groups) (0, aliases) := by
  simp [writeAliases, writePairs, groupPairs, List.foldl_flatMap, List.foldl_map]

theorem writeAlias_get_of_ne (canonical : String) (written : Nat × TagAliases)
    {tag other : String} (h : tag ≠ other) :
    (writeAlias existing canonical written tag).2.get other = written.2.get other := by
  unfold writeAlias
  split_ifs
  · rfl
  · rw [Entries.get_set, if_neg h]

theorem writeAlias_of_existing (canonical : String) (written : Nat × TagAliases)
    {tag : String} (h : existing.get tag ≠ none) :
    writeAlias existing canonical written tag = written :=
  if_pos (Option.isSome_iff_ne_none.mpr h)

/-- An alias that exists, or is in no pair, is left alone. -/
theorem writePairs_get_of_kept {pairs : List (String × String)}
    (written : Nat × TagAliases) {tag : String}
    (h : existing.get tag ≠ none ∨ ∀ pair ∈ pairs, pair.1 ≠ tag) :
    (writePairs existing pairs written).2.get tag = written.2.get tag := by
  refine List.foldlRecOn (motive := fun step : Nat × TagAliases => step.2.get tag = written.2.get tag)
    pairs _ rfl fun step hstep pair hpair => ?_
  rw [← hstep]
  by_cases heq : pair.1 = tag
  · rcases h with hexists | hnone
    · subst heq
      rw [writeAlias_of_existing _ _ hexists]
    · exact absurd heq (hnone pair hpair)
  · exact writeAlias_get_of_ne _ _ heq

/-- A new alias gets the canonical tag of its pairs. -/
theorem writePairs_get_of_new {pairs : List (String × String)}
    (written : Nat × TagAliases) {tag canonical : String} (hnew : existing.get tag = none)
    (hmem : (tag, canonical) ∈ pairs)
    (honly : ∀ pair ∈ pairs, pair.1 = tag → pair.2 = canonical) :
    (writePairs existing pairs written).2.get tag = some canonical := by
  obtain ⟨before, after, rfl⟩ := List.append_of_mem hmem
  have hafter : ∀ pair ∈ after, pair.1 = tag → pair.2 = canonical := fun pair hpair =>
    honly pair (by simp [hpair])
  rw [writePairs, List.foldl_append, List.foldl_cons]
  refine List.foldlRecOn (motive := fun step : Nat × TagAliases => step.2.get tag = some canonical)
    after _ ?_ fun step hstep pair hpair => ?_
  · simp [writeAlias, hnew, Entries.get_set]
  · by_cases heq : pair.1 = tag
    · simp [writeAlias, heq, hnew, Entries.get_set, hafter pair hpair heq]
    · rw [writeAlias_get_of_ne _ _ heq]
      exact hstep

end

/-! ## Runs that keep the aliases flat -/

/-- No alias leads to an alias, so one step leads to the end. -/
structure Flat (aliases : TagAliases) : Prop where
  acyclic : ∀ tag n, hop aliases.get (n + 1) tag ≠ some tag
  canonical : ∀ tag canonical, aliases.get tag = some canonical →
    aliases.get canonical = none

theorem Flat.of_canonical {aliases : TagAliases}
    (h : ∀ tag canonical, aliases.get tag = some canonical →
      aliases.get canonical = none) : Flat aliases := by
  refine ⟨fun tag n hback => ?_, h⟩
  cases hget : aliases.get tag with
  | none => simp [hop, hget] at hback
  | some canonical =>
      have hend : EndsAt aliases.get tag 1 canonical := ⟨by simp [hop, hget], h _ _ hget⟩
      exact hend.not_revisits (n + 1)
        ⟨0, n + 1, by omega, Nat.le_refl _, tag, hop_zero, hback⟩

/-- The tags that one run connects lead in one step to one of them. -/
structure KeepsFlat (aliases : TagAliases) (run : ConsolidationRun) : Prop where
  flat : Flat (consolidateTags run aliases).2
  unifies : run.dryRun = false → ∀ groups ∈ run.allGroups, ∀ tag, ∃ common,
    ∀ other, ConnectedTags groups tag other →
      other = common ∨ (consolidateTags run aliases).2.get other = some common

/--
A merged group whose canonical tag is no alias, whose stored aliases are its own
and whose new aliases are not canonical themselves; or whose tags are all
aliases of one tag.
-/
def FitsGroup (aliases : TagAliases) (group : ConsolidationGroup) : Prop :=
  (aliases.get group.canonical = none ∧
    ∀ tag ∈ group.aliases,
      (∀ canonical ∈ aliases.get tag, canonical = group.canonical) ∧
      (aliases.get tag = none → ∀ other, aliases.get other ≠ some tag)) ∨
    ∃ common, ∀ tag ∈ group.tags, aliases.get tag = some common

/-- The groups of a run fit the aliases of the runs before. -/
def Fits (aliases : TagAliases) (run : ConsolidationRun) : Prop :=
  run.dryRun = false → ∀ groups ∈ run.allGroups,
    ∀ group ∈ mergeTransitiveGroups run.setOrder groups, FitsGroup aliases group

section

variable {aliases : TagAliases} {groups merged : List ConsolidationGroup}

/-- A stored alias stays. -/
theorem writeAliases_kept (merged : List ConsolidationGroup) {tag : String}
    (h : aliases.get tag ≠ none) :
    (writeAliases merged aliases).2.get tag = aliases.get tag := by
  rw [writeAliases_eq]
  exact writePairs_get_of_kept _ (.inl h)

theorem writeAliases_none {tag : String}
    (h : ∀ group ∈ merged, tag ∉ group.aliases) :
    (writeAliases merged aliases).2.get tag = aliases.get tag := by
  rw [writeAliases_eq]
  refine writePairs_get_of_kept _ (.inr ?_)
  rintro ⟨other, canonical⟩ hpair rfl
  obtain ⟨group, hgroup, hmem, -⟩ := mem_groupPairs.mp hpair
  exact h group hgroup hmem

/-- A tag of one merged group becomes an alias of the canonical one. -/
theorem writeAliases_new (hmerged : MergedFrom groups merged)
    {group : ConsolidationGroup} (hgroup : group ∈ merged) {tag : String}
    (htag : tag ∈ group.aliases) (hnew : aliases.get tag = none) :
    (writeAliases merged aliases).2.get tag = some group.canonical := by
  rw [writeAliases_eq]
  refine writePairs_get_of_new _ hnew (mem_groupPairs.mpr ⟨group, hgroup, htag, rfl⟩) ?_
  rintro ⟨other, canonical⟩ hpair rfl
  obtain ⟨group', hgroup', hmem, rfl⟩ := mem_groupPairs.mp hpair
  rw [hmerged.distinct group hgroup group' hgroup' other (List.mem_cons_of_mem _ htag)
    (List.mem_cons_of_mem _ hmem)]

/-- What the aliases lead to after the writing. -/
theorem writeAliases_cases (hmerged : MergedFrom groups merged) {tag canonical : String}
    (h : (writeAliases merged aliases).2.get tag = some canonical) :
    aliases.get tag = some canonical ∨
      aliases.get tag = none ∧
        ∃ group ∈ merged, tag ∈ group.aliases ∧ group.canonical = canonical := by
  cases hget : aliases.get tag with
  | some old =>
      rw [writeAliases_kept merged (by simp [hget]), hget] at h
      exact .inl h
  | none =>
      by_cases hin : ∃ group ∈ merged, tag ∈ group.aliases
      · obtain ⟨group, hgroup, htag⟩ := hin
        rw [writeAliases_new hmerged hgroup htag hget] at h
        exact .inr ⟨rfl, group, hgroup, htag, Option.some.inj h⟩
      · push Not at hin
        rw [writeAliases_none hin, hget] at h
        cases h

/-- A canonical tag of the run is not made an alias by it. -/
theorem writeAliases_canonical (hmerged : MergedFrom groups merged)
    {group : ConsolidationGroup} (hgroup : group ∈ merged) :
    (writeAliases merged aliases).2.get group.canonical =
      aliases.get group.canonical := by
  refine writeAliases_none fun other hother hmem => ?_
  obtain rfl := hmerged.distinct group hgroup other hother group.canonical
    List.mem_cons_self (List.mem_cons_of_mem _ hmem)
  exact (hmerged.split group hgroup).1 hmem

theorem flat_of_fits (hflat : Flat aliases) (hmerged : MergedFrom groups merged)
    (h : ∀ group ∈ merged, FitsGroup aliases group) :
    Flat (writeAliases merged aliases).2 := by
  refine Flat.of_canonical fun tag canonical hget => ?_
  rcases writeAliases_cases hmerged hget with hold | ⟨hnew, group, hgroup, htag, rfl⟩
  · have hend := hflat.canonical tag canonical hold
    by_cases hin : ∃ group ∈ merged, canonical ∈ group.aliases
    · obtain ⟨group, hgroup, hmem⟩ := hin
      rcases h group hgroup with ⟨-, haliases⟩ | ⟨common, hcommon⟩
      · exact absurd hold ((haliases canonical hmem).2 hend tag)
      · rw [hcommon canonical (List.mem_cons_of_mem _ hmem)] at hend
        cases hend
    · push Not at hin
      rw [writeAliases_none hin]
      exact hend
  · rw [writeAliases_canonical hmerged hgroup]
    rcases h group hgroup with ⟨hcanonical, -⟩ | ⟨common, hcommon⟩
    · exact hcanonical
    · rw [hcommon tag (List.mem_cons_of_mem _ htag)] at hnew
      cases hnew

theorem unifies_of_fits (hmerged : MergedFrom groups merged)
    (h : ∀ group ∈ merged, FitsGroup aliases group) (tag : String) :
    ∃ common, ∀ other, ConnectedTags groups tag other →
      other = common ∨ (writeAliases merged aliases).2.get other = some common := by
  by_cases hsingle : ∀ other, ConnectedTags groups tag other → other = tag
  · exact ⟨tag, fun other hother => .inl (hsingle other hother)⟩
  push Not at hsingle
  obtain ⟨other, hother, hne⟩ := hsingle
  obtain ⟨group, hgroup, htag⟩ := hmerged.covers tag other hother hne.symm
  have hmembers (member : String) (hmember : ConnectedTags groups tag member) :
      member ∈ group.tags := by
    refine (hmerged.connected group hgroup member).mpr ?_
    exact ((hmerged.connected group hgroup tag).mp htag).trans _ _ _ hmember
  rcases h group hgroup with ⟨-, haliases⟩ | ⟨common, hcommon⟩
  · refine ⟨group.canonical, fun member hmember => ?_⟩
    rcases List.mem_cons.mp (hmembers member hmember) with rfl | hmem
    · exact .inl rfl
    · refine .inr ?_
      cases hget : aliases.get member with
      | none => exact writeAliases_new hmerged hgroup hmem hget
      | some canonical =>
          rw [writeAliases_kept merged (by simp [hget]), hget,
            (haliases member hmem).1 canonical hget]
  · refine ⟨common, fun member hmember => .inr ?_⟩
    have hget := hcommon member (hmembers member hmember)
    rw [writeAliases_kept merged (by simp [hget]), hget]

theorem fits_of_keepsFlat (hmerged : MergedFrom groups merged)
    (hflat : Flat (writeAliases merged aliases).2)
    (hunifies : ∀ tag, ∃ common, ∀ other, ConnectedTags groups tag other →
      other = common ∨ (writeAliases merged aliases).2.get other = some common)
    {group : ConsolidationGroup} (hgroup : group ∈ merged) :
    FitsGroup aliases group := by
  obtain ⟨common, hcommon⟩ := hunifies group.canonical
  have hreach (tag : String) (htag : tag ∈ group.tags) :
      tag = common ∨ (writeAliases merged aliases).2.get tag = some common :=
    hcommon tag ((hmerged.connected group hgroup tag).mp htag)
  cases hcanonical : aliases.get group.canonical with
  | none =>
      -- the canonical tag stays the end of its chain, so it is the common tag
      have hend : (writeAliases merged aliases).2.get group.canonical = none := by
        rw [writeAliases_canonical hmerged hgroup, hcanonical]
      have heq : group.canonical = common :=
        (hreach group.canonical List.mem_cons_self).resolve_right (by simp [hend])
      refine .inl ⟨hcanonical, fun tag htag => ⟨fun canonical hget => ?_, ?_⟩⟩
      · have hne : tag ≠ common := by
          rintro rfl
          exact (hmerged.split group hgroup).1 (heq ▸ htag)
        have hafter := (hreach tag (List.mem_cons_of_mem _ htag)).resolve_left hne
        rw [writeAliases_kept merged (by simp [Option.mem_def.mp hget]),
          Option.mem_def.mp hget] at hafter
        rw [heq]
        exact Option.some.inj hafter
      · intro hnew other hother
        have hafter : (writeAliases merged aliases).2.get other = some tag := by
          rw [writeAliases_kept merged (by simp [hother]), hother]
        have hnone := hflat.canonical other tag hafter
        rw [writeAliases_new hmerged hgroup htag hnew] at hnone
        cases hnone
  | some old =>
      -- nothing can be an alias of the canonical tag, so nothing is written
      have hexists (tag : String) (htag : tag ∈ group.tags) : aliases.get tag ≠ none := by
        intro hnew
        rcases List.mem_cons.mp htag with rfl | hmem
        · simp [hcanonical] at hnew
        · have hend := hflat.canonical tag group.canonical
            (writeAliases_new hmerged hgroup hmem hnew)
          rw [writeAliases_canonical hmerged hgroup, hcanonical] at hend
          cases hend
      have hafter (tag : String) (htag : tag ∈ group.tags) :
          tag = common ∨ aliases.get tag = some common := by
        rw [← writeAliases_kept merged (hexists tag htag)]
        exact hreach tag htag
      refine .inr ⟨common, fun tag htag => (hafter tag htag).resolve_left ?_⟩
      rintro rfl
      -- then another tag of the group would lead to this alias
      obtain ⟨first, hfirst⟩ := List.exists_mem_of_ne_nil _ (hmerged.split group hgroup).2
      have hother : ∃ other ∈ group.tags, other ≠ tag := by
        by_cases heq : first = tag
        · refine ⟨group.canonical, List.mem_cons_self, ?_⟩
          rintro hsame
          exact (hmerged.split group hgroup).1 (hsame ▸ heq ▸ hfirst)
        · exact ⟨first, List.mem_cons_of_mem _ hfirst, heq⟩
      obtain ⟨other, hother, hne⟩ := hother
      have hlead := (hreach other hother).resolve_left hne
      have hend := hflat.canonical other tag hlead
      rw [writeAliases_kept merged (hexists tag htag)] at hend
      exact hexists tag htag hend

end

theorem consolidateTags_aliases (run : ConsolidationRun) (aliases : TagAliases) :
    (consolidateTags run aliases).2 =
      match run.allGroups with
      | none => aliases
      | some groups =>
          if run.dryRun then aliases
          else (writeAliases (mergeTransitiveGroups run.setOrder groups) aliases).2 := by
  unfold consolidateTags
  split
  next h => simp [h]
  next h => simp [h, writeAliases, mergeTransitiveGroups, collectClusters, tagsInGroups,
      List.perm_nil.mp (run.setOrder.perm [])]
  next groups _ h =>
    simp only [h]
    split_ifs <;> rfl

theorem keepsFlat_iff_fits {aliases : TagAliases} (hflat : Flat aliases)
    (run : ConsolidationRun) : KeepsFlat aliases run ↔ Fits aliases run := by
  have haliases := consolidateTags_aliases run aliases
  cases hgroups : run.allGroups with
  | none =>
      rw [hgroups] at haliases
      refine iff_of_true ⟨haliases ▸ hflat, ?_⟩ ?_
      · intro _ groups hmem
        simp [hgroups] at hmem
      · intro _ groups hmem
        simp [hgroups] at hmem
  | some groups =>
      rw [hgroups] at haliases
      have hmerged := mergeTransitiveGroups_spec run.setOrder groups
      cases hdry : run.dryRun with
      | true =>
          rw [hdry] at haliases
          refine iff_of_true ⟨haliases ▸ hflat, ?_⟩ ?_
          · intro hreal
            simp [hdry] at hreal
          · intro hreal
            simp [hdry] at hreal
      | false =>
          rw [hdry] at haliases
          simp only [Bool.false_eq_true, if_false] at haliases
          constructor
          · rintro ⟨hafter, hunifies⟩ - other hother group hgroup
            rw [hgroups] at hother
            obtain rfl := Option.some.inj hother
            refine fits_of_keepsFlat hmerged (haliases ▸ hafter) ?_ hgroup
            rw [← haliases]
            exact hunifies hdry groups hgroups
          · intro h
            have hfits := h hdry groups hgroups
            refine ⟨haliases ▸ flat_of_fits hflat hmerged hfits, fun _ other hother => ?_⟩
            rw [hgroups] at hother
            obtain rfl := Option.some.inj hother
            rw [haliases]
            exact unifies_of_fits hmerged hfits

/-! ## Sequences of runs -/

def consolidationStep (aliases : TagAliases) (run : ConsolidationRun) :
    Option TagAliases :=
  some (consolidateTags run aliases).2

/-- Runs keep the aliases flat just when the groups of each fit those before. -/
theorem consolidations_keep_flat_iff (runs : List ConsolidationRun) :
    Meets consolidationStep KeepsFlat [] runs ↔ Meets consolidationStep Fits [] runs := by
  have hsome : ∃ aliases, runSteps consolidationStep [] runs = some aliases := by
    generalize ([] : TagAliases) = start
    induction runs generalizing start with
    | nil => exact ⟨start, rfl⟩
    | cons run runs ih => exact ih (consolidateTags run start).2
  obtain ⟨aliases, hruns⟩ := hsome
  refine Meets.iff_of_invariant Flat ?_ ?_ (Flat.of_canonical (by simp [Entries.get])) hruns
  · intro aliases run _ hflat _
    exact keepsFlat_iff_fits hflat run
  · intro aliases run next hflat hfits hstep
    obtain rfl := Option.some.inj hstep
    exact ((keepsFlat_iff_fits hflat run).mpr hfits).flat

def groupingRun (groups : List ConsolidationGroup) : ConsolidationRun where
  setOrder := ⟨id, fun _ => .refl _⟩
  tagEntries := [("tag", "")]
  llm _ := some groups

/-- First `kit` is made an alias of `model`, then `model` one of `hobby`. -/
theorem second_run_chains_aliases :
    ¬ ∀ runs, Meets consolidationStep KeepsFlat [] runs := by
  intro h
  have hmeets := h [groupingRun [⟨"model", ["kit"], ""⟩], groupingRun [⟨"hobby", ["model"], ""⟩]]
  simp only [Meets, consolidationStep, Option.mem_some, forall_eq'] at hmeets
  obtain ⟨-, hsecond, -⟩ := hmeets
  have hend := hsecond.flat.canonical "kit" "model" (by decide +kernel)
  exact absurd hend (by decide +kernel)

end VirtualContext
