import Mathlib.Data.Set.Basic
import VirtualContext.Core.FlatAliases

/-!
# Components of tags

`_merge_transitive_groups` returns the connected components of the tags that are
linked at all, whatever the order of the groups.
-/

namespace VirtualContext

open VirtualContext.Library

/-! ## The loops end -/

def joinAliasWithin (steps : Nat) (canonical : String) (parents : Parents String)
    (tag : String) : Option (Parents String) :=
  (parents.register tag).unionWithin steps tag canonical

def joinGroupWithin (steps : Nat) (parents : Parents String) (group : ConsolidationGroup) :
    Option (Parents String) :=
  group.aliases.foldlM (joinAliasWithin steps group.canonical)
    (parents.register group.canonical)

def collectClustersWithin (steps : Nat) (parents : Parents String) (tags : List String) :
    Option (Parents String × Entries String (List String)) :=
  tags.foldlM (fun (found : Parents String × Entries String (List String)) tag =>
    (Parents.findWithin steps found.1 tag).map fun (root, parents) =>
      (parents, found.2.set root ((found.2.get root).getD [] ++ [tag]))) (parents, [])

def collectReasonsWithin (steps : Nat) (parents : Parents String)
    (groups : List ConsolidationGroup) : Option (Entries String (List String)) :=
  (groups.foldlM (fun (found : Parents String × Entries String (List String)) group =>
    if group.reason = "" then some found
    else
      (Parents.findWithin steps found.1 group.canonical).map fun (root, parents) =>
        (parents, found.2.set root ((found.2.get root).getD [] ++ [group.reason])))
    (parents, [])).map Prod.snd

/-- `_merge_transitive_groups`, if each loop of `find` ends within so many steps. -/
def mergeTransitiveGroupsWithin (steps : Nat) (setOrder : SetOrder)
    (groups : List ConsolidationGroup) : Option (List ConsolidationGroup) :=
  (groups.foldlM (joinGroupWithin steps) []).bind fun parents =>
    (collectClustersWithin steps parents (setOrder.order (tagsInGroups groups))).bind
      fun (parents, clusters) =>
        (collectReasonsWithin steps parents groups).map fun reasons =>
          clusters.filterMap (mergeCluster setOrder groups reasons)

/-- Every path ends at a root. -/
def Forest (parents : Parents String) : Prop := ∃ root, Parents.Rooted parents root

theorem Forest.find {parents : Parents String} (h : Forest parents) (tag : String) :
    Forest (parents.find tag).2 := by
  obtain ⟨root, hrooted⟩ := h
  exact ⟨root, (hrooted.find tag).2⟩

theorem Forest.joinAlias {parents : Parents String} (h : Forest parents)
    (canonical tag : String) : Forest (joinAlias canonical parents tag) := by
  obtain ⟨root, hrooted⟩ := h
  exact ⟨_, (hrooted.register tag).union tag canonical⟩

theorem Forest.joinGroup {parents : Parents String} (h : Forest parents)
    (group : ConsolidationGroup) : Forest (joinGroup parents group) := by
  obtain ⟨root, hrooted⟩ := h
  exact List.foldlRecOn group.aliases _ ⟨root, hrooted.register group.canonical⟩
    fun parents hparents tag _ => hparents.joinAlias group.canonical tag

theorem joinGroup_ends {parents : Parents String} (h : Forest parents)
    (group : ConsolidationGroup) :
    Ends (fun steps => joinGroupWithin steps parents group) (joinGroup parents group) := by
  refine Ends.foldlM (I := Forest) (fun parents hparents tag => ?_)
    (fun parents hparents tag => hparents.joinAlias group.canonical tag) group.aliases ?_
  · obtain ⟨root, hrooted⟩ := hparents
    exact (hrooted.register tag).unionEnds tag group.canonical
  · obtain ⟨root, hrooted⟩ := h
    exact ⟨root, hrooted.register group.canonical⟩

theorem collectClusters_ends {parents : Parents String} (h : Forest parents)
    (tags : List String) :
    Ends (fun steps => collectClustersWithin steps parents tags)
        (collectClusters parents tags) ∧
      Forest (collectClusters parents tags).1 := by
  constructor
  · refine Ends.foldlM (I := fun found : Parents String × Entries String (List String) =>
      Forest found.1) (fun found hfound tag => ?_)
      (fun found hfound tag => hfound.find tag) tags h
    obtain ⟨root, hrooted⟩ := hfound
    exact (hrooted.findEnds tag).map _
  · exact List.foldlRecOn (motive := fun found : Parents String × Entries String (List String) =>
      Forest found.1) tags _ h
      fun found hfound tag _ => hfound.find tag

theorem collectReasons_ends {parents : Parents String} (h : Forest parents)
    (groups : List ConsolidationGroup) :
    Ends (fun steps => collectReasonsWithin steps parents groups)
      (collectReasons parents groups) := by
  refine Ends.map (Ends.foldlM (I := fun found : Parents String × Entries String (List String) =>
      Forest found.1)
    (fun found hfound group => ?_) (fun found hfound group => ?_) groups h) Prod.snd
  · by_cases hreason : group.reason = ""
    · simp only [if_pos hreason]
      exact .pure found
    · simp only [if_neg hreason]
      obtain ⟨root, hrooted⟩ := hfound
      exact (hrooted.findEnds group.canonical).map _
  · dsimp only
    split_ifs
    · exact hfound
    · exact hfound.find group.canonical

theorem mergeTransitiveGroups_ends (setOrder : SetOrder) (groups : List ConsolidationGroup) :
    Ends (fun steps => mergeTransitiveGroupsWithin steps setOrder groups)
      (mergeTransitiveGroups setOrder groups) := by
  have hempty : Forest [] := ⟨id, .nil⟩
  have hjoined : Forest (groups.foldl joinGroup []) :=
    List.foldlRecOn groups _ hempty fun parents hparents group _ => hparents.joinGroup group
  obtain ⟨hclusters, hfound⟩ :=
    collectClusters_ends hjoined (setOrder.order (tagsInGroups groups))
  have hgroups : Ends (fun steps => groups.foldlM (joinGroupWithin steps) [])
      (groups.foldl joinGroup []) :=
    Ends.foldlM (fun parents hparents group => joinGroup_ends hparents group)
      (fun parents hparents group => hparents.joinGroup group) groups hempty
  have hreasons := collectReasons_ends hfound groups
  exact hgroups.bind (hclusters.bind (hreasons.map _))

/-! ## The canonical tag of a component -/

theorem canonicalCount_le_of_pick {groups : List ConsolidationGroup} {members : List String}
    {best : String} (h : pickCanonical groups members = some best) :
    ∀ tag ∈ members, canonicalCount groups tag ≤ canonicalCount groups best := by
  have hfold (rest : List String) (done : List String) (best : String)
      (hbest : ∀ tag ∈ done, canonicalCount groups tag ≤ canonicalCount groups best) :
      ∀ tag ∈ done ++ rest, canonicalCount groups tag ≤ canonicalCount groups
        (rest.foldl (fun best tag => if isBetter groups tag best then tag else best) best) := by
    induction rest generalizing done best with
    | nil => simpa using hbest
    | cons next rest ih =>
        rw [List.foldl_cons, List.append_cons]
        refine ih _ _ fun tag htag => ?_
        split_ifs with hbetter
        · have hle : canonicalCount groups best ≤ canonicalCount groups next := by
            rcases Bool.or_eq_true_iff.mp hbetter with hlt | hsame
            · exact Nat.le_of_lt (of_decide_eq_true hlt)
            · exact Nat.le_of_eq (of_decide_eq_true (Bool.and_eq_true_iff.mp hsame).1)
          rcases List.mem_append.mp htag with hdone | hnext
          · exact (hbest tag hdone).trans hle
          · exact (List.mem_singleton.mp hnext).symm ▸ Nat.le_refl _
        · have hle : canonicalCount groups next ≤ canonicalCount groups best := by
            by_contra hlt
            exact hbetter (Bool.or_eq_true_iff.mpr
              (.inl (decide_eq_true (Nat.lt_of_not_le hlt))))
          rcases List.mem_append.mp htag with hdone | hnext
          · exact hbest tag hdone
          · exact (List.mem_singleton.mp hnext).symm ▸ hle
  cases members with
  | nil => cases h
  | cons first members =>
      obtain rfl := Option.some.inj h
      exact hfold members [first] first (by simp)

theorem canonicalCount_le_of_cluster {setOrder : SetOrder} {groups : List ConsolidationGroup}
    {reasons : Entries String (List String)} {cluster : String × List String}
    {group : ConsolidationGroup}
    (h : mergeCluster setOrder groups reasons cluster = some group) :
    ∀ tag ∈ cluster.2, canonicalCount groups tag ≤ canonicalCount groups group.canonical := by
  unfold mergeCluster at h
  split_ifs at h
  obtain ⟨best, hpick, rfl⟩ := Option.map_eq_some_iff.mp h
  exact fun tag htag =>
    canonicalCount_le_of_pick hpick tag ((setOrder.perm _).mem_iff.mpr htag)

/-! ## Components -/

/-- The tags that are connected with one of the groups. -/
def IsComponent (groups : List ConsolidationGroup) (tags : Set String) : Prop :=
  ∃ x ∈ tagsInGroups groups, tags = {y | ConnectedTags groups x y}

def ConsolidationGroup.tagSet (group : ConsolidationGroup) : Set String :=
  {tag | tag ∈ group.tags}

/-- The merged groups are the components of two or more tags. -/
structure MergesComponents (groups merged : List ConsolidationGroup) : Prop where
  components : ∀ tags, (∃ group ∈ merged, group.tagSet = tags) ↔
    IsComponent groups tags ∧ tags.Nontrivial
  disjoint : merged.Pairwise fun group other => ∀ tag ∈ group.tags, tag ∉ other.tags
  distinct : ∀ group ∈ merged, group.tags.Nodup
  canonical : ∀ group ∈ merged, ∀ tag ∈ group.tags,
    canonicalCount groups tag ≤ canonicalCount groups group.canonical

theorem mergeTransitiveGroups_clusters (setOrder : SetOrder)
    (groups : List ConsolidationGroup) :
    ∃ root clusters reasons, Clusters root (setOrder.order (tagsInGroups groups)) clusters ∧
      mergeTransitiveGroups setOrder groups =
        clusters.filterMap (mergeCluster setOrder groups reasons) := by
  obtain ⟨root, hrooted, -⟩ := Joined.of_groups groups
  exact ⟨root, _, _, collectClusters_spec hrooted (setOrder.order (tagsInGroups groups)), rfl⟩

theorem nodup_tags_of_cluster {setOrder : SetOrder} {groups : List ConsolidationGroup}
    {reasons : Entries String (List String)} {cluster : String × List String}
    {group : ConsolidationGroup} (hnodup : cluster.2.Nodup)
    (h : mergeCluster setOrder groups reasons cluster = some group) : group.tags.Nodup := by
  refine List.nodup_cons.mpr ⟨(mergeCluster_spec hnodup h).1, ?_⟩
  unfold mergeCluster at h
  split_ifs at h
  obtain ⟨best, -, rfl⟩ := Option.map_eq_some_iff.mp h
  exact (orderBy_perm _ _).nodup_iff.mpr (hnodup.sublist List.filter_sublist)

section

variable (setOrder : SetOrder) (groups : List ConsolidationGroup)

theorem tagSet_eq {group : ConsolidationGroup}
    (hgroup : group ∈ mergeTransitiveGroups setOrder groups) :
    group.tagSet = {tag | ConnectedTags groups group.canonical tag} :=
  Set.ext fun tag => (mergeTransitiveGroups_spec setOrder groups).connected group hgroup tag

theorem components_iff (tags : Set String) :
    (∃ group ∈ mergeTransitiveGroups setOrder groups, group.tagSet = tags) ↔
      IsComponent groups tags ∧ tags.Nontrivial := by
  have hspec := mergeTransitiveGroups_spec setOrder groups
  constructor
  · rintro ⟨group, hgroup, rfl⟩
    obtain ⟨hsplit, hmore⟩ := hspec.split group hgroup
    obtain ⟨tag, htag⟩ := List.exists_mem_of_ne_nil _ hmore
    have hmem : tag ∈ group.tags := List.mem_cons_of_mem _ htag
    have hne : group.canonical ≠ tag := fun heq => hsplit (heq ▸ htag)
    have hconnected := (hspec.connected group hgroup tag).mp hmem
    exact ⟨⟨group.canonical, (hconnected.mem hne).1, tagSet_eq setOrder groups hgroup⟩,
      group.canonical, List.mem_cons_self, tag, hmem, hne⟩
  · rintro ⟨⟨x, -, rfl⟩, hmore⟩
    obtain ⟨y, hy, hne⟩ := hmore.exists_ne x
    obtain ⟨group, hgroup, hx⟩ := hspec.covers x y hy hne.symm
    refine ⟨group, hgroup, (tagSet_eq setOrder groups hgroup).trans (Set.ext fun tag => ?_)⟩
    have hcanonical := (hspec.connected group hgroup x).mp hx
    exact ⟨fun htag => .trans _ _ _ (.symm _ _ hcanonical) htag,
      fun htag => .trans _ _ _ hcanonical htag⟩

theorem mergesComponents :
    MergesComponents groups (mergeTransitiveGroups setOrder groups) := by
  obtain ⟨root, clusters, reasons, hclusters, heq⟩ :=
    mergeTransitiveGroups_clusters setOrder groups
  have hnodup {r : String} {members : List String} (hmem : (r, members) ∈ clusters) :
      members.Nodup := by
    rw [hclusters.mem hmem]
    exact ((setOrder.perm _).nodup_iff.mpr (List.nodup_dedup _)).sublist List.filter_sublist
  have hroot {r : String} {members : List String} (hmem : (r, members) ∈ clusters)
      {tag : String} (htag : tag ∈ members) : root tag = r := by
    rw [hclusters.mem hmem] at htag
    exact of_decide_eq_true (List.mem_filter.mp htag).2
  refine ⟨components_iff setOrder groups, ?_, fun group hgroup => ?_, fun group hgroup => ?_⟩
  · rw [heq, List.pairwise_filterMap]
    have hkeys := List.pairwise_map.mp hclusters.nodup
    refine hkeys.imp_of_mem fun {cluster other} hcluster hother hne group hgroup group' hgroup'
      tag htag htag' => hne ?_
    have hmem := ((mergeCluster_spec (hnodup hcluster) hgroup).2.2.2 tag).mp htag
    have hmem' := ((mergeCluster_spec (hnodup hother) hgroup').2.2.2 tag).mp htag'
    exact (hroot hcluster hmem).symm.trans (hroot hother hmem')
  · rw [heq] at hgroup
    obtain ⟨cluster, hcluster, hmerge⟩ := List.mem_filterMap.mp hgroup
    exact nodup_tags_of_cluster (hnodup hcluster) hmerge
  · rw [heq] at hgroup
    obtain ⟨cluster, hcluster, hmerge⟩ := List.mem_filterMap.mp hgroup
    intro tag htag
    exact canonicalCount_le_of_cluster hmerge tag
      (((mergeCluster_spec (hnodup hcluster) hmerge).2.2.2 tag).mp htag)

end

/-! ## The order of the groups -/

theorem ConnectedTags.perm {groups groups' : List ConsolidationGroup} (h : groups.Perm groups')
    {x y : String} : ConnectedTags groups x y ↔ ConnectedTags groups' x y :=
  ⟨fun hconnected => Parents.Connected.mono hconnected (h.flatMap_right _).subset,
    fun hconnected => Parents.Connected.mono hconnected (h.symm.flatMap_right _).subset⟩

theorem isComponent_perm {groups groups' : List ConsolidationGroup} (h : groups.Perm groups')
    (tags : Set String) : IsComponent groups tags ↔ IsComponent groups' tags := by
  have hsets (x : String) :
      {y | ConnectedTags groups x y} = {y | ConnectedTags groups' x y} :=
    Set.ext fun y => ConnectedTags.perm h
  simp only [IsComponent, hsets, mem_tagsInGroups, h.mem_iff]

/-- The groups are merged to components whose canonical tags were canonical most often,
which the order of the groups does not change. -/
theorem groups_merge_to_components (setOrder : SetOrder) (groups : List ConsolidationGroup) :
    Ends (fun steps => mergeTransitiveGroupsWithin steps setOrder groups)
        (mergeTransitiveGroups setOrder groups) ∧
      MergesComponents groups (mergeTransitiveGroups setOrder groups) ∧
      ∀ (setOrder' : SetOrder) (groups' : List ConsolidationGroup), groups'.Perm groups →
        MergesComponents groups (mergeTransitiveGroups setOrder' groups') := by
  refine ⟨mergeTransitiveGroups_ends setOrder groups, mergesComponents setOrder groups,
    fun setOrder' groups' hperm => ?_⟩
  obtain ⟨hcomponents, hdisjoint, hdistinct, hcanonical⟩ := mergesComponents setOrder' groups'
  refine ⟨fun tags => ?_, hdisjoint, hdistinct, fun group hgroup tag htag => ?_⟩
  · rw [hcomponents, isComponent_perm hperm]
  · have hcount (tag : String) : canonicalCount groups tag = canonicalCount groups' tag :=
      (hperm.countP_eq _).symm
    rw [hcount, hcount]
    exact hcanonical group hgroup tag htag

end VirtualContext
