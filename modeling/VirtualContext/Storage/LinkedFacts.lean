import Mathlib.Data.Finset.Dedup
import Mathlib.Data.Finset.Insert
import VirtualContext.Library.Layers
import VirtualContext.Storage.FactStore

/-!
# Linked facts

`get_linked_facts` follows the links of facts layer by layer.  A fact that was
superseded is not returned and blocks the paths over it, unless it is a seed.
-/

namespace VirtualContext

open VirtualContext.Library

structure LinkedFact where
  fact : Fact
  linkedFromFactId : String := ""
  relationType : String := ""
  confidence : ℚ := 1
  linkContext : String := ""
  deriving DecidableEq, Repr

/-- The order in which a query without `ORDER BY` returns its rows. -/
structure JoinOrder where
  order : List (FactLink × Fact) → List (FactLink × Fact)
  perm : ∀ rows, (order rows).Perm rows

/-! ## The search -/

/-- A fact as it is read from its row. -/
def Fact.readLinked (now : String) (row : Fact) : Fact :=
  { row with
    factType := if row.factType = "" then "personal" else row.factType
    mentionedAt := if row.mentionedAt = "" then now else row.mentionedAt }

/-- The links of a layer with the facts at their other ends. -/
def FactStore.linkRows (s : FactStore) (layer visited : Finset String) :
    List (FactLink × Fact) :=
  s.links.flatMap fun link =>
    (s.rows.filter fun row =>
      ((link.sourceFactId ∈ layer ∧ row.id = link.targetFactId) ∨
        (link.targetFactId ∈ layer ∧ row.id = link.sourceFactId)) ∧
      row.supersededBy = none ∧ row.id ∉ visited).map fun row => (link, row)

structure LinkSearch where
  visited : Finset String
  currentLayer : Finset String
  results : List LinkedFact := []

def linkedFact (now : String) (layer : Finset String) (row : FactLink × Fact) :
    LinkedFact where
  fact := row.2.readLinked now
  linkedFromFactId :=
    if row.1.sourceFactId ∈ layer then row.1.sourceFactId else row.1.targetFactId
  relationType := row.1.relationType
  confidence := row.1.confidence
  linkContext := row.1.context

namespace LinkSearch

/-- A row of the query; the layer of the search is the next one. -/
def addRow (now : String) (layer : Finset String) (search : LinkSearch)
    (row : FactLink × Fact) : LinkSearch :=
  if row.2.id ∈ search.visited then search
  else
    { visited := insert row.2.id search.visited
      currentLayer := insert row.2.id search.currentLayer
      results := search.results ++ [linkedFact now layer row] }

variable (s : FactStore) (joinOrder : JoinOrder) (now : String)

def hop (search : LinkSearch) : LinkSearch :=
  (joinOrder.order (s.linkRows search.currentLayer search.visited)).foldl
    (addRow now search.currentLayer) { search with currentLayer := ∅ }

def hops : Nat → LinkSearch → LinkSearch
  | 0, search => search
  | depth + 1, search =>
      if search.currentLayer = ∅ then search
      else hops depth (hop s joinOrder now search)

end LinkSearch

/-- `get_linked_facts` -/
def FactStore.getLinkedFactsWithin (s : FactStore) (joinOrder : JoinOrder) (now : String)
    (factIds : List String) (depth : Int) : List LinkedFact :=
  if factIds = [] then []
  else
    (LinkSearch.hops s joinOrder now depth.toNat
      { visited := factIds.toFinset, currentLayer := factIds.toFinset }).results

/-! ## Paths over links -/

section

variable (s : FactStore)

/-- A stored fact that is not superseded. -/
def FactStore.Current (id : String) : Prop :=
  ∃ row ∈ s.rows, row.id = id ∧ row.supersededBy = none

/-- One link joins the facts, in either direction. -/
def FactStore.Linked (id other : String) : Prop :=
  ∃ link ∈ s.links, (link.sourceFactId = id ∧ link.targetFactId = other) ∨
    (link.targetFactId = id ∧ link.sourceFactId = other)

/-- A path of so many links from a seed; all before the last fact are seeds or current. -/
def FactStore.LinkPath (seeds : List String) : Nat → String → Prop :=
  PathTo s.Linked (fun id => id ∈ seeds ∨ s.Current id) (· ∈ seeds)

/-- The least number of links from a seed. -/
def FactStore.LinkDistance (seeds : List String) : Nat → String → Prop :=
  AtDistance s.Linked (fun id => id ∈ seeds ∨ s.Current id) (· ∈ seeds)

/-- The result is a stored fact with a link from a fact that is one link nearer. -/
structure FactStore.LinksTo (now : String) (seeds : List String) (result : LinkedFact) :
    Prop where
  stored : ∃ row ∈ s.rows, result.fact = row.readLinked now
  source : result.linkedFromFactId ∈ s.rows.map (·.id)
  link : ∃ link ∈ s.links,
    ((link.sourceFactId = result.linkedFromFactId ∧ link.targetFactId = result.fact.id) ∨
      (link.targetFactId = result.linkedFromFactId ∧ link.sourceFactId = result.fact.id)) ∧
    result.relationType = link.relationType ∧ result.confidence = link.confidence ∧
    result.linkContext = link.context
  nearer : ∃ n, s.LinkDistance seeds n result.linkedFromFactId ∧
    s.LinkDistance seeds (n + 1) result.fact.id

end

theorem FactStore.mem_linkRows {s : FactStore} {layer visited : Finset String}
    {link : FactLink} {row : Fact} :
    (link, row) ∈ s.linkRows layer visited ↔ link ∈ s.links ∧ row ∈ s.rows ∧
      ((link.sourceFactId ∈ layer ∧ row.id = link.targetFactId) ∨
        (link.targetFactId ∈ layer ∧ row.id = link.sourceFactId)) ∧
      row.supersededBy = none ∧ row.id ∉ visited := by
  simp only [FactStore.linkRows, List.mem_flatMap, List.mem_map, List.mem_filter,
    decide_eq_true_eq, Prod.mk.injEq]
  constructor
  · rintro ⟨link', hlink, row', ⟨hrow, hjoin⟩, rfl, rfl⟩
    exact ⟨hlink, hrow, hjoin⟩
  · rintro ⟨hlink, hrow, hjoin⟩
    exact ⟨link, hlink, row, ⟨hrow, hjoin⟩, rfl, rfl⟩

namespace LinkSearch

/-- What the rows of a query add. -/
theorem foldl_addRow (now : String) (layer : Finset String) (rows : List (FactLink × Fact))
    (search : LinkSearch) :
    ∃ new, (rows.foldl (addRow now layer) search).results = search.results ++ new ∧
      (new.map (·.fact.id)).Nodup ∧
      (∀ result ∈ new, result.fact.id ∉ search.visited ∧
        ∃ row ∈ rows, result = linkedFact now layer row) ∧
      (∀ id, id ∈ (rows.foldl (addRow now layer) search).visited ↔
        id ∈ search.visited ∨ id ∈ new.map (·.fact.id)) ∧
      (∀ id, id ∈ (rows.foldl (addRow now layer) search).currentLayer ↔
        id ∈ search.currentLayer ∨ id ∈ new.map (·.fact.id)) ∧
      ∀ row ∈ rows, row.2.id ∈ search.visited ∨ row.2.id ∈ new.map (·.fact.id) := by
  induction rows generalizing search with
  | nil => exact ⟨[], by simp⟩
  | cons row rows ih =>
      rw [List.foldl_cons]
      by_cases hvisited : row.2.id ∈ search.visited
      · obtain ⟨new, hresults, hnodup, hnew, hvisits, hlayer, hall⟩ := ih search
        rw [addRow, if_pos hvisited]
        refine ⟨new, hresults, hnodup, fun result hresult => ?_, hvisits, hlayer, ?_⟩
        · obtain ⟨hunvisited, other, hother, heq⟩ := hnew result hresult
          exact ⟨hunvisited, other, List.mem_cons_of_mem _ hother, heq⟩
        · exact List.forall_mem_cons.mpr ⟨.inl hvisited, hall⟩
      · rw [addRow, if_neg hvisited]
        obtain ⟨new, hresults, hnodup, hnew, hvisits, hlayer, hall⟩ := ih
          { visited := insert row.2.id search.visited
            currentLayer := insert row.2.id search.currentLayer
            results := search.results ++ [linkedFact now layer row] }
        have hid : (linkedFact now layer row).fact.id = row.2.id := rfl
        refine ⟨linkedFact now layer row :: new, by simp [hresults], ?_, ?_, fun id => ?_,
          fun id => ?_, ?_⟩
        · refine List.nodup_cons.mpr ⟨fun hmem => ?_, hnodup⟩
          obtain ⟨result, hresult, heq⟩ := List.mem_map.mp hmem
          exact (hnew result hresult).1 (Finset.mem_insert.mpr (.inl heq))
        · refine List.forall_mem_cons.mpr
            ⟨⟨hvisited, row, List.mem_cons_self, rfl⟩, fun result hresult => ?_⟩
          obtain ⟨hunvisited, other, hother, heq⟩ := hnew result hresult
          exact ⟨fun hmem => hunvisited (Finset.mem_insert_of_mem hmem), other,
            List.mem_cons_of_mem _ hother, heq⟩
        · rw [hvisits, Finset.mem_insert, List.map_cons, List.mem_cons, hid]
          tauto
        · rw [hlayer, Finset.mem_insert, List.map_cons, List.mem_cons, hid]
          tauto
        · refine List.forall_mem_cons.mpr ⟨.inr List.mem_cons_self, fun other hother => ?_⟩
          rcases hall other hother with hmem | hmem
          · rcases Finset.mem_insert.mp hmem with heq | hmem
            · exact .inr (heq ▸ List.mem_cons_self)
            · exact .inl hmem
          · exact .inr (List.mem_cons_of_mem _ hmem)

/-- The search after so many hops: its layer are the facts at that distance. -/
structure Searched (s : FactStore) (now : String) (seeds : List String) (k : Nat)
    (search : LinkSearch) : Prop where
  visited : ∀ id, id ∈ search.visited ↔
    id ∈ seeds ∨ s.Current id ∧ ∃ n ≤ k, s.LinkPath seeds n id
  layer : ∀ id, id ∈ search.currentLayer ↔
    (id ∈ seeds ∨ s.Current id) ∧ s.LinkDistance seeds k id
  distinct : (search.results.map (·.fact.id)).Nodup
  found : ∀ id, id ∈ search.results.map (·.fact.id) ↔
    id ∉ seeds ∧ s.Current id ∧ ∃ n ≤ k, s.LinkPath seeds n id
  linked : ∀ result ∈ search.results, s.LinksTo now seeds result

section

variable {s : FactStore} {joinOrder : JoinOrder} {now : String} {seeds : List String} {k : Nat}
  {search : LinkSearch}

theorem searched_start : Searched s now seeds 0
    { visited := seeds.toFinset, currentLayer := seeds.toFinset } where
  visited id := by
    rw [List.mem_toFinset]
    refine ⟨.inl, ?_⟩
    rintro (hseed | ⟨-, n, hle, hpath⟩)
    · exact hseed
    · obtain rfl : n = 0 := Nat.le_zero.mp hle
      exact pathTo_zero_iff.mp hpath
  layer id := by
    rw [List.mem_toFinset]
    exact ⟨fun hseed => ⟨.inl hseed, atDistance_zero_iff.mpr hseed⟩,
      fun h => atDistance_zero_iff.mp h.2⟩
  distinct := List.nodup_nil
  found id := by
    refine iff_of_false List.not_mem_nil ?_
    rintro ⟨hseed, -, n, hle, hpath⟩
    obtain rfl : n = 0 := Nat.le_zero.mp hle
    exact hseed (pathTo_zero_iff.mp hpath)
  linked := nofun

/-- The facts of the query are those of the next layer. -/
theorem Searched.mem_rows (h : Searched s now seeds k search) {id : String} :
    (∃ row ∈ s.linkRows search.currentLayer search.visited, row.2.id = id) ↔
      s.Current id ∧ s.LinkDistance seeds (k + 1) id := by
  have hnew : s.Current id → (id ∉ search.visited ↔ ∀ n ≤ k, ¬ s.LinkPath seeds n id) := by
    intro hcurrent
    rw [h.visited]
    constructor
    · exact fun hnot n hle hpath => hnot (.inr ⟨hcurrent, n, hle, hpath⟩)
    · rintro hnone (hseed | ⟨-, n, hle, hpath⟩)
      · exact hnone 0 (Nat.zero_le k) (.seed hseed)
      · exact hnone n hle hpath
  constructor
  · rintro ⟨⟨link, row⟩, hmem, rfl⟩
    obtain ⟨hlink, hrow, hjoin, hopen, hunvisited⟩ := FactStore.mem_linkRows.mp hmem
    have hcurrent : s.Current row.id := ⟨row, hrow, rfl, hopen⟩
    refine ⟨hcurrent, atDistance_succ_iff.mpr ⟨?_, (hnew hcurrent).mp hunvisited⟩⟩
    rcases hjoin with ⟨hsource, heq⟩ | ⟨htarget, heq⟩
    · obtain ⟨hpasses, hdistance⟩ := (h.layer _).mp hsource
      exact ⟨_, hdistance, hpasses, link, hlink, .inl ⟨rfl, heq.symm⟩⟩
    · obtain ⟨hpasses, hdistance⟩ := (h.layer _).mp htarget
      exact ⟨_, hdistance, hpasses, link, hlink, .inr ⟨rfl, heq.symm⟩⟩
  · rintro ⟨hcurrent, hdistance⟩
    obtain ⟨⟨x, hx, hpasses, link, hlink, hends⟩, hnone⟩ := atDistance_succ_iff.mp hdistance
    obtain ⟨row, hrow, rfl, hopen⟩ := hcurrent
    have hlayer : x ∈ search.currentLayer := (h.layer x).mpr ⟨hpasses, hx⟩
    refine ⟨(link, row), FactStore.mem_linkRows.mpr ⟨hlink, hrow, ?_, hopen,
      (hnew ⟨row, hrow, rfl, hopen⟩).mpr hnone⟩, rfl⟩
    rcases hends with ⟨rfl, heq⟩ | ⟨rfl, heq⟩
    · exact .inl ⟨hlayer, heq.symm⟩
    · exact .inr ⟨hlayer, heq.symm⟩

theorem Searched.linksTo (h : Searched s now seeds k search) {row : FactLink × Fact}
    (hrow : row ∈ s.linkRows search.currentLayer search.visited) :
    s.LinksTo now seeds (linkedFact now search.currentLayer row) := by
  obtain ⟨link, row⟩ := row
  obtain ⟨hlink, hstored, hjoin, hopen, hunvisited⟩ := FactStore.mem_linkRows.mp hrow
  have hdistance := (h.mem_rows.mp ⟨_, hrow, rfl⟩).2
  have hlayer {id : String} (hid : id ∈ search.currentLayer) : row.id ≠ id := by
    rintro rfl
    exact hdistance.2 k (Nat.lt_succ_self k) ((h.layer _).mp hid).2.1
  by_cases hsource : link.sourceFactId ∈ search.currentLayer
  · have heq : row.id = link.targetFactId := by
      rcases hjoin with ⟨-, heq⟩ | ⟨-, heq⟩
      · exact heq
      · exact absurd heq (hlayer hsource)
    have hfrom : (linkedFact now search.currentLayer (link, row)).linkedFromFactId =
        link.sourceFactId := if_pos hsource
    refine ⟨⟨row, hstored, rfl⟩, ?_, ⟨link, hlink, .inl ⟨hfrom.symm, heq.symm⟩, rfl, rfl, rfl⟩,
      k, ?_, hdistance⟩
    · rw [hfrom]
      exact (s.foreignKeys link hlink).1
    · rw [hfrom]
      exact ((h.layer _).mp hsource).2
  · obtain ⟨htarget, heq⟩ : link.targetFactId ∈ search.currentLayer ∧
        row.id = link.sourceFactId := by
      rcases hjoin with ⟨hmem, -⟩ | hjoin
      · exact absurd hmem hsource
      · exact hjoin
    have hfrom : (linkedFact now search.currentLayer (link, row)).linkedFromFactId =
        link.targetFactId := if_neg hsource
    refine ⟨⟨row, hstored, rfl⟩, ?_, ⟨link, hlink, .inr ⟨hfrom.symm, heq.symm⟩, rfl, rfl, rfl⟩,
      k, ?_, hdistance⟩
    · rw [hfrom]
      exact (s.foreignKeys link hlink).2
    · rw [hfrom]
      exact ((h.layer _).mp htarget).2

theorem Searched.hop (joinOrder : JoinOrder) (h : Searched s now seeds k search) :
    Searched s now seeds (k + 1) (hop s joinOrder now search) := by
  obtain ⟨new, hresults, hnodup, hnew, hvisits, hlayer, hall⟩ := foldl_addRow now
    search.currentLayer (joinOrder.order (s.linkRows search.currentLayer search.visited))
    { search with currentLayer := ∅ }
  have hrows {row : FactLink × Fact} :
      row ∈ joinOrder.order (s.linkRows search.currentLayer search.visited) ↔
        row ∈ s.linkRows search.currentLayer search.visited := (joinOrder.perm _).mem_iff
  have hmem (id : String) : id ∈ new.map (·.fact.id) ↔
      s.Current id ∧ s.LinkDistance seeds (k + 1) id := by
    rw [← h.mem_rows]
    constructor
    · intro hid
      obtain ⟨result, hresult, rfl⟩ := List.mem_map.mp hid
      obtain ⟨-, row, hrow, rfl⟩ := hnew result hresult
      exact ⟨row, hrows.mp hrow, rfl⟩
    · rintro ⟨⟨link, row⟩, hrow, rfl⟩
      rcases hall _ (hrows.mpr hrow) with hvisited | hid
      · exact absurd hvisited (FactStore.mem_linkRows.mp hrow).2.2.2.2
      · exact hid
  have hseed {id : String} (hdistance : s.LinkDistance seeds (k + 1) id) : id ∉ seeds :=
    fun hmem => hdistance.2 0 (Nat.succ_pos k) (.seed hmem)
  refine ⟨fun id => ?_, fun id => ?_, ?_, fun id => ?_, fun result hresult => ?_⟩
  · rw [show id ∈ (LinkSearch.hop s joinOrder now search).visited ↔ _ from hvisits id, hmem,
      h.visited, or_assoc, ← and_or_left]
    exact or_congr_right (and_congr_right' exists_pathTo_le_succ.symm)
  · rw [show id ∈ (LinkSearch.hop s joinOrder now search).currentLayer ↔ _ from hlayer id, hmem]
    constructor
    · rintro (hnone | ⟨hcurrent, hdistance⟩)
      · exact absurd hnone (Finset.notMem_empty id)
      · exact ⟨.inr hcurrent, hdistance⟩
    · rintro ⟨hpasses, hdistance⟩
      exact .inr ⟨hpasses.resolve_left (hseed hdistance), hdistance⟩
  · rw [show (LinkSearch.hop s joinOrder now search).results = _ from hresults, List.map_append]
    refine List.nodup_append.mpr ⟨h.distinct, hnodup, fun id hid id' hid' => ?_⟩
    rintro rfl
    obtain ⟨-, -, n, hle, hpath⟩ := (h.found id).mp hid
    exact ((hmem id).mp hid').2.2 n (Nat.lt_succ_of_le hle) hpath
  · rw [show (LinkSearch.hop s joinOrder now search).results = _ from hresults, List.map_append,
      List.mem_append, h.found, hmem]
    simp only [FactStore.LinkPath, exists_pathTo_le_succ]
    constructor
    · rintro (⟨hnot, hcurrent, hpath⟩ | ⟨hcurrent, hdistance⟩)
      · exact ⟨hnot, hcurrent, .inl hpath⟩
      · exact ⟨hseed hdistance, hcurrent, .inr hdistance⟩
    · rintro ⟨hnot, hcurrent, hpath | hdistance⟩
      · exact .inl ⟨hnot, hcurrent, hpath⟩
      · exact .inr ⟨hcurrent, hdistance⟩
  · rw [show (LinkSearch.hop s joinOrder now search).results = _ from hresults] at hresult
    rcases List.mem_append.mp hresult with hold | hadded
    · exact h.linked result hold
    · obtain ⟨-, row, hrow, rfl⟩ := hnew result hadded
      exact h.linksTo (hrows.mp hrow)

/-- From an empty layer no hop leads on. -/
theorem hop_of_empty (hempty : search.currentLayer = ∅) :
    LinkSearch.hop s joinOrder now search = search := by
  have hnone : s.linkRows search.currentLayer search.visited = [] := by
    refine List.eq_nil_iff_forall_not_mem.mpr fun row hrow => ?_
    obtain ⟨-, -, hjoin, -⟩ := FactStore.mem_linkRows.mp hrow
    simp [hempty] at hjoin
  have horder : joinOrder.order [] = [] := (joinOrder.perm []).eq_nil
  rw [LinkSearch.hop, hnone, horder, List.foldl_nil, ← hempty]

theorem Searched.hops (joinOrder : JoinOrder) (h : Searched s now seeds k search)
    (depth : Nat) :
    Searched s now seeds (k + depth) (hops s joinOrder now depth search) := by
  induction depth generalizing k search with
  | zero => exact h
  | succ depth ih =>
      have hhop := ih (h.hop joinOrder)
      rw [Nat.add_right_comm] at hhop
      rw [LinkSearch.hops]
      split_ifs with hempty
      · have hstays : LinkSearch.hops s joinOrder now depth search = search := by
          cases depth with
          | zero => rfl
          | succ depth => rw [LinkSearch.hops, if_pos hempty]
        rwa [hop_of_empty hempty, hstays] at hhop
      · exact hhop

end

end LinkSearch

/-- The facts on paths of so many links, each once and with a link to the layer before. -/
theorem linked_facts_by_distance (s : FactStore) (joinOrder : JoinOrder) (now : String)
    (factIds : List String) (depth : Int) :
    let results := s.getLinkedFactsWithin joinOrder now factIds depth
    (results.map (·.fact.id)).Nodup ∧
      (∀ id, id ∈ results.map (·.fact.id) ↔
        s.Current id ∧ id ∉ factIds ∧ ∃ n : Nat, (n : Int) ≤ depth ∧ s.LinkPath factIds n id) ∧
      ∀ result ∈ results, s.LinksTo now factIds result := by
  intro results
  obtain ⟨-, -, hdistinct, hfound, hlinked⟩ := (LinkSearch.searched_start :
    LinkSearch.Searched s now factIds 0 _).hops joinOrder depth.toNat
  have hresults : results = (LinkSearch.hops s joinOrder now depth.toNat
      { visited := factIds.toFinset, currentLayer := factIds.toFinset }).results := by
    by_cases hnil : factIds = []
    · subst hnil
      cases depth.toNat <;> rfl
    · exact if_neg hnil
  rw [hresults]
  refine ⟨hdistinct, fun id => ?_, hlinked⟩
  rw [hfound]
  constructor
  · rintro ⟨hseed, hcurrent, n, hle, hpath⟩
    have hpos : n ≠ 0 := by
      rintro rfl
      exact hseed (pathTo_zero_iff.mp hpath)
    exact ⟨hcurrent, hseed, n, by omega, hpath⟩
  · rintro ⟨hcurrent, hseed, n, hle, hpath⟩
    exact ⟨hseed, hcurrent, n, by omega, hpath⟩

end VirtualContext
