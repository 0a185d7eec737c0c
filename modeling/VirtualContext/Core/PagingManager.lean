import Mathlib.Algebra.BigOperators.Group.List.Basic
import Mathlib.Tactic.Linarith
import VirtualContext.Library.Ordered

/-!
# The paging manager

Expands and collapses topics in the working set.  Expansion makes room by
evicting the coldest topics and gives up if that is not enough; collapsing sets
the requested depth without looking at the budget.
-/

namespace VirtualContext

open VirtualContext.Library

/-! ## The working set -/

inductive DepthLevel where
  | none | summary | segments | full
  deriving DecidableEq, Repr

/-- `DepthLevel(depth)` -/
def DepthLevel.ofString? : String → Option DepthLevel
  | "none" => some .none
  | "summary" => some .summary
  | "segments" => some .segments
  | "full" => some .full
  | _ => Option.none

structure WorkingSetEntry where
  tag : String
  depth : DepthLevel := .summary
  tokens : Nat := 0
  lastAccessedTurn : Nat := 0
  deriving DecidableEq, Repr

/-- The dictionary of entries, keyed by their own tags. -/
@[ext]
structure WorkingSet where
  entries : List WorkingSetEntry
  keys : (entries.map (·.tag)).Nodup
  deriving DecidableEq

namespace WorkingSet

def empty : WorkingSet := ⟨[], List.nodup_nil⟩

def get? (ws : WorkingSet) (tag : String) : Option WorkingSetEntry :=
  ws.entries.find? (·.tag = tag)

def erase (ws : WorkingSet) (tag : String) : WorkingSet where
  entries := ws.entries.filter (·.tag ≠ tag)
  keys := ws.keys.sublist (List.filter_sublist.map _)

/-- Assignment to a key: in place if the key is present, else at the end. -/
def set (ws : WorkingSet) (entry : WorkingSetEntry) : WorkingSet where
  entries :=
    if entry.tag ∈ ws.entries.map (·.tag) then
      ws.entries.map fun old => if old.tag = entry.tag then entry else old
    else ws.entries ++ [entry]
  keys := by
    split_ifs with h
    · have hsame : ((fun old : WorkingSetEntry => old.tag) ∘ fun old =>
          if old.tag = entry.tag then entry else old) = (·.tag) := by
        funext old
        by_cases hold : old.tag = entry.tag <;> simp [hold]
      rw [List.map_map, hsame]
      exact ws.keys
    · rw [List.map_append, List.nodup_append]
      refine ⟨ws.keys, List.nodup_singleton _, ?_⟩
      rintro tag htag _ (_ | ⟨_, ⟨⟩⟩) rfl
      exact h htag

/-- `sum(ws.tokens for ws in working_set.values())` -/
def total (ws : WorkingSet) : Nat := (ws.entries.map (·.tokens)).sum

end WorkingSet

/-! ## The manager -/

structure PagedSegment where
  summaryTokens : Nat
  fullTokens : Nat
  fullText : String

structure PagingManager where
  /-- The summary tokens of `get_tag_summary`, if there is a summary. -/
  getTagSummary : String → Option Nat
  getSegmentsByTags : String → List PagedSegment
  tokenCounter : String → Nat
  tagContextMaxTokens : Nat
  autoEvict : Bool := true
  pagingEnabled : Bool := true

inductive PagingResult where
  | error (message : String)
  | insufficientBudget (tag : String) (needed : Nat) (available : Int)
  | expanded (tag : String) (depth : DepthLevel) (tokensAdded tokensEvicted : Int)
      (evictedTags : List String)
  | collapsed (tag : String) (depth : DepthLevel) (tokensFreed : Nat)
  deriving DecidableEq, Repr

namespace PagingManager

variable (m : PagingManager)

def calculateDepthTokens (tag : String) : DepthLevel → Nat
  | .none => 0
  | .summary => (m.getTagSummary tag).getD 0
  | .segments => ((m.getSegmentsByTags tag).map (·.summaryTokens)).sum
  | .full =>
      ((m.getSegmentsByTags tag).map fun segment =>
        if segment.fullTokens ≠ 0 then segment.fullTokens
        else m.tokenCounter segment.fullText).sum

def collapseTopic (ws : WorkingSet) (tag depth : String) :
    PagingResult × WorkingSet :=
  if !m.pagingEnabled then (.error "paging not enabled", ws)
  else
    match DepthLevel.ofString? depth with
    | none => (.error s!"invalid depth: {depth}", ws)
    | some targetDepth =>
        match ws.get? tag with
        | none => (.collapsed tag targetDepth 0, ws)
        | some entry =>
            if targetDepth = .none then
              (.collapsed tag .none entry.tokens, ws.erase tag)
            else
              let newTokens := m.calculateDepthTokens tag targetDepth
              (.collapsed tag targetDepth (entry.tokens - newTokens),
                ws.set { entry with depth := targetDepth, tokens := newTokens })

/-- The eviction loop over the candidates, coldest first. -/
def evictLoop (needed : Int) :
    List WorkingSetEntry → (evicted : List String) → (freed : Int) → WorkingSet →
      List String × Int × WorkingSet
  | [], evicted, freed, ws => (evicted, freed, ws)
  | entry :: candidates, evicted, freed, ws =>
      if needed ≤ freed then (evicted, freed, ws)
      else
        let summaryTokens := m.calculateDepthTokens entry.tag .summary
        if entry.tokens ≤ summaryTokens then
          evictLoop needed candidates (evicted ++ [entry.tag])
            (freed + entry.tokens) (ws.erase entry.tag)
        else
          evictLoop needed candidates (evicted ++ [entry.tag])
            (freed + (entry.tokens - summaryTokens))
            (ws.set { entry with depth := .summary, tokens := summaryTokens })

def evict (ws : WorkingSet) (needed : Int) (excludeTag : String) :
    List String × Int × WorkingSet :=
  m.evictLoop needed
    (orderBy (·.lastAccessedTurn) (ws.entries.filter (·.tag ≠ excludeTag))) [] 0 ws

/-- What `expand_topic` does once the tokens of the depth are known. -/
def expandTo (ws : WorkingSet) (tag : String) (targetDepth : DepthLevel)
    (tokensAtDepth : Nat) : PagingResult × WorkingSet :=
  let currentTotal : Int := ws.total
  let currentTagTokens : Int := ((ws.get? tag).map (·.tokens)).getD 0
  let delta : Int := tokensAtDepth - currentTagTokens
  let budget : Int := m.tagContextMaxTokens
  let (evictedTags, tokensEvicted, ws) :=
    if m.autoEvict ∧ budget < currentTotal + delta then
      m.evict ws (currentTotal + delta - budget) tag
    else ([], 0, ws)
  if budget < currentTotal + delta - tokensEvicted then
    (.insufficientBudget tag tokensAtDepth
      (budget - (currentTotal - currentTagTokens - tokensEvicted)), ws)
  else
    let turn := (ws.entries.map (·.lastAccessedTurn)).foldl max 0
    (.expanded tag targetDepth delta tokensEvicted evictedTags,
      ws.set ⟨tag, targetDepth, tokensAtDepth, turn + 1⟩)

def expandTopic (ws : WorkingSet) (tag depth : String) :
    PagingResult × WorkingSet :=
  if !m.pagingEnabled then (.error "paging not enabled", ws)
  else
    match DepthLevel.ofString? depth with
    | none => (.error s!"invalid depth: {depth}", ws)
    | some targetDepth =>
        if targetDepth = .none then m.collapseTopic ws tag "none"
        else
          let tokensAtDepth := m.calculateDepthTokens tag targetDepth
          if tokensAtDepth = 0 then
            (.error s!"no stored content for tag: {tag}", ws)
          else m.expandTo ws tag targetDepth tokensAtDepth

end PagingManager

/-! ## Sums over the working set -/

namespace WorkingSet

variable {ws : WorkingSet} {entry : WorkingSetEntry}

theorem mem_of_get? {tag : String} (h : ws.get? tag = some entry) :
    entry ∈ ws.entries ∧ entry.tag = tag :=
  ⟨List.mem_of_find?_eq_some h, by simpa using List.find?_some h⟩

theorem get?_eq_none {tag : String} (h : ws.get? tag = none) :
    tag ∉ ws.entries.map (·.tag) := by
  intro hmem
  obtain ⟨entry, hentry, rfl⟩ := List.mem_map.mp hmem
  simpa using List.find?_eq_none.mp h entry hentry

theorem eq_of_tag {other : WorkingSetEntry} (h : entry ∈ ws.entries)
    (hother : other ∈ ws.entries) (htag : entry.tag = other.tag) :
    entry = other :=
  List.inj_on_of_nodup_map ws.keys h hother htag

theorem entries_set (ws : WorkingSet) (entry : WorkingSetEntry) :
    (ws.set entry).entries =
      if entry.tag ∈ ws.entries.map (·.tag) then
        ws.entries.map fun old => if old.tag = entry.tag then entry else old
      else ws.entries ++ [entry] := rfl

private theorem sum_filter (entries : List WorkingSetEntry)
    (hkeys : (entries.map (·.tag)).Nodup) (h : entry ∈ entries) :
    ((entries.filter (·.tag ≠ entry.tag)).map (·.tokens)).sum + entry.tokens =
      (entries.map (·.tokens)).sum := by
  induction entries with
  | nil => simp at h
  | cons first rest ih =>
      obtain ⟨hfirst, hrest⟩ := List.nodup_cons.mp hkeys
      rcases List.mem_cons.mp h with rfl | hmem
      · have hkeep : rest.filter (·.tag ≠ entry.tag) = rest := by
          rw [List.filter_eq_self]
          intro other hother
          simp only [decide_eq_true_eq]
          rintro heq
          exact hfirst (List.mem_map.mpr ⟨other, hother, heq⟩)
        simp only [ne_eq, decide_not] at hkeep
        simp [hkeep, Nat.add_comm]
      · have hne : first.tag ≠ entry.tag := by
          rintro heq
          exact hfirst (List.mem_map.mpr ⟨entry, hmem, heq.symm⟩)
        have := ih hrest hmem
        simp only [ne_eq, decide_not] at this
        simp [hne, ← this, Nat.add_assoc]

private theorem sum_replace (entries : List WorkingSetEntry)
    (hkeys : (entries.map (·.tag)).Nodup) (h : entry ∈ entries)
    {new : WorkingSetEntry} (htag : new.tag = entry.tag) :
    ((entries.map fun old => if old.tag = new.tag then new else old).map
        (·.tokens)).sum + entry.tokens =
      (entries.map (·.tokens)).sum + new.tokens := by
  induction entries with
  | nil => simp at h
  | cons first rest ih =>
      obtain ⟨hfirst, hrest⟩ := List.nodup_cons.mp hkeys
      rcases List.mem_cons.mp h with rfl | hmem
      · have hkeep : (rest.map fun old =>
            if old.tag = new.tag then new else old) = rest := by
          conv_rhs => rw [← List.map_id rest]
          apply List.map_congr_left
          intro other hother
          rw [if_neg]
          · rfl
          · rw [htag]
            rintro heq
            exact hfirst (List.mem_map.mpr ⟨other, hother, heq⟩)
        rw [List.map_cons, hkeep, if_pos htag.symm]
        simp only [List.map_cons, List.sum_cons]
        omega
      · have hne : first.tag ≠ new.tag := by
          rw [htag]
          rintro heq
          exact hfirst (List.mem_map.mpr ⟨entry, hmem, heq.symm⟩)
        have := ih hrest hmem
        rw [List.map_cons, if_neg hne]
        simp only [List.map_cons, List.sum_cons]
        omega

theorem total_erase (h : entry ∈ ws.entries) :
    (ws.erase entry.tag).total + entry.tokens = ws.total :=
  sum_filter ws.entries ws.keys h

theorem total_set (h : entry ∈ ws.entries) (new : WorkingSetEntry)
    (htag : new.tag = entry.tag) :
    (ws.set new).total + entry.tokens = ws.total + new.tokens := by
  unfold total
  rw [entries_set, if_pos (List.mem_map.mpr ⟨entry, h, htag.symm⟩)]
  exact sum_replace ws.entries ws.keys h htag

theorem total_set_new {new : WorkingSetEntry}
    (h : new.tag ∉ ws.entries.map (·.tag)) :
    (ws.set new).total = ws.total + new.tokens := by
  unfold total
  rw [entries_set, if_neg h]
  simp

theorem mem_erase {tag : String} (h : entry ∈ ws.entries)
    (hne : entry.tag ≠ tag) : entry ∈ (ws.erase tag).entries :=
  List.mem_filter.mpr ⟨h, by simpa using hne⟩

theorem mem_set {new : WorkingSetEntry} (h : entry ∈ ws.entries)
    (hne : entry.tag ≠ new.tag) : entry ∈ (ws.set new).entries := by
  unfold set
  dsimp only
  split_ifs
  · exact List.mem_map.mpr ⟨entry, h, if_neg hne⟩
  · exact List.mem_append_left _ h

theorem get?_eq_some {tag : String} :
    ws.get? tag = some entry ↔ entry ∈ ws.entries ∧ entry.tag = tag := by
  refine ⟨mem_of_get?, ?_⟩
  rintro ⟨hmem, rfl⟩
  cases hget : ws.get? entry.tag with
  | none => exact absurd (List.mem_map_of_mem hmem) (get?_eq_none hget)
  | some other =>
      obtain ⟨hother, htag⟩ := mem_of_get? hget
      rw [eq_of_tag hother hmem htag]

theorem get?_erase {tag other : String} (hne : tag ≠ other) :
    (ws.erase tag).get? other = ws.get? other := by
  apply Option.ext
  intro entry
  rw [get?_eq_some, get?_eq_some]
  constructor
  · rintro ⟨hmem, htag⟩
    exact ⟨(List.mem_filter.mp hmem).1, htag⟩
  · rintro ⟨hmem, rfl⟩
    exact ⟨mem_erase hmem hne.symm, rfl⟩

theorem get?_set {new : WorkingSetEntry} {other : String}
    (hne : new.tag ≠ other) : (ws.set new).get? other = ws.get? other := by
  apply Option.ext
  intro entry
  rw [get?_eq_some, get?_eq_some]
  constructor
  · rintro ⟨hmem, rfl⟩
    rw [entries_set] at hmem
    refine ⟨?_, rfl⟩
    split_ifs at hmem
    · obtain ⟨old, hold, heq⟩ := List.mem_map.mp hmem
      split_ifs at heq
      · exact absurd (congrArg (·.tag) heq) hne
      · exact heq ▸ hold
    · rcases List.mem_append.mp hmem with hold | hnew
      · exact hold
      · rw [List.mem_singleton] at hnew
        exact absurd (congrArg (·.tag) hnew.symm) hne
  · rintro ⟨hmem, rfl⟩
    exact ⟨mem_set hmem hne.symm, rfl⟩

/-- The tokens that assigning to a tag replaces. -/
theorem total_set_add (ws : WorkingSet) (new : WorkingSetEntry) :
    ((ws.set new).total : Int) + ((ws.get? new.tag).map (·.tokens)).getD 0 =
      ws.total + new.tokens := by
  cases hget : ws.get? new.tag with
  | none =>
      rw [total_set_new (get?_eq_none hget)]
      simp
  | some entry =>
      obtain ⟨hmem, htag⟩ := mem_of_get? hget
      have := total_set hmem new htag.symm
      simp only [Option.map_some, Option.getD_some]
      omega

end WorkingSet

/-! ## What one call does to the sum -/

namespace PagingManager

variable {m : PagingManager}

/-- The loop frees what the sum loses and leaves every other entry alone. -/
theorem evictLoop_spec (needed : Int) {candidates : List WorkingSetEntry}
    (hkeys : (candidates.map (·.tag)).Nodup) (evicted : List String)
    (freed : Int) (ws : WorkingSet) (hmem : ∀ entry ∈ candidates,
      entry ∈ ws.entries) :
    let result := m.evictLoop needed candidates evicted freed ws
    (result.2.2.total : Int) + result.2.1 = ws.total + freed ∧
      freed ≤ result.2.1 ∧
      ∀ tag, tag ∉ candidates.map (·.tag) →
        result.2.2.get? tag = ws.get? tag := by
  induction candidates generalizing evicted freed ws with
  | nil => exact ⟨rfl, le_rfl, fun _ _ => rfl⟩
  | cons entry candidates ih =>
      obtain ⟨hentry, hrest⟩ := List.nodup_cons.mp hkeys
      have hin := hmem entry List.mem_cons_self
      have hother : ∀ other ∈ candidates, other ∈ ws.entries ∧
          other.tag ≠ entry.tag := fun other h =>
        ⟨hmem other (List.mem_cons_of_mem _ h),
          fun heq => hentry (List.mem_map.mpr ⟨other, h, heq⟩)⟩
      unfold evictLoop
      dsimp only
      split_ifs with henough hsmall
      · exact ⟨rfl, le_rfl, fun _ _ => rfl⟩
      · obtain ⟨hsum, hfreed, hget⟩ := ih hrest (evicted ++ [entry.tag])
          (freed + entry.tokens) (ws.erase entry.tag)
          fun other h => WorkingSet.mem_erase (hother other h).1 (hother other h).2
        have htotal := WorkingSet.total_erase hin
        refine ⟨by omega, by omega, fun tag htag => ?_⟩
        rw [List.map_cons, List.mem_cons, not_or] at htag
        rw [hget tag htag.2]
        exact WorkingSet.get?_erase (Ne.symm htag.1)
      · obtain ⟨hsum, hfreed, hget⟩ := ih hrest (evicted ++ [entry.tag])
          (freed + (entry.tokens - m.calculateDepthTokens entry.tag .summary))
          (ws.set { entry with
            depth := .summary
            tokens := m.calculateDepthTokens entry.tag .summary })
          fun other h => WorkingSet.mem_set (hother other h).1 (hother other h).2
        have htotal := WorkingSet.total_set hin { entry with
          depth := .summary
          tokens := m.calculateDepthTokens entry.tag .summary } rfl
        dsimp only at htotal
        refine ⟨by omega, by omega, fun tag htag => ?_⟩
        rw [List.map_cons, List.mem_cons, not_or] at htag
        rw [hget tag htag.2]
        exact WorkingSet.get?_set (Ne.symm htag.1)

/-- Eviction for a topic frees what the sum loses and keeps that topic. -/
theorem evict_spec (ws : WorkingSet) (needed : Int) (tag : String) :
    let result := m.evict ws needed tag
    (result.2.2.total : Int) + result.2.1 = ws.total ∧ 0 ≤ result.2.1 ∧
      result.2.2.get? tag = ws.get? tag := by
  have hperm := orderBy_perm (·.lastAccessedTurn)
    (ws.entries.filter (·.tag ≠ tag))
  obtain ⟨hsum, hfreed, hget⟩ := evictLoop_spec (m := m) needed
    ((hperm.map (·.tag)).nodup_iff.mpr
      (ws.keys.sublist (List.filter_sublist.map _))) [] 0 ws
    fun entry h => (List.mem_filter.mp (hperm.mem_iff.mp h)).1
  refine ⟨hsum.trans (add_zero _), hfreed, hget tag fun hmem => ?_⟩
  obtain ⟨entry, hentry, rfl⟩ := List.mem_map.mp hmem
  simpa using (List.mem_filter.mp (hperm.mem_iff.mp hentry)).2

/-- A call after which the sum is within the budget if it was before. -/
def Keeps (m : PagingManager) (ws ws' : WorkingSet) : Prop :=
  ws.total ≤ m.tagContextMaxTokens → ws'.total ≤ m.tagContextMaxTokens

theorem expandTo_keeps (ws : WorkingSet) (tag : String) (depth : DepthLevel)
    (tokens : Nat) : m.Keeps ws (m.expandTo ws tag depth tokens).2 := by
  intro hfits
  unfold expandTo
  extract_lets currentTotal currentTagTokens delta budget
  have hmade : ∀ made, made = (if m.autoEvict ∧ budget < currentTotal + delta
      then m.evict ws (currentTotal + delta - budget) tag else ([], 0, ws)) →
      (made.2.2.total : Int) + made.2.1 = ws.total ∧ 0 ≤ made.2.1 ∧
        made.2.2.get? tag = ws.get? tag := by
    rintro made rfl
    split_ifs
    · exact evict_spec ws _ tag
    · simp
  split
  rename_i evictedTags freed made heq
  obtain ⟨hsum, hfreed, hget⟩ := hmade _ heq.symm
  dsimp only at hsum hfreed hget ⊢
  split_ifs with hover
  · dsimp only
    omega
  · have hset := WorkingSet.total_set_add made ⟨tag, depth, tokens,
      (made.entries.map (·.lastAccessedTurn)).foldl max 0 + 1⟩
    dsimp only at hset ⊢
    rw [hget] at hset
    have htokens : currentTagTokens =
        (((ws.get? tag).map (·.tokens)).getD 0 : Nat) := by
      cases hentry : ws.get? tag <;> simp [currentTagTokens, hentry]
    omega

end PagingManager

/-! ## Runs of calls -/

inductive PagingCall where
  | expandTopic (tag depth : String)
  | collapseTopic (tag depth : String)

namespace PagingManager

variable (m : PagingManager)

def call (ws : WorkingSet) : PagingCall → PagingResult × WorkingSet
  | .expandTopic tag depth => m.expandTopic ws tag depth
  | .collapseTopic tag depth => m.collapseTopic ws tag depth

/-- The working set after every call. -/
def statesAfter (ws : WorkingSet) : List PagingCall → List WorkingSet
  | [] => []
  | call :: calls =>
      (m.call ws call).2 :: statesAfter (m.call ws call).2 calls

/-- A collapse to a depth whose tokens fit next to the other entries. -/
def CollapseFits (ws : WorkingSet) : PagingCall → Prop
  | .expandTopic _ _ => True
  | .collapseTopic tag depth =>
      m.pagingEnabled → ∀ targetDepth entry,
        DepthLevel.ofString? depth = some targetDepth → targetDepth ≠ .none →
        ws.get? tag = some entry →
          ws.total - entry.tokens + m.calculateDepthTokens tag targetDepth ≤
            m.tagContextMaxTokens

/-- Every collapse of the run fits where it is made. -/
def CollapsesFit (ws : WorkingSet) : List PagingCall → Prop
  | [] => True
  | call :: calls =>
      m.CollapseFits ws call ∧ CollapsesFit (m.call ws call).2 calls

variable {m} {ws : WorkingSet}

theorem collapseTopic_within_iff {tag depth : String}
    (hfits : ws.total ≤ m.tagContextMaxTokens) :
    (m.collapseTopic ws tag depth).2.total ≤ m.tagContextMaxTokens ↔
      m.CollapseFits ws (.collapseTopic tag depth) := by
  unfold collapseTopic CollapseFits
  cases henabled : m.pagingEnabled
  · simp [hfits]
  · cases hdepth : DepthLevel.ofString? depth with
    | none =>
        refine iff_of_true hfits ?_
        rintro - targetDepth entry heq
        cases hdepth.symm.trans heq
    | some targetDepth =>
        cases hget : ws.get? tag with
        | none =>
            refine iff_of_true hfits ?_
            rintro - _ entry - - heq
            cases hget.symm.trans heq
        | some entry =>
            obtain ⟨hmem, rfl⟩ := WorkingSet.mem_of_get? hget
            have herase := WorkingSet.total_erase hmem
            by_cases hnone : targetDepth = .none
            · refine iff_of_true ?_ ?_
              · simp only [Bool.not_true, Bool.false_eq_true, if_false, hnone,
                  if_true]
                omega
              · rintro - other _ heq hne
                cases hdepth.symm.trans heq
                exact absurd hnone hne
            · have hset := WorkingSet.total_set hmem { entry with
                depth := targetDepth
                tokens := m.calculateDepthTokens entry.tag targetDepth } rfl
              dsimp only at hset
              simp only [Bool.not_true, Bool.false_eq_true, if_false, hnone]
              constructor
              · rintro hle - other _ heq - hother
                cases hdepth.symm.trans heq
                cases hget.symm.trans hother
                omega
              · intro h
                have := h trivial targetDepth entry hdepth hnone hget
                omega

theorem expandTopic_keeps (tag depth : String) :
    m.Keeps ws (m.expandTopic ws tag depth).2 := by
  intro hfits
  unfold expandTopic
  split_ifs
  · exact hfits
  · split
    · exact hfits
    · rename_i targetDepth _
      dsimp only
      split_ifs
      -- the request for no depth at all is a collapse that removes the entry
      · rw [collapseTopic_within_iff hfits]
        rintro - _ entry ⟨⟩ hne
        exact absurd rfl hne
      · exact hfits
      · exact expandTo_keeps ws tag targetDepth _ hfits

/-- One call stays within the budget exactly if it is no deepening collapse. -/
theorem call_within_iff (hfits : ws.total ≤ m.tagContextMaxTokens)
    (call : PagingCall) :
    (m.call ws call).2.total ≤ m.tagContextMaxTokens ↔
      m.CollapseFits ws call := by
  cases call with
  | expandTopic tag depth =>
      exact iff_of_true (expandTopic_keeps tag depth hfits) trivial
  | collapseTopic tag depth => exact collapseTopic_within_iff hfits

theorem statesAfter_within_iff (hfits : ws.total ≤ m.tagContextMaxTokens)
    (calls : List PagingCall) :
    (∀ ws' ∈ m.statesAfter ws calls, ws'.total ≤ m.tagContextMaxTokens) ↔
      m.CollapsesFit ws calls := by
  induction calls generalizing ws with
  | nil => simp [statesAfter, CollapsesFit]
  | cons call calls ih =>
      rw [statesAfter, CollapsesFit, List.forall_mem_cons,
        call_within_iff hfits call]
      refine and_congr_right fun hcall => ih ?_
      exact (call_within_iff hfits call).mpr hcall

end PagingManager

/--
A run from an empty working set stays within the budget exactly if each of its
collapses asks for a depth that fits.
-/
theorem paging_within_budget_iff (m : PagingManager) (calls : List PagingCall) :
    (∀ ws ∈ m.statesAfter .empty calls, ws.total ≤ m.tagContextMaxTokens) ↔
      m.CollapsesFit .empty calls :=
  PagingManager.statesAfter_within_iff (Nat.zero_le _) calls

/-- A budget of fifty tokens and a topic with ten of summary and ninety in full. -/
def narrowPaging : PagingManager where
  getTagSummary _ := some 10
  getSegmentsByTags _ := [⟨20, 90, "..."⟩]
  tokenCounter _ := 0
  tagContextMaxTokens := 50

/-- Collapsing the topic to its full depth takes the sum to ninety tokens. -/
theorem collapse_exceeds_budget :
    (narrowPaging.statesAfter .empty
        [.expandTopic "topic" "summary", .collapseTopic "topic" "full"]).map
      (·.total) = [10, 90] := by
  decide +kernel

/-! ## Expansions that fail -/

def PagingResult.isError : PagingResult → Bool
  | .error _ => true
  | .insufficientBudget .. => true
  | .expanded .. => false
  | .collapsed .. => false

namespace PagingManager

variable (m : PagingManager)

/-- The tokens that are left of an entry once it is evicted. -/
def keptByEviction (entry : WorkingSetEntry) : Nat :=
  let summaryTokens := m.calculateDepthTokens entry.tag .summary
  if entry.tokens ≤ summaryTokens then 0 else summaryTokens

/-- What the others hold at least, however many of them are evicted. -/
def leastOthers (ws : WorkingSet) (tag : String) : Nat :=
  ((ws.entries.filter (·.tag ≠ tag)).map m.keptByEviction).sum

/-- Eviction has topics to go through, and all of them are not enough. -/
def EvictsInVain (ws : WorkingSet) (tag depth : String) : Prop :=
  m.pagingEnabled ∧ m.autoEvict ∧ (∃ entry ∈ ws.entries, entry.tag ≠ tag) ∧
    ∃ targetDepth, DepthLevel.ofString? depth = some targetDepth ∧
      m.calculateDepthTokens tag targetDepth ≠ 0 ∧
      m.tagContextMaxTokens <
        m.calculateDepthTokens tag targetDepth + m.leastOthers ws tag

variable {m}

theorem keptByEviction_le (entry : WorkingSetEntry) :
    m.keptByEviction entry ≤ entry.tokens := by
  unfold keptByEviction
  dsimp only
  split_ifs <;> omega

theorem sum_kept_le (entries : List WorkingSetEntry) :
    (entries.map m.keptByEviction).sum ≤ (entries.map (·.tokens)).sum := by
  induction entries with
  | nil => exact le_rfl
  | cons entry entries ih =>
      rw [List.map_cons, List.map_cons, List.sum_cons, List.sum_cons]
      exact Nat.add_le_add (keptByEviction_le entry) ih

/-- The loop fails to free enough exactly if the candidates together do. -/
theorem evictLoop_lt_iff {needed : Int} (candidates : List WorkingSetEntry)
    (evicted : List String) (freed : Int) (ws : WorkingSet) :
    (m.evictLoop needed candidates evicted freed ws).2.1 < needed ↔
      freed + ((candidates.map (·.tokens)).sum : Nat) -
        ((candidates.map m.keptByEviction).sum : Nat) < needed := by
  induction candidates generalizing evicted freed ws with
  | nil => simp [evictLoop]
  | cons entry candidates ih =>
      have hall := sum_kept_le (m := m) (entry :: candidates)
      rw [List.map_cons, List.map_cons, List.sum_cons, List.sum_cons] at hall ⊢
      have hentry : m.keptByEviction entry =
          if entry.tokens ≤ m.calculateDepthTokens entry.tag .summary then 0
          else m.calculateDepthTokens entry.tag .summary := rfl
      unfold evictLoop
      dsimp only
      split_ifs with henough hsmall
      · dsimp only
        omega
      · have hrest := ih (evicted ++ [entry.tag]) (freed + entry.tokens)
          (ws.erase entry.tag)
        rw [hrest, hentry, if_pos hsmall]
        omega
      · have hrest := ih (evicted ++ [entry.tag])
          (freed + (entry.tokens - m.calculateDepthTokens entry.tag .summary))
          (ws.set { entry with
            depth := .summary
            tokens := m.calculateDepthTokens entry.tag .summary })
        rw [hrest, hentry, if_neg hsmall]
        omega

/-- The coldest candidate does not stay as it was. -/
theorem evictLoop_changes {needed freed : Int} {entry : WorkingSetEntry}
    {candidates : List WorkingSetEntry} (evicted : List String) {ws : WorkingSet}
    (hkeys : ((entry :: candidates).map (·.tag)).Nodup)
    (hmem : ∀ other ∈ entry :: candidates, other ∈ ws.entries)
    (hlt : freed < needed) :
    (m.evictLoop needed (entry :: candidates) evicted freed ws).2.2 ≠ ws := by
  obtain ⟨hentry, hrest⟩ := List.nodup_cons.mp hkeys
  have hin := hmem entry List.mem_cons_self
  have hother : ∀ other ∈ candidates, other ∈ ws.entries ∧
      other.tag ≠ entry.tag := fun other h =>
    ⟨hmem other (List.mem_cons_of_mem _ h),
      fun heq => hentry (List.mem_map.mpr ⟨other, h, heq⟩)⟩
  have hget : ws.get? entry.tag = some entry := WorkingSet.get?_eq_some.mpr ⟨hin, rfl⟩
  intro hsame
  rw [← hsame] at hget
  unfold evictLoop at hget
  rw [if_neg (not_le.mpr hlt)] at hget
  dsimp only at hget
  split_ifs at hget with hsmall
  · obtain ⟨-, -, hkeep⟩ := evictLoop_spec (m := m) needed hrest
      (evicted ++ [entry.tag]) (freed + entry.tokens) (ws.erase entry.tag)
      fun other h => WorkingSet.mem_erase (hother other h).1 (hother other h).2
    rw [hkeep entry.tag hentry, WorkingSet.get?_eq_some] at hget
    simpa using (List.mem_filter.mp hget.1).2
  · obtain ⟨-, -, hkeep⟩ := evictLoop_spec (m := m) needed hrest
      (evicted ++ [entry.tag])
      (freed + (entry.tokens - m.calculateDepthTokens entry.tag .summary))
      (ws.set { entry with
        depth := .summary
        tokens := m.calculateDepthTokens entry.tag .summary })
      fun other h => WorkingSet.mem_set (hother other h).1 (hother other h).2
    rw [hkeep entry.tag hentry, WorkingSet.get?_eq_some, WorkingSet.entries_set,
      if_pos (List.mem_map_of_mem hin)] at hget
    obtain ⟨old, -, hold⟩ := List.mem_map.mp hget.1
    split_ifs at hold with htag
    · have htokens := congrArg WorkingSetEntry.tokens hold
      dsimp only at htokens
      omega
    · exact htag (by rw [hold])

theorem total_filter (ws : WorkingSet) (tag : String) :
    ((ws.entries.filter (·.tag ≠ tag)).map (·.tokens)).sum +
      ((ws.get? tag).map (·.tokens)).getD 0 = ws.total := by
  cases hget : ws.get? tag with
  | none =>
      have hkeep : ws.entries.filter (·.tag ≠ tag) = ws.entries := by
        rw [List.filter_eq_self]
        intro entry hentry
        rw [decide_eq_true_eq]
        rintro rfl
        exact WorkingSet.get?_eq_none hget (List.mem_map_of_mem hentry)
      rw [hkeep]
      rfl
  | some entry =>
      obtain ⟨hmem, rfl⟩ := WorkingSet.mem_of_get? hget
      exact WorkingSet.total_erase hmem

/-- Evicting for a topic frees too little exactly if the others keep too much. -/
theorem evict_lt_iff (ws : WorkingSet) (tag : String) (needed : Int) :
    (m.evict ws needed tag).2.1 < needed ↔
      (ws.total : Int) - ((ws.get? tag).map (·.tokens)).getD 0 -
        m.leastOthers ws tag < needed := by
  have hperm := orderBy_perm (·.lastAccessedTurn)
    (ws.entries.filter (·.tag ≠ tag))
  have htotal := total_filter ws tag
  unfold evict leastOthers
  rw [evictLoop_lt_iff, (hperm.map _).sum_eq, (hperm.map _).sum_eq]
  omega

theorem evict_changes (ws : WorkingSet) (tag : String) {needed : Int}
    (hneeded : 0 < needed) (hother : ∃ entry ∈ ws.entries, entry.tag ≠ tag) :
    (m.evict ws needed tag).2.2 ≠ ws := by
  obtain ⟨entry, hentry, hne⟩ := hother
  have hperm := orderBy_perm (·.lastAccessedTurn)
    (ws.entries.filter (·.tag ≠ tag))
  have hkeys := (hperm.map (·.tag)).nodup_iff.mpr
    (ws.keys.sublist (List.filter_sublist.map _))
  have hmem : ∀ other ∈ orderBy (·.lastAccessedTurn)
      (ws.entries.filter (·.tag ≠ tag)), other ∈ ws.entries :=
    fun other h => (List.mem_filter.mp (hperm.mem_iff.mp h)).1
  have hsome : entry ∈ orderBy (·.lastAccessedTurn)
      (ws.entries.filter (·.tag ≠ tag)) :=
    hperm.mem_iff.mpr (List.mem_filter.mpr ⟨hentry, by simpa using hne⟩)
  unfold evict
  cases hcandidates : orderBy (·.lastAccessedTurn)
      (ws.entries.filter (·.tag ≠ tag)) with
  | nil =>
      rw [hcandidates] at hsome
      exact absurd hsome List.not_mem_nil
  | cons first candidates =>
      rw [hcandidates] at hkeys hmem
      exact evictLoop_changes [] hkeys hmem hneeded

/-- With nobody else in the working set there is nothing to evict. -/
theorem evict_alone (ws : WorkingSet) (tag : String) (needed : Int)
    (hother : ¬∃ entry ∈ ws.entries, entry.tag ≠ tag) :
    (m.evict ws needed tag).2.2 = ws := by
  have hnone : ws.entries.filter (·.tag ≠ tag) = [] := by
    rw [List.filter_eq_nil_iff]
    intro entry hentry hne
    exact hother ⟨entry, hentry, by simpa using hne⟩
  unfold evict
  rw [hnone]
  rfl

theorem expandTo_unchanged_iff (ws : WorkingSet) (tag : String)
    (depth : DepthLevel) (tokens : Nat) :
    ((m.expandTo ws tag depth tokens).1.isError →
        (m.expandTo ws tag depth tokens).2 = ws) ↔
      ¬(m.autoEvict ∧ (∃ entry ∈ ws.entries, entry.tag ≠ tag) ∧
        m.tagContextMaxTokens < tokens + m.leastOthers ws tag) := by
  have htotal := total_filter ws tag
  have hleast : m.leastOthers ws tag ≤
      ((ws.entries.filter (·.tag ≠ tag)).map (·.tokens)).sum := sum_kept_le _
  unfold expandTo
  extract_lets currentTotal currentTagTokens delta budget
  have htag : currentTagTokens = (((ws.get? tag).map (·.tokens)).getD 0 : Nat) := by
    cases hentry : ws.get? tag <;> simp [currentTagTokens, hentry]
  have hdelta : currentTotal + delta = tokens +
      (((ws.entries.filter (·.tag ≠ tag)).map (·.tokens)).sum : Nat) := by
    change (ws.total : Int) + (tokens - currentTagTokens) = _
    omega
  by_cases hevict : m.autoEvict ∧ budget < currentTotal + delta
  · rw [if_pos hevict]
    have hlt := evict_lt_iff (m := m) ws tag (currentTotal + delta - budget)
    have hchange := evict_changes (m := m) ws tag
      (sub_pos.mpr hevict.2 : 0 < currentTotal + delta - budget)
    have halone := evict_alone (m := m) ws tag (currentTotal + delta - budget)
    have hbudget : budget = m.tagContextMaxTokens := rfl
    cases hmade : m.evict ws (currentTotal + delta - budget) tag with
    | mk evicted rest =>
        rw [hmade] at hlt hchange halone
        dsimp only at hlt hchange halone ⊢
        split_ifs with hover
        · -- the eviction has not freed enough, so every candidate is gone through
          have hshort : m.tagContextMaxTokens < tokens + m.leastOthers ws tag := by
            have := hlt.mp (by omega)
            omega
          have hsame : rest.2 = ws ↔ ¬∃ entry ∈ ws.entries, entry.tag ≠ tag :=
            ⟨fun hws hother => hchange hother hws, halone⟩
          simp only [PagingResult.isError, forall_const, hsame, hevict.1, hshort,
            true_and, and_true]
        · refine iff_of_true (fun herror => absurd herror (by simp [PagingResult.isError])) ?_
          rintro ⟨-, -, hshort⟩
          have := hlt.mpr (by omega)
          omega
  · rw [if_neg hevict]
    dsimp only
    refine iff_of_true ?_ ?_
    · split_ifs
      · exact fun _ => rfl
      · exact fun herror => absurd herror (by simp [PagingResult.isError])
    · rintro ⟨hauto, -, hshort⟩
      refine hevict ⟨hauto, ?_⟩
      change (m.tagContextMaxTokens : Int) < _
      omega

end PagingManager

/--
A failed expansion leaves the working set as it was, unless it evicted topics and
still found no room.
-/
theorem failed_expansion_unchanged_iff (m : PagingManager) (ws : WorkingSet)
    (tag depth : String) :
    ((m.expandTopic ws tag depth).1.isError →
        (m.expandTopic ws tag depth).2 = ws) ↔
      ¬m.EvictsInVain ws tag depth := by
  unfold PagingManager.expandTopic PagingManager.EvictsInVain
  cases henabled : m.pagingEnabled
  · simp
  · cases hdepth : DepthLevel.ofString? depth with
    | none => simp
    | some targetDepth =>
        simp only [Bool.not_true, Bool.false_eq_true, if_false, true_and,
          Option.some.injEq, exists_eq_left']
        by_cases hnone : targetDepth = .none
        · subst hnone
          rw [if_pos rfl]
          refine iff_of_true (fun herror => absurd herror ?_) ?_
          · unfold PagingManager.collapseTopic
            rw [henabled]
            cases hget : ws.get? tag <;>
              simp [DepthLevel.ofString?, PagingResult.isError, hget]
          · simp [PagingManager.calculateDepthTokens]
        · rw [if_neg hnone]
          by_cases htokens : m.calculateDepthTokens tag targetDepth = 0
          · simp [htokens]
          · rw [if_neg htokens, PagingManager.expandTo_unchanged_iff]
            simp only [ne_eq, htokens, not_false_eq_true, true_and]

/-- A large topic does not fit although the notes are evicted for it. -/
theorem failed_expansion_evicts :
    let ws := WorkingSet.empty.set ⟨"notes", .full, 40, 1⟩
    let expanded := narrowPaging.expandTopic ws "topic" "full"
    expanded.1 = .insufficientBudget "topic" 90 40 ∧
      ws.entries = [⟨"notes", .full, 40, 1⟩] ∧
      expanded.2.entries = [⟨"notes", .summary, 10, 1⟩] := by
  decide +kernel

end VirtualContext
