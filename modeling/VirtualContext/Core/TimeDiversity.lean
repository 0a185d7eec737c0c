import Mathlib.Algebra.Order.Ring.Unbundled.Rat
import Mathlib.Data.List.Chain
import Mathlib.Data.List.Lex
import Mathlib.Data.List.MinMax
import Mathlib.Data.List.Range
import Mathlib.Data.Prod.Lex
import VirtualContext.Core.SessionDates
import VirtualContext.Library.DistinctFill
import VirtualContext.Library.Ordered
import VirtualContext.Storage.Grouping

/-!
# Candidates spread over time

Candidates are selected by days, and the selection is filled up by their scores.
On a timeline every candidate is checked against the identifiers selected before.
Otherwise the best candidate of each day is taken without a check.
-/

namespace VirtualContext

open VirtualContext.Library

/-! ## Candidates -/

inductive CandidateSource where
  | quote (segmentRef createdAt : String) (tags : List String)
  | fact (id segmentRef : String) (tags : List String)
  deriving DecidableEq, Repr

structure TimeCandidate where
  date : Date
  score : ℚ
  matchedTerms : List String := []
  source : CandidateSource
  deriving DecidableEq, Repr

namespace TimeCandidate

variable (item : TimeCandidate)

/-- `_candidate_id` -/
def candidateId : String :=
  match item.source with
  | .quote segmentRef _ _ => segmentRef
  | .fact id _ _ => id

/-- `_candidate_segment_ref` -/
def candidateSegmentRef : String :=
  match item.source with
  | .quote segmentRef _ _ => pyStrip segmentRef
  | .fact _ segmentRef _ => pyStrip segmentRef

def createdAt : String :=
  match item.source with
  | .quote _ createdAt _ => createdAt
  | .fact _ _ _ => ""

/-- `_candidate_tags` -/
def candidateTags (classes : CharClasses) : List String :=
  let rawTags :=
    match item.source with
    | .quote _ _ tags => tags
    | .fact _ _ tags => tags
  ((rawTags.filter (pyStrip · ≠ "")).map fun tag => classes.lower (pyStrip tag)).dedup

/-- `_novelty_bonus` -/
def noveltyBonus (classes : CharClasses) (seenTags seenSegments : List String) : ℚ :=
  min 2 (45 / 100 * ((item.candidateTags classes).filter (· ∉ seenTags)).length) +
    if item.candidateSegmentRef ≠ "" ∧ item.candidateSegmentRef ∉ seenSegments then 1 / 2
    else 0

/-- The order of a day on a timeline. -/
def timelineKey : ℚ ×ₗ Nat := toLex (item.score, item.matchedTerms.length)

/-- The order of a day. -/
def dayKey : ℚ ×ₗ Nat ×ₗ List Char :=
  toLex (item.score, toLex (item.matchedTerms.length, item.createdAt.toList))

/-- The order of candidates of several days. -/
def bestKey : ℚ ×ₗ Nat ×ₗ Date :=
  toLex (item.score, toLex (item.matchedTerms.length, item.date))

end TimeCandidate

open TimeCandidate

/-! ## Indices that are evenly spaced -/

/-- `floor(i * step + 0.5)` with `step = (total - 1) / (count - 1)`, within the indices. -/
def spacedIndex (total count i : Nat) : Nat :=
  min (total - 1) ((2 * i * (total - 1) + (count - 1)) / (2 * (count - 1)))

/-- `_evenly_spaced_indices` -/
def evenlySpacedIndices (total count : Nat) : List Nat :=
  if total ≤ count then List.range total
  else if count ≤ 1 then [0]
  else
    let indices := appendMissing [] ((List.range count).map (spacedIndex total count))
    let indices :=
      if indices.length < count then (appendMissing indices (List.range total)).take count
      else indices
    orderBy id (indices.take count)

/-! ## The selection -/

section

variable (classes : CharClasses) (preferTimeline : Bool) (candidates : List TimeCandidate)

def daysOf : List Date := orderBy id (candidates.map (·.date)).dedup

/-- The candidates of a day, best first. -/
def itemsOfDay (day : Date) : List TimeCandidate :=
  if preferTimeline then orderByDesc timelineKey (candidates.filter (·.date = day))
  else orderByDesc dayKey (candidates.filter (·.date = day))

/-- The days that a timeline visits, by their places. -/
def dayIndices (total limit : Nat) : List Nat :=
  if total ≤ limit then List.range total else evenlySpacedIndices total limit

def visitsAtDepth (indices : List Nat) (depth : Nat) : List TimeCandidate :=
  indices.filterMap fun i =>
    (daysOf candidates)[i]?.bind fun day => (itemsOfDay true candidates day)[depth]?

/-- The candidates that a timeline visits, one depth of all its days after the other. -/
def timelineVisits (limit : Nat) (dayDepth : Int) : List TimeCandidate :=
  (List.range (max 1 dayDepth).toNat).flatMap
    (visitsAtDepth candidates (dayIndices (daysOf candidates).length limit))

/-- The best candidates of the best days. -/
def leadingCandidates (limit : Nat) : List TimeCandidate :=
  (orderByDesc bestKey ((daysOf candidates).filterMap fun day =>
    (itemsOfDay false candidates day).head?)).take limit

/-- The loop that prefers what is new, for so many free places. -/
def fillDiverse : (slots : Nat) → (chosen pool : List TimeCandidate) →
    (seenTags seenSegments : List String) → List TimeCandidate
  | 0, chosen, _, _, _ => chosen
  | slots + 1, chosen, pool, seenTags, seenSegments =>
      let noveltyKey (item : TimeCandidate) : ℚ ×ₗ ℚ ×ₗ Nat ×ₗ Date :=
        let bonus := item.noveltyBonus classes seenTags seenSegments
        toLex (item.score + bonus, toLex (bonus, toLex (item.matchedTerms.length, item.date)))
      match pool.argmax noveltyKey with
      | none => chosen
      | some best =>
          fillDiverse slots (chosen ++ [best])
            (pool.filter (·.candidateId ≠ best.candidateId))
            (seenTags ++ best.candidateTags classes)
            (if best.candidateSegmentRef ≠ "" then seenSegments ++ [best.candidateSegmentRef]
              else seenSegments)

/-- The chosen candidates and further ones, as long as there are places. -/
def fillUp (preferConceptDiversity : Bool) (limit : Nat) (chosen : List TimeCandidate) :
    List TimeCandidate :=
  let remainder := (daysOf candidates).flatMap (itemsOfDay preferTimeline candidates)
  if chosen.length < limit then
    if preferConceptDiversity then
      fillDiverse classes (limit - chosen.length) chosen
        (remainder.filter (·.candidateId ∉ chosen.map candidateId))
        (chosen.flatMap (·.candidateTags classes))
        ((chosen.map (·.candidateSegmentRef)).filter (· ≠ ""))
    else addDistinct candidateId limit chosen (orderByDesc bestKey remainder)
  else chosen

/-- What is chosen before the list is filled up. -/
def firstChoice (limit : Nat) (dayDepth : Int) : List TimeCandidate :=
  if preferTimeline then
    addDistinct candidateId limit [] (timelineVisits candidates limit dayDepth)
  else leadingCandidates candidates limit

/-- `_select_time_diverse_candidates` -/
def selectTimeDiverseCandidates (maxResults dayDepth : Int)
    (preferConceptDiversity : Bool) : List TimeCandidate :=
  if candidates = [] ∨ maxResults ≤ 0 then []
  else
    let limit := maxResults.toNat
    (orderBy (·.date)
      (fillUp classes preferTimeline candidates preferConceptDiversity limit
        (firstChoice preferTimeline candidates limit dayDepth))).take limit

end

/-! ## Evenly spaced indices are distinct -/

section

variable {total count : Nat}

theorem spacedIndex_lt_succ (hcount : 1 < count) (htotal : count < total) {i : Nat}
    (hi : i + 1 < count) : spacedIndex total count i < spacedIndex total count (i + 1) := by
  have hpos : 0 < 2 * (count - 1) := by omega
  have hstep : (2 * i * (total - 1) + (count - 1)) / (2 * (count - 1)) + 1 ≤
      (2 * (i + 1) * (total - 1) + (count - 1)) / (2 * (count - 1)) := by
    rw [← Nat.add_div_right _ hpos]
    refine Nat.div_le_div_right ?_
    have hexpand : 2 * (i + 1) * (total - 1) = 2 * i * (total - 1) + 2 * (total - 1) := by
      rw [Nat.mul_add, Nat.add_mul, Nat.mul_one]
    omega
  have hbelow : (2 * (i + 1) * (total - 1) + (count - 1)) / (2 * (count - 1)) ≤ total - 1 := by
    refine Nat.lt_succ_iff.mp ((Nat.div_lt_iff_lt_mul hpos).mpr ?_)
    have hmono : 2 * (i + 1) * (total - 1) ≤ 2 * (count - 1) * (total - 1) :=
      Nat.mul_le_mul_right _ (by omega)
    have hexpand : (total - 1).succ * (2 * (count - 1)) =
        2 * (count - 1) * (total - 1) + 2 * (count - 1) := by
      rw [Nat.succ_mul, Nat.mul_comm]
    omega
  rw [spacedIndex, spacedIndex]
  omega

theorem spacedIndex_zero (hcount : 1 < count) : spacedIndex total count 0 = 0 := by
  have hdiv : (2 * 0 * (total - 1) + (count - 1)) / (2 * (count - 1)) = 0 :=
    Nat.div_eq_of_lt (by omega)
  rw [spacedIndex, hdiv, Nat.min_zero]

theorem spacedIndex_last (hcount : 1 < count) :
    spacedIndex total count (count - 1) = total - 1 := by
  have hpos : 0 < 2 * (count - 1) := by omega
  have hdiv : (2 * (count - 1) * (total - 1) + (count - 1)) / (2 * (count - 1)) =
      total - 1 := by
    rw [Nat.mul_add_div hpos, Nat.div_eq_of_lt (by omega), Nat.add_zero]
  rw [spacedIndex, hdiv, Nat.min_self]

theorem increasing_spacedIndex (hcount : 1 < count) (htotal : count < total) :
    Increasing id ((List.range count).map (spacedIndex total count)) := by
  have hchain : ((List.range count).map (spacedIndex total count)).IsChain (· < ·) := by
    rw [List.isChain_map, List.isChain_range]
    exact fun i hi => spacedIndex_lt_succ hcount htotal (by omega)
  exact List.isChain_iff_pairwise.mp hchain

theorem appendMissing_of_nodup {α : Type} [DecidableEq α] {merged new : List α}
    (h : (merged ++ new).Nodup) : appendMissing merged new = merged ++ new := by
  induction new generalizing merged with
  | nil => rw [List.append_nil, appendMissing, List.foldl_nil]
  | cons x new ih =>
      have hnew : x ∉ merged := fun hmem =>
        (List.nodup_append.mp h).2.2 x hmem x List.mem_cons_self rfl
      rw [List.append_cons] at h ⊢
      rw [← ih h, appendMissing, List.foldl_cons, if_neg hnew, appendMissing]

/-- The spaced indices are distinct, so no other ones are needed. -/
theorem evenlySpacedIndices_eq (hcount : 1 < count) (htotal : count < total) :
    evenlySpacedIndices total count = (List.range count).map (spacedIndex total count) := by
  have hincreasing := increasing_spacedIndex hcount htotal
  have happend : appendMissing [] ((List.range count).map (spacedIndex total count)) =
      [] ++ (List.range count).map (spacedIndex total count) :=
    appendMissing_of_nodup hincreasing.nodup
  have hlength : ((List.range count).map (spacedIndex total count)).length = count := by
    rw [List.length_map, List.length_range]
  rw [evenlySpacedIndices, if_neg (by omega), if_neg (by omega)]
  dsimp only
  rw [happend, List.nil_append, if_neg (by omega), List.take_of_length_le hlength.le]
  exact orderBy_of_increasing hincreasing

end

/-! ## Days -/

section

variable {classes : CharClasses} {preferTimeline : Bool} {candidates : List TimeCandidate}

theorem mem_daysOf {day : Date} :
    day ∈ daysOf candidates ↔ ∃ item ∈ candidates, item.date = day := by
  rw [daysOf, mem_orderBy, List.mem_dedup, List.mem_map]

theorem increasing_daysOf : Increasing id (daysOf candidates) :=
  increasing_orderBy (by
    rw [List.map_id]
    exact List.nodup_dedup _)

theorem itemsOfDay_perm (day : Date) :
    (itemsOfDay preferTimeline candidates day).Perm (candidates.filter (·.date = day)) := by
  unfold itemsOfDay
  split_ifs
  · exact orderByDesc_perm _
  · exact orderByDesc_perm _

theorem mem_itemsOfDay {day : Date} {item : TimeCandidate} :
    item ∈ itemsOfDay preferTimeline candidates day ↔
      item ∈ candidates ∧ item.date = day := by
  rw [(itemsOfDay_perm day).mem_iff, List.mem_filter, decide_eq_true_iff]

/-- The days hold all candidates. -/
theorem mem_remainder {item : TimeCandidate} :
    item ∈ (daysOf candidates).flatMap (itemsOfDay preferTimeline candidates) ↔
      item ∈ candidates := by
  simp only [List.mem_flatMap, mem_itemsOfDay]
  constructor
  · rintro ⟨day, -, hitem, -⟩
    exact hitem
  · exact fun hitem => ⟨item.date, mem_daysOf.mpr ⟨item, hitem, rfl⟩, hitem, rfl⟩

theorem mem_timelineVisits {limit : Nat} {dayDepth : Int} {item : TimeCandidate}
    (h : item ∈ timelineVisits candidates limit dayDepth) : item ∈ candidates := by
  obtain ⟨depth, -, h⟩ := List.mem_flatMap.mp h
  obtain ⟨i, -, h⟩ := List.mem_filterMap.mp h
  obtain ⟨day, -, hget⟩ := Option.bind_eq_some_iff.mp h
  exact (mem_itemsOfDay.mp (List.mem_of_getElem? hget)).1

theorem mem_leadingCandidates {limit : Nat} {item : TimeCandidate}
    (h : item ∈ leadingCandidates candidates limit) : item ∈ candidates := by
  obtain ⟨day, -, hhead⟩ := List.mem_filterMap.mp
    ((orderByDesc_perm _).mem_iff.mp (List.mem_of_mem_take h))
  exact (mem_itemsOfDay.mp (List.mem_of_mem_head? hhead)).1

/-! ## Filling up -/

theorem mem_fillDiverse {slots : Nat} {chosen pool : List TimeCandidate}
    {seenTags seenSegments : List String} {item : TimeCandidate}
    (h : item ∈ fillDiverse classes slots chosen pool seenTags seenSegments) :
    item ∈ chosen ∨ item ∈ pool := by
  induction slots generalizing chosen pool seenTags seenSegments with
  | zero => exact .inl h
  | succ slots ih =>
      unfold fillDiverse at h
      dsimp only at h
      split at h
      next => exact .inl h
      next best hbest =>
        rcases ih h with hmem | hmem
        · rcases List.mem_append.mp hmem with hmem | hmem
          · exact .inl hmem
          · rw [List.mem_singleton.mp hmem]
            exact .inr (List.argmax_mem hbest)
        · exact .inr (List.mem_filter.mp hmem).1

/-- The loop adds one candidate with a new identifier for each place. -/
theorem fillDiverse_fills {limit slots : Nat} {chosen pool items : List TimeCandidate}
    {seenTags seenSegments : List String} (hslots : chosen.length + slots = limit)
    (hdistinct : (chosen.map candidateId).Nodup)
    (hpool : ∀ item, item ∈ pool ↔ item ∈ items ∧ item.candidateId ∉ chosen.map candidateId) :
    Fills candidateId limit chosen items
      (fillDiverse classes slots chosen pool seenTags seenSegments) := by
  induction slots generalizing chosen pool seenTags seenSegments with
  | zero => exact ⟨List.prefix_rfl, hdistinct, hslots.le, .inl hslots⟩
  | succ slots ih =>
      unfold fillDiverse
      dsimp only
      split
      next hnone =>
        rw [List.argmax_eq_none] at hnone
        refine ⟨List.prefix_rfl, hdistinct, by omega, .inr fun item hitem => ?_⟩
        by_contra hnew
        have hmem := (hpool item).mpr ⟨hitem, hnew⟩
        rw [hnone] at hmem
        cases hmem
      next best hbest =>
        obtain ⟨-, hnew⟩ := (hpool best).mp (List.argmax_mem hbest)
        have hlength : (chosen ++ [best]).length = chosen.length + 1 := List.length_append
        refine (ih (by omega) (nodup_map_concat hdistinct hnew) fun item => ?_).of_concat
        rw [List.mem_filter, hpool, List.map_append, List.map_singleton, List.mem_append,
          List.mem_singleton, decide_eq_true_iff]
        tauto

section

variable {preferConceptDiversity : Bool} {limit : Nat} {chosen : List TimeCandidate}

theorem mem_orderByDesc_remainder {item : TimeCandidate} : item ∈ orderByDesc bestKey
    ((daysOf candidates).flatMap (itemsOfDay preferTimeline candidates)) ↔
    item ∈ candidates :=
  (orderByDesc_perm _).mem_iff.trans mem_remainder

theorem mem_fillUp {item : TimeCandidate} (h : item ∈ fillUp classes preferTimeline candidates
    preferConceptDiversity limit chosen) : item ∈ chosen ∨ item ∈ candidates := by
  unfold fillUp at h
  dsimp only at h
  split_ifs at h
  · exact (mem_fillDiverse h).imp_right fun hmem =>
      mem_remainder.mp (List.mem_filter.mp hmem).1
  · exact (mem_addDistinct h).imp_right mem_orderByDesc_remainder.mp
  · exact .inl h

theorem fillUp_fills (hroom : chosen.length ≤ limit)
    (hdistinct : (chosen.map candidateId).Nodup) :
    Fills candidateId limit chosen candidates
      (fillUp classes preferTimeline candidates preferConceptDiversity limit chosen) := by
  unfold fillUp
  dsimp only
  split_ifs with hless
  · refine fillDiverse_fills (by omega) hdistinct fun item => ?_
    rw [List.mem_filter, mem_remainder, decide_eq_true_iff]
  · have h := addDistinct_fills hless hdistinct (orderByDesc bestKey
      ((daysOf candidates).flatMap (itemsOfDay preferTimeline candidates)))
    exact ⟨h.keeps, h.distinct, h.length_le,
      h.full.imp_right fun hall item hitem => hall item (mem_orderByDesc_remainder.mpr hitem)⟩
  · exact ⟨List.prefix_rfl, hdistinct, hroom, .inl (by omega)⟩

end

/-! ## Days on a timeline -/

/-- An identifier belongs to one day. -/
def OneDayEach (candidates : List TimeCandidate) : Prop :=
  ∀ item ∈ candidates, ∀ other ∈ candidates,
    item.candidateId = other.candidateId → item.date = other.date

section

variable {total limit : Nat}

theorem dayIndices_spec (total : Nat) (hlimit : 0 < limit) :
    (dayIndices total limit).Nodup ∧ (dayIndices total limit).length ≤ limit := by
  unfold dayIndices
  split_ifs with hle
  · exact ⟨List.nodup_range, by rwa [List.length_range]⟩
  · by_cases hone : limit ≤ 1
    · rw [evenlySpacedIndices, if_neg hle, if_pos hone]
      exact ⟨List.nodup_singleton 0, hlimit⟩
    · rw [evenlySpacedIndices_eq (by omega) (by omega)]
      refine ⟨(increasing_spacedIndex (by omega) (by omega)).nodup, ?_⟩
      rw [List.length_map, List.length_range]

theorem head?_dayIndices (hlimit : 0 < limit) (htotal : 0 < total) :
    (dayIndices total limit).head? = some 0 := by
  unfold dayIndices
  split_ifs with hle
  · rw [List.head?_range, if_neg (by omega)]
  · by_cases hone : limit ≤ 1
    · rw [evenlySpacedIndices, if_neg hle, if_pos hone]
      rfl
    · rw [evenlySpacedIndices_eq (by omega) (by omega), List.head?_map, List.head?_range,
        if_neg (by omega), Option.map_some, spacedIndex_zero (by omega)]

theorem last_mem_dayIndices (hlimit : 1 < limit) (htotal : limit < total) :
    total - 1 ∈ dayIndices total limit := by
  rw [dayIndices, if_neg (by omega), evenlySpacedIndices_eq hlimit htotal]
  exact List.mem_map.mpr ⟨limit - 1, List.mem_range.mpr (by omega), spacedIndex_last hlimit⟩

end

section

variable {indices : List Nat} {limit : Nat} {dayDepth : Int}

/-- Each day has a best candidate. -/
theorem exists_best {i : Nat} (hi : i < (daysOf candidates).length) :
    ∃ item, ((daysOf candidates)[i]?.bind fun day =>
      (itemsOfDay true candidates day)[0]?) = some item ∧ item.date = (daysOf candidates)[i] := by
  obtain ⟨item, hitem, hdate⟩ := mem_daysOf.mp (List.getElem_mem hi)
  have hmem : item ∈ itemsOfDay true candidates (daysOf candidates)[i] :=
    mem_itemsOfDay.mpr ⟨hitem, hdate⟩
  have hlength := List.length_pos_of_mem hmem
  refine ⟨(itemsOfDay true candidates (daysOf candidates)[i])[0], ?_, ?_⟩
  · rw [List.getElem?_eq_getElem hi, Option.bind_some, List.getElem?_eq_getElem hlength]
  · exact (mem_itemsOfDay.mp (List.getElem_mem hlength)).2

/-- The best candidates of different days have different identifiers. -/
theorem nodup_visits (hone : OneDayEach candidates) (hindices : indices.Nodup) :
    ((visitsAtDepth candidates indices 0).map candidateId).Nodup := by
  refine List.pairwise_map.mpr (List.Pairwise.filterMap _ ?_ hindices)
  intro i j hne item hitem other hother hid
  obtain ⟨day, hday, hget⟩ := Option.bind_eq_some_iff.mp hitem
  obtain ⟨day', hday', hget'⟩ := Option.bind_eq_some_iff.mp hother
  obtain ⟨hmem, hdate⟩ := mem_itemsOfDay.mp (List.mem_of_getElem? hget)
  obtain ⟨hmem', hdate'⟩ := mem_itemsOfDay.mp (List.mem_of_getElem? hget')
  obtain ⟨hi, hday⟩ := List.getElem?_eq_some_iff.mp hday
  obtain ⟨hj, hday'⟩ := List.getElem?_eq_some_iff.mp hday'
  have hnodup : (daysOf candidates).Nodup := increasing_daysOf.nodup
  have heq : (daysOf candidates)[i] = (daysOf candidates)[j] := by
    rw [hday, hday', ← hdate, ← hdate', hone item hmem other hmem' hid]
  exact hne ((List.Nodup.getElem_inj_iff hnodup).mp heq)

theorem timelineVisits_eq (candidates : List TimeCandidate) (limit : Nat) (dayDepth : Int) :
    ∃ rest, timelineVisits candidates limit dayDepth =
    visitsAtDepth candidates (dayIndices (daysOf candidates).length limit) 0 ++ rest := by
  obtain ⟨depth, hdepth⟩ : ∃ depth, (max 1 dayDepth).toNat = depth + 1 :=
    ⟨(max 1 dayDepth).toNat - 1, by omega⟩
  rw [timelineVisits, hdepth, List.range_succ_eq_map, List.flatMap_cons]
  exact ⟨_, rfl⟩

/-- Every day that is visited is represented. -/
theorem visited_day (hlimit : 0 < limit) (hone : OneDayEach candidates) {i : Nat}
    (hi : i ∈ dayIndices (daysOf candidates).length limit)
    (hbound : i < (daysOf candidates).length) :
    (daysOf candidates)[i] ∈
      (firstChoice true candidates limit dayDepth).map (·.date) := by
  obtain ⟨hindices, hlength⟩ :=
    dayIndices_spec (daysOf candidates).length hlimit
  obtain ⟨rest, hvisits⟩ := timelineVisits_eq candidates limit dayDepth
  obtain ⟨item, hitem, hdate⟩ := exists_best hbound
  have htaken := isPrefix_addDistinct_nil (nodup_visits hone hindices)
    ((List.length_filterMap_le _ _).trans hlength) rest
  rw [← hdate, firstChoice, if_pos rfl, hvisits]
  exact List.mem_map_of_mem (htaken.subset (List.mem_filterMap.mpr ⟨i, hi, hitem⟩))

/-- The first day is represented in any case. -/
theorem first_day (hlimit : 0 < limit) (hdays : 0 < (daysOf candidates).length) :
    (daysOf candidates)[0] ∈
      (firstChoice true candidates limit dayDepth).map (·.date) := by
  obtain ⟨rest, hvisits⟩ := timelineVisits_eq candidates limit dayDepth
  obtain ⟨item, hitem, hdate⟩ := exists_best hdays
  obtain ⟨tail, htail⟩ : ∃ tail, dayIndices (daysOf candidates).length limit = 0 :: tail :=
    List.head?_eq_some_iff.mp (head?_dayIndices hlimit hdays)
  have hcons : visitsAtDepth candidates (0 :: tail) 0 =
      item :: visitsAtDepth candidates tail 0 := List.filterMap_cons_some hitem
  have hdistinct : ([item].map candidateId).Nodup := List.nodup_singleton _
  have htaken := isPrefix_addDistinct_nil hdistinct hlimit
    (visitsAtDepth candidates tail 0 ++ rest)
  rw [← hdate, firstChoice, if_pos rfl, hvisits, htail, hcons]
  exact List.mem_map_of_mem (htaken.subset (List.mem_singleton.mpr rfl))

end

/-! ## The selection -/

section

variable {preferConceptDiversity : Bool} {limit : Nat} {dayDepth : Int}

theorem mem_firstChoice {item : TimeCandidate}
    (h : item ∈ firstChoice preferTimeline candidates limit dayDepth) : item ∈ candidates := by
  unfold firstChoice at h
  split_ifs at h
  · exact (mem_addDistinct h).elim (fun hmem => by cases hmem) mem_timelineVisits
  · exact mem_leadingCandidates h

/-- The first choice has room and distinct identifiers; off a timeline, if the best
candidates of the days have. -/
theorem firstChoice_distinct (dayDepth : Int) (hlimit : 0 < limit)
    (hleading : preferTimeline = true ∨
      ((leadingCandidates candidates limit).map candidateId).Nodup) :
    (firstChoice preferTimeline candidates limit dayDepth).length ≤ limit ∧
      ((firstChoice preferTimeline candidates limit dayDepth).map candidateId).Nodup := by
  unfold firstChoice
  split_ifs with htimeline
  · have hstart : (([] : List TimeCandidate).map candidateId).Nodup := List.nodup_nil
    have h := addDistinct_fills hlimit hstart (timelineVisits candidates limit dayDepth)
    exact ⟨h.length_le, h.distinct⟩
  · exact ⟨List.length_take_le _ _, hleading.resolve_left htimeline⟩

end

end

/-- One quote on each of three days. -/
def threeDays : List TimeCandidate :=
  [{ date := 20240101, score := 1, source := .quote "a" "" [] },
    { date := 20240102, score := 3, source := .quote "b" "" [] },
    { date := 20240103, score := 2, source := .quote "c" "" [] }]

end VirtualContext
