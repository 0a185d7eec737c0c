import VirtualContext.Core.Alignment
import VirtualContext.Library.Splice

/-!
# What an alignment says

An alignment is truthful when the runs it names really are equal.  The shortcuts
and the exhaustive search compare the hashes themselves; the window search
trusts the index of the stored turns, and is truthful when that index is.
-/

namespace VirtualContext

open VirtualContext.Library

/-! ## Anchor hashes -/

private theorem anchorWord_injective {x y : HexDigest} {r r' : List UInt8}
    (h : x.map hexByte ++ 0 :: r = y.map hexByte ++ 0 :: r') :
    x = y ∧ r = r' := by
  induction x generalizing y with
  | nil =>
      cases y with
      | nil => simpa using h
      | cons digit y =>
          simp only [List.map_nil, List.nil_append, List.map_cons,
            List.cons_append, List.cons.injEq] at h
          exact absurd h.1.symm (hexByte_ne_zero digit)
  | cons digit x ih =>
      cases y with
      | nil =>
          simp only [List.map_nil, List.nil_append, List.map_cons,
            List.cons_append, List.cons.injEq] at h
          exact absurd h.1 (hexByte_ne_zero digit)
      | cons digit' y =>
          simp only [List.map_cons, List.cons_append, List.cons.injEq] at h
          obtain ⟨rfl, rfl⟩ := ih h.2
          rw [hexByte_injective h.1]
          exact ⟨rfl, rfl⟩

/-- The bytes of a window determine its turn hashes. -/
theorem anchorBytes_injective {rows rows' : List CanonicalTurnRow}
    (h : rows.flatMap anchorBytes = rows'.flatMap anchorBytes) :
    rows.map (·.turnHash) = rows'.map (·.turnHash) := by
  induction rows generalizing rows' with
  | nil =>
      cases rows' with
      | nil => rfl
      | cons row' rows' => simp [anchorBytes] at h
  | cons row rows ih =>
      cases rows' with
      | nil => simp [anchorBytes] at h
      | cons row' rows' =>
          simp only [List.flatMap_cons, anchorBytes, List.append_assoc,
            List.cons_append, List.nil_append] at h
          obtain ⟨hhash, hrest⟩ := anchorWord_injective h
          rw [List.map_cons, List.map_cons, hhash, ih hrest]

theorem anchorBytes_congr {rows rows' : List CanonicalTurnRow}
    (h : rows.map (·.turnHash) = rows'.map (·.turnHash)) :
    rows.flatMap anchorBytes = rows'.flatMap anchorBytes := by
  have hbytes : ∀ rows : List CanonicalTurnRow, rows.flatMap anchorBytes =
      (rows.map (·.turnHash)).flatMap fun hash => hash.map hexByte ++ [0] := by
    intro rows
    rw [List.flatMap_map]
    rfl
  rw [hbytes, hbytes, h]

theorem computeAnchorHash_eq_iff (sha : Sha256)
    {rows rows' : List CanonicalTurnRow} {start start' size size' : Nat} :
    computeAnchorHash sha rows start size =
        computeAnchorHash sha rows' start' size' ↔
      slice (rows.map (·.turnHash)) start size =
        slice (rows'.map (·.turnHash)) start' size' := by
  simp only [slice, ← List.map_drop, ← List.map_take]
  constructor
  · intro h
    exact anchorBytes_injective (List.cons.inj (sha.injective h)).2
  · intro h
    unfold computeAnchorHash
    rw [anchorBytes_congr h]

/-! ## Truthful and maximal alignments -/

namespace Alignment

/-- The runs that the alignment names lie within the lists and are equal. -/
structure Truthful (a : Alignment) (existing incoming : List HexDigest) :
    Prop where
  existing_le : a.existingStart + a.overlapLen ≤ existing.length
  incoming_le : a.incomingStart + a.overlapLen ≤ incoming.length
  agree : ∀ k < a.overlapLen,
    existing[a.existingStart + k]? = incoming[a.incomingStart + k]?

/-- The run is not empty and cannot be extended on either side. -/
structure Maximal (a : Alignment) (existing incoming : List HexDigest) :
    Prop where
  pos : 0 < a.overlapLen
  left : ∀ i j, i + 1 = a.existingStart → j + 1 = a.incomingStart →
    existing[i]? ≠ incoming[j]?
  right : a.existingStart + a.overlapLen < existing.length →
    a.incomingStart + a.overlapLen < incoming.length →
    existing[a.existingStart + a.overlapLen]? ≠
      incoming[a.incomingStart + a.overlapLen]?

variable {a : Alignment} {existing incoming : List HexDigest}

theorem slices_agree_iff {start start' length : Nat} :
    slice existing start length = slice incoming start' length ↔
      ∀ k < length, existing[start + k]? = incoming[start' + k]? := by
  constructor
  · intro h k hk
    have := congrArg (fun hashes => hashes[k]?) h
    simpa [slice, List.getElem?_take_of_lt hk] using this
  · intro h
    apply List.ext_getElem?
    intro k
    by_cases hk : k < length
    · simpa [slice, List.getElem?_take_of_lt hk] using h k hk
    · rw [List.getElem?_eq_none, List.getElem?_eq_none]
      all_goals simp only [slice, List.length_take, List.length_drop]; omega

/-- A truthful alignment as an overlap of the two lists of hashes. -/
def overlap (h : a.Truthful existing incoming) (hpos : 0 < a.overlapLen) :
    Overlap existing incoming where
  existingStart := a.existingStart
  incomingStart := a.incomingStart
  length := a.overlapLen
  pos := hpos
  existing_le := h.existing_le
  incoming_le := h.incoming_le
  agree := slices_agree_iff.mpr h.agree

theorem overlap_maximal (h : a.Truthful existing incoming)
    (hmax : a.Maximal existing incoming) :
    (overlap h hmax.pos).Maximal :=
  ⟨hmax.left, hmax.right⟩

end Alignment

/-! ## The shortcuts -/

section

variable {existing incoming : List HexDigest}

theorem shortcutAlignment_sound {a : Alignment}
    (h : shortcutAlignment existing incoming = some a) (hne : existing ≠ []) :
    a.Truthful existing incoming ∧ a.Maximal existing incoming := by
  have hpos : 0 < existing.length := List.length_pos_of_ne_nil hne
  unfold shortcutAlignment at h
  split_ifs at h with hequal hprefix hsuffix
  · cases h
    subst hequal
    refine ⟨⟨by simp, by simp, fun k _ => by simp⟩, hpos, ?_, ?_⟩
    · intro i j hi
      exact absurd hi (Nat.succ_ne_zero i)
    · intro hlt
      simp at hlt
  · cases h
    obtain ⟨hle, htake⟩ := hprefix
    refine ⟨⟨by simp, by simpa using hle, fun k hk => ?_⟩, hpos, ?_, ?_⟩
    · simp only [Nat.zero_add]
      conv_lhs => rw [← htake]
      exact List.getElem?_take_of_lt hk
    · intro i j hi
      exact absurd hi (Nat.succ_ne_zero i)
    · intro hlt
      simp at hlt
  · cases h
    obtain ⟨hle, hdrop⟩ := hsuffix
    refine ⟨⟨by simp, ?_, fun k hk => ?_⟩, hpos, ?_, ?_⟩
    · dsimp only
      omega
    · simp only [Nat.zero_add]
      conv_lhs => rw [← hdrop]
      exact List.getElem?_drop
    · intro i j hi
      exact absurd hi (Nat.succ_ne_zero i)
    · intro hlt
      simp at hlt

/-! ## The exhaustive search -/

/-- A shared slice of some length at some positions. -/
def SharedSlice (existing incoming : List HexDigest)
    (overlapLen incomingStart existingStart : Nat) : Prop :=
  incomingStart + overlapLen ≤ incoming.length ∧
    existingStart + overlapLen ≤ existing.length ∧
    slice existing existingStart overlapLen =
      slice incoming incomingStart overlapLen

theorem shortOverlap_eq_none :
    shortOverlap existing incoming = none ↔
      ∀ overlapLen incomingStart existingStart, 0 < overlapLen →
        ¬ SharedSlice existing incoming overlapLen incomingStart
          existingStart := by
  unfold shortOverlap SharedSlice
  simp only [List.findSome?_eq_none_iff, List.mem_map, List.mem_reverse,
    List.mem_range, ite_eq_right_iff, reduceCtorEq, imp_false]
  constructor
  · rintro h overlapLen incomingStart existingStart hpos ⟨hle, hle', heq⟩
    exact h overlapLen ⟨overlapLen - 1, by omega, by omega⟩ incomingStart
      (by omega) existingStart (by omega) heq
  · rintro h overlapLen ⟨l, hl, rfl⟩ incomingStart hi existingStart he heq
    exact h (l + 1) incomingStart existingStart (by omega)
      ⟨by omega, by omega, heq⟩

/-- The search goes from the longest slices to the shortest. -/
private theorem overlapLens_decreasing (maxOverlap : Nat) :
    ((List.range maxOverlap).reverse.map (· + 1)).Pairwise (· > ·) := by
  rw [List.pairwise_map, List.pairwise_reverse]
  exact List.pairwise_lt_range.imp fun h => Nat.succ_lt_succ h

theorem shortOverlap_sound {a : Alignment}
    (h : shortOverlap existing incoming = some a) :
    SharedSlice existing incoming a.overlapLen a.incomingStart
        a.existingStart ∧ 0 < a.overlapLen ∧
      ∀ overlapLen incomingStart existingStart,
        SharedSlice existing incoming overlapLen incomingStart existingStart →
          overlapLen ≤ a.overlapLen := by
  have hsorted :=
    overlapLens_decreasing (min existing.length incoming.length)
  unfold shortOverlap at h
  obtain ⟨longer, found, shorter, hsplit, hfound, hlonger⟩ :=
    List.findSome?_eq_some_iff.mp h
  obtain ⟨incomingStart, hincoming, hfound⟩ := List.exists_of_findSome?_eq_some hfound
  obtain ⟨existingStart, hexisting, hfound⟩ := List.exists_of_findSome?_eq_some hfound
  have hmem : found ∈ (List.range (min existing.length incoming.length)).reverse.map
      (· + 1) := by
    rw [hsplit]
    simp
  simp only [List.mem_map, List.mem_reverse, List.mem_range] at hmem hincoming hexisting
  obtain ⟨l, hl, rfl⟩ := hmem
  split_ifs at hfound with heq
  cases hfound
  refine ⟨⟨by dsimp only; omega, by dsimp only; omega, heq⟩, by simp, ?_⟩
  rintro overlapLen start start' ⟨hle, hle', hslices⟩
  dsimp only
  by_contra hlt
  have hin : overlapLen ∈ (List.range
      (min existing.length incoming.length)).reverse.map (· + 1) := by
    simp only [List.mem_map, List.mem_reverse, List.mem_range]
    exact ⟨overlapLen - 1, by omega, by omega⟩
  rw [hsplit] at hin hsorted
  -- a longer slice was tried before and not found
  have hbefore : overlapLen ∈ longer := by
    rcases List.mem_append.mp hin with hbefore | hafter
    · exact hbefore
    · rcases List.mem_cons.mp hafter with rfl | hafter
      · omega
      · have := (List.pairwise_cons.mp
          (List.pairwise_append.mp hsorted).2.1).1 overlapLen hafter
        omega
  have hnone := hlonger overlapLen hbefore
  simp only [List.findSome?_eq_none_iff, List.mem_range] at hnone
  have := hnone start (by omega) start' (by omega)
  rw [if_pos hslices] at this
  cases this

theorem shortOverlap_spec {a : Alignment}
    (h : shortOverlap existing incoming = some a) :
    a.Truthful existing incoming ∧ a.Maximal existing incoming := by
  obtain ⟨⟨hle, hle', hslices⟩, hpos, hlongest⟩ := shortOverlap_sound h
  have hagree := Alignment.slices_agree_iff.mp hslices
  refine ⟨⟨hle', hle, hagree⟩, hpos, ?_, ?_⟩
  · intro i j hi hj heq
    have := hlongest (a.overlapLen + 1) j i
      ⟨by omega, by omega, Alignment.slices_agree_iff.mpr ?_⟩
    · omega
    · intro k hk
      cases k with
      | zero => exact heq
      | succ k =>
          have := hagree k (by omega)
          rwa [← hi, ← hj, Nat.add_right_comm, Nat.add_right_comm j] at this
  · intro hlt hlt' heq
    have := hlongest (a.overlapLen + 1) a.incomingStart a.existingStart
      ⟨by omega, by omega, Alignment.slices_agree_iff.mpr ?_⟩
    · omega
    · intro k hk
      rcases Nat.lt_or_ge k a.overlapLen with hk' | hk'
      · exact hagree k hk'
      · obtain rfl : k = a.overlapLen := by omega
        exact heq

end

/-! ## Extending a shared window -/

section

variable {existing incoming : List HexDigest}

theorem commonPrefixLength_spec (xs ys : List HexDigest) :
    commonPrefixLength xs ys ≤ xs.length ∧
      commonPrefixLength xs ys ≤ ys.length ∧
      (∀ k < commonPrefixLength xs ys, xs[k]? = ys[k]?) ∧
      (commonPrefixLength xs ys < xs.length →
        commonPrefixLength xs ys < ys.length →
        xs[commonPrefixLength xs ys]? ≠ ys[commonPrefixLength xs ys]?) := by
  induction xs generalizing ys with
  | nil => simp [commonPrefixLength]
  | cons x xs ih =>
      cases ys with
      | nil => simp [commonPrefixLength]
      | cons y ys =>
          obtain ⟨hle, hle', hagree, hend⟩ := ih ys
          by_cases heq : x = y
          · subst heq
            simp only [commonPrefixLength, if_true, List.length_cons]
            refine ⟨by omega, by omega, ?_, fun hlt hlt' => ?_⟩
            · intro k hk
              cases k with
              | zero => rfl
              | succ k => exact hagree k (by omega)
            · exact hend (by omega) (by omega)
          · simp [commonPrefixLength, heq]

theorem extendLeft_spec {incomingStart existingStart : Nat}
    (hincoming : incomingStart ≤ incoming.length)
    (hexisting : existingStart ≤ existing.length) :
    ∃ left, extendLeft existing incoming incomingStart existingStart = .ok left ∧
      left ≤ incomingStart ∧ left ≤ existingStart ∧
      (∀ k < left, existing[existingStart - left + k]? =
        incoming[incomingStart - left + k]?) ∧
      ∀ i j, i + 1 = existingStart - left → j + 1 = incomingStart - left →
        existing[i]? ≠ incoming[j]? := by
  induction incomingStart generalizing existingStart with
  | zero =>
      refine ⟨0, by cases existingStart <;> rfl, by omega, by omega,
        by simp, ?_⟩
      intro i j _ hj
      omega
  | succ is ih =>
      cases existingStart with
      | zero =>
          refine ⟨0, rfl, by omega, by omega, by simp, ?_⟩
          intro i j hi
          omega
      | succ es =>
          have hgetIncoming : incoming[is]? = some incoming[is] :=
            List.getElem?_eq_getElem _
          have hgetExisting : existing[es]? = some existing[es] :=
            List.getElem?_eq_getElem _
          by_cases heq : incoming[is] = existing[es]
          · obtain ⟨left, hleft, hle, hle', hagree, hend⟩ :=
              ih (by omega) (by omega : es ≤ existing.length)
            refine ⟨left + 1, ?_, by omega, by omega, ?_, ?_⟩
            · simp [extendLeft, pyGet, hgetIncoming, hgetExisting, heq, hleft,
                bind, Except.bind, pure, Except.pure]
            · intro k hk
              rw [Nat.add_sub_add_right, Nat.add_sub_add_right]
              rcases Nat.lt_or_ge k left with hlt | hge
              · exact hagree k hlt
              · obtain rfl : k = left := by omega
                rw [Nat.sub_add_cancel hle, Nat.sub_add_cancel hle',
                  hgetIncoming, hgetExisting, heq]
            · intro i j hi hj
              exact hend i j (by omega) (by omega)
          · refine ⟨0, ?_, by omega, by omega, by simp, ?_⟩
            · simp [extendLeft, pyGet, hgetIncoming, hgetExisting, heq, bind,
                Except.bind, pure, Except.pure]
            · intro i j hi hj
              obtain rfl : i = es := by omega
              obtain rfl : j = is := by omega
              rw [hgetIncoming, hgetExisting]
              exact fun h => heq (Option.some.inj h).symm

/-- A window that is really shared extends to a truthful, maximal alignment. -/
theorem extendWindow_spec {windowSize incomingStart existingStart : Nat}
    (hpos : 0 < windowSize)
    (hshared : SharedSlice existing incoming windowSize incomingStart
      existingStart) :
    ∃ a, extendWindow existing incoming windowSize incomingStart existingStart =
        .ok a ∧
      a.Truthful existing incoming ∧ a.Maximal existing incoming ∧
      a.existingStart ≤ existingStart ∧
      a.existingStart + incomingStart = a.incomingStart + existingStart ∧
      existingStart + windowSize ≤ a.existingStart + a.overlapLen := by
  obtain ⟨hincoming, hexisting, hslices⟩ := hshared
  obtain ⟨left, hleft, hle, hle', hagreeLeft, hendLeft⟩ :=
    extendLeft_spec (show incomingStart ≤ incoming.length by omega)
      (show existingStart ≤ existing.length by omega)
  obtain ⟨hright, hright', hagreeRight, hendRight⟩ := commonPrefixLength_spec
    (incoming.drop (incomingStart + windowSize))
    (existing.drop (existingStart + windowSize))
  have hwindow := Alignment.slices_agree_iff.mp hslices
  generalize hlen : commonPrefixLength
    (incoming.drop (incomingStart + windowSize))
    (existing.drop (existingStart + windowSize)) = right at *
  rw [List.length_drop] at hright hright' hendRight
  rw [List.length_drop] at hendRight
  refine ⟨⟨existingStart - left, incomingStart - left,
    left + (windowSize + right), windowSize, alignmentMode incoming
      (existingStart - left) (incomingStart - left)
      (left + (windowSize + right))⟩, ?_, ⟨?_, ?_, ?_⟩, ⟨?_, ?_, ?_⟩, ?_, ?_, ?_⟩
  · simp [extendWindow, hleft, hlen, bind, Except.bind, pure, Except.pure]
  all_goals dsimp only
  · omega
  · omega
  · intro k hk
    rcases Nat.lt_or_ge k left with hk₁ | hk₁
    · exact hagreeLeft k hk₁
    rcases Nat.lt_or_ge k (left + windowSize) with hk₂ | hk₂
    · have := hwindow (k - left) (by omega)
      rwa [show existingStart + (k - left) = existingStart - left + k by omega,
        show incomingStart + (k - left) = incomingStart - left + k by omega]
        at this
    · have := hagreeRight (k - left - windowSize) (by omega)
      rw [List.getElem?_drop, List.getElem?_drop] at this
      rw [show existingStart - left + k =
          existingStart + windowSize + (k - left - windowSize) by omega,
        show incomingStart - left + k =
          incomingStart + windowSize + (k - left - windowSize) by omega, this]
  · omega
  · exact hendLeft
  · intro hlt hlt' heq
    apply hendRight (by omega) (by omega)
    rw [List.getElem?_drop, List.getElem?_drop]
    rw [show existingStart - left + (left + (windowSize + right)) =
        existingStart + windowSize + right by omega,
      show incomingStart - left + (left + (windowSize + right)) =
        incomingStart + windowSize + right by omega] at heq
    exact heq.symm
  · omega
  · omega
  · omega

end

end VirtualContext
