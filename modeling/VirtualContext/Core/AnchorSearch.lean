import VirtualContext.Core.AlignmentSpec

/-!
# The window search

The search trusts the index of the stored turns: it is sound when every shared
window that it meets is one, and it misses no window of a complete index.
-/

namespace VirtualContext

open VirtualContext.Library

/-! ## Anchor indexes -/

/-- Every position in the index starts a window with the digest it is under. -/
def IndexTruthful (sha : Sha256) (rows : List CanonicalTurnRow)
    (windowSize : Nat) (index : AnchorIndex) : Prop :=
  ∀ digest, ∀ start ∈ index.get digest, start + windowSize ≤ rows.length ∧
    computeAnchorHash sha rows start windowSize = digest

/-- Every window of the rows is in the index. -/
def IndexComplete (sha : Sha256) (rows : List CanonicalTurnRow)
    (windowSize : Nat) (index : AnchorIndex) : Prop :=
  ∀ start, start + windowSize ≤ rows.length →
    start ∈ index.get (computeAnchorHash sha rows start windowSize)

section

variable {sha : Sha256} {existing incoming : List CanonicalTurnRow}
  {windowSize : Nat}

theorem mem_buildAnchorIndex (hpos : 0 < windowSize) {digest : HexDigest}
    {start : Nat} :
    start ∈ Dictionary.get (buildAnchorIndex sha existing windowSize) digest ↔
      start + windowSize ≤ existing.length ∧
        computeAnchorHash sha existing start windowSize = digest := by
  unfold buildAnchorIndex
  split_ifs with h
  · simp only [Dictionary.get, List.not_mem_nil, false_iff, not_and]
    omega
  · simp only [Dictionary.mem_get_ofPairs, List.mem_map, List.mem_range,
      Prod.mk.injEq]
    constructor
    · rintro ⟨start, hstart, rfl, rfl⟩
      exact ⟨by omega, rfl⟩
    · rintro ⟨hstart, rfl⟩
      exact ⟨start, by omega, rfl, rfl⟩

theorem buildAnchorIndex_truthful (hpos : 0 < windowSize) :
    IndexTruthful sha existing windowSize
      (buildAnchorIndex sha existing windowSize) :=
  fun _ _ hstart => (mem_buildAnchorIndex hpos).mp hstart

theorem buildAnchorIndex_complete (hpos : 0 < windowSize) :
    IndexComplete sha existing windowSize
      (buildAnchorIndex sha existing windowSize) :=
  fun _ hstart => (mem_buildAnchorIndex hpos).mpr ⟨hstart, rfl⟩

theorem mem_sharedWindows (hpos : 0 < windowSize) {index : AnchorIndex}
    {incomingStart existingStart : Nat} :
    (incomingStart, existingStart) ∈
        sharedWindows index (buildAnchorIndex sha incoming windowSize) ↔
      incomingStart + windowSize ≤ incoming.length ∧
        existingStart ∈
          index.get (computeAnchorHash sha incoming incomingStart windowSize) := by
  have hentry : ∀ (digest : HexDigest) (starts : List Nat),
      (digest, starts) ∈ buildAnchorIndex sha incoming windowSize →
        ∀ start, start ∈ starts ↔ start + windowSize ≤ incoming.length ∧
          computeAnchorHash sha incoming start windowSize = digest := by
    intro digest starts hmem start
    rw [← mem_buildAnchorIndex hpos]
    have hget : Dictionary.get (buildAnchorIndex sha incoming windowSize)
        digest = starts := by
      refine Dictionary.get_eq_of_mem ?_ hmem
      unfold buildAnchorIndex
      split_ifs
      · exact List.nodup_nil
      · exact Dictionary.keys_ofPairs_nodup _
    rw [hget]
  simp only [sharedWindows, List.mem_flatMap, List.mem_map, Prod.mk.injEq,
    Prod.exists]
  constructor
  · rintro ⟨digest, starts, hmem, start, hstart, start', hstart', rfl, rfl⟩
    obtain ⟨hle, rfl⟩ := (hentry digest starts hmem start).mp hstart
    exact ⟨hle, hstart'⟩
  · rintro ⟨hle, hexisting⟩
    have hincoming := (mem_buildAnchorIndex hpos).mpr
      ⟨hle, (rfl : computeAnchorHash sha incoming incomingStart windowSize = _)⟩
    have hkey : computeAnchorHash sha incoming incomingStart windowSize ∈
        Dictionary.keys (buildAnchorIndex sha incoming windowSize) :=
      Dictionary.mem_keys_of_mem_get hincoming
    obtain ⟨⟨digest, starts⟩, hmem, hdigest⟩ := List.mem_map.mp hkey
    refine ⟨digest, starts, hmem, incomingStart, ?_, existingStart, ?_, rfl, rfl⟩
    · exact (hentry digest starts hmem incomingStart).mpr ⟨hle, hdigest.symm⟩
    · rwa [show digest = _ from hdigest]

/-- A digest that both sides have is a slice that both sides share. -/
theorem sharedSlice_iff {incomingStart existingStart : Nat} :
    SharedSlice (existing.map (·.turnHash)) (incoming.map (·.turnHash))
        windowSize incomingStart existingStart ↔
      incomingStart + windowSize ≤ incoming.length ∧
        existingStart + windowSize ≤ existing.length ∧
        computeAnchorHash sha existing existingStart windowSize =
          computeAnchorHash sha incoming incomingStart windowSize := by
  rw [computeAnchorHash_eq_iff, SharedSlice, List.length_map, List.length_map]

end

/-! ## The best window of one size -/

section

variable {existing incoming : List HexDigest} {windowSize : Nat}

/-- Every listed pair of positions starts a slice that both sides share. -/
def AllShared (existing incoming : List HexDigest) (windowSize : Nat)
    (windows : List (Nat × Nat)) : Prop :=
  ∀ window ∈ windows,
    SharedSlice existing incoming windowSize window.1 window.2

/-- A truthful, maximal alignment as long as those of the given windows. -/
structure BestOf (existing incoming : List HexDigest) (windowSize : Nat)
    (windows : List (Nat × Nat)) (best : Alignment) : Prop where
  truthful : best.Truthful existing incoming
  maximal : best.Maximal existing incoming
  longest : ∀ window ∈ windows, ∀ candidate,
    extendWindow existing incoming windowSize window.1 window.2 =
      .ok candidate → candidate.overlapLen ≤ best.overlapLen

theorem betterAlignment_spec (best : Option Alignment) (candidate : Alignment) :
    ∃ better, betterAlignment best candidate = some better ∧
      (better = candidate ∨ best = some better) ∧
      candidate.overlapLen ≤ better.overlapLen ∧
      ∀ a, best = some a → a.overlapLen ≤ better.overlapLen := by
  unfold betterAlignment
  cases best with
  | none => exact ⟨candidate, rfl, .inl rfl, le_refl _, by simp⟩
  | some current =>
      dsimp only
      split_ifs with h
      · refine ⟨candidate, rfl, .inl rfl, le_refl _, ?_⟩
        rintro a ⟨⟩
        omega
      · refine ⟨current, rfl, .inr rfl, by omega, ?_⟩
        rintro a ⟨⟩
        exact le_refl _

/-- One more window keeps the best alignment so far or replaces it. -/
private theorem bestOf_step (hpos : 0 < windowSize) {seen : List (Nat × Nat)}
    {best : Option Alignment} {window : Nat × Nat}
    (hbest : ∀ a, best = some a → BestOf existing incoming windowSize seen a)
    (hseen : best = none → seen = [])
    (hshared : SharedSlice existing incoming windowSize window.1 window.2) :
    ∃ candidate better,
      extendWindow existing incoming windowSize window.1 window.2 =
        .ok candidate ∧
      betterAlignment best candidate = some better ∧
      BestOf existing incoming windowSize (seen ++ [window]) better := by
  obtain ⟨candidate, hextend, htruthful, hmaximal, -⟩ :=
    extendWindow_spec hpos hshared
  obtain ⟨better, hbetter, horigin, hle, hle'⟩ :=
    betterAlignment_spec best candidate
  refine ⟨candidate, better, hextend, hbetter, ?_, ?_, ?_⟩
  · rcases horigin with rfl | h
    · exact htruthful
    · exact (hbest better h).truthful
  · rcases horigin with rfl | h
    · exact hmaximal
    · exact (hbest better h).maximal
  · intro other hother found hfound
    rcases List.mem_append.mp hother with hold | hnew
    · cases best with
      | none => simp [hseen rfl] at hold
      | some a =>
          exact ((hbest a rfl).longest other hold found hfound).trans
            (hle' a rfl)
    · obtain rfl := List.mem_singleton.mp hnew
      rw [hextend] at hfound
      cases hfound
      exact hle

private theorem foldlM_bestOf (hpos : 0 < windowSize)
    {rest : List (Nat × Nat)} (seen : List (Nat × Nat))
    (best : Option Alignment)
    (hrest : AllShared existing incoming windowSize rest)
    (hseen : best = none → seen = [])
    (hbest : ∀ a, best = some a → BestOf existing incoming windowSize seen a) :
    ∃ result, rest.foldlM (fun best window => do
        let candidate ←
          extendWindow existing incoming windowSize window.1 window.2
        pure (betterAlignment best candidate)) best =
          (.ok result : Except Exc (Option Alignment)) ∧
      (result = none → seen ++ rest = []) ∧
      ∀ a, result = some a →
        BestOf existing incoming windowSize (seen ++ rest) a := by
  induction rest generalizing seen best with
  | nil =>
      refine ⟨best, rfl, ?_, ?_⟩
      · simpa using hseen
      · simpa using hbest
  | cons window rest ih =>
      obtain ⟨candidate, better, hextend, hbetter, hstep⟩ :=
        bestOf_step hpos hbest hseen (hrest window List.mem_cons_self)
      obtain ⟨result, hresult, hnone, hsome⟩ := ih (seen ++ [window])
        (some better) (fun other h => hrest other (List.mem_cons_of_mem _ h))
        (by simp) (by rintro a ⟨⟩; exact hstep)
      rw [List.append_cons seen window rest]
      refine ⟨result, ?_, hnone, hsome⟩
      rw [List.foldlM_cons, hextend]
      simp only [bind, Except.bind, pure, Except.pure, hbetter]
      exact hresult

/-- Shared windows never raise, and the search keeps one of the longest. -/
theorem bestWindow_spec (hpos : 0 < windowSize) {windows : List (Nat × Nat)}
    (hshared : AllShared existing incoming windowSize windows) :
    ∃ best, bestWindow existing incoming windowSize windows = .ok best ∧
      (best = none → windows = []) ∧
      ∀ a, best = some a → BestOf existing incoming windowSize windows a := by
  obtain ⟨best, hbest, hnone, hsome⟩ := foldlM_bestOf hpos [] none hshared
    (fun _ => rfl) (by simp)
  exact ⟨best, hbest, by simpa using hnone, by simpa using hsome⟩

/-- An alignment is the whole payload if its diagonal lies in a shared run. -/
theorem Alignment.Maximal.full {a : Alignment}
    (hmax : a.Maximal existing incoming)
    (htruthful : a.Truthful existing incoming) {position : Nat}
    (hdiagonal : a.existingStart = position + a.incomingStart)
    (hrun : SharedSlice existing incoming incoming.length 0 position) :
    a.overlapLen = incoming.length := by
  obtain ⟨-, hle, hslices⟩ := hrun
  have hagree := slices_agree_iff.mp hslices
  have hbound := htruthful.incoming_le
  have hstart : a.incomingStart = 0 := by
    by_contra hne
    apply hmax.left (a.existingStart - 1) (a.incomingStart - 1) (by omega)
      (by omega)
    have := hagree (a.incomingStart - 1) (by omega)
    rwa [Nat.zero_add,
      show position + (a.incomingStart - 1) = a.existingStart - 1 by omega]
      at this
  by_contra hne
  apply hmax.right (by omega) (by omega)
  have := hagree (a.incomingStart + a.overlapLen) (by omega)
  rwa [Nat.zero_add,
    show position + (a.incomingStart + a.overlapLen) =
      a.existingStart + a.overlapLen by omega] at this

end

/-! ## The search over all sizes -/

section

variable {sha : Sha256} {index : Nat → AnchorIndex}
  {existing incoming : List CanonicalTurnRow}

/-- The shared windows of one size, as the indexes see them. -/
def windowsAt (sha : Sha256) (index : Nat → AnchorIndex)
    (incoming : List CanonicalTurnRow) (windowSize : Nat) : List (Nat × Nat) :=
  sharedWindows (index windowSize) (buildAnchorIndex sha incoming windowSize)

/-- Up to the first size with any window, every window is really shared. -/
def HonestSearch (sha : Sha256) (index : Nat → AnchorIndex)
    (existing incoming : List CanonicalTurnRow) : List Nat → Prop
  | [] => True
  | windowSize :: sizes =>
      AllShared (existing.map (·.turnHash)) (incoming.map (·.turnHash))
          windowSize (windowsAt sha index incoming windowSize) ∧
        (windowsAt sha index incoming windowSize = [] →
          HonestSearch sha index existing incoming sizes)

theorem honestSearch_of_truthful {sizes : List Nat}
    (hsizes : ∀ windowSize ∈ sizes, 0 < windowSize)
    (h : ∀ windowSize ∈ sizes,
      IndexTruthful sha existing windowSize (index windowSize)) :
    HonestSearch sha index existing incoming sizes := by
  induction sizes with
  | nil => trivial
  | cons windowSize sizes ih =>
      refine ⟨?_, fun _ => ih
        (fun size hsize => hsizes size (List.mem_cons_of_mem _ hsize))
        (fun size hsize => h size (List.mem_cons_of_mem _ hsize))⟩
      rintro ⟨incomingStart, existingStart⟩ hwindow
      obtain ⟨hle, hmem⟩ :=
        (mem_sharedWindows (hsizes windowSize List.mem_cons_self)).mp hwindow
      obtain ⟨hle', hdigest⟩ := h windowSize List.mem_cons_self _ _ hmem
      exact sharedSlice_iff.mpr ⟨hle, hle', hdigest⟩

theorem sharedWindows_nil (incomingIndex : AnchorIndex) :
    sharedWindows [] incomingIndex = [] := by
  simp [sharedWindows, Dictionary.get]

/-- A size without windows is skipped. -/
theorem searchWindows_skip {windowSize : Nat} (sizes : List Nat)
    (h : windowsAt sha index incoming windowSize = []) :
    searchWindows sha existing incoming index (windowSize :: sizes) =
      searchWindows sha existing incoming index sizes := by
  rw [searchWindows]
  split_ifs
  · rfl
  · rw [show sharedWindows _ _ = [] from h]
    rfl

theorem searchWindows_found {windowSize : Nat} {best : Alignment}
    (sizes : List Nat) (hwindows : windowsAt sha index incoming windowSize ≠ [])
    (hbest : bestWindow (existing.map (·.turnHash)) (incoming.map (·.turnHash))
      windowSize (windowsAt sha index incoming windowSize) = .ok (some best)) :
    searchWindows sha existing incoming index (windowSize :: sizes) =
      .ok (some best) := by
  rw [searchWindows, if_neg]
  · rw [show bestWindow _ _ _ (sharedWindows _ _) = _ from hbest]
    rfl
  · intro hempty
    apply hwindows
    rw [windowsAt, List.isEmpty_iff.mp hempty, sharedWindows_nil]

/-- What an honest search finds: nothing, or the best window of one size. -/
theorem searchWindows_spec {sizes : List Nat}
    (hsizes : ∀ windowSize ∈ sizes, 0 < windowSize)
    (honest : HonestSearch sha index existing incoming sizes) :
    (searchWindows sha existing incoming index sizes = .ok none ∧
        ∀ windowSize ∈ sizes, windowsAt sha index incoming windowSize = []) ∨
      ∃ windowSize ∈ sizes, ∃ best,
        searchWindows sha existing incoming index sizes = .ok (some best) ∧
        windowsAt sha index incoming windowSize ≠ [] ∧
        AllShared (existing.map (·.turnHash)) (incoming.map (·.turnHash))
          windowSize (windowsAt sha index incoming windowSize) ∧
        BestOf (existing.map (·.turnHash)) (incoming.map (·.turnHash))
          windowSize (windowsAt sha index incoming windowSize) best := by
  induction sizes with
  | nil => exact .inl ⟨rfl, by simp⟩
  | cons windowSize sizes ih =>
      obtain ⟨hshared, hrest⟩ := honest
      by_cases hwindows : windowsAt sha index incoming windowSize = []
      · rw [searchWindows_skip sizes hwindows]
        rcases ih (fun size hsize => hsizes size (List.mem_cons_of_mem _ hsize))
            (hrest hwindows) with ⟨hnone, hall⟩ | ⟨size, hsize, best, hfound⟩
        · refine .inl ⟨hnone, ?_⟩
          intro size hsize
          rcases List.mem_cons.mp hsize with rfl | hsize
          · exact hwindows
          · exact hall size hsize
        · exact .inr ⟨size, List.mem_cons_of_mem _ hsize, best, hfound⟩
      · obtain ⟨best, hbest, hnone, hsome⟩ :=
          bestWindow_spec (hsizes windowSize List.mem_cons_self) hshared
        cases best with
        | none => exact absurd (hnone rfl) hwindows
        | some best =>
            exact .inr ⟨windowSize, List.mem_cons_self, best,
              searchWindows_found sizes hwindows hbest, hwindows, hshared,
              hsome best rfl⟩

/-! ## The alignment as a whole -/

/-- Where the alignment relies on anchors, they do not mislead it. -/
def HonestAnchors (sha : Sha256) (index : Nat → AnchorIndex)
    (existing incoming : List CanonicalTurnRow) (allowShortOverlap : Bool) :
    Prop :=
  anchorFreeAlignment existing incoming allowShortOverlap = none →
    HonestSearch sha index existing incoming [5, 4, 3]

theorem windowSizes_pos : ∀ windowSize ∈ [5, 4, 3], 0 < windowSize := by simp

theorem honestAnchors_of_truthful
    (h : ∀ windowSize, 0 < windowSize →
      IndexTruthful sha existing windowSize (index windowSize))
    (allowShortOverlap : Bool) :
    HonestAnchors sha index existing incoming allowShortOverlap := by
  intro _
  apply honestSearch_of_truthful windowSizes_pos
  intro windowSize hsize
  exact h windowSize (windowSizes_pos windowSize hsize)

theorem anchorFreeAlignment_spec {allowShortOverlap : Bool} {a : Alignment}
    (hne : existing ≠ [])
    (h : anchorFreeAlignment existing incoming allowShortOverlap = some a) :
    a.Truthful (existing.map (·.turnHash)) (incoming.map (·.turnHash)) ∧
      a.Maximal (existing.map (·.turnHash)) (incoming.map (·.turnHash)) := by
  unfold anchorFreeAlignment at h
  split at h
  · rename_i found hfound
    cases h
    exact shortcutAlignment_sound hfound (by simpa using hne)
  · split_ifs at h
    exact shortOverlap_spec h

/-- Honest anchors give a truthful alignment that cannot be extended. -/
theorem alignWith_spec {allowShortOverlap : Bool}
    (honest : HonestAnchors sha index existing incoming allowShortOverlap) :
    ∃ alignment,
      alignWith sha index existing incoming allowShortOverlap = .ok alignment ∧
      ∀ a, alignment = some a →
        a.Truthful (existing.map (·.turnHash)) (incoming.map (·.turnHash)) ∧
        a.Maximal (existing.map (·.turnHash)) (incoming.map (·.turnHash)) := by
  unfold alignWith
  split_ifs with hempty
  · exact ⟨none, rfl, by simp⟩
  · have hne : existing ≠ [] := by
      rintro rfl
      simp at hempty
    cases hfree : anchorFreeAlignment existing incoming allowShortOverlap with
    | some a =>
        refine ⟨some a, rfl, ?_⟩
        rintro _ ⟨⟩
        exact anchorFreeAlignment_spec hne hfree
    | none =>
        rcases searchWindows_spec windowSizes_pos (honest hfree) with
          ⟨hnone, -⟩ | ⟨windowSize, -, best, hfound, -, -, hbest⟩
        · exact ⟨none, hnone, by simp⟩
        · refine ⟨some best, hfound, ?_⟩
          rintro _ ⟨⟩
          exact ⟨hbest.truthful, hbest.maximal⟩

/-- With a complete index a shared slice puts a window into the search. -/
theorem windowsAt_ne_nil {windowSize : Nat} (hpos : 0 < windowSize)
    (hcomplete : IndexComplete sha existing windowSize (index windowSize))
    {incomingStart existingStart : Nat}
    (hshared : SharedSlice (existing.map (·.turnHash))
      (incoming.map (·.turnHash)) windowSize incomingStart existingStart) :
    (incomingStart, existingStart) ∈ windowsAt sha index incoming windowSize := by
  obtain ⟨hle, hle', hdigest⟩ := sharedSlice_iff.mp hshared
  apply (mem_sharedWindows hpos).mpr
  refine ⟨hle, ?_⟩
  rw [← hdigest]
  exact hcomplete existingStart hle'

theorem SharedSlice.shorten {existing incoming : List HexDigest}
    {overlapLen shorter incomingStart existingStart : Nat}
    (h : SharedSlice existing incoming overlapLen incomingStart existingStart)
    (hle : shorter ≤ overlapLen) :
    SharedSlice existing incoming shorter incomingStart existingStart := by
  obtain ⟨hincoming, hexisting, hslices⟩ := h
  have hagree := Alignment.slices_agree_iff.mp hslices
  exact ⟨by omega, by omega,
    Alignment.slices_agree_iff.mpr fun k hk => hagree k (by omega)⟩

/-- What the anchor search needs: three shared turns, or few turns at all. -/
def EnoughShared (existing incoming : List HexDigest) : Prop :=
  (∃ incomingStart existingStart,
      SharedSlice existing incoming 3 incomingStart existingStart) ∨
    (min existing.length incoming.length < 3 ∧
      ∃ incomingStart existingStart,
        SharedSlice existing incoming 1 incomingStart existingStart)

/-- Enough shared turns are always found. -/
theorem alignWith_ne_none
    (honest : HonestAnchors sha index existing incoming true)
    (hcomplete : IndexComplete sha existing 3 (index 3))
    (henough : EnoughShared (existing.map (·.turnHash))
      (incoming.map (·.turnHash))) :
    alignWith sha index existing incoming true ≠ .ok none := by
  obtain ⟨incomingStart, existingStart, hshared⟩ :
      ∃ incomingStart existingStart, SharedSlice (existing.map (·.turnHash))
        (incoming.map (·.turnHash)) 1 incomingStart existingStart := by
    rcases henough with ⟨i, e, hshared⟩ | ⟨-, i, e, hshared⟩
    · exact ⟨i, e, hshared.shorten (by omega)⟩
    · exact ⟨i, e, hshared⟩
  obtain ⟨hincoming, hexisting, -⟩ := hshared
  rw [List.length_map] at hincoming hexisting
  unfold alignWith
  rw [if_neg]
  · cases hfree : anchorFreeAlignment existing incoming true with
    | some a => simp
    | none =>
        rcases searchWindows_spec windowSizes_pos (honest hfree) with
          ⟨-, hnone⟩ | ⟨-, -, best, hfound, -⟩
        · exfalso
          rcases henough with ⟨i, e, hthree⟩ | ⟨hshort, i, e, hone⟩
          · have hmem := windowsAt_ne_nil (by omega) hcomplete hthree
            rw [hnone 3 (by simp)] at hmem
            simp at hmem
          · unfold anchorFreeAlignment at hfree
            split at hfree
            · cases hfree
            · rw [if_pos (by simpa using hshort)] at hfree
              exact shortOverlap_eq_none.mp hfree 1 i e (by omega) hone
        · rw [hfound]
          simp
  · simp only [Bool.or_eq_true, List.isEmpty_iff, not_or]
    constructor
    · rintro rfl
      simp at hexisting
    · rintro rfl
      simp at hincoming

theorem shortcutAlignment_overlapLen {existing incoming : List HexDigest}
    {a : Alignment} (h : shortcutAlignment existing incoming = some a) :
    a.overlapLen = existing.length := by
  unfold shortcutAlignment at h
  split_ifs at h <;> cases h <;> rfl

/-- A payload that is stored as one block is found as a whole. -/
theorem alignWith_full
    (honest : HonestAnchors sha index existing incoming true)
    (hcomplete : ∀ windowSize ∈ [5, 4, 3],
      IndexComplete sha existing windowSize (index windowSize))
    (hne : incoming ≠ []) {position : Nat}
    (hrun : SharedSlice (existing.map (·.turnHash)) (incoming.map (·.turnHash))
      (incoming.map (·.turnHash)).length 0 position) :
    ∃ a, alignWith sha index existing incoming true = .ok (some a) ∧
      a.Truthful (existing.map (·.turnHash)) (incoming.map (·.turnHash)) ∧
      a.overlapLen = incoming.length := by
  have hpos : 0 < (incoming.map (·.turnHash)).length := by
    simpa using List.length_pos_of_ne_nil hne
  have hle := hrun.2.1
  have hexisting : existing ≠ [] := by
    rintro rfl
    simp only [List.map_nil, List.length_nil] at hle
    omega
  have hlength : incoming.length = (incoming.map (·.turnHash)).length :=
    (List.length_map _).symm
  rw [hlength]
  cases hfree : anchorFreeAlignment existing incoming true with
  | some a =>
      obtain ⟨htruthful, -⟩ := anchorFreeAlignment_spec hexisting hfree
      refine ⟨a, by simp [alignWith, hexisting, hne, hfree], htruthful, ?_⟩
      have hle' := htruthful.incoming_le
      unfold anchorFreeAlignment at hfree
      split at hfree
      · rename_i found hfound
        cases hfree
        have := shortcutAlignment_overlapLen hfound
        omega
      · split_ifs at hfree
        have := (shortOverlap_sound hfree).2.2 _ _ _ hrun
        omega
  | none =>
      have hthree : 3 ≤ (incoming.map (·.turnHash)).length := by
        by_contra hlt
        unfold anchorFreeAlignment at hfree
        split at hfree
        · cases hfree
        · rw [if_pos] at hfree
          · exact shortOverlap_eq_none.mp hfree _ _ _ hpos hrun
          · rw [List.length_map] at hlt
            exact ⟨rfl, Nat.lt_of_le_of_lt (Nat.min_le_right _ _)
              (Nat.lt_of_not_le hlt)⟩
      rcases searchWindows_spec windowSizes_pos (honest hfree) with
        ⟨-, hnone⟩ | ⟨windowSize, hsize, best, hfound, hwindows, hshared, hbest⟩
      · exfalso
        have hmem := windowsAt_ne_nil (by omega) (hcomplete 3 (by simp))
          (hrun.shorten hthree)
        rw [hnone 3 (by simp)] at hmem
        simp at hmem
      · refine ⟨best, by simp [alignWith, hexisting, hne, hfree, hfound],
          hbest.truthful, ?_⟩
        obtain ⟨window, hwindow⟩ := List.exists_mem_of_ne_nil _ hwindows
        have hsizeLe := (hshared window hwindow).1
        have hsizePos := windowSizes_pos windowSize hsize
        have hslice := hrun.shorten (show windowSize ≤ _ by omega)
        have hmem := windowsAt_ne_nil hsizePos (hcomplete windowSize hsize)
          hslice
        -- the window at the start of the payload extends to all of it
        obtain ⟨candidate, hextend, htruthful, hmaximal, -, hdiagonal, -⟩ :=
          extendWindow_spec hsizePos hslice
        have hfull := hmaximal.full htruthful (by omega) hrun
        have hlongest := hbest.longest _ hmem candidate hextend
        have hbound := hbest.truthful.incoming_le
        omega

/-- The alignment of a payload depends on its hashes only. -/
theorem alignWith_congr {incoming' : List CanonicalTurnRow}
    (h : incoming'.map (·.turnHash) = incoming.map (·.turnHash))
    (allowShortOverlap : Bool) :
    alignWith sha index existing incoming' allowShortOverlap =
      alignWith sha index existing incoming allowShortOverlap := by
  have hlength : incoming'.length = incoming.length := by
    simpa using congrArg List.length h
  have hempty : incoming'.isEmpty = incoming.isEmpty := by
    rw [Bool.eq_iff_iff, List.isEmpty_iff_length_eq_zero,
      List.isEmpty_iff_length_eq_zero, hlength]
  have hindex : ∀ windowSize, buildAnchorIndex sha incoming' windowSize =
      buildAnchorIndex sha incoming windowSize := by
    intro windowSize
    have hdigest : ∀ start, computeAnchorHash sha incoming' start windowSize =
        computeAnchorHash sha incoming start windowSize := by
      intro start
      rw [computeAnchorHash_eq_iff, h]
    simp only [buildAnchorIndex, hlength, hdigest]
  have hsearch : ∀ sizes, searchWindows sha existing incoming' index sizes =
      searchWindows sha existing incoming index sizes := by
    intro sizes
    induction sizes with
    | nil => rfl
    | cons windowSize sizes ih =>
        simp only [searchWindows, hindex, h, ih]
  simp only [alignWith, anchorFreeAlignment, hempty, hlength, h, hsearch]

end

end VirtualContext
