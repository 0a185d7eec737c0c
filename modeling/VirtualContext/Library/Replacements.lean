import VirtualContext.Library.Splice

/-!
# Replacing entries of a list by blocks

Entries are removed by their indices, from the last on, and then blocks are
inserted where entries were, at positions that count what was removed and
inserted before.  Together this replaces the entries in place.
-/

namespace VirtualContext.Library

variable {α β : Type}

/-- A block at each index, and the entries that are not removed. -/
def replaceAt (blocks : Nat → List α) (removed : Nat → Bool) (start : Nat) (xs : List α) :
    List α :=
  (xs.zipIdx start).flatMap fun entry =>
    blocks entry.2 ++ if removed entry.2 then [] else [entry.1]

/-- The block of all insertions at an index. -/
def blockAt (insertions : List (Nat × List α)) (index : Nat) : List α :=
  (insertions.filter (·.1 = index)).flatMap (·.2)

variable {blocks blocks' : Nat → List α} {removed removed' : Nat → Bool}

theorem replaceAt_append (start : Nat) (xs ys : List α) :
    replaceAt blocks removed start (xs ++ ys) =
      replaceAt blocks removed start xs ++
        replaceAt blocks removed (start + xs.length) ys := by
  simp [replaceAt, List.zipIdx_append, Nat.add_comm]

theorem replaceAt_cons (start : Nat) (x : α) (xs : List α) :
    replaceAt blocks removed start (x :: xs) =
      blocks start ++ (if removed start then [] else [x]) ++
        replaceAt blocks removed (start + 1) xs := by
  simp [replaceAt, List.zipIdx_cons]

theorem replaceAt_congr {start : Nat} {xs : List α}
    (h : ∀ index, start ≤ index → index < start + xs.length →
      blocks index = blocks' index ∧ removed index = removed' index) :
    replaceAt blocks removed start xs = replaceAt blocks' removed' start xs := by
  induction xs generalizing start with
  | nil => rfl
  | cons x xs ih =>
      obtain ⟨hblock, hremoved⟩ := h start (Nat.le_refl _) (by simp)
      rw [replaceAt_cons, replaceAt_cons, hblock, hremoved, ih]
      intro index hlo hhi
      refine h index (by omega) ?_
      rw [List.length_cons]
      omega

/-- Where nothing is removed or inserted, the list stays. -/
theorem replaceAt_eq_self {start : Nat} {xs : List α}
    (h : ∀ index, start ≤ index → index < start + xs.length →
      blocks index = [] ∧ removed index = false) :
    replaceAt blocks removed start xs = xs := by
  induction xs generalizing start with
  | nil => rfl
  | cons x xs ih =>
      obtain ⟨hblock, hremoved⟩ := h start (Nat.le_refl _) (by simp)
      rw [replaceAt_cons, hblock, hremoved, ih]
      · rfl
      · intro index hlo hhi
        refine h index (by omega) ?_
        rw [List.length_cons]
        omega

theorem map_replaceAt (f : α → β) (start : Nat) (xs : List α) :
    (replaceAt blocks removed start xs).map f =
      replaceAt (fun index => (blocks index).map f) removed start (xs.map f) := by
  induction xs generalizing start with
  | nil => rfl
  | cons x xs ih =>
      rw [replaceAt_cons, List.map_cons, replaceAt_cons, List.map_append, List.map_append, ih]
      split_ifs <;> rfl

/-- What is removed may be replaced by anything. -/
theorem replaceAt_zipIdx_map {f : β × Nat → α} {g : β → α}
    (h : ∀ x index, removed index = false → f (x, index) = g x) (start : Nat) (xs : List β) :
    replaceAt blocks removed start ((xs.zipIdx start).map f) =
      replaceAt blocks removed start (xs.map g) := by
  induction xs generalizing start with
  | nil => rfl
  | cons x xs ih =>
      rw [List.zipIdx_cons, List.map_cons, List.map_cons, replaceAt_cons, replaceAt_cons, ih]
      cases hremoved : removed start with
      | true => simp
      | false => rw [h x start hremoved]

/-- Entries that know their index are filtered by it. -/
theorem replaceAt_zipIdx (start : Nat) (xs : List β) :
    replaceAt (fun _ => []) removed start (xs.zipIdx start) =
      (xs.zipIdx start).filter (!removed ·.2) := by
  induction xs generalizing start with
  | nil => rfl
  | cons x xs ih =>
      rw [List.zipIdx_cons, replaceAt_cons, ih, List.filter_cons]
      cases removed start <;> rfl

theorem mem_replaceAt {x : α} {xs : List α} : x ∈ replaceAt blocks removed 0 xs ↔
    (∃ index < xs.length, x ∈ blocks index) ∨
      ∃ index, removed index = false ∧ xs[index]? = some x := by
  rw [replaceAt, List.mem_flatMap]
  constructor
  · rintro ⟨entry, hentry, hx⟩
    have hget := List.mem_zipIdx_iff_getElem?.mp hentry
    rcases List.mem_append.mp hx with hblock | hkept
    · exact .inl ⟨entry.2, (List.getElem?_eq_some_iff.mp hget).1, hblock⟩
    · cases hremoved : removed entry.2 with
      | true => simp [hremoved] at hkept
      | false =>
          obtain rfl : x = entry.1 := by simpa [hremoved] using hkept
          exact .inr ⟨entry.2, hremoved, hget⟩
  · rintro (⟨index, hindex, hblock⟩ | ⟨index, hremoved, hget⟩)
    · refine ⟨(xs[index], index), ?_, List.mem_append_left _ hblock⟩
      exact List.mem_zipIdx_iff_getElem?.mpr (List.getElem?_eq_getElem hindex)
    · exact ⟨(x, index), List.mem_zipIdx_iff_getElem?.mpr hget, by simp [hremoved]⟩

/-! ## Removal -/

/-- Where the indices come in descending order, no removal moves a later one. -/
theorem foldl_eraseIdx {indices : List Nat} (h : indices.Pairwise (· > ·)) (xs : List α) :
    indices.foldl List.eraseIdx xs =
      replaceAt (fun _ => []) (fun index => index ∈ indices) 0 xs := by
  induction indices generalizing xs with
  | nil => exact (replaceAt_eq_self fun _ _ _ => ⟨rfl, by simp⟩).symm
  | cons highest rest ih =>
      obtain ⟨hbelow, hrest⟩ := List.pairwise_cons.mp h
      have habove (index : Nat) (hindex : highest ≤ index) : index ∉ rest :=
        fun hmem => absurd (hbelow index hmem) (by omega)
      rw [List.foldl_cons, ih hrest]
      rcases Nat.lt_or_ge highest xs.length with hlt | hge
      · have hlength : (xs.take highest).length = highest := by
          rw [List.length_take]
          omega
        have hsplit : xs = xs.take highest ++ xs[highest] :: xs.drop (highest + 1) := by simp
        rw [List.eraseIdx_eq_take_drop_succ]
        conv_rhs => rw [hsplit]
        rw [replaceAt_append, replaceAt_append, replaceAt_cons, hlength, Nat.zero_add]
        -- below the highest index the same are removed, and above it none
        congr 1
        · refine replaceAt_congr fun index _ hindex => ⟨rfl, ?_⟩
          have hne : index ≠ highest := by omega
          simp [hne]
        · rw [if_pos (by simp), List.append_nil, List.nil_append, replaceAt_eq_self,
            replaceAt_eq_self]
          · intro index hindex _
            have hne : index ≠ highest := by omega
            exact ⟨rfl, by simp [hne, habove index (by omega)]⟩
          · intro index hindex _
            exact ⟨rfl, by simp [habove index hindex]⟩
      · rw [List.eraseIdx_of_length_le hge]
        refine replaceAt_congr fun index _ hindex => ⟨rfl, ?_⟩
        have hne : index ≠ highest := by omega
        simp [hne]

/-! ## Insertion -/

/-- A block inserted after all that the entries before an index leave. -/
theorem insertAt_replaceAt {position : Nat} {xs : List α} (h : position < xs.length)
    (hnone : ∀ index, position ≤ index → blocks index = []) (new : List α) :
    insertAt (replaceAt blocks removed 0 (xs.take position)).length new
        (replaceAt blocks removed 0 xs) =
      replaceAt (fun index => blocks index ++ if position = index then new else []) removed
        0 xs := by
  have hlength : (xs.take position).length = position := by
    rw [List.length_take]
    omega
  have hsplit : xs = xs.take position ++ xs[position] :: xs.drop (position + 1) := by simp
  have hbefore : replaceAt (fun index => blocks index ++ if position = index then new else [])
      removed 0 (xs.take position) = replaceAt blocks removed 0 (xs.take position) := by
    refine replaceAt_congr fun index _ hindex => ⟨?_, rfl⟩
    rw [if_neg (by omega), List.append_nil]
  have hafter : replaceAt (fun index => blocks index ++ if position = index then new else [])
      removed (position + 1) (xs.drop (position + 1)) =
        replaceAt blocks removed (position + 1) (xs.drop (position + 1)) := by
    refine replaceAt_congr fun index hindex _ => ⟨?_, rfl⟩
    rw [if_neg (by omega), List.append_nil]
  have hrest (f : Nat → List α) : replaceAt f removed 0 xs =
      replaceAt f removed 0 (xs.take position) ++
        (f position ++ (if removed position then [] else [xs[position]]) ++
          replaceAt f removed (position + 1) (xs.drop (position + 1))) := by
    conv_lhs => rw [hsplit]
    rw [replaceAt_append, replaceAt_cons, hlength, Nat.zero_add]
  rw [hrest, hrest, hbefore, hafter, insertAt, List.take_left, List.drop_left,
    hnone position (Nat.le_refl _), if_pos rfl]
  simp

/-- An insertion counts where the entries before an index leave it. -/
theorem length_insertAt (position : Nat) (new rows : List α) :
    (insertAt position new rows).length = rows.length + new.length := by
  rw [(insertAt_perm position new rows).length_eq, List.length_append]

theorem length_replaceAt_removed (start : Nat) (xs : List α) :
    (replaceAt (fun _ => []) removed start xs).length +
      (List.range' start xs.length).countP removed = xs.length := by
  induction xs generalizing start with
  | nil => rfl
  | cons x xs ih =>
      have hrest := ih (start + 1)
      rw [replaceAt_cons, List.length_cons, List.range'_succ, List.countP_cons,
        List.length_append, List.length_append]
      split_ifs <;> simp only [List.length_nil, List.length_singleton] <;> omega

/-! ## Positions in a sorted list -/

def bisectLeft (sorted : List Nat) (x : Nat) : Nat := (sorted.takeWhile (· < x)).length

theorem takeWhile_lt_eq_filter {sorted : List Nat} (h : sorted.Pairwise (· < ·)) (x : Nat) :
    sorted.takeWhile (· < x) = sorted.filter (· < x) := by
  induction sorted with
  | nil => rfl
  | cons first rest ih =>
      obtain ⟨hfirst, hrest⟩ := List.pairwise_cons.mp h
      by_cases hlt : first < x
      · simp [hlt, ih hrest]
      · have hnone : rest.filter (· < x) = [] := by
          rw [List.filter_eq_nil_iff]
          intro index hindex
          have hgt := hfirst index hindex
          simp only [decide_eq_true_eq]
          omega
        simp [hlt, hnone]

/-- The position counts the entries below. -/
theorem bisectLeft_eq {sorted : List Nat} (h : sorted.Pairwise (· < ·)) (x : Nat) :
    bisectLeft sorted x = (List.range x).countP (· ∈ sorted) := by
  rw [bisectLeft, takeWhile_lt_eq_filter h, List.countP_eq_length_filter]
  refine List.Perm.length_eq ((List.perm_ext_iff_of_nodup ?_ ?_).mpr fun index => ?_)
  · exact (h.imp fun hlt => Nat.ne_of_lt hlt).filter _
  · exact List.nodup_range.filter _
  · simp [and_comm]

/-- What is left before an index. -/
theorem length_replaceAt_take {sorted : List Nat} (h : sorted.Pairwise (· < ·)) {xs : List α}
    {index : Nat} (hindex : index ≤ xs.length) :
    (replaceAt (fun _ => []) (fun i => i ∈ sorted) 0 (xs.take index)).length +
      bisectLeft sorted index = index := by
  have hlength : (xs.take index).length = index := by
    rw [List.length_take]
    omega
  have hcount := @length_replaceAt_removed α (fun i => decide (i ∈ sorted)) 0
    (xs.take index)
  rwa [hlength, ← List.range_eq_range', ← bisectLeft_eq h] at hcount

/-! ## Block after block -/

/-- Inserts blocks at ascending positions, each after what the others have moved. -/
def insertBlocks (sorted : List Nat) : List (Nat × List α) → Nat → List α → List α
  | [], _, xs => xs
  | (position, block) :: rest, offset, xs =>
      insertBlocks sorted rest (offset + block.length)
        (insertAt (position - bisectLeft sorted position + offset) block xs)

theorem blockAt_append (insertions : List (Nat × List α)) (position : Nat) (block : List α) :
    blockAt (insertions ++ [(position, block)]) =
      fun index => blockAt insertions index ++ if position = index then block else [] := by
  funext index
  rw [blockAt, List.filter_append, List.flatMap_append, blockAt]
  by_cases h : position = index <;> simp [h]

theorem blockAt_eq_nil {insertions : List (Nat × List α)} {index : Nat}
    (h : ∀ entry ∈ insertions, entry.1 < index) : blockAt insertions index = [] := by
  have hnone : insertions.filter (·.1 = index) = [] := by
    rw [List.filter_eq_nil_iff]
    intro entry hentry
    simp only [decide_eq_true_eq]
    exact Nat.ne_of_lt (h entry hentry)
  rw [blockAt, hnone, List.flatMap_nil]

/-- Where the blocks so far leave an index, the offset says it. -/
theorem insertBlocks_from {sorted : List Nat} {xs : List α} {offset : Nat}
    {done rest : List (Nat × List α)}
    (hoffset : ∀ index ≤ xs.length, (∀ entry ∈ done, entry.1 < index) →
      (replaceAt (blockAt done) (fun i => i ∈ sorted) 0 (xs.take index)).length +
        bisectLeft sorted index = index + offset)
    (hsorted : (done ++ rest).Pairwise (·.1 < ·.1))
    (hlt : ∀ entry ∈ done ++ rest, entry.1 < xs.length)
    (hbisect : ∀ index, bisectLeft sorted index ≤ index) :
    insertBlocks sorted rest offset (replaceAt (blockAt done) (fun i => i ∈ sorted) 0 xs) =
      replaceAt (blockAt (done ++ rest)) (fun i => i ∈ sorted) 0 xs := by
  induction rest generalizing done offset with
  | nil => rw [List.append_nil, insertBlocks]
  | cons entry rest ih =>
      obtain ⟨position, block⟩ := entry
      have hposition : position < xs.length := hlt (position, block) (by simp)
      have hdone : ∀ entry ∈ done, entry.1 < position := fun entry hentry =>
        (List.pairwise_append.mp hsorted).2.2 entry hentry (position, block) (by simp)
      have hnone (index : Nat) (hindex : position ≤ index) : blockAt done index = [] :=
        blockAt_eq_nil fun entry hentry => Nat.lt_of_lt_of_le (hdone entry hentry) hindex
      have hlength := hoffset position (Nat.le_of_lt hposition) hdone
      have hle := hbisect position
      have hplace : position - bisectLeft sorted position + offset =
          (replaceAt (blockAt done) (fun i => i ∈ sorted) 0 (xs.take position)).length := by
        omega
      rw [insertBlocks, hplace, insertAt_replaceAt hposition hnone, ← blockAt_append,
        ih ?_ (by simpa using hsorted) (by simpa using hlt)]
      · simp
      · intro index hindex hbelow
        have hpos : position < index := hbelow (position, block) (by simp)
        have hold := hoffset index hindex fun entry hentry =>
          hbelow entry (List.mem_append_left _ hentry)
        have htake : position < (xs.take index).length := by
          rw [List.length_take]
          omega
        rw [blockAt_append, ← insertAt_replaceAt htake hnone, length_insertAt]
        omega

/-- Removing and inserting by indices replaces in place. -/
theorem insertBlocks_eq {sorted : List Nat} (h : sorted.Pairwise (· < ·)) {xs : List α}
    {insertions : List (Nat × List α)} (hsorted : insertions.Pairwise (·.1 < ·.1))
    (hlt : ∀ entry ∈ insertions, entry.1 < xs.length) :
    insertBlocks sorted insertions 0
        (replaceAt (fun _ => []) (fun i => i ∈ sorted) 0 xs) =
      replaceAt (blockAt insertions) (fun i => i ∈ sorted) 0 xs := by
  have hbisect (index : Nat) : bisectLeft sorted index ≤ index := by
    rw [bisectLeft_eq h]
    exact List.countP_le_length.trans_eq List.length_range
  have hnone : ∀ index ≤ xs.length, (∀ entry ∈ ([] : List (Nat × List α)), entry.1 < index) →
      (replaceAt (blockAt []) (fun i => i ∈ sorted) 0 (xs.take index)).length +
        bisectLeft sorted index = index + 0 :=
    fun index hindex _ => length_replaceAt_take h hindex
  exact insertBlocks_from hnone hsorted hlt hbisect

end VirtualContext.Library
