import Mathlib.Data.List.Basic
import VirtualContext.Core.CanonicalTurns
import VirtualContext.Library.Fuel
import VirtualContext.Library.Words

/-!
# Chunks of a text

`chunk_segment_text` merges paragraphs to groups and cuts groups that are too large
into windows that overlap.  Short chunks are dropped, which a window never is.
-/

namespace VirtualContext

open VirtualContext.Library

/-! ## Chunks -/

/-- `text.split()` -/
def pySplitWords (text : List Char) : List (List Char) := words isPySpace text

def paragraphBreak : List Char := ['\n', '\n']

/-- The paragraphs of a text that are not blank. -/
def paragraphsOf (text : List Char) : List (List Char) :=
  ((splitSeparator paragraphBreak text).map pyStripChars).filter (· ≠ [])

/-- The merged paragraphs, and those that may still be joined. -/
structure ParagraphMerge where
  merged : List (List Char) := []
  buffer : List Char := []

def ParagraphMerge.add (maxWords : Int) (st : ParagraphMerge) (para : List Char) :
    ParagraphMerge :=
  let candidate := if st.buffer = [] then para else st.buffer ++ paragraphBreak ++ para
  if ((pySplitWords candidate).length : Int) ≤ maxWords then { st with buffer := candidate }
  else
    { merged := if st.buffer = [] then st.merged else st.merged ++ [st.buffer]
      buffer := para }

def ParagraphMerge.finish (st : ParagraphMerge) : List (List Char) :=
  if st.buffer = [] then st.merged else st.merged ++ [st.buffer]

def mergeParagraphs (maxWords : Int) (paragraphs : List (List Char)) : List (List Char) :=
  (paragraphs.foldl (ParagraphMerge.add maxWords) {}).finish

def overlapWords : Nat := 30

/-- `xs[start:stop]`; negative positions count from the end. -/
def sliceBetween {α : Type} (xs : List α) (start stop : Int) : List α :=
  let position (i : Int) : Nat := (if i < 0 then i + xs.length else i).toNat
  (xs.take (position stop)).drop (position start)

/-- The loop over the windows of a group, with no result if it needs more steps. -/
def windowsFrom (maxWords : Int) (groupWords : List (List Char)) :
    (steps : Nat) → (start : Int) → Option (List (List (List Char)))
  | 0, _ => none
  | steps + 1, start =>
      if start < groupWords.length then
        let stop := min (start + maxWords) groupWords.length
        let window := sliceBetween groupWords start stop
        if groupWords.length ≤ stop then some [window]
        else
          (windowsFrom maxWords groupWords steps (start + (maxWords - overlapWords))).map
            (window :: ·)
      else some []

def chunksOfGroup (steps : Nat) (maxWords : Int) (group : List Char) :
    Option (List (List Char)) :=
  let groupWords := pySplitWords group
  if (groupWords.length : Int) ≤ maxWords then some [group]
  else
    (windowsFrom maxWords groupWords steps 0).map fun windows =>
      windows.map (List.intercalate [' '])

/-- `chunk_segment_text`, if each of its loops ends within so many steps. -/
def chunkSegmentText (steps : Nat) (fullText : List Char) (maxWords minWords : Int) :
    Option (List (List Char)) :=
  ((mergeParagraphs maxWords (paragraphsOf fullText)).mapM (chunksOfGroup steps maxWords)).map
    fun chunks => chunks.flatten.filter fun chunk => minWords ≤ (pySplitWords chunk).length

/-- `chunk_turn_text`; a text without chunks is kept whole. -/
def chunkTurnText (steps : Nat) (text : List Char) (maxWords minWords : Int) :
    Option (List (List Char)) :=
  (chunkSegmentText steps text maxWords minWords).map fun chunks =>
    if chunks ≠ [] then chunks
    else if pyStripChars text = [] then [] else [pyStripChars text]

/-! ## Windows -/

/-- Every further window repeats the last words of the one before it; without the
repeated words the windows are the text. -/
structure IsWindows {α : Type} (overlap : Nat) (text : List α) (windows : List (List α)) :
    Prop where
  joined : ∃ first rest, windows = first :: rest ∧
    text = first ++ rest.flatMap (List.drop overlap)
  repeated : windows.IsChain fun window next =>
    overlap ≤ window.length ∧ next.take overlap = window.drop (window.length - overlap)

theorem sliceBetween_nat {α : Type} (xs : List α) (start stop : Nat) :
    sliceBetween xs start stop = (xs.take stop).drop start := by
  have hpos (n : Nat) : ¬ (n : Int) < 0 := by omega
  simp only [sliceBetween, if_neg (hpos _), Int.toNat_natCast]

section

variable {maxWords : Nat} {groupWords : List (List Char)}

/-- A step of the loop, from where a full window or the rest is left. -/
theorem windowsFrom_succ {start : Nat} (hstart : start < groupWords.length) (steps : Nat) :
    windowsFrom maxWords groupWords (steps + 1) start =
      if groupWords.length ≤ start + maxWords then some [groupWords.drop start]
      else
        (windowsFrom maxWords groupWords steps (start + ((maxWords : Int) - overlapWords))).map
          ((groupWords.drop start).take maxWords :: ·) := by
  rw [windowsFrom, if_pos (by omega)]
  dsimp only
  by_cases hend : groupWords.length ≤ start + maxWords
  · have hmin : min ((start : Int) + maxWords) groupWords.length =
        ((groupWords.length : Nat) : Int) := by omega
    rw [hmin, if_pos (le_refl _), if_pos hend, sliceBetween_nat, List.take_length]
  · have hmin : min ((start : Int) + maxWords) groupWords.length =
        ((start + maxWords : Nat) : Int) := by omega
    rw [hmin, if_neg (by omega), if_neg hend, sliceBetween_nat, List.drop_take,
      Nat.add_sub_cancel_left]

/-- The windows of what is left of a group: each has more words than are repeated. -/
theorem windowsFrom_ends (hmax : overlapWords < maxWords) {start : Nat}
    (hleft : start + overlapWords < groupWords.length) :
    ∃ first rest, Ends (fun steps => windowsFrom maxWords groupWords steps start)
        (first :: rest) ∧
      IsWindows overlapWords (groupWords.drop start) (first :: rest) ∧
      first <+: groupWords.drop start ∧
      ∀ window ∈ first :: rest, overlapWords < window.length ∧ window.length ≤ maxWords ∧
        window ⊆ groupWords := by
  have hstart : start < groupWords.length := by omega
  induction hrest : groupWords.length - start using Nat.strong_induction_on
    generalizing start with
  | _ left ih =>
      by_cases hend : groupWords.length ≤ start + maxWords
      · refine ⟨groupWords.drop start, [], ⟨1, fun steps hsteps => ?_⟩, ⟨⟨_, [], rfl, by simp⟩,
          List.isChain_singleton _⟩, List.prefix_refl _, ?_⟩
        · obtain ⟨steps, rfl⟩ := Nat.exists_eq_succ_of_ne_zero (by omega : steps ≠ 0)
          exact (windowsFrom_succ hstart steps).trans (if_pos hend)
        · refine List.forall_mem_singleton.mpr ?_
          rw [List.length_drop]
          exact ⟨by omega, by omega, List.drop_subset _ _⟩
      · have hnext : start + (maxWords - overlapWords) + overlapWords < groupWords.length := by
          omega
        obtain ⟨second, others, ⟨enough, hends⟩, ⟨⟨_, _, heq, hjoined⟩, hrepeated⟩, hfront,
            hsizes⟩ := ih (groupWords.length - (start + (maxWords - overlapWords)))
          (by omega) hnext (by omega) rfl
        obtain ⟨rfl, rfl⟩ := List.cons.inj heq
        have hlength : ((groupWords.drop start).take maxWords).length = maxWords := by
          rw [List.length_take, List.length_drop]
          omega
        -- the second window begins where the repeated words do
        have hsecond : second.take overlapWords =
            ((groupWords.drop start).take maxWords).drop (maxWords - overlapWords) := by
          obtain ⟨tail, htail⟩ := hfront
          have hlong := (hsizes second List.mem_cons_self).1
          have hfront : second.take overlapWords = (second ++ tail).take overlapWords :=
            (List.take_append_of_le_length hlong.le).symm
          rw [hfront, htail, List.drop_take, List.drop_drop, Nat.sub_sub_self hmax.le]
        refine ⟨(groupWords.drop start).take maxWords, second :: others,
          ⟨enough + 1, fun steps hsteps => ?_⟩, ⟨⟨_, _, rfl, ?_⟩, ?_⟩, List.take_prefix _ _, ?_⟩
        · obtain ⟨steps, rfl⟩ := Nat.exists_eq_succ_of_ne_zero (by omega : steps ≠ 0)
          have hcast : (start : Int) + ((maxWords : Int) - overlapWords) =
              ((start + (maxWords - overlapWords) : Nat) : Int) := by omega
          refine (windowsFrom_succ hstart steps).trans ((if_neg hend).trans ?_)
          rw [hcast]
          exact congrArg (Option.map _) (hends steps (by omega))
        · have hlong := (hsizes second List.mem_cons_self).1
          have htail : (groupWords.drop start).drop maxWords =
              (second :: others).flatMap (List.drop overlapWords) := by
            have hdrop := congrArg (List.drop overlapWords) hjoined
            rw [List.drop_drop, List.drop_append_of_le_length hlong.le] at hdrop
            rw [List.drop_drop, List.flatMap_cons, ← hdrop]
            congr 1
            omega
          rw [← htail, List.take_append_drop]
        · refine List.isChain_cons_cons.mpr ⟨⟨by omega, ?_⟩, hrepeated⟩
          rw [hlength, hsecond]
        · refine List.forall_mem_cons.mpr ⟨⟨by omega, by omega, ?_⟩, hsizes⟩
          exact fun word hword => List.mem_of_mem_drop (List.mem_of_mem_take hword)

end

/-! ## Groups of paragraphs -/

theorem isPySpace_paragraphBreak : ∀ c ∈ paragraphBreak, isPySpace c = true :=
  List.all_eq_true.mp rfl

def wordsOfGroup (group : List (List Char)) : List (List Char) := group.flatMap pySplitWords

theorem pySplitWords_group (group : List (List Char)) :
    pySplitWords (paragraphBreak.intercalate group) = wordsOfGroup group :=
  words_intercalate (List.cons_ne_nil _ _) isPySpace_paragraphBreak group

/-- All words are in paragraphs. -/
theorem wordsOfGroup_paragraphs (text : List Char) :
    wordsOfGroup (paragraphsOf text) = pySplitWords text := by
  have hwords (parts : List (List Char)) :
      wordsOfGroup ((parts.map pyStripChars).filter (· ≠ [])) = wordsOfGroup parts := by
    induction parts with
    | nil => rfl
    | cons part parts ih =>
        have hstrip : pySplitWords (pyStripChars part) = pySplitWords part := words_trim part
        rw [List.map_cons, List.filter_cons]
        split_ifs with hne
        · change pySplitWords (pyStripChars part) ++ wordsOfGroup _ =
            pySplitWords part ++ wordsOfGroup parts
          rw [ih, hstrip]
        · have hempty : pyStripChars part = [] := by simpa using hne
          rw [hempty] at hstrip
          change wordsOfGroup _ = pySplitWords part ++ wordsOfGroup parts
          rw [ih, ← hstrip]
          rfl
  rw [paragraphsOf, hwords, ← pySplitWords_group, intercalate_splitSeparator]

/-- The texts of the groups are the merged paragraphs. -/
theorem mergeParagraphs_groups (maxWords : Int) {paragraphs : List (List Char)}
    (hparagraphs : ∀ para ∈ paragraphs, para ≠ []) :
    ∃ groups : List (List (List Char)),
      mergeParagraphs maxWords paragraphs = groups.map paragraphBreak.intercalate ∧
        groups.flatten = paragraphs ∧ ∀ group ∈ groups, group ≠ [] := by
  -- the buffer is the text of a last group, which is empty at the start
  have hfold (rest done : List (List Char)) (groups : List (List (List Char)))
      (last : List (List Char)) (hrest : ∀ para ∈ rest, para ≠ [])
      (hdone : groups.flatten ++ last = done) (hgroups : ∀ group ∈ groups, group ≠ [])
      (hlast : ∀ para ∈ last, para ≠ []) :
      ∃ (groups' : List (List (List Char))) (last' : List (List Char)), rest.foldl (ParagraphMerge.add maxWords)
          { merged := groups.map paragraphBreak.intercalate
            buffer := paragraphBreak.intercalate last } =
          { merged := groups'.map paragraphBreak.intercalate
            buffer := paragraphBreak.intercalate last' } ∧
        groups'.flatten ++ last' = done ++ rest ∧ (∀ group ∈ groups', group ≠ []) ∧
        ∀ para ∈ last', para ≠ [] := by
    induction rest generalizing done groups last with
    | nil => exact ⟨groups, last, rfl, by rw [hdone, List.append_nil], hgroups, hlast⟩
    | cons para rest ih =>
        obtain ⟨hpara, hrest⟩ := List.forall_mem_cons.mp hrest
        have hbuffer : paragraphBreak.intercalate last = [] ↔ last = [] := by
          refine ⟨fun hnil => ?_, fun hnil => hnil ▸ rfl⟩
          cases last with
          | nil => rfl
          | cons first last =>
              have hfirst := hlast first List.mem_cons_self
              cases last <;> simp [List.intercalate, hfirst] at hnil
        have hcandidate : (if paragraphBreak.intercalate last = [] then para
            else paragraphBreak.intercalate last ++ paragraphBreak ++ para) =
            paragraphBreak.intercalate (last ++ [para]) := by
          split_ifs with hnil
          · rw [hbuffer.mp hnil]
            simp [List.intercalate]
          · exact (intercalate_concat (fun heq => hnil (hbuffer.mpr heq)) para).symm
        rw [List.foldl_cons, List.append_cons done]
        dsimp only [ParagraphMerge.add]
        rw [hcandidate]
        split_ifs with hfits hnil
        · exact ih _ groups (last ++ [para]) hrest (by rw [← hdone, List.append_assoc]) hgroups
            (List.forall_mem_append.mpr ⟨hlast, List.forall_mem_singleton.mpr hpara⟩)
        · have hsingle : paragraphBreak.intercalate [para] = para := by simp [List.intercalate]
          have hstep := ih (done ++ [para]) groups [para] hrest
            (by rw [← hdone, hbuffer.mp hnil, List.append_nil]) hgroups
            (List.forall_mem_singleton.mpr hpara)
          rwa [hsingle] at hstep
        · have hsingle : paragraphBreak.intercalate [para] = para := by simp [List.intercalate]
          have hstep := ih (done ++ [para]) (groups ++ [last]) [para] hrest
            (by rw [← hdone, List.flatten_append]; simp)
            (List.forall_mem_append.mpr ⟨hgroups, List.forall_mem_singleton.mpr
              fun heq => hnil (hbuffer.mpr heq)⟩)
            (List.forall_mem_singleton.mpr hpara)
          rwa [hsingle, List.map_append] at hstep
  obtain ⟨groups, last, hfolded, hall, hgroups, hlast⟩ :=
    hfold paragraphs [] [] [] hparagraphs rfl nofun nofun
  have hstart : ({} : ParagraphMerge) =
      { merged := ([] : List (List (List Char))).map paragraphBreak.intercalate
        buffer := paragraphBreak.intercalate [] } := rfl
  rw [mergeParagraphs, hstart, hfolded]
  cases last with
  | nil =>
      refine ⟨groups, if_pos rfl, ?_, hgroups⟩
      rwa [List.append_nil] at hall
  | cons first last =>
      have hbuffer : paragraphBreak.intercalate (first :: last) ≠ [] := by
        have hfirst := hlast first List.mem_cons_self
        cases last <;> simp [List.intercalate, hfirst]
      refine ⟨groups ++ [first :: last], ?_, ?_, ?_⟩
      · rw [ParagraphMerge.finish, if_neg hbuffer, List.map_append]
        rfl
      · rw [← List.nil_append paragraphs, ← hall, List.flatten_append]
        simp
      · exact List.forall_mem_append.mpr
          ⟨hgroups, List.forall_mem_singleton.mpr (List.cons_ne_nil _ _)⟩

/-! ## What the chunks hold -/

/-- The chunks of a group: its text, or windows of more words than are repeated. -/
theorem chunksOfGroup_ends {maxWords : Int} (hmax : overlapWords < maxWords)
    (group : List Char) :
    ∃ chunks, Ends (fun steps => chunksOfGroup steps maxWords group) chunks ∧
      IsWindows overlapWords (pySplitWords group) (chunks.map pySplitWords) ∧
      (∀ chunk ∈ chunks, ((pySplitWords chunk).length : Int) ≤ maxWords) ∧
      (chunks = [group] ∧ ((pySplitWords group).length : Int) ≤ maxWords ∨
        maxWords < (pySplitWords group).length ∧
          ∀ chunk ∈ chunks, overlapWords < (pySplitWords chunk).length) := by
  unfold chunksOfGroup
  dsimp only
  split_ifs with hsmall
  · exact ⟨[group], .pure _, ⟨⟨_, [], rfl, by simp⟩, List.isChain_singleton _⟩,
      List.forall_mem_singleton.mpr hsmall, .inl ⟨rfl, hsmall⟩⟩
  · obtain ⟨maxWords, rfl⟩ := Int.eq_ofNat_of_zero_le (by omega : 0 ≤ maxWords)
    obtain ⟨first, rest, hends, hwindows, -, hsizes⟩ := windowsFrom_ends
      (by omega : overlapWords < maxWords) (by omega : 0 + overlapWords < (pySplitWords group).length)
    have hword {word : List Char} (h : word ∈ pySplitWords group) :
        word ≠ [] ∧ ∀ c ∈ word, isPySpace c = false := mem_words h
    have hback : (((first :: rest).map (List.intercalate [' '])).map pySplitWords) =
        first :: rest := by
      rw [List.map_map]
      refine (List.map_congr_left fun window hwindow => ?_).trans (List.map_id _)
      exact words_intercalate_words (List.cons_ne_nil _ _) (List.forall_mem_singleton.mpr rfl)
        fun word hmem => hword ((hsizes window hwindow).2.2 hmem)
    have hsize : ∀ chunk ∈ (first :: rest).map (List.intercalate [' ']),
        overlapWords < (pySplitWords chunk).length ∧ (pySplitWords chunk).length ≤ maxWords :=
      fun chunk hchunk =>
        let hwindow := hsizes _ (hback ▸ List.mem_map_of_mem hchunk)
        ⟨hwindow.1, hwindow.2.1⟩
    refine ⟨_, hends.map _, ?_, fun chunk hchunk => ?_, .inr ⟨by omega, fun chunk hchunk => ?_⟩⟩
    · rwa [hback]
    · exact_mod_cast (hsize chunk hchunk).2
    · exact (hsize chunk hchunk).1

/-- The chunks are windows of the groups of paragraphs, without the groups that have too
few words; the words of the groups are those of the text. -/
def CoversText (minWords : Int) (text : List Char) (chunks : List (List Char)) : Prop :=
  ∃ (groups : List (List (List Char))) (windows : List (List (List (List Char)))),
    groups.flatten = paragraphsOf text ∧ (∀ group ∈ groups, group ≠ []) ∧
      groups.flatMap wordsOfGroup = pySplitWords text ∧
      List.Forall₂ (fun group windows =>
        if ((wordsOfGroup group).length : Int) < minWords then windows = []
        else IsWindows overlapWords (wordsOfGroup group) windows) groups windows ∧
      chunks.map pySplitWords = windows.flatten

/-- The loops end; what they made of each group is filtered. -/
theorem chunkSegmentText_ends (text : List Char) (maxWords minWords : Int)
    (hmax : overlapWords < maxWords) :
    ∃ groups parts, groups.flatten = paragraphsOf text ∧ (∀ group ∈ groups, group ≠ []) ∧
      Ends (fun steps => chunkSegmentText steps text maxWords minWords)
        (parts.flatten.filter fun chunk => minWords ≤ (pySplitWords chunk).length) ∧
      List.Forall₂ (fun group chunks =>
        IsWindows overlapWords (wordsOfGroup group) (chunks.map pySplitWords) ∧
        (∀ chunk ∈ chunks, ((pySplitWords chunk).length : Int) ≤ maxWords) ∧
        (chunks = [paragraphBreak.intercalate group] ∨
          maxWords < (wordsOfGroup group).length ∧
            ∀ chunk ∈ chunks, overlapWords < (pySplitWords chunk).length)) groups parts := by
  have hparagraphs : ∀ para ∈ paragraphsOf text, para ≠ [] := fun para hpara =>
    of_decide_eq_true (List.mem_filter.mp hpara).2
  obtain ⟨groups, hmerged, hflatten, hgroups⟩ := mergeParagraphs_groups maxWords hparagraphs
  obtain ⟨parts, hends, hparts⟩ := Ends.mapM
    fun group (_ : group ∈ groups.map paragraphBreak.intercalate) =>
      chunksOfGroup_ends hmax group
  rw [List.forall₂_map_left_iff] at hparts
  refine ⟨groups, parts, hflatten, hgroups, ?_, hparts.imp fun group chunks hchunks => ?_⟩
  · simp only [chunkSegmentText, hmerged]
    exact hends.map _
  · obtain ⟨hwindows, hsmall, hsizes⟩ := hchunks
    rw [pySplitWords_group] at hwindows hsizes
    exact ⟨hwindows, hsmall, hsizes.imp_left And.left⟩

theorem chunks_cover_text (text : List Char) (maxWords minWords : Int)
    (hmax : 30 < maxWords) (hmin : minWords ≤ 31) :
    ∃ chunks, Ends (fun steps => chunkSegmentText steps text maxWords minWords) chunks ∧
      (∀ chunk ∈ chunks, minWords ≤ (pySplitWords chunk).length ∧
        (pySplitWords chunk).length ≤ maxWords) ∧
      CoversText minWords text chunks := by
  have hoverlap : (overlapWords : Int) = 30 := rfl
  obtain ⟨groups, parts, hflatten, hgroups, hends, hparts⟩ :=
    chunkSegmentText_ends text maxWords minWords (by omega)
  refine ⟨_, hends, fun chunk hchunk => ?_, groups,
    parts.map fun chunks => (chunks.filter fun chunk =>
      minWords ≤ (pySplitWords chunk).length).map pySplitWords, hflatten, hgroups, ?_, ?_, ?_⟩
  · obtain ⟨hmem, hlong⟩ := List.mem_filter.mp hchunk
    obtain ⟨part, hpart, hmem⟩ := List.mem_flatten.mp hmem
    obtain ⟨i, hi, rfl⟩ := List.mem_iff_getElem.mp hpart
    have hlength := hparts.length_eq
    obtain ⟨-, hsize, -⟩ := (List.forall₂_iff_get.mp hparts).2 i (by omega) hi
    exact ⟨of_decide_eq_true hlong, hsize chunk hmem⟩
  · rw [← wordsOfGroup_paragraphs, ← hflatten, ← List.flatMap_id, wordsOfGroup, List.flatMap_assoc]
    rfl
  · rw [List.forall₂_map_right_iff]
    refine hparts.imp fun group chunks hchunks => ?_
    obtain ⟨hwindows, -, hsizes⟩ := hchunks
    split_ifs with hfew
    · rcases hsizes with rfl | ⟨hlarge, -⟩
      · rw [List.map_eq_nil_iff, List.filter_eq_nil_iff]
        simp only [List.mem_singleton, forall_eq, decide_eq_true_eq, pySplitWords_group]
        omega
      · omega
    · rw [List.filter_eq_self.mpr fun chunk hchunk => ?_]
      · exact hwindows
      · rw [decide_eq_true_iff]
        rcases hsizes with rfl | ⟨-, hlong⟩
        · rw [List.mem_singleton.mp hchunk, pySplitWords_group]
          omega
        · have := hlong chunk hchunk
          omega
  · rw [List.filter_flatten, List.map_flatten, List.map_map]
    rfl

/-- Two paragraphs within one chunk. -/
theorem chunks_cover_text_joined :
    chunkSegmentText 1 ['h', 'i', '\n', '\n', 'y', 'o', ' ', 'u'] 31 2 =
        some [['h', 'i', '\n', '\n', 'y', 'o', ' ', 'u']] ∧
      ∃ chunks, Ends (fun steps =>
          chunkSegmentText steps ['h', 'i', '\n', '\n', 'y', 'o', ' ', 'u'] 31 2) chunks ∧
        (∀ chunk ∈ chunks, (2 : Int) ≤ (pySplitWords chunk).length ∧
          ((pySplitWords chunk).length : Int) ≤ 31) ∧
        CoversText 2 ['h', 'i', '\n', '\n', 'y', 'o', ' ', 'u'] chunks :=
  ⟨by decide +kernel, chunks_cover_text _ 31 2 (by decide) (by decide)⟩

/-! ## Turns -/

/-- A turn with words has a chunk, whatever its length. -/
theorem chunkTurnText_ends (text : List Char) (maxWords minWords : Int)
    (hmax : overlapWords < maxWords) (htext : pyStripChars text ≠ []) :
    ∃ chunks, Ends (fun steps => chunkTurnText steps text maxWords minWords) chunks ∧
      chunks ≠ [] := by
  obtain ⟨groups, parts, -, -, hends, -⟩ := chunkSegmentText_ends text maxWords minWords hmax
  refine ⟨_, hends.map _, ?_⟩
  split_ifs with hchunks
  · exact hchunks
  · exact List.cons_ne_nil _ _

end VirtualContext
