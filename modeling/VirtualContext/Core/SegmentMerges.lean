import VirtualContext.Core.SegmentProvenance

/-!
# What a compaction keeps of the messages

The messages of a merge candidate are copied when a segment chooses it, and the
stored segments are overwritten later.  Two segments with the same candidate
overwrite each other, and only the second one keeps its own messages.
-/

namespace VirtualContext

open VirtualContext.Library

/-! ## The property and its condition -/

def TaggedSegment.storedMessages (seg : TaggedSegment) : List SegmentMessage :=
  seg.messages.map (·.stored)

/-- The stored segments as what is written under their refs. -/
def Tables.contents (t : Tables) : List (String × List SegmentMessage) :=
  t.segments.map fun segment => (segment.ref, segment.messages)

/-- Some stored segment has the message. -/
def Tables.HasMessage (t : Tables) (msg : SegmentMessage) : Prop :=
  ∃ segment ∈ t.segments, msg ∈ segment.messages

/-- Every message, stored before or compacted now, is in a stored segment. -/
def LosesNoMessage (before after : Tables) (segments : List TaggedSegment) :
    Prop :=
  (∀ msg, before.HasMessage msg → after.HasMessage msg) ∧
    ∀ seg ∈ segments, ∀ msg ∈ seg.storedMessages, after.HasMessage msg

/-- Segments as the segmenter builds them: unmerged, with new identifiers. -/
structure NewSegments (t : Tables) (segments : List TaggedSegment) : Prop where
  unmerged : ∀ seg ∈ segments, seg.mergeRef = ""
  distinct : (segments.map (·.id)).Nodup
  fresh : ∀ seg ∈ segments, ∀ segment ∈ t.segments, segment.ref ≠ seg.id

/-- A segment to compact with the stored one that it is merged into. -/
abbrev MergeChoice := TaggedSegment × Option StoredSegment

/-- The ref of the candidate, empty if there is none. -/
def MergeChoice.mergeRef (choice : MergeChoice) : String :=
  (choice.2.map (·.ref)).getD ""

/-- The candidate of the segment is chosen again by a later one. -/
def Overwritten (choices : List MergeChoice) (seg : TaggedSegment) : Prop :=
  ∃ earlier choice later, choices = earlier ++ choice :: later ∧
    choice.1 = seg ∧ choice.mergeRef ≠ "" ∧
    ∃ other ∈ later, other.mergeRef = choice.mergeRef

namespace CompactionPipeline

variable (pipeline : CompactionPipeline)

/-- A stub is stored as it is, and so is not compacted. -/
def isStub (seg : TaggedSegment) : Bool :=
  pipeline.isStubContent (joinContents seg.messages)

/-- The candidate that the first pass finds for a segment. -/
def mergeCandidate (t : Tables) (seg : TaggedSegment) : Option StoredSegment :=
  pipeline.bestCandidate seg
    (if 0 < pipeline.mergeLookback then
      t.getSegmentsByTags seg.tags 1 pipeline.mergeLookback
        pipeline.conversationId
    else [])

/-- What the segments that are no stubs choose, in a store that has the stubs. -/
def mergeChoices : Tables → List (TaggedSegment × Attribution) →
    List MergeChoice
  | _, [] => []
  | t, (seg, attribution) :: rest =>
      if pipeline.isStub seg then
        mergeChoices
          (t.replaceSegment
            ((pipeline.passthrough seg attribution).record pipeline.guard))
          rest
      else (seg, pipeline.mergeCandidate t seg) :: mergeChoices t rest

/--
Each message of a segment whose candidate is chosen again is also in a stored
segment or in another segment, one whose candidate is not chosen again.
-/
def OverwritesNothing (t : Tables) (segments : List TaggedSegment)
    (compactRows : List CanonicalTurnRow) : Prop :=
  let choices := pipeline.mergeChoices t
    (pipeline.attributeRows compactRows 0 segments)
  ∀ seg, Overwritten choices seg → ∀ msg ∈ seg.storedMessages,
    t.HasMessage msg ∨ ∃ other ∈ segments, ¬ Overwritten choices other ∧
      msg ∈ other.storedMessages

/-- The compactor returns for each segment a result with its messages. -/
def CarriesMessages : Prop :=
  ∀ prepared, List.Forall₂
    (fun (prepared : TaggedSegment × Attribution) (result : CompactionResult) =>
      result.segmentId = prepared.1.id ∧
        result.messages = prepared.1.storedMessages)
    prepared (pipeline.compact prepared)

end CompactionPipeline

/-! ## The candidates -/

section Candidates

variable {pipeline : CompactionPipeline} {seg : TaggedSegment}

theorem mem_of_bestCandidate {candidates : List StoredSegment}
    {candidate : StoredSegment}
    (h : pipeline.bestCandidate seg candidates = some candidate) :
    candidate ∈ candidates := by
  unfold CompactionPipeline.bestCandidate at h
  revert h
  refine List.foldlRecOn
    (motive := fun (best : Option StoredSegment × ℚ) =>
      best.1 = some candidate → candidate ∈ candidates) _ _ (by simp) ?_
  intro best hbest other hother heq
  dsimp only at heq
  split_ifs at heq
  · exact hbest heq
  · exact hbest heq
  · cases heq
    exact hother
  · exact hbest heq

/-- A candidate is a stored segment. -/
theorem mem_contents_of_mergeCandidate {t : Tables} {candidate : StoredSegment}
    (h : pipeline.mergeCandidate t seg = some candidate) :
    (candidate.ref, candidate.messages) ∈ t.contents := by
  have hmem := mem_of_bestCandidate h
  split_ifs at hmem with hlookback
  · unfold Tables.getSegmentsByTags at hmem
    split_ifs at hmem
    · cases hmem
    · obtain ⟨segment, hsegment, rfl⟩ := List.mem_map.mp hmem
      have hstored := (List.mergeSort_perm _ _).mem_iff.mp
        (List.mem_of_mem_take hsegment)
      exact List.mem_map.mpr ⟨segment, (List.mem_filter.mp hstored).1, rfl⟩
  · cases hmem

end Candidates

/-! ## The choices of the first pass -/

namespace MergeChoice

/-- The segment as it is prepared. -/
def prepared (choice : MergeChoice) : TaggedSegment :=
  match choice.2 with
  | some candidate => CompactionPipeline.mergeInto choice.1 candidate
  | none => choice.1

/-- The ref under which the result is stored. -/
def targetRef (choice : MergeChoice) : String :=
  if choice.mergeRef ≠ "" then choice.mergeRef else choice.1.id

end MergeChoice

/-- What is written for a prepared segment. -/
def TaggedSegment.entry (seg : TaggedSegment) :
    String × List SegmentMessage :=
  (if seg.mergeRef ≠ "" then seg.mergeRef else seg.id, seg.storedMessages)

section Choices

variable {pipeline : CompactionPipeline} {t : Tables}
  {attributed : List (TaggedSegment × Attribution)} {choice : MergeChoice}

theorem storedMessages_mergeInto (seg : TaggedSegment)
    (candidate : StoredSegment) :
    (CompactionPipeline.mergeInto seg candidate).storedMessages =
      candidate.messages ++ seg.storedMessages := by
  simp [CompactionPipeline.mergeInto, TaggedSegment.storedMessages,
    Function.comp_def, RowMessage.stored]

theorem entry_prepared (hunmerged : choice.1.mergeRef = "") :
    choice.prepared.entry =
      (choice.targetRef, (choice.2.elim [] (·.messages)) ++
        choice.1.storedMessages) := by
  obtain ⟨seg, candidate | candidate⟩ := choice
  · simp [MergeChoice.prepared, TaggedSegment.entry, MergeChoice.targetRef,
      MergeChoice.mergeRef, show seg.mergeRef = "" from hunmerged]
  · simp only [MergeChoice.prepared, TaggedSegment.entry,
      storedMessages_mergeInto]
    rfl

theorem map_fst_mergeChoices :
    (pipeline.mergeChoices t attributed).map (·.1) =
      (attributed.map (·.1)).filter fun seg => !pipeline.isStub seg := by
  induction attributed generalizing t with
  | nil => rfl
  | cons first rest ih =>
      rw [CompactionPipeline.mergeChoices, List.map_cons, List.filter_cons]
      split_ifs with hstub <;> simp_all

theorem contents_replaceSegment (segment : SegmentRecord) (t : Tables) :
    (t.replaceSegment segment).contents =
      replaceBy Prod.fst (segment.ref, segment.messages) t.contents := by
  have hkey (row : SegmentRecord) :
      Prod.fst (row.ref, row.messages) = row.ref := rfl
  exact map_replaceBy hkey segment t.segments

/-- A candidate was stored before, or is a stub of the same pass. -/
theorem candidate_mem (hchoice : choice ∈ pipeline.mergeChoices t attributed)
    {candidate : StoredSegment} (h : choice.2 = some candidate) :
    (candidate.ref, candidate.messages) ∈ t.contents ∨
      ∃ seg ∈ attributed.map (·.1), pipeline.isStub seg ∧
        (candidate.ref, candidate.messages) =
          (seg.id, seg.storedMessages) := by
  induction attributed generalizing t with
  | nil => cases hchoice
  | cons first rest ih =>
      obtain ⟨seg, attribution⟩ := first
      rw [CompactionPipeline.mergeChoices] at hchoice
      split_ifs at hchoice with hstub
      · rcases ih hchoice with hmem | ⟨stub, hstub', hmem⟩
        · rw [contents_replaceSegment, mem_replaceBy] at hmem
          rcases hmem with hmem | ⟨hmem, -⟩
          · exact .inr ⟨seg, by simp, hstub, hmem⟩
          · exact .inl hmem
        · exact .inr ⟨stub, List.mem_cons_of_mem _ hstub', hmem⟩
      · rcases List.mem_cons.mp hchoice with rfl | hchoice
        · exact .inl (mem_contents_of_mergeCandidate h)
        · rcases ih hchoice with hmem | ⟨stub, hstub', hmem⟩
          · exact .inl hmem
          · exact .inr ⟨stub, List.mem_cons_of_mem _ hstub', hmem⟩

end Choices

/-! ## Runs -/

section Runs

variable {pipeline : CompactionPipeline} {t : Tables} {n : Nat}
  {c : Conn Tables} {attributed : List (TaggedSegment × Attribution)}

/-- A segment that is stored without an exception is in the table. -/
theorem eq_idle_of_storeSegment {segment : StoredSegment}
    {guard : Option CompactionGuard} {ref : String}
    (h : (storeSegment segment guard).run .quiet (.idle t n) = (.ok ref, c)) :
    c = .idle (t.replaceSegment (segment.record guard)) n := by
  rw [storeSegment, run_immediately, Program.run_bind] at h
  cases guard with
  | none =>
      simp only [guardedWrite, Program.run_update_open, Program.andThen_ok,
        Program.run_bind, run_insertTags] at h
      by_cases hnodup : segment.tags.Nodup
      · rw [if_pos hnodup] at h
        cases h
        rfl
      · rw [if_neg hnodup] at h
        cases h
  | some guard =>
      rw [run_guardedWrite] at h
      by_cases howned : t.ownsCompaction segment.conversationId guard
      · rw [if_pos howned] at h
        simp only [Program.andThen_ok, Program.run_bind, run_insertTags] at h
        by_cases hnodup : segment.tags.Nodup
        · rw [if_pos hnodup] at h
          cases h
          rfl
        · rw [if_neg hnodup] at h
          cases h
      · rw [if_neg howned] at h
        cases h

/-- The stubs are stored and the choices are prepared. -/
theorem prepare_contents {stubs : List SegmentWrite}
    {prepared : List PreparedSegment}
    (hrun : (pipeline.prepare attributed).run .quiet (.idle t n) =
      (.ok (stubs, prepared), c)) :
    ∃ t', c = .idle t' n ∧
      t'.contents = ((attributed.map (·.1)).filter pipeline.isStub |>.map
        fun seg => (seg.id, seg.storedMessages)).foldl
          (fun rows w => replaceBy Prod.fst w rows) t.contents ∧
      prepared.map (·.segment) =
        (pipeline.mergeChoices t attributed).map (·.prepared) := by
  induction attributed generalizing t c stubs prepared with
  | nil =>
      cases hrun
      exact ⟨t, rfl, rfl, rfl⟩
  | cons first rest ih =>
      obtain ⟨seg, attribution⟩ := first
      rw [CompactionPipeline.prepare] at hrun
      change (if pipeline.isStub seg then _ else _ : StoreProgram _).run _ _ =
        _ at hrun
      by_cases hstub : pipeline.isStub seg
      · rw [if_pos hstub, Program.run_bind] at hrun
        obtain ⟨ref, between, hstore, hrun⟩ := Program.andThen_eq_ok hrun
        rw [Program.run_bind] at hrun
        obtain ⟨⟨written, prepared'⟩, last, hrest, hrun⟩ :=
          Program.andThen_eq_ok hrun
        cases hrun
        rw [eq_idle_of_storeSegment hstore] at hrest
        obtain ⟨t', rfl, hcontents, hprepared⟩ := ih hrest
        refine ⟨t', rfl, ?_, ?_⟩
        · rw [hcontents, contents_replaceSegment, List.map_cons,
            List.filter_cons_of_pos hstub]
          rfl
        · rw [hprepared, CompactionPipeline.mergeChoices, if_pos hstub]
      · have hchoices : pipeline.mergeChoices t ((seg, attribution) :: rest) =
            (seg, pipeline.mergeCandidate t seg) ::
              pipeline.mergeChoices t rest := by
          rw [CompactionPipeline.mergeChoices, if_neg hstub]
        rw [if_neg hstub, Program.run_bind, Program.run_read_quiet,
          Program.andThen_ok, Program.run_bind] at hrun
        obtain ⟨⟨written, prepared'⟩, last, hrest, hrun⟩ :=
          Program.andThen_eq_ok hrun
        obtain ⟨t', rfl, hcontents, hprepared⟩ := ih hrest
        cases hrun
        refine ⟨t', rfl, ?_, ?_⟩
        · rw [hcontents, List.map_cons, List.filter_cons_of_neg hstub]
        · rw [hchoices, List.map_cons, ← hprepared]
          change _ = MergeChoice.prepared (seg, pipeline.bestCandidate seg _) :: _
          rw [Conn.view_idle]
          split <;> rename_i heq
          · rw [heq]
            rfl
          · rw [heq]
            rfl

theorem storeResults_contents {prepared : List PreparedSegment}
    {results : List CompactionResult} {written : List SegmentWrite}
    (hcarries : List.Forall₂ (fun prepared result =>
      result.segmentId = prepared.segment.id ∧
        result.messages = prepared.segment.storedMessages) prepared results)
    (hrun : (pipeline.storeResults (prepared.zip results)).run .quiet
      (.idle t n) = (.ok written, c)) :
    c.durable.contents = (prepared.map (·.segment.entry)).foldl
      (fun rows w => replaceBy Prod.fst w rows) t.contents := by
  induction hcarries generalizing t c written with
  | nil =>
      cases hrun
      rfl
  | cons hhead htail ih =>
      rw [List.zip_cons_cons, CompactionPipeline.storeResults,
        Program.run_bind] at hrun
      obtain ⟨ref, between, hstore, hrun⟩ := Program.andThen_eq_ok hrun
      rw [Program.run_bind] at hrun
      obtain ⟨written', last, hrest, hrun⟩ := Program.andThen_eq_ok hrun
      cases hrun
      rw [eq_idle_of_storeSegment hstore] at hrest
      rw [ih hrest, contents_replaceSegment, List.map_cons, List.foldl_cons]
      congr 2
      simp [CompactionPipeline.compacted, StoredSegment.record,
        TaggedSegment.entry, hhead.1, hhead.2]

end Runs

/-! ## Last writes and segments that are not overwritten -/

section Choices

variable {choices : List MergeChoice} {first choice : MergeChoice}

theorem overwritten_cons {seg : TaggedSegment} :
    Overwritten (first :: choices) seg ↔
      (first.1 = seg ∧ first.mergeRef ≠ "" ∧
        ∃ other ∈ choices, other.mergeRef = first.mergeRef) ∨
        Overwritten choices seg := by
  constructor
  · rintro ⟨earlier, choice, later, heq, h⟩
    cases earlier with
    | nil =>
        obtain ⟨rfl, rfl⟩ := List.cons.inj heq
        exact .inl h
    | cons a earlier =>
        obtain ⟨rfl, rfl⟩ := List.cons.inj heq
        exact .inr ⟨earlier, choice, later, rfl, h⟩
  · rintro (h | ⟨earlier, choice, later, rfl, h⟩)
    · exact ⟨[], first, choices, rfl, h⟩
    · exact ⟨first :: earlier, choice, later, rfl, h⟩

theorem Overwritten.mem {seg : TaggedSegment} (h : Overwritten choices seg) :
    seg ∈ choices.map (·.1) := by
  obtain ⟨earlier, choice, later, rfl, rfl, -⟩ := h
  simp

/-- Identifiers are distinct, and no candidate has one of them for its ref. -/
structure DistinctTargets (choices : List MergeChoice) : Prop where
  ids : (choices.map (·.1.id)).Nodup
  refs : ∀ choice ∈ choices, choice.mergeRef ≠ "" →
    ∀ other ∈ choices, choice.mergeRef ≠ other.1.id

theorem DistinctTargets.tail (h : DistinctTargets (first :: choices)) :
    DistinctTargets choices where
  ids := h.ids.tail
  refs choice hchoice hmerged other hother :=
    h.refs choice (List.mem_cons_of_mem _ hchoice) hmerged other
      (List.mem_cons_of_mem _ hother)

/-- Another target is the same only if both are the same candidate's. -/
theorem targetRef_eq_iff (h : DistinctTargets (first :: choices))
    (hchoice : choice ∈ choices) :
    choice.targetRef = first.targetRef ↔
      first.mergeRef ≠ "" ∧ choice.mergeRef = first.mergeRef := by
  have hmem := List.mem_cons_of_mem first hchoice
  have hids : choice.1.id ≠ first.1.id := by
    intro heq
    exact (List.nodup_cons.mp h.ids).1
      (List.mem_map.mpr ⟨choice, hchoice, heq⟩)
  have hforth (hmerged : choice.mergeRef ≠ "") :=
    h.refs choice hmem hmerged first (by simp)
  have hback (hmerged : first.mergeRef ≠ "") :=
    h.refs first (by simp) hmerged choice hmem
  unfold MergeChoice.targetRef
  by_cases hfirst : first.mergeRef = ""
  · by_cases hother : choice.mergeRef = ""
    · simp [hfirst, hother, hids]
    · simp [hfirst, hother, hforth hother]
  · by_cases hother : choice.mergeRef = ""
    · simp [hfirst, hother, (hback hfirst).symm, Ne.symm hfirst]
    · simp [hfirst, hother]

/-- The write for a segment is the last one at its ref or is overwritten. -/
theorem isLast_iff_not_overwritten (h : DistinctTargets choices)
    (hchoice : choice ∈ choices) :
    IsLast MergeChoice.targetRef choice choices ↔
      ¬ Overwritten choices choice.1 := by
  induction choices with
  | nil => cases hchoice
  | cons first choices ih =>
      have hnodup := List.nodup_cons.mp h.ids
      rw [isLast_cons, overwritten_cons]
      rcases List.mem_cons.mp hchoice with rfl | hmem
      · have hnotMem : choice ∉ choices := fun hmem =>
          hnodup.1 (List.mem_map.mpr ⟨choice, hmem, rfl⟩)
        have hnotLast : ¬ IsLast MergeChoice.targetRef choice choices :=
          fun hlast => hnotMem hlast.mem
        have hnotLater : ¬ Overwritten choices choice.1 := by
          intro hlater
          obtain ⟨other, hother, heq⟩ := List.mem_map.mp hlater.mem
          exact hnodup.1 (List.mem_map.mpr ⟨other, hother, by rw [heq]⟩)
        constructor
        · rintro (⟨-, hlater⟩ | hlast) (⟨-, hne, other, hother, heq⟩ | hover)
          · exact hlater other hother
              ((targetRef_eq_iff h hother).mpr ⟨hne, heq⟩)
          · exact hnotLater hover
          · exact hnotLast hlast
          · exact hnotLast hlast
        · intro hover
          refine .inl ⟨rfl, fun other hother heq => hover (.inl ⟨rfl, ?_⟩)⟩
          obtain ⟨hne, hsame⟩ := (targetRef_eq_iff h hother).mp heq
          exact ⟨hne, other, hother, hsame⟩
      · have hne : choice ≠ first := by
          rintro rfl
          exact hnodup.1 (List.mem_map.mpr ⟨choice, hmem, rfl⟩)
        have hne' : first.1 ≠ choice.1 := fun heq =>
          hnodup.1 (List.mem_map.mpr
            ⟨choice, hmem, congrArg TaggedSegment.id heq.symm⟩)
        rw [ih h.tail hmem]
        simp [hne, hne']

end Choices

/-! ## What is kept -/

section Kept

variable {pipeline : CompactionPipeline} {t : Tables} {n : Nat}
  {c : Conn Tables} {segments : List TaggedSegment}
  {compactRows : List CanonicalTurnRow} {written : List SegmentWrite}

theorem map_fst_attributeRows (segCursor : Nat) :
    (pipeline.attributeRows compactRows segCursor segments).map (·.1) =
      segments := by
  induction segments generalizing segCursor with
  | nil => rfl
  | cons seg segments ih =>
      rw [CompactionPipeline.attributeRows, List.map_cons, ih]

/-- The stubs of a pass, as they are stored. -/
def CompactionPipeline.stubEntries (pipeline : CompactionPipeline)
    (segments : List TaggedSegment) : List (String × List SegmentMessage) :=
  (segments.filter pipeline.isStub).map fun seg => (seg.id, seg.storedMessages)

theorem compactAndStore_contents (hcarries : pipeline.CarriesMessages)
    (hrun : (pipeline.compactAndStore segments compactRows).run .quiet
      (.idle t n) = (.ok written, c)) :
    c.durable.contents =
      ((pipeline.mergeChoices t
        (pipeline.attributeRows compactRows 0 segments)).map
          (·.prepared.entry)).foldl
        (fun rows w => replaceBy Prod.fst w rows)
        ((pipeline.stubEntries segments).foldl
          (fun rows w => replaceBy Prod.fst w rows) t.contents) := by
  rw [CompactionPipeline.compactAndStore, Program.run_bind] at hrun
  obtain ⟨⟨stubs, prepared⟩, between, hprepare, hrun⟩ :=
    Program.andThen_eq_ok hrun
  rw [Program.run_bind] at hrun
  obtain ⟨results, last, hresults, hrun⟩ := Program.andThen_eq_ok hrun
  cases hrun
  obtain ⟨t', rfl, hcontents, hprepared⟩ := prepare_contents hprepare
  have hresult := hcarries
    (prepared.map fun prepared => (prepared.segment, prepared.attribution))
  rw [List.forall₂_map_left_iff] at hresult
  rw [storeResults_contents hresult hresults, hcontents,
    map_fst_attributeRows]
  have hentries : prepared.map (·.segment.entry) =
      (prepared.map (·.segment)).map (·.entry) := by
    rw [List.map_map]
    rfl
  rw [hentries, hprepared, List.map_map]
  rfl

theorem keys_stubEntries :
    (pipeline.stubEntries segments).map Prod.fst =
      (segments.filter pipeline.isStub).map (·.id) := by
  rw [CompactionPipeline.stubEntries, List.map_map]
  rfl

theorem hasMessage_iff_held {msg : SegmentMessage} :
    t.HasMessage msg ↔ Held Prod.snd t.contents msg := by
  simp [Tables.HasMessage, Held, Tables.contents]

/-- Stubs have identifiers of their own. -/
theorem foldl_stubEntries (hnew : NewSegments t segments) :
    (pipeline.stubEntries segments).foldl
        (fun rows w => replaceBy Prod.fst w rows) t.contents =
      t.contents ++ pipeline.stubEntries segments := by
  refine foldl_replaceBy_of_fresh ?_ ?_
  · rw [keys_stubEntries]
    exact hnew.distinct.sublist (List.filter_sublist.map _)
  · intro w hw row hrow
    obtain ⟨seg, hseg, rfl⟩ := List.mem_map.mp hw
    obtain ⟨segment, hsegment, rfl⟩ := List.mem_map.mp hrow
    exact hnew.fresh seg (List.mem_filter.mp hseg).1 segment hsegment

/-- The refs in the table once the stubs are stored. -/
theorem nodup_keys_base (hkeyed : (t.segments.map (·.ref)).Nodup)
    (hnew : NewSegments t segments) :
    ((t.contents ++ pipeline.stubEntries segments).map Prod.fst).Nodup := by
  rw [List.map_append, List.nodup_append]
  refine ⟨?_, ?_, ?_⟩
  · rw [Tables.contents, List.map_map]
    exact hkeyed
  · rw [keys_stubEntries]
    exact hnew.distinct.sublist (List.filter_sublist.map _)
  · rw [keys_stubEntries, Tables.contents, List.map_map]
    rintro a ha b hb
    obtain ⟨segment, hsegment, rfl⟩ := List.mem_map.mp ha
    obtain ⟨seg, hseg, rfl⟩ := List.mem_map.mp hb
    exact hnew.fresh seg (List.mem_filter.mp hseg).1 segment hsegment

variable {choice : MergeChoice}

/-- The segments to compact are the ones that are no stubs. -/
theorem mem_choices_segment
    (h : choice ∈ pipeline.mergeChoices t
      (pipeline.attributeRows compactRows 0 segments)) :
    choice.1 ∈ segments ∧ pipeline.isStub choice.1 = false := by
  have hmem := List.mem_map_of_mem (f := Prod.fst) h
  rw [map_fst_mergeChoices, map_fst_attributeRows, List.mem_filter] at hmem
  simpa using hmem

theorem candidate_mem_base
    (h : choice ∈ pipeline.mergeChoices t
      (pipeline.attributeRows compactRows 0 segments))
    {candidate : StoredSegment} (hcandidate : choice.2 = some candidate) :
    (candidate.ref, candidate.messages) ∈
      t.contents ++ pipeline.stubEntries segments := by
  rcases candidate_mem h hcandidate with hmem | ⟨seg, hseg, hstub, heq⟩
  · exact List.mem_append_left _ hmem
  · rw [map_fst_attributeRows] at hseg
    rw [heq]
    exact List.mem_append_right _
      (List.mem_map_of_mem (List.mem_filter.mpr ⟨hseg, hstub⟩))

theorem id_notMem_base (hnew : NewSegments t segments) {seg : TaggedSegment}
    (hseg : seg ∈ segments) (hstub : pipeline.isStub seg = false) :
    seg.id ∉ (t.contents ++ pipeline.stubEntries segments).map Prod.fst := by
  rw [List.map_append, List.mem_append, keys_stubEntries]
  rintro (hmem | hmem)
  · simp only [Tables.contents, List.map_map, List.mem_map] at hmem
    obtain ⟨segment, hsegment, heq⟩ := hmem
    exact hnew.fresh seg hseg segment hsegment heq
  · obtain ⟨stub, hmem, heq⟩ := List.mem_map.mp hmem
    obtain ⟨hmem, hisStub⟩ := List.mem_filter.mp hmem
    rw [List.inj_on_of_nodup_map hnew.distinct hmem hseg heq, hstub] at hisStub
    cases hisStub

theorem mergeRef_mem_base
    (h : choice ∈ pipeline.mergeChoices t
      (pipeline.attributeRows compactRows 0 segments))
    (hmerged : choice.mergeRef ≠ "") :
    choice.mergeRef ∈
      (t.contents ++ pipeline.stubEntries segments).map Prod.fst := by
  cases hcandidate : choice.2 with
  | none => simp [MergeChoice.mergeRef, hcandidate] at hmerged
  | some candidate =>
      have hmem := candidate_mem_base h hcandidate
      rw [MergeChoice.mergeRef, hcandidate]
      exact List.mem_map.mpr ⟨_, hmem, rfl⟩

theorem distinctTargets (pipeline : CompactionPipeline)
    (compactRows : List CanonicalTurnRow) (hnew : NewSegments t segments) :
    DistinctTargets (pipeline.mergeChoices t
      (pipeline.attributeRows compactRows 0 segments)) where
  ids := by
    have hids (choices : List MergeChoice) :
        choices.map (·.1.id) = (choices.map (·.1)).map (·.id) := by
      rw [List.map_map]
      rfl
    rw [hids, map_fst_mergeChoices, map_fst_attributeRows]
    exact hnew.distinct.sublist (List.filter_sublist.map _)
  refs choice hchoice hmerged other hother heq := by
    obtain ⟨hseg, hstub⟩ := mem_choices_segment hother
    refine id_notMem_base hnew hseg hstub (heq ▸ ?_)
    exact mergeRef_mem_base hchoice hmerged

/-- A write has what the segment had that it replaces. -/
theorem entry_covers (hkeyed : (t.segments.map (·.ref)).Nodup)
    (hnew : NewSegments t segments)
    (h : choice ∈ pipeline.mergeChoices t
      (pipeline.attributeRows compactRows 0 segments))
    {row : String × List SegmentMessage}
    (hrow : row ∈ t.contents ++ pipeline.stubEntries segments)
    (hkey : row.1 = choice.targetRef) :
    row.2 ⊆ choice.prepared.entry.2 := by
  obtain ⟨hseg, hstub⟩ := mem_choices_segment h
  rw [entry_prepared (hnew.unmerged _ hseg)]
  by_cases hmerged : choice.mergeRef = ""
  · rw [MergeChoice.targetRef, if_neg (by simpa using hmerged)] at hkey
    refine absurd ?_ (id_notMem_base hnew hseg hstub)
    exact hkey ▸ List.mem_map_of_mem hrow
  · rw [MergeChoice.targetRef, if_pos hmerged] at hkey
    cases hcandidate : choice.2 with
    | none => simp [MergeChoice.mergeRef, hcandidate] at hmerged
    | some candidate =>
        rw [MergeChoice.mergeRef, hcandidate] at hkey
        rw [List.inj_on_of_nodup_map (nodup_keys_base hkeyed hnew) hrow
          (candidate_mem_base h hcandidate) hkey]
        exact List.subset_append_left _ _

/-- A stub is not overwritten. -/
theorem held_base_iff {msg : SegmentMessage} :
    Held Prod.snd (t.contents ++ pipeline.stubEntries segments) msg ↔
      t.HasMessage msg ∨ ∃ seg ∈ segments, pipeline.isStub seg ∧
        msg ∈ seg.storedMessages := by
  rw [hasMessage_iff_held]
  simp only [Held, List.mem_append, CompactionPipeline.stubEntries,
    List.mem_map, List.mem_filter]
  constructor
  · rintro ⟨row, hrow | ⟨seg, ⟨hseg, hstub⟩, rfl⟩, hmsg⟩
    · exact .inl ⟨row, hrow, hmsg⟩
    · exact .inr ⟨seg, hseg, hstub, hmsg⟩
  · rintro (⟨row, hrow, hmsg⟩ | ⟨seg, hseg, hstub, hmsg⟩)
    · exact ⟨row, .inl hrow, hmsg⟩
    · exact ⟨_, .inr ⟨seg, ⟨hseg, hstub⟩, rfl⟩, hmsg⟩

/-- What the pass keeps: all that was stored, and what is not overwritten. -/
theorem hasMessage_after_iff (hkeyed : (t.segments.map (·.ref)).Nodup)
    (hnew : NewSegments t segments) (hcarries : pipeline.CarriesMessages)
    (hrun : (pipeline.compactAndStore segments compactRows).run .quiet
      (.idle t n) = (.ok written, c)) (msg : SegmentMessage) :
    c.durable.HasMessage msg ↔ t.HasMessage msg ∨
      ∃ seg ∈ segments, ¬ Overwritten (pipeline.mergeChoices t
        (pipeline.attributeRows compactRows 0 segments)) seg ∧
          msg ∈ seg.storedMessages := by
  have hdistinct := distinctTargets pipeline compactRows hnew
  have hkey : ∀ choice ∈ pipeline.mergeChoices t
      (pipeline.attributeRows compactRows 0 segments),
      choice.prepared.entry = (choice.targetRef,
        (choice.2.elim [] (·.messages)) ++ choice.1.storedMessages) :=
    fun choice hchoice =>
      entry_prepared (hnew.unmerged _ (mem_choices_segment hchoice).1)
  rw [hasMessage_iff_held, compactAndStore_contents hcarries hrun,
    foldl_stubEntries hnew, held_foldl_replaceBy]
  swap
  · intro w hw row hrow heq
    obtain ⟨choice, hchoice, rfl⟩ := List.mem_map.mp hw
    rw [hkey choice hchoice] at heq
    exact entry_covers hkeyed hnew hchoice hrow heq
  -- a stub is among the segments and never overwritten
  have hbase (hheld : Held Prod.snd
      (t.contents ++ pipeline.stubEntries segments) msg) :
      t.HasMessage msg ∨ ∃ seg ∈ segments,
        ¬ Overwritten (pipeline.mergeChoices t
          (pipeline.attributeRows compactRows 0 segments)) seg ∧
            msg ∈ seg.storedMessages := by
    rcases held_base_iff.mp hheld with h | ⟨seg, hseg, hstub, hmsg⟩
    · exact .inl h
    · refine .inr ⟨seg, hseg, fun hover => ?_, hmsg⟩
      obtain ⟨choice, hchoice, rfl⟩ := List.mem_map.mp hover.mem
      rw [(mem_choices_segment hchoice).2] at hstub
      cases hstub
  rw [List.map_congr_left hkey]
  have hkeys (choice : MergeChoice) :
      Prod.fst (choice.targetRef,
        (choice.2.elim [] (·.messages)) ++ choice.1.storedMessages) =
          choice.targetRef := rfl
  constructor
  · rintro (hheld | ⟨w, hw, hmsg⟩)
    · exact hbase hheld
    · obtain ⟨choice, hlast, rfl⟩ := (isLast_map hkeys).mp hw
      have hchoice := hlast.mem
      rcases List.mem_append.mp hmsg with hmsg | hmsg
      · cases hcandidate : choice.2 with
        | none => simp [hcandidate] at hmsg
        | some candidate =>
            rw [hcandidate] at hmsg
            exact hbase ⟨_, candidate_mem_base hchoice hcandidate, hmsg⟩
      · exact .inr ⟨choice.1, (mem_choices_segment hchoice).1,
          (isLast_iff_not_overwritten hdistinct hchoice).mp hlast, hmsg⟩
  · rintro (h | ⟨seg, hseg, hover, hmsg⟩)
    · exact .inl (held_base_iff.mpr (.inl h))
    · by_cases hstub : pipeline.isStub seg
      · exact .inl (held_base_iff.mpr (.inr ⟨seg, hseg, hstub, hmsg⟩))
      · obtain ⟨choice, hchoice, rfl⟩ : ∃ choice ∈ pipeline.mergeChoices t
            (pipeline.attributeRows compactRows 0 segments),
              choice.1 = seg := by
          rw [← List.mem_map, map_fst_mergeChoices, map_fst_attributeRows]
          exact List.mem_filter.mpr ⟨hseg, by simpa using hstub⟩
        refine .inr ⟨_, (isLast_map hkeys).mpr ⟨choice,
          (isLast_iff_not_overwritten hdistinct hchoice).mpr hover, rfl⟩, ?_⟩
        exact List.mem_append_right _ hmsg

end Kept

/--
A pass that returns loses no message exactly if no segment whose candidate is
chosen again has a message that is nowhere else.
-/
theorem losesNoMessage_iff {pipeline : CompactionPipeline} {t : Tables}
    {segments : List TaggedSegment} (compactRows : List CanonicalTurnRow)
    (hkeyed : (t.segments.map (·.ref)).Nodup)
    (hnew : NewSegments t segments) (hcarries : pipeline.CarriesMessages)
    {n : Nat} {written : List SegmentWrite} {c : Conn Tables}
    (hrun : (pipeline.compactAndStore segments compactRows).run .quiet
      (.idle t n) = (.ok written, c)) :
    LosesNoMessage t c.durable segments ↔
      pipeline.OverwritesNothing t segments compactRows := by
  have hafter := hasMessage_after_iff hkeyed hnew hcarries hrun
  constructor
  · rintro ⟨-, hsegments⟩ seg hover msg hmsg
    obtain ⟨choice, hchoice, rfl⟩ := List.mem_map.mp hover.mem
    exact (hafter msg).mp
      (hsegments _ (mem_choices_segment hchoice).1 msg hmsg)
  · intro h
    refine ⟨fun msg hstored => (hafter msg).mpr (.inl hstored),
      fun seg hseg msg hmsg => (hafter msg).mpr ?_⟩
    by_cases hover : Overwritten (pipeline.mergeChoices t
        (pipeline.attributeRows compactRows 0 segments)) seg
    · exact h seg hover msg hmsg
    · exact .inr ⟨seg, hseg, hover, hmsg⟩

/-- The segments of the rows are new if the generated identifiers are. -/
theorem newSegments_segmentRows {pipeline : CompactionPipeline} {t : Tables}
    (hinjective : Function.Injective pipeline.supply.uuid)
    (hfresh : ∀ k, ∀ segment ∈ t.segments, segment.ref ≠ pipeline.supply.uuid k)
    (rows : List CanonicalTurnRow) :
    NewSegments t (pipeline.segmentRows rows) := by
  have hids : (pipeline.segmentRows rows).map (·.id) =
      (pipeline.library rows).mapIdx fun k _ => pipeline.supply.uuid k := by
    have h := congrArg (List.map (·.id)) (untagged_reassignStubSegments
      pipeline.closerToPrevious ((pipeline.library rows).mapIdx
        (pipeline.segmenter.buildSegment pipeline.supply)))
    rw [List.map_map, List.map_map, map_mapIdx] at h
    exact h
  refine ⟨fun seg hseg => ?_, ?_, fun seg hseg segment hsegment heq => ?_⟩
  · obtain ⟨k, hk, rfl⟩ := List.mem_iff_getElem.mp hseg
    have hbuilt := builtFrom_segmentRows pipeline rows
    have hk' : k < (pipeline.library rows).length := by
      rwa [hbuilt.length_eq]
    exact ((List.forall₂_iff_get.mp hbuilt).2 k hk' hk).mergeRef
  · rw [hids, List.nodup_iff_injective_get]
    intro i j h
    simp only [List.get_eq_getElem, List.getElem_mapIdx] at h
    exact Fin.ext (hinjective h)
  · have hmem : seg.id ∈ (pipeline.segmentRows rows).map (·.id) :=
      List.mem_map_of_mem hseg
    rw [hids] at hmem
    obtain ⟨k, hk, hid⟩ := List.mem_mapIdx.mp hmem
    exact hfresh k segment hsegment (heq.trans hid.symm)

/-- A store with one segment on food. -/
def oneStored : Tables :=
  { segments := [
      { ref := "r", conversationId := "chat", tags := ["food"],
        messages := [⟨"user", "old"⟩] }] }

/-- Every segment is related to every stored one with a tag in common. -/
def mergingPipeline : CompactionPipeline :=
  { twoTopics with
    mergeLookback := 5
    computeRelatedness := fun _ _ => 1 }

def foodSegment (id text : String) : TaggedSegment where
  id := id
  primaryTag := "food"
  tags := ["food"]
  messages := [{ role := "user", content := text }]
  tokenCount := 1
  startTimestamp := ""
  endTimestamp := ""
  turnCount := 1

theorem carriesMessages_mergingPipeline : mergingPipeline.CarriesMessages := by
  intro prepared
  rw [mergingPipeline, twoTopics, List.forall₂_map_right_iff,
    List.forall₂_same]
  exact fun _ _ => ⟨rfl, rfl⟩

/-- One segment, merged into the stored one. -/
theorem losesNoMessage_iff_oneSegment :
    ∃ c : Conn Tables, LosesNoMessage oneStored c.durable
        [foodSegment "s0" "new"] ↔
      mergingPipeline.OverwritesNothing oneStored [foodSegment "s0" "new"]
        [] := by
  have hrun : ((mergingPipeline.compactAndStore [foodSegment "s0" "new"]
      []).run .quiet (.idle oneStored 0)).1.toBool = true := by
    decide +kernel
  generalize hresult : (mergingPipeline.compactAndStore
    [foodSegment "s0" "new"] []).run .quiet (.idle oneStored 0) = result
    at hrun
  obtain ⟨outcome | written, c⟩ := result
  · cases hrun
  · exact ⟨c, losesNoMessage_iff [] (by decide)
      ⟨by decide, by decide, by decide⟩ carriesMessages_mergingPipeline
      hresult⟩

/-- Two segments on food choose the stored one; the first one is overwritten. -/
theorem first_merge_overwritten :
    ∃ written c, (mergingPipeline.compactAndStore
        [foodSegment "s0" "first", foodSegment "s1" "second"] []).run .quiet
        (.idle oneStored 0) = (.ok written, c) ∧
      ¬ LosesNoMessage oneStored c.durable
        [foodSegment "s0" "first", foodSegment "s1" "second"] := by
  have hrun : (((mergingPipeline.compactAndStore
      [foodSegment "s0" "first", foodSegment "s1" "second"] []).run .quiet
      (.idle oneStored 0)).1.toBool,
    ((mergingPipeline.compactAndStore
      [foodSegment "s0" "first", foodSegment "s1" "second"] []).run .quiet
      (.idle oneStored 0)).2.durable.contents) =
      (true, [("r", [⟨"user", "old"⟩, ⟨"user", "second"⟩])]) := by
    decide +kernel
  generalize (mergingPipeline.compactAndStore
    [foodSegment "s0" "first", foodSegment "s1" "second"] []).run .quiet
    (.idle oneStored 0) = result at hrun ⊢
  obtain ⟨outcome | written, c⟩ := result
  · cases hrun
  · refine ⟨written, c, rfl, fun h => ?_⟩
    have hlost := h.2 (foodSegment "s0" "first") (by simp)
      ⟨"user", "first"⟩ (by decide)
    rw [hasMessage_iff_held, (Prod.mk.inj hrun).2] at hlost
    revert hlost
    simp [Held]

end VirtualContext
