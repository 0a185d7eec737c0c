import Mathlib.Algebra.Order.Ring.Unbundled.Rat
import VirtualContext.Core.CanonicalTurns
import VirtualContext.Library.Flatten
import VirtualContext.Library.Spans
import VirtualContext.Library.Words
import VirtualContext.Storage.SummaryQueries

/-!
# Merging the excerpts of a segment

Results of a search that belong to one segment are merged: their excerpts are located
in the text of the segment, and the union of their spans is what the merged result
shows.  Where nothing can be located only the first result is kept.
-/

namespace VirtualContext

open VirtualContext.Library

/-- A passage found by a search. -/
structure QuoteResult where
  text : List Char
  tag : String
  segmentRef : String
  tags : List String := []
  score : ℚ := 0
  matchType : String := "fts"
  similarity : ℚ := 0
  sessionDate : String := ""
  sourceScope : String := "segment"
  turnNumber : Option Int := none
  matchedSide : String := ""
  deriving DecidableEq, Repr

/-! ## Locating an excerpt -/

/-- `text.replace(part, "")` -/
def removeText (part text : List Char) : List Char := (splitSeparator part text).flatten

def ellipsis : List Char := ['.', '.', '.']

/-- The excerpt without markers, ellipses and blanks around it. -/
def cleanExcerpt (excerpt : List Char) : List Char :=
  let clean := removeText ['<', '<', '<'] (removeText ['>', '>', '>'] excerpt)
  let clean := if ellipsis <+: clean then clean.drop 3 else clean
  let clean := if ellipsis <:+ clean then clean.take (clean.length - 3) else clean
  pyStripChars clean

section

variable (lower : List Char → List Char)

/-- `_locate_excerpt` -/
def locateExcerpt (fullText excerpt : List Char) : Option Span :=
  let clean := cleanExcerpt excerpt
  if clean = [] then none
  else
    match findPart clean fullText with
    | some i => some (i, i + clean.length)
    | none =>
        (findPart (lower clean) (lower fullText)).map fun i => (i, i + clean.length)

/-! ## Merging -/

/-- A part of the text, with ellipses where it is cut. -/
def partText (fullText : List Char) (span : Span) : List Char :=
  (if 0 < span.1 then ellipsis else []) ++ spanText fullText span ++
    (if span.2 < fullText.length then ellipsis else [])

def partSeparator : List Char := ['\n', '-', '-', '-', '\n']

def locatedSpans (fullText : List Char) (group : List QuoteResult) : List Span :=
  group.filterMap fun result => locateExcerpt lower fullText result.text

/-- The merged result, with the tags of all and the best similarity. -/
def mergedResult (ref : String) (fullText : List Char) (best : QuoteResult)
    (group : List QuoteResult) : QuoteResult where
  text := partSeparator.intercalate
    ((unionSpans (locatedSpans lower fullText group)).map (partText fullText))
  tag := best.tag
  segmentRef := ref
  tags := appendMissing [] (group.flatMap (·.tags))
  matchType := best.matchType
  similarity := (group.map (·.similarity)).foldl max best.similarity
  sessionDate := best.sessionDate

variable (t : Tables) (scope : Option ConversationId)

/-- The text of a segment, if it is stored and not empty. -/
def segmentText (ref : String) : Option (List Char) :=
  ((t.getSegment ref scope).map (·.fullText.toList)).filter (· ≠ [])

/-- The results that take the place of those of one segment. -/
def mergeExcerpts (entry : String × List QuoteResult) : List QuoteResult :=
  match entry.2 with
  | [] => []
  | [only] => [only]
  | first :: second :: rest =>
      let group := first :: second :: rest
      match segmentText t scope entry.1 with
      | none => [first]
      | some fullText =>
          if locatedSpans lower fullText group = [] then [first]
          else
            mergedResult lower entry.1 fullText first group ::
              group.filter fun result => (locateExcerpt lower fullText result.text).isNone

/-- `_merge_segment_excerpts` -/
def mergeSegmentExcerpts (results : List QuoteResult) : List QuoteResult :=
  (Dictionary.ofPairs (results.map fun result => (result.segmentRef, result))).flatMap
    (mergeExcerpts lower t scope)

end

/-! ## What is shown -/

def resultsOf (results : List QuoteResult) (ref : String) : List QuoteResult :=
  results.filter (·.segmentRef = ref)

section

variable (lower : List Char → List Char)

/-- Lower-casing leaves every character in its place. -/
def KeepsPlaces (fullText clean : List Char) : Prop :=
  (lower clean).length = clean.length ∧
    ∀ span, lower (spanText fullText span) = spanText (lower fullText) span

/-- A piece is the excerpt but for its decorations, or also but for the case of its
letters if the segment has them in another case. -/
def IsExcerpt (fullText excerpt piece : List Char) : Prop :=
  piece = cleanExcerpt excerpt ∨ ¬ cleanExcerpt excerpt <:+: fullText ∧
    (KeepsPlaces lower fullText (cleanExcerpt excerpt) →
      lower piece = lower (cleanExcerpt excerpt))

def HoldsExcerpt (fullText excerpt text : List Char) : Prop :=
  ∃ piece, piece <:+: text ∧ IsExcerpt lower fullText excerpt piece

/-- Parts in order that do not touch and hold exactly what the spans hold. -/
def ShowsUnion (fullText : List Char) (spans : List Span) (text : List Char) : Prop :=
  ∃ parts : List Span, text = partSeparator.intercalate (parts.map (partText fullText)) ∧
    parts.Pairwise (fun part next => part.2 < next.1) ∧
    ∀ i, (∃ part ∈ parts, InSpan i part) ↔ ∃ span ∈ spans, InSpan i span

/-- Several results belong to the segment, and some of them are found in its text. -/
def MergesIn (t : Tables) (scope : Option ConversationId) (results : List QuoteResult)
    (ref : String) (fullText : List Char) : Prop :=
  2 ≤ (resultsOf results ref).length ∧ segmentText t scope ref = some fullText ∧
    locatedSpans lower fullText (resultsOf results ref) ≠ []

variable {lower} {t : Tables} {scope : Option ConversationId} {results : List QuoteResult}

theorem mem_mergeSegmentExcerpts {out : QuoteResult} :
    out ∈ mergeSegmentExcerpts lower t scope results ↔
      ∃ ref, out ∈ mergeExcerpts lower t scope (ref, resultsOf results ref) := by
  have hgroup (ref : String) :
      ((results.map fun result => (result.segmentRef, result)).filter (·.1 = ref)).map
        Prod.snd = resultsOf results ref := by
    rw [List.filter_map, List.map_map]
    exact List.map_id _
  rw [mergeSegmentExcerpts, List.mem_flatMap]
  constructor
  · rintro ⟨entry, hentry, hout⟩
    obtain ⟨hresults, -⟩ := Dictionary.mem_ofPairs.mp hentry
    rw [hgroup] at hresults
    exact ⟨entry.1, hresults ▸ hout⟩
  · rintro ⟨ref, hout⟩
    refine ⟨(ref, resultsOf results ref), Dictionary.mem_ofPairs.mpr
      ⟨(hgroup ref).symm, fun hnil => ?_⟩, hout⟩
    rw [hnil] at hout
    cases hout

/-- A group in which something is located. -/
theorem mergeExcerpts_of_mergesIn {ref : String} {fullText : List Char}
    (h : MergesIn lower t scope results ref fullText) :
    ∃ first ∈ resultsOf results ref,
      mergeExcerpts lower t scope (ref, resultsOf results ref) =
        mergedResult lower ref fullText first (resultsOf results ref) ::
          (resultsOf results ref).filter
            fun result => (locateExcerpt lower fullText result.text).isNone := by
  obtain ⟨hmany, htext, hlocated⟩ := h
  cases hgroup : resultsOf results ref with
  | nil => simp [hgroup] at hmany
  | cons first rest =>
      cases rest with
      | nil => simp [hgroup] at hmany
      | cons second rest =>
          rw [hgroup] at hlocated
          refine ⟨first, List.mem_cons_self, ?_⟩
          rw [mergeExcerpts]
          dsimp only
          rw [htext]
          exact if_neg hlocated

/-- In every other group the first result is all that is kept. -/
theorem mergeExcerpts_of_not {ref : String}
    (h : ¬ ∃ fullText, MergesIn lower t scope results ref fullText) :
    mergeExcerpts lower t scope (ref, resultsOf results ref) = (resultsOf results ref).head?.toList := by
  cases hgroup : resultsOf results ref with
  | nil => rfl
  | cons first rest =>
      cases rest with
      | nil => rfl
      | cons second rest =>
          rw [mergeExcerpts]
          dsimp only
          cases htext : segmentText t scope ref with
          | none => rfl
          | some fullText =>
              refine if_pos ?_
              by_contra hlocated
              refine h ⟨fullText, ?_, htext, ?_⟩
              · simp [hgroup]
              · rwa [hgroup]

theorem showsUnion_mergedResult (ref : String) (fullText : List Char) (first : QuoteResult)
    (group : List QuoteResult) :
    ShowsUnion fullText (locatedSpans lower fullText group)
      (mergedResult lower ref fullText first group).text :=
  ⟨unionSpans (locatedSpans lower fullText group), rfl, (unionSpans_spec _).1,
    fun _ => inSpan_unionSpans_iff⟩

/-- A located excerpt is at its span. -/
theorem located_text {fullText excerpt : List Char} {span : Span}
    (h : locateExcerpt lower fullText excerpt = some span) :
    IsExcerpt lower fullText excerpt (spanText fullText span) := by
  unfold locateExcerpt at h
  dsimp only at h
  split_ifs at h
  cases hexact : findPart (cleanExcerpt excerpt) fullText with
  | some i =>
      rw [hexact] at h
      obtain rfl := Option.some.inj h
      exact .inl (spanText_of_findPart hexact)
  | none =>
      rw [hexact] at h
      obtain ⟨i, hi, rfl⟩ := Option.map_eq_some_iff.mp h
      refine .inr ⟨not_infix_of_findPart hexact, fun hplaces => ?_⟩
      rw [hplaces.2, ← hplaces.1]
      exact spanText_of_findPart hi

theorem holdsExcerpt_mergedResult {ref : String} {fullText : List Char} {first result : QuoteResult}
    {group : List QuoteResult} (hresult : result ∈ group) {span : Span}
    (h : locateExcerpt lower fullText result.text = some span) :
    HoldsExcerpt lower fullText result.text (mergedResult lower ref fullText first group).text := by
  have hspan : span ∈ locatedSpans lower fullText group :=
    List.mem_filterMap.mpr ⟨result, hresult, h⟩
  obtain ⟨joined, hjoined, hstart, hstop⟩ := (unionSpans_spec _).2.1 span hspan
  refine ⟨spanText fullText span, ?_, located_text h⟩
  have hpart : spanText fullText joined <:+: partText fullText joined :=
    ⟨_, _, rfl⟩
  have hmerged : partText fullText joined <:+:
      (mergedResult lower ref fullText first group).text :=
    infix_intercalate (List.mem_map_of_mem hjoined)
  exact (infix_spanText fullText hstart hstop).trans (hpart.trans hmerged)

end

theorem merge_segment_excerpts (lower : List Char → List Char) (t : Tables)
    (scope : Option ConversationId) (results : List QuoteResult) :
    let merged := mergeSegmentExcerpts lower t scope results
    (∀ out ∈ merged, out ∈ results ∨ ∃ fullText,
        MergesIn lower t scope results out.segmentRef fullText ∧
          ShowsUnion fullText
            (locatedSpans lower fullText (resultsOf results out.segmentRef)) out.text) ∧
      ∀ result ∈ results,
        (∀ fullText, MergesIn lower t scope results result.segmentRef fullText →
          result ∈ merged ∨ ∃ out ∈ merged, out.segmentRef = result.segmentRef ∧
            HoldsExcerpt lower fullText result.text out.text) ∧
        ((¬ ∃ fullText, MergesIn lower t scope results result.segmentRef fullText) →
          ∀ first ∈ (resultsOf results result.segmentRef).head?, first ∈ merged) := by
  have hof {result : QuoteResult} {ref : String} (h : result ∈ resultsOf results ref) :
      result ∈ results ∧ result.segmentRef = ref :=
    ⟨(List.mem_filter.mp h).1, of_decide_eq_true (List.mem_filter.mp h).2⟩
  refine ⟨fun out hout => ?_, fun result hresult => ⟨fun fullText hmerges => ?_,
    fun hnone first hfirst => ?_⟩⟩
  · obtain ⟨ref, hout⟩ := mem_mergeSegmentExcerpts.mp hout
    by_cases hmerges : ∃ fullText, MergesIn lower t scope results ref fullText
    · obtain ⟨fullText, hmerges⟩ := hmerges
      obtain ⟨first, hfirst, hgroup⟩ := mergeExcerpts_of_mergesIn hmerges
      rw [hgroup] at hout
      rcases List.mem_cons.mp hout with rfl | hout
      · exact .inr ⟨fullText, hmerges, showsUnion_mergedResult ref fullText first _⟩
      · exact .inl (hof (List.mem_filter.mp hout).1).1
    · rw [mergeExcerpts_of_not hmerges] at hout
      exact .inl (hof (List.mem_of_mem_head? (Option.mem_toList.mp hout))).1
  · obtain ⟨first, hfirst, hgroup⟩ := mergeExcerpts_of_mergesIn hmerges
    have hmem : result ∈ resultsOf results result.segmentRef :=
      List.mem_filter.mpr ⟨hresult, decide_eq_true rfl⟩
    cases hlocated : locateExcerpt lower fullText result.text with
    | none =>
        refine .inl (mem_mergeSegmentExcerpts.mpr ⟨result.segmentRef, ?_⟩)
        rw [hgroup]
        refine List.mem_cons_of_mem _ (List.mem_filter.mpr ⟨hmem, ?_⟩)
        rw [hlocated]
        rfl
    | some span =>
        refine .inr ⟨mergedResult lower result.segmentRef fullText first
          (resultsOf results result.segmentRef),
          mem_mergeSegmentExcerpts.mpr ⟨result.segmentRef, ?_⟩, rfl,
          holdsExcerpt_mergedResult hmem hlocated⟩
        rw [hgroup]
        exact List.mem_cons_self
  · refine mem_mergeSegmentExcerpts.mpr ⟨result.segmentRef, ?_⟩
    rw [mergeExcerpts_of_not hnone]
    exact Option.mem_toList.mpr hfirst

/-- Of two results without a segment the second one is lost. -/
theorem unlocated_results_lost :
    mergeSegmentExcerpts (List.map Char.toLower) {} none
        [{ text := ['y', 'e', 's'], tag := "", segmentRef := "" },
          { text := ['n', 'o'], tag := "", segmentRef := "" }] =
      [{ text := ['y', 'e', 's'], tag := "", segmentRef := "" }] := by
  decide +kernel

end VirtualContext
