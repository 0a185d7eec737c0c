import Mathlib.Algebra.Ring.Int.Defs
import VirtualContext.Proxy.ContextCapacity
import VirtualContext.Proxy.FillPass

/-!
# What the fill pass keeps

Every section that the fill pass counts is in the body that it returns, and so
is the context that was injected before, exactly if the body keeps as many
pieces of context as these are.
-/

namespace VirtualContext

variable {ρ : Type}

/-! ## Sections are injected one after the other -/

section

variable {β : Type} {inject : β → Text → β}

/-- The body after the sections were injected into it. -/
structure FillState.Filled (inject : β → Text → β) (body : β) (st : FillState β) :
    Prop where
  body_eq : st.body = st.sections.foldl inject body
  ne_nil : ∀ text ∈ st.sections, text ≠ []

theorem FillState.Filled.append {body : β} {st : FillState β}
    (h : st.Filled inject body) (budget : Int) {text : Text} (htext : text ≠ [])
    (refs tags : List String) :
    (st.append inject budget text refs tags).Filled inject body := by
  simp only [FillState.append]
  split
  · exact h
  · refine ⟨?_, ?_⟩
    · simp only [List.foldl_append, List.foldl_cons, List.foldl_nil, ← h.body_eq]
    · intro piece hpiece
      rcases List.mem_append.mp hpiece with hold | hnew
      · exact h.ne_nil piece hold
      · rw [List.mem_singleton.mp hnew]
        exact htext

theorem formatTagSection_ne_nil (tag : String) (s : StoredSummary) :
    formatTagSection tag s ≠ [] := by
  have hback : sectionBack ≠ [] := by decide
  intro h
  exact hback (List.append_eq_nil_iff.mp h).2

theorem formatBreadthSection_ne_nil (tag summary : Text) :
    formatBreadthSection tag summary ≠ [] := by
  have hback : sectionBack ≠ [] := by decide
  intro h
  exact hback (List.append_eq_nil_iff.mp h).2

theorem FillState.Filled.addOverflow {body : β} {st : FillState β}
    (h : st.Filled inject body) (budget : Int) (s : StoredSummary) :
    (st.addOverflow inject budget s).Filled inject body := by
  rw [FillState.addOverflow]
  split
  · exact h
  · split
    · exact h
    · exact h.append budget (formatTagSection_ne_nil _ _) _ _

theorem FillState.Filled.addBreadth {body : β} {st : FillState β}
    (h : st.Filled inject body) (budget : Int) (ts : TagSummary) :
    (st.addBreadth inject budget ts).Filled inject body := by
  rw [FillState.addBreadth]
  split
  · exact h
  · split
    · exact h
    · exact h.append budget (formatBreadthSection_ne_nil _ _) _ _

theorem FillState.Filled.foldl {γ : Type} {step : FillState β → γ → FillState β}
    {body : β} (hstep : ∀ st c, st.Filled inject body → (step st c).Filled inject body)
    (list : List γ) {st : FillState β} (h : st.Filled inject body) :
    (list.foldl step st).Filled inject body := by
  induction list generalizing st with
  | nil => exact h
  | cons c list ih => exact ih (hstep st c h)

variable (inject) in
theorem fillSummaries_filled (req : FillRequest) (body : β) :
    (fillSummaries inject req body).Filled inject body := by
  have hoverflow : ∀ (st : FillState β) (s : StoredSummary), st.Filled inject body →
      (st.addOverflow inject req.summaryBudget s).Filled inject body :=
    fun st s h => h.addOverflow req.summaryBudget s
  have hbreadth : ∀ (st : FillState β) (ts : TagSummary), st.Filled inject body →
      (st.addBreadth inject req.summaryBudget ts).Filled inject body :=
    fun st ts h => h.addBreadth req.summaryBudget ts
  have hfirst : FillState.Filled inject body
      (((req.assembled.map (·.overflowSummaries)).getD []).foldl
        (FillState.addOverflow inject req.summaryBudget)
        { body
          presentedRefs := (req.assembled.map (·.presentedSegmentRefs)).getD []
          coveredTags := (req.assembled.map (·.presentedTags)).getD [] }) :=
    FillState.Filled.foldl hoverflow _ ⟨rfl, by simp⟩
  simp only [fillSummaries]
  split
  · split
    · exact FillState.Filled.foldl hbreadth _ hfirst
    · exact hfirst
  · exact hfirst

/-! ## Requests that fill in given tags -/

/-- A breadth section of the tag, without a summary. -/
def tagSection (tag : String) : Text := formatBreadthSection tag.toList []

def sectionTokens (tags : List String) : Int :=
  (tags.map fun tag => (((tagSection tag).length : Int) / 4)).sum

theorem sectionTokens_nonneg (tags : List String) : 0 ≤ sectionTokens tags := by
  induction tags with
  | nil => exact Int.le_refl 0
  | cons tag tags ih =>
      simp only [sectionTokens, List.map_cons, List.sum_cons] at ih ⊢
      omega

/-- A request with tokens enough for a section of each tag. -/
def tagRequest (tags : List String) : FillRequest where
  outboundTokens := 0
  targetTokens := sectionTokens tags + 1
  tagSummaries := some (tags.map fun tag => { tag })
  summaryRatio := 1

theorem summaryBudget_tagRequest (tags : List String) :
    (tagRequest tags).summaryBudget = sectionTokens tags + 1 := by
  simp only [FillRequest.summaryBudget, FillRequest.headroom, tagRequest, Int.sub_zero,
    Rat.mul_one, Rat.num_intCast, Rat.den_intCast]
  simp

theorem newestFirst_tags (tags : List String) :
    newestFirst (tags.map fun tag => ({ tag } : TagSummary)) =
      tags.map fun tag => { tag } := by
  refine List.mergeSort_of_pairwise ?_
  rw [List.pairwise_map]
  exact List.pairwise_of_forall (fun _ _ => by simp)

/-- Tags that are new and fit are all filled in. -/
theorem foldl_addBreadth_sections {budget : Int} {tags : List String} (hnodup : tags.Nodup)
    {st : FillState β} (hnew : ∀ tag ∈ tags, tag ∉ st.coveredTags)
    (hbudget : st.tokensUsed + sectionTokens tags ≤ budget) :
    ((tags.map fun tag => ({ tag } : TagSummary)).foldl
      (FillState.addBreadth inject budget) st).sections =
        st.sections ++ tags.map tagSection := by
  induction tags generalizing st with
  | nil => simp
  | cons tag tags ih =>
      obtain ⟨htag, hnodup⟩ := List.nodup_cons.mp hnodup
      have htokens : sectionTokens (tag :: tags) =
          ((tagSection tag).length : Int) / 4 + sectionTokens tags := by
        simp [sectionTokens]
      have hrest := sectionTokens_nonneg tags
      have hfits : ¬ st.tokensUsed + ((tagSection tag).length : Int) / 4 > budget := by
        omega
      have hstep : st.addBreadth inject budget { tag } =
          { body := inject st.body (tagSection tag)
            tokensUsed := st.tokensUsed + ((tagSection tag).length : Int) / 4
            presentedRefs := st.presentedRefs ++ []
            coveredTags := st.coveredTags ++ [tag]
            sections := st.sections ++ [tagSection tag] } := by
        rw [FillState.addBreadth, if_neg (hnew tag List.mem_cons_self),
          if_neg (fun h => h.1 rfl)]
        exact if_neg hfits
      rw [List.map_cons, List.foldl_cons, hstep, ih hnodup ?_ ?_]
      · simp
      · intro t ht hmem
        rcases List.mem_append.mp hmem with hold | hsame
        · exact hnew t (List.mem_cons_of_mem _ ht) hold
        · rw [List.mem_singleton.mp hsame] at ht
          exact htag ht
      · simp only
        omega

variable (inject) in
theorem sections_tagRequest {tags : List String} (hnodup : tags.Nodup) (body : β) :
    (fillSummaries inject (tagRequest tags) body).sections = tags.map tagSection := by
  have hnonneg := sectionTokens_nonneg tags
  have hfirst : (0 : Int) < sectionTokens tags + 1 := by omega
  simp only [fillSummaries, summaryBudget_tagRequest]
  simp only [tagRequest, Option.map_none, Option.getD_none, List.foldl_nil, if_pos hfirst,
    newestFirst_tags]
  rw [foldl_addBreadth_sections hnodup (by simp) (by simp only; omega)]
  rfl

end

/-! ## Inserted turns -/

theorem mem_insertAfterPrefix {μ : Type} (roleOf : μ → Option String)
    {messages : List μ} (items : List μ) {msg : μ} (h : msg ∈ messages) :
    msg ∈ insertAfterPrefix roleOf messages items := by
  rw [← List.take_append_drop (prefixLength roleOf messages) messages] at h
  rcases List.mem_append.mp h with hfront | hback
  · exact List.mem_append_left _ (List.mem_append_left _ hfront)
  · exact List.mem_append_right _ hback

theorem ChatBody.allTexts_insert {messages : Option (List (ChatMessage ρ))}
    {rest : Fields ρ} (items : List (ChatMessage ρ)) :
    (⟨messages, rest⟩ : ChatBody ρ).allTexts ⊆
      (⟨messages.map fun messages =>
        insertAfterPrefix ChatMessage.role messages items, rest⟩ : ChatBody ρ).allTexts := by
  intro text htext
  cases messages with
  | none => exact htext
  | some messages =>
      obtain ⟨msg, hmsg, hmem⟩ := List.mem_flatMap.mp htext
      exact List.mem_flatMap.mpr ⟨msg, mem_insertAfterPrefix _ items hmsg, hmem⟩

namespace ApiFormat

/-- Inserting a turn takes no text away. -/
theorem allTexts_insertTurn (fmt : ApiFormat) (body : fmt.Body ρ)
    (items : List (fmt.Item ρ)) :
    fmt.allTexts body ⊆ fmt.allTexts (fmt.insertTurn body items) := by
  cases fmt with
  | anthropic => exact ChatBody.allTexts_insert items
  | openai => exact ChatBody.allTexts_insert items
  | gemini =>
      obtain ⟨contents, instruction, rest⟩ := body
      intro text htext
      rcases List.mem_append.mp htext with hcontext | hmessages
      · exact List.mem_append_left _ hcontext
      · refine List.mem_append_right _ ?_
        cases contents with
        | none => exact hmessages
        | some contents =>
            obtain ⟨msg, hmsg, hmem⟩ := List.mem_flatMap.mp hmessages
            exact List.mem_flatMap.mpr ⟨msg, mem_insertAfterPrefix _ items hmsg, hmem⟩
  | openaiResponses =>
      obtain ⟨input, instructions, rest⟩ := body
      intro text htext
      rcases List.mem_append.mp htext with hcontext | hinput
      · refine List.mem_append_left _ ?_
        match input with
        | none => exact hcontext
        | some (.text content) => exact hcontext
        | some (.items messages) => exact hcontext
      · refine List.mem_append_right _ ?_
        match input with
        | none => exact hinput
        | some (.text content) => exact hinput
        | some (.items messages) =>
            obtain ⟨msg, hmsg, hmem⟩ := List.mem_flatMap.mp hinput
            exact List.mem_flatMap.mpr ⟨msg, mem_insertAfterPrefix _ items hmsg, hmem⟩

theorem holds_foldl_insertTurn (fmt : ApiFormat) (turns : List (List (fmt.Item ρ)))
    {body : fmt.Body ρ} {text : Text} (h : fmt.Holds body text) :
    fmt.Holds (turns.foldl fmt.insertTurn body) text := by
  induction turns generalizing body with
  | nil => exact h
  | cons items turns ih =>
      obtain ⟨whole, hwhole, hinfix⟩ := h
      exact ih ⟨whole, fmt.allTexts_insertTurn body items hwhole, hinfix⟩

/-! ## The fill pass as a run of injections -/

theorem fillPass_holds (breakpoint : ρ) (fmt : ApiFormat)
    (restoredTurns : fmt.Body ρ → Int → List (List (fmt.Item ρ))) (body : fmt.Body ρ)
    (req : FillRequest) :
    let result := fillPass breakpoint fmt restoredTurns body req
    (∀ text ∈ result.sections, text ≠ []) ∧
      ∀ text, fmt.Holds (result.sections.foldl (fmt.injectContext breakpoint) body) text →
        fmt.Holds result.body text := by
  simp only [fillPass]
  split
  · exact ⟨by simp, fun text h => h⟩
  · have hfilled := fillSummaries_filled (fmt.injectContext breakpoint) req body
    refine ⟨hfilled.ne_nil, fun text h => ?_⟩
    rw [← hfilled.body_eq] at h
    exact fmt.holds_foldl_insertTurn _ h

/-- What the fill pass does for a request of tags, if it restores no turns. -/
theorem fillPass_tagRequest (breakpoint : ρ) (fmt : ApiFormat) (body : fmt.Body ρ)
    {tags : List String} (hnodup : tags.Nodup) :
    let result := fillPass breakpoint fmt (fun _ _ => []) body (tagRequest tags)
    result.sections = tags.map tagSection ∧
      result.body = (tags.map tagSection).foldl (fmt.injectContext breakpoint) body := by
  have hfilled := fillSummaries_filled (fmt.injectContext breakpoint) (tagRequest tags)
    body
  have hsections := sections_tagRequest (fmt.injectContext breakpoint) hnodup body
  have hpositive : ¬ (tagRequest tags).headroom ≤ 0 := by
    have := sectionTokens_nonneg tags
    simp only [FillRequest.headroom, tagRequest]
    omega
  simp only [fillPass, if_neg hpositive, ite_self, List.foldl_nil]
  exact ⟨hsections, by rw [hfilled.body_eq, hsections]⟩

theorem keeps_zero (fmt : ApiFormat) (body : fmt.Body ρ) : fmt.Keeps body 0 := by
  cases fmt with
  | anthropic =>
      show AnthropicFormat.Keeps (AnthropicFormat.contextContent body) 0
      cases AnthropicFormat.contextContent body <;> trivial
  | openai =>
      show OpenAIFormat.Keeps (OpenAIFormat.contextContent body) 0
      cases OpenAIFormat.contextContent body with
      | text content => exact .inl rfl
      | elements elements => exact Nat.zero_le 1
      | other value => rfl
  | gemini => exact Nat.zero_le 1
  | openaiResponses => exact Nat.zero_le 1

/-- Tags of different lengths, in which no zero stands. -/
def plainTags (k : Nat) : List String :=
  (List.range k).map fun i => String.ofList (List.replicate i 'x')

theorem plainTags_nodup (k : Nat) : (plainTags k).Nodup := by
  refine List.Nodup.map ?_ List.nodup_range
  intro i j h
  have hlists := congrArg (fun s : String => s.toList.length) h
  simpa using hlists

theorem zerosOf_plainTags (k : Nat) : zerosOf ((plainTags k).map tagSection) = 0 := by
  have hzero : ∀ tag ∈ plainTags k, zeros (tagSection tag) = 0 := by
    intro tag htag
    obtain ⟨i, -, rfl⟩ := List.mem_map.mp htag
    have hfront : zeros tagsFront = 0 := by decide
    have hmiddle : zeros breadthAttribute = 0 := by decide
    have hback : zeros sectionBack = 0 := by decide
    have hrow : zeros (List.replicate i 'x') = 0 := by simp [zeros, List.count_replicate]
    have hempty : zeros [] = 0 := rfl
    simp only [tagSection, formatBreadthSection, zeros_append, String.toList_ofList]
    omega
  have hall : ∀ n ∈ ((plainTags k).map tagSection).map zeros, n = 0 := by
    simpa using hzero
  exact List.sum_eq_zero_iff_forall_eq_nat.mpr hall

theorem tagSection_ne_nil (tag : String) : tagSection tag ≠ [] :=
  formatBreadthSection_ne_nil _ _

/-- The section of zeros is lost from a body that keeps too few pieces. -/
theorem not_holds_zeroSection (breakpoint : ρ) (fmt : ApiFormat) (body : fmt.Body ρ)
    {k : Nat} (h : ¬ fmt.Keeps body (k + 1)) :
    ¬ fmt.Holds ((zeroSection (zerosOf (fmt.allTexts body) + 1) ::
      (plainTags k).map tagSection).foldl (fmt.injectContext breakpoint) body)
        (zeroSection (zerosOf (fmt.allTexts body) + 1)) := by
  have htexts : ∀ text ∈ (plainTags k).map tagSection, text ≠ [] := by
    intro text htext
    obtain ⟨tag, -, rfl⟩ := List.mem_map.mp htext
    exact tagSection_ne_nil tag
  have hlength : ((plainTags k).map tagSection).length = k := by simp [plainTags]
  have hlost := fmt.zerosOf_lost breakpoint body htexts
    (zerosOf (fmt.allTexts body) + 1) (by rwa [hlength])
  rw [zerosOf_plainTags] at hlost
  exact not_infix_of_zeros (by omega)

/-- The tag whose section is a row of zeros. -/
def zeroTag (n : Nat) : String := String.ofList (List.replicate n '0')

theorem tagSection_zeroTag (n : Nat) : tagSection (zeroTag n) = zeroSection n := by
  rw [tagSection, zeroTag, String.toList_ofList, zeroSection]

theorem zeroTag_notMem (n k : Nat) : zeroTag (n + 1) ∉ plainTags k := by
  intro hmem
  obtain ⟨i, -, htag⟩ := List.mem_map.mp hmem
  have hlists := congrArg String.toList htag
  simp only [zeroTag, String.toList_ofList] at hlists
  have hzero : '0' ∈ List.replicate i 'x' := by
    rw [hlists]
    exact List.mem_replicate.mpr ⟨by omega, rfl⟩
  exact absurd (List.eq_of_mem_replicate hzero) (by decide)

/-! ## The context of the returned body -/

/--
All sections that are counted, and the context that was injected before, are in
the returned body: for all texts, stores, budgets and restored turns, exactly if
the body from before keeps as many pieces.
-/
theorem fillPass_keeps_iff (breakpoint : ρ) (fmt : ApiFormat) (body : fmt.Body ρ)
    (injected : Bool) (k : Nat) :
    (∀ (context : Text) (restoredTurns : fmt.Body ρ → Int → List (List (fmt.Item ρ)))
        (req : FillRequest), context ≠ [] →
      let before := if injected then fmt.injectContext breakpoint body context else body
      let result := fillPass breakpoint fmt restoredTurns before req
      result.sections.length = k →
        (∀ text ∈ result.sections, fmt.Holds result.body text) ∧
          (injected = true → fmt.Holds result.body context)) ↔
      fmt.Keeps body (k + if injected then 1 else 0) := by
  constructor
  · intro h
    by_contra hkeeps
    cases injected with
    | true =>
        obtain ⟨hsections, hbody⟩ := fillPass_tagRequest breakpoint fmt
          (fmt.injectContext breakpoint body
            (zeroSection (zerosOf (fmt.allTexts body) + 1))) (plainTags_nodup k)
        have hlength : ((plainTags k).map tagSection).length = k := by simp [plainTags]
        have hholds := (h (zeroSection (zerosOf (fmt.allTexts body) + 1))
          (fun _ _ => []) (tagRequest (plainTags k)) (zeroSection_ne_nil _)
          ((congrArg List.length hsections).trans hlength)).2 rfl
        simp only [if_true] at hholds
        rw [hbody] at hholds
        exact not_holds_zeroSection breakpoint fmt body hkeeps hholds
    | false =>
        cases k with
        | zero => exact hkeeps (keeps_zero fmt body)
        | succ k =>
            have hnodup : (zeroTag (zerosOf (fmt.allTexts body) + 1) ::
                plainTags k).Nodup :=
              List.nodup_cons.mpr ⟨zeroTag_notMem _ k, plainTags_nodup k⟩
            obtain ⟨hsections, hbody⟩ := fillPass_tagRequest breakpoint fmt body hnodup
            rw [List.map_cons, tagSection_zeroTag] at hsections hbody
            have hlength : (zeroSection (zerosOf (fmt.allTexts body) + 1) ::
                (plainTags k).map tagSection).length = k + 1 := by simp [plainTags]
            have hholds := (h (zeroSection (zerosOf (fmt.allTexts body) + 1))
              (fun _ _ => []) (tagRequest (zeroTag (zerosOf (fmt.allTexts body) + 1) ::
                plainTags k)) (zeroSection_ne_nil _)
              ((congrArg List.length hsections).trans hlength)).1
            simp only [Bool.false_eq_true, if_false] at hholds
            rw [hsections, hbody] at hholds
            exact not_holds_zeroSection breakpoint fmt body hkeeps
              (hholds _ List.mem_cons_self)
  · intro hkeeps context restoredTurns req hcontext before result hlength
    obtain ⟨hne, hholds⟩ := fillPass_holds breakpoint fmt restoredTurns before req
    cases injected with
    | true =>
        have hall : ∀ text ∈ context :: result.sections, text ≠ [] :=
          List.forall_mem_cons.mpr ⟨hcontext, hne⟩
        have hpieces := fmt.holds_of_keeps breakpoint body hall
          (by rw [List.length_cons, hlength]; exact hkeeps)
        exact ⟨fun text htext => hholds text (hpieces text (List.mem_cons_of_mem _ htext)),
          fun _ => hholds context (hpieces context List.mem_cons_self)⟩
    | false =>
        have hpieces := fmt.holds_of_keeps breakpoint body hne
          (by rw [hlength]; exact hkeeps)
        exact ⟨fun text htext => hholds text (hpieces text htext),
          fun h => absurd h (by decide)⟩

/-- A request with instructions of its own, into which context was injected. -/
def instructedBody : ResponsesBody Unit :=
  OpenAIResponsesFormat.injectContext
    { input := some (.text "hi".toList)
      instructions := some (.text "Be brief.".toList) }
    (tagSection "old")

/-- Of three pieces of context the last one is left. -/
theorem fillPass_loses_sections :
    let result := fillPass () .openaiResponses (fun _ _ => []) instructedBody
      (tagRequest ["a", "b"])
    result.sections = [tagSection "a", tagSection "b"] ∧
      ¬ ApiFormat.openaiResponses.Holds result.body (tagSection "a") ∧
      ¬ ApiFormat.openaiResponses.Holds result.body (tagSection "old") := by
  have hnodup : ["a", "b"].Nodup := by decide
  obtain ⟨hsections, hbody⟩ :=
    fillPass_tagRequest () .openaiResponses instructedBody hnodup
  have hlost : ∀ whole ∈ (OpenAIResponsesFormat.injectContext
      (OpenAIResponsesFormat.injectContext instructedBody (tagSection "a"))
        (tagSection "b")).allTexts,
      ¬ tagSection "a" <:+: whole ∧ ¬ tagSection "old" <:+: whole := by
    decide +kernel
  refine ⟨hsections, ?_, ?_⟩
  · rintro ⟨whole, hwhole, hinfix⟩
    rw [hbody] at hwhole
    exact (hlost whole hwhole).1 hinfix
  · rintro ⟨whole, hwhole, hinfix⟩
    rw [hbody] at hwhole
    exact (hlost whole hwhole).2 hinfix

end ApiFormat

end VirtualContext
