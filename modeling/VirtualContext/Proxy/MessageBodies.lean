import Mathlib.Data.List.DropRight
import VirtualContext.Core.CanonicalTurns

/-!
# Request and response bodies

The bodies of the four payload formats, as far as context and conversation
markers are put into them.  A text is its list of characters, `none` is a
missing key (or `null` where the source reads it as one), and `rest` holds the
other fields of a dict.
-/

namespace VirtualContext

abbrev Text := List Char

abbrev Fields (ρ : Type) := List (String × ρ)

inductive ApiFormat where
  | anthropic
  | openai
  | gemini
  | openaiResponses
  deriving DecidableEq, Repr

variable {ρ : Type}

/-! ## Messages -/

/-- A dict in a content list. -/
structure Part (ρ : Type) where
  type : Option String := none
  text : Option Text := none
  rest : Fields ρ := []
  deriving DecidableEq, Repr

inductive Element (ρ : Type) where
  | part (part : Part ρ)
  | other (value : ρ)
  deriving DecidableEq, Repr

inductive Content (ρ : Type) where
  | text (text : Text)
  | elements (elements : List (Element ρ))
  | other (value : ρ)
  deriving DecidableEq, Repr

structure ChatMessage (ρ : Type) where
  role : Option String
  content : Option (Content ρ)
  rest : Fields ρ := []
  deriving DecidableEq, Repr

structure GeminiMessage (ρ : Type) where
  role : Option String
  parts : Option (List (Element ρ))
  rest : Fields ρ := []
  deriving DecidableEq, Repr

/-- An item of the Responses API. -/
inductive InputItem (ρ : Type) where
  | message (message : ChatMessage ρ)
  | other (value : ρ)
  deriving DecidableEq, Repr

/-! ## Requests -/

/-- A request to Anthropic or to OpenAI. -/
structure ChatBody (ρ : Type) where
  messages : Option (List (ChatMessage ρ))
  rest : Fields ρ := []
  deriving DecidableEq, Repr

/-- `system_instruction`, whose parts may be missing or no list. -/
structure GeminiInstruction (ρ : Type) where
  parts : Option (List (Element ρ))
  rest : Fields ρ := []
  deriving DecidableEq, Repr

structure GeminiBody (ρ : Type) where
  contents : Option (List (GeminiMessage ρ))
  systemInstruction : Option (GeminiInstruction ρ) := none
  rest : Fields ρ := []
  deriving DecidableEq, Repr

inductive ResponsesInput (ρ : Type) where
  | text (text : Text)
  | items (items : List (InputItem ρ))
  deriving DecidableEq, Repr

inductive Instructions (ρ : Type) where
  | text (text : Text)
  | other (value : ρ)
  deriving DecidableEq, Repr

structure ResponsesBody (ρ : Type) where
  input : Option (ResponsesInput ρ)
  instructions : Option (Instructions ρ) := none
  rest : Fields ρ := []
  deriving DecidableEq, Repr

/-! ## Responses -/

structure AnthropicResponse (ρ : Type) where
  content : Option (List (Element ρ))
  rest : Fields ρ := []
  deriving DecidableEq, Repr

/-- `choices[i].message`; the content is missing if only tools are called. -/
structure ChoiceMessage (ρ : Type) where
  content : Option Text
  rest : Fields ρ := []
  deriving DecidableEq, Repr

structure Choice (ρ : Type) where
  message : Option (ChoiceMessage ρ)
  rest : Fields ρ := []
  deriving DecidableEq, Repr

structure OpenAIResponse (ρ : Type) where
  choices : Option (List (Choice ρ))
  rest : Fields ρ := []
  deriving DecidableEq, Repr

structure Candidate (ρ : Type) where
  content : Option (GeminiMessage ρ)
  rest : Fields ρ := []
  deriving DecidableEq, Repr

structure GeminiResponse (ρ : Type) where
  candidates : Option (List (Candidate ρ))
  rest : Fields ρ := []
  deriving DecidableEq, Repr

structure ResponsesResponse (ρ : Type) where
  output : Option (List (InputItem ρ))
  rest : Fields ρ := []
  deriving DecidableEq, Repr

/-! ## Bodies of a format -/

namespace ApiFormat

def Body (ρ : Type) : ApiFormat → Type
  | .anthropic => ChatBody ρ
  | .openai => ChatBody ρ
  | .gemini => GeminiBody ρ
  | .openaiResponses => ResponsesBody ρ

def Response (ρ : Type) : ApiFormat → Type
  | .anthropic => AnthropicResponse ρ
  | .openai => OpenAIResponse ρ
  | .gemini => GeminiResponse ρ
  | .openaiResponses => ResponsesResponse ρ

end ApiFormat

/-! ## Reading and replacing texts -/

/-- What the text of a dict is read as, if it is read. -/
def Element.read (reads : Part ρ → Option Text) : Element ρ → Option Text
  | .part p => reads p
  | .other _ => none

/-- Replaces the first element that the function replaces. -/
def replaceFirst {α : Type} (f : α → Option α) : List α → Option (List α)
  | [] => none
  | a :: as =>
      match f a with
      | some b => some (b :: as)
      | none => (replaceFirst f as).map (a :: ·)

/-- `for a in reversed(list)`, up to the first that is replaced. -/
def replaceLast {α : Type} (f : α → Option α) (list : List α) :
    Option (List α) :=
  (replaceFirst f list.reverse).map List.reverse

/-- Runs through a list with the flag that the source calls `modified`. -/
def runModified {α : Type} (step : Bool → α → α × Bool) :
    Bool → List α → List α × Bool
  | modified, [] => ([], modified)
  | modified, a :: as =>
      let (new, modified) := step modified a
      let (news, modified) := runModified step modified as
      (new :: news, modified)

theorem replaceFirst_eq_some {α : Type} {f : α → Option α} {list new : List α}
    (h : replaceFirst f list = some new) :
    ∃ before a b after, list = before ++ a :: after ∧ f a = some b ∧
      (∀ x ∈ before, f x = none) ∧ new = before ++ b :: after := by
  induction list generalizing new with
  | nil => cases h
  | cons a as ih =>
      rw [replaceFirst] at h
      cases hf : f a with
      | some b =>
          rw [hf] at h
          exact ⟨[], a, b, as, rfl, hf, by simp, by simpa using h.symm⟩
      | none =>
          rw [hf] at h
          obtain ⟨news, hnews, rfl⟩ := Option.map_eq_some_iff.mp h
          obtain ⟨before, x, b, after, rfl, hx, hnone, rfl⟩ := ih hnews
          exact ⟨a :: before, x, b, after, rfl, hx, by simpa using ⟨hf, hnone⟩, rfl⟩

theorem replaceFirst_eq_none_iff {α : Type} {f : α → Option α} {list : List α} :
    replaceFirst f list = none ↔ ∀ x ∈ list, f x = none := by
  induction list with
  | nil => simp [replaceFirst]
  | cons a as ih =>
      rw [replaceFirst]
      cases hf : f a <;> simp [hf, ih]

theorem replaceFirst_append {α : Type} {f : α → Option α} {before : List α} {a b : α}
    (hbefore : ∀ x ∈ before, f x = none) (ha : f a = some b) (after : List α) :
    replaceFirst f (before ++ a :: after) = some (before ++ b :: after) := by
  induction before with
  | nil => simp [replaceFirst, ha]
  | cons x before ih =>
      have hrest := ih fun y hy => hbefore y (List.mem_cons_of_mem _ hy)
      simp [replaceFirst, hbefore x List.mem_cons_self, hrest]

theorem replaceLast_append {α : Type} {f : α → Option α} {after : List α} {a b : α}
    (hafter : ∀ x ∈ after, f x = none) (ha : f a = some b) (before : List α) :
    replaceLast f (before ++ a :: after) = some (before ++ b :: after) := by
  have hreverse : (before ++ a :: after).reverse =
      after.reverse ++ a :: before.reverse := by simp
  rw [replaceLast, hreverse,
    replaceFirst_append (by simpa using hafter) ha before.reverse]
  simp

/-- The last element that can be replaced is replaced. -/
theorem replaceLast_eq_some {α : Type} {f : α → Option α} {list new : List α}
    (h : replaceLast f list = some new) :
    ∃ before a b after, list = before ++ a :: after ∧ f a = some b ∧
      (∀ x ∈ after, f x = none) ∧ new = before ++ b :: after := by
  obtain ⟨news, hnews, rfl⟩ := Option.map_eq_some_iff.mp h
  obtain ⟨before, a, b, after, hlist, hf, hnone, rfl⟩ :=
    replaceFirst_eq_some hnews
  refine ⟨after.reverse, a, b, before.reverse, ?_, hf, by simpa using hnone,
    by simp⟩
  rw [← List.reverse_reverse list, hlist]
  simp

theorem replaceLast_eq_none_iff {α : Type} {f : α → Option α} {list : List α} :
    replaceLast f list = none ↔ ∀ x ∈ list, f x = none := by
  rw [replaceLast, Option.map_eq_none_iff, replaceFirst_eq_none_iff]
  simp

/-- The flag is set if anything is replaced, and only how a result is viewed may
depend on it. -/
theorem runModified_map {α β : Type} {step : Bool → α → α × Bool} {view : α → β}
    {new : α → α} {changed : α → Bool}
    (h : ∀ modified a, view (step modified a).1 = view (new a) ∧
      (step modified a).2 = (modified || changed a))
    (modified : Bool) (list : List α) :
    (runModified step modified list).1.map view = (list.map new).map view ∧
      (runModified step modified list).2 = (modified || list.any changed) := by
  induction list generalizing modified with
  | nil => simp [runModified]
  | cons a as ih =>
      obtain ⟨hview, hflag⟩ := h modified a
      obtain ⟨hviews, hflags⟩ := ih (step modified a).2
      refine ⟨?_, ?_⟩
      · simp only [runModified, List.map_cons]
        rw [hview, hviews]
      · simp only [runModified, List.any_cons]
        rw [hflags, hflag, Bool.or_assoc]

theorem runModified_eq {α : Type} {step : Bool → α → α × Bool} {new : α → α}
    {changed : α → Bool}
    (h : ∀ modified a, step modified a = (new a, modified || changed a))
    (modified : Bool) (list : List α) :
    runModified step modified list =
      (list.map new, modified || list.any changed) := by
  have hview : ∀ modified a, id (step modified a).1 = id (new a) ∧
      (step modified a).2 = (modified || changed a) := fun modified a => by
    rw [h]
    exact ⟨rfl, rfl⟩
  obtain ⟨hmap, hflag⟩ := runModified_map hview modified list
  rw [List.map_id, List.map_id] at hmap
  exact Prod.ext hmap hflag

end VirtualContext
