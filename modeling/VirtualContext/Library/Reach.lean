import Mathlib.Init

/-!
# Reachable states

The states that a system can be in, from its start states on, step after step.
-/

namespace VirtualContext.Library

/-- The states reachable from a start state by the steps of a relation. -/
inductive Reach {σ : Type} (start : σ → Prop) (step : σ → σ → Prop) : σ → Prop where
  | start {s : σ} (h : start s) : Reach start step s
  | step {s s' : σ} (reach : Reach start step s) (h : step s s') :
      Reach start step s'

namespace Reach

variable {σ : Type} {start : σ → Prop} {step : σ → σ → Prop} {s : σ}

/-- What holds at the start and is kept by every step holds throughout. -/
theorem invariant {I : σ → Prop} (reach : Reach start step s)
    (hstart : ∀ s, start s → I s) (hstep : ∀ s s', I s → step s s' → I s') :
    I s := by
  induction reach with
  | start h => exact hstart _ h
  | step _ h ih => exact hstep _ _ ih h

end Reach

/-! ## Steps with a label -/

section Labels

variable {σ α : Type} (step : σ → α → Option σ) (condition : σ → α → Prop)

/-- A step whose label meets a condition on the state before it. -/
def StepWhere (s s' : σ) : Prop := ∃ a, condition s a ∧ step s a = some s'

/-- The state after a list of steps. -/
def runSteps (s : σ) : List α → Option σ
  | [] => some s
  | a :: rest => (step s a).bind fun s' => runSteps s' rest

/-- Every step of a list meets the condition. -/
def Meets (s : σ) : List α → Prop
  | [] => True
  | a :: rest => condition s a ∧ ∀ s' ∈ step s a, Meets s' rest

variable {step condition}

instance decidableMeets [∀ s a, Decidable (condition s a)] :
    ∀ (s : σ) (steps : List α), Decidable (Meets step condition s steps)
  | _, [] => isTrue trivial
  | s, a :: rest =>
      have (s' : σ) : Decidable (Meets step condition s' rest) := decidableMeets s' rest
      inferInstanceAs (Decidable (condition s a ∧ ∀ s' ∈ step s a, _))

theorem Meets.mono {condition' : σ → α → Prop} {s : σ} {steps : List α}
    (h : Meets step condition s steps) (himp : ∀ s a, condition s a → condition' s a) :
    Meets step condition' s steps := by
  induction steps generalizing s with
  | nil => trivial
  | cons a rest ih => exact ⟨himp s a h.1, fun s' hs' => ih (h.2 s' hs')⟩

/--
Two conditions that agree on the steps that can be made agree on whole runs, if
the steps that meet them keep the invariant under which they agree.
-/
theorem Meets.iff_of_invariant {condition' : σ → α → Prop} (I : σ → Prop)
    (hiff : ∀ s a s', I s → step s a = some s' → (condition s a ↔ condition' s a))
    (hstep : ∀ s a s', I s → condition' s a → step s a = some s' → I s')
    {s s' : σ} {steps : List α} (hs : I s) (hruns : runSteps step s steps = some s') :
    Meets step condition s steps ↔ Meets step condition' s steps := by
  induction steps generalizing s with
  | nil => exact Iff.rfl
  | cons a rest ih =>
      obtain ⟨next, hnext, hrest⟩ := Option.bind_eq_some_iff.1 hruns
      simp only [Meets, hiff s a next hs hnext, hnext, Option.mem_some, forall_eq']
      exact and_congr_right fun ha => ih (hstep s a next hs ha hnext) hrest

theorem runSteps_append {s s' : σ} {first second : List α} :
    runSteps step s (first ++ second) = some s' ↔
      ∃ middle, runSteps step s first = some middle ∧ runSteps step middle second = some s' := by
  induction first generalizing s with
  | nil => simp [runSteps]
  | cons a rest ih =>
      rw [List.cons_append, runSteps, runSteps]
      cases step s a with
      | none => simp
      | some next => exact ih

theorem meets_append {s : σ} {first second : List α} :
    Meets step condition s (first ++ second) ↔
      Meets step condition s first ∧
        ∀ middle, runSteps step s first = some middle → Meets step condition middle second := by
  induction first generalizing s with
  | nil => simp [Meets, runSteps]
  | cons a rest ih =>
      rw [List.cons_append, Meets, Meets, runSteps]
      cases step s a with
      | none => simp
      | some next => simp [ih, and_assoc]

theorem Reach.of_run {start : σ → Prop} {s s' : σ} (steps : List α)
    (hs : Reach start (StepWhere step condition) s)
    (hmeets : Meets step condition s steps) (h : runSteps step s steps = some s') :
    Reach start (StepWhere step condition) s' := by
  induction steps generalizing s with
  | nil =>
      obtain rfl := Option.some.inj h
      exact hs
  | cons a rest ih =>
      obtain ⟨next, hstep, hrest⟩ := Option.bind_eq_some_iff.1 h
      exact ih (hs.step ⟨a, hmeets.1, hstep⟩) (hmeets.2 next hstep) hrest

end Labels

/-! ## What comes about -/

/-- Every run of the steps of a relation comes to a state with a property. -/
inductive Eventually {σ : Type} (step : σ → σ → Prop) (P : σ → Prop) : σ → Prop where
  | now {s : σ} (h : P s) : Eventually step P s
  | later {s : σ} (runs : ∃ s', step s s') (h : ∀ s', step s s' → Eventually step P s') :
      Eventually step P s

namespace Eventually

variable {σ : Type} {step : σ → σ → Prop} {P I : σ → Prop}

/--
Steps that keep an invariant and make a measure smaller come to an end, and
there the property holds if it holds wherever no step is left.
-/
theorem of_measure (measure : σ → Nat) (hstep : ∀ s s', I s → step s s' → I s')
    (hmeasure : ∀ s s', I s → step s s' → measure s' < measure s)
    (hrest : ∀ s, I s → (¬ ∃ s', step s s') → P s) {s : σ} (h : I s) :
    Eventually step P s := by
  induction hn : measure s using Nat.strongRecOn generalizing s with
  | _ n ih =>
      by_cases hruns : ∃ s', step s s'
      · refine .later hruns fun s' hs' => ?_
        exact ih (measure s') (hn ▸ hmeasure s s' h hs') (hstep s s' h hs') rfl
      · exact .now (hrest s h hruns)

end Eventually

end VirtualContext.Library
