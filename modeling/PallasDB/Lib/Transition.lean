import Mathlib.Data.List.Basic

/-! # Runs of guarded step functions

A system is a partial step function: an event either has an effect or is not enabled. Every choice
the environment makes is part of the event, so a tape of events determines the whole run. The rules
below turn a fact about one step into a fact about every run; the conditional form also threads a
condition that each step of the tape has to meet in the state it starts from.
-/

namespace Transition

variable {σ ε : Type*}

/-- Execute a tape of events; an event that is not enabled stops the run. -/
def run? (step : σ → ε → Option σ) : σ → List ε → Option σ
  | source, [] => some source
  | source, event :: rest => (step source event).bind fun next => run? step next rest

/-- Every step of the tape meets the condition in the state it starts from. -/
def Meets (step : σ → ε → Option σ) (condition : σ → ε → Prop) : σ → List ε → Prop
  | _, [] => True
  | source, event :: rest =>
      condition source event ∧ ∀ next, step source event = some next → Meets step condition next rest

instance Meets.decidable (step : σ → ε → Option σ) (condition : σ → ε → Prop)
    [∀ source event, Decidable (condition source event)] :
    ∀ source events, Decidable (Meets step condition source events)
  | _, [] => isTrue trivial
  | source, event :: rest =>
      match taken : step source event with
      | none => decidable_of_iff (condition source event) (by simp [Meets, taken])
      | some next =>
        have := Meets.decidable step condition next rest
        decidable_of_iff (condition source event ∧ Meets step condition next rest) (by simp [Meets, taken])

/-- What happens under a guard happens when the guard holds. -/
theorem of_guarded {guard : Prop} [Decidable guard] {effect target : σ}
    (taken : (if guard then some effect else none) = some target) : guard ∧ effect = target := by
  split at taken
  · next held => exact ⟨held, Option.some.inj taken⟩
  · contradiction

/-- The system together with the journal of what can be observed of its steps. -/
def journaled {ο : Type*} (step : σ → ε → Option σ) (observe : σ → ε → List ο) (state : σ × List ο)
    (event : ε) : Option (σ × List ο) :=
  (step state.1 event).map fun next => (next, state.2 ++ observe state.1 event)

theorem journaled_eq_some {ο : Type*} {step : σ → ε → Option σ} {observe : σ → ε → List ο}
    {state target : σ × List ο} {event : ε} : journaled step observe state event = some target ↔
      step state.1 event = some target.1 ∧ target.2 = state.2 ++ observe state.1 event := by
  obtain ⟨next, journal⟩ := target
  simp only [journaled, Option.map_eq_some_iff, Prod.mk.injEq]
  constructor
  · rintro ⟨_, taken, rfl, rfl⟩
    exact ⟨taken, rfl⟩
  · rintro ⟨taken, rfl⟩
    exact ⟨next, taken, rfl, rfl⟩

variable {step : σ → ε → Option σ}

@[simp] theorem run?_nil (source : σ) : run? step source [] = some source := rfl

theorem run?_cons_eq_some {source target : σ} {event : ε} {rest : List ε} :
    run? step source (event :: rest) = some target ↔
      ∃ next, step source event = some next ∧ run? step next rest = some target := by
  simp only [run?, Option.bind_eq_some_iff]

/-- Runs compose at their shared endpoint. -/
theorem run?_append (source : σ) (first second : List ε) : run? step source (first ++ second) =
      (run? step source first).bind fun middle => run? step middle second := by
  induction first generalizing source with
  | nil => rfl
  | cons event rest ih => simp only [List.cons_append, run?, ih, Option.bind_assoc]

theorem run?_concat {source target : σ} {events : List ε} {event : ε} :
    run? step source (events ++ [event]) = some target ↔
      ∃ middle, run? step source events = some middle ∧ step middle event = some target := by
  simp only [run?_append, Option.bind_eq_some_iff, run?_cons_eq_some, run?_nil, Option.some.injEq,
    exists_eq_right]

theorem meets_of_forall {condition : ε → Prop} {events : List ε} (every : ∀ event ∈ events, condition event)
    (source : σ) : Meets step (fun _ event => condition event) source events := by
  induction events generalizing source with
  | nil => trivial
  | cons event rest ih =>
    exact ⟨every event (List.mem_cons_self ..), fun next _ =>
      ih (fun other member => every other (List.mem_cons_of_mem _ member)) next⟩

theorem Meets.and {first second : σ → ε → Prop} {source : σ} {events : List ε} (left : Meets step first source events)
    (right : Meets step second source events) :
    Meets step (fun source event => first source event ∧ second source event) source events := by
  induction events generalizing source with
  | nil => trivial
  | cons event rest ih =>
    exact ⟨⟨left.1, right.1⟩, fun next taken => ih (left.2 next taken) (right.2 next taken)⟩

/-- An invariant of every step taken under the condition holds after every tape that meets it. -/
theorem run?_invariant_of_meets {condition : σ → ε → Prop} (invariant : σ → Prop)
    (preserved : ∀ {source event target}, invariant source → condition source event →
      step source event = some target → invariant target)
    {source target : σ} {events : List ε} (initial : invariant source)
    (meets : Meets step condition source events) (run : run? step source events = some target) :
    invariant target := by
  induction events generalizing source with
  | nil => cases run; exact initial
  | cons event rest ih =>
    obtain ⟨next, taken, run⟩ := run?_cons_eq_some.mp run
    exact ih (preserved initial meets.1 taken) (meets.2 next taken) run

/-- An invariant of every step is an invariant of every run. -/
theorem run?_invariant (invariant : σ → Prop) (preserved : ∀ {source event target}, invariant source →
      step source event = some target → invariant target)
    {source target : σ} {events : List ε} (initial : invariant source)
    (run : run? step source events = some target) : invariant target := by
  induction events generalizing source with
  | nil => cases run; exact initial
  | cons event rest ih =>
    obtain ⟨next, taken, run⟩ := run?_cons_eq_some.mp run
    exact ih (preserved initial taken) run

end Transition
