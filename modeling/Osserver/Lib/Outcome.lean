import Osserver.Lib.Transition
import Mathlib.Data.List.Basic

/-!
# Steps that may fail

A function that fails or returns is an `Except`. `steps` takes one step after another
and stops at the first that fails. What every step does to a part of the state as a
function of that part, a run does to it; and the steps are those of a transition system.
-/

namespace Outcome

open Transition

universe u v w x

variable {Error : Type u} {State : Type v} {Label : Type w}

theorem bind_eq_ok {Value Result : Type v} {first : Except Error Value}
    {second : Value → Except Error Result} {result : Result} :
    first >>= second = .ok result ↔ ∃ value, first = .ok value ∧ second value = .ok result := by
  cases first with
  | error error => simp [bind, Except.bind]
  | ok value => simp [bind, Except.bind]

theorem map_eq_ok {Value Result : Type v} {outcome : Except Error Value} {f : Value → Result}
    {result : Result} :
    outcome.map f = .ok result ↔ ∃ value, outcome = .ok value ∧ f value = result := by
  cases outcome with
  | error error => simp [Except.map]
  | ok value => simp [Except.map]

/-- The outcome is none of the excluded errors. -/
def Avoids {Value : Type v} (excluded : Error → Prop) (outcome : Except Error Value) : Prop :=
  ∀ error, outcome = .error error → ¬excluded error

section Avoids

variable {Value Result : Type v} {excluded : Error → Prop} {outcome : Except Error Value}

theorem avoids_ok (value : Value) : Avoids excluded (.ok value : Except Error Value) := by
  intro error fails
  cases fails

theorem avoids_error_iff {error : Error} :
    Avoids excluded (.error error : Except Error Value) ↔ ¬excluded error := by
  constructor
  · intro avoids
    exact avoids error rfl
  · rintro allowed other fails
    cases fails
    exact allowed

/-- An error that is passed on. -/
theorem Avoids.passed {error : Error} (first : Avoids excluded outcome)
    (fails : outcome = .error error) : Avoids excluded (.error error : Except Error Result) :=
  avoids_error_iff.mpr (first error fails)

/-- A sequence avoids what its first step avoids, and its second step after each value that
the first returns. -/
theorem Avoids.bind {second : Value → Except Error Result} (first : Avoids excluded outcome)
    (next : ∀ value, outcome = .ok value → Avoids excluded (second value)) :
    Avoids excluded (outcome >>= second) := by
  cases outcome with
  | error error => exact avoids_error_iff.mpr (first error rfl)
  | ok value => exact next value rfl

theorem Avoids.map (avoids : Avoids excluded outcome) (f : Value → Result) :
    Avoids excluded (outcome.map f) := by
  cases outcome with
  | error error => exact avoids_error_iff.mpr (avoids error rfl)
  | ok value => exact avoids_ok _

end Avoids

/-- Take the steps with the given labels. -/
def steps (step : State → Label → Except Error State) : State → List Label → Except Error State
  | state, [] => .ok state
  | state, label :: labels =>
      match step state label with
      | .error error => .error error
      | .ok next => steps step next labels

variable {step : State → Label → Except Error State} {state next final : State} {label : Label}
  {labels : List Label}

@[simp]
theorem steps_nil : steps step state [] = .ok state := rfl

theorem steps_cons (returns : step state label = .ok next) :
    steps step state (label :: labels) = steps step next labels := by
  simp [steps, returns]

theorem steps_cons_eq_ok :
    steps step state (label :: labels) = .ok final ↔
      ∃ next, step state label = .ok next ∧ steps step next labels = .ok final := by
  cases returns : step state label with
  | error error => simp [steps, returns]
  | ok next => simp [steps, returns]

/-- When each step does to a part of the state what `onPart` says, a run does to it what
`onPart` does label by label. -/
theorem steps_refines {Part : Type x} {part : State → Part} {onPart : Part → Label → Part}
    (refines : ∀ state label next, step state label = .ok next →
      part next = onPart (part state) label)
    (returns : steps step state labels = .ok final) :
    part final = labels.foldl onPart (part state) := by
  induction labels generalizing state with
  | nil =>
      cases returns
      rfl
  | cons label labels ih =>
      rcases steps_cons_eq_ok.mp returns with ⟨next, first, rest⟩
      rw [List.foldl_cons, ih rest, refines state label next first]

/-- The labels that leave the part alone may be left out. -/
theorem foldl_filter {Part : Type x} {onPart : Part → Label → Part} {concerns : Label → Bool}
    (quiet : ∀ part label, concerns label = false → onPart part label = part) (part : Part) :
    (labels.filter concerns).foldl onPart part = labels.foldl onPart part := by
  induction labels generalizing part with
  | nil => rfl
  | cons label labels ih =>
      cases concerned : concerns label with
      | true => rw [List.filter_cons_of_pos concerned, List.foldl_cons, List.foldl_cons, ih]
      | false =>
          rw [List.filter_cons_of_neg (by simp [concerned]), List.foldl_cons,
            quiet part label concerned, ih]

/-- The transition system of a step function. -/
def system (init : State → Prop) (step : State → Label → Except Error State) :
    System State Label where
  Init := init
  Step state label next := step state label = .ok next

end Outcome
