import Mathlib.Init

/-!
# Labelled transition systems

Runs of a system whose steps carry labels. A run may be restricted to the steps
that a condition on the state before the step and on the label allows, which is
how a statement about "every run whose calls meet the condition" is phrased.
The invariant rule is stated once, for restricted runs; unrestricted
reachability is the instance in which every step is allowed.
-/

namespace Transition

universe u v

/-- A labelled transition system: where runs start, and what each labelled step can do. -/
structure System (State : Type u) (Label : Type v) where
  Init : State → Prop
  Step : State → Label → State → Prop

namespace System

variable {State : Type u} {Label : Type v} {system : System State Label}

/-- The states reached by the runs all of whose steps are allowed. -/
inductive ReachableWhen (system : System State Label) (allowed : State → Label → Prop) :
    State → Prop where
  | init {state : State} (starts : system.Init state) : ReachableWhen system allowed state
  | step {state next : State} {label : Label} (reached : ReachableWhen system allowed state)
      (permitted : allowed state label) (step : system.Step state label next) :
      ReachableWhen system allowed next

def Reachable (system : System State Label) : State → Prop :=
  system.ReachableWhen (fun _ _ => True)

theorem Reachable.init {state : State} (starts : system.Init state) : system.Reachable state :=
  ReachableWhen.init starts

theorem Reachable.step {state next : State} {label : Label} (reached : system.Reachable state)
    (step : system.Step state label next) : system.Reachable next :=
  ReachableWhen.step reached trivial step

theorem ReachableWhen.step_by {allowed : State → Label → Prop} {state next : State}
    (reached : system.ReachableWhen allowed state) (label : Label)
    (permitted : allowed state label) (step : system.Step state label next) :
    system.ReachableWhen allowed next :=
  ReachableWhen.step reached permitted step

theorem Reachable.step_by {state next : State} (reached : system.Reachable state)
    (label : Label) (step : system.Step state label next) : system.Reachable next :=
  ReachableWhen.step reached trivial step

/-- The invariant rule: what holds initially and is preserved by every allowed
step holds in every state that allowed steps reach. -/
theorem ReachableWhen.invariant {allowed : State → Label → Prop} {invariant : State → Prop}
    (initially : ∀ state, system.Init state → invariant state)
    (preserved : ∀ state label next, invariant state → allowed state label →
      system.Step state label next → invariant next)
    {state : State} (reached : system.ReachableWhen allowed state) : invariant state := by
  induction reached with
  | init starts => exact initially _ starts
  | step _ permitted step ih => exact preserved _ _ _ ih permitted step

theorem Reachable.invariant {invariant : State → Prop}
    (initially : ∀ state, system.Init state → invariant state)
    (preserved : ∀ state label next, invariant state → system.Step state label next →
      invariant next)
    {state : State} (reached : system.Reachable state) : invariant state :=
  ReachableWhen.invariant initially
    (fun state label next holds _ step => preserved state label next holds step) reached

theorem ReachableWhen.reachable {allowed : State → Label → Prop} {state : State}
    (reached : system.ReachableWhen allowed state) : system.Reachable state := by
  induction reached with
  | init starts => exact Reachable.init starts
  | step _ _ step ih => exact ih.step step

/-- A path from `start` that does not leave `inside`. -/
inductive Path (system : System State Label) (inside : State → Prop) (start : State) :
    State → Prop where
  | refl (begins : inside start) : Path system inside start start
  | step {state next : State} {label : Label} (path : Path system inside start state)
      (step : system.Step state label next) (stays : inside next) : Path system inside start next

namespace Path

variable {inside : State → Prop} {start state : State}

theorem stays_inside (path : system.Path inside start state) : inside state := by
  cases path with
  | refl begins => exact begins
  | step _ _ stays => exact stays

theorem reachable (path : system.Path inside start state) (reached : system.Reachable start) :
    system.Reachable state := by
  induction path with
  | refl => exact reached
  | step _ step _ ih => exact ih.step step

theorem invariant {invariant : State → Prop} (path : system.Path inside start state)
    (initially : invariant start)
    (preserved : ∀ state label next, invariant state → inside state →
      system.Step state label next → invariant next) : invariant state := by
  induction path with
  | refl => exact initially
  | step before step _ ih => exact preserved _ _ _ ih before.stays_inside step

end Path

end System

end Transition
