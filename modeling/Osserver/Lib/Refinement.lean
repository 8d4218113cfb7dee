import Osserver.Lib.Transition

/-!
# Refinement of transition systems

A system refines a more abstract one when its states can be viewed as states of the
other, such that every allowed step is a step there. What the abstract system
guarantees then holds of all runs of the concrete one, among others that whatever its
steps with harmless labels keep is kept by every run with harmless labels. It simulates
one when some of its steps may also leave the view as it is.
-/

namespace Transition

universe u v

namespace System

variable {State : Type u} {Label : Type v} {system : System State Label}

/-- The system whose runs go on from a given state. -/
def startingAt (system : System State Label) (start : State) : System State Label :=
  { system with Init := fun state => state = start }

theorem ReachableWhen.go_on {allowed later : State → Label → Prop} {start state : State}
    (reached : system.ReachableWhen allowed start)
    (stronger : ∀ state label, later state label → allowed state label)
    (goesOn : (system.startingAt start).ReachableWhen later state) :
    system.ReachableWhen allowed state := by
  induction goesOn with
  | init starts => exact starts ▸ reached
  | step _ permitted step ih => exact ih.step (stronger _ _ permitted) step

end System

variable {State View Label Event : Type} {concrete : System State Label}
  {abstract : System View Event} {allowed : State → Label → Prop} {view : State → View}
  {event : State → Label → Event} {visible : State → Label → Option Event}
  {permitted : View → Event → Prop}

/-- Every allowed step of the concrete system is a step of the abstract one. -/
structure Refines (concrete : System State Label) (allowed : State → Label → Prop)
    (abstract : System View Event) (view : State → View) (event : State → Label → Event) :
    Prop where
  init : ∀ state, concrete.Init state → abstract.Init (view state)
  step : ∀ state label next, concrete.ReachableWhen allowed state → allowed state label →
    concrete.Step state label next → abstract.Step (view state) (event state label) (view next)

namespace Refines

/-- Every run of the concrete system is a run of the abstract one. -/
theorem reachable (refines : Refines concrete allowed abstract view event) {state : State}
    (reached : concrete.ReachableWhen allowed state) : abstract.Reachable (view state) := by
  induction reached with
  | init starts => exact .init (refines.init _ starts)
  | step before permitted step ih => exact ih.step (refines.step _ _ _ before permitted step)

/-- What harmless steps of the abstract system keep is kept by the runs of the concrete one. -/
theorem keeps (refines : Refines concrete allowed abstract view event) {start state : State}
    (reached : concrete.ReachableWhen allowed start) {kept : View → Prop} {quiet : Event → Prop}
    (preserved : ∀ view event next, kept view → quiet event → abstract.Step view event next →
      kept next)
    (holds : kept (view start))
    (goesOn : (concrete.startingAt start).ReachableWhen
      (fun state label => allowed state label ∧ quiet (event state label)) state) :
    kept (view state) := by
  induction goesOn with
  | init starts => exact starts ▸ holds
  | step before permitted step ih =>
      have onTheWay := reached.go_on (fun _ _ both => both.1) before
      exact preserved _ _ _ ih permitted.2 (refines.step _ _ _ onTheWay permitted.1 step)

end Refines

/-- Every allowed step of the concrete system is a permitted step of the abstract one, or one
that cannot be seen there. -/
structure Simulates (concrete : System State Label) (allowed : State → Label → Prop)
    (abstract : System View Event) (permitted : View → Event → Prop) (view : State → View)
    (visible : State → Label → Option Event) : Prop where
  init : ∀ state, concrete.Init state → abstract.Init (view state)
  silent : ∀ state label next, concrete.Step state label next → visible state label = none →
    view next = view state
  step : ∀ state label next event, allowed state label → concrete.Step state label next →
    visible state label = some event →
      permitted (view state) event ∧ abstract.Step (view state) event (view next)

theorem Simulates.reachable
    (simulates : Simulates concrete allowed abstract permitted view visible) {state : State}
    (reached : concrete.ReachableWhen allowed state) :
    abstract.ReachableWhen permitted (view state) := by
  induction reached with
  | init starts => exact .init (simulates.init _ starts)
  | @step state next label _ isAllowed step ih =>
      cases seen : visible state label with
      | none =>
          rw [simulates.silent _ _ _ step seen]
          exact ih
      | some event =>
          rcases simulates.step _ _ _ _ isAllowed step seen with ⟨isPermitted, viewStep⟩
          exact ih.step isPermitted viewStep

end Transition
