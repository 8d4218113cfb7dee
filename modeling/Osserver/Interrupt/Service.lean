import Osserver.Interrupt.Lapic
import Osserver.Interrupt.Nesting
import Osserver.Interrupt.Routing

/-!
# The interrupts of the devices and the local APIC

The processor together with the local APIC and the lines of the IOAPIC, behind `idt_init`
and `lapic_init`. The functions that the handlers of the devices call, `__pit_tick` and
`handle_irq`, write the end of their interrupt once, as the last thing before they return;
nothing else writes it.

The state keeps for each interrupt whose handler has not returned whether its end has been
written, and the beginnings and ends of the functions so far. Only the end and the return
of a function look at the first, and no step looks at the second.
-/

namespace Osserver

open Transition

/-- The body of a function, from its call to the end of its interrupt. -/
inductive BodyEvent where
  | begins (function : CFunction)
  | ends (function : CFunction)
  deriving DecidableEq

structure Service where
  cpu : InterruptState
  lapic : Lapic
  answered : List Bool
  history : List BodyEvent

inductive ServiceEvent where
  | line (pin : ℕ)
  | accept (vector : BitVec 8)
  | spurious
  | processor (event : InterruptEvent)
  | endOfInterrupt
  deriving DecidableEq

variable (target : Target) (idt : Idt) (chip : Ioapic)

/-- The processor takes an interrupt when its local APIC offers it one, and spurious interrupts at
any time. -/
inductive ServiceStep : Service → ServiceEvent → Service → Prop where
  | line {s : Service} {pin : ℕ} {vector : BitVec 8} (reported : pin < chip.maxRedirectCount)
      (sends : chip.vector pin = some vector) :
      ServiceStep s (.line pin) { s with lapic := s.lapic.request vector }
  | accept {s : Service} {cpu : InterruptState} {vector : BitVec 8}
      (offered : s.lapic.offered = some vector)
      (step : InterruptStep target idt s.cpu (.interrupt vector) cpu) :
      ServiceStep s (.accept vector)
        { s with cpu := cpu, lapic := s.lapic.accept vector, answered := false :: s.answered }
  | spurious {s : Service} {cpu : InterruptState}
      (step : InterruptStep target idt s.cpu (.interrupt s.lapic.spuriousVector) cpu) :
      ServiceStep s .spurious { s with cpu := cpu, answered := true :: s.answered }
  | instruction {s : Service} {cpu : InterruptState}
      (step : InterruptStep target idt s.cpu .instruction cpu) :
      ServiceStep s (.processor .instruction) { s with cpu := cpu }
  | compiled {s : Service} {cpu : InterruptState}
      (step : InterruptStep target idt s.cpu .compiled cpu) :
      ServiceStep s (.processor .compiled) { s with cpu := cpu }
  | call {s : Service} {cpu : InterruptState} {function : CFunction}
      (step : InterruptStep target idt s.cpu (.call function) cpu) :
      ServiceStep s (.processor (.call function))
        { s with cpu := cpu, history := .begins function :: s.history }
  | endOfInterrupt {s : Service} {activation : Activation} {activations : List Activation}
      {function : CFunction} {calls : List CFunction} {answered : List Bool}
      (outside : target.point s.cpu.machine.eip = none)
      (running : s.cpu.activations = activation :: activations)
      (isCalled : activation.calls = function :: calls) (open' : s.answered = false :: answered) :
      ServiceStep s .endOfInterrupt
        { s with
          lapic := lapicResetIrq s.lapic
          answered := true :: answered
          history := .ends function :: s.history }
  | ret {s : Service} {cpu : InterruptState} (written : s.answered.head? = some true)
      (step : InterruptStep target idt s.cpu .ret cpu) :
      ServiceStep s (.processor .ret) { s with cpu := cpu }
  | iret {s : Service} {cpu : InterruptState} (step : InterruptStep target idt s.cpu .iret cpu) :
      ServiceStep s (.processor .iret) { s with cpu := cpu, answered := s.answered.tail }

/-- The mainline behind `idt_init` and `lapic_init`, before which no interrupt has been taken. Some
may have been requested: `idt_init` opens the pins first. -/
def serviceSystem : System Service ServiceEvent where
  Init s := (interruptSystem target idt).Init s.cpu ∧ s.answered = [] ∧ s.history = [] ∧
    ∃ before : Lapic, s.lapic = lapicInit before ∧
      (∀ vector, before.requested vector = true →
        ∃ pin < chip.maxRedirectCount, chip.vector pin = some vector) ∧
      ∀ vector, before.inService vector = false
  Step := ServiceStep target idt chip

/-- What the processor does in a step. -/
def Service.visible (s : Service) : ServiceEvent → Option InterruptEvent
  | .line _ => none
  | .accept vector => some (.interrupt vector)
  | .spurious => some (.interrupt s.lapic.spuriousVector)
  | .processor event => some event
  | .endOfInterrupt => none

/-- Interrupts come where the stack has room. -/
def ServiceRoom (s : Service) (event : ServiceEvent) : Prop :=
  ∀ seen ∈ s.visible event, StackRoom target s.cpu seen

/-- The processor does what it does without the local APIC; it is only interrupted less. -/
theorem service_simulates :
    Simulates (serviceSystem target idt chip) (ServiceRoom target) (interruptSystem target idt)
      (StackRoom target) Service.cpu Service.visible := by
  refine ⟨fun _ starts => starts.1, ?_, ?_⟩
  · intro s event s' step unseen
    cases step with
    | line | endOfInterrupt => rfl
    | accept | spurious | instruction | compiled | call | ret | iret => cases unseen
  · intro s event s' seen room step isSeen
    refine ⟨room seen isSeen, ?_⟩
    cases step with
    | line | endOfInterrupt => cases isSeen
    | accept _ step | ret _ step =>
        cases isSeen
        exact step
    | spurious step | instruction step | compiled step | call step | iret step =>
        cases isSeen
        exact step

end Osserver
