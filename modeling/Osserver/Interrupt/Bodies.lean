import Osserver.Interrupt.Service
import Osserver.Interrupt.Transparency

/-!
# One device at a time

The vectors that `idt_init` gives to the devices are of one priority class, so the local
APIC does not offer any of them while one is in service. The functions of C set the
interrupt flag when they free memory; it is the end of the interrupt that lets the next
device in, not the flag.
-/

namespace Osserver

open Transition

/-- The vectors of the timer and of the two ports. -/
def deviceVectors : List (BitVec 8) :=
  [0x20#8, 0x21#8, 0x22#8]

/-- Of the pins that the chip reports, each sends one of the vectors or nothing. -/
def Ioapic.Sends (chip : Ioapic) (vectors : List (BitVec 8)) : Prop :=
  ∀ pin < chip.maxRedirectCount, ∀ vector, chip.vector pin = some vector → vector ∈ vectors

/-- The bodies so far do not overlap: each function has come to its end before the next one has
begun, and `running` is the one that has not. -/
inductive Bodies : Option CFunction → List BodyEvent → Prop where
  | start : Bodies none []
  | begins {history : List BodyEvent} (function : CFunction) (before : Bodies none history) :
      Bodies (some function) (.begins function :: history)
  | ends {history : List BodyEvent} {function : CFunction}
      (before : Bodies (some function) history) : Bodies none (.ends function :: history)

/-- The interrupts whose end has not been written. -/
def unanswered : List Activation → List Bool → List Activation
  | activation :: activations, answer :: answers =>
      if answer then unanswered activations answers
      else activation :: unanswered activations answers
  | _, _ => []

/-- The function that has been called and has not come to its end. -/
def Service.running (s : Service) : Option CFunction :=
  (unanswered s.cpu.activations s.answered).head?.bind (fun activation => activation.calls.head?)

variable {target : Target} {idt : Idt} {chip : Ioapic}

section Vectors

variable {vector other : BitVec 8} {function : CFunction}

theorem priorityClass_device (device : vector ∈ deviceVectors) : priorityClass vector = 2 := by
  simp only [deviceVectors, List.mem_cons, List.not_mem_nil, or_false] at device
  rcases device with rfl | rfl | rfl <;> rfl

theorem function_device (device : vector ∈ deviceVectors) :
    ∃ function, (vectorStub vector).function = some function := by
  simp only [deviceVectors, List.mem_cons, List.not_mem_nil, or_false] at device
  rcases device with rfl | rfl | rfl <;> exact ⟨_, rfl⟩

/-- Behind `ioapic_init` and `idt_init` the first IOAPIC sends the vectors of the devices. -/
theorem idtInit_sends {s : Acpi} {madt fuel : ℕ} {records : List SavedRecord}
    {chips after : ℕ → Ioapic} (saved : s.SavedMadt madt records) (enough : records.length < fuel)
    (some' : 0 < s.ioapicSize) (narrow : s.ioapicSize < 256)
    (aligned : ∀ i < s.ioapicSize, s.ioapicAddrs i % 4096 = 0)
    (returns : idtInitIoapics fuel s (ioapicInit s chips) = .ok after) :
    (after (s.ioapicAddrs 0)).Sends deviceVectors := by
  rcases @idtInitIoapics_vector s madt fuel records (ioapicInit s chips) saved enough narrow with
    ⟨same, returnsSame, counts, vectors⟩
  rw [returns, Except.ok.injEq] at returnsSame
  rcases @ioapicInit_vector s chips some' aligned with ⟨count, masked⟩
  intro pin reported vector sends
  rw [returnsSame, counts, count] at reported
  rw [returnsSame, vectors 0 some' pin, masked pin reported] at sends
  split_ifs at sends <;> cases sends <;> simp [deviceVectors]

end Vectors

section Unanswered

variable {activation : Activation} {activations : List Activation} {answer : Bool}
  {answers : List Bool}

theorem unanswered_cons_true :
    unanswered (activation :: activations) (true :: answers) = unanswered activations answers :=
  rfl

theorem unanswered_cons_false :
    unanswered (activation :: activations) (false :: answers) =
      activation :: unanswered activations answers :=
  rfl

end Unanswered

/-- An interrupt whose end has not been written is of a device, and its function has not been
called or is running; one whose end has been written calls nothing any more. -/
structure Activation.Answers (target : Target) (activation : Activation) (m : Machine)
    (answer : Bool) : Prop where
  ended : answer = true →
    (vectorStub activation.vector).function = none ∨ activation.calls ≠ []
  pending : answer = false →
    activation.vector ∈ deviceVectors ∧ (activation.calls = [] ∨ target.point m.eip = none)

/-- What holds of the interrupts, each with the code that it has interrupted. -/
def Answered (target : Target) : Machine → List Activation → List Bool → Prop
  | _, [], [] => True
  | m, activation :: activations, answer :: answers =>
      activation.Answers target m answer ∧ Answered target activation.context activations answers
  | _, _, _ => False

/-- What every step of the system keeps. -/
structure Serviced (target : Target) (s : Service) : Prop where
  answers : Answered target s.cpu.machine s.cpu.activations s.answered
  single : (unanswered s.cpu.activations s.answered).length ≤ 1
  inService : ∀ vector, s.lapic.inService vector = true ↔
    ∃ activation ∈ unanswered s.cpu.activations s.answered, activation.vector = vector
  requested : ∀ vector, s.lapic.requested vector = true → vector ∈ deviceVectors
  registers : s.lapic.enabled = true ∧ s.lapic.taskClass = 0 ∧ s.lapic.spuriousVector = 0xFF#8
  bodies : Bodies s.running s.history

section Answers

variable {m m' : Machine} {activation : Activation} {activations : List Activation}
  {answers : List Bool} {s s' : InterruptState} {vector : BitVec 8}

/-- The state says of each interrupt whether its end has been written. -/
theorem Answered.cons (answered : Answered target m (activation :: activations) answers) :
    ∃ answer rest, answers = answer :: rest ∧ activation.Answers target m answer ∧
      Answered target activation.context activations rest := by
  cases answers with
  | nil => cases answered
  | cons answer rest => exact ⟨answer, rest, rfl, answered⟩

/-- The machine matters to the innermost interrupt only, as long as its end is not written. -/
theorem Answered.change (answered : Answered target m activations answers)
    (keeps : answers.head? = some false → ∀ activation : Activation,
      activation.calls = [] ∨ target.point m.eip = none →
        activation.calls = [] ∨ target.point m'.eip = none) :
    Answered target m' activations answers := by
  cases activations with
  | nil =>
      cases answers with
      | nil => trivial
      | cons answer answers => cases answered
  | cons activation activations =>
      rcases answered.cons with ⟨answer, rest, rfl, first, others⟩
      refine ⟨⟨first.ended, ?_⟩, others⟩
      intro isPending
      have pending := first.pending isPending
      exact ⟨pending.1, keeps (by rw [List.head?_cons, isPending]) activation pending.2⟩

/-- Only where the code goes on matters. -/
theorem Answered.congr (answered : Answered target m activations answers)
    (same : m'.eip = m.eip) : Answered target m' activations answers := by
  apply answered.change
  intro _ activation before
  rw [same]
  exact before

/-- Code outside the handlers is that of the mainline, or of a function that runs. -/
theorem Answered.outside (answered : Answered target m activations answers)
    (outside : target.point m'.eip = none) : Answered target m' activations answers :=
  answered.change fun _ _ _ => Or.inr outside

/-- What has its end does not care where the code goes on. -/
theorem Answered.of_written (answered : Answered target m activations answers)
    (written : answers.head? = some true) : Answered target m' activations answers := by
  apply answered.change
  intro pending
  rw [pending] at written
  cases written

/-- What has been called stays so when the handler goes on. -/
theorem InterruptStep.answered_instruction (step : InterruptStep target idt s .instruction s')
    (answered : Answered target s.machine s.activations answers) :
    s'.activations = s.activations ∧ Answered target s'.machine s.activations answers := by
  cases step with
  | @instruction m m' activations stub index instruction fetched =>
      refine ⟨rfl, answered.change ?_⟩
      rintro _ activation (notCalled | outside)
      · exact Or.inl notCalled
      · rw [Target.fetch, outside] at fetched
        cases fetched

theorem InterruptStep.interrupted (step : InterruptStep target idt s (.interrupt vector) s') :
    s'.activations = ⟨s.machine, vector, [], 0⟩ :: s.activations := by
  cases step
  rfl

theorem InterruptStep.stays_outside (step : InterruptStep target idt s .compiled s') :
    s'.activations = s.activations ∧ target.point s'.machine.eip = none := by
  cases step with
  | mainline _ stays => exact ⟨rfl, stays⟩
  | function _ stays => exact ⟨rfl, stays⟩

theorem InterruptStep.keeps_activations (step : InterruptStep target idt s .ret s') :
    s'.activations = s.activations := by
  cases step
  rfl

theorem InterruptStep.called {function : CFunction}
    (step : InterruptStep target idt s (.call function) s')
    (nested : Nested target s.machine s.activations) :
    ∃ activation activations entry, s.activations = activation :: activations ∧
      activation.calls = [] ∧ (vectorStub activation.vector).function = some function ∧
        s'.activations = { activation with calls := [function], entry := entry } :: activations ∧
          target.point s'.machine.eip = none := by
  cases step with
  | @call m m' activation activations stub index _ fetched executes =>
      have called := nested.2.1.call nested.1 fetched executes
      refine ⟨activation, activations, m'.stack.pointer.toNat, rfl, called.2.1, called.1, ?_, ?_⟩
      · rw [called.2.1]
      · simp only [Target.execute, Option.some.injEq] at executes
        rw [← executes]
        exact target.point_function function

theorem InterruptStep.returned (step : InterruptStep target idt s .iret s')
    (nested : Nested target s.machine s.activations) :
    ∃ activation, s.activations = activation :: s'.activations ∧
      activation.calls = (vectorStub activation.vector).function.toList ∧
        s'.machine.eip = activation.context.eip ∧ target.point s.machine.eip ≠ none := by
  cases step with
  | @iret m m' activation activations stub index fetched executes =>
      have returned := nested.2.1.iret fetched executes
      refine ⟨activation, rfl, returned.2, returned.1.eip, ?_⟩
      rw [(Target.fetch_eq_some.mp fetched).1]
      exact Option.some_ne_none _

/-- The interrupts without an end are of devices. -/
theorem Answered.unanswered_device (answered : Answered target m activations answers) :
    ∀ activation ∈ unanswered activations answers, activation.vector ∈ deviceVectors := by
  induction activations generalizing m answers with
  | nil =>
      intro activation listed
      cases listed
  | cons first activations ih =>
      cases answers with
      | nil => cases answered
      | cons answer answers =>
          have rest := ih answered.2
          cases answer with
          | true => exact rest
          | false =>
              rw [unanswered_cons_false, List.forall_mem_cons]
              exact ⟨(answered.1.pending rfl).1, rest⟩

end Answers

section Steps

variable {s s' : Service} {cpu : InterruptState} {vector : BitVec 8} {event : ServiceEvent}

/-- The processor goes on, and the interrupts stay as they are. -/
theorem Serviced.goes_on (serviced : Serviced target s)
    (same : cpu.activations = s.cpu.activations)
    (answers : Answered target cpu.machine s.cpu.activations s.answered) :
    Serviced target { s with cpu := cpu } := by
  rw [← same] at answers
  refine ⟨answers, ?_, ?_, serviced.requested, serviced.registers, ?_⟩
  · simp only [same]
    exact serviced.single
  · simp only [same]
    exact serviced.inService
  · have running : ({ s with cpu := cpu } : Service).running = s.running := by
      simp only [Service.running, same]
    rw [running]
    exact serviced.bodies

/-- While one device is in service the local APIC offers no other. -/
theorem Serviced.unanswered_of_offered (serviced : Serviced target s)
    (offered : s.lapic.offered = some vector) :
    vector ∈ deviceVectors ∧ unanswered s.cpu.activations s.answered = [] := by
  rcases Lapic.offered_eq_some.mp offered with ⟨highest, _, _, above⟩
  have device := serviced.requested vector (Lapic.highestRequested_eq_some.mp highest).1
  refine ⟨device, ?_⟩
  rw [List.eq_nil_iff_forall_not_mem]
  intro activation listed
  have lower := above activation.vector
    ((serviced.inService activation.vector).mpr ⟨activation, listed, rfl⟩)
  rw [priorityClass_device device,
    priorityClass_device (serviced.answers.unanswered_device activation listed)] at lower
  exact Nat.lt_irrefl 2 lower

theorem Serviced.accept (serviced : Serviced target s) (offered : s.lapic.offered = some vector)
    (step : InterruptStep target idt s.cpu (.interrupt vector) cpu) :
    Serviced target
      { s with cpu := cpu, lapic := s.lapic.accept vector, answered := false :: s.answered } := by
  rcases serviced.unanswered_of_offered offered with ⟨device, free⟩
  have pushed := step.interrupted
  have first : unanswered cpu.activations (false :: s.answered) =
      [⟨s.cpu.machine, vector, [], 0⟩] := by
    rw [pushed, unanswered_cons_false, free]
  refine ⟨?_, ?_, ?_, ?_, serviced.registers, ?_⟩
  · rw [pushed]
    exact ⟨⟨fun ended => absurd ended Bool.false_ne_true, fun _ => ⟨device, Or.inl rfl⟩⟩,
      serviced.answers⟩
  · exact Nat.le_of_eq (congrArg List.length first)
  · intro other
    have notBefore : s.lapic.inService other = false := by
      rw [Bool.eq_false_iff, ne_eq, serviced.inService, free]
      simp
    simp only [first, Lapic.accept, Function.update_apply, List.mem_singleton, exists_eq_left]
    by_cases isVector : other = vector
    · simp [isVector]
    · simp [isVector, notBefore, Ne.symm isVector]
  · intro other
    simp only [Lapic.accept, Function.update_apply]
    split_ifs
    · simp
    · exact serviced.requested other
  · have before : s.running = none := by
      rw [Service.running, free]
      rfl
    have bodies := serviced.bodies
    rw [before] at bodies
    have running : ({ s with
        cpu := cpu
        lapic := s.lapic.accept vector
        answered := false :: s.answered } : Service).running = none := by
      simp only [Service.running, first]
      rfl
    rw [running]
    exact bodies

theorem Serviced.spurious (serviced : Serviced target s)
    (step : InterruptStep target idt s.cpu (.interrupt s.lapic.spuriousVector) cpu) :
    Serviced target { s with cpu := cpu, answered := true :: s.answered } := by
  have pushed := step.interrupted
  have same : unanswered cpu.activations (true :: s.answered) =
      unanswered s.cpu.activations s.answered := by
    rw [pushed, unanswered_cons_true]
  have calls : (vectorStub s.lapic.spuriousVector).function = none := by
    rw [serviced.registers.2.2]
    rfl
  refine ⟨?_, ?_, ?_, serviced.requested, serviced.registers, ?_⟩
  · rw [pushed]
    exact ⟨⟨fun _ => Or.inl calls, fun pending => absurd pending.symm Bool.false_ne_true⟩,
      serviced.answers⟩
  · simp only [same]
    exact serviced.single
  · simp only [same]
    exact serviced.inService
  · have running : ({ s with cpu := cpu, answered := true :: s.answered } : Service).running =
        s.running := by
      simp only [Service.running, same]
    rw [running]
    exact serviced.bodies

/-- A function begins where none is running: its interrupt is the one without an end. -/
theorem Serviced.call {function : CFunction} (serviced : Serviced target s)
    (nested : Nested target s.cpu.machine s.cpu.activations)
    (step : InterruptStep target idt s.cpu (.call function) cpu) :
    Serviced target { s with cpu := cpu, history := .begins function :: s.history } := by
  rcases step.called nested with
    ⟨activation, activations, entry, before, notCalled, isFunction, after, outside⟩
  have answers := serviced.answers
  have inService := serviced.inService
  have single := serviced.single
  have bodies := serviced.bodies
  rw [before] at answers inService single
  rw [Service.running, before] at bodies
  rcases answers.cons with ⟨answer, rest, isAnswered, own, others⟩
  rw [isAnswered] at inService single bodies ⊢
  have pending : answer = false := by
    rw [← Bool.not_eq_true]
    intro ended
    rcases own.ended ended with noFunction | called
    · rw [noFunction] at isFunction
      cases isFunction
    · exact called notCalled
  subst pending
  rw [unanswered_cons_false] at inService single bodies
  have first : unanswered cpu.activations (false :: rest) =
      { activation with calls := [function], entry := entry } :: unanswered activations rest := by
    rw [after, unanswered_cons_false]
  refine ⟨?_, ?_, ?_, serviced.requested, serviced.registers, ?_⟩
  · rw [after]
    exact ⟨⟨fun _ => Or.inr (List.cons_ne_nil _ _), fun _ =>
      ⟨(own.pending rfl).1, Or.inr outside⟩⟩, others⟩
  · simp only [first]
    exact single
  · intro vector
    simp only [first]
    rw [inService vector, List.exists_mem_cons_iff, List.exists_mem_cons_iff]
  · have running : Service.running
        ⟨cpu, s.lapic, false :: rest, .begins function :: s.history⟩ = some function := by
      simp only [Service.running, first]
      rfl
    rw [running]
    apply Bodies.begins
    rw [List.head?_cons, Option.bind_some, notCalled] at bodies
    exact bodies

/-- The end of an interrupt takes the only vector out of service. -/
theorem Serviced.endOfInterrupt {activation : Activation} {activations : List Activation}
    {function : CFunction} {calls : List CFunction} {answered : List Bool}
    (serviced : Serviced target s) (running : s.cpu.activations = activation :: activations)
    (isCalled : activation.calls = function :: calls) (pending : s.answered = false :: answered) :
    Serviced target
      { s with
        lapic := lapicResetIrq s.lapic
        answered := true :: answered
        history := .ends function :: s.history } := by
  have answers := serviced.answers
  have single := serviced.single
  have inService := serviced.inService
  have bodies := serviced.bodies
  rw [Service.running, running, pending, unanswered_cons_false, List.head?_cons,
    Option.bind_some, isCalled] at bodies
  rw [running, pending] at answers
  rw [running, pending, unanswered_cons_false] at single inService
  have none : unanswered activations answered = [] := by
    rw [List.length_cons] at single
    exact List.eq_nil_of_length_eq_zero (by omega)
  rw [none] at inService
  have only : ∀ other, s.lapic.inService other = true ↔ other = activation.vector := by
    intro other
    rw [inService other]
    simp [eq_comm]
  have ended : lapicResetIrq s.lapic =
      { s.lapic with
        inService := Function.update s.lapic.inService activation.vector false } :=
    Lapic.endOfInterrupt_single only
  have nothing : unanswered s.cpu.activations (true :: answered) = [] := by
    rw [running, unanswered_cons_true, none]
  refine ⟨?_, ?_, ?_, ?_, ?_, ?_⟩
  · rw [running]
    refine ⟨⟨fun _ => Or.inr ?_, fun pending => absurd pending.symm Bool.false_ne_true⟩, answers.2⟩
    rw [isCalled]
    exact List.cons_ne_nil _ _
  · simp only [nothing]
    exact Nat.zero_le 1
  · intro other
    simp only [nothing, ended, Function.update_apply]
    split_ifs with isVector
    · simp
    · simp [only, isVector]
  · rw [ended]
    exact serviced.requested
  · rw [ended]
    exact serviced.registers
  · have idle : ({ s with
        lapic := lapicResetIrq s.lapic
        answered := true :: answered
        history := .ends function :: s.history } : Service).running = Option.none := by
      simp only [Service.running, nothing]
      rfl
    rw [idle]
    exact Bodies.ends bodies

/-- A handler that returns has written its end. -/
theorem Serviced.iret (serviced : Serviced target s)
    (nested : Nested target s.cpu.machine s.cpu.activations)
    (step : InterruptStep target idt s.cpu .iret cpu) :
    Serviced target { s with cpu := cpu, answered := s.answered.tail } := by
  rcases step.returned nested with ⟨activation, before, calls, eip, inHandler⟩
  have answers := serviced.answers
  have inService := serviced.inService
  have single := serviced.single
  have bodies := serviced.bodies
  rw [before] at answers inService single
  rw [Service.running, before] at bodies
  rcases answers.cons with ⟨answer, rest, isAnswered, own, others⟩
  rw [isAnswered] at inService single bodies ⊢
  have ended : answer = true := by
    rw [← Bool.not_eq_false]
    intro pending
    rcases own.pending pending with ⟨device, notCalled | outside⟩
    · rcases function_device device with ⟨function, isFunction⟩
      rw [calls, isFunction] at notCalled
      cases notCalled
    · exact inHandler outside
  subst ended
  rw [unanswered_cons_true] at inService single bodies
  exact ⟨others.congr eip, single, inService, serviced.requested, serviced.registers, bodies⟩

theorem Serviced.ret (serviced : Serviced target s) (written : s.answered.head? = some true)
    (step : InterruptStep target idt s.cpu .ret cpu) : Serviced target { s with cpu := cpu } :=
  serviced.goes_on step.keeps_activations (serviced.answers.of_written written)

/-- Every step keeps the invariant. -/
theorem Serviced.step (serviced : Serviced target s) (sends : chip.Sends deviceVectors)
    (nested : Nested target s.cpu.machine s.cpu.activations)
    (step : ServiceStep target idt chip s event s') : Serviced target s' := by
  cases step with
  | @line pin vector reported isSent =>
      refine ⟨serviced.answers, serviced.single, serviced.inService, ?_, serviced.registers,
        serviced.bodies⟩
      intro other
      simp only [Lapic.request, Function.update_apply]
      split_ifs with isVector
      · intro _
        rw [isVector]
        exact sends pin reported vector isSent
      · exact serviced.requested other
  | accept offered step => exact serviced.accept offered step
  | spurious step => exact serviced.spurious step
  | instruction step =>
      have goesOn := step.answered_instruction serviced.answers
      exact serviced.goes_on goesOn.1 goesOn.2
  | compiled step =>
      have outside := step.stays_outside
      exact serviced.goes_on outside.1 (serviced.answers.outside outside.2)
  | call step => exact serviced.call nested step
  | endOfInterrupt _ running isCalled pending =>
      exact serviced.endOfInterrupt running isCalled pending
  | ret written step => exact serviced.ret written step
  | iret step => exact serviced.iret nested step

theorem Serviced.init (sends : chip.Sends deviceVectors)
    (starts : (serviceSystem target idt chip).Init s) : Serviced target s := by
  rcases s with ⟨⟨m, activations⟩, lapic, answered, history⟩
  rcases starts with ⟨⟨_, rfl⟩, rfl, rfl, before, rfl, requests, noService⟩
  have spec := lapicInit_spec before
  refine ⟨trivial, Nat.zero_le 1, ?_, ?_, ⟨spec.1, spec.2.1, spec.2.2.1⟩, .start⟩
  · intro vector
    have idle : (lapicInit before).inService vector = false := noService vector
    simp [idle, unanswered]
  · intro vector isRequested
    rcases requests vector isRequested with ⟨pin, reported, isSent⟩
    exact sends pin reported vector isSent

theorem serviced_reached (sends : chip.Sends deviceVectors)
    (reached : (serviceSystem target idt chip).ReachableWhen (ServiceRoom target) s) :
    Serviced target s := by
  induction reached with
  | init starts => exact Serviced.init sends starts
  | step before _ step ih =>
      have nested := nested_reached ((service_simulates target idt chip).reachable before)
      exact ih.step sends nested step

/-- What is offered when nothing is in service is the highest that is requested. -/
theorem Serviced.offered (serviced : Serviced target s)
    (free : unanswered s.cpu.activations s.answered = []) :
    s.lapic.offered = s.lapic.highestRequested := by
  cases highest : s.lapic.highestRequested with
  | none => simp only [Lapic.offered, highest]
  | some vector =>
      rw [Lapic.offered_eq_some]
      have device := serviced.requested vector (Lapic.highestRequested_eq_some.mp highest).1
      refine ⟨highest, serviced.registers.1, ?_, ?_⟩
      · rw [serviced.registers.2.1, priorityClass_device device]
        exact Nat.zero_lt_two
      · intro other otherServed
        rw [serviced.inService, free] at otherServed
        simp at otherServed

end Steps

section Results

variable {info : Acpi} {madt fuel : ℕ} {records : List SavedRecord} {chips after : ℕ → Ioapic}
  {s : Service}

/-- The functions of the devices have the machine for themselves, although interrupts come on top
of each other: from its call to the end of its interrupt none of them is interrupted by another.
This is so for the interrupts of the first IOAPIC as `ioapic_init` and `idt_init` leave it. -/
theorem device_functions_apart (saved : info.SavedMadt madt records)
    (enough : records.length < fuel) (some' : 0 < info.ioapicSize) (narrow : info.ioapicSize < 256)
    (aligned : ∀ i < info.ioapicSize, info.ioapicAddrs i % 4096 = 0)
    (returns : idtInitIoapics fuel info (ioapicInit info chips) = .ok after)
    (reached : (serviceSystem target idt (after (info.ioapicAddrs 0))).ReachableWhen
      (ServiceRoom target) s) :
    Bodies s.running s.history ∧ (unanswered s.cpu.activations s.answered).length ≤ 1 := by
  have sends := idtInit_sends saved enough some' narrow aligned returns
  have serviced := serviced_reached sends reached
  exact ⟨serviced.bodies, serviced.single⟩

/-- No interrupt is held back for good: what is in service are the vectors of the handlers that
have not written their end, and when there is none of these, the highest interrupt that is
requested is offered. -/
theorem lapic_released (saved : info.SavedMadt madt records) (enough : records.length < fuel)
    (some' : 0 < info.ioapicSize) (narrow : info.ioapicSize < 256)
    (aligned : ∀ i < info.ioapicSize, info.ioapicAddrs i % 4096 = 0)
    (returns : idtInitIoapics fuel info (ioapicInit info chips) = .ok after)
    (reached : (serviceSystem target idt (after (info.ioapicAddrs 0))).ReachableWhen
      (ServiceRoom target) s) :
    (∀ vector, s.lapic.inService vector = true ↔
      ∃ activation ∈ unanswered s.cpu.activations s.answered, activation.vector = vector) ∧
      (unanswered s.cpu.activations s.answered = [] →
        s.lapic.offered = s.lapic.highestRequested) := by
  have sends := idtInit_sends saved enough some' narrow aligned returns
  have serviced := serviced_reached sends reached
  exact ⟨serviced.inService, serviced.offered⟩

end Results

section Example

/-- A step of the processor that is no interrupt needs no room. -/
theorem stackRoom_of_quiet {state : InterruptState} {event : InterruptEvent}
    (quiet : ∀ vector, event ≠ .interrupt vector) : StackRoom target state event :=
  fun ⟨vector, same⟩ => absurd same (quiet vector)

/-- A handler of a device runs up to its call, the local APIC beside it. -/
theorem service_to_function {stub : Stub} {function : CFunction} {m : Machine}
    {activation : Activation} {activations : List Activation} {lapic : Lapic}
    {answered : List Bool} {history : List BodyEvent} (code : stub.code = deviceCode function)
    (atStart : m.eip = target.address stub 0)
    (reached : (serviceSystem target idt chip).ReachableWhen (ServiceRoom target)
      ⟨⟨m, activation :: activations⟩, lapic, answered, history⟩) :
    (serviceSystem target idt chip).ReachableWhen (ServiceRoom target)
      ⟨⟨target.atFunction stub function m, { activation with
        calls := function :: activation.calls
        entry := (target.atFunction stub function m).stack.pointer.toNat } :: activations⟩,
        lapic, answered, .begins function :: history⟩ := by
  rcases steps_to_function code atStart with ⟨m₁, m₂, saves, clears, calls⟩
  have quiet : ∀ s event, (∀ vector, event ≠ .interrupt vector) →
      ServiceRoom target s (.processor event) := by
    intro s event noInterrupt seen isSeen
    cases isSeen
    exact stackRoom_of_quiet noInterrupt
  have saved := reached.step_by (.processor .instruction)
    (quiet _ _ fun _ => InterruptEvent.noConfusion) (.instruction saves)
  have cleared := saved.step_by (.processor .instruction)
    (quiet _ _ fun _ => InterruptEvent.noConfusion) (.instruction clears)
  exact cleared.step_by (.processor (.call function))
    (quiet _ _ fun _ => InterruptEvent.noConfusion) (.call calls)

/-- A local APIC behind a reset. -/
def quietLapic : Lapic :=
  ⟨fun _ => 0, fun _ => false, fun _ => false⟩

/-- The local APIC when the timer is in service and the keyboard is waiting. -/
def timerLapic : Lapic :=
  (((lapicInit quietLapic).request 0x20#8).accept 0x20#8).request 0x21#8

/-- The function of the timer has written its end and has not returned. -/
def timerEnded : Service :=
  ⟨⟨timerEnabled, [⟨mainlineMachine, 0x20#8, [.pitTick], timerCalled.stack.pointer.toNat⟩]⟩,
    lapicResetIrq timerLapic, [true], [.ends .pitTick, .begins .pitTick]⟩

/-- In it the keyboard's function has been called. -/
def keyboardBegun : Service :=
  ⟨⟨keyboardCalled, [⟨timerEnabled, 0x21#8, [.ps2IrqFirstPort],
      keyboardCalled.stack.pointer.toNat⟩,
    ⟨mainlineMachine, 0x20#8, [.pitTick], timerCalled.stack.pointer.toNat⟩]⟩,
    (lapicResetIrq timerLapic).accept 0x21#8, [false, true],
    [.begins .ps2IrqFirstPort, .ends .pitTick, .begins .pitTick]⟩

/-- The pins of the timer and of the keyboard. -/
structure Ioapic.SendsTwo (chip : Ioapic) : Prop where
  count : chip.maxRedirectCount = 24
  timer : chip.vector 2 = some 0x20#8
  keyboard : chip.vector 1 = some 0x21#8

theorem timerEnded_reached (sends : chip.SendsTwo) :
    (serviceSystem flatTarget emptyIdt chip).ReachableWhen (ServiceRoom flatTarget)
      timerEnded := by
  have noRoom : ∀ s event, Service.visible s event = none → ServiceRoom flatTarget s event := by
    intro s event unseen seen isSeen
    rw [unseen] at isSeen
    cases isSeen
  have count := sends.count
  have starts : (serviceSystem flatTarget emptyIdt chip).ReachableWhen (ServiceRoom flatTarget)
      ⟨mainlineState, lapicInit quietLapic, [], []⟩ :=
    .init ⟨⟨mainlineMachine_outside, rfl⟩, rfl, rfl, quietLapic, rfl,
      fun _ isRequested => absurd isRequested Bool.false_ne_true, fun _ => rfl⟩
  have requested := starts.step_by (.line 2) (noRoom _ _ rfl) (.line (by omega) sends.timer)
  have accepted := requested.step_by (.accept 0x20#8)
    (fun _ isSeen => by cases isSeen; exact mainlineState_room _)
    (.accept (by decide +kernel) (mainlineState_interrupt (by decide)))
  have called :=
    service_to_function (show Stub.pit.code = deviceCode .pitTick from rfl) rfl accepted
  have outside : flatTarget.point timerCalled.eip = none := flatTarget.point_function .pitTick
  have enabled := called.step_by (.processor .compiled)
    (fun _ isSeen => by cases isSeen; exact stackRoom_of_quiet fun _ => InterruptEvent.noConfusion)
    (.compiled (@InterruptStep.function flatTarget emptyIdt timerCalled timerEnabled
      ⟨mainlineMachine, 0x20#8, [.pitTick], timerCalled.stack.pointer.toNat⟩ [] outside outside
      (Nat.le_refl _) (fun _ _ _ => rfl) rfl))
  have waiting := enabled.step_by (.line 1) (noRoom _ _ rfl) (.line (by omega) sends.keyboard)
  exact waiting.step_by .endOfInterrupt (noRoom _ _ rfl) (.endOfInterrupt outside rfl rfl rfl)

theorem keyboardBegun_reached (sends : chip.SendsTwo) :
    (serviceSystem flatTarget emptyIdt chip).ReachableWhen (ServiceRoom flatTarget)
      keyboardBegun := by
  have accepted := (timerEnded_reached sends).step_by (.accept 0x21#8)
    (fun _ isSeen => by cases isSeen; exact fun _ => by decide +kernel)
    (.accept (by decide +kernel) (.interrupt (by decide) rfl (device_gate (by decide))))
  exact service_to_function (show Stub.ps2First.code = deviceCode .ps2IrqFirstPort from rfl) rfl
    accepted

/-- An IOAPIC whose timer is at pin 2. -/
def oneIoapic : Acpi :=
  { Acpi.init overrideMemory with
    acpiMadtStruct := some 0xC0900000
    ioapicSize := 1
    ioapicAddrs := fun _ => 0xC2801000 }

theorem oneIoapic_aligned (i : ℕ) : oneIoapic.ioapicAddrs i % 4096 = 0 := by
  have first : oneIoapic.ioapicAddrs i = 0xC2801000 := rfl
  rw [first]

theorem oneIoapic_sends : ∃ after,
    idtInitIoapics 3 oneIoapic (ioapicInit oneIoapic secondMasked) = .ok after ∧
      (after (oneIoapic.ioapicAddrs 0)).SendsTwo := by
  have saved : oneIoapic.SavedMadt 0xC0900000 overrideRecords := overrideMemory_saved rfl rfl
  rcases @idtInitIoapics_vector oneIoapic 0xC0900000 3 overrideRecords
    (ioapicInit oneIoapic secondMasked) saved (by decide) (by decide) with
    ⟨after, returns, counts, vectors⟩
  rcases @ioapicInit_vector oneIoapic secondMasked (by decide)
    fun i _ => oneIoapic_aligned i with ⟨count, _⟩
  refine ⟨after, returns, ?_, ?_, ?_⟩
  · rw [counts, count]
    decide
  · rw [vectors 0 (by decide)]
    decide
  · rw [vectors 0 (by decide)]
    decide

/-- The keyboard comes when the timer's function has written its end and has not returned. -/
theorem device_functions_apart_keyboard : ∃ after,
    idtInitIoapics 3 oneIoapic (ioapicInit oneIoapic secondMasked) = .ok after ∧
      (serviceSystem flatTarget emptyIdt (after (oneIoapic.ioapicAddrs 0))).ReachableWhen
        (ServiceRoom flatTarget) keyboardBegun ∧
      keyboardBegun.history = [.begins .ps2IrqFirstPort, .ends .pitTick, .begins .pitTick] ∧
        Bodies (some .ps2IrqFirstPort) keyboardBegun.history := by
  rcases oneIoapic_sends with ⟨after, returns, sends⟩
  have reached := keyboardBegun_reached sends
  exact ⟨after, returns, reached, rfl, (device_functions_apart (overrideMemory_saved rfl rfl)
    (by decide) (by decide) (by decide) (fun i _ => oneIoapic_aligned i) returns reached).1⟩

/-- The end of the timer's interrupt lets the keyboard in. -/
theorem lapic_released_timer : ∃ after,
    idtInitIoapics 3 oneIoapic (ioapicInit oneIoapic secondMasked) = .ok after ∧
      (serviceSystem flatTarget emptyIdt (after (oneIoapic.ioapicAddrs 0))).ReachableWhen
        (ServiceRoom flatTarget) timerEnded ∧
      timerEnded.lapic.offered = timerEnded.lapic.highestRequested ∧
        timerEnded.lapic.highestRequested = some 0x21#8 := by
  rcases oneIoapic_sends with ⟨after, returns, sends⟩
  have reached := timerEnded_reached sends
  exact ⟨after, returns, reached, (lapic_released (overrideMemory_saved rfl rfl) (by decide)
    (by decide) (by decide) (fun i _ => oneIoapic_aligned i) returns reached).2 rfl,
    by decide +kernel⟩

end Example

end Osserver
