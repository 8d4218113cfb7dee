import Osserver.Interrupt.Nesting

/-!
# What the handlers bring back

Every step keeps what the handlers have on the stack, so in any run the `iretd` of a
handler brings back the registers, the flags and the stack of the code that it has
interrupted, whatever the functions of C have done, and however many interrupts have come
in between. Each handler of a device has then called its function exactly once.
-/

namespace Osserver

open Transition

variable {target : Target} {idt : Idt}

section Steps

variable {m m' : Machine} {activation : Activation} {stub : Stub} {index index' : ℕ}
  {instruction : Instruction} {function : CFunction}

/-- The code of a device's handler, instruction by instruction. -/
theorem fetch_device (isFunction : (vectorStub activation.vector).function = some function)
    (point : target.point m.eip = some (vectorStub activation.vector, index))
    (fetched : target.fetch m = some (stub, index', instruction)) :
    stub = vectorStub activation.vector ∧ index' = index ∧
      (deviceCode function)[index]? = some instruction := by
  rcases Target.fetch_eq_some.mp fetched with ⟨atPoint, holds⟩
  rw [point, Option.some.injEq, Prod.mk.injEq] at atPoint
  rcases atPoint with ⟨rfl, rfl⟩
  rw [code_of_function isFunction] at holds
  exact ⟨rfl, rfl, holds⟩

theorem point_device (isFunction : (vectorStub activation.vector).function = some function)
    (inside : index < 5) : target.point (target.address (vectorStub activation.vector) index) =
      some (vectorStub activation.vector, index) := by
  apply target.point_address
  rw [code_of_function isFunction]
  exact inside

/-- An instruction of a handler that is neither a call nor the last one. -/
theorem Activation.Active.goes_on (active : activation.Active target m)
    (fits : activation.Fits target)
    (fetched : target.fetch m = some (stub, index, instruction))
    (noCall : ∀ function, instruction ≠ .call function) (noReturn : instruction ≠ .iretd)
    (executes : target.execute stub index m instruction = some m') :
    activation.Active target m' := by
  cases active with
  | entered isFunction point registers below disabled calls =>
      rcases fetch_device isFunction point fetched with ⟨rfl, rfl, holds⟩
      cases holds
      simp only [Target.execute, Option.some.injEq] at executes
      subst executes
      refine .saved isFunction (point_device isFunction (by decide)) (Or.inl rfl)
        (below_pushad below registers fits.1 rfl rfl) disabled ?_ calls
      intro isTwo
      cases isTwo
  | saved isFunction point isIndex below disabled forward calls =>
      rcases fetch_device isFunction point fetched with ⟨rfl, rfl, holds⟩
      rcases isIndex with rfl | rfl
      · cases holds
        simp only [Target.execute, Option.some.injEq] at executes
        subst executes
        refine .saved isFunction (point_device isFunction (by decide)) (Or.inr rfl)
          ⟨below.pointer, below.has, below.kept, below.ss⟩ ?_ ?_ calls
        · rw [getLsbD_clearFlags _ _ (by decide), disabled]
          rfl
        · intro _
          rw [getLsbD_clearFlags _ _ (by decide)]
          simp [directionMask, directionFlagBit]
      · cases holds
        exact absurd rfl (noCall _)
  | called isFunction outside entry pointer lies kept ss calls =>
      rw [Target.fetch, outside] at fetched
      cases fetched
  | returned isFunction point below calls =>
      rcases fetch_device isFunction point fetched with ⟨rfl, rfl, holds⟩
      cases holds
      have registers := poppedRegisters_eq below
      simp only [Target.execute, Option.some.injEq] at executes
      subst executes
      have isReturn : (vectorStub activation.vector).code[4]? = some .iretd := by
        rw [code_of_function isFunction]
        rfl
      refine .restored (point_device isFunction (by decide)) isReturn registers
        (Machine.Below.drop _ below rfl rfl) ?_
      rw [isFunction]
      exact calls
  | restored point isReturn registers below calls =>
      rcases Target.fetch_eq_some.mp fetched with ⟨atPoint, holds⟩
      rw [point, Option.some.injEq, Prod.mk.injEq] at atPoint
      rcases atPoint with ⟨rfl, rfl⟩
      rw [isReturn, Option.some.injEq] at holds
      exact absurd holds.symm noReturn

/-- A handler calls its function once, with both flags clear. -/
theorem Activation.Active.call (active : activation.Active target m)
    (fits : activation.Fits target)
    (fetched : target.fetch m = some (stub, index, .call function))
    (executes : target.execute stub index m (.call function) = some m') :
    (vectorStub activation.vector).function = some function ∧ activation.calls = [] ∧
      m'.eflags.getLsbD interruptFlagBit = false ∧ m'.eflags.getLsbD directionFlagBit = false ∧
        ({ activation with
          calls := function :: activation.calls
          entry := m'.stack.pointer.toNat } : Activation).Active target m' := by
  cases active with
  | entered isFunction point registers below disabled calls =>
      rcases fetch_device isFunction point fetched with ⟨_, rfl, holds⟩
      cases holds
  | saved isFunction point isIndex below disabled forward calls =>
      rcases fetch_device isFunction point fetched with ⟨rfl, rfl, holds⟩
      rcases isIndex with rfl | rfl
      · cases holds
      · cases holds
        simp only [Target.execute, Option.some.injEq] at executes
        subst executes
        refine ⟨isFunction, calls, disabled, forward rfl, ?_⟩
        have room := fits.1
        have length : activation.context.savedFrame.length = 11 := rfl
        have pointer := below.pointer
        have pushed := @Machine.Below.pushAll _ _ m
          { m with
            stack := m.stack.push (target.address (vectorStub activation.vector) 3)
            eip := target.function function } _ below [_] rfl rfl (by
              rw [List.length_singleton]
              omega)
        refine .called isFunction (target.point_function function) ?_ (Nat.le_refl _) pushed.has
          pushed.kept pushed.ss ?_
        · exact pushed.pointer
        · rw [calls]
  | called isFunction outside entry pointer lies kept ss calls =>
      rw [Target.fetch, outside] at fetched
      cases fetched
  | returned isFunction point below calls =>
      rcases fetch_device isFunction point fetched with ⟨_, rfl, holds⟩
      cases holds
  | restored point isReturn registers below calls =>
      rcases Target.fetch_eq_some.mp fetched with ⟨atPoint, holds⟩
      rw [point, Option.some.injEq, Prod.mk.injEq] at atPoint
      rcases atPoint with ⟨rfl, rfl⟩
      rw [isReturn] at holds
      cases holds

/-- The last instruction brings back what was interrupted. -/
theorem Activation.Active.iret (active : activation.Active target m)
    (fetched : target.fetch m = some (stub, index, .iretd))
    (executes : target.execute stub index m .iretd = some m') :
    activation.context.Resumes target.stackTop.toNat m' ∧
      activation.calls = (vectorStub activation.vector).function.toList := by
  cases active with
  | entered isFunction point registers below disabled calls =>
      rcases fetch_device isFunction point fetched with ⟨_, rfl, holds⟩
      cases holds
  | saved isFunction point isIndex below disabled forward calls =>
      rcases fetch_device isFunction point fetched with ⟨_, rfl, holds⟩
      rcases isIndex with rfl | rfl <;> cases holds
  | called isFunction outside entry pointer lies kept ss calls =>
      rw [Target.fetch, outside] at fetched
      cases fetched
  | returned isFunction point below calls =>
      rcases fetch_device isFunction point fetched with ⟨_, rfl, holds⟩
      cases holds
  | restored point isReturn registers below calls =>
      refine ⟨?_, calls⟩
      have eip : m.stack.word 0 = activation.context.eip :=
        Machine.Below.word [] below
      have cs : m.stack.word 1 = activation.context.cs.setWidth 32 :=
        Machine.Below.word [_] below
      have eflags : m.stack.word 2 = activation.context.eflags :=
        Machine.Below.word [_, _] below
      simp only [Target.execute] at executes
      split_ifs at executes
      rw [Option.some.injEq] at executes
      have stack : m'.stack = m.stack.drop 3 := by
        rw [← executes]
      have dropped : activation.context.Below target.stackTop.toNat m' [] :=
        Machine.Below.drop activation.context.frame (by simpa using below) stack (by
          rw [← executes])
      refine ⟨?_, ⟨?_, ?_⟩, ?_, ?_, ?_, dropped.ss⟩
      · rw [← executes]
        exact registers
      · apply BitVec.eq_of_toNat_eq
        exact dropped.pointer
      · exact dropped.kept
      · rw [← executes]
        exact eip
      · rw [← executes]
        exact eflags
      · rw [← executes]
        simp [cs]

/-- A function of C runs below its return address. -/
theorem Activation.Active.compiled (active : activation.Active target m)
    (fits : activation.Fits target) (outside : target.point m.eip = none)
    (stays : target.point m'.eip = none) (below : m'.stack.pointer.toNat ≤ activation.entry)
    (spares : ∀ place, activation.entry ≤ place → place < target.stackTop.toNat →
      m'.stack.memory place = m.stack.memory place) (segment : m'.ss = m.ss) :
    activation.Active target m' := by
  cases active with
  | called isFunction _ entry pointer lies kept ss calls =>
      have upTo := fits.2
      have width := target.stackTop.isLt
      have length : (target.address (vectorStub activation.vector) 3 ::
          activation.context.savedFrame).length = 12 := rfl
      refine .called isFunction stays entry below ?_ ?_ ?_ calls
      · apply lies.congr (by omega)
        intro place above inside
        exact spares place above (by omega)
      · intro place above inside
        rw [spares place (by omega) inside]
        exact kept place above inside
      · rw [segment]
        exact ss
  | entered _ point | saved _ point | returned _ point | restored point =>
      rw [outside] at point
      cases point

/-- A function of C returns to its handler. -/
theorem Activation.Active.ret (active : activation.Active target m)
    (outside : target.point m.eip = none)
    (balanced : m.stack.pointer.toNat = activation.entry) : activation.Active target m.ret := by
  cases active with
  | called isFunction _ entry pointer lies kept ss calls =>
      have below : activation.context.Below target.stackTop.toNat m
          ([target.address (vectorStub activation.vector) 3] ++ activation.context.savedFrame) := by
        refine ⟨?_, ?_, kept, ss⟩
        · rw [balanced]
          exact entry
        · rw [Stack.Has, balanced]
          exact lies
      have word : m.stack.word 0 = target.address (vectorStub activation.vector) 3 :=
        Machine.Below.word [] below
      refine .returned isFunction ?_ (Machine.Below.drop _ below rfl rfl) calls
      simp only [Machine.ret, word]
      exact point_device isFunction (by decide)
  | entered _ point | saved _ point | returned _ point | restored point =>
      rw [outside] at point
      cases point

end Steps

section Runs

variable {s s' : InterruptState} {event : InterruptEvent}

/-- Every step keeps what the handlers rely on. -/
theorem InterruptStep.nested (step : InterruptStep target idt s event s')
    (permitted : StackRoom target s event) (nested : Nested target s.machine s.activations) :
    Nested target s'.machine s'.activations := by
  cases step with
  | interrupt device enabled found =>
      have room := permitted ⟨_, rfl⟩
      exact ⟨room, .deliver device found (Nat.le_trans (show 12 ≤ 48 by decide) room.1), nested⟩
  | @instruction m m' activations stub index instruction fetched noCall noReturn executes =>
      cases activations with
      | nil =>
          rw [Nested] at nested
          rw [Target.fetch, nested] at fetched
          cases fetched
      | cons activation activations =>
          exact ⟨nested.1, nested.2.1.goes_on nested.1 fetched noCall noReturn executes, nested.2.2⟩
  | call fetched executes =>
      exact ⟨nested.1, (nested.2.1.call nested.1 fetched executes).2.2.2.2, nested.2.2⟩
  | iret fetched executes =>
      exact nested.2.2.resumes (nested.2.1.iret fetched executes).1
  | mainline outside stays => exact stays
  | function outside stays below spares segment =>
      exact ⟨nested.1, nested.2.1.compiled nested.1 outside stays below spares segment,
        nested.2.2⟩
  | ret outside balanced =>
      exact ⟨nested.1, nested.2.1.ret outside balanced, nested.2.2⟩

theorem nested_reached
    (reached : (interruptSystem target idt).ReachableWhen (StackRoom target) s) :
    Nested target s.machine s.activations := by
  induction reached with
  | init starts =>
      rw [starts.2]
      exact starts.1
  | step _ permitted step ih => exact step.nested permitted ih

/-- What is below an interrupt stays there until its handler returns. -/
theorem InterruptStep.deep (step : InterruptStep target idt s event s')
    {above below : List Activation} {activation : Activation}
    (holds : s.activations = above ++ activation :: below)
    (stays : event = .iret → below.length + 1 < s.activations.length) :
    ∃ above activation', s'.activations = above ++ activation' :: below ∧
      activation'.context = activation.context ∧ activation'.vector = activation.vector := by
  cases step with
  | interrupt => exact ⟨_ :: above, activation, congrArg (List.cons _) holds, rfl, rfl⟩
  | instruction => exact ⟨above, activation, holds, rfl, rfl⟩
  | call =>
      cases above with
      | nil =>
          rw [List.nil_append, List.cons.injEq] at holds
          rcases holds with ⟨rfl, rfl⟩
          exact ⟨[], _, rfl, rfl, rfl⟩
      | cons top above =>
          rw [List.cons_append, List.cons.injEq] at holds
          exact ⟨_ :: above, activation, congrArg (List.cons _) holds.2, rfl, rfl⟩
  | iret =>
      have deeper := stays rfl
      rw [holds, List.length_append, List.length_cons] at deeper
      cases above with
      | nil =>
          rw [List.length_nil] at deeper
          omega
      | cons top above =>
          rw [List.cons_append, List.cons.injEq] at holds
          exact ⟨above, activation, holds.2, rfl, rfl⟩
  | mainline =>
      cases above <;> cases holds
  | function => exact ⟨above, activation, holds, rfl, rfl⟩
  | ret => exact ⟨above, activation, holds, rfl, rfl⟩

end Runs

/-- An interrupt brings back what it has interrupted: in any run with room on the stack in which its
handler returns, with the interrupts that come in between, the general registers, the flags, `cs`,
`ss` and the stack are then what they were, and the code goes on where it was. -/
theorem interrupt_transparent {s s₁ s₂ s' : InterruptState} {vector : BitVec 8}
    (reached : (interruptSystem target idt).ReachableWhen (StackRoom target) s)
    (room : StackRoom target s (.interrupt vector))
    (comes : InterruptStep target idt s (.interrupt vector) s₁)
    (goesOn : ((interruptSystem target idt).startingAt s₁).ReachableWhen
      (fun state event => StackRoom target state event ∧
        (event = .iret → s.activations.length + 1 < state.activations.length)) s₂)
    (isLast : s₂.activations.length = s.activations.length + 1)
    (returns : InterruptStep target idt s₂ .iret s') :
    s.machine.Resumes target.stackTop.toNat s'.machine ∧ s'.activations = s.activations := by
  have reachedFirst := reached.step room comes
  have reachedLast := reachedFirst.go_on (fun _ _ both => both.1) goesOn
  have deep : ∃ above activation, s₂.activations = above ++ activation :: s.activations ∧
      activation.context = s.machine := by
    clear isLast returns reachedLast
    induction goesOn with
    | init starts =>
        rw [starts]
        cases comes
        exact ⟨[], _, rfl, rfl⟩
    | step _ permitted step ih =>
        rcases ih with ⟨above, activation, holds, context⟩
        rcases step.deep holds permitted.2 with ⟨above', activation', holds', context', _⟩
        exact ⟨above', activation', holds', context'.trans context⟩
  rcases deep with ⟨above, activation, holds, context⟩
  have nested := nested_reached reachedLast
  rw [holds, List.length_append, List.length_cons] at isLast
  have noneAbove : above = [] := List.eq_nil_of_length_eq_zero (by omega)
  rw [noneAbove, List.nil_append] at holds
  cases returns with
  | iret fetched executes =>
      rw [List.cons.injEq] at holds
      rcases holds with ⟨rfl, rfl⟩
      have resumed := (nested.2.1.iret fetched executes).1
      rw [context] at resumed
      exact ⟨resumed, rfl⟩

/-- The handler of a device calls the function of its vector once, with the interrupt flag and the
direction flag clear, and has called it when it returns. The other handlers call nothing. -/
theorem interrupt_handler_once {s s' : InterruptState} {event : InterruptEvent}
    (reached : (interruptSystem target idt).ReachableWhen (StackRoom target) s)
    (step : InterruptStep target idt s event s') :
    (∀ function, event = .call function → ∃ activation activations,
      s.activations = activation :: activations ∧ activation.calls = [] ∧
        (vectorStub activation.vector).function = some function ∧
          s'.machine.eflags.getLsbD interruptFlagBit = false ∧
            s'.machine.eflags.getLsbD directionFlagBit = false) ∧
      (event = .iret → ∃ activation activations, s.activations = activation :: activations ∧
        activation.calls = (vectorStub activation.vector).function.toList) := by
  have nested := nested_reached reached
  refine ⟨?_, ?_⟩
  · rintro function rfl
    cases step with
    | call fetched executes =>
        have calls := nested.2.1.call nested.1 fetched executes
        exact ⟨_, _, rfl, calls.2.1, calls.1, calls.2.2.1, calls.2.2.2.1⟩
  · rintro rfl
    cases step with
    | iret fetched executes =>
        exact ⟨_, _, rfl, (nested.2.1.iret fetched executes).2⟩

section Example

/-- A number for each label. -/
def Stub.number : Stub → ℕ
  | .defaultException => 0
  | .defaultInterrupt => 1
  | .pit => 2
  | .ps2First => 3
  | .ps2Second => 4
  | .exceptHandle => 5
  | .spurious => 6
  | .exception number => 7 + number

def numberedStub : ℕ → Option Stub
  | 0 => some .defaultException
  | 1 => some .defaultInterrupt
  | 2 => some .pit
  | 3 => some .ps2First
  | 4 => some .ps2Second
  | 5 => some .exceptHandle
  | 6 => some .spurious
  | n + 7 => if small : n < 20 then some (.exception ⟨n, small⟩) else none

theorem numberedStub_number (stub : Stub) : numberedStub stub.number = some stub := by
  cases stub with
  | exception number =>
      rw [Stub.number, Nat.add_comm, numberedStub, dif_pos number.isLt]
  | _ => rfl

theorem Stub.number_lt (stub : Stub) : stub.number < 27 := by
  cases stub with
  | exception number =>
      have small := number.isLt
      rw [Stub.number]
      omega
  | _ => decide

theorem length_code_le (stub : Stub) : stub.code.length ≤ 11 := by
  cases stub with
  | exception number =>
      rw [Stub.code, exceptionCode]
      split_ifs <;> simp
  | _ => decide

/-- The instruction at an address, when each label has 16 addresses from 0x1000 on. -/
def flatPoint (address : BitVec 32) : Option (Stub × ℕ) :=
  if 0x1000 ≤ address.toNat then
    (numberedStub ((address.toNat - 0x1000) / 16)).bind (fun stub =>
      if (address.toNat - 0x1000) % 16 < stub.code.length then
        some (stub, (address.toNat - 0x1000) % 16)
      else none)
  else none

def flatTarget : Target where
  address stub index := BitVec.ofNat 32 (0x1000 + 16 * stub.number + index)
  point := flatPoint
  function
    | .pitTick => 0x8000#32
    | .ps2IrqFirstPort => 0x8010#32
    | .ps2IrqSecondPort => 0x8020#32
    | .handleException => 0x8030#32
  stackTop := 0xA000#32
  extendsSegments := true
  point_address := by
    intro stub index inside
    have few := stub.number_lt
    have short := length_code_le stub
    have address : (BitVec.ofNat 32 (0x1000 + 16 * stub.number + index)).toNat =
        0x1000 + 16 * stub.number + index := by
      rw [BitVec.toNat_ofNat]
      omega
    have number : (0x1000 + 16 * stub.number + index - 0x1000) / 16 = stub.number := by omega
    have rest : (0x1000 + 16 * stub.number + index - 0x1000) % 16 = index := by omega
    rw [flatPoint, address, if_pos (by omega), number, rest, numberedStub_number]
    simp only [Option.bind_some, if_pos inside]
  point_function function' := by
    cases function' <;> decide +kernel
  notNull stub := by
    have few := stub.number_lt
    intro null
    have zero := congrArg BitVec.toNat null
    rw [BitVec.toNat_ofNat] at zero
    simp only [BitVec.toNat_ofNat] at zero
    omega

/-- Some code that can be interrupted. -/
def mainlineMachine : Machine where
  registers _ := 0#32
  stack := ⟨0x9000#32, fun _ => 0⟩
  eip := 0x7000#32
  eflags := 0x202#32
  cs := 0x8#16
  ss := 0x10#16

def mainlineState : InterruptState :=
  ⟨mainlineMachine, []⟩

/-- No descriptors yet. -/
def emptyIdt : Idt :=
  fun _ => ⟨0, 0, 0, 0, 0⟩

theorem mainlineMachine_outside : flatTarget.point mainlineMachine.eip = none := by
  decide +kernel

theorem mainlineState_reached :
    (interruptSystem flatTarget emptyIdt).ReachableWhen (StackRoom flatTarget) mainlineState :=
  .init ⟨mainlineMachine_outside, rfl⟩

theorem mainlineState_room (event : InterruptEvent) : StackRoom flatTarget mainlineState event :=
  fun _ => by decide

/-- The gate of an interrupt, in the example. -/
def exampleGate (vector : BitVec 8) : Gate :=
  ⟨flatTarget.address (vectorStub vector) 0, gdtCodeSelector, ClearsFlag vector⟩

theorem mainlineState_interrupt {vector : BitVec 8} (device : 32 ≤ vector.toNat) :
    InterruptStep flatTarget emptyIdt mainlineState (.interrupt vector)
      ⟨mainlineMachine.deliver (exampleGate vector), [⟨mainlineMachine, vector, [], 0⟩]⟩ :=
  .interrupt device rfl (device_gate device)

/-- The processor at the function that a handler calls, behind `pushad`, `cld` and `call`. -/
def Target.atFunction (target : Target) (stub : Stub) (function : CFunction) (m : Machine) :
    Machine :=
  { m with
    stack := (m.stack.pushAll m.allRegisters).push (target.address stub 3)
    eip := target.function function
    eflags := clearFlags directionMask m.eflags }

/-- The processor at the `iretd` of a handler, behind `popad`. -/
def Target.atReturn (target : Target) (stub : Stub) (m : Machine) : Machine :=
  { m with
    registers := m.poppedRegisters
    stack := m.stack.drop 8
    eip := target.address stub 4 }

section Handler

variable {start : InterruptState} {later : InterruptState → InterruptEvent → Prop}
  {stub : Stub} {function : CFunction} {m : Machine} {activation : Activation}
  {activations : List Activation}

/-- A handler of a device runs up to its call. -/
theorem steps_to_function (code : stub.code = deviceCode function)
    (atStart : m.eip = target.address stub 0) : ∃ m₁ m₂,
      InterruptStep target idt ⟨m, activation :: activations⟩ .instruction
        ⟨m₁, activation :: activations⟩ ∧
      InterruptStep target idt ⟨m₁, activation :: activations⟩ .instruction
        ⟨m₂, activation :: activations⟩ ∧
      InterruptStep target idt ⟨m₂, activation :: activations⟩ (.call function)
        ⟨target.atFunction stub function m, { activation with
          calls := function :: activation.calls
          entry := (target.atFunction stub function m).stack.pointer.toNat } :: activations⟩ := by
  let saved : Machine :=
    { m with stack := m.stack.pushAll m.allRegisters, eip := target.address stub 1 }
  let cleared : Machine :=
    { saved with eflags := clearFlags directionMask m.eflags, eip := target.address stub 2 }
  refine ⟨saved, cleared, ?_, ?_, ?_⟩
  · exact .instruction (@Target.fetch_address target _ stub 0 _ atStart (by rw [code]; rfl))
      (fun _ => Instruction.noConfusion) Instruction.noConfusion rfl
  · exact .instruction (@Target.fetch_address target _ stub 1 _ rfl (by rw [code]; rfl))
      (fun _ => Instruction.noConfusion) Instruction.noConfusion rfl
  · exact .call (@Target.fetch_address target _ stub 2 _ rfl (by rw [code]; rfl)) rfl

theorem runs_to_function
    (calm : ∀ state event, (∀ vector, event ≠ .interrupt vector) → event ≠ .iret →
      later state event)
    (code : stub.code = deviceCode function) (atStart : m.eip = target.address stub 0)
    (reached : ((interruptSystem target idt).startingAt start).ReachableWhen later
      ⟨m, activation :: activations⟩) :
    ((interruptSystem target idt).startingAt start).ReachableWhen later
      ⟨target.atFunction stub function m, { activation with
        calls := function :: activation.calls
        entry := (target.atFunction stub function m).stack.pointer.toNat } :: activations⟩ := by
  rcases steps_to_function code atStart with ⟨m₁, m₂, saves, clears, calls⟩
  have quiet : ∀ state, later state .instruction :=
    fun state => calm state .instruction (fun _ => InterruptEvent.noConfusion)
      InterruptEvent.noConfusion
  have saved := reached.step_by .instruction (quiet _) saves
  have cleared := saved.step_by .instruction (quiet _) clears
  exact cleared.step_by (.call function)
    (calm _ _ (fun _ => InterruptEvent.noConfusion) InterruptEvent.noConfusion) calls

/-- When its function has returned, it runs up to its end. -/
theorem runs_to_return
    (calm : ∀ state event, (∀ vector, event ≠ .interrupt vector) → event ≠ .iret →
      later state event)
    (code : stub.code = deviceCode function) (outside : target.point m.eip = none)
    (balanced : m.stack.pointer.toNat = activation.entry)
    (returns : m.ret.eip = target.address stub 3)
    (reached : ((interruptSystem target idt).startingAt start).ReachableWhen later
      ⟨m, activation :: activations⟩) :
    ((interruptSystem target idt).startingAt start).ReachableWhen later
      ⟨target.atReturn stub m.ret, activation :: activations⟩ := by
  have behind := reached.step_by .ret
    (calm _ _ (fun _ => InterruptEvent.noConfusion) InterruptEvent.noConfusion)
    (.ret outside balanced)
  exact behind.step_by .instruction
    (calm _ _ (fun _ => InterruptEvent.noConfusion) InterruptEvent.noConfusion)
    (.instruction (@Target.fetch_address target _ stub 3 _ returns (by rw [code]; rfl))
      (fun _ => Instruction.noConfusion) Instruction.noConfusion rfl)

end Handler

/-- The interrupt of the timer has come, and its function is called. -/
def timerCalled : Machine :=
  flatTarget.atFunction .pit .pitTick (mainlineMachine.deliver (exampleGate 0x20#8))

/-- The function has set the interrupt flag. -/
def timerEnabled : Machine :=
  { timerCalled with eflags := 0x202#32 }

/-- In that function the interrupt of the keyboard has come, and its function is called. -/
def keyboardCalled : Machine :=
  flatTarget.atFunction .ps2First .ps2IrqFirstPort (timerEnabled.deliver (exampleGate 0x21#8))

/-- Its handler has returned to the function of the timer. -/
def timerResumed : Machine :=
  let m := flatTarget.atReturn .ps2First keyboardCalled.ret
  { m with
    eip := m.stack.word 0
    cs := (m.stack.word 1).setWidth 16
    eflags := m.stack.word 2
    stack := m.stack.drop 3 }

/-- An interrupt of the timer, and one of the keyboard on top of it. -/
theorem interrupt_transparent_nested : ∃ s₁ s₂ s',
    InterruptStep flatTarget emptyIdt mainlineState (.interrupt 0x20#8) s₁ ∧
      ((interruptSystem flatTarget emptyIdt).startingAt s₁).Reachable s₂ ∧
        InterruptStep flatTarget emptyIdt s₂ .iret s' ∧
          mainlineMachine.Resumes 0xA000 s'.machine := by
  let later : InterruptState → InterruptEvent → Prop := fun state event =>
    StackRoom flatTarget state event ∧ (event = .iret → 0 + 1 < state.activations.length)
  have calm : ∀ state event, (∀ vector, event ≠ .interrupt vector) → event ≠ .iret →
      later state event := by
    intro state event noInterrupt noReturn
    exact ⟨fun ⟨vector, same⟩ => absurd same (noInterrupt vector),
      fun same => absurd same noReturn⟩
  have comes := @mainlineState_interrupt 0x20#8 (by decide)
  have timer := @runs_to_function flatTarget emptyIdt _ _ .pit .pitTick
    (mainlineMachine.deliver (exampleGate 0x20#8)) ⟨mainlineMachine, 0x20#8, [], 0⟩ [] calm rfl rfl
    (.init rfl)
  have outside : flatTarget.point timerCalled.eip = none := flatTarget.point_function .pitTick
  have enables := @InterruptStep.function flatTarget emptyIdt timerCalled timerEnabled
    ⟨mainlineMachine, 0x20#8, [.pitTick], timerCalled.stack.pointer.toNat⟩ []
    outside outside (Nat.le_refl _) (fun _ _ _ => rfl) rfl
  have enabled := timer.step_by .compiled
    (calm _ _ (fun _ => InterruptEvent.noConfusion) InterruptEvent.noConfusion) enables
  have comesToo := enabled.step_by (.interrupt 0x21#8)
    ⟨fun _ => by decide +kernel, InterruptEvent.noConfusion⟩
    (.interrupt (by decide) rfl (device_gate (by decide)))
  have keyboard := @runs_to_function flatTarget emptyIdt _ _ .ps2First .ps2IrqFirstPort
    (timerEnabled.deliver (exampleGate 0x21#8)) _ _ calm rfl rfl comesToo
  have ended := @runs_to_return flatTarget emptyIdt _ _ .ps2First .ps2IrqFirstPort keyboardCalled
    _ _ calm rfl (flatTarget.point_function .ps2IrqFirstPort) rfl (by decide +kernel) keyboard
  have flags : (flatTarget.atReturn .ps2First keyboardCalled.ret).eflags.getLsbD nestedTaskBit =
      false := by decide +kernel
  have goesBack : flatTarget.execute .ps2First 4 (flatTarget.atReturn .ps2First keyboardCalled.ret)
      .iretd = some timerResumed := by
    rw [Target.execute, flags]
    rfl
  have resumed := ended.step_by .iret
    ⟨fun ⟨_, same⟩ => InterruptEvent.noConfusion same, fun _ => by decide⟩
    (.iret (Target.fetch_address rfl rfl) goesBack)
  have last := @runs_to_return flatTarget emptyIdt _ _ .pit .pitTick timerResumed _ _ calm rfl
    (by decide +kernel) (by decide +kernel) (by decide +kernel) resumed
  have flagsToo : (flatTarget.atReturn .pit timerResumed.ret).eflags.getLsbD nestedTaskBit =
      false := by decide +kernel
  have returns := @InterruptStep.iret flatTarget emptyIdt
    (flatTarget.atReturn .pit timerResumed.ret) _
    ⟨mainlineMachine, 0x20#8, [.pitTick], timerCalled.stack.pointer.toNat⟩ [] _ _
    (Target.fetch_address rfl rfl) (by rw [Target.execute, flagsToo]; rfl)
  exact ⟨_, _, _, comes, last.reachable, returns, (interrupt_transparent mainlineState_reached
    (mainlineState_room _) comes last rfl returns).1⟩

/-- An interrupt of the timer. -/
theorem interrupt_handler_once_timer : ∃ s s',
    InterruptStep flatTarget emptyIdt s (.call .pitTick) s' ∧
      s'.machine.eflags.getLsbD interruptFlagBit = false := by
  have comes := @mainlineState_interrupt 0x20#8 (by decide)
  rcases @steps_to_function flatTarget emptyIdt .pit .pitTick
    (mainlineMachine.deliver (exampleGate 0x20#8)) ⟨mainlineMachine, 0x20#8, [], 0⟩ [] rfl rfl with
    ⟨m₁, m₂, pushes, clears, calls⟩
  have first := mainlineState_reached.step (mainlineState_room _) comes
  have second := first.step_by .instruction (fun ⟨_, other⟩ => by cases other) pushes
  have third := second.step_by .instruction (fun ⟨_, other⟩ => by cases other) clears
  rcases (interrupt_handler_once third calls).1 _ rfl with ⟨_, _, _, _, _, disabled, _⟩
  exact ⟨_, _, calls, disabled⟩

end Example

end Osserver
