import Osserver.Interrupt.Stubs
import Osserver.Lib.Refinement

/-!
# Interrupts on top of each other

Interrupts come between any two instructions while the interrupt flag is set, also in a
handler: the functions of C that the handlers call may set the flag, and the handlers
behind trap gates never clear it. What a function of C does is its compiler's; it leaves
the stack from its return address on alone, and returns with the pointer there.

The state keeps, beside the processor, how it was when each interrupt came whose handler
has not returned, and which functions that handler has called. No step looks at this.
-/

namespace Osserver

open Transition

/-- An interrupt whose handler has not returned: the processor before it, its vector, the functions
that its handler has called, and where the return address of the last one is. -/
structure Activation where
  context : Machine
  vector : BitVec 8
  calls : List CFunction
  entry : ℕ

structure InterruptState where
  machine : Machine
  activations : List Activation

/-- The handler of a vector of a device. -/
def vectorStub (vector : BitVec 8) : Stub :=
  if vector = 0x22#8 then .ps2Second
  else if vector = 0x21#8 then .ps2First
  else if vector = 0x20#8 then .pit
  else if vector = 0xFF#8 then .spurious
  else .defaultInterrupt

/-- The function that a handler is there to call. -/
def Stub.function : Stub → Option CFunction
  | .pit => some .pitTick
  | .ps2First => some .ps2IrqFirstPort
  | .ps2Second => some .ps2IrqSecondPort
  | .exceptHandle => some .handleException
  | _ => none

inductive InterruptEvent where
  | interrupt (vector : BitVec 8)
  | instruction
  | call (function : CFunction)
  | iret
  | compiled
  | ret
  deriving DecidableEq

variable (target : Target) (idt : Idt)

/-- Steps of the processor behind `idt_init`. The mainline may do anything but jump into a
handler. -/
inductive InterruptStep : InterruptState → InterruptEvent → InterruptState → Prop where
  | interrupt {m : Machine} {activations : List Activation} {vector : BitVec 8} {gate : Gate}
      (device : 32 ≤ vector.toNat) (enabled : m.eflags.getLsbD interruptFlagBit = true)
      (found : (idtInit target.handlers idt vector).gate = some gate) :
      InterruptStep ⟨m, activations⟩ (.interrupt vector)
        ⟨m.deliver gate, ⟨m, vector, [], 0⟩ :: activations⟩
  | instruction {m m' : Machine} {activations : List Activation} {stub : Stub} {index : ℕ}
      {instruction : Instruction}
      (fetched : target.fetch m = some (stub, index, instruction))
      (noCall : ∀ function, instruction ≠ .call function) (noReturn : instruction ≠ .iretd)
      (executes : target.execute stub index m instruction = some m') :
      InterruptStep ⟨m, activations⟩ .instruction ⟨m', activations⟩
  | call {m m' : Machine} {activation : Activation} {activations : List Activation} {stub : Stub}
      {index : ℕ} {function : CFunction}
      (fetched : target.fetch m = some (stub, index, .call function))
      (executes : target.execute stub index m (.call function) = some m') :
      InterruptStep ⟨m, activation :: activations⟩ (.call function)
        ⟨m', { activation with
          calls := function :: activation.calls
          entry := m'.stack.pointer.toNat } :: activations⟩
  | iret {m m' : Machine} {activation : Activation} {activations : List Activation} {stub : Stub}
      {index : ℕ} (fetched : target.fetch m = some (stub, index, .iretd))
      (executes : target.execute stub index m .iretd = some m') :
      InterruptStep ⟨m, activation :: activations⟩ .iret ⟨m', activations⟩
  | mainline {m m' : Machine} (outside : target.point m.eip = none)
      (stays : target.point m'.eip = none) :
      InterruptStep ⟨m, []⟩ .compiled ⟨m', []⟩
  | function {m m' : Machine} {activation : Activation} {activations : List Activation}
      (outside : target.point m.eip = none) (stays : target.point m'.eip = none)
      (below : m'.stack.pointer.toNat ≤ activation.entry)
      (spares : ∀ place, activation.entry ≤ place → place < target.stackTop.toNat →
        m'.stack.memory place = m.stack.memory place) (segment : m'.ss = m.ss) :
      InterruptStep ⟨m, activation :: activations⟩ .compiled ⟨m', activation :: activations⟩
  | ret {m : Machine} {activation : Activation} {activations : List Activation}
      (outside : target.point m.eip = none)
      (balanced : m.stack.pointer.toNat = activation.entry) :
      InterruptStep ⟨m, activation :: activations⟩ .ret ⟨m.ret, activation :: activations⟩

/-- The mainline behind `idt_init`. -/
def interruptSystem : System InterruptState InterruptEvent where
  Init s := target.point s.machine.eip = none ∧ s.activations = []
  Step := InterruptStep target idt

/-- Interrupts come where the stack has room for what a handler pushes. -/
def StackRoom (s : InterruptState) (event : InterruptEvent) : Prop :=
  (∃ vector, event = .interrupt vector) →
    48 ≤ s.machine.stack.pointer.toNat ∧
      s.machine.stack.pointer.toNat ≤ target.stackTop.toNat

/-- The registers and flags of the machine and its stack are as in the context. -/
structure Machine.Resumes (bound : ℕ) (context m : Machine) : Prop where
  registers : m.registers = context.registers
  stack : Stack.Same bound context.stack m.stack
  eip : m.eip = context.eip
  eflags : m.eflags = context.eflags
  cs : m.cs = context.cs
  ss : m.ss = context.ss

/-- What an interrupt pushes. -/
def Machine.frame (context : Machine) : List (BitVec 32) :=
  [context.eip, context.cs.setWidth 32, context.eflags]

/-- What lies on the stack behind `pushad`. -/
def Machine.savedFrame (context : Machine) : List (BitVec 32) :=
  [context.registers .edi, context.registers .esi, context.registers .ebp,
    context.stack.pointer - 12#32, context.registers .ebx, context.registers .edx,
    context.registers .ecx, context.registers .eax] ++ context.frame

/-- The stack of a handler lies below that of the code it has interrupted, with some words
between them. -/
structure Machine.Below (bound : ℕ) (context m : Machine) (words : List (BitVec 32)) : Prop where
  pointer : m.stack.pointer.toNat + 4 * words.length = context.stack.pointer.toNat
  has : m.stack.Has words
  kept : ∀ place, context.stack.pointer.toNat ≤ place → place < bound →
    m.stack.memory place = context.stack.memory place
  ss : m.ss = context.ss

/-- How far a handler has come, and what of the interrupted code is where. -/
inductive Activation.Active (activation : Activation) (m : Machine) : Prop where
  | entered {function : CFunction}
      (isFunction : (vectorStub activation.vector).function = some function)
      (point : target.point m.eip = some (vectorStub activation.vector, 0))
      (registers : m.registers = activation.context.registers)
      (below : activation.context.Below target.stackTop.toNat m activation.context.frame)
      (disabled : m.eflags.getLsbD interruptFlagBit = false) (calls : activation.calls = [])
  | saved {function : CFunction} {index : ℕ}
      (isFunction : (vectorStub activation.vector).function = some function)
      (point : target.point m.eip = some (vectorStub activation.vector, index))
      (isIndex : index = 1 ∨ index = 2)
      (below : activation.context.Below target.stackTop.toNat m activation.context.savedFrame)
      (disabled : m.eflags.getLsbD interruptFlagBit = false)
      (forward : index = 2 → m.eflags.getLsbD directionFlagBit = false)
      (calls : activation.calls = [])
  | called {function : CFunction}
      (isFunction : (vectorStub activation.vector).function = some function)
      (outside : target.point m.eip = none)
      (entry : activation.entry + 48 = activation.context.stack.pointer.toNat)
      (pointer : m.stack.pointer.toNat ≤ activation.entry)
      (lies : Stack.At m.stack.memory activation.entry
        (target.address (vectorStub activation.vector) 3 :: activation.context.savedFrame))
      (kept : ∀ place, activation.context.stack.pointer.toNat ≤ place →
        place < target.stackTop.toNat →
          m.stack.memory place = activation.context.stack.memory place)
      (ss : m.ss = activation.context.ss) (calls : activation.calls = [function])
  | returned {function : CFunction}
      (isFunction : (vectorStub activation.vector).function = some function)
      (point : target.point m.eip = some (vectorStub activation.vector, 3))
      (below : activation.context.Below target.stackTop.toNat m activation.context.savedFrame)
      (calls : activation.calls = [function])
  | restored {index : ℕ}
      (point : target.point m.eip = some (vectorStub activation.vector, index))
      (isReturn : (vectorStub activation.vector).code[index]? = some .iretd)
      (registers : m.registers = activation.context.registers)
      (below : activation.context.Below target.stackTop.toNat m activation.context.frame)
      (calls : activation.calls = (vectorStub activation.vector).function.toList)

/-- The stack that was interrupted lies in the stack, with room below it. -/
def Activation.Fits (activation : Activation) : Prop :=
  48 ≤ activation.context.stack.pointer.toNat ∧
    activation.context.stack.pointer.toNat ≤ target.stackTop.toNat

/-- Each handler has come as far as it must have for what it was interrupted with. -/
def Nested : Machine → List Activation → Prop
  | m, [] => target.point m.eip = none
  | m, activation :: activations =>
      activation.Fits target ∧ activation.Active target m ∧ Nested activation.context activations

section Vectors

variable {target idt} {vector : BitVec 8} {function : CFunction}

theorem code_of_function (isFunction : (vectorStub vector).function = some function) :
    (vectorStub vector).code = deviceCode function := by
  simp only [vectorStub] at isFunction ⊢
  split_ifs at isFunction ⊢ <;> cases isFunction <;> rfl

theorem code_of_none (noFunction : (vectorStub vector).function = none) :
    (vectorStub vector).code = [.iretd] := by
  simp only [vectorStub] at noFunction ⊢
  split_ifs at noFunction ⊢ <;> first | rfl | cases noFunction

/-- The functions are called behind interrupt gates. -/
theorem clearsFlag_of_function (isFunction : (vectorStub vector).function = some function) :
    ClearsFlag vector := by
  simp only [vectorStub] at isFunction
  simp only [ClearsFlag]
  split_ifs at isFunction with second first timer spurious
  · simp [second]
  · simp [first]
  · simp [timer]
  · cases isFunction
  · cases isFunction

/-- The gate of a device leads to the label for its vector. -/
theorem device_gate (device : 32 ≤ vector.toNat) :
    (idtInit target.handlers idt vector).gate =
      some ⟨target.address (vectorStub vector) 0, gdtCodeSelector, ClearsFlag vector⟩ := by
  have handler : target.handlers.ofVector vector = target.address (vectorStub vector) 0 := by
    simp only [IdtHandlers.ofVector, vectorStub, if_pos device]
    split_ifs <;> rfl
  rw [idtInit_gate target.linked, handler]

end Vectors

section Resuming

variable {target} {bound : ℕ} {context m m' : Machine} {words : List (BitVec 32)}
  {activation : Activation} {activations : List Activation}

/-- What lies above the pointer is where it was when the code goes on. -/
theorem Machine.Below.resumes (below : context.Below bound m words)
    (fits : context.stack.pointer.toNat ≤ bound) (word : bound ≤ 2 ^ 32)
    (resumes : m.Resumes bound m') : context.Below bound m' words := by
  have pointer := below.pointer
  refine ⟨?_, below.has.same resumes.stack (by omega) word, ?_, ?_⟩
  · rw [resumes.stack.pointer]
    exact pointer
  · intro place above inside
    rw [resumes.stack.memory place (by omega) inside]
    exact below.kept place above inside
  · rw [resumes.ss]
    exact below.ss

theorem Activation.Active.resumes (active : activation.Active target m)
    (fits : activation.Fits target) (resumes : m.Resumes target.stackTop.toNat m') :
    activation.Active target m' := by
  have word := Nat.le_of_lt target.stackTop.isLt
  cases active with
  | entered isFunction point registers below disabled calls =>
      refine .entered isFunction ?_ ?_ (below.resumes fits.2 word resumes) ?_ calls
      · rw [resumes.eip]
        exact point
      · rw [resumes.registers]
        exact registers
      · rw [resumes.eflags]
        exact disabled
  | saved isFunction point isIndex below disabled forward calls =>
      refine .saved isFunction ?_ isIndex (below.resumes fits.2 word resumes) ?_ ?_ calls
      · rw [resumes.eip]
        exact point
      · rw [resumes.eflags]
        exact disabled
      · rw [resumes.eflags]
        exact forward
  | called isFunction outside entry pointer lies kept ss calls =>
      have upTo := fits.2
      have length : (target.address (vectorStub activation.vector) 3 ::
          activation.context.savedFrame).length = 12 := rfl
      refine .called isFunction ?_ entry ?_ ?_ ?_ ?_ calls
      · rw [resumes.eip]
        exact outside
      · rw [resumes.stack.pointer]
        exact pointer
      · apply lies.congr (by omega)
        intro place above inside
        exact resumes.stack.memory place (by omega) (by omega)
      · intro place above inside
        rw [resumes.stack.memory place (by omega) inside]
        exact kept place above inside
      · rw [resumes.ss]
        exact ss
  | returned isFunction point below calls =>
      refine .returned isFunction ?_ (below.resumes fits.2 word resumes) calls
      rw [resumes.eip]
      exact point
  | restored point isReturn registers below calls =>
      refine .restored ?_ isReturn ?_ (below.resumes fits.2 word resumes) calls
      · rw [resumes.eip]
        exact point
      · rw [resumes.registers]
        exact registers

theorem Nested.resumes (nested : Nested target m activations)
    (resumes : m.Resumes target.stackTop.toNat m') : Nested target m' activations := by
  cases activations with
  | nil =>
      rw [Nested, resumes.eip]
      exact nested
  | cons activation activations =>
      exact ⟨nested.1, nested.2.1.resumes nested.1 resumes, nested.2.2⟩

end Resuming

section Handlers

variable {target idt} {bound : ℕ} {context m m' : Machine} {words more : List (BitVec 32)}
  {activation : Activation} {stub : Stub} {index : ℕ} {instruction : Instruction}

theorem Machine.Below.pushAll (below : context.Below bound m words) (more : List (BitVec 32))
    (pushes : m'.stack = m.stack.pushAll more) (sameSegment : m'.ss = m.ss)
    (room : 4 * more.length ≤ m.stack.pointer.toNat) :
    context.Below bound m' (more.reverse ++ words) := by
  have pointer := below.pointer
  have width := context.stack.pointer.isLt
  refine ⟨?_, ?_, ?_, ?_⟩
  · rw [pushes, Stack.pointer_pushAll room, List.length_append, List.length_reverse]
    omega
  · rw [pushes]
    exact below.has.pushAll room (by omega)
  · intro place above inside
    rw [pushes, Stack.pushAll_above room (by omega)]
    exact below.kept place above inside
  · rw [sameSegment]
    exact below.ss

theorem Machine.Below.drop (words : List (BitVec 32))
    (below : context.Below bound m (words ++ more)) (drops : m'.stack = m.stack.drop words.length)
    (sameSegment : m'.ss = m.ss) :
    context.Below bound m' more := by
  have pointer := below.pointer
  rw [List.length_append] at pointer
  have width := context.stack.pointer.isLt
  have inside : m.stack.pointer.toNat + 4 * words.length < 2 ^ 32 := by omega
  refine ⟨?_, ?_, ?_, ?_⟩
  · rw [drops, Stack.pointer_drop inside]
    omega
  · rw [drops]
    exact below.has.drop inside
  · rw [drops]
    exact below.kept
  · rw [sameSegment]
    exact below.ss

theorem Machine.Below.word (words : List (BitVec 32)) {value : BitVec 32}
    (below : context.Below bound m (words ++ value :: more)) :
    m.stack.word words.length = value := by
  have pointer := below.pointer
  rw [List.length_append] at pointer
  have width := context.stack.pointer.isLt
  exact below.has.word (by omega)

/-- An interrupt comes: its frame is all that lies between the handler and the code. -/
theorem below_deliver (room : 12 ≤ m.stack.pointer.toNat) (gate : Gate) :
    m.Below bound (m.deliver gate) m.frame := by
  have itself : m.Below bound m [] :=
    ⟨rfl, m.stack.has_nil, fun _ _ _ => rfl, rfl⟩
  exact itself.pushAll [m.eflags, m.cs.setWidth 32, m.eip] rfl rfl room

theorem Activation.Active.deliver {vector : BitVec 8} {gate : Gate} (device : 32 ≤ vector.toNat)
    (found : (idtInit target.handlers idt vector).gate = some gate)
    (room : 12 ≤ m.stack.pointer.toNat) :
    (Activation.mk m vector [] 0).Active target (m.deliver gate) := by
  rw [device_gate device, Option.some.injEq] at found
  have eip : (m.deliver gate).eip = target.address (vectorStub vector) 0 := by
    rw [← found]
    rfl
  have point : target.point (m.deliver gate).eip = some (vectorStub vector, 0) := by
    rw [eip]
    apply target.point_address
    cases isFunction : (vectorStub vector).function with
    | none =>
        rw [code_of_none isFunction]
        exact Nat.one_pos
    | some function =>
        rw [code_of_function isFunction]
        exact Nat.succ_pos 4
  cases isFunction : (vectorStub vector).function with
  | none =>
      have isReturn : (vectorStub vector).code[0]? = some .iretd := by
        rw [code_of_none isFunction]
        rfl
      refine .restored point isReturn rfl (below_deliver room gate) ?_
      rw [isFunction]
      rfl
  | some function =>
      have clears : gate.clearsFlag = true := by
        rw [← found]
        exact decide_eq_true (clearsFlag_of_function isFunction)
      refine .entered isFunction point rfl (below_deliver room gate) ?_ rfl
      simp only [Machine.deliver, clears, if_true]
      rw [getLsbD_clearFlags _ _ (by decide)]
      simp [gateMask, interruptMask, interruptFlagBit]

/-- The registers are the interrupted code's when `pushad` is reached, so it saves those. -/
theorem below_pushad (below : context.Below bound m context.frame)
    (registers : m.registers = context.registers) (room : 48 ≤ context.stack.pointer.toNat)
    (pushes : m'.stack = m.stack.pushAll m.allRegisters) (sameSegment : m'.ss = m.ss) :
    context.Below bound m' context.savedFrame := by
  have pointer : m.stack.pointer.toNat + 12 = context.stack.pointer.toNat := below.pointer
  have same : m.stack.pointer = context.stack.pointer - 12#32 := by
    apply BitVec.eq_of_toNat_eq
    have width := context.stack.pointer.isLt
    rw [BitVec.toNat_sub, BitVec.toNat_ofNat]
    omega
  have length : m.allRegisters.length = 8 := rfl
  have pushed := below.pushAll _ pushes sameSegment (by omega)
  have words : m.allRegisters.reverse ++ context.frame = context.savedFrame := by
    simp only [Machine.allRegisters, registers, same, Machine.savedFrame]
    rfl
  rwa [words] at pushed

/-- `popad` finds the registers of the interrupted code. -/
theorem poppedRegisters_eq (below : context.Below bound m context.savedFrame) :
    m.poppedRegisters = context.registers := by
  have word : ∀ words value more, context.savedFrame = words ++ value :: more →
      m.stack.word words.length = value := by
    intro words value more split
    exact Machine.Below.word words (split ▸ below)
  funext register
  cases register with
  | edi => exact word [] _ _ rfl
  | esi => exact word [_] _ _ rfl
  | ebp => exact word [_, _] _ _ rfl
  | ebx => exact word [_, _, _, _] _ _ rfl
  | edx => exact word [_, _, _, _, _] _ _ rfl
  | ecx => exact word [_, _, _, _, _, _] _ _ rfl
  | eax => exact word [_, _, _, _, _, _, _] _ _ rfl

end Handlers

end Osserver
