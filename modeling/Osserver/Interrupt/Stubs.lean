import Osserver.Interrupt.Idt
import Osserver.Lib.Stack

/-!
# The code of the handlers

The model of `i386/pc/idt.asm`, with what the processor does for its instructions and when
an interrupt comes. The processor runs in protected mode, and never changes its privilege.
The addresses are the linker's: where each instruction is, and where the functions of C are
that the handlers call.
-/

namespace Osserver

/-- The general registers, but for `esp`. -/
inductive Register where
  | eax
  | ecx
  | edx
  | ebx
  | ebp
  | esi
  | edi
  deriving DecidableEq

inductive SegmentRegister where
  | cs
  | ss
  deriving DecidableEq

/-- The functions of C that the handlers call. -/
inductive CFunction where
  | pitTick
  | ps2IrqFirstPort
  | ps2IrqSecondPort
  | handleException
  deriving DecidableEq

/-- The labels of `idt.asm`. -/
inductive Stub where
  | defaultException
  | defaultInterrupt
  | pit
  | ps2First
  | ps2Second
  | exception (number : Fin 20)
  | exceptHandle
  | spurious
  deriving DecidableEq

/-- The instructions of `idt.asm`. A jump leads to an instruction behind a label. -/
inductive Instruction where
  | pushad
  | popad
  | cld
  | cli
  | call (function : CFunction)
  | iretd
  | pushByte (value : BitVec 8)
  | push (register : Register)
  | pushSegment (segment : SegmentRegister)
  | jmp (stub : Stub) (index : ℕ)
  deriving DecidableEq

/-- The exceptions that the processor pushes an error code for. -/
def HasErrorCode (number : Fin 20) : Prop :=
  number = 8 ∨ number = 10 ∨ number = 11 ∨ number = 12 ∨ number = 13 ∨ number = 14 ∨ number = 17

instance decidableHasErrorCode (number : Fin 20) : Decidable (HasErrorCode number) :=
  inferInstanceAs (Decidable (_ ∨ _))

/-- The handlers of the devices. -/
def deviceCode (function : CFunction) : List Instruction :=
  [.pushad, .cld, .call function, .popad, .iretd]

/-- `exception_handler` and `exception_handler_with_error_code`. -/
def exceptionCode (number : Fin 20) : List Instruction :=
  if HasErrorCode number then
    [.cli, .pushByte (BitVec.ofNat 8 number), .jmp .exceptHandle 0]
  else [.cli, .pushByte 0, .pushByte (BitVec.ofNat 8 number), .jmp .exceptHandle 0]

/-- The instructions behind a label. -/
def Stub.code : Stub → List Instruction
  | .defaultException => [.jmp .defaultException 0]
  | .defaultInterrupt => [.iretd]
  | .pit => deviceCode .pitTick
  | .ps2First => deviceCode .ps2IrqFirstPort
  | .ps2Second => deviceCode .ps2IrqSecondPort
  | .exception number => exceptionCode number
  | .exceptHandle =>
      [.push .edi, .push .esi, .push .ebp, .push .ebx, .push .edx, .push .ecx, .push .eax,
        .pushSegment .ss, .pushSegment .cs, .call .handleException, .jmp .exceptHandle 10]
  | .spurious => [.iretd]

/-- What is particular to a target: where the linker has put the instructions of `idt.asm` and the
functions that they call, where the stack ends, and whether the processor extends a segment
register that it pushes, or leaves the upper half of the word as it was. -/
structure Target where
  address : Stub → ℕ → BitVec 32
  point : BitVec 32 → Option (Stub × ℕ)
  function : CFunction → BitVec 32
  stackTop : BitVec 32
  extendsSegments : Bool
  point_address : ∀ stub index, index < stub.code.length →
    point (address stub index) = some (stub, index)
  point_function : ∀ function', point (function function') = none
  notNull : ∀ stub, address stub 0 ≠ 0#32

/-- What `idt_init` takes for the handlers. -/
def Target.handlers (target : Target) : IdtHandlers where
  exceptions i := if small : i < 20 then target.address (.exception ⟨i, small⟩) 0 else 0#32
  defaultException := target.address .defaultException 0
  defaultInterrupt := target.address .defaultInterrupt 0
  spurious := target.address .spurious 0
  pit := target.address .pit 0
  ps2First := target.address .ps2First 0
  ps2Second := target.address .ps2Second 0

theorem Target.linked (target : Target) : target.handlers.Linked := by
  refine ⟨?_, target.notNull _, target.notNull _, target.notNull _, target.notNull _,
    target.notNull _, target.notNull _⟩
  intro i small
  simp only [handlers, dif_pos small]
  exact target.notNull _

/-- The registers of the processor that the handlers or an interrupt save, and the memory that its
stack is in. The registers for the segments of data and those for floating point are not among
them: no handler touches them, and what a function of C does to them stays. -/
structure Machine where
  registers : Register → BitVec 32
  stack : Stack
  eip : BitVec 32
  eflags : BitVec 32
  cs : BitVec 16
  ss : BitVec 16

/-- Flags by their bits: the interrupt flag, the direction flag, and nested tasks. -/
def interruptFlagBit : ℕ := 9

def directionFlagBit : ℕ := 10

def nestedTaskBit : ℕ := 14

def clearFlags (mask eflags : BitVec 32) : BitVec 32 :=
  eflags &&& ~~~mask

/-- `TF`, `NT`, `RF` and `VM`, which every gate clears. -/
def gateMask : BitVec 32 :=
  0x34100#32

def interruptMask : BitVec 32 :=
  0x200#32

def directionMask : BitVec 32 :=
  0x400#32

namespace Machine

/-- An interrupt or an exception comes. -/
def deliver (m : Machine) (gate : Gate) : Machine :=
  { m with
    stack := m.stack.pushAll [m.eflags, m.cs.setWidth 32, m.eip]
    eip := gate.offset
    cs := gate.selector
    eflags := clearFlags (if gate.clearsFlag then gateMask ||| interruptMask else gateMask)
      m.eflags }

/-- The error code that comes behind. -/
def deliverCode (m : Machine) (code : Option (BitVec 32)) : Machine :=
  match code with
  | none => m
  | some code => { m with stack := m.stack.push code }

def segment (m : Machine) : SegmentRegister → BitVec 16
  | .cs => m.cs
  | .ss => m.ss

/-- `pushad`, in the order in which it pushes. -/
def allRegisters (m : Machine) : List (BitVec 32) :=
  [m.registers .eax, m.registers .ecx, m.registers .edx, m.registers .ebx, m.stack.pointer,
    m.registers .ebp, m.registers .esi, m.registers .edi]

/-- `popad`: the word for `esp` is skipped. -/
def poppedRegisters (m : Machine) : Register → BitVec 32
  | .edi => m.stack.word 0
  | .esi => m.stack.word 1
  | .ebp => m.stack.word 2
  | .ebx => m.stack.word 4
  | .edx => m.stack.word 5
  | .ecx => m.stack.word 6
  | .eax => m.stack.word 7

/-- `ret`. -/
def ret (m : Machine) : Machine :=
  { m with eip := m.stack.word 0, stack := m.stack.drop 1 }

end Machine

/-- The word that is pushed for a segment register. -/
def Target.segmentWord (target : Target) (m : Machine) (segment : SegmentRegister) : BitVec 32 :=
  if target.extendsSegments then (m.segment segment).setWidth 32
  else
    (BitVec.ofNat 32 (Bytes.load32 m.stack.memory (m.stack.pointer - 4#32).toNat) &&& 0xFFFF0000#32)
      ||| (m.segment segment).setWidth 32

/-- What an instruction behind a label does. An `iretd` with the flag for nested tasks set is a
task switch, which is not modelled. -/
def Target.execute (target : Target) (stub : Stub) (index : ℕ) (m : Machine) :
    Instruction → Option Machine
  | .pushad =>
      some { m with
        stack := m.stack.pushAll m.allRegisters
        eip := target.address stub (index + 1) }
  | .popad =>
      some { m with
        registers := m.poppedRegisters
        stack := m.stack.drop 8
        eip := target.address stub (index + 1) }
  | .cld =>
      some { m with
        eflags := clearFlags directionMask m.eflags
        eip := target.address stub (index + 1) }
  | .cli =>
      some { m with
        eflags := clearFlags interruptMask m.eflags
        eip := target.address stub (index + 1) }
  | .call function =>
      some { m with
        stack := m.stack.push (target.address stub (index + 1))
        eip := target.function function }
  | .iretd =>
      if m.eflags.getLsbD nestedTaskBit then none
      else
        some { m with
          eip := m.stack.word 0
          cs := (m.stack.word 1).setWidth 16
          eflags := m.stack.word 2
          stack := m.stack.drop 3 }
  | .pushByte value =>
      some { m with
        stack := m.stack.push (value.signExtend 32)
        eip := target.address stub (index + 1) }
  | .push register =>
      some { m with
        stack := m.stack.push (m.registers register)
        eip := target.address stub (index + 1) }
  | .pushSegment segment =>
      some { m with
        stack := m.stack.push (target.segmentWord m segment)
        eip := target.address stub (index + 1) }
  | .jmp stub index => some { m with eip := target.address stub index }

/-- The instruction of `idt.asm` that comes next. -/
def Target.fetch (target : Target) (m : Machine) : Option (Stub × ℕ × Instruction) :=
  (target.point m.eip).bind (fun place =>
    place.1.code[place.2]?.map (fun instruction => (place.1, place.2, instruction)))

section

variable {target : Target} {m : Machine} {stub : Stub} {index : ℕ} {instruction : Instruction}

theorem Target.fetch_address (atPoint : m.eip = target.address stub index)
    (holds : stub.code[index]? = some instruction) :
    target.fetch m = some (stub, index, instruction) := by
  have inside : index < stub.code.length := by
    rcases List.getElem?_eq_some_iff.mp holds with ⟨inside, -⟩
    exact inside
  simp only [fetch, atPoint, target.point_address stub index inside, Option.bind_some, holds,
    Option.map_some]

theorem Target.fetch_eq_some :
    target.fetch m = some (stub, index, instruction) ↔
      target.point m.eip = some (stub, index) ∧ stub.code[index]? = some instruction := by
  simp only [fetch, Option.bind_eq_some_iff, Option.map_eq_some_iff, Prod.mk.injEq]
  constructor
  · rintro ⟨place, atPlace, found, holds, rfl, rfl, rfl⟩
    exact ⟨atPlace, holds⟩
  · rintro ⟨atPlace, holds⟩
    exact ⟨(stub, index), atPlace, instruction, holds, rfl, rfl, rfl⟩

end

/-- Clearing some flags leaves the others alone. -/
theorem getLsbD_clearFlags (mask eflags : BitVec 32) {bit : ℕ} (narrow : bit < 32) :
    (clearFlags mask eflags).getLsbD bit = (eflags.getLsbD bit && !mask.getLsbD bit) := by
  simp [clearFlags, narrow]

end Osserver
