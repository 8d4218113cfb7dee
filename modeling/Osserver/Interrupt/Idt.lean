import Osserver.Acpi.Remap
import Osserver.Interrupt.Ioapic

/-!
# The descriptors of the interrupts

The model of `idt_set_entry`, `idt_set_handler` and `idt_init` of `i386/pc/idt.c`, and of
`ioapic_all_set_entry`, which `idt_init` calls. The addresses of the handlers of `idt.asm`
are the linker's. What the processor makes of a descriptor is a gate, and what an IOAPIC
makes of a redirection entry is a vector: a line of a device has its handler when the two
fit together.
-/

namespace Osserver

/-- `idt_interrupt_type`. -/
inductive IdtInterruptType where
  | task
  | interrupt
  | trap
  deriving DecidableEq

def IdtInterruptType.bits : IdtInterruptType → BitVec 8
  | .task => 0b0101#8
  | .interrupt => 0b1110#8
  | .trap => 0b1111#8

/-- `struct idt_descriptor`. -/
structure IdtDescriptor where
  offset1 : BitVec 16
  selector : BitVec 16
  zero : BitVec 8
  typeAttr : BitVec 8
  offset2 : BitVec 16
  deriving DecidableEq

/-- `idt_descriptors`. -/
abbrev Idt :=
  BitVec 8 → IdtDescriptor

/-- The descriptor that `idt_set_entry` stores. -/
def idtEntry (offset : BitVec 32) (selector : BitVec 16) (type : BitVec 8) : IdtDescriptor where
  offset1 := (offset &&& 0xFFFF#32).setWidth 16
  selector := selector
  zero := 0#8
  typeAttr := type ||| 0b10000000#8
  offset2 := (offset >>> 16).setWidth 16

/-- `idt_set_entry`. -/
def idtSetEntry (index : BitVec 8) (offset : BitVec 32) (selector : BitVec 16) (type : BitVec 8)
    (idt : Idt) : Idt :=
  Function.update idt index (idtEntry offset selector type)

/-- `__gdt_get_code_selector`. -/
def gdtCodeSelector : BitVec 16 :=
  0x8#16

/-- `idt_set_handler`. -/
def idtSetHandler (interrupt : BitVec 8) (type : IdtInterruptType) (handler : BitVec 32)
    (idt : Idt) : Idt :=
  if handler ≠ 0#32 then idtSetEntry interrupt handler gdtCodeSelector type.bits idt
  else idtSetEntry interrupt 0#32 0#16 0#8 idt

/-- The addresses of the handlers of `idt.asm`. -/
structure IdtHandlers where
  exceptions : ℕ → BitVec 32
  defaultException : BitVec 32
  defaultInterrupt : BitVec 32
  spurious : BitVec 32
  pit : BitVec 32
  ps2First : BitVec 32
  ps2Second : BitVec 32

/-- A loop of `idt_init`: the same type for `count` interrupts, from `first` on. -/
def idtSetHandlers (first count : ℕ) (type : IdtInterruptType) (handler : ℕ → BitVec 32)
    (idt : Idt) : Idt :=
  (List.range count).foldl
    (fun idt i => idtSetHandler (BitVec.ofNat 8 (first + i)) type (handler (first + i)) idt) idt

/-- `idt_init`, the descriptors. -/
def idtInit (handlers : IdtHandlers) (idt : Idt) : Idt :=
  let idt := idtSetHandlers 0 20 .interrupt handlers.exceptions idt
  let idt := idtSetHandlers 20 12 .interrupt (fun _ => handlers.defaultException) idt
  let idt := idtSetHandlers 32 224 .trap (fun _ => handlers.defaultInterrupt) idt
  let idt := idtSetHandler 0xFF#8 .interrupt handlers.spurious idt
  let idt := idtSetHandler 0x20#8 .interrupt handlers.pit idt
  let idt := idtSetHandler 0x21#8 .interrupt handlers.ps2First idt
  idtSetHandler 0x22#8 .interrupt handlers.ps2Second idt

/-- `ioapic_all_set_entry`. -/
def ioapicAllSetEntry (info : Acpi) (index data : ℕ) (chips : ℕ → Ioapic) : ℕ → Ioapic :=
  (List.range info.ioapicSize).foldl (fun chips i => ioapicSetEntry info i index data chips) chips

/-- What `idt_init` does for a line: `ioapic_all_set_entry(acpi_remap_irq(irq), vector)`. -/
def idtInitLine (fuel : ℕ) (s : Acpi) (irq vector : ℕ) (chips : ℕ → Ioapic) :
    Except Halt (ℕ → Ioapic) :=
  match acpiRemapIrq fuel s irq with
  | .error halt => .error halt
  | .ok index => .ok (ioapicAllSetEntry s (index % 2 ^ 8) vector chips)

/-- `idt_init`, the IOAPICs: `IRQ_TIMER`, and the lines of the two ports. -/
def idtInitIoapics (fuel : ℕ) (s : Acpi) (chips : ℕ → Ioapic) : Except Halt (ℕ → Ioapic) :=
  match idtInitLine fuel s 0x02 0x20 chips with
  | .error halt => .error halt
  | .ok chips =>
      match idtInitLine fuel s 1 0x21 chips with
      | .error halt => .error halt
      | .ok chips => idtInitLine fuel s 12 0x22 chips

/-- A present gate: where the handler is, and whether the interrupt flag is cleared for it. -/
structure Gate where
  offset : BitVec 32
  selector : BitVec 16
  clearsFlag : Bool
  deriving DecidableEq

/-- The gate that the processor takes a descriptor for. -/
def IdtDescriptor.gate (descriptor : IdtDescriptor) : Option Gate :=
  if descriptor.typeAttr.getLsbD 7 then
    if descriptor.typeAttr &&& 0b11111#8 = 0b1110#8 then
      some ⟨descriptor.offset2 ++ descriptor.offset1, descriptor.selector, true⟩
    else if descriptor.typeAttr &&& 0b11111#8 = 0b1111#8 then
      some ⟨descriptor.offset2 ++ descriptor.offset1, descriptor.selector, false⟩
    else none
  else none

/-- The vector that an IOAPIC sends for a pin: its entry must not be masked, and be of the fixed
delivery mode. -/
def Ioapic.vector (chip : Ioapic) (pin : ℕ) : Option (BitVec 8) :=
  if chip.registers (0x10 + pin * 2) / 2 ^ 16 % 2 = 0 ∧
      chip.registers (0x10 + pin * 2) / 2 ^ 8 % 8 = 0 then
    some (BitVec.ofNat 8 (chip.registers (0x10 + pin * 2)))
  else none

section Gates

variable {offset : BitVec 32} {selector : BitVec 16} {type : IdtInterruptType} {idt : Idt}
  {first count : ℕ} {handler : ℕ → BitVec 32} {index vector : BitVec 8}

theorem idtEntry_offset (offset : BitVec 32) (selector : BitVec 16) (type : BitVec 8) :
    (idtEntry offset selector type).offset2 ++ (idtEntry offset selector type).offset1 = offset := by
  apply BitVec.eq_of_getLsbD_eq
  intro i inside
  simp only [idtEntry, BitVec.getLsbD_append, BitVec.getLsbD_setWidth, BitVec.getLsbD_and,
    BitVec.getLsbD_ushiftRight]
  by_cases low : i < 16
  · have ones : (0xFFFF#32).getLsbD i = true := by
      revert i
      decide
    simp [low, ones]
  · have high : 16 + (i - 16) = i := by omega
    have below : i - 16 < 16 := by omega
    simp [low, high, below]

/-- A handler that is set is what the processor finds. -/
theorem gate_idtSetHandler (present : offset ≠ 0#32) (isGate : type ≠ .task) :
    (idtSetHandler index type offset idt index).gate =
      some ⟨offset, gdtCodeSelector, type = .interrupt⟩ := by
  rw [idtSetHandler, if_pos present, idtSetEntry, Function.update_self, IdtDescriptor.gate,
    idtEntry_offset]
  cases type with
  | task => exact absurd rfl isGate
  | interrupt | trap => simp [idtEntry, IdtInterruptType.bits]

theorem idtSetHandler_of_ne (different : vector ≠ index) :
    idtSetHandler index type offset idt vector = idt vector := by
  rw [idtSetHandler]
  split_ifs <;> exact Function.update_of_ne different _ _

/-- A loop sets the interrupts that it passes, and leaves the others alone. -/
theorem idtSetHandlers_apply (narrow : first + count ≤ 256) (vector : BitVec 8) :
    idtSetHandlers first count type handler idt vector =
      if first ≤ vector.toNat ∧ vector.toNat < first + count then
        idtSetHandler vector type (handler vector.toNat) idt vector
      else idt vector := by
  induction count with
  | zero => simp [idtSetHandlers]
  | succ count ih =>
      rw [idtSetHandlers, List.range_succ, List.foldl_append, List.foldl_cons, List.foldl_nil]
      have before := ih (by omega)
      rw [idtSetHandlers] at before
      by_cases last : vector = BitVec.ofNat 8 (first + count)
      · have number : vector.toNat = first + count := by
          rw [last, BitVec.toNat_ofNat]
          omega
        have passed : first ≤ vector.toNat ∧ vector.toNat < first + (count + 1) := by omega
        rw [if_pos passed, number, ← last]
        simp only [idtSetHandler, idtSetEntry]
        split_ifs <;> simp only [Function.update_self]
      · have other : vector.toNat ≠ first + count := by
          intro same
          apply last
          rw [← same, BitVec.ofNat_toNat, BitVec.setWidth_eq]
        rw [idtSetHandler_of_ne last, before]
        have sameRange : (first ≤ vector.toNat ∧ vector.toNat < first + count) ↔
            first ≤ vector.toNat ∧ vector.toNat < first + (count + 1) := by omega
        simp only [sameRange]

end Gates

namespace IdtHandlers

/-- The linker puts nothing at `NULL`. -/
structure Linked (handlers : IdtHandlers) : Prop where
  exceptions : ∀ i < 20, handlers.exceptions i ≠ 0#32
  defaultException : handlers.defaultException ≠ 0#32
  defaultInterrupt : handlers.defaultInterrupt ≠ 0#32
  spurious : handlers.spurious ≠ 0#32
  pit : handlers.pit ≠ 0#32
  ps2First : handlers.ps2First ≠ 0#32
  ps2Second : handlers.ps2Second ≠ 0#32

/-- The handler of an interrupt. -/
def ofVector (handlers : IdtHandlers) (vector : BitVec 8) : BitVec 32 :=
  if vector = 0x22#8 then handlers.ps2Second
  else if vector = 0x21#8 then handlers.ps2First
  else if vector = 0x20#8 then handlers.pit
  else if vector = 0xFF#8 then handlers.spurious
  else if 32 ≤ vector.toNat then handlers.defaultInterrupt
  else if 20 ≤ vector.toNat then handlers.defaultException
  else handlers.exceptions vector.toNat

end IdtHandlers

/-- The interrupts that are handled with the interrupt flag cleared. -/
def ClearsFlag (vector : BitVec 8) : Prop :=
  vector.toNat < 32 ∨ vector = 0x20#8 ∨ vector = 0x21#8 ∨ vector = 0x22#8 ∨ vector = 0xFF#8

instance decidableClearsFlag (vector : BitVec 8) : Decidable (ClearsFlag vector) :=
  inferInstanceAs (Decidable (_ ∨ _))

/-- Every interrupt has a gate behind `idt_init`: an interrupt gate for the exceptions and the
devices, and a trap gate for the others. -/
theorem idtInit_gate {handlers : IdtHandlers} (linked : handlers.Linked) (idt : Idt)
    (vector : BitVec 8) : (idtInit handlers idt vector).gate =
      some ⟨handlers.ofVector vector, gdtCodeSelector, ClearsFlag vector⟩ := by
  have below := vector.isLt
  simp only [idtInit, IdtHandlers.ofVector]
  by_cases isSecond : vector = 0x22#8
  · subst isSecond
    exact gate_idtSetHandler linked.ps2Second (by decide)
  rw [idtSetHandler_of_ne isSecond, if_neg isSecond]
  by_cases isFirst : vector = 0x21#8
  · subst isFirst
    exact gate_idtSetHandler linked.ps2First (by decide)
  rw [idtSetHandler_of_ne isFirst, if_neg isFirst]
  by_cases isTimer : vector = 0x20#8
  · subst isTimer
    exact gate_idtSetHandler linked.pit (by decide)
  rw [idtSetHandler_of_ne isTimer, if_neg isTimer]
  by_cases isSpurious : vector = 0xFF#8
  · subst isSpurious
    exact gate_idtSetHandler linked.spurious (by decide)
  rw [idtSetHandler_of_ne isSpurious, if_neg isSpurious, idtSetHandlers_apply (by omega)]
  by_cases isDevice : 32 ≤ vector.toNat
  · have noFlag : ¬ClearsFlag vector := by
      rw [ClearsFlag]
      simp [isFirst, isSecond, isTimer, isSpurious, Nat.not_lt.mpr isDevice]
    rw [if_pos ⟨isDevice, by omega⟩, if_pos isDevice,
      gate_idtSetHandler linked.defaultInterrupt (by decide), decide_eq_false noFlag]
    rfl
  · have flag : ClearsFlag vector := Or.inl (by omega)
    rw [if_neg (fun both => isDevice both.1), if_neg isDevice, idtSetHandlers_apply (by omega),
      decide_eq_true flag]
    by_cases isDefault : 20 ≤ vector.toNat
    · rw [if_pos ⟨isDefault, by omega⟩, if_pos isDefault,
        gate_idtSetHandler linked.defaultException (by decide)]
      rfl
    · rw [if_neg (fun both => isDefault both.1), if_neg isDefault, idtSetHandlers_apply (by omega),
        if_pos ⟨Nat.zero_le _, by omega⟩,
        gate_idtSetHandler (linked.exceptions _ (by omega)) (by decide)]
      rfl

end Osserver
