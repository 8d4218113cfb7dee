import Osserver.Interrupt.Idt

/-!
# The local APIC

The model of `generic/sys/interrupt/lapic.c`, with the chip behind its registers. An
interrupt is requested until the processor accepts it, and in service from then on until
the end of an interrupt is written. The processor is only offered interrupts of a higher
priority class than everything that is in service; the class of a vector is its upper half.
-/

namespace Osserver

/-- The registers that are written to, and the bits of the request and the in-service register. -/
structure Lapic where
  registers : ℕ → BitVec 32
  requested : BitVec 8 → Bool
  inService : BitVec 8 → Bool

/-- The registers of `lapic.c` that are used. -/
def lapicTpr : ℕ := 0x80

def lapicEoi : ℕ := 0xB0

def lapicLdr : ℕ := 0xD0

def lapicDfr : ℕ := 0xE0

def lapicSvr : ℕ := 0xF0

/-- The highest vector below a bound whose bit is set. -/
def highestBelow (bits : BitVec 8 → Bool) : ℕ → Option (BitVec 8)
  | 0 => none
  | bound + 1 =>
      if bits (BitVec.ofNat 8 bound) then some (BitVec.ofNat 8 bound) else highestBelow bits bound

def priorityClass (vector : BitVec 8) : ℕ :=
  vector.toNat / 16

namespace Lapic

def highestInService (s : Lapic) : Option (BitVec 8) :=
  highestBelow s.inService 256

def highestRequested (s : Lapic) : Option (BitVec 8) :=
  highestBelow s.requested 256

/-- The class of the task priority register. -/
def taskClass (s : Lapic) : ℕ :=
  (s.registers lapicTpr).toNat / 16 % 16

def enabled (s : Lapic) : Bool :=
  (s.registers lapicSvr).getLsbD 8

/-- The vector of spurious interrupts. -/
def spuriousVector (s : Lapic) : BitVec 8 :=
  (s.registers lapicSvr).setWidth 8

/-- The end of an interrupt: the highest vector in service is no longer so. -/
def endOfInterrupt (s : Lapic) : Lapic :=
  match s.highestInService with
  | none => s
  | some vector => { s with inService := Function.update s.inService vector false }

/-- An IOAPIC sends a vector. -/
def request (s : Lapic) (vector : BitVec 8) : Lapic :=
  { s with requested := Function.update s.requested vector true }

/-- The interrupt that the processor is offered. -/
def offered (s : Lapic) : Option (BitVec 8) :=
  match s.highestRequested with
  | none => none
  | some vector =>
      if s.enabled ∧ s.taskClass < priorityClass vector ∧
          ∀ other ∈ s.highestInService, priorityClass other < priorityClass vector then some vector
      else none

/-- The processor accepts a vector. -/
def accept (s : Lapic) (vector : BitVec 8) : Lapic :=
  { s with
    requested := Function.update s.requested vector false
    inService := Function.update s.inService vector true }

end Lapic

/-- `lapic_write`. -/
def lapicWrite (reg : ℕ) (value : BitVec 32) (s : Lapic) : Lapic :=
  if reg = lapicEoi then s.endOfInterrupt
  else { s with registers := Function.update s.registers reg value }

/-- `lapic_init`. -/
def lapicInit (s : Lapic) : Lapic :=
  let s := lapicWrite lapicTpr 0 s
  let s := lapicWrite lapicDfr 0xFFFFFFFF#32 s
  let s := lapicWrite lapicLdr 0x01000000#32 s
  lapicWrite lapicSvr (0x100#32 ||| 0xFF#32) s

/-- `lapic_reset_irq`. -/
def lapicResetIrq (s : Lapic) : Lapic :=
  lapicWrite lapicEoi 0 s

section Highest

variable {bits : BitVec 8 → Bool} {vector : BitVec 8} {bound : ℕ}

theorem highestBelow_eq_none : highestBelow bits bound = none ↔
    ∀ other : BitVec 8, other.toNat < bound → bits other = false := by
  induction bound with
  | zero => simp [highestBelow]
  | succ bound ih =>
      rw [highestBelow]
      split_ifs with isSet
      · simp only [false_iff]
        intro allClear
        rw [allClear (BitVec.ofNat 8 bound)] at isSet
        · cases isSet
        · rw [BitVec.toNat_ofNat]
          exact Nat.lt_succ_of_le (Nat.mod_le _ _)
      · rw [ih]
        constructor
        · intro clear other inside
          rcases Nat.lt_succ_iff_lt_or_eq.mp inside with below | atBound
          · exact clear other below
          · rw [← atBound, BitVec.ofNat_toNat, BitVec.setWidth_eq] at isSet
            simpa using isSet
        · intro clear other inside
          exact clear other (Nat.lt_succ_of_lt inside)

theorem highestBelow_eq_some (small : bound ≤ 256) : highestBelow bits bound = some vector ↔
    vector.toNat < bound ∧ bits vector = true ∧
      ∀ other : BitVec 8, other.toNat < bound → bits other = true →
        other.toNat ≤ vector.toNat := by
  induction bound with
  | zero => simp [highestBelow]
  | succ bound ih =>
      have number : (BitVec.ofNat 8 bound).toNat = bound := by
        rw [BitVec.toNat_ofNat]
        exact Nat.mod_eq_of_lt small
      rw [highestBelow]
      split_ifs with isSet
      · rw [Option.some.injEq]
        constructor
        · rintro rfl
          refine ⟨?_, isSet, ?_⟩
          · omega
          · intro other inside _
            omega
        · rintro ⟨inside, _, most⟩
          have atLeast := most (BitVec.ofNat 8 bound) (by omega) isSet
          apply BitVec.eq_of_toNat_eq
          omega
      · have notBound : ∀ other : BitVec 8, bits other = true → other.toNat ≠ bound := by
          rintro other otherSet rfl
          rw [BitVec.ofNat_toNat, BitVec.setWidth_eq] at isSet
          exact isSet otherSet
        rw [ih (by omega)]
        constructor
        · rintro ⟨inside, vectorSet, most⟩
          refine ⟨by omega, vectorSet, ?_⟩
          intro other otherInside otherSet
          exact most other (by have := notBound other otherSet; omega) otherSet
        · rintro ⟨inside, vectorSet, most⟩
          refine ⟨by have := notBound vector vectorSet; omega, vectorSet, ?_⟩
          intro other otherInside otherSet
          exact most other (by omega) otherSet

end Highest

namespace Lapic

variable {s : Lapic} {vector : BitVec 8}

theorem highestInService_eq_none :
    s.highestInService = none ↔ ∀ other, s.inService other = false := by
  rw [highestInService, highestBelow_eq_none]
  exact forall_congr' fun other => ⟨fun clear => clear other.isLt, fun clear _ => clear⟩

theorem highestInService_eq_some : s.highestInService = some vector ↔
    s.inService vector = true ∧
      ∀ other, s.inService other = true → other.toNat ≤ vector.toNat := by
  rw [highestInService, highestBelow_eq_some (Nat.le_refl 256), and_iff_right vector.isLt]
  apply and_congr_right
  intro _
  exact forall_congr' fun other => ⟨fun most => most other.isLt, fun most _ => most⟩

theorem highestRequested_eq_some : s.highestRequested = some vector ↔
    s.requested vector = true ∧
      ∀ other, s.requested other = true → other.toNat ≤ vector.toNat := by
  rw [highestRequested, highestBelow_eq_some (Nat.le_refl 256), and_iff_right vector.isLt]
  apply and_congr_right
  intro _
  exact forall_congr' fun other => ⟨fun most => most other.isLt, fun most _ => most⟩

/-- What is offered is requested, and of a higher class than everything in service. -/
theorem offered_eq_some : s.offered = some vector ↔
    s.highestRequested = some vector ∧ s.enabled = true ∧ s.taskClass < priorityClass vector ∧
      ∀ other, s.inService other = true → priorityClass other < priorityClass vector := by
  have classes : (∀ other ∈ s.highestInService, priorityClass other < priorityClass vector) ↔
      ∀ other, s.inService other = true → priorityClass other < priorityClass vector := by
    constructor
    · intro below other otherServed
      cases highest : s.highestInService with
      | none =>
          rw [highestInService_eq_none.mp highest other] at otherServed
          cases otherServed
      | some top =>
          have most := (highestInService_eq_some.mp highest).2 other otherServed
          exact Nat.lt_of_le_of_lt (Nat.div_le_div_right most) (below top highest)
    · intro below other isHighest
      exact below other (highestInService_eq_some.mp isHighest).1
  rw [offered, ← classes]
  cases s.highestRequested with
  | none => simp
  | some top =>
      simp only [Option.ite_none_right_eq_some, Option.some.injEq]
      constructor
      · rintro ⟨admits, rfl⟩
        exact ⟨rfl, admits⟩
      · rintro ⟨rfl, admits⟩
        exact ⟨admits, rfl⟩

/-- The end of the only interrupt in service. -/
theorem endOfInterrupt_single
    (single : ∀ other, s.inService other = true ↔ other = vector) :
    s.endOfInterrupt =
      { s with inService := Function.update s.inService vector false } := by
  have highest : s.highestInService = some vector := by
    rw [highestInService_eq_some]
    refine ⟨(single vector).mpr rfl, ?_⟩
    intro other otherServed
    rw [(single other).mp otherServed]
  rw [endOfInterrupt, highest]

end Lapic

/-- Behind `lapic_init` the chip is enabled, and no class is held back. -/
theorem lapicInit_spec (s : Lapic) :
    (lapicInit s).enabled = true ∧ (lapicInit s).taskClass = 0 ∧
      (lapicInit s).spuriousVector = 0xFF#8 ∧ (lapicInit s).requested = s.requested ∧
        (lapicInit s).inService = s.inService := by
  have registers : (lapicInit s).registers =
      Function.update (Function.update (Function.update (Function.update s.registers lapicTpr 0)
        lapicDfr 0xFFFFFFFF#32) lapicLdr 0x01000000#32) lapicSvr 0x1FF#32 := rfl
  refine ⟨?_, ?_, ?_, rfl, rfl⟩
  · rw [Lapic.enabled, registers, Function.update_self]
    decide
  · rw [Lapic.taskClass, registers, Function.update_of_ne (by decide),
      Function.update_of_ne (by decide), Function.update_of_ne (by decide), Function.update_self]
    rfl
  · rw [Lapic.spuriousVector, registers, Function.update_self]
    decide

end Osserver
