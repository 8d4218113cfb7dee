import Osserver.Acpi.Madt

/-!
# Where the walks of the MADT come to

The length bytes alone lead from record to record (`recordAt`), and the walk of
`acpi_parse_apic` follows them with its counters as long as no IOAPIC finds more
than 16 others recorded; there the walk stays where it is. A length of 0 holds both
walks as well. They end exactly when they are never held in this way.
-/

namespace Osserver

open Loop Bytes

/-- The record of the given number, counted from 0, that the length bytes lead to. -/
def recordAt (memory : ℕ → UInt8) (first : ℕ) : ℕ → ℕ
  | 0 => first
  | k + 1 => nextRecord memory (recordAt memory first k)

/-- How many of the first records describe IOAPICs. -/
def ioApicsBefore (memory : ℕ → UInt8) (first : ℕ) : ℕ → ℕ
  | 0 => 0
  | k + 1 =>
      ioApicsBefore memory first k +
        if apicHeaderType memory (recordAt memory first k) = ioApic then 1 else 0

/-- The walk is let go on from a record at `start`: its length byte leads to a higher
address. -/
def LeadsOn (memory : ℕ → UInt8) (start : ℕ) : Prop :=
  apicHeaderLength memory start ≠ 0 ∧ start + apicHeaderLength memory start < 2 ^ 32

theorem leadsOn_iff {memory : ℕ → UInt8} {start : ℕ} (word : start < 2 ^ 32) :
    start < nextRecord memory start ↔ LeadsOn memory start := by
  have byte : apicHeaderLength memory start < 256 := (load8 memory (start + 1)).toNat_lt
  rw [nextRecord, LeadsOn]
  generalize apicHeaderLength memory start = length at byte
  omega

namespace Acpi

/-- Mapping the IOAPIC of the record stops the machine. -/
def DevmapFull (s : Acpi) (first k : ℕ) : Prop :=
  apicHeaderType s.memory (recordAt s.memory first k) = ioApic ∧
    1024 ≤ s.devices.kdevmapIndex + ioApicsBefore s.memory first k

/-- The length bytes lead to the record before `stop`, and no record before it stops
the machine. -/
structure ComesTo (s : Acpi) (first stop k : ℕ) : Prop where
  inside : ∀ j ≤ k, recordAt s.memory first j < stop
  mapped : ∀ j < k, ¬s.DevmapFull first j

/-- When the record describes an IOAPIC, at most 16 are recorded already. -/
def Unheld (s : Acpi) (first k : ℕ) : Prop :=
  apicHeaderType s.memory (recordAt s.memory first k) = ioApic →
    s.ioapicSize + ioApicsBefore s.memory first k ≤ 16

/-- The state of the walk of `acpi_parse_apic` before the given number of passes, when
none of them was held. -/
structure WalkAt (s : Acpi) (first k : ℕ) (walk : ApicWalk) : Prop where
  start : walk.start = recordAt s.memory first k
  memory : walk.acpi.memory = s.memory
  size : walk.acpi.ioapicSize = s.ioapicSize + ioApicsBefore s.memory first k
  index : walk.acpi.devices.kdevmapIndex =
    s.devices.kdevmapIndex + ioApicsBefore s.memory first k

theorem ComesTo.previous {s : Acpi} {first stop k : ℕ} (comes : s.ComesTo first stop (k + 1)) :
    s.ComesTo first stop k :=
  ⟨fun j upTo => comes.inside j (Nat.le_succ_of_le upTo),
    fun j earlier => comes.mapped j (Nat.lt_succ_of_lt earlier)⟩

end Acpi

section Pass

variable {stop : ℕ} {walk next : ApicWalk}

theorem parseLocalApic_frame (start : ℕ) (s : Acpi) :
    (parseLocalApic start s).2.memory = s.memory ∧
      (parseLocalApic start s).2.ioapicSize = s.ioapicSize ∧
        (parseLocalApic start s).2.devices = s.devices := by
  rw [parseLocalApic]
  split
  · exact ⟨rfl, rfl, rfl⟩
  · exact ⟨rfl, rfl, rfl⟩

theorem parseIoApic_room {start : ℕ} {s : Acpi} (room : s.devices.kdevmapIndex < 1024) :
    ∃ s', (parseIoApic start s).2 = .ok s' ∧ s'.memory = s.memory ∧
      s'.acpiCpuCount = s.acpiCpuCount ∧ s'.acpiCpuIds = s.acpiCpuIds ∧
        s'.ioapicSize = (s.ioapicSize + 1) % 2 ^ 8 ∧
          s'.devices.kdevmapIndex = s.devices.kdevmapIndex + 1 ∧
            s'.ioapicAddrs = Function.update s.ioapicAddrs s.ioapicSize
              (deviceAddress s.devices.kdevmapIndex) ∧
              s'.devices.Maps (deviceAddress s.devices.kdevmapIndex)
                (ioApicAddress s.memory start) ∧
                ∀ address other, s.devices.Maps address other → s'.devices.Maps address other := by
  rcases kernelMapDeviceMap_room (ioApicAddress s.memory start) room with
    ⟨devices, maps, index, mapped, kept⟩
  simp only [parseIoApic, maps]
  exact ⟨_, rfl, rfl, rfl, rfl, rfl, index, rfl, mapped, kept⟩

theorem parseIoApic_full {start : ℕ} {s : Acpi} (full : 1024 ≤ s.devices.kdevmapIndex) :
    (parseIoApic start s).2 =
      .error (.kpanic "Cannot reserve device page: devmap full") := by
  simp only [parseIoApic, kernelMapDeviceMap_full _ full]

/-- What a pass of `acpi_parse_apic` that goes on does: it is held, or it moves to the
next record and counts an IOAPIC that it has recorded. -/
theorem acpiParseApicBody_again (goesOn : acpiParseApicBody stop walk = .again next) :
    walk.start < stop ∧ next.acpi.memory = walk.acpi.memory ∧
      ((apicHeaderType walk.acpi.memory walk.start = ioApic ∧ 16 < walk.acpi.ioapicSize ∧
          next = walk) ∨
        (next.start = nextRecord walk.acpi.memory walk.start ∧
          apicHeaderType walk.acpi.memory walk.start = ioApic ∧ walk.acpi.ioapicSize ≤ 16 ∧
            walk.acpi.devices.kdevmapIndex < 1024 ∧
              next.acpi.ioapicSize = walk.acpi.ioapicSize + 1 ∧
                next.acpi.devices.kdevmapIndex = walk.acpi.devices.kdevmapIndex + 1) ∨
        (next.start = nextRecord walk.acpi.memory walk.start ∧
          apicHeaderType walk.acpi.memory walk.start ≠ ioApic ∧
            next.acpi.ioapicSize = walk.acpi.ioapicSize ∧
              next.acpi.devices = walk.acpi.devices)) := by
  simp only [acpiParseApicBody, acpiParseApicPass] at goesOn
  split_ifs at goesOn with inside isLocal isIoApic full
  · rcases parseLocalApic_frame walk.start walk.acpi with ⟨memory, size, devices⟩
    cases goesOn
    refine ⟨inside, memory, Or.inr (Or.inr ⟨rfl, ?_, size, devices⟩)⟩
    rw [isLocal]
    decide
  · cases goesOn
    exact ⟨inside, rfl, Or.inl ⟨isIoApic, full, rfl⟩⟩
  · have notFull := Nat.not_lt.mp full
    rcases Nat.lt_or_ge walk.acpi.devices.kdevmapIndex 1024 with room | noRoom
    · rcases @parseIoApic_room walk.start walk.acpi room with
        ⟨s', parses, memory, _, _, size, index, _⟩
      simp only [parses] at goesOn
      cases goesOn
      refine ⟨inside, memory, Or.inr (Or.inl ⟨rfl, isIoApic, notFull, room, ?_, index⟩)⟩
      rw [size]
      omega
    · simp only [parseIoApic_full noRoom] at goesOn
      cases goesOn
  · cases goesOn
    exact ⟨inside, rfl, Or.inr (Or.inr ⟨rfl, isIoApic, rfl, rfl⟩)⟩

theorem acpiParseApicBody_held (inside : walk.start < stop)
    (isIoApic : apicHeaderType walk.acpi.memory walk.start = ioApic)
    (full : 16 < walk.acpi.ioapicSize) : acpiParseApicBody stop walk = .again walk := by
  have notLocal : apicHeaderType walk.acpi.memory walk.start ≠ localApic := by
    rw [isIoApic]
    decide
  simp only [acpiParseApicBody, acpiParseApicPass, if_pos inside, if_neg notLocal, if_pos isIoApic,
    gt_iff_lt, if_pos full]

/-- A pass at a record inside the table goes on unless mapping an IOAPIC stops the
machine. -/
theorem acpiParseApicBody_inside (inside : walk.start < stop) :
    (∃ next, acpiParseApicBody stop walk = .again next) ∨
      (apicHeaderType walk.acpi.memory walk.start = ioApic ∧ walk.acpi.ioapicSize ≤ 16 ∧
        1024 ≤ walk.acpi.devices.kdevmapIndex) := by
  simp only [acpiParseApicBody, acpiParseApicPass, if_pos inside]
  split_ifs with isLocal isIoApic full
  · exact Or.inl ⟨_, rfl⟩
  · exact Or.inl ⟨_, rfl⟩
  · rcases Nat.lt_or_ge walk.acpi.devices.kdevmapIndex 1024 with room | noRoom
    · rcases @parseIoApic_room walk.start walk.acpi room with ⟨s', parses, _⟩
      simp only [parses]
      exact Or.inl ⟨_, rfl⟩
    · exact Or.inr ⟨isIoApic, Nat.not_lt.mp full, noRoom⟩
  · exact Or.inl ⟨_, rfl⟩

end Pass

section Walk

variable {s : Acpi} {first stop k : ℕ} {walk : ApicWalk}

theorem Acpi.WalkAt.next {next : ApicWalk} (walkAt : s.WalkAt first k walk)
    (unheld : s.Unheld first k) (goesOn : acpiParseApicBody stop walk = .again next) :
    ¬s.DevmapFull first k ∧ next.start = recordAt s.memory first (k + 1) ∧
      s.WalkAt first (k + 1) next := by
  rcases walkAt with ⟨start, memory, size, index⟩
  rcases acpiParseApicBody_again goesOn with ⟨_, kept, held | recorded | passed⟩
  · rcases held with ⟨isIoApic, full, _⟩
    rw [memory, start] at isIoApic
    have notFull := unheld isIoApic
    omega
  · rcases recorded with ⟨moved, isIoApic, _, room, counted, nextIndex⟩
    rw [memory, start] at moved isIoApic
    refine ⟨fun full => ?_, moved, moved, kept.trans memory, ?_, ?_⟩
    · have noRoom := full.2
      omega
    · rw [counted, size, ioApicsBefore, if_pos isIoApic, Nat.add_assoc]
    · rw [nextIndex, index, ioApicsBefore, if_pos isIoApic, Nat.add_assoc]
  · rcases passed with ⟨moved, notIoApic, sameSize, sameDevices⟩
    rw [memory, start] at moved notIoApic
    refine ⟨fun full => notIoApic full.1, moved, moved, kept.trans memory, ?_, ?_⟩
    · rw [sameSize, size, ioApicsBefore, if_neg notIoApic, Nat.add_zero]
    · rw [sameDevices, index, ioApicsBefore, if_neg notIoApic, Nat.add_zero]

/-- The walk comes to every record it can come to, when it is never held. -/
theorem Acpi.ComesTo.walkAt (comes : s.ComesTo first stop k) (unheld : ∀ j < k, s.Unheld first j) :
    ∃ walk, before (acpiParseApicBody stop) k ⟨first, s⟩ = some walk ∧ s.WalkAt first k walk := by
  induction k with
  | zero => exact ⟨⟨first, s⟩, rfl, rfl, rfl, rfl, rfl⟩
  | succ k ih =>
      rcases ih comes.previous (fun j earlier => unheld j (Nat.lt_succ_of_lt earlier)) with
        ⟨walk, reached, walkAt⟩
      have inside : walk.start < stop := by
        rw [walkAt.start]
        exact comes.inside k (Nat.le_succ k)
      rcases acpiParseApicBody_inside inside with ⟨next, goesOn⟩ | ⟨isIoApic, _, noRoom⟩
      · rcases walkAt.next (unheld k (Nat.lt_succ_self k)) goesOn with ⟨_, _, nextAt⟩
        exact ⟨next, before_succ reached goesOn, nextAt⟩
      · rw [walkAt.memory, walkAt.start] at isIoApic
        rw [walkAt.index] at noRoom
        exact absurd ⟨isIoApic, noRoom⟩ (comes.mapped k (Nat.lt_succ_self k))

theorem comesTo_of_before (reached : before (acpiParseApicBody stop) k ⟨first, s⟩ = some walk)
    (unheld : ∀ j < k, s.ComesTo first stop j → s.Unheld first j) :
    (∀ j < k, recordAt s.memory first j < stop ∧ ¬s.DevmapFull first j) ∧
      s.WalkAt first k walk := by
  induction k generalizing walk with
  | zero =>
      cases reached
      exact ⟨by simp, rfl, rfl, rfl, rfl⟩
  | succ k ih =>
      rcases exists_before_of_succ reached with ⟨previous, reachedPrevious, goesOn⟩
      rcases ih reachedPrevious (fun j earlier => unheld j (Nat.lt_succ_of_lt earlier)) with
        ⟨passed, previousAt⟩
      have inside : recordAt s.memory first k < stop := by
        rw [← previousAt.start]
        exact (acpiParseApicBody_again goesOn).1
      have comes : s.ComesTo first stop k := by
        refine ⟨?_, fun j earlier => (passed j earlier).2⟩
        intro j upTo
        rcases Nat.eq_or_lt_of_le upTo with same | earlier
        · rw [same]
          exact inside
        · exact (passed j earlier).1
      rcases previousAt.next (unheld k (Nat.lt_succ_self k) comes) goesOn with
        ⟨notFull, _, walkAt⟩
      refine ⟨?_, walkAt⟩
      intro j earlier
      rcases Nat.lt_succ_iff_lt_or_eq.mp earlier with before | same
      · exact passed j before
      · rw [same]
        exact ⟨inside, notFull⟩

theorem comesTo_of_inside (reached : before (acpiParseApicBody stop) k ⟨first, s⟩ = some walk)
    (inside : walk.start < stop) (unheld : ∀ j < k, s.ComesTo first stop j → s.Unheld first j) :
    s.ComesTo first stop k ∧ s.WalkAt first k walk := by
  rcases comesTo_of_before reached unheld with ⟨passed, walkAt⟩
  refine ⟨⟨?_, fun j earlier => (passed j earlier).2⟩, walkAt⟩
  intro j upTo
  rcases Nat.eq_or_lt_of_le upTo with same | earlier
  · rw [same, ← walkAt.start]
    exact inside
  · exact (passed j earlier).1

end Walk

namespace Acpi

/-- Every record that `acpi_parse_apic` comes to lets its walk go on: the table of
IOAPICs does not count as full, and the length leads to a higher address. -/
def ParseLeadsOn (s : Acpi) (madt : ℕ) : Prop :=
  ∀ k, s.ComesTo (firstRecord madt) (endOfRecords s.memory madt) k →
    s.Unheld (firstRecord madt) k ∧ (¬s.DevmapFull (firstRecord madt) k →
      LeadsOn s.memory (recordAt s.memory (firstRecord madt) k))

/-- Every record that `acpi_remap_irq` comes to, and that is not the override it looks
for, leads to a higher address. -/
def RemapLeadsOn (s : Acpi) (madt irq : ℕ) : Prop :=
  ∀ k, (∀ j ≤ k, recordAt s.memory (firstRecord madt) j < endOfRecords s.memory madt ∧
      ¬(apicHeaderType s.memory (recordAt s.memory (firstRecord madt) j) = interruptOverride ∧
        (overrideSource s.memory (recordAt s.memory (firstRecord madt) j)).toNat = irq)) →
    LeadsOn s.memory (recordAt s.memory (firstRecord madt) k)

end Acpi

theorem endOfRecords_lt (memory : ℕ → UInt8) (madt : ℕ) : endOfRecords memory madt < 2 ^ 32 :=
  Nat.mod_lt _ (by omega)

theorem parse_advances_iff {s : Acpi} {madt : ℕ} :
    Advances (acpiParseApicBody (endOfRecords s.memory madt)) ApicWalk.start
        ⟨firstRecord madt, s⟩ ↔ s.ParseLeadsOn madt := by
  have word := endOfRecords_lt s.memory madt
  constructor
  · intro advances k
    induction k using Nat.strong_induction_on with
    | _ k ih =>
        intro comes
        have unheld : ∀ j < k, s.Unheld (firstRecord madt) j := by
          intro j earlier
          refine (ih j earlier ⟨?_, ?_⟩).1
          · exact fun i upTo => comes.inside i (Nat.le_trans upTo (Nat.le_of_lt earlier))
          · exact fun i before => comes.mapped i (Nat.lt_trans before earlier)
        rcases comes.walkAt unheld with ⟨walk, reached, walkAt⟩
        have here := comes.inside k (Nat.le_refl k)
        have inside : walk.start < endOfRecords s.memory madt := by
          rw [walkAt.start]
          exact here
        rcases acpiParseApicBody_inside inside with ⟨next, goesOn⟩ | ⟨isIoApic, notFull, noRoom⟩
        · have moved := advances.forward walk next ⟨k, reached⟩ goesOn
          rcases acpiParseApicBody_again goesOn with ⟨_, _, held | recorded | passed⟩
          · rw [held.2.2] at moved
            exact absurd moved (Nat.lt_irrefl _)
          · rw [recorded.1, walkAt.memory, walkAt.start] at moved
            refine ⟨fun _ => ?_, fun _ => (leadsOn_iff (Nat.lt_trans here word)).mp moved⟩
            rw [← walkAt.size]
            exact recorded.2.2.1
          · rw [passed.1, walkAt.memory, walkAt.start] at moved
            refine ⟨fun isIoApic => ?_, fun _ => (leadsOn_iff (Nat.lt_trans here word)).mp moved⟩
            rw [← walkAt.start, ← walkAt.memory] at isIoApic
            exact absurd isIoApic passed.2.1
        · rw [walkAt.memory, walkAt.start] at isIoApic
          rw [walkAt.size] at notFull
          rw [walkAt.index] at noRoom
          exact ⟨fun _ => notFull, fun mapped => absurd ⟨isIoApic, noRoom⟩ mapped⟩
  · intro leadsOn
    apply advances_of_forward (fun walk next goesOn => (acpiParseApicBody_again goesOn).1)
    rintro walk next ⟨k, reached⟩ goesOn
    rcases comesTo_of_inside reached (acpiParseApicBody_again goesOn).1
      (fun j _ comes => (leadsOn j comes).1) with ⟨comes, walkAt⟩
    rcases leadsOn k comes with ⟨unheld, moves⟩
    rcases walkAt.next unheld goesOn with ⟨notFull, moved, _⟩
    rw [moved, walkAt.start]
    exact (leadsOn_iff (Nat.lt_trans (comes.inside k (Nat.le_refl k)) word)).mpr (moves notFull)

section Remap

variable {memory : ℕ → UInt8} {stop irq start next first k : ℕ}

theorem acpiRemapIrqBody_again_iff :
    acpiRemapIrqBody memory stop irq start = .again next ↔
      start < stop ∧ ¬(apicHeaderType memory start = interruptOverride ∧
        (overrideSource memory start).toNat = irq) ∧ next = nextRecord memory start := by
  simp only [acpiRemapIrqBody, acpiRemapIrqPass]
  split_ifs with inside isOverride sameIrq
  · simp [isOverride, sameIrq]
  · simp [inside, sameIrq, eq_comm]
  · simp [inside, isOverride, eq_comm]
  · simp [inside]

/-- The walk of `acpi_remap_irq` is at the records that the length bytes lead to. -/
theorem before_acpiRemapIrqBody_iff :
    before (acpiRemapIrqBody memory stop irq) k first = some start ↔
      start = recordAt memory first k ∧ ∀ j < k, recordAt memory first j < stop ∧
        ¬(apicHeaderType memory (recordAt memory first j) = interruptOverride ∧
          (overrideSource memory (recordAt memory first j)).toNat = irq) := by
  induction k generalizing start with
  | zero => simp [before, recordAt, eq_comm]
  | succ k ih =>
      constructor
      · intro reached
        rcases exists_before_of_succ reached with ⟨previous, reachedPrevious, goesOn⟩
        rcases ih.mp reachedPrevious with ⟨rfl, passed⟩
        rcases acpiRemapIrqBody_again_iff.mp goesOn with ⟨inside, notSought, moved⟩
        refine ⟨moved, ?_⟩
        intro j earlier
        rcases Nat.lt_succ_iff_lt_or_eq.mp earlier with before | same
        · exact passed j before
        · rw [same]
          exact ⟨inside, notSought⟩
      · rintro ⟨rfl, passed⟩
        have reached := ih.mpr ⟨rfl, fun j earlier => passed j (Nat.lt_succ_of_lt earlier)⟩
        rcases passed k (Nat.lt_succ_self k) with ⟨inside, notSought⟩
        exact before_succ reached (acpiRemapIrqBody_again_iff.mpr ⟨inside, notSought, rfl⟩)

end Remap

theorem remap_advances_iff {s : Acpi} {madt irq : ℕ} :
    Advances (acpiRemapIrqBody s.memory (endOfRecords s.memory madt) irq) id
        (firstRecord madt) ↔ s.RemapLeadsOn madt irq := by
  have word := endOfRecords_lt s.memory madt
  constructor
  · intro advances k passes
    have reached := before_acpiRemapIrqBody_iff.mpr
      ⟨rfl, fun j earlier => passes j (Nat.le_of_lt earlier)⟩
    rcases passes k (Nat.le_refl k) with ⟨inside, notSought⟩
    have moved := advances.forward _ _ ⟨k, reached⟩
      (acpiRemapIrqBody_again_iff.mpr ⟨inside, notSought, rfl⟩)
    exact (leadsOn_iff (Nat.lt_trans inside word)).mp moved
  · intro leadsOn
    apply advances_of_forward (fun start next goesOn => (acpiRemapIrqBody_again_iff.mp goesOn).1)
    rintro start next ⟨k, reached⟩ goesOn
    rcases before_acpiRemapIrqBody_iff.mp reached with ⟨rfl, passed⟩
    rcases acpiRemapIrqBody_again_iff.mp goesOn with ⟨inside, notSought, rfl⟩
    apply (leadsOn_iff (Nat.lt_trans inside word)).mpr
    apply leadsOn k
    intro j upTo
    rcases Nat.eq_or_lt_of_le upTo with same | earlier
    · rw [same]
      exact ⟨inside, notSought⟩
    · exact passed j earlier

/-- The walk of `acpi_parse_apic` ends, and moves forward in every pass, exactly when
every record it comes to lets it go on, and so does the walk of `acpi_remap_irq`. -/
theorem madt_walks_advance_iff (s : Acpi) (madt : ℕ) :
    (Advances (acpiParseApicBody (endOfRecords s.memory madt)) ApicWalk.start
        ⟨firstRecord madt, s⟩ ↔ s.ParseLeadsOn madt) ∧
    ∀ irq, Advances (acpiRemapIrqBody s.memory (endOfRecords s.memory madt) irq) id
        (firstRecord madt) ↔ s.RemapLeadsOn madt irq :=
  ⟨parse_advances_iff, fun _ => remap_advances_iff⟩

/-- The variables before any table is parsed. -/
def Acpi.init (memory : ℕ → UInt8) : Acpi where
  acpiCpuCount := 0
  acpiCpuIds := fun _ => 0
  lapicAddr := 0
  ioapicSize := 0
  ioapicAddrs := fun _ => 0
  acpiPs2ControllerExists := false
  acpiMadtStruct := none
  devices := ⟨0, fun _ => 0⟩
  memory := memory

/-- A copy of a MADT at 0xC0900000 with one record, of type 0 and length 0. -/
def emptyRecordMemory (address : ℕ) : UInt8 :=
  if address = 0xC0900004 then 52 else 0

/-- A copy of a MADT at 0xC0900000 with 18 records of IOAPICs, 12 bytes each. -/
def manyIoApicsMemory (address : ℕ) : UInt8 :=
  if address = 0xC0900004 then 4
  else if address = 0xC0900005 then 1
  else if address < 0xC090002C then 0
  else if (address - 0xC090002C) % 12 = 0 then 1
  else if (address - 0xC090002C) % 12 = 1 then 12
  else 0

theorem manyIoApics_recordAt {k : ℕ} (upTo : k ≤ 18) :
    recordAt manyIoApicsMemory (firstRecord 0xC0900000) k = 0xC090002C + k * 12 := by
  induction k with
  | zero => rfl
  | succ k ih =>
      have length : apicHeaderLength manyIoApicsMemory (0xC090002C + k * 12) = 12 := by
        have place : (0xC090002C + k * 12 + 1) % 2 ^ 32 = 0xC090002C + k * 12 + 1 := by omega
        rw [apicHeaderLength, load8, place, manyIoApicsMemory, if_neg (by omega),
          if_neg (by omega), if_neg (by omega), if_neg (by omega), if_pos (by omega)]
        rfl
      rw [recordAt, ih (by omega), nextRecord, length]
      omega

theorem manyIoApics_type {k : ℕ} (upTo : k ≤ 18) :
    apicHeaderType manyIoApicsMemory
      (recordAt manyIoApicsMemory (firstRecord 0xC0900000) k) = ioApic := by
  have place : (0xC090002C + k * 12) % 2 ^ 32 = 0xC090002C + k * 12 := by omega
  rw [manyIoApics_recordAt upTo, apicHeaderType, load8, place, manyIoApicsMemory,
    if_neg (by omega), if_neg (by omega), if_neg (by omega), if_pos (by omega)]
  rfl

theorem manyIoApics_before {k : ℕ} (upTo : k ≤ 18) :
    ioApicsBefore manyIoApicsMemory (firstRecord 0xC0900000) k = k := by
  induction k with
  | zero => rfl
  | succ k ih => rw [ioApicsBefore, ih (by omega), if_pos (manyIoApics_type (by omega))]

theorem manyIoApics_comesTo {k : ℕ} (inTable : k < 18) :
    (Acpi.init manyIoApicsMemory).ComesTo (firstRecord 0xC0900000)
      (endOfRecords manyIoApicsMemory 0xC0900000) k := by
  have stop : endOfRecords manyIoApicsMemory 0xC0900000 = 0xC0900104 := by decide
  constructor
  · intro j upTo
    rw [stop]
    simp only [Acpi.init, manyIoApics_recordAt (show j ≤ 18 by omega)]
    omega
  · rintro j earlier ⟨_, full⟩
    simp only [Acpi.init, manyIoApics_before (show j ≤ 18 by omega)] at full
    omega

/-- A record of length 0 holds both walks for ever, and the eighteenth of 18 IOAPICs
holds the walk of `acpi_parse_apic`. -/
theorem madt_walks_held :
    ¬Ends (acpiParseApicBody (endOfRecords emptyRecordMemory 0xC0900000))
        ⟨firstRecord 0xC0900000, .init emptyRecordMemory⟩ ∧
    ¬Ends (acpiRemapIrqBody emptyRecordMemory (endOfRecords emptyRecordMemory 0xC0900000) 2)
        (firstRecord 0xC0900000) ∧
    ¬Ends (acpiParseApicBody (endOfRecords manyIoApicsMemory 0xC0900000))
        ⟨firstRecord 0xC0900000, .init manyIoApicsMemory⟩ := by
  refine ⟨?_, ?_, ?_⟩
  · apply @not_ends_of_cycle _ _ _ _ _ (fun walk => walk.start = 0xC090002C ∧
      walk.acpi.memory = emptyRecordMemory) .refl ⟨rfl, rfl⟩
    rintro walk ⟨start, memory⟩
    have notIoApic : apicHeaderType walk.acpi.memory walk.start ≠ ioApic := by
      rw [start, memory]
      decide
    have inside : walk.start < endOfRecords emptyRecordMemory 0xC0900000 := by
      rw [start]
      decide
    rcases acpiParseApicBody_inside inside with ⟨next, goesOn⟩ | ⟨isIoApic, _⟩
    · refine ⟨next, goesOn, ?_⟩
      rcases acpiParseApicBody_again goesOn with ⟨_, kept, held | recorded | passed⟩
      · exact absurd held.1 notIoApic
      · exact absurd recorded.2.1 notIoApic
      · rw [passed.1, kept, start, memory]
        exact ⟨rfl, rfl⟩
    · exact absurd isIoApic notIoApic
  · apply @not_ends_of_cycle _ _ _ _ _ (fun start => start = 0xC090002C) .refl rfl
    rintro start rfl
    refine ⟨0xC090002C, ?_, rfl⟩
    apply acpiRemapIrqBody_again_iff.mpr
    decide
  · have comes := manyIoApics_comesTo (show 17 < 18 by omega)
    have unheld : ∀ j < 17, (Acpi.init manyIoApicsMemory).Unheld (firstRecord 0xC0900000) j := by
      intro j earlier _
      simp only [Acpi.init, manyIoApics_before (show j ≤ 18 by omega)]
      omega
    rcases comes.walkAt unheld with ⟨walk, reached, walkAt⟩
    have inside : walk.start < endOfRecords manyIoApicsMemory 0xC0900000 := by
      rw [walkAt.start]
      exact comes.inside 17 (Nat.le_refl 17)
    have isIoApic : apicHeaderType walk.acpi.memory walk.start = ioApic := by
      rw [walkAt.memory, walkAt.start]
      exact manyIoApics_type (by omega)
    have full : 16 < walk.acpi.ioapicSize := by
      rw [walkAt.size]
      simp only [Acpi.init, manyIoApics_before (show 17 ≤ 18 by omega)]
      omega
    have held := acpiParseApicBody_held inside isIoApic full
    apply @not_ends_of_cycle _ _ _ _ _ (fun state => state = walk) ⟨17, reached⟩ rfl
    rintro state rfl
    exact ⟨state, held, rfl⟩

end Osserver
