import Osserver.Acpi.MadtWalk

/-!
# The bounds of the MADT walks

The walk of `acpi_parse_apic` reads a record's type and length, and then the fields
of its type, without a test that the record ends inside the table; and it records
IOAPICs up to a count of 17, one more than there are elements. All its accesses are
in bounds exactly when no record it comes to is cut off by the end of the table and
no seventeenth IOAPIC is recorded.
-/

namespace Osserver

open Loop Bytes

/-- The access is inside the `length` bytes of the table at `madt`, or to one of the 16
elements. -/
def MadtAccess.InBounds (madt length : ℕ) : MadtAccess → Prop
  | .field address width => madt ≤ address ∧ address + width ≤ madt + length
  | .cpuId index => index < 16
  | .ioapicAddr index => index < 16

/-- How far the fields of a record reach that the walk of `acpi_parse_apic` reads. -/
def recordWidth (type : UInt8) : ℕ :=
  if type = localApic then 8
  else if type = ioApic then 12
  else if type = interruptOverride then 10
  else 2

namespace Acpi

/-- Wherever the walk of `acpi_parse_apic` comes to, the counters are at most 16 and
the accesses of the pass are in bounds; and when the walk returns, the accesses of
every later `acpi_remap_irq` are. -/
structure StaysInBounds (s : Acpi) (madt length : ℕ) : Prop where
  counters : ∀ walk, Visits (acpiParseApicBody (endOfRecords s.memory madt))
      ⟨firstRecord madt, s⟩ walk → walk.acpi.acpiCpuCount ≤ 16 ∧ walk.acpi.ioapicSize ≤ 16
  accesses : ∀ walk, Visits (acpiParseApicBody (endOfRecords s.memory madt))
      ⟨firstRecord madt, s⟩ walk →
    ∀ access ∈ (acpiParseApicPass (endOfRecords s.memory madt) walk).1,
      access.InBounds madt length
  remaps : ∀ fuel after, acpiParseApicLoop fuel madt s = .ok after → ∀ irq start,
    Visits (acpiRemapIrqBody after.memory (endOfRecords after.memory madt) irq)
      (firstRecord madt) start →
    ∀ access ∈ (acpiRemapIrqPass after.memory (endOfRecords after.memory madt) irq start).1,
      access.InBounds madt length

/-- No record that the walk comes to is cut off by the end of the table, and the count
of IOAPICs does not come to 17. -/
structure RecordsFit (s : Acpi) (madt length : ℕ) : Prop where
  cpus : s.acpiCpuCount ≤ 16
  ioapics : s.ioapicSize ≤ 16
  fits : ∀ k, s.ComesTo (firstRecord madt) (endOfRecords s.memory madt) k →
    madt ≤ recordAt s.memory (firstRecord madt) k ∧
      recordAt s.memory (firstRecord madt) k +
        recordWidth (apicHeaderType s.memory (recordAt s.memory (firstRecord madt) k)) ≤
          madt + length
  room : ∀ k, s.ComesTo (firstRecord madt) (endOfRecords s.memory madt) k →
    ¬s.DevmapFull (firstRecord madt) k →
      s.ioapicSize + ioApicsBefore s.memory (firstRecord madt) (k + 1) ≤ 16

end Acpi

section Accesses

variable {memory : ℕ → UInt8} {start madt length stop irq : ℕ} {walk next : ApicWalk}

/-- The fields of a record are read inside the table exactly when the record's width
ends there. -/
theorem recordFields_inBounds_iff :
    (∀ access ∈ recordFields memory start, access.InBounds madt length) ↔
      madt ≤ start ∧ start + recordWidth (apicHeaderType memory start) ≤ madt + length := by
  rw [recordFields, recordWidth]
  split_ifs <;> simp [headerFields, MadtAccess.InBounds] <;> omega

theorem headerFields_inBounds (above : madt ≤ start) (fits : start + 2 ≤ madt + length) :
    ∀ access ∈ headerFields start, access.InBounds madt length := by
  simp [headerFields, MadtAccess.InBounds]
  omega

theorem recordWidth_ge (type : UInt8) : 2 ≤ recordWidth type := by
  rw [recordWidth]
  split_ifs <;> omega

theorem parseLocalApic_accesses (start : ℕ) (s : Acpi) :
    ∀ access ∈ (parseLocalApic start s).1, access.InBounds madt length := by
  rw [parseLocalApic]
  split_ifs with room
  · simpa [MadtAccess.InBounds] using room
  · simp

theorem parseIoApic_accesses {s : Acpi} :
    (∀ access ∈ (parseIoApic start s).1, access.InBounds madt length) ↔
      (s.devices.kdevmapIndex < 1024 → s.ioapicSize < 16) := by
  rcases Nat.lt_or_ge s.devices.kdevmapIndex 1024 with room | noRoom
  · rcases kernelMapDeviceMap_room (ioApicAddress s.memory start) room with ⟨devices, maps, _⟩
    simp [parseIoApic, maps, MadtAccess.InBounds, room]
  · simp [parseIoApic, kernelMapDeviceMap_full _ noRoom, Nat.not_lt.mpr noRoom]

theorem acpiParseApicBody_cpus (few : walk.acpi.acpiCpuCount ≤ 16)
    (goesOn : acpiParseApicBody stop walk = .again next) : next.acpi.acpiCpuCount ≤ 16 := by
  simp only [acpiParseApicBody, acpiParseApicPass] at goesOn
  split_ifs at goesOn with inside isLocal isIoApic full
  · cases goesOn
    simp only [parseLocalApic]
    split_ifs with room
    · exact room
    · exact few
  · cases goesOn
    exact few
  · split at goesOn
    · cases goesOn
    · rename_i s' parses
      cases goesOn
      rcases Nat.lt_or_ge walk.acpi.devices.kdevmapIndex 1024 with mapped | noRoom
      · rcases @parseIoApic_room walk.start walk.acpi mapped with ⟨after, records, _, cpus, _⟩
        rw [records] at parses
        cases parses
        rw [cpus]
        exact few
      · rw [parseIoApic_full noRoom] at parses
        cases parses
  · cases goesOn
    exact few

/-- The accesses of a pass at a record, when the table of IOAPICs does not count as
full. -/
theorem acpiParseApicPass_inBounds_iff (inside : walk.start < stop)
    (notFull : walk.acpi.ioapicSize ≤ 16) :
    (∀ access ∈ (acpiParseApicPass stop walk).1, access.InBounds madt length) ↔
      (madt ≤ walk.start ∧ walk.start +
        recordWidth (apicHeaderType walk.acpi.memory walk.start) ≤ madt + length) ∧
      (apicHeaderType walk.acpi.memory walk.start = ioApic →
        walk.acpi.devices.kdevmapIndex < 1024 → walk.acpi.ioapicSize < 16) := by
  rw [← recordFields_inBounds_iff]
  simp only [acpiParseApicPass, if_pos inside]
  split_ifs with isLocal isIoApic full
  · have notIoApic : apicHeaderType walk.acpi.memory walk.start ≠ ioApic := by
      rw [isLocal]
      decide
    simp only [List.forall_mem_append]
    constructor
    · rintro ⟨fields, _⟩
      exact ⟨fields, fun isIoApic => absurd isIoApic notIoApic⟩
    · rintro ⟨fields, _⟩
      exact ⟨fields, parseLocalApic_accesses walk.start walk.acpi⟩
  · omega
  · simp only [List.forall_mem_append, parseIoApic_accesses, isIoApic, forall_const]
  · constructor
    · exact fun fields => ⟨fields, fun isIoApic' => absurd isIoApic' isIoApic⟩
    · exact fun both => both.1

theorem acpiRemapIrqPass_inBounds (above : madt ≤ start)
    (fits : start + recordWidth (apicHeaderType memory start) ≤ madt + length) :
    ∀ access ∈ (acpiRemapIrqPass memory stop irq start).1, access.InBounds madt length := by
  have atLeast := recordWidth_ge (apicHeaderType memory start)
  have header := @headerFields_inBounds start madt length above (by omega)
  have overrideWidth : apicHeaderType memory start = interruptOverride →
      recordWidth (apicHeaderType memory start) = 10 := by
    intro isOverride
    rw [isOverride]
    rfl
  simp only [acpiRemapIrqPass]
  split_ifs with inside isOverride sameIrq
  · have width := overrideWidth isOverride
    simp only [List.forall_mem_append]
    refine ⟨header, ?_⟩
    simp [MadtAccess.InBounds]
    omega
  · have width := overrideWidth isOverride
    simp only [List.forall_mem_append]
    refine ⟨header, ?_⟩
    simp [MadtAccess.InBounds]
    omega
  · exact header
  · simp

end Accesses

namespace Acpi

variable {s : Acpi} {madt length first stop k : ℕ}

theorem RecordsFit.count (fit : s.RecordsFit madt length)
    (passed : ∀ j < k, recordAt s.memory (firstRecord madt) j < endOfRecords s.memory madt ∧
      ¬s.DevmapFull (firstRecord madt) j) :
    s.ioapicSize + ioApicsBefore s.memory (firstRecord madt) k ≤ 16 := by
  rcases k with _ | k
  · exact fit.ioapics
  · have comes : s.ComesTo (firstRecord madt) (endOfRecords s.memory madt) k :=
      ⟨fun j upTo => (passed j (Nat.lt_succ_of_le upTo)).1,
        fun j earlier => (passed j (Nat.lt_succ_of_lt earlier)).2⟩
    exact fit.room k comes (passed k (Nat.lt_succ_self k)).2

theorem RecordsFit.unheld (fit : s.RecordsFit madt length)
    (comes : s.ComesTo (firstRecord madt) (endOfRecords s.memory madt) k) :
    s.Unheld (firstRecord madt) k := by
  intro _
  apply fit.count
  intro j earlier
  exact ⟨comes.inside j (Nat.le_of_lt earlier), comes.mapped j earlier⟩

/-- A walk that returns has passed every record inside the table. -/
theorem RecordsFit.returns (fit : s.RecordsFit madt length) {fuel : ℕ} {after : Acpi}
    (returns : acpiParseApicLoop fuel madt s = .ok after) :
    after.memory = s.memory ∧ ∃ count,
      (∀ j < count, ¬s.DevmapFull (firstRecord madt) j) ∧
        endOfRecords s.memory madt ≤ recordAt s.memory (firstRecord madt) count := by
  rw [acpiParseApicLoop] at returns
  cases result : run (acpiParseApicBody (endOfRecords s.memory madt)) fuel
      ⟨firstRecord madt, s⟩ with
  | none =>
      rw [result] at returns
      cases returns
  | some outcome =>
      rw [result] at returns
      cases returns
      rcases exists_last result with ⟨walk, ⟨count, reached⟩, done⟩
      rcases comesTo_of_before reached (fun j _ comes => fit.unheld comes) with ⟨passed, walkAt⟩
      have outside : ¬walk.start < endOfRecords s.memory madt := by
        intro inside
        rcases acpiParseApicBody_inside inside with ⟨next, goesOn⟩ | ⟨isIoApic, notFull, noRoom⟩
        · rw [done] at goesOn
          cases goesOn
        · have notLocal : apicHeaderType walk.acpi.memory walk.start ≠ localApic := by
            rw [isIoApic]
            decide
          simp only [acpiParseApicBody, acpiParseApicPass, if_pos inside, if_neg notLocal,
            if_pos isIoApic, if_neg (Nat.not_lt.mpr notFull), parseIoApic_full noRoom] at done
          cases done
      simp only [acpiParseApicBody, acpiParseApicPass, if_neg outside] at done
      cases done
      refine ⟨walkAt.memory, count, fun j earlier => (passed j earlier).2, ?_⟩
      rw [← walkAt.start]
      exact Nat.not_lt.mp outside

theorem RecordsFit.staysInBounds (fit : s.RecordsFit madt length) :
    s.StaysInBounds madt length := by
  refine ⟨?_, ?_, ?_⟩
  · intro walk visits
    constructor
    · exact visits.invariant fit.cpus (fun walk next few goesOn => acpiParseApicBody_cpus few goesOn)
    · rcases visits with ⟨count, reached⟩
      rcases comesTo_of_before reached (fun j _ comes => fit.unheld comes) with ⟨passed, walkAt⟩
      rw [walkAt.size]
      exact fit.count passed
  · rintro walk ⟨count, reached⟩
    by_cases inside : walk.start < endOfRecords s.memory madt
    · rcases comesTo_of_inside reached inside (fun j _ comes => fit.unheld comes) with
        ⟨comes, walkAt⟩
      rcases comesTo_of_before reached (fun j _ comes => fit.unheld comes) with ⟨passed, _⟩
      have few := fit.count passed
      rw [acpiParseApicPass_inBounds_iff inside (by rw [walkAt.size]; exact few), walkAt.start,
        walkAt.memory, walkAt.size, walkAt.index]
      refine ⟨fit.fits count comes, ?_⟩
      intro isIoApic room
      have notFull : ¬s.DevmapFull (firstRecord madt) count := fun full => by
        have noRoom := full.2
        omega
      have counted := fit.room count comes notFull
      rw [ioApicsBefore, if_pos isIoApic] at counted
      omega
    · simp [acpiParseApicPass, inside]
  · rintro fuel after returns irq start ⟨count, reached⟩
    rcases fit.returns returns with ⟨sameMemory, last, mapped, passedEnd⟩
    rw [sameMemory] at reached ⊢
    rcases before_acpiRemapIrqBody_iff.mp reached with ⟨rfl, passed⟩
    by_cases inside : recordAt s.memory (firstRecord madt) count < endOfRecords s.memory madt
    · have inTable : ∀ j ≤ count,
          recordAt s.memory (firstRecord madt) j < endOfRecords s.memory madt := by
        intro j upTo
        rcases Nat.eq_or_lt_of_le upTo with same | earlier
        · rw [same]
          exact inside
        · exact (passed j earlier).1
      have notPast : count < last := by
        by_contra past
        exact Nat.not_lt.mpr passedEnd (inTable last (Nat.not_lt.mp past))
      have fits := fit.fits count
        ⟨inTable, fun j earlier => mapped j (Nat.lt_trans earlier notPast)⟩
      exact acpiRemapIrqPass_inBounds fits.1 fits.2
    · simp [acpiRemapIrqPass, inside]

theorem StaysInBounds.visits (stays : s.StaysInBounds madt length)
    (comes : s.ComesTo (firstRecord madt) (endOfRecords s.memory madt) k) :
    ∃ walk, Visits (acpiParseApicBody (endOfRecords s.memory madt)) ⟨firstRecord madt, s⟩ walk ∧
      s.WalkAt (firstRecord madt) k walk := by
  induction k using Nat.strong_induction_on with
  | _ k ih =>
      have unheld : ∀ j < k, s.Unheld (firstRecord madt) j := by
        intro j earlier _
        rcases ih j earlier ⟨fun i upTo => comes.inside i (Nat.le_trans upTo (Nat.le_of_lt earlier)),
          fun i before => comes.mapped i (Nat.lt_trans before earlier)⟩ with ⟨walk, visits, walkAt⟩
        rw [← walkAt.size]
        exact (stays.counters walk visits).2
      rcases comes.walkAt unheld with ⟨walk, reached, walkAt⟩
      exact ⟨walk, ⟨k, reached⟩, walkAt⟩

theorem StaysInBounds.recordsFit (stays : s.StaysInBounds madt length) :
    s.RecordsFit madt length := by
  have atRecord : ∀ k, s.ComesTo (firstRecord madt) (endOfRecords s.memory madt) k →
      (madt ≤ recordAt s.memory (firstRecord madt) k ∧
        recordAt s.memory (firstRecord madt) k +
          recordWidth (apicHeaderType s.memory (recordAt s.memory (firstRecord madt) k)) ≤
            madt + length) ∧
      s.ioapicSize + ioApicsBefore s.memory (firstRecord madt) k ≤ 16 ∧
      (apicHeaderType s.memory (recordAt s.memory (firstRecord madt) k) = ioApic →
        s.devices.kdevmapIndex + ioApicsBefore s.memory (firstRecord madt) k < 1024 →
          s.ioapicSize + ioApicsBefore s.memory (firstRecord madt) k < 16) := by
    intro k comes
    rcases stays.visits comes with ⟨walk, visits, walkAt⟩
    have inside : walk.start < endOfRecords s.memory madt := by
      rw [walkAt.start]
      exact comes.inside k (Nat.le_refl k)
    have few := (stays.counters walk visits).2
    have inBounds := (acpiParseApicPass_inBounds_iff inside few).mp (stays.accesses walk visits)
    rw [walkAt.start, walkAt.memory, walkAt.size, walkAt.index] at inBounds
    rw [walkAt.size] at few
    exact ⟨inBounds.1, few, inBounds.2⟩
  refine ⟨(stays.counters _ .refl).1, (stays.counters _ .refl).2, fun k comes =>
    (atRecord k comes).1, ?_⟩
  intro k comes notFull
  rcases atRecord k comes with ⟨_, few, store⟩
  rw [ioApicsBefore]
  split_ifs with isIoApic
  · have room := store isIoApic (Nat.lt_of_not_le fun full => notFull ⟨isIoApic, full⟩)
    omega
  · exact few

end Acpi

/-- The walks of a MADT stay in bounds exactly when all its records fit into it and it
has room for its IOAPICs. -/
theorem madt_walks_inBounds_iff (s : Acpi) (madt : ℕ) :
    s.StaysInBounds madt (load32 s.memory (madt + 4)) ↔
      s.RecordsFit madt (load32 s.memory (madt + 4)) :=
  ⟨fun stays => stays.recordsFit, fun fit => fit.staysInBounds⟩

/-- A copy of a MADT at 0xC0900000 whose length of 46 leaves room for the first two
bytes of a record of a local APIC. -/
def cutRecordMemory (address : ℕ) : UInt8 :=
  if address = 0xC0900004 then 46 else if address = 0xC090002D then 8 else 0

/-- The seventeenth of 18 IOAPICs is stored behind the table, and a record cut off by
the end of the table is read behind it. -/
theorem madt_walks_outOfBounds :
    ¬(Acpi.init manyIoApicsMemory).StaysInBounds 0xC0900000 260 ∧
      load32 manyIoApicsMemory (0xC0900000 + 4) = 260 ∧
    ¬(Acpi.init cutRecordMemory).StaysInBounds 0xC0900000 46 ∧
      load32 cutRecordMemory (0xC0900000 + 4) = 46 := by
  refine ⟨?_, by decide, ?_, by decide⟩
  · intro stays
    have comes := manyIoApics_comesTo (show 16 < 18 by omega)
    have counted := stays.recordsFit.room 16 comes ?_
    · simp only [Acpi.init, manyIoApics_before (show 16 + 1 ≤ 18 by omega)] at counted
      omega
    · rintro ⟨_, full⟩
      simp only [Acpi.init, manyIoApics_before (show 16 ≤ 18 by omega)] at full
      omega
  · intro stays
    have comes : (Acpi.init cutRecordMemory).ComesTo (firstRecord 0xC0900000)
        (endOfRecords cutRecordMemory 0xC0900000) 0 := by
      constructor
      · intro j upTo
        rw [Nat.le_zero.mp upTo]
        decide
      · intro j earlier
        omega
    have fits := (stays.recordsFit.fits 0 comes).2
    revert fits
    decide

end Osserver
