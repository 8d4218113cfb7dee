import Osserver.Acpi.Records

/-!
# The interrupt overrides of the saved MADT

What `acpi_remap_irq` returns, in terms of the records of the saved table. A record
has any length from 2 on, except that an interrupt override has its 10 bytes; what
lies in records of other types is never taken for an override.
-/

namespace Osserver

open Loop Bytes

/-- How far the fields of a record reach that `acpi_remap_irq` reads. -/
def overrideWidth (type : UInt8) : ℕ :=
  if type = interruptOverride then 10 else 2

/-- A record with all the fields that `acpi_remap_irq` reads. -/
abbrev SavedRecord := ApicRecord overrideWidth

namespace SavedRecord

/-- The `source` field of an interrupt override. -/
def source (record : SavedRecord) : ℕ :=
  (record.byte 3).toNat

/-- The `interrupt` field of an interrupt override. -/
def interrupt (record : SavedRecord) : ℕ :=
  Bytes.word record.byte 4 4

end SavedRecord

/-- `acpi_madt_struct` points to a table whose records end with its length. -/
structure Acpi.SavedMadt (s : Acpi) (madt : ℕ) (records : List SavedRecord) : Prop where
  pointer : s.acpiMadtStruct = some madt
  length : load32 s.memory (madt + 4) = 44 + (recordBytes records).length
  holds : HoldsRecords s.memory (madt + 44) records
  block : madt + load32 s.memory (madt + 4) < 2 ^ 32

/-- The source and the interrupt of each override, in the order of the table. -/
def overrides (records : List SavedRecord) : List (ℕ × ℕ) :=
  (records.filter (fun record => record.type = interruptOverride)).map
    (fun record => (record.source, record.interrupt))

/-- The first override of an interrupt line. -/
def firstOverride (records : List SavedRecord) (irq : ℕ) : Option SavedRecord :=
  records.find? (fun record => record.type = interruptOverride ∧ record.source = irq)

/-- Where the first override maps a line; a line with none keeps its number. -/
def remapped (records : List SavedRecord) (irq : ℕ) : ℕ :=
  match firstOverride records irq with
  | none => irq
  | some record => record.interrupt

/-- Records of other types do not matter, wherever they lie. -/
theorem remapped_overrides (records : List SavedRecord) (irq : ℕ) :
    remapped records irq =
      ((overrides records).find? (fun entry => entry.1 = irq)).elim irq Prod.snd := by
  have found : (overrides records).find? (fun entry => entry.1 = irq) =
      (firstOverride records irq).map (fun record => (record.source, record.interrupt)) := by
    simp only [firstOverride, overrides, List.find?_map, List.find?_filter]
    congr 2
    funext record
    simp
  rw [found, remapped]
  cases firstOverride records irq with
  | none => rfl
  | some record => rfl

theorem remapped_eq_iff (records : List SavedRecord) (irq : ℕ) :
    remapped records irq = irq ↔ firstOverride records irq = none ∨
      ∃ record, firstOverride records irq = some record ∧ record.interrupt = irq := by
  rw [remapped]
  cases firstOverride records irq with
  | none => simp
  | some record => simp

section Walk

variable {memory : ℕ → UInt8} {start stop irq fuel : ℕ} {record : SavedRecord}
  {records : List SavedRecord}

/-- The fields of an override are its own bytes. -/
theorem HoldsRecord.override (holds : HoldsRecord memory start record)
    (isOverride : record.type = interruptOverride) :
    (overrideSource memory start).toNat = record.source ∧
      overrideInterrupt memory start = record.interrupt := by
  have long := record.long
  rw [overrideWidth, if_pos isOverride] at long
  have width : 10 ≤ record.length := long
  constructor
  · exact congrArg UInt8.toNat (holds 3 (by omega))
  · exact holds.load32 (by omega)

/-- A pass ends the walk at an override of the line and moves behind any other record. -/
theorem acpiRemapIrqBody_record (holds : HoldsRecord memory start record)
    (inside : start + record.length ≤ stop) (word : stop < 2 ^ 32) :
    acpiRemapIrqBody memory stop irq start =
      if record.type = interruptOverride ∧ record.source = irq then .done record.interrupt
      else .again (start + record.length) := by
  have positive : 0 < record.length := Nat.succ_pos _
  have inTable : start < stop := by omega
  have next := holds.next (by omega)
  rw [acpiRemapIrqBody, acpiRemapIrqPass, if_pos inTable, holds.type]
  by_cases isOverride : record.type = interruptOverride
  · have fields := holds.override isOverride
    rw [if_pos isOverride, fields.1, fields.2]
    by_cases same : record.source = irq
    · rw [if_pos same, if_pos ⟨isOverride, same⟩]
    · rw [if_neg same, if_neg (fun both => same both.2), next]
  · rw [if_neg isOverride, if_neg (fun both => isOverride both.1), next]

/-- The walk over the records that lie back to back from `start` to `stop` returns what the
first override says. -/
theorem remap_records (holds : HoldsRecords memory start records)
    (reaches : start + (recordBytes records).length = stop) (word : stop < 2 ^ 32)
    (enough : records.length < fuel) :
    run (acpiRemapIrqBody memory stop irq) fuel start = some (remapped records irq) := by
  induction records generalizing start fuel with
  | nil =>
      rcases fuel with _ | fuel
      · omega
      · apply run_done
        have atEnd : ¬start < stop := by
          rw [← reaches]
          exact Nat.not_lt.mpr (Nat.le_refl _)
        rw [acpiRemapIrqBody, acpiRemapIrqPass, if_neg atEnd]
        rfl
  | cons record records ih =>
      have length := length_recordBytes_cons record records
      rcases fuel with _ | fuel
      · omega
      have pass := @acpiRemapIrqBody_record memory start stop irq record holds.head (by omega) word
      by_cases matched : record.type = interruptOverride ∧ record.source = irq
      · rw [if_pos matched] at pass
        rw [run_done pass, remapped, firstOverride, List.find?_cons_of_pos (by simpa using matched)]
      · rw [if_neg matched] at pass
        rw [run_again pass, ih holds.tail (by omega) (Nat.lt_of_succ_lt_succ enough), remapped,
          remapped, firstOverride, firstOverride, List.find?_cons_of_neg (by simpa using matched)]

end Walk

/-- `acpi_remap_irq` returns what the first override says. -/
theorem acpiRemapIrq_eq {s : Acpi} {madt fuel : ℕ} {records : List SavedRecord} (irq : ℕ)
    (saved : s.SavedMadt madt records) (enough : records.length < fuel) :
    acpiRemapIrq fuel s irq = .ok (remapped records irq) := by
  have stop : endOfRecords s.memory madt = madt + load32 s.memory (madt + 4) :=
    Nat.mod_eq_of_lt saved.block
  have first : firstRecord madt = madt + 44 := by
    have length := saved.length
    have block := saved.block
    exact Nat.mod_eq_of_lt (by omega)
  have walk := @remap_records s.memory (madt + 44) (madt + load32 s.memory (madt + 4)) irq fuel
    records saved.holds (by rw [saved.length, Nat.add_assoc]) saved.block enough
  simp only [acpiRemapIrq, saved.pointer, stop, first, walk]

/-- `acpi_remap_irq` returns where the first override of the line maps it, and the line
itself when there is none or the first one maps it to itself. Only the overrides of the
table matter. -/
theorem acpiRemapIrq_remapped {s : Acpi} {madt fuel : ℕ} {records : List SavedRecord} (irq : ℕ)
    (saved : s.SavedMadt madt records) (enough : records.length < fuel) :
    acpiRemapIrq fuel s irq = .ok (remapped records irq) ∧
      (acpiRemapIrq fuel s irq = .ok irq ↔ firstOverride records irq = none ∨
        ∃ record, firstOverride records irq = some record ∧ record.interrupt = irq) ∧
      remapped records irq =
        ((overrides records).find? (fun entry => entry.1 = irq)).elim irq Prod.snd := by
  have returns := acpiRemapIrq_eq irq saved enough
  refine ⟨returns, ?_, remapped_overrides records irq⟩
  rw [returns, Except.ok.injEq]
  exact remapped_eq_iff records irq

/-- A local APIC whose bytes look like an override of line 9, and an override of line 0. -/
def overrideRecords : List SavedRecord :=
  [⟨0, [2, 10, 0, 9, 3, 0, 0, 0], by decide, by decide⟩,
    ⟨2, [0, 0, 2, 0, 0, 0, 0x0D, 0], by decide, by decide⟩]

/-- A saved MADT at 0xC0900000 with these records. -/
def overrideMemory (address : ℕ) : UInt8 :=
  if address = 0xC0900004 then 64
  else if address < 0xC090002C then 0
  else (recordBytes overrideRecords).getD (address - 0xC090002C) 0

theorem overrideMemory_saved {s : Acpi} (memory : s.memory = overrideMemory)
    (pointer : s.acpiMadtStruct = some 0xC0900000) :
    s.SavedMadt 0xC0900000 overrideRecords := by
  refine ⟨pointer, ?_, ?_, ?_⟩
  · rw [memory]
    decide
  · intro i inside
    have short : i < 20 := inside
    have here : (0xC0900000 + 44 + i) % 2 ^ 32 = 0xC090002C + i := by omega
    rw [memory, load8, here, overrideMemory, if_neg (by omega), if_neg (by omega),
      Nat.add_sub_cancel_left]
    exact List.getD_eq_getElem _ _ inside
  · rw [memory]
    decide

theorem acpiRemapIrq_remapped_overrideRecords :
    acpiRemapIrq 3 { Acpi.init overrideMemory with acpiMadtStruct := some 0xC0900000 } 0 = .ok 2 ∧
      acpiRemapIrq 3 { Acpi.init overrideMemory with acpiMadtStruct := some 0xC0900000 } 9 =
        .ok 9 := by
  have saved : Acpi.SavedMadt { Acpi.init overrideMemory with acpiMadtStruct := some 0xC0900000 }
      0xC0900000 overrideRecords := overrideMemory_saved rfl rfl
  have first := acpiRemapIrq_remapped 0 saved (show 2 < 3 by omega)
  have second := acpiRemapIrq_remapped 9 saved (show 2 < 3 by omega)
  exact ⟨first.1, second.1⟩

end Osserver
