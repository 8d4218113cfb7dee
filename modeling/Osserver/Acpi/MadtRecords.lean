import Osserver.Acpi.MadtBounds
import Osserver.Acpi.Records
import Mathlib.Data.List.Forall2

/-!
# What a well-formed MADT is decoded to

A MADT is well formed when its records, each as long as the fields of its type take,
lie back to back behind the header up to the length of the table. `acpi_parse_apic`
then decodes it: the ids of the first 16 local APICs, and a mapping for each IOAPIC,
in the order of the table and whatever lies between them.
-/

namespace Osserver

open Loop Bytes

/-- A record with all the fields that `acpi_parse_apic` or `acpi_remap_irq` reads. -/
abbrev MadtRecord := ApicRecord recordWidth

namespace MadtRecord

/-- The `apic_id` field of a local APIC. -/
def apicId (record : MadtRecord) : UInt8 :=
  record.byte 3

/-- The `io_apic_address` field of an IOAPIC. -/
def ioApicAddress (record : MadtRecord) : ℕ :=
  Bytes.word record.byte 4 4

end MadtRecord

/-- The ids of the local APICs among the records. -/
def localApicIds (records : List MadtRecord) : List UInt8 :=
  (records.filter (fun record => record.type = localApic)).map MadtRecord.apicId

/-- The addresses of the IOAPICs among the records. -/
def ioApicAddresses (records : List MadtRecord) : List ℕ :=
  (records.filter (fun record => record.type = ioApic)).map MadtRecord.ioApicAddress

/-- The bytes of a table hold the records behind the header, and its length field ends
with them. -/
structure MadtTable (madt : ℕ → UInt8) (records : List MadtRecord) : Prop where
  length : Bytes.word madt 4 4 = 44 + (recordBytes records).length
  holds : ∀ i (inside : i < (recordBytes records).length),
    madt (44 + i) = (recordBytes records)[i]

namespace Acpi

/-- `acpi_cpu_ids[0..acpi_cpu_count)`. -/
def cpuIds (s : Acpi) : List UInt8 :=
  (List.range s.acpiCpuCount).map s.acpiCpuIds

/-- `ioapic_addrs[0..ioapic_size)`. -/
def ioapics (s : Acpi) : List ℕ :=
  (List.range s.ioapicSize).map s.ioapicAddrs

end Acpi

theorem map_range_update {α : Type} (elements : ℕ → α) (count : ℕ) (element : α) :
    (List.range (count + 1)).map (Function.update elements count element) =
      (List.range count).map elements ++ [element] := by
  rw [List.range_succ, List.map_append, List.map_singleton, Function.update_self]
  congr 1
  apply List.map_congr_left
  intro i inside
  apply Function.update_of_ne
  exact Nat.ne_of_lt (List.mem_range.mp inside)

section Decode

variable {s : Acpi} {start stop fuel : ℕ} {record : MadtRecord} {records : List MadtRecord}

theorem parseLocalApic_cpuIds (few : s.acpiCpuCount ≤ 16) :
    (parseLocalApic start s).2.cpuIds = (s.cpuIds ++ [apicId s.memory start]).take 16 ∧
      (parseLocalApic start s).2.acpiCpuCount ≤ 16 ∧
        (parseLocalApic start s).2.ioapics = s.ioapics := by
  have length : s.cpuIds.length = s.acpiCpuCount := by simp [Acpi.cpuIds]
  rw [parseLocalApic]
  split_ifs with room
  · refine ⟨?_, room, rfl⟩
    rw [List.take_of_length_le]
    · apply map_range_update
    · rw [List.length_append, length]
      exact room
  · refine ⟨?_, few, rfl⟩
    rw [List.take_append_of_le_length]
    · rw [List.take_of_length_le]
      rw [length]
      exact few
    · rw [length]
      omega

theorem HoldsRecord.apicId {memory : ℕ → UInt8} (holds : HoldsRecord memory start record)
    (isLocal : record.type = localApic) : apicId memory start = record.apicId := by
  apply holds 3
  have long := record.long
  rw [isLocal] at long
  exact Nat.lt_of_lt_of_le (by decide) long

theorem HoldsRecord.ioApicAddress {memory : ℕ → UInt8} (holds : HoldsRecord memory start record)
    (isIoApic : record.type = ioApic) :
    ioApicAddress memory start = record.ioApicAddress := by
  have long := record.long
  rw [isIoApic] at long
  have width : 12 ≤ record.length := long
  exact holds.load32 (by omega)

/-- The records have been recorded: `s` is the state before them and `s'` behind them. -/
structure Decodes (s s' : Acpi) (records : List MadtRecord) : Prop where
  memory : s'.memory = s.memory
  few : s'.acpiCpuCount ≤ 16
  size : s'.ioapicSize = s.ioapicSize + (ioApicAddresses records).length
  index : s'.devices.kdevmapIndex = s.devices.kdevmapIndex + (ioApicAddresses records).length
  cpuIds : s'.cpuIds = (s.cpuIds ++ localApicIds records).take 16
  ioapics : ∃ addresses, s'.ioapics = s.ioapics ++ addresses ∧
    List.Forall₂ s'.devices.Maps addresses (ioApicAddresses records)
  kept : ∀ address other, s.devices.Maps address other → s'.devices.Maps address other

theorem localApicIds_cons (record : MadtRecord) (records : List MadtRecord) :
    localApicIds (record :: records) = localApicIds [record] ++ localApicIds records := by
  rw [localApicIds, ← List.singleton_append, List.filter_append, List.map_append]
  rfl

theorem ioApicAddresses_cons (record : MadtRecord) (records : List MadtRecord) :
    ioApicAddresses (record :: records) =
      ioApicAddresses [record] ++ ioApicAddresses records := by
  rw [ioApicAddresses, ← List.singleton_append, List.filter_append, List.map_append]
  rfl

theorem Decodes.refl (few : s.acpiCpuCount ≤ 16) : Decodes s s [] := by
  refine ⟨rfl, few, rfl, rfl, ?_, ⟨[], ?_, .nil⟩, fun _ _ maps => maps⟩
  · rw [localApicIds, List.filter_nil, List.map_nil, List.append_nil, List.take_of_length_le]
    simpa [Acpi.cpuIds] using few
  · rw [List.append_nil]

theorem Decodes.cons {t u : Acpi} (first : Decodes s t [record]) (rest : Decodes t u records) :
    Decodes s u (record :: records) := by
  rcases first.ioapics with ⟨addresses, firstIoapics, firstMaps⟩
  rcases rest.ioapics with ⟨others, restIoapics, restMaps⟩
  refine ⟨rest.memory.trans first.memory, rest.few, ?_, ?_, ?_, ⟨addresses ++ others, ?_, ?_⟩, ?_⟩
  · rw [rest.size, first.size, ioApicAddresses_cons record records, List.length_append,
      Nat.add_assoc]
  · rw [rest.index, first.index, ioApicAddresses_cons record records, List.length_append,
      Nat.add_assoc]
  · rw [rest.cpuIds, first.cpuIds, take_take_append, localApicIds_cons record records,
      List.append_assoc]
  · rw [restIoapics, firstIoapics, List.append_assoc]
  · rw [ioApicAddresses_cons]
    apply List.rel_append
    · exact firstMaps.imp fun address other maps => rest.kept address other maps
    · exact restMaps
  · intro address other maps
    apply rest.kept
    exact first.kept address other maps

theorem Decodes.of_localApic (isLocal : record.type = localApic)
    (holds : HoldsRecord s.memory start record) (few : s.acpiCpuCount ≤ 16) :
    Decodes s (parseLocalApic start s).2 [record] := by
  have notIoApic : record.type ≠ ioApic := by
    rw [isLocal]
    decide
  have ids : localApicIds [record] = [record.apicId] := by simp [localApicIds, isLocal]
  have noIoApics : ioApicAddresses [record] = [] := by simp [ioApicAddresses, notIoApic]
  rcases @parseLocalApic_cpuIds s start few with ⟨cpuIds, stillFew, ioapics⟩
  rcases parseLocalApic_frame start s with ⟨memory, size, devices⟩
  rw [holds.apicId isLocal] at cpuIds
  refine ⟨memory, stillFew, ?_, ?_, ?_, ⟨[], ?_, ?_⟩, ?_⟩
  · rw [size, noIoApics]
    rfl
  · rw [devices, noIoApics]
    rfl
  · rw [cpuIds, ids]
  · rw [ioapics, List.append_nil]
  · rw [noIoApics]
    exact .nil
  · rw [devices]
    exact fun _ _ maps => maps

/-- A record that is no local APIC adds no CPU. -/
theorem cpuIds_of_other (few : s.acpiCpuCount ≤ 16) (notLocal : record.type ≠ localApic) :
    s.cpuIds = (s.cpuIds ++ localApicIds [record]).take 16 := by
  have noIds : localApicIds [record] = [] := by simp [localApicIds, notLocal]
  rw [noIds]
  exact (Decodes.refl few).cpuIds

theorem Decodes.of_ioApic (isIoApic : record.type = ioApic)
    (holds : HoldsRecord s.memory start record) (few : s.acpiCpuCount ≤ 16)
    (small : s.ioapicSize + (ioApicAddresses [record]).length ≤ 16)
    (room : s.devices.kdevmapIndex + (ioApicAddresses [record]).length ≤ 1024) :
    ∃ s', (parseIoApic start s).2 = .ok s' ∧ Decodes s s' [record] := by
  have notLocal : record.type ≠ localApic := by
    rw [isIoApic]
    decide
  have addresses : ioApicAddresses [record] = [record.ioApicAddress] := by
    simp [ioApicAddresses, isIoApic]
  rw [addresses, List.length_singleton] at small room
  rcases @parseIoApic_room start s (by omega) with
    ⟨s', records, memory, cpus, ids, size, index, ioapics, maps, kept⟩
  have counted : s'.ioapicSize = s.ioapicSize + 1 := by
    rw [size]
    omega
  rw [holds.ioApicAddress isIoApic] at maps
  refine ⟨s', records, memory, ?_, ?_, ?_, ?_, ⟨[deviceAddress s.devices.kdevmapIndex], ?_, ?_⟩,
    kept⟩
  · rw [cpus]
    exact few
  · rw [counted, addresses]
    rfl
  · rw [index, addresses]
    rfl
  · rw [Acpi.cpuIds, cpus, ids]
    exact cpuIds_of_other few notLocal
  · rw [Acpi.ioapics, counted, ioapics]
    apply map_range_update
  · rw [addresses]
    exact .cons maps .nil

theorem Decodes.of_other (notLocal : record.type ≠ localApic) (notIoApic : record.type ≠ ioApic)
    (few : s.acpiCpuCount ≤ 16) : Decodes s s [record] := by
  have noIoApics : ioApicAddresses [record] = [] := by simp [ioApicAddresses, notIoApic]
  refine ⟨rfl, few, ?_, ?_, cpuIds_of_other few notLocal, ⟨[], ?_, ?_⟩, fun _ _ maps => maps⟩
  · rw [noIoApics]
    rfl
  · rw [noIoApics]
    rfl
  · rw [List.append_nil]
  · rw [noIoApics]
    exact .nil

/-- A record is recorded according to its type, and the walk moves behind it. -/
theorem parse_record (holds : HoldsRecord s.memory start record)
    (inside : start + record.length ≤ stop) (word : stop < 2 ^ 32) (few : s.acpiCpuCount ≤ 16)
    (small : s.ioapicSize + (ioApicAddresses [record]).length ≤ 16)
    (room : s.devices.kdevmapIndex + (ioApicAddresses [record]).length ≤ 1024) :
    ∃ s', acpiParseApicBody stop ⟨start, s⟩ = .again ⟨start + record.length, s'⟩ ∧
      Decodes s s' [record] := by
  have positive : 0 < record.length := Nat.succ_pos _
  have inTable : start < stop := by omega
  have next := holds.next (by omega)
  by_cases isLocal : record.type = localApic
  · refine ⟨(parseLocalApic start s).2, ?_, .of_localApic isLocal holds few⟩
    simp only [acpiParseApicBody, acpiParseApicPass, if_pos inTable, holds.type, if_pos isLocal,
      next]
  by_cases isIoApic : record.type = ioApic
  · rcases Decodes.of_ioApic isIoApic holds few small room with ⟨s', records, decodes⟩
    refine ⟨s', ?_, decodes⟩
    have accepted : ¬16 < s.ioapicSize := by omega
    simp only [acpiParseApicBody, acpiParseApicPass, if_pos inTable, holds.type, if_neg isLocal,
      if_pos isIoApic, gt_iff_lt, if_neg accepted, records, next]
  · refine ⟨s, ?_, .of_other isLocal isIoApic few⟩
    simp only [acpiParseApicBody, acpiParseApicPass, if_pos inTable, holds.type, if_neg isLocal,
      if_neg isIoApic, next]

/-- The walk decodes the records that lie back to back from `start` to `stop`. -/
theorem parse_records (holds : HoldsRecords s.memory start records)
    (reaches : start + (recordBytes records).length = stop) (word : stop < 2 ^ 32)
    (few : s.acpiCpuCount ≤ 16)
    (small : s.ioapicSize + (ioApicAddresses records).length ≤ 16)
    (room : s.devices.kdevmapIndex + (ioApicAddresses records).length ≤ 1024)
    (enough : records.length < fuel) :
    ∃ s', run (acpiParseApicBody stop) fuel ⟨start, s⟩ = some (.ok s') ∧
      Decodes s s' records := by
  induction records generalizing s start fuel with
  | nil =>
      rcases fuel with _ | fuel
      · omega
      · refine ⟨s, ?_, Decodes.refl few⟩
        apply run_done
        have atEnd : ¬start < stop := by
          rw [← reaches]
          exact Nat.not_lt.mpr (Nat.le_refl _)
        simp only [acpiParseApicBody, acpiParseApicPass, if_neg atEnd]
  | cons record records ih =>
      have length := length_recordBytes_cons record records
      rcases fuel with _ | fuel
      · omega
      rw [ioApicAddresses_cons, List.length_append] at small room
      rcases parse_record holds.head (by omega) word few (by omega) (by omega) with
        ⟨middle, goesOn, first⟩
      have holdsRest : HoldsRecords middle.memory (start + record.length) records := by
        rw [first.memory]
        exact holds.tail
      have smallRest : middle.ioapicSize + (ioApicAddresses records).length ≤ 16 := by
        rw [first.size]
        omega
      have roomRest : middle.devices.kdevmapIndex + (ioApicAddresses records).length ≤ 1024 := by
        rw [first.index]
        omega
      rcases ih holdsRest (by omega) first.few smallRest roomRest
        (Nat.lt_of_succ_lt_succ enough) with ⟨s', returns, rest⟩
      refine ⟨s', ?_, first.cons rest⟩
      rw [run_again goesOn]
      exact returns

end Decode

theorem memcpy_block {madt memory : ℕ → UInt8} {copy len : ℕ} (block : copy + len ≤ 2 ^ 32) :
    ∃ after, memcpy (some copy) (fun i => .ok (madt i)) len memory = .ok after ∧
      ∀ i < len, load8 after (copy + i) = madt i := by
  have place : ∀ i < len, (copy + (0 + i)) % 2 ^ 32 = copy + i := by
    intro i inside
    omega
  have injective : ∀ i < len, ∀ j < len,
      (copy + (0 + i)) % 2 ^ 32 = (copy + (0 + j)) % 2 ^ 32 → i = j := by
    intro i iInside j jInside same
    rw [place i iInside, place j jInside] at same
    exact Nat.add_left_cancel same
  rcases @Bytes.store_of_reads Halt (fun i => .ok (madt i)) madt memory 0 len
    (fun i => (copy + i) % 2 ^ 32) (fun _ _ => rfl) injective with ⟨after, stores, written, _⟩
  refine ⟨after, stores, ?_⟩
  intro i inside
  have byte := written i inside
  rw [place i inside, Nat.zero_add] at byte
  rw [load8, Nat.mod_eq_of_lt (by omega)]
  exact byte

/-- The state of `acpi_parse_apic` at the start of its walk: the table is copied, and the
local APIC is mapped to `lapic`. -/
structure Acpi.Copies (s before : Acpi) (copy lapic : ℕ) (records : List MadtRecord) : Prop where
  pointer : before.acpiMadtStruct = some copy
  length : load32 before.memory (copy + 4) = 44 + (recordBytes records).length
  holds : HoldsRecords before.memory (copy + 44) records
  cpus : before.acpiCpuCount = s.acpiCpuCount
  size : before.ioapicSize = s.ioapicSize
  index : before.devices.kdevmapIndex = s.devices.kdevmapIndex + 1
  mapped : before.devices.Maps before.lapicAddr lapic

section Parse

variable {s before : Acpi} {fuel copy : ℕ} {madt : ℕ → UInt8} {records : List MadtRecord}

/-- In front of the walk a well-formed MADT is copied. -/
theorem acpiParseApic_copies (table : MadtTable madt records)
    (room : s.devices.kdevmapIndex < 1024)
    (block : copy + Bytes.word madt 4 4 < 2 ^ 32) :
    ∃ before, s.Copies before copy (Bytes.word madt 36 4) records ∧
      acpiParseApic fuel (some copy) (fun i => .ok (madt i)) s =
        acpiParseApicLoop fuel copy before := by
  have length := table.length
  have fetches : ∀ offset, Bytes.fetch (fun i => Except.ok (ε := Halt) (madt i)) offset 4 =
      .ok (Bytes.word madt offset 4) := by
    intro offset
    apply Bytes.fetch_of_reads
    exact fun _ _ => rfl
  rcases @memcpy_block madt s.memory copy (Bytes.word madt 4 4) (by omega) with
    ⟨memory, copies, copied⟩
  rcases @kernelMapDeviceMap_room s.devices (Bytes.word madt 36 4) room with
    ⟨devices, maps, index, mapped, _⟩
  refine ⟨{ s with
    acpiMadtStruct := some copy
    memory := memory
    lapicAddr := deviceAddress s.devices.kdevmapIndex
    devices := devices }, ⟨rfl, ?_, ?_, rfl, rfl, index, mapped⟩, ?_⟩
  · rw [← length, load32, ← Bytes.word_shift]
    apply Bytes.word_congr
    intro i inField
    exact copied (4 + i) (by omega)
  · intro i inside
    rw [← table.holds i inside, Nat.add_assoc]
    exact copied (44 + i) (by omega)
  · simp only [acpiParseApic, fetches, copies, maps]

/-- The walk over the copy decodes it. -/
theorem acpiParseApicLoop_decodes {lapic : ℕ} (copies : s.Copies before copy lapic records)
    (fewIoApics : (ioApicAddresses records).length ≤ 16) (noCpus : s.acpiCpuCount = 0)
    (noIoApics : s.ioapicSize = 0)
    (room : s.devices.kdevmapIndex + 1 + (ioApicAddresses records).length ≤ 1024)
    (block : copy + (44 + (recordBytes records).length) < 2 ^ 32)
    (enough : records.length < fuel) :
    ∃ s', run (acpiParseApicBody (endOfRecords before.memory copy)) fuel
        ⟨firstRecord copy, before⟩ = some (.ok s') ∧
      acpiParseApicLoop fuel copy before = .ok s' ∧ Decodes before s' records ∧
        s'.cpuIds = (localApicIds records).take 16 ∧
          List.Forall₂ s'.devices.Maps s'.ioapics (ioApicAddresses records) := by
  have stop : endOfRecords before.memory copy = copy + (44 + (recordBytes records).length) := by
    rw [endOfRecords, copies.length]
    exact Nat.mod_eq_of_lt block
  have first : firstRecord copy = copy + 44 := Nat.mod_eq_of_lt (by omega)
  have few : before.acpiCpuCount ≤ 16 := by
    rw [copies.cpus, noCpus]
    omega
  have small : before.ioapicSize + (ioApicAddresses records).length ≤ 16 := by
    rw [copies.size, noIoApics]
    omega
  have roomLeft : before.devices.kdevmapIndex + (ioApicAddresses records).length ≤ 1024 := by
    rw [copies.index]
    exact room
  rcases parse_records copies.holds (Nat.add_assoc _ _ _) block few small roomLeft enough with
    ⟨s', returns, decodes⟩
  have noIds : before.cpuIds = [] := by simp [Acpi.cpuIds, copies.cpus, noCpus]
  have noAddresses : before.ioapics = [] := by simp [Acpi.ioapics, copies.size, noIoApics]
  rw [stop, first]
  refine ⟨s', returns, ?_, decodes, ?_, ?_⟩
  · rw [acpiParseApicLoop, stop, first, returns]
    rfl
  · rw [decodes.cpuIds, noIds, List.nil_append]
  · rcases decodes.ioapics with ⟨addresses, ioapics, mapped⟩
    rw [ioapics, noAddresses]
    exact mapped

end Parse

/-- A well-formed MADT with at most 16 IOAPICs is decoded to the ids of its first 16
local APICs and to mappings of the addresses of its IOAPICs, in the order of the
table. -/
theorem acpiParseApic_decodes {fuel copy : ℕ} {madt : ℕ → UInt8} {records : List MadtRecord}
    {s : Acpi} (table : MadtTable madt records) (fewIoApics : (ioApicAddresses records).length ≤ 16)
    (noCpus : s.acpiCpuCount = 0) (noIoApics : s.ioapicSize = 0)
    (room : s.devices.kdevmapIndex + 1 + (ioApicAddresses records).length ≤ 1024)
    (block : copy + Bytes.word madt 4 4 ≤ 0xC2800000) (enough : records.length < fuel) :
    ∃ s', acpiParseApic fuel (some copy) (fun i => .ok (madt i)) s = .ok s' ∧
      s'.cpuIds = (localApicIds records).take 16 ∧
        List.Forall₂ s'.devices.Maps s'.ioapics (ioApicAddresses records) := by
  have length := table.length
  rcases @acpiParseApic_copies s fuel copy madt records table (by omega) (by omega) with
    ⟨before, copies, loops⟩
  rcases acpiParseApicLoop_decodes copies fewIoApics noCpus noIoApics room (by omega) enough with
    ⟨s', _, returns, _, ids, mapped⟩
  refine ⟨s', ?_, ids, mapped⟩
  rw [loops]
  exact returns

/-- A table with an interrupt override, a local APIC, a record of another type and an
IOAPIC. -/
def fourRecords : List MadtRecord :=
  [⟨2, [0, 0, 2, 0, 0, 0, 0, 0], by decide, by decide⟩,
    ⟨0, [1, 7, 1, 0, 0, 0], by decide, by decide⟩,
    ⟨4, [0], by decide, by decide⟩,
    ⟨1, [0, 0, 0, 0, 0xC0, 0xFE, 0, 0, 0, 0], by decide, by decide⟩]

def fourRecordsMadt (i : ℕ) : UInt8 :=
  if i = 4 then 77 else if i < 44 then 0 else (recordBytes fourRecords).getD (i - 44) 0

theorem fourRecordsMadt_table : MadtTable fourRecordsMadt fourRecords := by
  refine ⟨by decide, ?_⟩
  intro i inside
  rw [fourRecordsMadt, if_neg (by omega), if_neg (by omega), Nat.add_sub_cancel_left]
  exact List.getD_eq_getElem _ _ inside

theorem acpiParseApic_decodes_fourRecords :
    ∃ s', acpiParseApic 5 (some 0xC0900000) (fun i => .ok (fourRecordsMadt i))
        (.init fun _ => 0) = .ok s' ∧
      s'.cpuIds = [7] ∧ List.Forall₂ s'.devices.Maps s'.ioapics [0xFEC00000] :=
  acpiParseApic_decodes fourRecordsMadt_table (by decide) rfl rfl (by decide) (by decide)
    (by decide)

end Osserver
