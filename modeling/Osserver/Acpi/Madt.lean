import Osserver.Acpi.Basic
import Osserver.Lib.Bytes
import Osserver.Lib.Loop
import Osserver.Paging.DeviceMap

/-!
# The interrupt controllers of the MADT

The model of `acpi_parse_apic` and `acpi_remap_irq` of `generic/sys/acpi/acpi.c`.
The table is copied to the heap, and the records behind its header are walked in
the copy; heap memory is a function from 32-bit addresses, and sums of addresses
wrap. The log messages are left out.

A pass of either walk lists the fields it reads and the elements of the two
tables it stores to, so that a statement can speak of them. The tables have 16
elements; a store behind them goes to memory that holds none of the variables
here.
-/

namespace Osserver

open Loop Bytes

/-- The static variables that the tables are parsed into, and the heap memory that
the copy of the MADT is put in. -/
structure Acpi where
  acpiCpuCount : ℕ
  acpiCpuIds : ℕ → UInt8
  lapicAddr : ℕ
  ioapicSize : ℕ
  ioapicAddrs : ℕ → ℕ
  acpiPs2ControllerExists : Bool
  acpiMadtStruct : Option ℕ
  devices : DeviceMap
  memory : ℕ → UInt8

/-- `LOCAL_APIC`, `IO_APIC` and `INTERRUPT_OVERRIDE` of `apic_header_type`. -/
def localApic : UInt8 := 0

def ioApic : UInt8 := 1

def interruptOverride : UInt8 := 2

/-- The fields of a record at `start`: `apic_header`, `apic_local_apic`,
`apic_io_apic` and `apic_interrupt_override`. -/
def apicHeaderType (memory : ℕ → UInt8) (start : ℕ) : UInt8 :=
  load8 memory start

def apicHeaderLength (memory : ℕ → UInt8) (start : ℕ) : ℕ :=
  (load8 memory (start + 1)).toNat

def apicId (memory : ℕ → UInt8) (start : ℕ) : UInt8 :=
  load8 memory (start + 3)

def ioApicAddress (memory : ℕ → UInt8) (start : ℕ) : ℕ :=
  load32 memory (start + 4)

def overrideSource (memory : ℕ → UInt8) (start : ℕ) : UInt8 :=
  load8 memory (start + 3)

def overrideInterrupt (memory : ℕ → UInt8) (start : ℕ) : ℕ :=
  load32 memory (start + 4)

/-- `start += length`. -/
def nextRecord (memory : ℕ → UInt8) (start : ℕ) : ℕ :=
  (start + apicHeaderLength memory start) % 2 ^ 32

/-- `(uint8_t *) (acpi_madt_struct + 1)`, behind the 44 bytes of `acpi_madt`. -/
def firstRecord (madt : ℕ) : ℕ :=
  (madt + 44) % 2 ^ 32

/-- `(uint8_t *) acpi_madt_struct + acpi_madt_struct->header.length`. -/
def endOfRecords (memory : ℕ → UInt8) (madt : ℕ) : ℕ :=
  (madt + load32 memory (madt + 4)) % 2 ^ 32

/-- A field that a walk reads, by its address and its number of bytes, or an element
that it stores to, by its index. -/
inductive MadtAccess where
  | field (address width : ℕ)
  | cpuId (index : ℕ)
  | ioapicAddr (index : ℕ)
  deriving DecidableEq

/-- `start` of the walk of `acpi_parse_apic`, and the variables. -/
structure ApicWalk where
  start : ℕ
  acpi : Acpi

/-- The type and the length of a record, which each pass of a walk reads first. -/
def headerFields (start : ℕ) : List MadtAccess :=
  [.field start 1, .field (start + 1) 1]

/-- The fields of a record of the walk of `acpi_parse_apic`, with the ones that are
only logged. -/
def recordFields (memory : ℕ → UInt8) (start : ℕ) : List MadtAccess :=
  if apicHeaderType memory start = localApic then
    headerFields start ++ [.field (start + 2) 1, .field (start + 3) 1, .field (start + 4) 4]
  else if apicHeaderType memory start = ioApic then
    headerFields start ++ [.field (start + 2) 1, .field (start + 4) 4, .field (start + 8) 4]
  else if apicHeaderType memory start = interruptOverride then
    headerFields start ++
      [.field (start + 4) 4, .field (start + 3) 1, .field (start + 2) 1, .field (start + 8) 2]
  else headerFields start

/-- A local APIC is recorded while there is room. -/
def parseLocalApic (start : ℕ) (s : Acpi) : List MadtAccess × Acpi :=
  if s.acpiCpuCount < 16 then
    ([.cpuId s.acpiCpuCount],
      { s with
        acpiCpuIds := Function.update s.acpiCpuIds s.acpiCpuCount (apicId s.memory start)
        acpiCpuCount := s.acpiCpuCount + 1 })
  else ([], s)

/-- An IOAPIC is mapped and recorded. -/
def parseIoApic (start : ℕ) (s : Acpi) : List MadtAccess × Except Halt Acpi :=
  match kernelMapDeviceMap s.devices (ioApicAddress s.memory start) with
  | .error halt => ([], .error halt)
  | .ok (address, devices) =>
      ([.ioapicAddr s.ioapicSize],
        .ok { s with
          devices := devices
          ioapicAddrs := Function.update s.ioapicAddrs s.ioapicSize address
          ioapicSize := (s.ioapicSize + 1) % 2 ^ 8 })

/-- One pass of the loop of `acpi_parse_apic`. When the table of IOAPICs counts as
full, the pass goes on at the same record. -/
def acpiParseApicPass (stop : ℕ) (walk : ApicWalk) :
    List MadtAccess × Pass ApicWalk (Except Halt Acpi) :=
  if walk.start < stop then
    let s := walk.acpi
    let next := nextRecord s.memory walk.start
    if apicHeaderType s.memory walk.start = localApic then
      (recordFields s.memory walk.start ++ (parseLocalApic walk.start s).1,
        .again ⟨next, (parseLocalApic walk.start s).2⟩)
    else if apicHeaderType s.memory walk.start = ioApic then
      if s.ioapicSize > 16 then (headerFields walk.start, .again walk)
      else
        (recordFields s.memory walk.start ++ (parseIoApic walk.start s).1,
          match (parseIoApic walk.start s).2 with
          | .error halt => .done (.error halt)
          | .ok s => .again ⟨next, s⟩)
    else (recordFields s.memory walk.start, .again ⟨next, s⟩)
  else ([], .done (.ok walk.acpi))

def acpiParseApicBody (stop : ℕ) (walk : ApicWalk) : Pass ApicWalk (Except Halt Acpi) :=
  (acpiParseApicPass stop walk).2

/-- The loop of `acpi_parse_apic`, for at most `fuel` passes. -/
def acpiParseApicLoop (fuel madt : ℕ) (s : Acpi) : Except Halt Acpi :=
  (run (acpiParseApicBody (endOfRecords s.memory madt)) fuel ⟨firstRecord madt, s⟩).getD
    (.error .endlessLoop)

/-- `memcpy` of `string.c`, to an address of the heap. -/
def memcpy (dest : Option ℕ) (source : ℕ → Except Halt UInt8) (len : ℕ) (memory : ℕ → UInt8) :
    Except Halt (ℕ → UInt8) :=
  match dest with
  | none => if len = 0 then .ok memory else .error .nullPointer
  | some dest => Bytes.store source (fun i => (dest + i) % 2 ^ 32) len 0 memory

/-- `acpi_parse_apic`: `madt` reads the table, and `copy` is the answer of `kmalloc`. -/
def acpiParseApic (fuel : ℕ) (copy : Option ℕ) (madt : ℕ → Except Halt UInt8) (s : Acpi) :
    Except Halt Acpi :=
  match Bytes.fetch madt 4 4 with
  | .error halt => .error halt
  | .ok length =>
      match memcpy copy madt length s.memory with
      | .error halt => .error halt
      | .ok memory =>
          match Bytes.fetch madt 36 4 with
          | .error halt => .error halt
          | .ok localApicAddr =>
              match kernelMapDeviceMap s.devices localApicAddr with
              | .error halt => .error halt
              | .ok (address, devices) =>
                  match copy with
                  | none => .error .nullPointer
                  | some copy =>
                      acpiParseApicLoop fuel copy
                        { s with
                          acpiMadtStruct := some copy
                          memory := memory
                          lapicAddr := address
                          devices := devices }

/-- One pass of the loop of `acpi_remap_irq`. -/
def acpiRemapIrqPass (memory : ℕ → UInt8) (stop irq start : ℕ) : List MadtAccess × Pass ℕ ℕ :=
  if start < stop then
    if apicHeaderType memory start = interruptOverride then
      if (overrideSource memory start).toNat = irq then
        (headerFields start ++ [.field (start + 3) 1, .field (start + 4) 4],
          .done (overrideInterrupt memory start))
      else (headerFields start ++ [.field (start + 3) 1], .again (nextRecord memory start))
    else (headerFields start, .again (nextRecord memory start))
  else ([], .done irq)

def acpiRemapIrqBody (memory : ℕ → UInt8) (stop irq start : ℕ) : Pass ℕ ℕ :=
  (acpiRemapIrqPass memory stop irq start).2

/-- `acpi_remap_irq`, for at most `fuel` passes. -/
def acpiRemapIrq (fuel : ℕ) (s : Acpi) (irq : ℕ) : Except Halt ℕ :=
  match s.acpiMadtStruct with
  | none => .error .nullPointer
  | some madt =>
      match run (acpiRemapIrqBody s.memory (endOfRecords s.memory madt) irq) fuel
          (firstRecord madt) with
      | none => .error .endlessLoop
      | some irq => .ok irq

end Osserver
