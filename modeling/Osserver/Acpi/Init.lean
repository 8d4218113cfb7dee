import Osserver.Acpi.Tables

/-!
# From the root pointer to the tables

The model of `search_rsdp_ebda`, `acpi_parse_rsdp` and `acpi_init` of
`generic/sys/acpi/acpi.c`. The window in which a search has found the root pointer stays
mapped until `acpi_init` unmaps it. The log messages are left out.
-/

namespace Osserver

open Bytes

/-- `if (!paging_map(..)) kpanic(message);` -/
def mapOrPanic (alloc : ℕ → Option ℕ) (s : Paging) (phys virt size : ℕ) (message : String) :
    Except Halt Paging :=
  match pagingMap alloc s phys virt size 0 with
  | .error halt => .error halt
  | .ok (false, _) => .error (.kpanic message)
  | .ok (true, s) => .ok s

/-- `if (!paging_unmap(..)) kpanic(message);` -/
def unmapOrPanic (s : Paging) (virt size : ℕ) (message : String) : Except Halt Paging :=
  match pagingUnmap s virt size with
  | .error halt => .error halt
  | .ok (false, _) => .error (.kpanic message)
  | .ok (true, s) => .ok s

/-- A search for the root pointer: `size` bytes from `phys` on are mapped, and `count`
paragraphs from the offset `base` on are tested. The result is the window address of the root
pointer, with the window still mapped, or 0. -/
def searchRsdp (mapPanic unmapPanic : String) (phys size base count : ℕ) (alloc : ℕ → Option ℕ)
    (ram : ℕ → UInt8) (s : Paging) : Except Halt (ℕ × Paging) := do
  let s ← mapOrPanic alloc s phys pagingDevmapStart size mapPanic
  let found ← searchRsdpLoop (fun i => readByte s ram (pagingDevmapStart + base + i)) count 0
  match found with
  | some offset => return (pagingDevmapStart + base + offset, s)
  | none =>
      let s ← unmapOrPanic s pagingDevmapStart size unmapPanic
      return (0, s)

/-- `search_rsdp_ebda`. -/
def searchRsdpEbda : (ℕ → Option ℕ) → (ℕ → UInt8) → Paging → Except Halt (ℕ × Paging) :=
  searchRsdp "Cannot map ebda rsdp sector" "Cannot unmap ebda rsdp entry" 0 0x400 0x40E 64

theorem searchRsdpBios_eq (alloc : ℕ → Option ℕ) (ram : ℕ → UInt8) (s : Paging) :
    searchRsdpBios alloc ram s =
      searchRsdp "Cannot map bios rsdp entry" "Cannot unmap bios rsdp entry" 0xE0000 0x20000 0 8192
        alloc ram s := by
  simp only [searchRsdpBios, searchRsdp, mapOrPanic, bind, Except.bind]
  rcases pagingMap alloc s 0xE0000 pagingDevmapStart 0x20000 0 with halt | ⟨_ | _, mapped⟩
  · rfl
  · rfl
  · simp only [Nat.add_zero]
    rcases searchRsdpLoop (fun i => readByte mapped ram (pagingDevmapStart + i)) 8192 0 with
      halt | _ | offset
    · rfl
    · simp only [unmapOrPanic]
      rcases pagingUnmap mapped pagingDevmapStart 0x20000 with halt | ⟨_ | _, unmapped⟩
      · rfl
      · rfl
      · rfl
    · rfl

/-- The window of `acpi_parse_rsdp` for the RSDT or the XSDT. -/
def rootWindow : ℕ :=
  pagingDevmapStart + 0x1000000

theorem rootWindow_eq : rootWindow = 0xB9000000 := rfl

/-- What `acpi_parse_rsdp` panics with when it cannot map a root table or unmap it. -/
structure RootPanics where
  map : String
  unmap : String
  mapAgain : String
  unmapAgain : String

def rsdtPanics : RootPanics where
  map := "Cannot map ACPI rsdt table"
  unmap := "Cannot unmap ACPI rsdt table"
  mapAgain := "Cannot map again ACPI rsdt table"
  unmapAgain := "Cannot unmap again ACPI rsdt table"

def xsdtPanics : RootPanics where
  map := "Cannot map ACPI xsdt table"
  unmap := "Cannot unmap ACPI xsdt table"
  mapAgain := "Cannot map again ACPI xsdt table"
  unmapAgain := "Cannot unmap again ACPI xsdt table"

/-- What `acpi_parse_rsdp` does with the root table at `address`: a page is mapped for its
length field; then the table is mapped, parsed and unmapped. -/
def acpiParseRootTable (c : AcpiContext) (panics : RootPanics)
    (parse : ℕ → Paging → Acpi → List TableEvent × Except Halt TableState) (address : ℕ)
    (s : Paging) (acpi : Acpi) : Except Halt (Paging × Acpi) := do
  let header ← mapOrPanic c.alloc s address rootWindow 4096 panics.map
  let length ← fetch (readFrom header acpi.devices c.ram (rootWindow + address % 4096)) 4 4
  let unmapped ← unmapOrPanic header rootWindow 4096 panics.unmap
  let table ← mapOrPanic c.alloc unmapped address rootWindow length panics.mapAgain
  let parsed ← (parse (rootWindow + address % 4096) table acpi).2
  let s ← unmapOrPanic parsed.paging rootWindow length panics.unmapAgain
  return (s, parsed.acpi)

/-- The part of `acpi_parse_rsdp` behind the checksum. A pointer has 32 bits, so that
`paging_map` gets the lower half of the address of the XSDT. -/
def acpiParseVersion (c : AcpiContext) (rsdp : ℕ → Except Halt UInt8) (s : Paging) (acpi : Acpi) :
    Except Halt (Paging × Acpi) := do
  let revision ← rsdp 15
  if revision = 0 then
    let rsdtAddr ← fetch rsdp 16 4
    acpiParseRootTable c rsdtPanics (acpiParseRsdt c) rsdtAddr s
      { acpi with acpiPs2ControllerExists := true }
  else if revision = 2 then
    let rsdtAddr ← fetch rsdp 16 4
    let xsdtAddr ← fetch rsdp 24 8
    if xsdtAddr ≠ 0 then
      acpiParseRootTable c xsdtPanics (acpiParseXsdt c) (xsdtAddr % 2 ^ 32) s acpi
    else acpiParseRootTable c rsdtPanics (acpiParseRsdt c) rsdtAddr s acpi
  else .error (.kpanic "Unknown ACPI rsdp version")

/-- `acpi_parse_rsdp`. -/
def acpiParseRsdp (c : AcpiContext) (ptr : ℕ) (s : Paging) (acpi : Acpi) :
    Except Halt (Bool × Paging × Acpi) := do
  let sum ← checkRsdp (readFrom s acpi.devices c.ram ptr)
  if sum ≠ 0 then return (false, s, acpi)
  else
    let (s, acpi) ← acpiParseVersion c (readFrom s acpi.devices c.ram ptr) s acpi
    return (true, s, acpi)

/-- `acpi_init`. -/
def acpiInit (c : AcpiContext) (s : Paging) (acpi : Acpi) : Except Halt (Paging × Acpi) := do
  let (ptr, s) ← searchRsdpBios c.alloc c.ram s
  if ptr = 0 then
    let (ptr, s) ← searchRsdpEbda c.alloc c.ram s
    if ptr = 0 then .error (.kpanic "Cannot find ACPI tables")
    else
      let (_, s, acpi) ← acpiParseRsdp c ptr s acpi
      let s ← unmapOrPanic s pagingDevmapStart 0x400 "Cannot unmap ebda rsdp entry"
      return (s, acpi)
  else
    let (_, s, acpi) ← acpiParseRsdp c ptr s acpi
    let s ← unmapOrPanic s pagingDevmapStart 0x20000 "Cannot unmap ebda rsdp entry"
    return (s, acpi)

end Osserver
