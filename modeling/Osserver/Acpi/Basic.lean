import Osserver.Paging.Basic

/-!
# Finding and mapping the ACPI tables

The parts of `generic/sys/acpi/acpi.c` that search for the root pointer and that
map a table, and `memcmp` of `string.c`. Physical memory is a function to bytes;
it does not change while the tables are read. The kernel reads it through
windows of its address space, so a read is translated by the page tables first.
The log messages are left out.
-/

namespace Osserver

/-- `PAGING_DEVMAP_START`. -/
def pagingDevmapStart : ℕ :=
  0xB8000000

/-- The byte at a virtual address below the kernel, as the processor reads it: the
entry of the page must be present. -/
def readByte (s : Paging) (ram : ℕ → UInt8) (virt : ℕ) : Except Halt UInt8 :=
  -- The processor finds the table by its frame in the directory. The tables are taken from the
  -- allocator, whose answers lie below 0xC0C00000 here, and there the frame is the table's.
  if s.pagingDir (pdindex virt) = 0 then .error .pageFault
  else
    match s.pagingDirectoryMap (pdindex virt) with
    | none => .error .pageFault
    | some table =>
        if s.tables table (ptindex virt) % 2 = 1 then
          .ok (ram (frame (s.tables table (ptindex virt)) + virt % 4096))
        else .error .pageFault

/-- The loop of `memcmp`: `count` bytes are left, from `i` on. -/
def memcmpLoop (s1 : ℕ → Except Halt UInt8) (s2 : ℕ → UInt8) : ℕ → ℕ → Except Halt ℕ
  | 0, _ => .ok 1
  | count + 1, i =>
      match s1 i with
      | .error halt => .error halt
      | .ok byte => if byte ≠ s2 i then .ok 0 else memcmpLoop s1 s2 count (i + 1)

/-- `memcmp` of `string.c`, which returns 1 when the strings are equal and 0 when
they are not. -/
def memcmp (s1 : ℕ → Except Halt UInt8) (s2 : ℕ → UInt8) (len : ℕ) : Except Halt ℕ :=
  memcmpLoop s1 s2 len 0

/-- The bytes of `"RSD PTR "`. -/
def rsdpSignature (i : ℕ) : UInt8 :=
  [0x52, 0x53, 0x44, 0x20, 0x50, 0x54, 0x52, 0x20].getD i 0

/-- The loop of `check_rsdp`: `count` bytes are left, from `i` on. -/
def checkRsdpLoop (read : ℕ → Except Halt UInt8) : ℕ → ℕ → UInt8 → Except Halt UInt8
  | 0, _, sum => .ok sum
  | count + 1, i, sum =>
      match read i with
      | .error halt => .error halt
      | .ok byte => checkRsdpLoop read count (i + 1) (sum + byte)

/-- `check_rsdp`: the sum of the first 20 bytes. -/
def checkRsdp (read : ℕ → Except Halt UInt8) : Except Halt UInt8 :=
  checkRsdpLoop read 20 0 0

/-- The loop of `search_rsdp_bios`: `count` paragraphs are left, from `offset` on.
`read` reads the window. -/
def searchRsdpLoop (read : ℕ → Except Halt UInt8) : ℕ → ℕ → Except Halt (Option ℕ)
  | 0, _ => .ok none
  | count + 1, offset =>
      match memcmp (fun i => read (offset + i)) rsdpSignature 8 with
      | .error halt => .error halt
      | .ok result =>
          if result = 0 then
            match checkRsdp (fun i => read (offset + i)) with
            | .error halt => .error halt
            | .ok sum =>
                if sum ≠ 0 then searchRsdpLoop read count (offset + 16)
                else .ok (some offset)
          else searchRsdpLoop read count (offset + 16)

/-- `search_rsdp_bios`: the window address of the root pointer, or 0. -/
def searchRsdpBios (alloc : ℕ → Option ℕ) (ram : ℕ → UInt8) (s : Paging) :
    Except Halt (ℕ × Paging) :=
  match pagingMap alloc s 0xE0000 pagingDevmapStart 0x20000 0 with
  | .error halt => .error halt
  | .ok (false, _) => .error (.kpanic "Cannot map bios rsdp entry")
  | .ok (true, s) =>
      match searchRsdpLoop (fun i => readByte s ram (pagingDevmapStart + i)) 8192 0 with
      | .error halt => .error halt
      | .ok (some offset) => .ok (pagingDevmapStart + offset, s)
      | .ok none =>
          match pagingUnmap s pagingDevmapStart 0x20000 with
          | .error halt => .error halt
          | .ok (false, _) => .error (.kpanic "Cannot unmap bios rsdp entry")
          | .ok (true, s) => .ok (0, s)

/-- The window of `acpi_parse_rsdt` for a table. -/
def rsdtWindow : ℕ :=
  pagingDevmapStart + 0x2000000

theorem rsdtWindow_eq : rsdtWindow = 0xBA000000 := rfl

/-- The first mapping of `acpi_parse_rsdt` for a table: a page, for its header. -/
def acpiMapHeader (alloc : ℕ → Option ℕ) (s : Paging) (address : ℕ) : Except Halt Paging :=
  match pagingMap alloc s address rsdtWindow 4096 0 with
  | .error halt => .error halt
  | .ok (false, _) => .error (.kpanic "Cannot map ACPI rsdt")
  | .ok (true, s) => .ok s

/-- The second mapping of `acpi_parse_rsdt` for a table, once its length is known. -/
def acpiMapTable (alloc : ℕ → Option ℕ) (s : Paging) (address len : ℕ) : Except Halt Paging :=
  match pagingUnmap s rsdtWindow 4096 with
  | .error halt => .error halt
  | .ok (false, _) => .error (.kpanic "Cannot unmap ACPI rsdt")
  | .ok (true, s) =>
      match pagingMap alloc s address rsdtWindow len 0 with
      | .error halt => .error halt
      | .ok (false, _) => .error (.kpanic "Cannot map again ACPI rsdt")
      | .ok (true, s) => .ok s

end Osserver
