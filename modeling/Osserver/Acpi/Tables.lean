import Osserver.Acpi.Madt
import Osserver.Paging.HeapTranslation

/-!
# The tables of the RSDT and the XSDT

The model of `acpi_parse_fadt`, `acpi_parse_dt`, `acpi_parse_rsdt` and
`acpi_parse_xsdt` of `generic/sys/acpi/acpi.c`. The root table and the tables are
read at virtual addresses, through the page tables of the moment.

Both paths list the tables they parse, and the bytes of tables they read: for each
the physical address of the byte, and the one its virtual address leads to. What
is read of a table is listed as if no byte of it faulted.
-/

namespace Osserver

open Loop Bytes

/-- The physical address that a word of a page table leads to, if its page is present. -/
def pageOf (word virt : ℕ) : Option ℕ :=
  if word % 2 = 1 then some (frame word + virt % 4096) else none

/-- The physical address behind a virtual one, as the processor finds it: below the
kernel by the tables that `paging_map` has entered, then by the 4 MiB pages, the heap
tables and `dev_page` of `bootstrap.asm`. -/
def translate (s : Paging) (devices : DeviceMap) (virt : ℕ) : Option ℕ :=
  if pdindex virt < 768 then
    -- The processor finds the table by its frame in the directory. The tables are taken from the
    -- allocator, whose answers lie below 0xC0C00000 here, and there the frame is the table's.
    if s.pagingDir (pdindex virt) = 0 then none
    else
      match s.pagingDirectoryMap (pdindex virt) with
      | none => none
      | some table => pageOf (s.tables table (ptindex virt)) virt
  else if s.pagingDir (pdindex virt) % 2 = 0 then none
  else if s.pagingDir (pdindex virt) / 128 % 2 = 1 then
    some (s.pagingDir (pdindex virt) / 2 ^ 22 * 2 ^ 22 + virt % 2 ^ 22)
  else if pdindex virt = 778 then pageOf (devices.devPage (ptindex virt)) virt
  else pageOf (bootPageWord s.higherPages virt) virt

/-- The byte at a virtual address. -/
def readVirtual (s : Paging) (devices : DeviceMap) (ram : ℕ → UInt8) (virt : ℕ) :
    Except Halt UInt8 :=
  match translate s devices virt with
  | none => .error .pageFault
  | some phys => .ok (ram phys)

/-- The bytes from a virtual address on. -/
def readFrom (s : Paging) (devices : DeviceMap) (ram : ℕ → UInt8) (virt offset : ℕ) :
    Except Halt UInt8 :=
  readVirtual s devices ram ((virt + offset) % 2 ^ 32)

/-- `acpi_parse_fadt`. What follows from `smi_command_port` is only a log message. -/
def acpiParseFadt (fadt : ℕ → Except Halt UInt8) (s : Acpi) : Except Halt Acpi :=
  if s.acpiPs2ControllerExists then
    match fetch fadt 48 4 with
    | .error halt => .error halt
    | .ok _ => .ok s
  else
    match fetch fadt 109 2 with
    | .error halt => .error halt
    | .ok bootArchitectureFlags =>
        match fetch fadt 48 4 with
        | .error halt => .error halt
        | .ok _ =>
            .ok { s with acpiPs2ControllerExists := decide (bootArchitectureFlags / 2 % 2 = 1) }

/-- `acpi_parse_dt`: the signatures are `FACP` and `APIC`. -/
def acpiParseDt (fuel : ℕ) (copy : Option ℕ) (header : ℕ → Except Halt UInt8) (s : Acpi) :
    Except Halt Acpi :=
  match fetch header 0 4 with
  | .error halt => .error halt
  | .ok signature =>
      if signature = 0x50434146 then acpiParseFadt header s
      else if signature = 0x43495041 then acpiParseApic fuel copy header s
      else .ok s

/-- The offsets of the bytes that `acpi_parse_fadt` reads. -/
def fadtReads (s : Acpi) : List ℕ :=
  if s.acpiPs2ControllerExists then List.range' 48 4
  else List.range' 109 2 ++ List.range' 48 4

/-- The offsets of the bytes that `acpi_parse_apic` reads. -/
def apicReads (copy : Option ℕ) (madt : ℕ → Except Halt UInt8) : List ℕ :=
  List.range' 4 4 ++
    match fetch madt 4 4 with
    | .error _ => []
    | .ok length =>
        if copy = none ∧ length ≠ 0 then [] else List.range' 0 length ++ List.range' 36 4

/-- The offsets of the bytes that `acpi_parse_dt` reads. -/
def dtReads (copy : Option ℕ) (header : ℕ → Except Halt UInt8) (s : Acpi) : List ℕ :=
  List.range' 0 4 ++
    match fetch header 0 4 with
    | .error _ => []
    | .ok signature =>
        if signature = 0x50434146 then fadtReads s
        else if signature = 0x43495041 then apicReads copy header
        else []

/-- What the tables are parsed with: physical memory, the answers of
`kmem_liballoc_alloc` for the directory slots, the answer of `kmalloc` for each table
by its number, and how many passes of the loop of `acpi_parse_apic` are made. -/
structure AcpiContext where
  ram : ℕ → UInt8
  alloc : ℕ → Option ℕ
  kmalloc : ℕ → Option ℕ
  fuel : ℕ

/-- A byte of a table is read, by its physical address, through a virtual address that
leads to `reached`; or `acpi_parse_dt` is called for the table at the physical address. -/
inductive TableEvent where
  | reads (byte : ℕ) (reached : Option ℕ)
  | parses (address : ℕ)
  deriving DecidableEq

/-- The state of both loops: how many tables have been parsed, the page tables, and the
variables. -/
structure TableState where
  number : ℕ
  paging : Paging
  acpi : Acpi

/-- The reads of bytes of the table at `address` that the kernel has at `virt`. -/
def readEvents (s : Paging) (devices : DeviceMap) (virt address : ℕ) (offsets : List ℕ) :
    List TableEvent :=
  offsets.map fun offset =>
    .reads ((address + offset) % 2 ^ 32) (translate s devices ((virt + offset) % 2 ^ 32))

/-- The call of `acpi_parse_dt` for the table at `address` that the kernel has at `virt`. -/
def parseEvents (c : AcpiContext) (virt address : ℕ) (state : TableState) : List TableEvent :=
  .parses address :: readEvents state.paging state.acpi.devices virt address
    (dtReads (c.kmalloc state.number)
      (readFrom state.paging state.acpi.devices c.ram virt) state.acpi)

def parseAt (c : AcpiContext) (virt : ℕ) (state : TableState) : Except Halt TableState :=
  (acpiParseDt c.fuel (c.kmalloc state.number)
    (readFrom state.paging state.acpi.devices c.ram virt) state.acpi).map
      fun s => ⟨state.number + 1, state.paging, s⟩

/-- The window address of a table. -/
def windowAt (address : ℕ) : ℕ :=
  rsdtWindow + address % 4096

/-- The last unmapping of `acpi_parse_rsdt` for a table. -/
def acpiUnmapTable (s : Paging) (len : ℕ) : Except Halt Paging :=
  match pagingUnmap s rsdtWindow len with
  | .error halt => .error halt
  | .ok (false, _) => .error (.kpanic "Cannot unmap again ACPI rsdt")
  | .ok (true, s) => .ok s

/-- What `acpi_parse_rsdt` does with a table whose page for the header is mapped. -/
def acpiParseMapped (c : AcpiContext) (address : ℕ) (state : TableState) :
    List TableEvent × Except Halt TableState :=
  let field := readEvents state.paging state.acpi.devices (windowAt address) address
    (List.range' 4 4)
  match fetch (readFrom state.paging state.acpi.devices c.ram (windowAt address)) 4 4 with
  | .error halt => (field, .error halt)
  | .ok len =>
      match acpiMapTable c.alloc state.paging address len with
      | .error halt => (field, .error halt)
      | .ok table =>
          (field ++ parseEvents c (windowAt address) address { state with paging := table },
            match parseAt c (windowAt address) { state with paging := table } with
            | .error halt => .error halt
            | .ok parsed =>
                match acpiUnmapTable parsed.paging len with
                | .error halt => .error halt
                | .ok paging => .ok { parsed with paging := paging })

/-- What `acpi_parse_rsdt` does with an entry. -/
def rsdtVisit (c : AcpiContext) (address : ℕ) (state : TableState) :
    List TableEvent × Except Halt TableState :=
  match acpiMapHeader c.alloc state.paging address with
  | .error halt => ([], .error halt)
  | .ok header => acpiParseMapped c address { state with paging := header }

/-- What `acpi_parse_xsdt` does with an entry, which it takes for a pointer. -/
def xsdtVisit (c : AcpiContext) (address : ℕ) (state : TableState) :
    List TableEvent × Except Halt TableState :=
  (parseEvents c (address % 2 ^ 32) address state, parseAt c (address % 2 ^ 32) state)

/-- `start` of both loops, and their state. -/
structure TableWalk where
  start : ℕ
  state : TableState

/-- One pass of either loop, for entries of `width` bytes. -/
def tablesPass (c : AcpiContext)
    (visit : ℕ → TableState → List TableEvent × Except Halt TableState) (width stop : ℕ)
    (walk : TableWalk) : List TableEvent × Pass TableWalk (Except Halt TableState) :=
  if walk.start < stop then
    match fetch (readFrom walk.state.paging walk.state.acpi.devices c.ram walk.start) 0 width with
    | .error halt => ([], .done (.error halt))
    | .ok address =>
        ((visit address walk.state).1,
          match (visit address walk.state).2 with
          | .error halt => .done (.error halt)
          | .ok next => .again ⟨(walk.start + width) % 2 ^ 32, next⟩)
  else ([], .done (.ok walk.state))

/-- `acpi_parse_rsdt` and `acpi_parse_xsdt`, for a root table at `root`. A start below
2^32 comes again after at most 2^30 passes. -/
def parseRoot (c : AcpiContext)
    (visit : ℕ → TableState → List TableEvent × Except Halt TableState) (width root : ℕ)
    (state : TableState) : List TableEvent × Except Halt TableState :=
  match fetch (readFrom state.paging state.acpi.devices c.ram root) 4 4 with
  | .error halt => ([], .error halt)
  | .ok length =>
      let pass := tablesPass c visit width ((root + length) % 2 ^ 32)
      let start : TableWalk := ⟨(root + 36) % 2 ^ 32, state⟩
      (trace pass (2 ^ 30 + 1) start,
        (run (fun walk => (pass walk).2) (2 ^ 30 + 1) start).getD (.error .endlessLoop))

def acpiParseRsdt (c : AcpiContext) (rsdt : ℕ) (paging : Paging) (s : Acpi) :
    List TableEvent × Except Halt TableState :=
  parseRoot c (rsdtVisit c) 4 rsdt ⟨0, paging, s⟩

def acpiParseXsdt (c : AcpiContext) (xsdt : ℕ) (paging : Paging) (s : Acpi) :
    List TableEvent × Except Halt TableState :=
  parseRoot c (xsdtVisit c) 8 xsdt ⟨0, paging, s⟩

section Congruence

variable {header other : ℕ → Except Halt UInt8} {copy : Option ℕ} {s : Acpi}

theorem fetch_eq_of_reads {offset width : ℕ} {offsets : List ℕ}
    (agree : ∀ i ∈ offsets, header i = other i)
    (listed : ∀ i < width, offset + i ∈ offsets) :
    fetch header offset width = fetch other offset width :=
  fetch_congr fun i inside => agree (offset + i) (listed i inside)

theorem mem_range'_of_lt {offset width i : ℕ} (inside : i < width) :
    offset + i ∈ List.range' offset width := by
  rw [List.mem_range'_1]
  omega

theorem acpiParseFadt_congr (agree : ∀ i ∈ fadtReads s, header i = other i) :
    acpiParseFadt header s = acpiParseFadt other s := by
  rw [fadtReads] at agree
  by_cases known : s.acpiPs2ControllerExists = true
  · rw [if_pos known] at agree
    have port := fetch_eq_of_reads agree (fun i inside => mem_range'_of_lt inside)
    rw [acpiParseFadt, acpiParseFadt, if_pos known, if_pos known, port]
  · rw [if_neg known] at agree
    have port := @fetch_eq_of_reads header other 48 4 _ agree
      (fun i inside => List.mem_append_right _ (mem_range'_of_lt inside))
    have flags := @fetch_eq_of_reads header other 109 2 _ agree
      (fun i inside => List.mem_append_left _ (mem_range'_of_lt inside))
    rw [acpiParseFadt, acpiParseFadt, if_neg known, if_neg known, port, flags]

theorem apicReads_congr (agree : ∀ i ∈ apicReads copy header, header i = other i) :
    apicReads copy header = apicReads copy other := by
  have field := @fetch_eq_of_reads header other 4 4 _ agree
    (fun i inside => List.mem_append_left _ (mem_range'_of_lt inside))
  rw [apicReads, apicReads, field]

theorem acpiParseApic_congr (fuel : ℕ) (agree : ∀ i ∈ apicReads copy header, header i = other i) :
    acpiParseApic fuel copy header s = acpiParseApic fuel copy other s := by
  have field := @fetch_eq_of_reads header other 4 4 _ agree
    (fun i inside => List.mem_append_left _ (mem_range'_of_lt inside))
  rw [acpiParseApic, acpiParseApic, ← field]
  cases fetches : fetch header 4 4 with
  | error halt => rfl
  | ok length =>
      rw [apicReads, fetches] at agree
      by_cases refused : copy = none ∧ length ≠ 0
      · rcases refused with ⟨rfl, nonzero⟩
        simp only [memcpy, if_neg nonzero]
      · simp only [if_neg refused] at agree
        have source : memcpy copy header length s.memory = memcpy copy other length s.memory := by
          rcases copy with _ | copy
          · rfl
          · apply store_congr
            intro i inside
            exact agree _ (List.mem_append_right _ (List.mem_append_left _
              (mem_range'_of_lt inside)))
        have localApicAddr := @fetch_eq_of_reads header other 36 4 _ agree
          (fun i inside => List.mem_append_right _ (List.mem_append_right _
            (mem_range'_of_lt inside)))
        simp only [source, localApicAddr]

/-- What `acpi_parse_dt` does, and which bytes it reads, depends on these bytes only. -/
theorem acpiParseDt_congr (fuel : ℕ) (agree : ∀ i ∈ dtReads copy header s, header i = other i) :
    acpiParseDt fuel copy header s = acpiParseDt fuel copy other s ∧
      dtReads copy header s = dtReads copy other s := by
  have signature := @fetch_eq_of_reads header other 0 4 _ agree
    (fun i inside => List.mem_append_left _ (mem_range'_of_lt inside))
  rw [acpiParseDt, acpiParseDt, dtReads, dtReads, ← signature]
  cases fetches : fetch header 0 4 with
  | error halt => exact ⟨rfl, rfl⟩
  | ok value =>
      rw [dtReads, fetches] at agree
      simp only
      by_cases isFadt : value = 0x50434146
      · simp only [if_pos isFadt] at agree ⊢
        refine ⟨acpiParseFadt_congr ?_, trivial⟩
        exact fun i listed => agree i (List.mem_append_right _ listed)
      · simp only [if_neg isFadt] at agree ⊢
        by_cases isApic : value = 0x43495041
        · simp only [if_pos isApic] at agree ⊢
          have listed : ∀ i ∈ apicReads copy header, header i = other i :=
            fun i listed => agree i (List.mem_append_right _ listed)
          rw [apicReads_congr listed]
          exact ⟨acpiParseApic_congr fuel listed, rfl⟩
        · simp only [if_neg isApic, and_self]

/-- The bytes that are read of a table lie in its first 111 bytes, where the fields of a
header, an FADT and a MADT are, or in its length. -/
theorem dtReads_bound {length i : ℕ} (fetches : fetch header 4 4 = .ok length)
    (listed : i ∈ dtReads copy header s) : i < 111 ∨ i < length := by
  rw [dtReads, List.mem_append, List.mem_range'_1] at listed
  rcases listed with signature | listed
  · omega
  · split at listed
    · cases listed
    · split_ifs at listed
      · rw [fadtReads] at listed
        split_ifs at listed
        · rw [List.mem_range'_1] at listed
          omega
        · rw [List.mem_append, List.mem_range'_1, List.mem_range'_1] at listed
          omega
      · rw [apicReads, fetches, List.mem_append, List.mem_range'_1] at listed
        simp only at listed
        split_ifs at listed
        · simp at listed
          omega
        · rw [List.mem_append, List.mem_range'_1, List.mem_range'_1] at listed
          omega
      · cases listed

end Congruence

end Osserver
