import Osserver.Acpi.MadtWalk
import Osserver.Acpi.TableWindow

/-!
# The paths of the RSDT and the XSDT

`acpi_parse_rsdt` maps each table into a window; `acpi_parse_xsdt` takes the
physical address of a table for a pointer. The two agree, and read the tables and
nothing else, exactly when each table that they come to is mapped at its own
physical address on the second path, and fits into the window on the first.
-/

namespace Osserver

open Loop Bytes

/-- The bytes of a table where it lies. -/
def inPlace (ram : ℕ → UInt8) (address offset : ℕ) : Except Halt UInt8 :=
  .ok (ram ((address + offset) % 2 ^ 32))

/-- The length field of a table. -/
def tableLength (ram : ℕ → UInt8) (address : ℕ) : ℕ :=
  word (fun offset => ram ((address + offset) % 2 ^ 32)) 4 4

/-- A read is of the byte that is meant. -/
def TableEvent.Mapped : TableEvent → Prop
  | .reads byte reached => reached = some byte
  | .parses _ => True

/-- The table that `acpi_parse_dt` is called for. -/
def TableEvent.parsed : TableEvent → Option ℕ
  | .reads _ _ => none
  | .parses address => some address

/-- `acpi_cpu_count`, `acpi_cpu_ids`, `acpi_apic_info` and `acpi_ps2_controller_exists`. -/
def TableState.globals (state : TableState) : ℕ × (ℕ → UInt8) × ℕ × ℕ × (ℕ → ℕ) × Bool :=
  (state.acpi.acpiCpuCount, state.acpi.acpiCpuIds, state.acpi.lapicAddr, state.acpi.ioapicSize,
    state.acpi.ioapicAddrs, state.acpi.acpiPs2ControllerExists)

/-- Both paths read a table only through addresses that are mapped to it; they parse the
same tables, in the same order; and they leave the same variables, or stop the machine
in the same way. -/
structure PathsAgree (rsdt xsdt : List TableEvent × Except Halt TableState) : Prop where
  rsdtMapped : ∀ event ∈ rsdt.1, event.Mapped
  xsdtMapped : ∀ event ∈ xsdt.1, event.Mapped
  sameParses : rsdt.1.filterMap TableEvent.parsed = xsdt.1.filterMap TableEvent.parsed
  sameVariables : rsdt.2.map TableState.globals = xsdt.2.map TableState.globals

/-- A root table at `root`, below the kernel, lists the tables at the addresses in entries
of `width` bytes. -/
structure RootLists (c : AcpiContext) (width root : ℕ) (addresses : List ℕ) (s : Paging)
    (devices : DeviceMap) : Prop where
  low : root + (36 + width * addresses.length) ≤ 0xC0000000
  length : fetch (readFrom s devices c.ram root) 4 4 = .ok (36 + width * addresses.length)
  entries : ∀ i (inside : i < addresses.length),
    fetch (readFrom s devices c.ram root) (36 + width * i) width = .ok addresses[i]

/-- The bytes of the table at `address` lie behind the virtual addresses from `virt` on. -/
def LeadsTo (s : Paging) (devices : DeviceMap) (virt address : ℕ) (offsets : List ℕ) : Prop :=
  ∀ i ∈ offsets,
    translate s devices ((virt + i) % 2 ^ 32) = some ((address + i) % 2 ^ 32)

/-- The bytes that are read of the table of a number are mapped at their own physical
addresses; and they, and the length field, fit into the window. -/
structure ReadableBothWays (c : AcpiContext) (x : Paging) (address number : ℕ) (s : Acpi) :
    Prop where
  identity : LeadsTo x s.devices address address
    (dtReads (c.kmalloc number) (inPlace c.ram address) s)
  field : address % 4096 + 8 ≤ 4096
  length : tableLength c.ram address ≤ 4096 * windowPages
  window : ∀ i ∈ dtReads (c.kmalloc number) (inPlace c.ram address) s,
    address % 4096 + i < 4096 * Stride.passes 4096 (tableLength c.ram address)

/-- Each table that is come to is readable both ways: the parses of the tables before it
do not stop the machine. -/
def AllReadable (c : AcpiContext) (x : Paging) : List ℕ → ℕ → Acpi → Prop
  | [], _, _ => True
  | address :: rest, number, s =>
      ReadableBothWays c x address number s ∧
        ∀ s', acpiParseDt c.fuel (c.kmalloc number) (inPlace c.ram address) s = .ok s' →
          AllReadable c x rest (number + 1) s'

theorem fetch_inPlace (ram : ℕ → UInt8) (address : ℕ) :
    fetch (inPlace ram address) 4 4 = .ok (tableLength ram address) :=
  fetch_of_reads fun _ _ => rfl

section Reads

variable {s : Paging} {devices : DeviceMap} {virt address : ℕ} {offsets : List ℕ}

theorem readEvents_mapped_iff :
    (∀ event ∈ readEvents s devices virt address offsets, event.Mapped) ↔
      LeadsTo s devices virt address offsets := by
  simp [readEvents, LeadsTo, TableEvent.Mapped]

theorem readEvents_parsed :
    (readEvents s devices virt address offsets).filterMap TableEvent.parsed = [] := by
  simp [readEvents, TableEvent.parsed]

theorem LeadsTo.reads (leads : LeadsTo s devices virt address offsets) (ram : ℕ → UInt8) :
    ∀ i ∈ offsets, readFrom s devices ram virt i = inPlace ram address i := by
  intro i listed
  simp only [readFrom, readVirtual, leads i listed, inPlace]

end Reads

section Parses

variable {c : AcpiContext} {virt address : ℕ} {state : TableState}

/-- The bytes that the parse reads are the table's, exactly when the bytes that a parse of
the table where it lies reads are mapped. -/
theorem parseEvents_mapped_iff :
    (∀ event ∈ parseEvents c virt address state, event.Mapped) ↔
      LeadsTo state.paging state.acpi.devices virt address
        (dtReads (c.kmalloc state.number) (inPlace c.ram address) state.acpi) := by
  rw [parseEvents, List.forall_mem_cons, readEvents_mapped_iff]
  constructor
  · rintro ⟨_, leads⟩
    have same := acpiParseDt_congr c.fuel (leads.reads c.ram)
    rw [← same.2]
    exact leads
  · intro leads
    have same := acpiParseDt_congr c.fuel (fun i listed => (leads.reads c.ram i listed).symm)
    rw [← same.2]
    exact ⟨trivial, leads⟩

theorem parseEvents_parsed :
    (parseEvents c virt address state).filterMap TableEvent.parsed = [address] := by
  rw [parseEvents, List.filterMap_cons, readEvents_parsed]
  rfl

/-- Then the parse does what it does to the table where it lies. -/
theorem parseAt_inPlace
    (leads : LeadsTo state.paging state.acpi.devices virt address
      (dtReads (c.kmalloc state.number) (inPlace c.ram address) state.acpi)) :
    parseAt c virt state =
      (acpiParseDt c.fuel (c.kmalloc state.number) (inPlace c.ram address) state.acpi).map
        fun s => ⟨state.number + 1, state.paging, s⟩ := by
  have same := acpiParseDt_congr c.fuel (fun i listed => (leads.reads c.ram i listed).symm)
  rw [parseAt, ← same.1]

theorem parseAt_paging {next : TableState} (returns : parseAt c virt state = .ok next) :
    next.paging = state.paging := by
  rw [parseAt] at returns
  cases parses : acpiParseDt c.fuel (c.kmalloc state.number)
      (readFrom state.paging state.acpi.devices c.ram virt) state.acpi with
  | error halt =>
      rw [parses] at returns
      cases returns
  | ok s =>
      rw [parses] at returns
      cases returns
      rfl

end Parses

section Window

variable {bootPages : ℕ} {alloc : ℕ → Option ℕ} {s t : Paging} {address i : ℕ}

theorem WindowClear.translates_at {passes : ℕ} (clear : WindowClear bootPages alloc s)
    (few : passes ≤ windowPages)
    (mapped : MapEffect alloc address rsdtWindow 0 0 passes s t) (devices : DeviceMap)
    (inside : address % 4096 + i < 4096 * windowPages) :
    translate t devices ((windowAt address + i) % 2 ^ 32) =
      if address % 4096 + i < 4096 * passes then some ((address + i) % 2 ^ 32) else none := by
  have window := rsdtWindow_eq
  have unwrapped : (windowAt address + i) % 2 ^ 32 = rsdtWindow + (address % 4096 + i) := by
    rw [windowPages] at inside
    rw [windowAt, window]
    omega
  have place : address - address % 4096 + (address % 4096 + i) = address + i := by omega
  rw [unwrapped, clear.translates few mapped devices inside, place]

/-- The bytes of a table that is mapped in the window lie there exactly when they are on
the pages that are mapped for its length. -/
theorem WindowClear.leadsTo_iff {length : ℕ} {offsets : List ℕ}
    (clear : WindowClear bootPages alloc s) (consistent : Consistent bootPages t)
    (mapped : MapEffect alloc address rsdtWindow 0 0 (Stride.passes 4096 length) s t)
    (devices : DeviceMap) (short : length ≤ 4096 * windowPages)
    (below : address + length ≤ 2 ^ 32) (bounded : ∀ i ∈ offsets, i < 111 ∨ i < length) :
    LeadsTo t devices (windowAt address) address offsets ↔
      ∀ i ∈ offsets, address % 4096 + i < 4096 * Stride.passes 4096 length := by
  have few := passes_le_windowPages short
  apply forall₂_congr
  intro i listed
  rcases Nat.lt_or_ge (address % 4096 + i) (4096 * windowPages) with inside | behind
  · rw [clear.translates_at few mapped devices inside]
    simp
  · have notMapped : ¬address % 4096 + i < 4096 * Stride.passes 4096 length := by omega
    have window := rsdtWindow_eq
    have inTable := bounded i listed
    rw [windowPages] at behind short
    have onKernel : (windowAt address + i) % 2 ^ 32 =
        0xC0000000 + (address % 4096 + i - 4096 * 24576) := by
      rw [windowAt, window]
      omega
    rw [onKernel, translate_kernel consistent devices (by omega)]
    simp only [notMapped, iff_false, Option.some.injEq]
    omega

end Window

section Field

variable {bootPages : ℕ} {alloc : ℕ → Option ℕ} {s header : Paging} {address : ℕ}

/-- The page that is mapped for the header has the bytes of the table up to its end. -/
theorem WindowClear.header_translates (clear : WindowClear bootPages alloc s)
    (mapped : MapEffect alloc address rsdtWindow 0 0 (Stride.passes 4096 4096) s header)
    (devices : DeviceMap) {i : ℕ} (inField : i < 8) :
    translate header devices ((windowAt address + i) % 2 ^ 32) =
      if address % 4096 + i < 4096 then some ((address + i) % 2 ^ 32) else none := by
  have inside : address % 4096 + i < 4096 * windowPages := by
    rw [windowPages]
    omega
  rw [passes_header] at mapped
  exact clear.translates_at (Nat.succ_le_of_lt (Nat.zero_lt_succ _)) mapped devices inside

theorem WindowClear.field_leads (clear : WindowClear bootPages alloc s)
    (mapped : MapEffect alloc address rsdtWindow 0 0 (Stride.passes 4096 4096) s header)
    (devices : DeviceMap) (fits : address % 4096 + 8 ≤ 4096) :
    LeadsTo header devices (windowAt address) address (List.range' 4 4) := by
  intro i listed
  rw [List.mem_range'_1] at listed
  rw [clear.header_translates mapped devices (by omega), if_pos (by omega)]

theorem LeadsTo.length {devices : DeviceMap} {virt : ℕ} (ram : ℕ → UInt8)
    (leads : LeadsTo s devices virt address (List.range' 4 4)) :
    fetch (readFrom s devices ram virt) 4 4 = .ok (tableLength ram address) := by
  rw [← fetch_inPlace]
  exact fetch_eq_of_reads (leads.reads ram) (fun i inside => mem_range'_of_lt inside)

/-- A length field that crosses the end of the page is not read. -/
theorem WindowClear.field_cut (clear : WindowClear bootPages alloc s)
    (mapped : MapEffect alloc address rsdtWindow 0 0 (Stride.passes 4096 4096) s header)
    (devices : DeviceMap) (ram : ℕ → UInt8) (cut : ¬address % 4096 + 8 ≤ 4096) :
    (∃ event ∈ readEvents header devices (windowAt address) address (List.range' 4 4),
      ¬event.Mapped) ∧
      ∃ halt, fetch (readFrom header devices ram (windowAt address)) 4 4 = .error halt := by
  have missing : translate header devices ((windowAt address + 7) % 2 ^ 32) = none := by
    rw [clear.header_translates mapped devices (by omega), if_neg (by omega)]
  constructor
  · refine ⟨.reads ((address + 7) % 2 ^ 32) none, ?_, by simp [TableEvent.Mapped]⟩
    rw [← missing]
    exact List.mem_map_of_mem (mem_range'_of_lt (show 3 < 4 by omega))
  · cases fetches : fetch (readFrom header devices ram (windowAt address)) 4 4 with
    | error halt => exact ⟨halt, rfl⟩
    | ok value =>
        rcases fetch_reads fetches 3 (by omega) with ⟨byte, reads⟩
        rw [readFrom, readVirtual, missing] at reads
        cases reads

end Field

/-- What `acpi_parse_rsdt` comes to with a table: its length field is cut off by the end
of the page; or it is longer than the window; or it is mapped, and parsed there. -/
inductive WindowVisit (bootPages : ℕ) (c : AcpiContext) (address : ℕ) (state : TableState)
    (visit : List TableEvent × Except Halt TableState) : Prop where
  | cut {halt : Halt} (isCut : ¬address % 4096 + 8 ≤ 4096)
      (foreign : ∃ event ∈ visit.1, ¬event.Mapped) (stops : visit.2 = .error halt)
  | long {halt : Halt} (isLong : 4096 * windowPages < tableLength c.ram address)
      (unparsed : visit.1.filterMap TableEvent.parsed = []) (stops : visit.2 = .error halt)
  | parsed {header table unmapped : Paging} (field : address % 4096 + 8 ≤ 4096)
      (short : tableLength c.ram address ≤ 4096 * windowPages)
      (leads : LeadsTo header state.acpi.devices (windowAt address) address (List.range' 4 4))
      (events : visit.1 =
        readEvents header state.acpi.devices (windowAt address) address (List.range' 4 4) ++
          parseEvents c (windowAt address) address { state with paging := table })
      (fits : ∀ offsets, (∀ i ∈ offsets, i < 111 ∨ i < tableLength c.ram address) →
        (LeadsTo table state.acpi.devices (windowAt address) address offsets ↔
          ∀ i ∈ offsets, address % 4096 + i <
            4096 * Stride.passes 4096 (tableLength c.ram address)))
      (clear : WindowClear bootPages c.alloc unmapped) (keeps : KeepsMapped state.paging unmapped)
      (outcome : visit.2 = (parseAt c (windowAt address) { state with paging := table }).map
        fun parsed => { parsed with paging := unmapped })

section Visits

variable {bootPages : ℕ} {c : AcpiContext} {address : ℕ} {state next : TableState}

theorem rsdtVisit_window (clear : WindowClear bootPages c.alloc state.paging)
    (below : address + tableLength c.ram address ≤ 2 ^ 32) :
    WindowVisit bootPages c address state (rsdtVisit c address state) := by
  rcases clear.header address with ⟨header, mapsHeader, consistent, mapped⟩
  simp only [rsdtVisit, mapsHeader, acpiParseMapped]
  by_cases field : address % 4096 + 8 ≤ 4096
  · have leads := clear.field_leads mapped state.acpi.devices field
    simp only [leads.length c.ram]
    rcases Nat.lt_or_ge (4096 * windowPages) (tableLength c.ram address) with long | short
    · rcases clear.table_long consistent mapped long with ⟨halt, stops⟩
      simp only [stops]
      exact .long long readEvents_parsed rfl
    · rcases clear.table consistent mapped short with
        ⟨middle, table, middleClear, keepsMiddle, mapsTable, tableConsistent, tableMapped⟩
      rcases middleClear.unmap short tableConsistent tableMapped with
        ⟨unmapped, unmaps, unmappedClear, keepsUnmapped⟩
      simp only [mapsTable]
      apply WindowVisit.parsed field short leads rfl _ unmappedClear
        (keepsMiddle.trans keepsUnmapped)
      · cases parses : parseAt c (windowAt address) { state with paging := table } with
        | error halt => rfl
        | ok parsed =>
            simp only [acpiUnmapTable, parseAt_paging parses, unmaps]
            rfl
      · intro offsets bounded
        exact middleClear.leadsTo_iff tableConsistent tableMapped _ short below bounded
  · rcases clear.field_cut mapped state.acpi.devices c.ram field with ⟨foreign, halt, stops⟩
    simp only [stops]
    exact .cut field foreign rfl

/-- Whatever is done with a table, the window is clear again behind it. -/
theorem rsdtVisit_keeps (clear : WindowClear bootPages c.alloc state.paging)
    (below : address + tableLength c.ram address ≤ 2 ^ 32)
    (returns : (rsdtVisit c address state).2 = .ok next) :
    WindowClear bootPages c.alloc next.paging ∧ KeepsMapped state.paging next.paging := by
  cases rsdtVisit_window clear below with
  | cut isCut foreign stops =>
      rw [stops] at returns
      cases returns
  | long isLong unparsed stops =>
      rw [stops] at returns
      cases returns
  | @parsed _ table unmapped _ _ _ _ _ unmappedClear keeps outcome =>
      rw [outcome] at returns
      cases parses : parseAt c (windowAt address) { state with paging := table } with
      | error halt =>
          rw [parses] at returns
          cases returns
      | ok parsed =>
          rw [parses] at returns
          cases returns
          exact ⟨unmappedClear, keeps⟩

theorem xsdtVisit_eq (word : address < 2 ^ 32) :
    xsdtVisit c address state = (parseEvents c address address state, parseAt c address state) := by
  rw [xsdtVisit, Nat.mod_eq_of_lt word]

end Visits

section Paths

variable {bootPages : ℕ} {c : AcpiContext} {x : Paging}

/-- Two paths that begin with the same parses agree when their beginnings read nothing but
the tables and the rest agrees. -/
theorem pathsAgree_append_iff {rsdtFirst xsdtFirst : List TableEvent}
    {rsdt xsdt : List TableEvent × Except Halt TableState}
    (sameParses : rsdtFirst.filterMap TableEvent.parsed = xsdtFirst.filterMap TableEvent.parsed) :
    PathsAgree (rsdtFirst ++ rsdt.1, rsdt.2) (xsdtFirst ++ xsdt.1, xsdt.2) ↔
      (∀ event ∈ rsdtFirst, event.Mapped) ∧ (∀ event ∈ xsdtFirst, event.Mapped) ∧
        PathsAgree rsdt xsdt := by
  constructor
  · rintro ⟨rsdtMapped, xsdtMapped, parses, same⟩
    rw [List.forall_mem_append] at rsdtMapped xsdtMapped
    rw [List.filterMap_append, List.filterMap_append, sameParses] at parses
    exact ⟨rsdtMapped.1, xsdtMapped.1, rsdtMapped.2, xsdtMapped.2,
      List.append_cancel_left parses, same⟩
  · rintro ⟨rsdtMapped, xsdtMapped, agree⟩
    refine ⟨?_, ?_, ?_, agree.sameVariables⟩
    · exact List.forall_mem_append.mpr ⟨rsdtMapped, agree.rsdtMapped⟩
    · exact List.forall_mem_append.mpr ⟨xsdtMapped, agree.xsdtMapped⟩
    · rw [List.filterMap_append, List.filterMap_append, sameParses, agree.sameParses]

theorem mapped_of_visitAll
    {visit : ℕ → TableState → List TableEvent × Except Halt TableState} {address : ℕ}
    {addresses : List ℕ} {state : TableState}
    (mapped : ∀ event ∈ (visitAll visit (address :: addresses) state).1, event.Mapped) :
    ∀ event ∈ (visit address state).1, event.Mapped :=
  fun event listed => mapped event (visitAll_head.subset listed)

theorem pathsAgree_stop {halt : Halt} {rsdtFirst xsdtFirst : List TableEvent}
    (sameParses : rsdtFirst.filterMap TableEvent.parsed = xsdtFirst.filterMap TableEvent.parsed)
    (rsdtMapped : ∀ event ∈ rsdtFirst, event.Mapped)
    (xsdtMapped : ∀ event ∈ xsdtFirst, event.Mapped) :
    PathsAgree (rsdtFirst, .error halt) (xsdtFirst, .error halt) :=
  ⟨rsdtMapped, xsdtMapped, sameParses, rfl⟩

/-- After first visits that read nothing but the table, and parse it to the same end, the
paths agree exactly when they agree from there on. -/
theorem pathsAgree_cons_iff {rsdtVisit xsdtVisit : ℕ → TableState →
      List TableEvent × Except Halt TableState}
    {address : ℕ} {addresses : List ℕ} {r x : TableState} {parse : Except Halt Acpi}
    {rsdtNext xsdtNext : Acpi → TableState} {later : Acpi → Prop}
    (sameParses : (rsdtVisit address r).1.filterMap TableEvent.parsed =
      (xsdtVisit address x).1.filterMap TableEvent.parsed)
    (rsdtMapped : ∀ event ∈ (rsdtVisit address r).1, event.Mapped)
    (xsdtMapped : ∀ event ∈ (xsdtVisit address x).1, event.Mapped)
    (rsdtOutcome : (rsdtVisit address r).2 = parse.map rsdtNext)
    (xsdtOutcome : (xsdtVisit address x).2 = parse.map xsdtNext)
    (rest : ∀ s, PathsAgree (visitAll rsdtVisit addresses (rsdtNext s))
      (visitAll xsdtVisit addresses (xsdtNext s)) ↔ later s) :
    PathsAgree (visitAll rsdtVisit (address :: addresses) r)
        (visitAll xsdtVisit (address :: addresses) x) ↔
      ∀ s, parse = .ok s → later s := by
  cases parse with
  | error halt =>
      rw [visitAll_error rsdtOutcome, visitAll_error xsdtOutcome]
      constructor
      · intro _ s stops
        cases stops
      · intro _
        exact pathsAgree_stop sameParses rsdtMapped xsdtMapped
  | ok s =>
      rw [visitAll_ok rsdtOutcome, visitAll_ok xsdtOutcome, pathsAgree_append_iff sameParses,
        rest s]
      constructor
      · rintro ⟨_, _, agree⟩ other same
        cases same
        exact agree
      · intro agree
        exact ⟨rsdtMapped, xsdtMapped, agree s rfl⟩

/-- A table that is parsed in the window is readable both ways exactly when neither visit
reads anything but the table. -/
theorem readableBothWays_iff {address number : ℕ} {s : Acpi} {header table : Paging}
    {rsdtEvents : List TableEvent} (field : address % 4096 + 8 ≤ 4096)
    (short : tableLength c.ram address ≤ 4096 * windowPages)
    (leads : LeadsTo header s.devices (windowAt address) address (List.range' 4 4))
    (events : rsdtEvents =
      readEvents header s.devices (windowAt address) address (List.range' 4 4) ++
        parseEvents c (windowAt address) address ⟨number, table, s⟩)
    (fits : LeadsTo table s.devices (windowAt address) address
        (dtReads (c.kmalloc number) (inPlace c.ram address) s) ↔
      ∀ i ∈ dtReads (c.kmalloc number) (inPlace c.ram address) s,
        address % 4096 + i < 4096 * Stride.passes 4096 (tableLength c.ram address)) :
    ReadableBothWays c x address number s ↔
      (∀ event ∈ rsdtEvents, event.Mapped) ∧
        ∀ event ∈ parseEvents c address address ⟨number, x, s⟩, event.Mapped := by
  rw [events, List.forall_mem_append, readEvents_mapped_iff, parseEvents_mapped_iff,
    parseEvents_mapped_iff, fits]
  constructor
  · intro readable
    exact ⟨⟨leads, readable.window⟩, readable.identity⟩
  · rintro ⟨⟨_, window⟩, identity⟩
    exact ⟨identity, field, short, window⟩

/-- Table by table, the two paths agree exactly when all tables come to are readable both
ways. -/
theorem visits_agree_iff {addresses : List ℕ}
    (below : ∀ address ∈ addresses, address < 2 ^ 32 ∧
      address + tableLength c.ram address ≤ 2 ^ 32) :
    ∀ (number : ℕ) (r : Paging) (s : Acpi), WindowClear bootPages c.alloc r →
      (PathsAgree (visitAll (rsdtVisit c) addresses ⟨number, r, s⟩)
        (visitAll (xsdtVisit c) addresses ⟨number, x, s⟩) ↔ AllReadable c x addresses number s) := by
  induction addresses with
  | nil =>
      intro number r s clear
      simp only [visitAll, AllReadable, iff_true]
      exact ⟨by simp, by simp, rfl, rfl⟩
  | cons address addresses ih =>
      intro number r s clear
      rcases below address List.mem_cons_self with ⟨word, inMemory⟩
      have rest := ih fun other listed => below other (List.mem_cons_of_mem _ listed)
      have xsdt := @xsdtVisit_eq c address ⟨number, x, s⟩ word
      rw [AllReadable]
      cases @rsdtVisit_window bootPages c address ⟨number, r, s⟩ clear inMemory with
      | cut isCut foreign _ =>
          rcases foreign with ⟨event, listed, notMapped⟩
          constructor
          · intro agree
            exact absurd (mapped_of_visitAll agree.rsdtMapped event listed) notMapped
          · rintro ⟨readable, _⟩
            exact absurd readable.field isCut
      | long isLong unparsed stops =>
          constructor
          · intro agree
            rcases @visitAll_head _ ⟨number, x, s⟩ _ _ _ (xsdtVisit c) address addresses with
              ⟨later, isAll⟩
            have parses := agree.sameParses
            rw [visitAll_error stops, unparsed, ← isAll, List.filterMap_append, xsdt,
              parseEvents_parsed] at parses
            cases parses
          · rintro ⟨readable, _⟩
            exact absurd readable.length (Nat.not_le.mpr isLong)
      | @parsed header table unmapped field short leads events fits unmappedClear _ outcome =>
          have bounded : ∀ i ∈ dtReads (c.kmalloc number) (inPlace c.ram address) s,
              i < 111 ∨ i < tableLength c.ram address :=
            fun i listed => dtReads_bound (fetch_inPlace c.ram address) listed
          have sameParses : (rsdtVisit c address ⟨number, r, s⟩).1.filterMap TableEvent.parsed =
              (xsdtVisit c address ⟨number, x, s⟩).1.filterMap TableEvent.parsed := by
            rw [events, xsdt, List.filterMap_append, readEvents_parsed, parseEvents_parsed,
              parseEvents_parsed, List.nil_append]
          have readable : ReadableBothWays c x address number s ↔
              (∀ event ∈ (rsdtVisit c address ⟨number, r, s⟩).1, event.Mapped) ∧
                ∀ event ∈ (xsdtVisit c address ⟨number, x, s⟩).1, event.Mapped := by
            rw [xsdt]
            exact readableBothWays_iff field short leads events (fits _ bounded)
          have whenReadable : ReadableBothWays c x address number s →
              (PathsAgree (visitAll (rsdtVisit c) (address :: addresses) ⟨number, r, s⟩)
                (visitAll (xsdtVisit c) (address :: addresses) ⟨number, x, s⟩) ↔
                ∀ s', acpiParseDt c.fuel (c.kmalloc number) (inPlace c.ram address) s = .ok s' →
                  AllReadable c x addresses (number + 1) s') := by
            intro both
            rcases readable.mp both with ⟨rsdtMapped, xsdtMapped⟩
            have inWindow := @parseAt_inPlace c (windowAt address) address ⟨number, table, s⟩
              ((fits _ bounded).mpr both.window)
            have atItself := @parseAt_inPlace c address address ⟨number, x, s⟩ both.identity
            apply @pathsAgree_cons_iff _ _ _ _ _ _ _ (fun s' => ⟨number + 1, unmapped, s'⟩)
              (fun s' => ⟨number + 1, x, s'⟩) _ sameParses rsdtMapped xsdtMapped
            · rw [outcome, inWindow]
              cases acpiParseDt c.fuel (c.kmalloc number) (inPlace c.ram address) s <;> rfl
            · rw [xsdt]
              exact atItself
            · intro s'
              exact rest (number + 1) unmapped s' unmappedClear
          constructor
          · intro agree
            have both := readable.mpr
              ⟨mapped_of_visitAll agree.rsdtMapped, mapped_of_visitAll agree.xsdtMapped⟩
            exact ⟨both, (whenReadable both).mp agree⟩
          · rintro ⟨both, later⟩
            exact (whenReadable both).mpr later

end Paths

section Root

variable {c : AcpiContext} {width root : ℕ} {addresses : List ℕ} {s u : Paging}
  {devices devices' : DeviceMap}

theorem readFrom_add (ram : ℕ → UInt8) (base offset : ℕ) :
    readFrom s devices ram (root + base) offset = readFrom s devices ram root (base + offset) := by
  rw [readFrom, readFrom, Nat.add_assoc]

/-- What is read through mapped addresses below the kernel is read again when they are kept. -/
theorem fetch_keeps {ram : ℕ → UInt8} {offset count value : ℕ} (keeps : KeepsMapped s u)
    (low : root + (offset + count) ≤ 0xC0000000)
    (fetches : fetch (readFrom s devices ram root) offset count = .ok value) :
    fetch (readFrom u devices' ram root) offset count = .ok value := by
  rw [← fetches]
  apply fetch_congr
  intro i inside
  rcases fetch_reads fetches i inside with ⟨byte, reads⟩
  have belowKernel : pdindex ((root + (offset + i)) % 2 ^ 32) < 768 := pdindex_low (by omega)
  have mapped : translate s devices ((root + (offset + i)) % 2 ^ 32) ≠ none := by
    intro missing
    rw [readFrom, readVirtual, missing] at reads
    cases reads
  rw [readFrom, readFrom, readVirtual, readVirtual, keeps devices devices' _ belowKernel mapped]

namespace RootLists

theorem entry_le (c : ℕ) {i length : ℕ} (inside : i < length) :
    36 + c * i + c ≤ 36 + c * length := by
  have upTo := Nat.mul_le_mul_left c (Nat.succ_le_of_lt inside)
  rw [Nat.mul_succ] at upTo
  omega

theorem keeps (lists : RootLists c width root addresses s devices) (keeps : KeepsMapped s u)
    (devices' : DeviceMap) : RootLists c width root addresses u devices' := by
  have low := lists.low
  refine ⟨low, ?_, ?_⟩
  · exact fetch_keeps keeps (by omega) lists.length
  · intro i inside
    have upTo := entry_le width inside
    exact fetch_keeps keeps (by omega) (lists.entries i inside)

theorem entry (lists : RootLists c width root addresses s devices) {i : ℕ}
    (inside : i < addresses.length) :
    fetch (readFrom s devices c.ram (root + (36 + width * i))) 0 width = .ok addresses[i] := by
  have shifted : readFrom s devices c.ram (root + (36 + width * i)) =
      fun offset => readFrom s devices c.ram root (36 + width * i + offset) :=
    funext fun offset => readFrom_add c.ram _ offset
  rw [shifted, fetch_shift, Nat.add_zero]
  exact lists.entries i inside

end RootLists

/-- The loop over a root table visits the tables that it lists, in turn, as long as the
root table stays mapped. -/
theorem parseRoot_visitAll {visit : ℕ → TableState → List TableEvent × Except Halt TableState}
    {invariant : TableState → Prop} {state : TableState} (wide : 4 ≤ width)
    (lists : ∀ state, invariant state →
      RootLists c width root addresses state.paging state.acpi.devices)
    (preserved : ∀ address ∈ addresses, ∀ state next, invariant state →
      (visit address state).2 = .ok next → invariant next)
    (holds : invariant state) :
    parseRoot c visit width root state = visitAll visit addresses state := by
  have low := (lists state holds).low
  have atLeast : 4 * addresses.length ≤ width * addresses.length := Nat.mul_le_mul_right _ wide
  have stop : (root + (36 + width * addresses.length)) % 2 ^ 32 =
      root + (36 + width * addresses.length) := Nat.mod_eq_of_lt (by omega)
  have start : (root + 36) % 2 ^ 32 = root + (36 + width * 0) := by
    rw [Nat.mul_zero]
    exact Nat.mod_eq_of_lt (by omega)
  rw [parseRoot, (lists state holds).length]
  simp only [stop, start]
  have visited := @run_visitAll _ _ (2 ^ 30 + 1) _ _ _ visit addresses TableWalk
    (tablesPass c visit width (root + (36 + width * addresses.length)))
    (fun i state => ⟨root + (36 + width * i), state⟩) invariant 0 ?_ ?_ holds (by omega)
  · rw [visited.1, visited.2]
    rfl
  · intro i inside state holds
    have upTo := RootLists.entry_le width inside
    have before : root + (36 + width * i) < root + (36 + width * addresses.length) := by omega
    have moved : root + (36 + width * i) + width = root + (36 + width * (i + 1)) := by
      rw [Nat.mul_succ]
      omega
    have next : (root + (36 + width * i) + width) % 2 ^ 32 = root + (36 + width * (i + 1)) := by
      rw [← moved]
      apply Nat.mod_eq_of_lt
      omega
    simp only [Nat.zero_add, tablesPass, if_pos before, (lists state holds).entry inside, next,
      true_and]
    constructor
    · intro halt stops
      rw [stops]
    · intro following returns
      rw [returns]
      exact ⟨rfl, preserved _ (List.getElem_mem inside) state following holds returns⟩
  · intro state _
    simp only [Nat.zero_add, tablesPass, if_neg (Nat.lt_irrefl _)]

end Root

section Loops

variable {bootPages root : ℕ} {c : AcpiContext} {addresses : List ℕ} {paging : Paging} {s : Acpi}

/-- `acpi_parse_rsdt` visits the tables of the RSDT: mapping them in the window does not
touch the RSDT. -/
theorem acpiParseRsdt_visits (clear : WindowClear bootPages c.alloc paging)
    (lists : RootLists c 4 root addresses paging s.devices)
    (below : ∀ address ∈ addresses, address + tableLength c.ram address ≤ 2 ^ 32) :
    acpiParseRsdt c root paging s = visitAll (rsdtVisit c) addresses ⟨0, paging, s⟩ := by
  apply @parseRoot_visitAll c 4 root addresses (rsdtVisit c) (fun state =>
    WindowClear bootPages c.alloc state.paging ∧ KeepsMapped paging state.paging) _ (by omega)
  · rintro state ⟨_, keeps⟩
    exact lists.keeps keeps _
  · rintro address listed state next ⟨stateClear, keeps⟩ returns
    rcases rsdtVisit_keeps stateClear (below address listed) returns with ⟨nextClear, keepsNext⟩
    exact ⟨nextClear, keeps.trans keepsNext⟩
  · exact ⟨clear, KeepsMapped.refl paging⟩

theorem acpiParseXsdt_visits (lists : RootLists c 8 root addresses paging s.devices) :
    acpiParseXsdt c root paging s = visitAll (xsdtVisit c) addresses ⟨0, paging, s⟩ := by
  apply @parseRoot_visitAll c 8 root addresses (xsdtVisit c)
    (fun state => state.paging = paging) _ (by omega)
  · rintro state rfl
    exact lists.keeps (KeepsMapped.refl _) _
  · rintro address _ state next rfl returns
    exact parseAt_paging returns
  · rfl

end Loops

/-- The two paths agree, and read only the tables, exactly when every table that is come
to is mapped at its own physical address on the path of the XSDT, and fits into the
window on the path of the RSDT. -/
theorem acpi_paths_agree_iff {bootPages rsdt xsdt : ℕ} {c : AcpiContext} {addresses : List ℕ}
    {r x : Paging} {s : Acpi} (clear : WindowClear bootPages c.alloc r)
    (rsdtLists : RootLists c 4 rsdt addresses r s.devices)
    (xsdtLists : RootLists c 8 xsdt addresses x s.devices)
    (below : ∀ address ∈ addresses, address + tableLength c.ram address ≤ 2 ^ 32) :
    PathsAgree (acpiParseRsdt c rsdt r s) (acpiParseXsdt c xsdt x s) ↔
      AllReadable c x addresses 0 s := by
  have words : ∀ address ∈ addresses, address < 2 ^ 32 := by
    intro address listed
    rcases List.getElem_of_mem listed with ⟨i, inside, rfl⟩
    exact fetch_lt (rsdtLists.entries i inside)
  rw [acpiParseRsdt_visits clear rsdtLists below, acpiParseXsdt_visits xsdtLists]
  exact visits_agree_iff (fun address listed => ⟨words address listed, below address listed⟩)
    0 r s clear

/-- Physical memory with an RSDT at 0x7FE0080 and an XSDT at 0x7FE0100, which list one
table: an FADT of 116 bytes at 0x7FE1000, with a PS/2 controller. -/
def fadtRam (address : ℕ) : UInt8 :=
  match address with
  | 0x7FE0084 => 40
  | 0x7FE00A5 => 0x10
  | 0x7FE00A6 => 0xFE
  | 0x7FE00A7 => 0x07
  | 0x7FE0104 => 44
  | 0x7FE0125 => 0x10
  | 0x7FE0126 => 0xFE
  | 0x7FE0127 => 0x07
  | 0x7FE1000 => 0x46
  | 0x7FE1001 => 0x41
  | 0x7FE1002 => 0x43
  | 0x7FE1003 => 0x50
  | 0x7FE1004 => 116
  | 0x7FE106D => 2
  | _ => 0

def fadtContext : AcpiContext where
  ram := fadtRam
  alloc := heapPageOf
  kmalloc := fun _ => none
  fuel := 0

/-- Paging as `kernel_premain` leaves it, in cleared memory. -/
def bootPaging : Paging :=
  kernelPremainPaging 0x200000 0x100000 (fun _ => 0) (fun _ _ => 0)

section Machine

variable {s t : Paging} {phys virt size passes base width offset : ℕ} {devices : DeviceMap}

/-- Mapping pages below the window leaves it clear. -/
theorem Blank.windowClear {bootPages : ℕ} (blank : Blank s) (consistent : Consistent bootPages t)
    (mapped : MapEffect heapPageOf phys virt 0 0 passes s t)
    (below : virt + passes * 4096 ≤ rsdtWindow) : WindowClear bootPages heapPageOf t := by
  have window := rsdtWindow_eq
  have slots : ∀ slot < 768, t.slotTable heapPageOf slot = heapPageOf slot := by
    intro slot low
    rw [mapped.slotTable_eq]
    exact blank.slots slot low
  refine ⟨consistent, ?_, ?_, ?_⟩
  · intro slot table allocated
    cases allocated
    omega
  · intro i iLow j jLow table iTable jTable
    rw [slots _ iLow] at iTable
    rw [slots _ jLow] at jTable
    exact heapPageOf_distinct iTable jTable
  · intro k inside
    refine ⟨_, slots _ (window_slot inside), ?_⟩
    rw [mapped.kept, blank.zero]
    rintro j _ before ⟨writes, atIndex⟩
    have low : pdindex (pageAt virt j) < 768 := by
      rw [pdindex, pageAt]
      omega
    rw [blank.slots _ low] at writes
    have samePage := page_of_index (heapPageOf_distinct writes rfl) atIndex
    rw [windowPages] at inside
    rw [pageAt, pageAt] at samePage
    omega

theorem bootPaging_maps (phys : ℕ) (small : size ≤ 2 ^ 24)
    (below : virt + Stride.passes 4096 size * 4096 ≤ rsdtWindow) :
    ∃ t, pagingMap heapPageOf bootPaging phys virt size 0 = .ok (true, t) ∧
      WindowClear 0x200000 heapPageOf t ∧
        MapEffect heapPageOf phys virt 0 0 (Stride.passes 4096 size) bootPaging t := by
  have blank : Blank bootPaging := Blank.init
  have window := rsdtWindow_eq
  have unwrapped : size + 4096 ≤ 2 ^ 32 := by omega
  rcases pagingMap_complete unwrapped (blank.ready
    (show virt + Stride.passes 4096 size * 4096 ≤ 0xC0000000 by omega)) with ⟨t, maps⟩
  have mapped := pagingMap_effect unwrapped maps
  have heapPages : HeapPages heapPageOf := by
    intro slot table allocated
    cases allocated
    omega
  have consistent : Consistent 0x200000 t := Consistent.init.step (.map heapPages maps)
  exact ⟨t, maps, blank.windowClear consistent mapped below, mapped⟩

/-- The pages of the root tables, wherever they are mapped below the window. -/
theorem MapEffect.translate_page (mapped : MapEffect heapPageOf 0x7FE0000 virt 0 0 passes s t)
    (devices : DeviceMap) (aligned : virt % 4096 = 0)
    (below : virt + passes * 4096 ≤ rsdtWindow) (inside : offset < passes * 4096) :
    translate t devices ((virt + offset) % 2 ^ 32) = some (0x7FE0000 + offset) := by
  have window := rsdtWindow_eq
  have unwrapped : (virt + offset) % 2 ^ 32 = virt + offset := Nat.mod_eq_of_lt (by omega)
  have onPage : (virt + offset) / 4096 = pageAt virt (offset / 4096) / 4096 := by
    rw [pageAt]
    omega
  have low : pdindex (virt + offset) < 768 := pdindex_low (by omega)
  rw [unwrapped, mapped.translate_eq devices (Nat.zero_le _) (by omega) onPage low, frame]
  congr 1
  omega

theorem MapEffect.rootLists (mapped : MapEffect heapPageOf 0x7FE0000 virt 0 0 passes s t)
    (aligned : virt % 4096 = 0) (below : virt + passes * 4096 ≤ rsdtWindow)
    (inside : base + 36 + width ≤ passes * 4096)
    (length : word (fun i => fadtRam (0x7FE0000 + (base + i))) 4 4 = 36 + width * 1)
    (entry : word (fun i => fadtRam (0x7FE0000 + (base + i))) 36 width = 0x7FE1000) :
    RootLists fadtContext width (virt + base) [0x7FE1000] t devices := by
  have window := rsdtWindow_eq
  have reads : ∀ i < 36 + width, readFrom t devices fadtContext.ram (virt + base) i =
      .ok (fadtRam (0x7FE0000 + (base + i))) := by
    intro i inTable
    rw [readFrom, readVirtual, Nat.add_assoc,
      mapped.translate_page devices aligned below (by omega)]
    rfl
  refine ⟨?_, ?_, ?_⟩
  · rw [List.length_singleton]
    omega
  · rw [List.length_singleton, ← length]
    exact fetch_of_reads fun i inField => reads (4 + i) (by omega)
  · intro i inside
    rw [List.length_singleton, Nat.lt_one_iff] at inside
    subst inside
    rw [List.getElem_cons_zero, ← entry]
    exact fetch_of_reads fun i inField => reads (36 + i) (by omega)

/-- Both root tables are in the window of the root table. -/
theorem MapEffect.bothLists
    (mapped : MapEffect heapPageOf 0x7FE0000 0xB9000000 0 0 (Stride.passes 4096 4096) s t) :
    RootLists fadtContext 4 (0xB9000000 + 0x80) [0x7FE1000] t devices ∧
      RootLists fadtContext 8 (0xB9000000 + 0x100) [0x7FE1000] t devices := by
  have below : 0xB9000000 + Stride.passes 4096 4096 * 4096 ≤ rsdtWindow := by decide
  have aligned : 0xB9000000 % 4096 = 0 := rfl
  constructor
  · apply mapped.rootLists aligned below
    · decide
    · decide
    · decide
  · apply mapped.rootLists aligned below
    · decide
    · decide
    · decide

end Machine

theorem fadtContext_length : tableLength fadtContext.ram 0x7FE1000 = 116 := by
  decide

/-- Where the page of the FADT is mapped at its own address, the paths agree. -/
theorem acpi_paths_agree_iff_identity :
    ∃ r x, pagingMap heapPageOf bootPaging 0x7FE0000 0xB9000000 4096 0 = .ok (true, r) ∧
      pagingMap heapPageOf bootPaging 0x7FE0000 0x7FE0000 8192 0 = .ok (true, x) ∧
        PathsAgree (acpiParseRsdt fadtContext (0xB9000000 + 0x80) r (Acpi.init fun _ => 0))
          (acpiParseXsdt fadtContext (0x7FE0000 + 0x100) x (Acpi.init fun _ => 0)) := by
  have twoPages : Stride.passes 4096 8192 = 2 := rfl
  have onePage : Stride.passes 4096 116 = 1 := rfl
  have below : 0x7FE0000 + Stride.passes 4096 8192 * 4096 ≤ rsdtWindow := by decide
  rcases @bootPaging_maps 0xB9000000 4096 0x7FE0000 (by decide) (by decide) with
    ⟨r, rMaps, clear, rMapped⟩
  rcases @bootPaging_maps 0x7FE0000 8192 0x7FE0000 (by decide) below with ⟨x, xMaps, _, xMapped⟩
  refine ⟨r, x, rMaps, xMaps, ?_⟩
  have xsdtLists : RootLists fadtContext 8 (0x7FE0000 + 0x100) [0x7FE1000] x
      (Acpi.init fun _ => 0).devices := by
    apply xMapped.rootLists rfl below
    · decide
    · decide
    · decide
  have inPage : ∀ i ∈ dtReads (fadtContext.kmalloc 0) (inPlace fadtContext.ram 0x7FE1000)
      (Acpi.init fun _ => 0), i < 116 := by
    intro i listed
    have bounded := dtReads_bound (fetch_inPlace fadtContext.ram 0x7FE1000) listed
    rw [fadtContext_length] at bounded
    omega
  apply (acpi_paths_agree_iff clear rMapped.bothLists.1 xsdtLists ?_).mpr
  · refine ⟨⟨?_, by decide, ?_, ?_⟩, fun _ _ => trivial⟩
    · intro i listed
      have small := inPage i listed
      have translates := @MapEffect.translate_page _ _ 0x7FE0000 _ (4096 + i) xMapped
        (Acpi.init fun _ => 0).devices rfl below (by omega)
      rw [← Nat.add_assoc] at translates
      rw [translates, Nat.mod_eq_of_lt (by omega)]
    · rw [fadtContext_length]
      decide
    · intro i listed
      have small := inPage i listed
      rw [fadtContext_length, onePage]
      omega
  · intro address listed
    rw [List.mem_singleton] at listed
    rw [listed, fadtContext_length]
    decide

/-- With the root table mapped in its window, as `acpi_parse_rsdp` maps it, nothing is
mapped at the address of the FADT: the path of the XSDT ends in a page fault. -/
theorem acpi_paths_disagree :
    ∃ s, pagingMap heapPageOf bootPaging 0x7FE0000 0xB9000000 4096 0 = .ok (true, s) ∧
      RootLists fadtContext 4 (0xB9000000 + 0x80) [0x7FE1000] s (Acpi.init fun _ => 0).devices ∧
        RootLists fadtContext 8 (0xB9000000 + 0x100) [0x7FE1000] s
          (Acpi.init fun _ => 0).devices ∧
          ¬PathsAgree (acpiParseRsdt fadtContext (0xB9000000 + 0x80) s (Acpi.init fun _ => 0))
            (acpiParseXsdt fadtContext (0xB9000000 + 0x100) s (Acpi.init fun _ => 0)) ∧
            (acpiParseXsdt fadtContext (0xB9000000 + 0x100) s (Acpi.init fun _ => 0)).2 =
              .error .pageFault := by
  rcases @bootPaging_maps 0xB9000000 4096 0x7FE0000 (by decide) (by decide) with
    ⟨s, maps, _, mapped⟩
  rcases @MapEffect.bothLists _ s (Acpi.init fun _ => 0).devices mapped with
    ⟨rsdtLists, xsdtLists⟩
  have atSlot : pdindex ((0x7FE1000 + 0) % 2 ^ 32) = 31 := rfl
  have emptySlot : s.pagingDir 31 = 0 := by
    rw [(mapped.slotUntouched 31 ?_).1]
    · rfl
    · intro k _ before
      rw [passes_header] at before
      rw [pdindex, pageAt]
      omega
  have missing : translate s (Acpi.init fun _ => 0).devices ((0x7FE1000 + 0) % 2 ^ 32) = none := by
    rw [translate, atSlot, emptySlot]
    rfl
  refine ⟨s, maps, rsdtLists, xsdtLists, ?_, ?_⟩
  · intro agree
    have listed : TableEvent.reads ((0x7FE1000 + 0) % 2 ^ 32) none ∈
        (acpiParseXsdt fadtContext (0xB9000000 + 0x100) s (Acpi.init fun _ => 0)).1 := by
      rw [acpiParseXsdt_visits xsdtLists]
      apply visitAll_head.subset
      rw [xsdtVisit_eq (by decide), ← missing]
      apply List.mem_cons_of_mem
      apply List.mem_map_of_mem
      exact List.mem_append_left _ (mem_range'_of_lt (show 0 < 4 by omega))
    cases agree.xsdtMapped _ listed
  · have fault : (xsdtVisit fadtContext 0x7FE1000 ⟨0, s, Acpi.init fun _ => 0⟩).2 =
        .error .pageFault := by
      rw [xsdtVisit_eq (by decide), parseAt, acpiParseDt, fetch]
      simp only [readFrom, readVirtual, missing]
      rfl
    rw [acpiParseXsdt_visits xsdtLists, visitAll_error fault]

end Osserver
