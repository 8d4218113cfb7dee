import Osserver.Acpi.Halts
import Osserver.Acpi.Restoring
import Osserver.Acpi.RootPointer
import Osserver.Paging.Atomicity

/-!
# The windows of `acpi_init`

`acpi_init` opens up to three windows inside each other: for the root pointer, for the root
table and for one table at a time. When it returns, all of them are closed. When it does
not, a window that an earlier step has left open is never the reason: no call of
`paging_map` returns false, unless the RSDT reaches into the window of the tables.
-/

namespace Osserver

open Loop Bytes Outcome

/-- What is panicked with when `paging_map` returns false. -/
def mapPanics : List String :=
  ["Cannot map bios rsdp entry", "Cannot map ebda rsdp sector", "Cannot map ACPI rsdt table",
    "Cannot map again ACPI rsdt table", "Cannot map ACPI xsdt table",
    "Cannot map again ACPI xsdt table", "Cannot map ACPI rsdt", "Cannot map again ACPI rsdt"]

/-- A call of `paging_map` has returned false. -/
def Halt.MapRefused : Halt → Prop
  | .kpanic message => message ∈ mapPanics
  | _ => False

instance (halt : Halt) : Decidable halt.MapRefused :=
  match halt with
  | .kpanic message => inferInstanceAs (Decidable (message ∈ mapPanics))
  | .nullPointer => inferInstanceAs (Decidable False)
  | .pageFault => inferInstanceAs (Decidable False)
  | .endlessLoop => inferInstanceAs (Decidable False)

section Calls

variable {bootPages : ℕ} {alloc : ℕ → Option ℕ} {s : Paging} {virt size : ℕ} {message : String}

theorem mapOrPanic_avoids (clear : ClearFrom alloc virt s) (consistent : Consistent bootPages s)
    (upTo : virt ≤ 0xC0000000) (page : virt % 4096 = 0) (phys size : ℕ) (message : String) :
    Avoids Halt.MapRefused (mapOrPanic alloc s phys virt size message) := by
  rw [mapOrPanic]
  split
  · rename_i fails
    exact (pagingMap_avoids (by decide) (by decide) (by decide) _ _ _ _).passed fails
  · rename_i t refused
    exact absurd refused (clear.pagingMap_ne_false consistent upTo page)
  · exact avoids_ok _

theorem unmapOrPanic_avoids (allowed : ¬(Halt.kpanic message).MapRefused) (s : Paging)
    (virt size : ℕ) : Avoids Halt.MapRefused (unmapOrPanic s virt size message) := by
  rw [unmapOrPanic]
  split
  · rename_i fails
    exact (pagingUnmap_avoids (by decide) (by decide) _ _).passed fails
  · exact avoids_error_iff.mpr allowed
  · exact avoids_ok _

end Calls

section Tables

variable {bootPages : ℕ} {c : AcpiContext} {address root : ℕ} {s : Paging} {acpi : Acpi}
  {state : TableState}

theorem fetch_window_avoids (s : Paging) (devices : DeviceMap) (ram : ℕ → UInt8)
    (virt offset width : ℕ) :
    Avoids Halt.MapRefused (fetch (readFrom s devices ram virt) offset width) :=
  fetch_avoids (readFrom_avoids (by decide) virt)

theorem parseAt_avoids (virt : ℕ) : Avoids Halt.MapRefused (parseAt c virt state) :=
  (acpiParseDt_avoids (by decide) (by decide) (by decide)
    (readFrom_avoids (by decide) virt) _ _).map _

theorem rsdtWindow_upTo : rsdtWindow ≤ 0xC0000000 ∧ rsdtWindow % 4096 = 0 := by
  decide

/-- A table can be mapped when its window is clear. -/
theorem rsdtVisit_avoids (heapPages : HeapPages c.alloc)
    (consistent : Consistent bootPages state.paging)
    (clear : ClearFrom c.alloc rsdtWindow state.paging) :
    Avoids Halt.MapRefused (rsdtVisit c address state).2 := by
  rcases rsdtWindow_upTo with ⟨upTo, page⟩
  have below : rsdtWindow < 0xC0400000 := by decide
  rw [rsdtVisit_eq, acpiMapHeader_eq]
  apply Avoids.bind (mapOrPanic_avoids clear consistent upTo page _ _ _)
  intro header mapsHeader
  rw [acpiParseMapped_eq]
  apply Avoids.bind (fetch_window_avoids _ _ _ _ _ _)
  intro len fetches
  apply Avoids.bind
  · rw [acpiMapTable_eq]
    apply Avoids.bind (unmapOrPanic_avoids (by decide) _ _ _)
    intro unmapped unmapsHeader
    have restored := Restored.bracket heapPages consistent below (by omega)
      (mapOrPanic_eq_ok.mp mapsHeader) (.refl header) (unmapOrPanic_eq_ok.mp unmapsHeader)
    exact mapOrPanic_avoids (clear.restored restored) (restored.consistent _ consistent) upTo page
      _ _ _
  intro table _
  apply Avoids.bind (parseAt_avoids _)
  intro parsed _
  apply Avoids.bind (unmapOrPanic_avoids (by decide) _ _ _)
  intro paging _
  exact avoids_ok _

/-- The loop over the tables fails as the visits of tables do. -/
theorem parseRoot_avoids {visit : ℕ → TableState → List TableEvent × Except Halt TableState}
    {width : ℕ} {invariant : TableState → Prop}
    (preserved : ∀ address s s', invariant s → (visit address s).2 = .ok s' → invariant s')
    (visits : ∀ address s, invariant s → Avoids Halt.MapRefused (visit address s).2)
    (holds : invariant state) : Avoids Halt.MapRefused (parseRoot c visit width root state).2 := by
  intro halt returns
  rcases @parseRoot_cases c visit width root state with ⟨other, fetches, fails⟩ | fails |
    ⟨stop, start, walk, visited, done⟩
  · rw [fails] at returns
    cases returns
    exact fetch_window_avoids _ _ _ _ _ _ _ fetches
  · rw [fails] at returns
    cases returns
    decide
  · rw [returns] at done
    have still := tablesPass_invariant preserved holds visited
    rcases @tablesPass_cases c visit width stop walk with ⟨other, fetches, pass⟩ |
      ⟨address, other, fails, pass⟩ | ⟨address, next, _, pass⟩ | pass
    · rw [pass] at done
      cases done
      exact fetch_window_avoids _ _ _ _ _ _ _ fetches
    · rw [pass] at done
      cases done
      exact visits address _ still _ fails
    · rw [pass] at done
      cases done
    · rw [pass] at done
      cases done

theorem acpiParseRsdt_avoids (heapPages : HeapPages c.alloc) (consistent : Consistent bootPages s)
    (clear : ClearFrom c.alloc rsdtWindow s) :
    Avoids Halt.MapRefused (acpiParseRsdt c root s acpi).2 := by
  refine @parseRoot_avoids _ _ _ _ _ (fun state => Restored c.alloc s state.paging) ?_ ?_ (.refl s)
  · intro address state next restored visited
    exact restored.trans
      (rsdtVisit_restored heapPages (restored.consistent _ consistent) visited)
  · intro address state restored
    exact rsdtVisit_avoids heapPages (restored.consistent _ consistent) (clear.restored restored)

theorem acpiParseXsdt_avoids : Avoids Halt.MapRefused (acpiParseXsdt c root s acpi).2 :=
  @parseRoot_avoids _ _ _ _ _ (fun _ => True) (fun _ _ _ _ _ => trivial)
    (fun _ _ _ => parseAt_avoids _) trivial

end Tables

section WindowReads

variable {alloc : ℕ → Option ℕ} {s t : Paging} {phys virt passes offset : ℕ}

/-- What is mapped of a window is what the call has mapped. -/
theorem MapEffect.leads (mapped : MapEffect alloc phys virt 0 0 passes s t)
    (clear : ClearFrom alloc (virt + passes * 4096) t) (page : virt % 4096 = 0)
    (low : virt + offset < 0xC0000000) {devices : DeviceMap} {place : ℕ}
    (leads : translate t devices (virt + offset) = some place) :
    place = (phys - phys % 4096 + offset) % 2 ^ 32 := by
  have slotLow := pdindex_low low
  rcases Nat.lt_or_ge offset (passes * 4096) with inside | behind
  · have onPage : (virt + offset) / 4096 = pageAt virt (offset / 4096) / 4096 := by
      rw [pageAt]
      omega
    have before : offset / 4096 < passes := Nat.div_lt_of_lt_mul (by omega)
    rw [mapped.translate_eq devices (Nat.zero_le _) before onPage slotLow] at leads
    cases leads
    simp only [frame]
    omega
  · have mappedTo : translate t devices (virt + offset) ≠ none := by simp [leads]
    rcases translate_ne_none slotLow mappedTo with ⟨present, table, isTable, nonzero⟩
    have inSlot : t.slotTable alloc (pdindex (virt + offset)) = some table := by
      rw [Paging.slotTable, if_neg present]
      exact isTable
    exact absurd (clear.clear _ (by omega) low table inSlot) nonzero

/-- The bytes that are read in a window are the ones of physical memory. -/
theorem MapEffect.reads (mapped : MapEffect alloc phys virt 0 0 passes s t)
    (clear : ClearFrom alloc (virt + passes * 4096) t) (page : virt % 4096 = 0) {start i : ℕ}
    (low : virt + (start + i) < 0xC0000000) {devices : DeviceMap} {ram : ℕ → UInt8} {byte : UInt8}
    (reads : readFrom t devices ram (virt + start) i = .ok byte) :
    byte = ram ((phys - phys % 4096 + (start + i)) % 2 ^ 32) := by
  have unwrapped : (virt + start + i) % 2 ^ 32 = virt + (start + i) := by omega
  rw [readFrom, unwrapped, readVirtual] at reads
  split at reads
  · cases reads
  · rename_i place leads
    cases reads
    rw [mapped.leads clear page low leads]

end WindowReads

/-- The root pointer at a physical address leads to the RSDT: its revision is 0, or it is 2 and
the address of the XSDT is 0. -/
def LeadsToRsdt (ram : ℕ → UInt8) (pointer : ℕ) : Prop :=
  ram (pointer + 15) = 0 ∨
    ram (pointer + 15) = 2 ∧ word (fun i => ram (pointer + i)) 24 8 = 0

/-- The address of the RSDT in the root pointer at a physical address. -/
def rsdtAddress (ram : ℕ → UInt8) (pointer : ℕ) : ℕ :=
  word (fun i => ram (pointer + i)) 16 4

section Root

variable {bootPages : ℕ} {c : AcpiContext} {address : ℕ} {s t : Paging} {acpi : Acpi}

theorem rootWindow_upTo : rootWindow ≤ 0xC0000000 ∧ rootWindow % 4096 = 0 := by
  decide

/-- The length of a root table is read where the table lies. -/
theorem rootTable_length {devices : DeviceMap} {length : ℕ}
    (clear : ClearFrom c.alloc rootWindow s)
    (maps : pagingMap c.alloc s address rootWindow 4096 0 = .ok (true, t))
    (fetches : fetch (readFrom t devices c.ram (rootWindow + address % 4096)) 4 4 = .ok length) :
    length = tableLength c.ram address := by
  have window := rootWindow_eq
  have mapped := pagingMap_effect (by omega) maps
  rw [passes_header] at mapped
  have behind := clear.map mapped (Nat.le_add_right _ _) (Nat.le_refl _)
  refine fetch_eq_word ?_ fetches
  intro i inField byte reads
  have low : rootWindow + (address % 4096 + (4 + i)) < 0xC0000000 := by omega
  rw [mapped.reads behind rootWindow_upTo.2 low reads]
  have place : address - address % 4096 + (address % 4096 + (4 + i)) = address + (4 + i) := by
    omega
  rw [place]

/-- A root table can be mapped when its window is clear. -/
theorem acpiParseRootTable_avoids {panics : RootPanics}
    {parse : ℕ → Paging → Acpi → List TableEvent × Except Halt TableState}
    (heapPages : HeapPages c.alloc) (consistent : Consistent bootPages s)
    (clear : ClearFrom c.alloc rootWindow s) (unmap : ¬(Halt.kpanic panics.unmap).MapRefused)
    (unmapAgain : ¬(Halt.kpanic panics.unmapAgain).MapRefused)
    (parses : ∀ unmapped table, ClearFrom c.alloc rootWindow unmapped →
      pagingMap c.alloc unmapped address rootWindow (tableLength c.ram address) 0 =
        .ok (true, table) → Consistent bootPages table →
          Avoids Halt.MapRefused (parse (rootWindow + address % 4096) table acpi).2) :
    Avoids Halt.MapRefused (acpiParseRootTable c panics parse address s acpi) := by
  rcases rootWindow_upTo with ⟨upTo, page⟩
  have below : rootWindow < 0xC0400000 := by decide
  rw [acpiParseRootTable]
  apply Avoids.bind (mapOrPanic_avoids clear consistent upTo page _ _ _)
  intro header mapsHeader
  apply Avoids.bind (fetch_window_avoids _ _ _ _ _ _)
  intro length fetches
  apply Avoids.bind (unmapOrPanic_avoids unmap _ _ _)
  intro unmapped unmapsHeader
  rw [mapOrPanic_eq_ok] at mapsHeader
  rw [unmapOrPanic_eq_ok] at unmapsHeader
  have restored := Restored.bracket heapPages consistent below (by omega) mapsHeader (.refl header)
    unmapsHeader
  have unmappedConsistent := restored.consistent _ consistent
  rw [rootTable_length clear mapsHeader fetches]
  apply Avoids.bind (mapOrPanic_avoids (clear.restored restored) unmappedConsistent upTo page _ _ _)
  intro table mapsTable
  rw [mapOrPanic_eq_ok] at mapsTable
  apply Avoids.bind (parses unmapped table (clear.restored restored) mapsTable
    (unmappedConsistent.step (.map heapPages mapsTable)))
  intro parsed _
  apply Avoids.bind (unmapOrPanic_avoids unmapAgain _ _ _)
  intro paging _
  exact avoids_ok _

/-- An RSDT of at most 16 MiB ends in front of the window of the tables. -/
theorem acpiParseRsdt_root_avoids (heapPages : HeapPages c.alloc)
    (consistent : Consistent bootPages s) (clear : ClearFrom c.alloc rootWindow s)
    (short : tableLength c.ram address ≤ 2 ^ 24) :
    Avoids Halt.MapRefused
      (acpiParseRootTable c rsdtPanics (acpiParseRsdt c) address s acpi) := by
  apply acpiParseRootTable_avoids heapPages consistent clear (by decide) (by decide)
  intro unmapped table unmappedClear maps tableConsistent
  have mapped := pagingMap_effect (by omega) maps
  have ends : rootWindow + Stride.passes 4096 (tableLength c.ram address) * 4096 ≤ rsdtWindow := by
    rw [rootWindow_eq, rsdtWindow_eq]
    simp only [Stride.passes]
    omega
  have later : rootWindow ≤ rsdtWindow := by decide
  exact acpiParseRsdt_avoids heapPages tableConsistent (unmappedClear.map mapped later ends)

theorem acpiParseXsdt_root_avoids (heapPages : HeapPages c.alloc)
    (consistent : Consistent bootPages s) (clear : ClearFrom c.alloc rootWindow s) :
    Avoids Halt.MapRefused
      (acpiParseRootTable c xsdtPanics (acpiParseXsdt c) address s acpi) := by
  apply acpiParseRootTable_avoids heapPages consistent clear (by decide) (by decide)
  intro _ _ _ _ _
  exact acpiParseXsdt_avoids

/-- The root pointer is parsed, from a state in which nothing is mapped behind its window. -/
theorem acpiParseVersion_avoids {rsdp : ℕ → Except Halt UInt8} {pointer : ℕ}
    (heapPages : HeapPages c.alloc) (consistent : Consistent bootPages s)
    (clear : ClearFrom c.alloc rootWindow s) (rsdpAvoids : ∀ i, Avoids Halt.MapRefused (rsdp i))
    (reads : ∀ i < 32, ∀ byte, rsdp i = .ok byte → byte = c.ram (pointer + i))
    (short : LeadsToRsdt c.ram pointer → tableLength c.ram (rsdtAddress c.ram pointer) ≤ 2 ^ 24) :
    Avoids Halt.MapRefused (acpiParseVersion c rsdp s acpi) := by
  have field : ∀ offset width value, offset + width ≤ 32 → fetch rsdp offset width = .ok value →
      value = word (fun i => c.ram (pointer + i)) offset width := by
    intro offset width value inside fetches
    apply fetch_eq_word _ fetches
    intro i inField byte readsByte
    exact reads _ (by omega) byte readsByte
  rw [acpiParseVersion]
  apply Avoids.bind (rsdpAvoids 15)
  intro revision readsRevision
  have isRevision := reads 15 (by omega) revision readsRevision
  split_ifs with oldest second
  · apply Avoids.bind (fetch_avoids rsdpAvoids)
    intro rsdtAddr fetches
    rw [field 16 4 _ (by omega) fetches]
    apply acpiParseRsdt_root_avoids heapPages consistent clear
    exact short (Or.inl (isRevision.symm.trans oldest))
  · apply Avoids.bind (fetch_avoids rsdpAvoids)
    intro rsdtAddr fetches
    apply Avoids.bind (fetch_avoids rsdpAvoids)
    intro xsdtAddr fetchesXsdt
    split_ifs with hasXsdt
    · exact acpiParseXsdt_root_avoids heapPages consistent clear
    · rw [field 16 4 _ (by omega) fetches]
      apply acpiParseRsdt_root_avoids heapPages consistent clear
      rw [field 24 8 _ (by omega) fetchesXsdt, ne_eq, not_not] at hasXsdt
      exact short (Or.inr ⟨isRevision.symm.trans second, hasXsdt⟩)
  · exact avoids_error_iff.mpr (by decide)

theorem acpiParseRsdp_avoids {ptr pointer : ℕ} (heapPages : HeapPages c.alloc)
    (consistent : Consistent bootPages s) (clear : ClearFrom c.alloc rootWindow s)
    (reads : ∀ i < 32, ∀ byte, readFrom s acpi.devices c.ram ptr i = .ok byte →
      byte = c.ram (pointer + i))
    (short : LeadsToRsdt c.ram pointer → tableLength c.ram (rsdtAddress c.ram pointer) ≤ 2 ^ 24) :
    Avoids Halt.MapRefused (acpiParseRsdp c ptr s acpi) := by
  have rsdpAvoids : ∀ i, Avoids Halt.MapRefused (readFrom s acpi.devices c.ram ptr i) :=
    readFrom_avoids (by decide) ptr
  rw [acpiParseRsdp]
  apply Avoids.bind (checkRsdpLoop_avoids rsdpAvoids _ _ _)
  intro sum _
  split_ifs
  · exact avoids_ok _
  · apply Avoids.bind (acpiParseVersion_avoids heapPages consistent clear rsdpAvoids reads short)
    rintro ⟨paging, parsed⟩ _
    exact avoids_ok _

end Root

/-- The physical address of the root pointer that `acpi_init` finds. -/
inductive RootPointerAt (c : AcpiContext) (s : Paging) : ℕ → Prop where
  | bios {offset : ℕ} {t : Paging}
      (finds : searchRsdpBios c.alloc c.ram s = .ok (pagingDevmapStart + offset, t)) :
      RootPointerAt c s (0xE0000 + offset)
  | ebda {offset : ℕ} {t u : Paging} (misses : searchRsdpBios c.alloc c.ram s = .ok (0, t))
      (finds : searchRsdpEbda c.alloc c.ram t = .ok (pagingDevmapStart + offset, u)) :
      RootPointerAt c s offset

section Init

variable {bootPages : ℕ} {c : AcpiContext} {s t : Paging} {acpi : Acpi}
  {mapPanic unmapPanic : String} {phys size base count ptr : ℕ}

theorem pagingDevmapStart_upTo : pagingDevmapStart ≤ 0xC0000000 ∧ pagingDevmapStart % 4096 = 0 := by
  decide

theorem searchRsdp_avoids {alloc : ℕ → Option ℕ} {ram : ℕ → UInt8}
    (consistent : Consistent bootPages s) (clear : ClearFrom alloc pagingDevmapStart s)
    (unmap : ¬(Halt.kpanic unmapPanic).MapRefused) :
    Avoids Halt.MapRefused (searchRsdp mapPanic unmapPanic phys size base count alloc ram s) := by
  rcases pagingDevmapStart_upTo with ⟨upTo, page⟩
  rw [searchRsdp]
  apply Avoids.bind (mapOrPanic_avoids clear consistent upTo page _ _ _)
  intro mapped _
  apply Avoids.bind (searchRsdpLoop_avoids (fun _ => readByte_avoids (by decide) _) _ _)
  intro found _
  cases found with
  | some offset => exact avoids_ok _
  | none =>
      apply Avoids.bind (unmapOrPanic_avoids unmap _ _ _)
      intro unmapped _
      exact avoids_ok _

/-- The root pointer is parsed in the window of the search that has found it. -/
theorem searchRsdp_found_avoids {start : ℕ} (heapPages : HeapPages c.alloc)
    (consistent : Consistent bootPages s) (clear : ClearFrom c.alloc pagingDevmapStart s)
    (page : phys % 4096 = 0) (low : phys ≤ 2 ^ 20) (few : size ≤ 2 ^ 20)
    (inside : base + count * 16 ≤ 2 ^ 20)
    (searches : searchRsdp mapPanic unmapPanic phys size base count c.alloc c.ram s =
      .ok (pagingDevmapStart + start, t))
    (short : LeadsToRsdt c.ram (phys + start) →
      tableLength c.ram (rsdtAddress c.ram (phys + start)) ≤ 2 ^ 24) :
    Avoids Halt.MapRefused (acpiParseRsdp c (pagingDevmapStart + start) t acpi) := by
  have window : pagingDevmapStart = 0xB8000000 := rfl
  rcases searchRsdp_cases searches with ⟨mapped, maps, ⟨offset, inParagraphs, isStart, rfl⟩ |
    ⟨isNull, _⟩⟩
  · have mappedEffect := pagingMap_effect (by omega) maps
    have behind := clear.map mappedEffect (Nat.le_add_right _ _) (Nat.le_refl _)
    have upToRoot : pagingDevmapStart + Stride.passes 4096 size * 4096 ≤ rootWindow := by
      rw [rootWindow_eq, window]
      simp only [Stride.passes]
      omega
    apply acpiParseRsdp_avoids heapPages (consistent.step (.map heapPages maps))
      (behind.mono upToRoot) _ short
    intro i inPointer byte reads
    have inWindow : pagingDevmapStart + (start + i) < 0xC0000000 := by omega
    rw [mappedEffect.reads behind pagingDevmapStart_upTo.2 inWindow reads]
    have place : (phys - phys % 4096 + (start + i)) % 2 ^ 32 = phys + start + i := by omega
    rw [place]
  · omega

/-- What `acpi_init` does behind either search. -/
theorem parse_unmap_avoids (parses : Avoids Halt.MapRefused (acpiParseRsdp c ptr t acpi)) :
    Avoids Halt.MapRefused (do
      let (_, s, acpi) ← acpiParseRsdp c ptr t acpi
      let s ← unmapOrPanic s pagingDevmapStart size "Cannot unmap ebda rsdp entry"
      return (s, acpi)) := by
  apply Avoids.bind parses
  rintro ⟨result, parsed, acpiAfter⟩ _
  apply Avoids.bind (unmapOrPanic_avoids (by decide) _ _ _)
  intro unmapped _
  exact avoids_ok _

theorem searchRsdp_start {alloc : ℕ → Option ℕ} {ram : ℕ → UInt8}
    (searches : searchRsdp mapPanic unmapPanic phys size base count alloc ram s = .ok (ptr, t))
    (found : ptr ≠ 0) : ∃ start, ptr = pagingDevmapStart + start := by
  rcases searchRsdp_cases searches with ⟨_, _, ⟨offset, _, isPtr, _⟩ | ⟨isNull, _⟩⟩
  · exact ⟨base + offset, isPtr.trans (Nat.add_assoc _ _ _)⟩
  · exact absurd isNull found

/-- `acpi_init` does not fail for want of a free window. -/
theorem acpiInit_avoids (heapPages : HeapPages c.alloc) (consistent : Consistent bootPages s)
    (clear : ClearFrom c.alloc pagingDevmapStart s)
    (short : ∀ pointer, RootPointerAt c s pointer → LeadsToRsdt c.ram pointer →
      tableLength c.ram (rsdtAddress c.ram pointer) ≤ 2 ^ 24) :
    Avoids Halt.MapRefused (acpiInit c s acpi) := by
  rw [acpiInit, searchRsdpBios_eq]
  apply Avoids.bind (searchRsdp_avoids consistent clear (by decide))
  rintro ⟨ptr, t⟩ bios
  simp only
  split_ifs with isNull
  · subst isNull
    -- The search of the BIOS area has closed its window, so the other one starts as clear.
    have restored := searchRsdp_null_restored heapPages consistent (by omega) bios
    have stillConsistent := restored.consistent _ consistent
    have stillClear := clear.restored restored
    apply Avoids.bind (searchRsdp_avoids stillConsistent stillClear (by decide))
    rintro ⟨ptr, u⟩ ebda
    simp only
    split_ifs with isNull
    · exact avoids_error_iff.mpr (by decide)
    · rcases searchRsdp_start ebda isNull with ⟨start, rfl⟩
      apply parse_unmap_avoids
      apply searchRsdp_found_avoids heapPages stillConsistent stillClear (by omega) (by omega)
        (by omega) (by omega) ebda
      rw [Nat.zero_add]
      exact short start (.ebda ((searchRsdpBios_eq _ _ _).trans bios) ebda)
  · rcases searchRsdp_start bios isNull with ⟨start, rfl⟩
    apply parse_unmap_avoids
    apply searchRsdp_found_avoids heapPages consistent clear (by omega) (by omega) (by omega)
      (by omega) bios
    exact short (0xE0000 + start) (.bios ((searchRsdpBios_eq _ _ _).trans bios))

end Init

/-- The state in which `acpi_init` is called: nothing is mapped from `PAGING_DEVMAP_START` up
to the kernel; the page tables that the allocator has for empty slots are zero-filled, and
each slot has a table of its own. -/
structure WindowsFree (bootPages : ℕ) (alloc : ℕ → Option ℕ) (s : Paging) : Prop where
  consistent : Consistent bootPages s
  heapPages : HeapPages alloc
  unshared : ∀ i < 768, ∀ j < 768, ∀ table, s.slotTable alloc i = some table →
    s.slotTable alloc j = some table → i = j
  unused : ∀ virt, pagingDevmapStart ≤ virt → virt < 0xC0000000 →
    ¬s.EntryUsed (pdindex virt) (ptindex virt)
  zeroFilled : ∀ slot < 768, s.pagingDir slot = 0 → ∀ table, alloc slot = some table →
    ∀ index, s.tables table index = 0

/-- Every window is unmapped, and every address in front of them leads where it did. -/
structure WindowsReleased (s s' : Paging) : Prop where
  unmapped : ∀ virt, pagingDevmapStart ≤ virt → virt < 0xC0000000 →
    ¬s'.EntryUsed (pdindex virt) (ptindex virt)
  elsewhere : ∀ devices devices' virt, virt < pagingDevmapStart →
    translate s' devices' virt = translate s devices virt

namespace WindowsFree

variable {bootPages : ℕ} {alloc : ℕ → Option ℕ} {s s' : Paging}

/-- Paging as `kernel_premain` sets it up, when the allocator hands out cleared pages, each of
them once. -/
theorem init {addr : ℕ} {behind : ℕ → ℕ} {memory : ℕ → ℕ → ℕ} (heapPages : HeapPages alloc)
    (distinct : ∀ slot other table, alloc slot = some table → alloc other = some table →
      slot = other)
    (cleared : ∀ slot table, alloc slot = some table → ∀ index, memory table index = 0) :
    WindowsFree bootPages alloc (kernelPremainPaging bootPages addr behind memory) := by
  refine ⟨.init, heapPages, ?_, ?_, ?_⟩
  · intro i _ j _ table iTable jTable
    exact distinct i j table (alloc_of_slotTable iTable) (alloc_of_slotTable jTable)
  · rintro virt _ _ ⟨_, table, isTable, _⟩
    cases isTable
  · intro slot _ _ table allocated
    exact cleared slot table allocated

theorem clear (free : WindowsFree bootPages alloc s) : ClearFrom alloc pagingDevmapStart s := by
  refine ⟨free.unshared, ?_⟩
  intro virt above below table isTable
  rw [Paging.slotTable] at isTable
  split_ifs at isTable with empty
  · exact free.zeroFilled _ (pdindex_low below) empty table isTable _
  · by_contra used
    exact free.unused virt above below ⟨empty, table, isTable, used⟩

theorem translate_restored (free : WindowsFree bootPages alloc s) (restored : Restored alloc s s')
    (devices devices' : DeviceMap) {virt : ℕ} (low : virt < 0xC0000000) :
    translate s' devices' virt = translate s devices virt := by
  have slotLow := pdindex_low low
  by_cases empty : s.pagingDir (pdindex virt) = 0
  · have before : translate s devices virt = none := by
      rw [translate, if_pos slotLow, if_pos empty]
    rw [before]
    by_contra mapped
    rcases translate_ne_none slotLow mapped with ⟨present, table, isTable, nonzero⟩
    have isNew := restored.slotTable (pdindex virt)
    rw [Paging.slotTable, Paging.slotTable, if_neg present, if_pos empty, isTable] at isNew
    rw [restored.sameTables] at nonzero
    exact nonzero (free.zeroFilled _ slotLow empty table isNew.symm _)
  · have kept := restored.slotKept _ empty
    rw [translate, translate, if_pos slotLow, if_pos slotLow, kept.1, kept.2, restored.sameTables]

theorem released (free : WindowsFree bootPages alloc s) (restored : Restored alloc s s') :
    WindowsReleased s s' := by
  refine ⟨?_, ?_⟩
  · rintro virt above below ⟨present, table, isTable, used⟩
    have inSlot : s'.slotTable alloc (pdindex virt) = some table := by
      rw [Paging.slotTable, if_neg present]
      exact isTable
    exact used ((free.clear.restored restored).clear virt above below table inSlot)
  · intro devices devices' virt low
    have below : pagingDevmapStart < 0xC0000000 := by decide
    exact free.translate_restored restored devices devices' (Nat.lt_trans low below)

end WindowsFree

/-- When `acpi_init` returns, every window that it has mapped is unmapped. And none of its calls
of `paging_map` is refused, when the RSDT that it comes to, if it comes to one, is not longer
than 16 MiB. -/
theorem acpiInit_releases {bootPages : ℕ} {c : AcpiContext} {s : Paging} (acpi : Acpi)
    (free : WindowsFree bootPages c.alloc s) :
    (∀ s' acpi', acpiInit c s acpi = .ok (s', acpi') → WindowsReleased s s') ∧
      ((∀ pointer, RootPointerAt c s pointer → LeadsToRsdt c.ram pointer →
          tableLength c.ram (rsdtAddress c.ram pointer) ≤ 2 ^ 24) →
        ∀ halt, acpiInit c s acpi = .error halt → ¬halt.MapRefused) := by
  constructor
  · intro s' acpi' returns
    exact free.released (acpiInit_restored free.heapPages free.consistent returns)
  · intro short
    exact acpiInit_avoids free.heapPages free.consistent free.clear short

/-- An RSDT at 0x1000 for tables at 0x2000 and 0x3000, and a root pointer to it at 0xE0000. -/
def twoTablesRam (address : ℕ) : UInt8 :=
  if address = 0xE0008 then 0xF0
  else if address = 0xE0011 then 0x10
  else if address = 0x1004 then 44
  else if address = 0x1025 then 0x20
  else if address = 0x1029 then 0x30
  else 0

def twoTablesContext : AcpiContext where
  ram := twoTablesRam
  alloc := heapPageOf
  kmalloc := fun _ => none
  fuel := 0

theorem rootPointerAt_twoTables {pointer : ℕ}
    (found : RootPointerAt twoTablesContext bootPaging pointer) : pointer = 0xE0000 := by
  have finds : (searchRsdpBios heapPageOf twoTablesRam bootPaging).map Prod.fst =
      .ok pagingDevmapStart := by
    decide +kernel
  cases found with
  | @bios offset _ found =>
      rw [show searchRsdpBios heapPageOf twoTablesRam bootPaging = _ from found] at finds
      simpa [Except.map] using finds
  | ebda misses _ =>
      rw [show searchRsdpBios heapPageOf twoTablesRam bootPaging = _ from misses] at finds
      cases finds

/-- With these tables `acpi_init` returns. -/
theorem acpiInit_releases_twoTables :
    (∃ s' acpi', acpiInit twoTablesContext bootPaging (Acpi.init fun _ => 0) = .ok (s', acpi') ∧
      WindowsReleased bootPaging s') ∧
      ∀ halt, acpiInit twoTablesContext bootPaging (Acpi.init fun _ => 0) = .error halt →
        ¬halt.MapRefused := by
  have free : WindowsFree 0x200000 twoTablesContext.alloc bootPaging :=
    .init heapPages_heapPageOf (fun _ _ _ => heapPageOf_distinct) (fun _ _ _ _ => rfl)
  have both := acpiInit_releases (Acpi.init fun _ => 0) free
  constructor
  · have returns :
        ((acpiInit twoTablesContext bootPaging (Acpi.init fun _ => 0)).map fun _ => ()) = .ok () := by
      decide +kernel
    rcases map_eq_ok.mp returns with ⟨⟨s', acpi'⟩, returns, _⟩
    exact ⟨s', acpi', returns, both.1 s' acpi' returns⟩
  · apply both.2
    intro pointer found _
    rw [rootPointerAt_twoTables found]
    decide +kernel

end Osserver
