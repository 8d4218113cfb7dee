import Osserver.Acpi.Basic
import Osserver.Paging.Bracket
import Osserver.Paging.Frame

/-!
# The window of an ACPI table

`acpi_parse_rsdt` maps as many pages as the length of a table takes from a page
boundary on, but the table begins at its offset in the first page. The window
covers the table exactly when the offset costs no further page.
-/

namespace Osserver

/-- After the first mapping for a table, the four bytes of its length field are
translated to their physical addresses; after the second, all its bytes are. -/
def CoversTable (address length : ℕ) : Prop :=
  ∀ (s header table : Paging) (allocHeader allocTable : ℕ → Option ℕ), s.Configured →
    acpiMapHeader allocHeader s address = .ok header →
      (∀ i < 4, pagingGetPhysical header (rsdtWindow + address % 4096 + 4 + i) =
        .ok (address + 4 + i)) ∧
      (acpiMapTable allocTable header address length = .ok table →
        ∀ i < length, pagingGetPhysical table (rsdtWindow + address % 4096 + i) =
          .ok (address + i))

theorem acpiMapHeader_maps {alloc : ℕ → Option ℕ} {s s' : Paging} {address : ℕ}
    (returns : acpiMapHeader alloc s address = .ok s') :
    pagingMap alloc s address rsdtWindow 4096 0 = .ok (true, s') := by
  rw [acpiMapHeader] at returns
  split at returns
  · cases returns
  · cases returns
  · rename_i mapped
    cases returns
    exact mapped

theorem acpiMapTable_maps {alloc : ℕ → Option ℕ} {s s' : Paging} {address len : ℕ}
    (returns : acpiMapTable alloc s address len = .ok s') :
    ∃ unmapped, pagingUnmap s rsdtWindow 4096 = .ok (true, unmapped) ∧
      pagingMap alloc unmapped address rsdtWindow len 0 = .ok (true, s') := by
  rw [acpiMapTable] at returns
  split at returns
  · cases returns
  · cases returns
  · rename_i unmapped cleared
    split at returns
    · cases returns
    · cases returns
    · rename_i mapped
      cases returns
      exact ⟨unmapped, cleared, mapped⟩

/-- The mapping for a header takes one page. -/
theorem passes_header : Stride.passes 4096 4096 = 1 := rfl

theorem rsdtWindow_header_below : rsdtWindow + Stride.passes 4096 4096 * 4096 ≤ 0xC0000000 := by
  decide

theorem rsdtWindow_page {offset : ℕ} (bounded : offset < 2 ^ 25) :
    (rsdtWindow + offset) / 4096 = pageAt rsdtWindow (offset / 4096) / 4096 ∧
      pdindex (rsdtWindow + offset) < 768 ∧ (rsdtWindow + offset) % 4096 = offset % 4096 := by
  have window := rsdtWindow_eq
  rw [pageAt, pdindex, window]
  refine ⟨?_, ?_, ?_⟩ <;> omega

theorem frame_offset {address offset : ℕ} (word : address - address % 4096 + offset < 2 ^ 32) :
    frame ((address + offset / 4096 * 4096) % 2 ^ 32) + offset % 4096 =
      address - address % 4096 + offset := by
  simp only [frame]
  omega

theorem window_translates {alloc : ℕ → Option ℕ} {s s' : Paging} {address size offset : ℕ}
    (configured : s.Configured)
    (effect : MapEffect alloc address rsdtWindow 0 0 (Stride.passes 4096 size) s s')
    (word : address - address % 4096 + offset < 2 ^ 32) (bounded : offset < 2 ^ 25)
    (inPages : offset < 4096 * Stride.passes 4096 size) :
    pagingGetPhysical s' (rsdtWindow + offset) = .ok (address - address % 4096 + offset) := by
  have inside : offset / 4096 < Stride.passes 4096 size := Nat.div_lt_of_lt_mul inPages
  rcases rsdtWindow_page bounded with ⟨onPage, belowKernel, inPage⟩
  have low : pdindex (rsdtWindow + offset) < s.higherPagesStart := by
    rw [configured.start]
    exact Nat.lt_trans belowKernel (by omega)
  rw [effect.translates (Nat.zero_le _) inside onPage low, frame_pagingMapWord, inPage,
    frame_offset word]

/-- The length field lies on one page with the beginning of the table, and the
offset of the table costs no page more than its length takes by itself. -/
def FitsWindow (address length : ℕ) : Prop :=
  address % 4096 + 8 ≤ 4096 ∧ address % 4096 + length ≤ (length + 4095) / 4096 * 4096

theorem FitsWindow.covers {address length : ℕ} (fits : FitsWindow address length)
    (hasHeader : 8 ≤ length) (bounded : length ≤ 2 ^ 24) (word : address + length ≤ 2 ^ 32) :
    CoversTable address length := by
  intro s header table allocHeader allocTable configured mapsHeader
  have headerEffect := pagingMap_effect (by omega) (acpiMapHeader_maps mapsHeader)
  rcases fits with ⟨fieldFits, tableFits⟩
  constructor
  · intro i inField
    have onPage : address % 4096 + 4 + i < 4096 * Stride.passes 4096 4096 := by
      rw [passes_header]
      omega
    have translates := window_translates configured headerEffect (by omega) (by omega) onPage
    have place : rsdtWindow + (address % 4096 + 4 + i) = rsdtWindow + address % 4096 + 4 + i := by
      omega
    rw [place] at translates
    rw [translates]
    congr 1
    omega
  · intro mapsTable i inTable
    rcases acpiMapTable_maps mapsTable with ⟨unmapped, clears, maps⟩
    have unmapEffect := pagingUnmap_effect (by omega) clears
    have unmappedConfigured : unmapped.Configured := by
      refine ⟨?_, ?_⟩
      · rw [unmapEffect.sameSize, headerEffect.sameSize]
        exact configured.size
      · rw [unmapEffect.sameStart, headerEffect.sameStart]
        exact configured.start
    have tableEffect := pagingMap_effect (by omega) maps
    have inPages : address % 4096 + i < 4096 * Stride.passes 4096 length := by
      have atLeast : (length + 4096 - 1) / 4096 ≤ Stride.passes 4096 length := Nat.le_max_right _ _
      generalize Stride.passes 4096 length = passes at atLeast
      omega
    have translates := window_translates unmappedConfigured tableEffect (by omega) (by omega) inPages
    rw [← Nat.add_assoc] at translates
    rw [translates]
    congr 1
    omega

/-- Paging in which every table is zero and each slot below the kernel has the heap
page of `heapPageOf`, or gets it when it is touched. -/
structure Blank (s : Paging) : Prop where
  configured : s.Configured
  zero : ∀ table index, s.tables table index = 0
  slots : ∀ slot < 768, s.slotTable heapPageOf slot = heapPageOf slot

namespace Blank

variable {s s' : Paging} {phys virt flags passes : ℕ}

theorem init : Blank (kernelPremainPaging 0x200000 0x100000 (fun _ => 0) (fun _ _ => 0)) :=
  ⟨⟨rfl, rfl⟩, fun _ _ => rfl, fun _ low => slotTable_kernelPremainPaging _ _ _ _ _ low⟩

theorem slot_low {k : ℕ} (belowKernel : virt + passes * 4096 ≤ 0xC0000000) (inside : k < passes) :
    pdindex (pageAt virt k) < 768 := by
  rw [pdindex, pageAt]
  omega

theorem ready (blank : Blank s) (belowKernel : virt + passes * 4096 ≤ 0xC0000000) :
    MapReady heapPageOf virt passes s := by
  refine ⟨?_, ?_, ?_, ?_⟩
  · intro k inside
    rw [blank.configured.size]
    exact Nat.le_of_lt (slot_low belowKernel inside)
  · intro k inside
    exact ⟨_, blank.slots _ (slot_low belowKernel inside), blank.zero _ _⟩
  · intro j k before inside table isTable writes
    rw [blank.slots _ (slot_low belowKernel inside)] at isTable
    have writesTable := writes.1
    rw [blank.slots _ (slot_low belowKernel (Nat.lt_trans before inside))] at writesTable
    have samePage := page_of_index (heapPageOf_distinct writesTable isTable) writes.2
    rw [pageAt, pageAt] at samePage
    omega
  · intro slot table allocated
    rw [blank.configured.start]
    exact heapPageOf_high allocated

theorem beyond (blank : Blank s)
    (effect : MapEffect heapPageOf phys virt flags 0 passes s s')
    (belowKernel : virt + passes * 4096 ≤ 0xC0000000) {address : ℕ} (low : address < 0xC0000000)
    (offRange : ∀ k < passes, pageAt virt k / 4096 ≠ address / 4096) :
    pagingGetPhysical s' address = .ok 0 := by
  have addressSlot := pdindex_low low
  have slotLow : pdindex address < s'.higherPagesStart := by
    rw [effect.sameStart, blank.configured.start]
    exact Nat.lt_trans addressSlot (by omega)
  have isTable := blank.slots _ addressSlot
  have free : ∀ table, heapPageOf (pdindex address) = some table →
      s'.tables table (ptindex address) = 0 := by
    intro table allocated
    rw [effect.kept table (ptindex address), blank.zero]
    rintro k _ inside ⟨writesTable, writesIndex⟩
    rw [blank.slots _ (slot_low belowKernel inside)] at writesTable
    exact offRange k inside (page_of_index (heapPageOf_distinct writesTable allocated) writesIndex)
  have table := effect.slotTable_eq (pdindex address)
  rw [isTable] at table
  apply Paging.translate_unused slotLow table
  exact Or.inr (free _ rfl)

theorem map_unmap {header unmapped : Paging} {address : ℕ} (blank : Blank s)
    (maps : acpiMapHeader heapPageOf s address = .ok header)
    (clears : pagingUnmap header rsdtWindow 4096 = .ok (true, unmapped)) : Blank unmapped := by
  have mapped := pagingMap_effect (by omega) (acpiMapHeader_maps maps)
  have cleared := pagingUnmap_effect (by omega) clears
  refine ⟨⟨?_, ?_⟩, ?_, ?_⟩
  · rw [cleared.sameSize, mapped.sameSize]
    exact blank.configured.size
  · rw [cleared.sameStart, mapped.sameStart]
    exact blank.configured.start
  · intro table index
    rw [mapped.bracket_tables (.refl header) cleared]
    exact blank.zero table index
  · intro slot low
    rw [cleared.slotTable_eq, mapped.slotTable_eq]
    exact blank.slots slot low

theorem header_maps (blank : Blank s) (address : ℕ) :
    ∃ header, acpiMapHeader heapPageOf s address = .ok header := by
  have unwrapped : 4096 + 4096 ≤ 2 ^ 32 := by omega
  rcases pagingMap_complete unwrapped (blank.ready rsdtWindow_header_below) with ⟨header, maps⟩
  refine ⟨header, ?_⟩
  rw [acpiMapHeader, maps]

theorem table_maps {header : Paging} {address length : ℕ} (blank : Blank s)
    (maps : acpiMapHeader heapPageOf s address = .ok header) (bounded : length ≤ 2 ^ 24) :
    ∃ unmapped table, Blank unmapped ∧
      acpiMapTable heapPageOf header address length = .ok table ∧
        MapEffect heapPageOf address rsdtWindow 0 0 (Stride.passes 4096 length) unmapped table := by
  have mapped := pagingMap_effect (by omega) (acpiMapHeader_maps maps)
  have pages : Stride.passes 4096 length ≤ 4096 := by
    simp only [Stride.passes]
    omega
  have slots : ∀ k < Stride.passes 4096 4096, pdindex (pageAt rsdtWindow k) < 768 :=
    fun k inside => slot_low rsdtWindow_header_below inside
  have clears : ∃ unmapped, pagingUnmap header rsdtWindow 4096 = .ok (true, unmapped) := by
    apply pagingUnmap_complete (by omega)
    · intro k inside
      rw [mapped.sameSize, blank.configured.size]
      exact Nat.le_of_lt (slots k inside)
    · intro k inside _ noTable
      have slot := mapped.slotTouched k (Nat.zero_le k) inside
      rw [noTable, blank.slots _ (slots k inside)] at slot
      exact absurd slot.2 (by simp [heapPageOf])
  rcases clears with ⟨unmapped, clears⟩
  have unmappedBlank := blank.map_unmap maps clears
  have window := rsdtWindow_eq
  have belowKernel : rsdtWindow + Stride.passes 4096 length * 4096 ≤ 0xC0000000 := by
    rw [window]
    omega
  have unwrapped : length + 4096 ≤ 2 ^ 32 := by omega
  rcases pagingMap_complete unwrapped (unmappedBlank.ready belowKernel) with ⟨table, mapsTable⟩
  refine ⟨unmapped, table, unmappedBlank, ?_, pagingMap_effect (by omega) mapsTable⟩
  rw [acpiMapTable, clears]
  simp only [mapsTable]

end Blank

theorem offRange_of_le {passes offset : ℕ} (bounded : offset < 2 ^ 25)
    (behind : passes * 4096 ≤ offset) :
    ∀ k < passes, pageAt rsdtWindow k / 4096 ≠ (rsdtWindow + offset) / 4096 := by
  intro k inside
  have window := rsdtWindow_eq
  rw [pageAt, window]
  omega

theorem CoversTable.fits {address length : ℕ} (covers : CoversTable address length)
    (hasHeader : 8 ≤ length) (bounded : length ≤ 2 ^ 24) : FitsWindow address length := by
  have window := rsdtWindow_eq
  have blank := Blank.init
  rcases blank.header_maps address with ⟨header, mapsHeader⟩
  rcases blank.table_maps mapsHeader bounded with
    ⟨unmapped, table, unmappedBlank, mapsTable, tableEffect⟩
  have headerEffect := pagingMap_effect (by omega) (acpiMapHeader_maps mapsHeader)
  rcases covers _ header table _ _ blank.configured mapsHeader with ⟨field, bytes⟩
  constructor
  · by_contra overlaps
    have behind : Stride.passes 4096 4096 * 4096 ≤ address % 4096 + 7 := by
      rw [passes_header]
      omega
    have offRange := offRange_of_le (by omega) behind
    have unmappedByte := blank.beyond headerEffect rsdtWindow_header_below (by omega) offRange
    have translated := field 3 (by omega)
    have place : rsdtWindow + address % 4096 + 4 + 3 = rsdtWindow + (address % 4096 + 7) := by
      omega
    rw [place, unmappedByte] at translated
    simp at translated
  · by_contra overlaps
    have pages : Stride.passes 4096 length = (length + 4095) / 4096 := by
      simp only [Stride.passes]
      omega
    have behind : Stride.passes 4096 length * 4096 ≤ address % 4096 + (length - 1) := by omega
    have offRange := offRange_of_le (by omega) behind
    have unmappedByte := unmappedBlank.beyond tableEffect (by omega) (by omega) offRange
    have translated := bytes mapsTable (length - 1) (by omega)
    rw [Nat.add_assoc, unmappedByte] at translated
    simp only [Except.ok.injEq] at translated
    omega

/-- The window covers a table, in every state in which its mappings succeed, exactly
when the table fits the pages that its length alone takes. -/
theorem acpi_window_covers_iff {address length : ℕ} (hasHeader : 8 ≤ length)
    (bounded : length ≤ 2 ^ 24) (word : address + length ≤ 2 ^ 32) :
    CoversTable address length ↔ FitsWindow address length :=
  ⟨fun covers => covers.fits hasHeader bounded,
    fun fits => fits.covers hasHeader bounded word⟩

/-- A table of 244 bytes that begins in the middle of a page. -/
theorem acpi_window_covers_iff_middle : CoversTable 0x7FE0800 244 :=
  (acpi_window_covers_iff (by omega) (by omega) (by omega)).mpr ⟨by omega, by omega⟩

/-- A table of 244 bytes that begins 128 bytes before the end of a page: both
mappings succeed, and its byte 128 is not mapped. -/
theorem acpi_window_straddled :
    ∃ s header table : Paging, s.Configured ∧
      acpiMapHeader heapPageOf s 0x7FE0F80 = .ok header ∧
        acpiMapTable heapPageOf header 0x7FE0F80 244 = .ok table ∧
          pagingGetPhysical table (rsdtWindow + 0xF80 + 128) = .ok 0 := by
  have blank := Blank.init
  rcases blank.header_maps 0x7FE0F80 with ⟨header, mapsHeader⟩
  have bounded : 244 ≤ 2 ^ 24 := by omega
  rcases blank.table_maps mapsHeader bounded with
    ⟨unmapped, table, unmappedBlank, mapsTable, tableEffect⟩
  refine ⟨_, header, table, blank.configured, mapsHeader, mapsTable, ?_⟩
  have offRange : ∀ k < 1, pageAt rsdtWindow k / 4096 ≠ (rsdtWindow + 4096) / 4096 :=
    offRange_of_le (by omega) (Nat.le_refl 4096)
  exact unmappedBlank.beyond tableEffect (by decide) (by decide) offRange

end Osserver
