import Osserver.Acpi.Tables
import Osserver.Acpi.Window
import Osserver.Paging.Safety

/-!
# The window while the tables are parsed

The window in which `acpi_parse_rsdt` maps a table reaches up to the kernel.
`WindowClear` is the invariant between two tables: nothing is mapped in the window.
Mapping a table and unmapping it again keeps the invariant, and keeps every
translation of an address that is mapped before.
-/

namespace Osserver

/-- The pages from the beginning of the window to the kernel. -/
def windowPages : ℕ := 24576

/-- Nothing is mapped in the window; the tables that the allocator has for its empty
slots are cleared; no table belongs to two slots. -/
structure WindowClear (bootPages : ℕ) (alloc : ℕ → Option ℕ) (s : Paging) : Prop where
  consistent : Consistent bootPages s
  heapPages : HeapPages alloc
  unshared : ∀ i < 768, ∀ j < 768, ∀ table, s.slotTable alloc i = some table →
    s.slotTable alloc j = some table → i = j
  clear : ∀ k < windowPages, ∃ table,
    s.slotTable alloc (pdindex (pageAt rsdtWindow k)) = some table ∧
      s.tables table (ptindex (pageAt rsdtWindow k)) = 0

/-- Every address below the kernel that is mapped in one state leads to the same place in
the other. -/
def KeepsMapped (s s' : Paging) : Prop :=
  ∀ devices devices' virt, pdindex virt < 768 → translate s devices virt ≠ none →
    translate s' devices' virt = translate s devices virt

theorem KeepsMapped.refl (s : Paging) : KeepsMapped s s := by
  intro devices devices' virt low _
  rw [translate, translate, if_pos low, if_pos low]

theorem KeepsMapped.trans {s t u : Paging} (first : KeepsMapped s t) (second : KeepsMapped t u) :
    KeepsMapped s u := by
  intro devices devices' virt low mapped
  have kept := first devices devices virt low mapped
  rw [← kept] at mapped ⊢
  exact second devices devices' virt low mapped

section Translate

variable {s : Paging} {virt table : ℕ}

theorem translate_of_table (devices : DeviceMap) (low : pdindex virt < 768)
    (present : s.pagingDir (pdindex virt) ≠ 0)
    (isTable : s.pagingDirectoryMap (pdindex virt) = some table) :
    translate s devices virt = pageOf (s.tables table (ptindex virt)) virt := by
  rw [translate, if_pos low, if_neg present, isTable]

/-- A mapped address has a table, and a word in it. -/
theorem translate_ne_none {devices : DeviceMap} (low : pdindex virt < 768)
    (mapped : translate s devices virt ≠ none) :
    s.pagingDir (pdindex virt) ≠ 0 ∧ ∃ table,
      s.pagingDirectoryMap (pdindex virt) = some table ∧ s.tables table (ptindex virt) ≠ 0 := by
  rw [translate, if_pos low] at mapped
  by_cases empty : s.pagingDir (pdindex virt) = 0
  · rw [if_pos empty] at mapped
    exact absurd rfl mapped
  · rw [if_neg empty] at mapped
    refine ⟨empty, ?_⟩
    cases isTable : s.pagingDirectoryMap (pdindex virt) with
    | none =>
        rw [isTable] at mapped
        exact absurd rfl mapped
    | some table =>
        rw [isTable] at mapped
        refine ⟨table, rfl, ?_⟩
        intro zero
        simp [pageOf, zero] at mapped

theorem translate_zero {alloc : ℕ → Option ℕ} (devices : DeviceMap) (low : pdindex virt < 768)
    (isTable : s.slotTable alloc (pdindex virt) = some table)
    (zero : s.tables table (ptindex virt) = 0) : translate s devices virt = none := by
  by_contra mapped
  rcases translate_ne_none low mapped with ⟨present, other, isOther, nonzero⟩
  rw [Paging.slotTable, if_neg present, isOther] at isTable
  cases isTable
  exact nonzero zero

end Translate

theorem pageOf_pagingMapWord (phys off virt : ℕ) :
    pageOf (pagingMapWord phys 0 off) virt = some (frame ((phys + off) % 2 ^ 32) + virt % 4096) := by
  have odd : pagingMapWord phys 0 off % 2 = 1 := by
    rw [pagingMapWord, Nat.or_mod_two_eq_one]
    exact Or.inr rfl
  rw [pageOf, if_pos odd, frame_pagingMapWord]

section Mapping

variable {alloc : ℕ → Option ℕ} {s t : Paging} {phys virt first last : ℕ}

/-- An address of a mapped page leads to the frame that its word was written with. -/
theorem MapEffect.translate_eq (mapped : MapEffect alloc phys virt 0 first last s t)
    (devices : DeviceMap) {k address : ℕ} (fromFirst : first ≤ k) (belowLast : k < last)
    (onPage : address / 4096 = pageAt virt k / 4096) (low : pdindex address < 768) :
    translate t devices address =
      some (frame ((phys + k * 4096) % 2 ^ 32) + address % 4096) := by
  have same := index_of_page onPage
  rcases mapped.written k fromFirst belowLast with ⟨table, isTable, _, written⟩
  have slot := mapped.slot_after (Or.inr ⟨k, fromFirst, belowLast, rfl⟩)
  rw [isTable, ← same.1] at slot
  rw [translate_of_table devices low slot.1 slot.2, same.2, written, pageOf_pagingMapWord]

end Mapping

theorem window_slot {k : ℕ} (inside : k < windowPages) : pdindex (pageAt rsdtWindow k) < 768 := by
  have window := rsdtWindow_eq
  rw [windowPages] at inside
  rw [pdindex, pageAt, window]
  omega

theorem window_page_inj {j k : ℕ} (jInside : j < windowPages) (kInside : k < windowPages)
    (samePage : pageAt rsdtWindow j / 4096 = pageAt rsdtWindow k / 4096) : j = k := by
  have window := rsdtWindow_eq
  rw [windowPages] at jInside kInside
  rw [pageAt, pageAt, window] at samePage
  omega

/-- The address at an offset of the window, and its page. -/
theorem window_address {offset : ℕ} (inside : offset < 4096 * windowPages) :
    (rsdtWindow + offset) / 4096 = pageAt rsdtWindow (offset / 4096) / 4096 ∧
      offset / 4096 < windowPages ∧ pdindex (rsdtWindow + offset) < 768 ∧
        (rsdtWindow + offset) % 4096 = offset % 4096 := by
  have window := rsdtWindow_eq
  rw [windowPages] at inside ⊢
  rw [pageAt, pdindex, window]
  refine ⟨?_, ?_, ?_, ?_⟩ <;> omega

theorem passes_le_windowPages {size : ℕ} (short : size ≤ 4096 * windowPages) :
    Stride.passes 4096 size ≤ windowPages := by
  rw [windowPages] at short ⊢
  simp only [Stride.passes]
  omega

namespace WindowClear

variable {bootPages : ℕ} {alloc : ℕ → Option ℕ} {s t u : Paging} {phys passes : ℕ}

/-- The entries of the pages of the window are apart from each other. -/
theorem apart (clear : WindowClear bootPages alloc s) {k table virt : ℕ}
    (inside : k < windowPages) (low : pdindex virt < 768)
    (isTable : s.slotTable alloc (pdindex virt) = some table)
    (writes : s.Writes alloc rsdtWindow k table (ptindex virt)) :
    virt / 4096 = pageAt rsdtWindow k / 4096 := by
  have sameSlot := clear.unshared _ (window_slot inside) _ low table writes.1 isTable
  exact (page_of_index sameSlot writes.2).symm

theorem ready (clear : WindowClear bootPages alloc s) (few : passes ≤ windowPages) :
    MapReady alloc rsdtWindow passes s := by
  refine ⟨?_, ?_, ?_, ?_⟩
  · intro k inside
    rw [clear.consistent.configured.size]
    exact Nat.le_of_lt (window_slot (Nat.lt_of_lt_of_le inside few))
  · intro k inside
    exact clear.clear k (Nat.lt_of_lt_of_le inside few)
  · intro j k before inside table isTable writes
    have kInside := Nat.lt_of_lt_of_le inside few
    have jInside := Nat.lt_trans before kInside
    have samePage := clear.apart jInside (window_slot kInside) isTable writes
    have same := window_page_inj kInside jInside samePage
    omega
  · intro slot table allocated
    rw [clear.consistent.configured.start]
    exact clear.heapPages.slot_high allocated

theorem size_le (clear : WindowClear bootPages alloc s) {size : ℕ}
    (maps : pagingMap alloc s phys rsdtWindow size 0 = .ok (true, t)) :
    size ≤ 4096 * windowPages := by
  have window := rsdtWindow_eq
  have notReaching : ¬ReachesKernel rsdtWindow size := fun reaches =>
    pagingMap_kernel clear.consistent reaches maps
  rw [ReachesKernel, window] at notReaching
  simp only [Stride.passes, windowPages] at notReaching ⊢
  omega

/-- The bytes at the offsets of the pages that are mapped, and no others of the window. -/
theorem translates (clear : WindowClear bootPages alloc s) (few : passes ≤ windowPages)
    (mapped : MapEffect alloc phys rsdtWindow 0 0 passes s t) (devices : DeviceMap) {offset : ℕ}
    (inside : offset < 4096 * windowPages) :
    translate t devices (rsdtWindow + offset) =
      if offset < 4096 * passes then some ((phys - phys % 4096 + offset) % 2 ^ 32) else none := by
  rcases window_address inside with ⟨onPage, pageInside, low, inPage⟩
  have same := index_of_page onPage
  by_cases covered : offset < 4096 * passes
  · have before : offset / 4096 < passes := Nat.div_lt_of_lt_mul covered
    rw [if_pos covered, mapped.translate_eq devices (Nat.zero_le _) before onPage low, inPage]
    simp only [frame, Option.some.injEq]
    omega
  · rcases clear.clear _ pageInside with ⟨table, isTable, zero⟩
    rw [← same.1] at isTable
    rw [← same.2] at zero
    have stillTable := isTable
    rw [← mapped.slotTable_eq] at stillTable
    rw [if_neg covered]
    apply translate_zero devices low stillTable
    rw [mapped.kept table (ptindex (rsdtWindow + offset)), zero]
    intro k _ before writes
    have samePage := clear.apart (Nat.lt_of_lt_of_le before few) low isTable writes
    rw [onPage] at samePage
    have samePass := window_page_inj pageInside (Nat.lt_of_lt_of_le before few) samePage
    omega

/-- Mapping pages of the window and unmapping them leaves the window clear. -/
theorem map_unmap (clear : WindowClear bootPages alloc s)
    (mapped : MapEffect alloc phys rsdtWindow 0 0 passes s t)
    (unmapped : UnmapEffect rsdtWindow 0 passes t u) (consistent : Consistent bootPages u) :
    WindowClear bootPages alloc u ∧ KeepsMapped s u := by
  have sameTable : ∀ slot, u.slotTable alloc slot = s.slotTable alloc slot := by
    intro slot
    rw [unmapped.slotTable_eq, mapped.slotTable_eq]
  have sameTables := mapped.bracket_tables (.refl t) unmapped
  refine ⟨⟨consistent, clear.heapPages, ?_, ?_⟩, ?_⟩
  · intro i iLow j jLow table
    rw [sameTable, sameTable]
    exact clear.unshared i iLow j jLow table
  · intro k inside
    rw [sameTable, sameTables]
    exact clear.clear k inside
  · intro devices devices' virt low isMapped
    rcases translate_ne_none low isMapped with ⟨present, table, isTable, _⟩
    have slot := mapped.slotKept (pdindex virt) present
    rw [← unmapped.sameDir, ← unmapped.sameMap] at slot
    rw [translate_of_table devices low present isTable, translate_of_table devices' low
      (by rw [slot.1]; exact present) (by rw [slot.2]; exact isTable), sameTables]

theorem unmap (clear : WindowClear bootPages alloc s) {size : ℕ} (short : size ≤ 4096 * windowPages)
    (consistent : Consistent bootPages t)
    (mapped : MapEffect alloc phys rsdtWindow 0 0 (Stride.passes 4096 size) s t) :
    ∃ u, pagingUnmap t rsdtWindow size = .ok (true, u) ∧ WindowClear bootPages alloc u ∧
      KeepsMapped s u := by
  have few := passes_le_windowPages short
  rw [windowPages] at short
  have unwrapped : size + 4096 ≤ 2 ^ 32 := by omega
  have unmaps : ∃ u, pagingUnmap t rsdtWindow size = .ok (true, u) := by
    apply pagingUnmap_complete unwrapped
    · intro k inside
      rw [consistent.configured.size]
      exact Nat.le_of_lt (window_slot (Nat.lt_of_lt_of_le inside few))
    · intro k inside present
      exact (consistent.table_iff present).mpr (window_slot (Nat.lt_of_lt_of_le inside few))
  rcases unmaps with ⟨u, unmaps⟩
  exact ⟨u, unmaps, clear.map_unmap mapped (pagingUnmap_effect unwrapped unmaps)
    (consistent.step (.unmap unmaps))⟩

theorem map (clear : WindowClear bootPages alloc s) {size : ℕ} (short : size ≤ 4096 * windowPages)
    (phys : ℕ) :
    ∃ t, pagingMap alloc s phys rsdtWindow size 0 = .ok (true, t) ∧ Consistent bootPages t ∧
      MapEffect alloc phys rsdtWindow 0 0 (Stride.passes 4096 size) s t := by
  have few := passes_le_windowPages short
  rw [windowPages] at short
  have unwrapped : size + 4096 ≤ 2 ^ 32 := by omega
  rcases pagingMap_complete unwrapped (clear.ready few) with ⟨t, maps⟩
  exact ⟨t, maps, clear.consistent.step (.map clear.heapPages maps), pagingMap_effect unwrapped maps⟩

/-- The page for the header is mapped. -/
theorem header (clear : WindowClear bootPages alloc s) (address : ℕ) :
    ∃ header, acpiMapHeader alloc s address = .ok header ∧ Consistent bootPages header ∧
      MapEffect alloc address rsdtWindow 0 0 (Stride.passes 4096 4096) s header := by
  rcases clear.map (show 4096 ≤ 4096 * windowPages by decide) address with
    ⟨header, maps, consistent, mapped⟩
  refine ⟨header, ?_, consistent, mapped⟩
  rw [acpiMapHeader, maps]

/-- A table that is not longer than the window is mapped, from a clear window. -/
theorem table (clear : WindowClear bootPages alloc s) {header : Paging} {address length : ℕ}
    (consistent : Consistent bootPages header)
    (mapped : MapEffect alloc address rsdtWindow 0 0 (Stride.passes 4096 4096) s header)
    (short : length ≤ 4096 * windowPages) :
    ∃ unmapped table, WindowClear bootPages alloc unmapped ∧ KeepsMapped s unmapped ∧
      acpiMapTable alloc header address length = .ok table ∧ Consistent bootPages table ∧
        MapEffect alloc address rsdtWindow 0 0 (Stride.passes 4096 length) unmapped table := by
  rcases clear.unmap (show 4096 ≤ 4096 * windowPages by decide) consistent mapped with
    ⟨unmapped, unmaps, unmappedClear, keeps⟩
  rcases unmappedClear.map short address with ⟨table, maps, tableConsistent, tableMapped⟩
  refine ⟨unmapped, table, unmappedClear, keeps, ?_, tableConsistent, tableMapped⟩
  rw [acpiMapTable, unmaps]
  simp only [maps]

/-- A table that is longer than the window stops the machine. -/
theorem table_long (clear : WindowClear bootPages alloc s) {header : Paging} {address length : ℕ}
    (consistent : Consistent bootPages header)
    (mapped : MapEffect alloc address rsdtWindow 0 0 (Stride.passes 4096 4096) s header)
    (long : 4096 * windowPages < length) :
    ∃ halt, acpiMapTable alloc header address length = .error halt := by
  cases outcome : acpiMapTable alloc header address length with
  | error halt => exact ⟨halt, rfl⟩
  | ok table =>
      rcases clear.unmap (show 4096 ≤ 4096 * windowPages by decide) consistent mapped with
        ⟨unmapped, unmaps, unmappedClear, _⟩
      rcases acpiMapTable_maps outcome with ⟨other, unmapsOther, maps⟩
      rw [unmaps] at unmapsOther
      cases unmapsOther
      exact absurd (unmappedClear.size_le maps) (Nat.not_le.mpr long)

end WindowClear

theorem translate_kernel {bootPages : ℕ} {s : Paging} (consistent : Consistent bootPages s)
    (devices : DeviceMap) {offset : ℕ} (inside : offset < 2 ^ 22) :
    translate s devices (0xC0000000 + offset) = some offset := by
  have slot : pdindex (0xC0000000 + offset) = 768 := by
    rw [pdindex]
    omega
  have word := (consistent.kernelSlots 768 (Nat.le_refl 768)).1
  rw [bootPageDirectory, if_pos rfl] at word
  rw [translate, slot, word, if_neg (Nat.lt_irrefl 768), if_neg (by decide), if_pos (by decide)]
  congr 1
  omega

end Osserver
