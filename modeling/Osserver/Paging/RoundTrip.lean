import Osserver.Paging.Frame
import Osserver.Paging.Safety
import Osserver.Paging.UnmapEffect

/-!
# Mapping a range and unmapping it again

The three functions of `paging.c` agree on the slot and the entry of an address:
what a call of `paging_map` has mapped is translated to the physical range, and
`paging_unmap` of the same range takes back these translations and no others.
The latter needs that no two slots share a table.
-/

namespace Osserver

/-- The bytes that a call for `size` bytes maps: at least a page, and whole pages. -/
def mappedSize (size : ℕ) : ℕ :=
  (max size 4096 + 4095) / 4096 * 4096

/-- Every slot that is in use when a call is over has a table of its own. -/
def Paging.Unshared (s : Paging) (alloc : ℕ → Option ℕ) (virt size : ℕ) : Prop :=
  ∀ slot other table, s.pagingDir slot ≠ 0 ∨ Touches virt size slot →
    s.pagingDir other ≠ 0 ∨ Touches virt size other →
      s.slotTable alloc slot = some table → s.slotTable alloc other = some table → slot = other

section

variable {alloc : ℕ → Option ℕ} {phys virt size flags : ℕ} {s s' : Paging}

/-- The byte at offset `o` lies on the page of pass `o / 4096`. -/
theorem page_of_offset {o : ℕ} (aligned : virt % 4096 = 0)
    (belowKernel : virt + max size 1 ≤ 0xC0000000) (inside : o < mappedSize size) :
    o / 4096 < Stride.passes 4096 size ∧
      (virt + o) / 4096 = pageAt virt (o / 4096) / 4096 ∧ pdindex (virt + o) < 768 := by
  simp only [mappedSize] at inside
  simp only [pageAt, pdindex, Stride.passes]
  omega

theorem offset_of_page {k address : ℕ} (aligned : virt % 4096 = 0)
    (belowKernel : virt + max size 1 ≤ 0xC0000000) (inside : k < Stride.passes 4096 size)
    (onPage : address / 4096 = pageAt virt k / 4096) :
    virt ≤ address ∧ address < virt + mappedSize size := by
  simp only [Stride.passes] at inside
  simp only [pageAt] at onPage
  simp only [mappedSize]
  omega

/-- The slots in use after a call are those in use before it and those it comes to. -/
theorem MapEffect.inUse (effect : MapEffect alloc phys virt flags 0 (Stride.passes 4096 size) s s')
    {slot : ℕ} (present : s'.pagingDir slot ≠ 0) :
    s.pagingDir slot ≠ 0 ∨ Touches virt size slot := by
  by_contra unused
  push Not at unused
  have untouched := effect.slotUntouched slot
    (fun k _ inside atSlot => unused.2 ⟨k, inside, atSlot⟩)
  rw [untouched.1] at present
  exact present unused.1

theorem MapEffect.slotTable_after
    (effect : MapEffect alloc phys virt flags 0 (Stride.passes 4096 size) s s') {slot : ℕ}
    (inUse : s.pagingDir slot ≠ 0 ∨ Touches virt size slot) :
    s'.pagingDirectoryMap slot = s.slotTable alloc slot :=
  (effect.slot_after (inUse.imp_right
    (fun ⟨k, inside, atSlot⟩ => ⟨k, Nat.zero_le k, inside, atSlot⟩))).2

/-- The word written for a page has the frame of the physical page, since the flags
leave the upper bits alone. -/
theorem frame_pagingMapWord_offset {o : ℕ} (physAligned : phys % 4096 = 0)
    (flagsSmall : flags < 4096) (inRange : phys + o < 2 ^ 32) :
    frame (pagingMapWord phys flags (o / 4096 * 4096)) + (virt + o) % 4096 =
      phys + (o / 4096 * 4096) + (virt + o) % 4096 := by
  have bits : flags ||| 1 < 2 ^ 12 := Nat.or_lt_two_pow (by omega) (by omega)
  rw [pagingMapWord, Nat.or_assoc, frame_or_small _ bits]
  simp only [frame]
  omega

/-- Before the call the pages of the range are not mapped, afterwards they are mapped to
the physical range. -/
theorem MapEffect.range_translates
    (effect : MapEffect alloc phys virt flags 0 (Stride.passes 4096 size) s s')
    (configured : s.Configured) (physWord : phys < 2 ^ 32) (physAligned : phys % 4096 = 0)
    (virtAligned : virt % 4096 = 0) (belowKernel : virt + max size 1 ≤ 0xC0000000)
    (physRange : phys + size ≤ 2 ^ 32) (flagsSmall : flags < 4096) {o : ℕ}
    (inside : o < mappedSize size) :
    pagingGetPhysical s (virt + o) = .ok 0 ∧ pagingGetPhysical s' (virt + o) = .ok (phys + o) := by
  rcases page_of_offset virtAligned belowKernel inside with ⟨pass, onPage, user⟩
  have low : pdindex (virt + o) < s.higherPagesStart := by
    rw [configured.start]
    omega
  have inRange : phys + o < 2 ^ 32 := by
    simp only [mappedSize] at inside
    omega
  constructor
  · rcases effect.written (o / 4096) (Nat.zero_le _) pass with ⟨table, isTable, free, _⟩
    have same := index_of_page onPage
    rw [← same.1] at isTable
    rw [← same.2] at free
    exact Paging.translate_unused low isTable (Or.inr free)
  · rw [effect.translates (Nat.zero_le _) pass onPage low,
      frame_pagingMapWord_offset physAligned flagsSmall inRange]
    congr 1
    omega

/-- Unmapping the range that a call has mapped leaves every other translation alone. -/
theorem UnmapEffect.others_kept {s'' : Paging}
    (mapped : MapEffect alloc phys virt flags 0 (Stride.passes 4096 size) s s')
    (unmapped : UnmapEffect virt 0 (Stride.passes 4096 size) s' s'')
    (unshared : s.Unshared alloc virt size) (virtAligned : virt % 4096 = 0)
    (belowKernel : virt + max size 1 ≤ 0xC0000000) {address : ℕ}
    (outside : ¬(virt ≤ address ∧ address < virt + mappedSize size)) :
    pagingGetPhysical s'' address = pagingGetPhysical s' address := by
  have entryKept : ∀ table, s'.pagingDir (pdindex address) ≠ 0 →
      s'.pagingDirectoryMap (pdindex address) = some table →
        s''.tables table (ptindex address) = s'.tables table (ptindex address) := by
    intro table present isTable
    apply unmapped.kept
    rintro k _ inside ⟨pagePresent, isPageTable, sameIndex⟩
    have inUse := mapped.inUse present
    have pageInUse := mapped.inUse pagePresent
    rw [mapped.slotTable_after inUse] at isTable
    rw [mapped.slotTable_after pageInUse] at isPageTable
    have sameSlot := unshared _ _ table pageInUse inUse isPageTable isTable
    have onPage := page_of_index sameSlot sameIndex
    exact outside (offset_of_page virtAligned belowKernel inside onPage.symm)
  simp only [pagingGetPhysical, unmapped.sameHigher, unmapped.sameStart, unmapped.sameDir,
    unmapped.sameMap]
  split_ifs with higher empty
  · rfl
  · rfl
  · split
    · rfl
    · rename_i table isTable
      rw [entryKept table empty isTable]

/-- `paging_map`, `paging_get_physical` and `paging_unmap` agree: what has been mapped is
translated, and unmapping the range takes back just that. -/
theorem pagingMap_pagingUnmap (configured : s.Configured)
    (hasTable : ∀ slot < 768, s.pagingDir slot ≠ 0 → s.pagingDirectoryMap slot ≠ none)
    (unshared : s.Unshared alloc virt size) (physWord : phys < 2 ^ 32)
    (physAligned : phys % 4096 = 0) (virtAligned : virt % 4096 = 0)
    (belowKernel : virt + max size 1 ≤ 0xC0000000) (physRange : phys + size ≤ 2 ^ 32)
    (flagsSmall : flags < 4096)
    (returns : pagingMap alloc s phys virt size flags = .ok (true, s')) :
    (∀ o < mappedSize size, pagingGetPhysical s (virt + o) = .ok 0 ∧
      pagingGetPhysical s' (virt + o) = .ok (phys + o)) ∧
    ∃ s'', pagingUnmap s' virt size = .ok (true, s'') ∧
      (∀ o < mappedSize size, pagingGetPhysical s'' (virt + o) = .ok 0) ∧
      ∀ address, ¬(virt ≤ address ∧ address < virt + mappedSize size) →
        pagingGetPhysical s'' address = pagingGetPhysical s' address := by
  have unwrapped : size + 4096 ≤ 2 ^ 32 := by omega
  have effect := pagingMap_effect unwrapped returns
  refine ⟨fun o inside => effect.range_translates configured physWord physAligned virtAligned
    belowKernel physRange flagsSmall inside, ?_⟩
  have tables : ∀ slot < 768, s'.pagingDir slot ≠ 0 → s'.pagingDirectoryMap slot ≠ none := by
    intro slot low present
    rcases effect.inUse present with before | ⟨k, inside, rfl⟩
    · rw [(effect.slotKept slot before).2]
      exact hasTable slot low before
    · rcases effect.written k (Nat.zero_le k) inside with ⟨table, isTable, _⟩
      rw [effect.slotTable_after (Or.inr ⟨k, inside, rfl⟩), isTable]
      simp
  have slotLow : ∀ k < Stride.passes 4096 size, pdindex (pageAt virt k) < 768 := by
    intro k inside
    simp only [Stride.passes] at inside
    simp only [pdindex, pageAt]
    omega
  have accepted : ∀ k < Stride.passes 4096 size, pdindex (pageAt virt k) ≤ s'.pagingSize := by
    intro k inside
    rw [effect.sameSize]
    exact effect.accepted k (Nat.zero_le k) inside
  rcases pagingUnmap_complete unwrapped accepted
    (fun k inside => tables _ (slotLow k inside)) with ⟨s'', unmaps⟩
  have unmapped := pagingUnmap_effect unwrapped unmaps
  refine ⟨s'', unmaps, ?_, fun address outside =>
    UnmapEffect.others_kept effect unmapped unshared virtAligned belowKernel outside⟩
  intro o inside
  rcases page_of_offset virtAligned belowKernel inside with ⟨pass, onPage, user⟩
  have low : pdindex (virt + o) < s'.higherPagesStart := by
    rw [effect.sameStart, configured.start]
    omega
  exact unmapped.translates (Nat.zero_le _) pass onPage low (tables _ user)

end

/-- The first page of slot 1, with one of the tables of the heap. -/
theorem pagingMap_pagingUnmap_first_page :
    ∃ s' s'', pagingMap heapPageOf (kernelPremainPaging 0x200000 0x100000 (fun _ => 0)
        (fun _ _ => 0)) 0x1000 0x400000 4096 0 = .ok (true, s') ∧
      pagingGetPhysical s' 0x400123 = .ok 0x1123 ∧
      pagingUnmap s' 0x400000 4096 = .ok (true, s'') ∧
      pagingGetPhysical s'' 0x400123 = .ok 0 := by
  rcases pagingMap_first_page (fun _ _ => 0) rfl with ⟨s', returns⟩
  have boot := @Consistent.init 0x200000 0x100000 (fun _ => 0) (fun _ _ => 0)
  have trip := pagingMap_pagingUnmap boot.configured
    (fun slot low present => (boot.table_iff present).mpr low)
    (fun slot other table _ _ isTable isOther =>
      heapPageOf_distinct (alloc_of_slotTable isTable) (alloc_of_slotTable isOther))
    (by omega) (by omega) (by omega) (by omega) (by omega) (by omega) returns
  rcases trip with ⟨translated, s'', unmaps, cleared, _⟩
  exact ⟨s', s'', returns, (translated 0x123 (by decide)).2, unmaps, cleared 0x123 (by decide)⟩

end Osserver
