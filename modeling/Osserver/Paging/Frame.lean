import Osserver.Paging.Translation

/-!
# What mapping a range leaves alone

A call of `paging_map` may change translations outside its range in two ways: a
table it creates is a heap page with whatever words the page held, and an entry
it writes may be the entry of another page, when two slots share a table. It is
these two that `FrameSafe` rules out, and nothing else needs to be.
-/

namespace Osserver

/-- No byte of the range lies on the page of the address. -/
def Outside (virt size address : ℕ) : Prop :=
  ∀ byte, virt ≤ byte → byte < virt + size → byte / 4096 ≠ address / 4096

/-- The translations below the kernel and outside the range are the same in both states. -/
def FrameKept (s s' : Paging) (virt size : ℕ) : Prop :=
  ∀ address < 0xC0000000, Outside virt size address →
    pagingGetPhysical s' address = pagingGetPhysical s address

/-- The call comes to a page below the slot. -/
def Touches (virt size slot : ℕ) : Prop :=
  ∃ k < Stride.passes 4096 size, pdindex (pageAt virt k) = slot

/-- A table that the call creates is zero outside the range, and no entry that it
writes belongs to a page outside the range through a shared table. -/
structure FrameSafe (alloc : ℕ → Option ℕ) (s : Paging) (virt size : ℕ) : Prop where
  fresh : ∀ address < 0xC0000000, Outside virt size address →
    s.pagingDir (pdindex address) = 0 → Touches virt size (pdindex address) →
      ∀ table, alloc (pdindex address) = some table → s.tables table (ptindex address) = 0
  unshared : ∀ address < 0xC0000000, Outside virt size address →
    s.pagingDir (pdindex address) ≠ 0 ∨ Touches virt size (pdindex address) →
      ∀ table, s.slotTable alloc (pdindex address) = some table →
        ∀ k < Stride.passes 4096 size, ¬s.Writes alloc virt k table (ptindex address)

section

variable {alloc : ℕ → Option ℕ} {phys virt size flags : ℕ} {s s' : Paging}

theorem slot_lt_of_low {address : ℕ} (low : address < 0xC0000000) (configured : s.Configured) :
    pdindex address < s.higherPagesStart := by
  rw [configured.start, pdindex]
  omega

theorem FrameSafe.kept (configured : s.Configured) (safe : FrameSafe alloc s virt size)
    (effect : MapEffect alloc phys virt flags 0 (Stride.passes 4096 size) s s') :
    FrameKept s s' virt size := by
  intro address low outside
  have slotLow := slot_lt_of_low low configured
  have slotLow' : pdindex address < s'.higherPagesStart := by
    rw [effect.sameStart]
    exact slotLow
  by_cases inUse : s.pagingDir (pdindex address) ≠ 0 ∨ Touches virt size (pdindex address)
  · have slot := effect.slot_after (inUse.imp_right
      (fun ⟨k, inside, atSlot⟩ => ⟨k, Nat.zero_le k, inside, atSlot⟩))
    cases isTable : s.slotTable alloc (pdindex address) with
    | none =>
        rw [isTable] at slot
        rw [Paging.translate_null slotLow' slot.1 slot.2]
        rcases inUse with present | ⟨k, inside, atSlot⟩
        · rw [Paging.slotTable, if_neg present] at isTable
          rw [Paging.translate_null slotLow present isTable]
        · rcases effect.written k (Nat.zero_le k) inside with ⟨table, hasTable, _⟩
          rw [atSlot, isTable] at hasTable
          cases hasTable
    | some table =>
        rw [isTable] at slot
        have sameEntry : s'.tables table (ptindex address) = s.tables table (ptindex address) := by
          apply effect.kept
          intro k _ inside
          exact safe.unshared address low outside inUse table isTable k inside
        rw [Paging.translate_entry slotLow' slot.1 slot.2, sameEntry]
        by_cases empty : s.pagingDir (pdindex address) = 0
        · have touched := inUse.resolve_left (not_not.mpr empty)
          rw [Paging.slotTable, if_pos empty] at isTable
          have zero := safe.fresh address low outside empty touched table isTable
          rw [Paging.translate_empty slotLow empty, if_pos zero]
        · rw [Paging.slotTable, if_neg empty] at isTable
          rw [Paging.translate_entry slotLow empty isTable]
  · push Not at inUse
    have untouched := effect.slotUntouched (pdindex address)
      (fun k _ inside atSlot => inUse.2 ⟨k, inside, atSlot⟩)
    rw [Paging.translate_empty slotLow inUse.1, Paging.translate_empty slotLow']
    rw [untouched.1]
    exact inUse.1

/-- Where translations are kept, an address outside the range with an entry that was
not used before has an entry that is not used afterwards: byte 1 of its page would
be translated to an address that is not 0. -/
theorem FrameKept.unused (configured : s.Configured) (kept : FrameKept s s' virt size)
    (effect : MapEffect alloc phys virt flags 0 (Stride.passes 4096 size) s s')
    {address table : ℕ} (low : address < 0xC0000000) (outside : Outside virt size address)
    (inUse : s.pagingDir (pdindex address) ≠ 0 ∨ Touches virt size (pdindex address))
    (isTable : s.slotTable alloc (pdindex address) = some table)
    (unused : s.pagingDir (pdindex address) = 0 ∨ s.tables table (ptindex address) = 0) :
    s'.tables table (ptindex address) = 0 := by
  have samePage : (address / 4096 * 4096 + 1) / 4096 = address / 4096 := by omega
  have sameIndex := index_of_page samePage
  have byteLow : address / 4096 * 4096 + 1 < 0xC0000000 := by omega
  have byteOutside : Outside virt size (address / 4096 * 4096 + 1) := by
    intro byte above below
    rw [samePage]
    exact outside byte above below
  have same := kept _ byteLow byteOutside
  have slot := effect.slot_after (inUse.imp_right
    (fun ⟨k, inside, atSlot⟩ => ⟨k, Nat.zero_le k, inside, atSlot⟩))
  rw [isTable] at slot
  have slotLow := slot_lt_of_low byteLow configured
  have slotLow' : pdindex (address / 4096 * 4096 + 1) < s'.higherPagesStart := by
    rw [effect.sameStart]
    exact slotLow
  rw [← sameIndex.1] at slot isTable unused
  rw [← sameIndex.2] at unused ⊢
  rw [Paging.translate_unused slotLow isTable unused,
    Paging.translate_entry slotLow' slot.1 slot.2] at same
  by_contra used
  rw [if_neg used] at same
  simp only [Except.ok.injEq] at same
  omega

theorem FrameKept.safe (configured : s.Configured) (kept : FrameKept s s' virt size)
    (effect : MapEffect alloc phys virt flags 0 (Stride.passes 4096 size) s s') :
    FrameSafe alloc s virt size := by
  have unshared : ∀ address < 0xC0000000, Outside virt size address →
      s.pagingDir (pdindex address) ≠ 0 ∨ Touches virt size (pdindex address) →
        ∀ table, s.slotTable alloc (pdindex address) = some table →
          ∀ k < Stride.passes 4096 size, ¬s.Writes alloc virt k table (ptindex address) := by
    intro address low outside inUse table isTable k inside writes
    rcases effect.written k (Nat.zero_le k) inside with ⟨written, isWritten, free, occupied⟩
    rw [writes.1] at isWritten
    cases isWritten
    rw [writes.2] at free occupied
    have stillUnused := kept.unused configured effect low outside inUse isTable (Or.inr free)
    rw [occupied] at stillUnused
    exact pagingMapWord_ne_zero _ _ _ stillUnused
  refine ⟨?_, unshared⟩
  intro address low outside empty touched table allocated
  have isTable : s.slotTable alloc (pdindex address) = some table := by
    rw [Paging.slotTable, if_pos empty]
    exact allocated
  have stillUnused :=
    kept.unused configured effect low outside (Or.inr touched) isTable (Or.inl empty)
  rw [← effect.kept table (ptindex address) (fun k _ inside =>
    unshared address low outside (Or.inr touched) table isTable k inside)]
  exact stillUnused

end

/-- A call that returns true keeps every translation below the kernel and outside
its range exactly when it is `FrameSafe`. -/
theorem pagingMap_frame_iff {alloc : ℕ → Option ℕ} {phys virt size flags : ℕ} {s s' : Paging}
    (configured : s.Configured) (belowKernel : virt + size ≤ 0xC0000000)
    (returns : pagingMap alloc s phys virt size flags = .ok (true, s')) :
    FrameKept s s' virt size ↔ FrameSafe alloc s virt size := by
  have unwrapped : size + 4096 ≤ 2 ^ 32 := by omega
  have effect := pagingMap_effect unwrapped returns
  exact ⟨fun kept => kept.safe configured effect, fun safe => safe.kept configured effect⟩

/-- When no two slots share a table, a call is frame safe as soon as it maps at least
one byte and the tables it creates are zero outside the range. -/
theorem FrameSafe.of_zeroed {alloc : ℕ → Option ℕ} {s : Paging} {virt size : ℕ}
    (positive : 1 ≤ size) (belowKernel : virt + size ≤ 0xC0000000)
    (distinct : ∀ slot other table, s.slotTable alloc slot = some table →
      s.slotTable alloc other = some table → slot = other)
    (zeroed : ∀ address < 0xC0000000, Outside virt size address →
      s.pagingDir (pdindex address) = 0 → Touches virt size (pdindex address) →
        ∀ table, alloc (pdindex address) = some table → s.tables table (ptindex address) = 0) :
    FrameSafe alloc s virt size := by
  refine ⟨zeroed, ?_⟩
  intro address _ outside _ table isTable k inside writes
  have sameSlot := distinct _ _ table writes.1 isTable
  have onPage := page_of_index sameSlot writes.2
  have offset : k * 4096 < size := by
    rcases Nat.eq_zero_or_pos k with atStart | later
    · omega
    · exact (Stride.lt_passes_iff (by omega) later).mp inside
  apply outside (virt + k * 4096) (by omega) (by omega)
  rw [← onPage, pageAt]
  omega

theorem MapReady.of_single {alloc : ℕ → Option ℕ} {virt table : ℕ} {s : Paging}
    (accepted : pdindex (pageAt virt 0) ≤ s.pagingSize)
    (isTable : s.slotTable alloc (pdindex (pageAt virt 0)) = some table)
    (free : s.tables table (ptindex (pageAt virt 0)) = 0)
    (heap : ∀ slot table, alloc slot = some table → s.higherPagesStart ≤ pdindex table) :
    MapReady alloc virt 1 s := by
  have onlyFirst : ∀ k < 1, k = 0 := fun k inside => by omega
  refine ⟨?_, ?_, ?_, heap⟩
  · intro k inside
    rw [onlyFirst k inside]
    exact accepted
  · intro k inside
    rw [onlyFirst k inside]
    exact ⟨table, isTable, free⟩
  · intro j k before inside
    omega

theorem slotTable_kernelPremainPaging (bootPages addr : ℕ) (behind : ℕ → ℕ)
    (memory : ℕ → ℕ → ℕ) (alloc : ℕ → Option ℕ) {slot : ℕ} (low : slot < 768) :
    (kernelPremainPaging bootPages addr behind memory).slotTable alloc slot = alloc slot := by
  have empty : bootPageDirectory bootPages slot = 0 := by
    simp only [bootPageDirectory]
    split_ifs <;> omega
  simp [Paging.slotTable, kernelPremainPaging, pagingInit, empty]

theorem alloc_of_slotTable {bootPages addr : ℕ} {behind : ℕ → ℕ} {memory : ℕ → ℕ → ℕ}
    {alloc : ℕ → Option ℕ} {slot table : ℕ}
    (isTable : (kernelPremainPaging bootPages addr behind memory).slotTable alloc slot =
      some table) : alloc slot = some table := by
  rw [Paging.slotTable] at isTable
  split_ifs at isTable with empty
  · exact isTable
  · cases isTable

/-- An allocator that answers for each slot with a heap page of its own. -/
def heapPageOf (slot : ℕ) : Option ℕ :=
  some (0xC0800000 + slot * 4096)

theorem heapPageOf_high {slot table : ℕ} (allocated : heapPageOf slot = some table) :
    770 ≤ pdindex table := by
  cases allocated
  exact pdindex_heap (Nat.le_add_right _ _)

theorem heapPageOf_distinct {slot other table : ℕ} (allocated : heapPageOf slot = some table)
    (allocatedOther : heapPageOf other = some table) : slot = other := by
  rw [← allocatedOther] at allocated
  simpa [heapPageOf] using allocated

theorem pagingMap_first_page (memory : ℕ → ℕ → ℕ) (free : memory 0xC0801000 0 = 0) :
    ∃ s', pagingMap heapPageOf (kernelPremainPaging 0x200000 0x100000 (fun _ => 0) memory)
      0x1000 0x400000 4096 0 = .ok (true, s') := by
  have isTable := slotTable_kernelPremainPaging 0x200000 0x100000 (fun _ => 0) memory heapPageOf
    (show 1 < 768 by omega)
  have accepted : 1 ≤ 768 := by omega
  apply pagingMap_complete (by omega)
  exact MapReady.of_single accepted isTable free (fun _ _ => heapPageOf_high)

/-- The first page of slot 1 is mapped with a table page that is zero. -/
theorem pagingMap_frame_iff_zero_table :
    ∃ s', pagingMap heapPageOf (kernelPremainPaging 0x200000 0x100000 (fun _ => 0) (fun _ _ => 0))
        0x1000 0x400000 4096 0 = .ok (true, s') ∧
      FrameKept (kernelPremainPaging 0x200000 0x100000 (fun _ => 0) (fun _ _ => 0)) s'
        0x400000 4096 := by
  rcases pagingMap_first_page (fun _ _ => 0) rfl with ⟨s', returns⟩
  refine ⟨s', returns, (pagingMap_frame_iff ⟨rfl, rfl⟩ (by omega) returns).mpr ?_⟩
  apply FrameSafe.of_zeroed (by omega) (by omega)
  · intro slot other table isTable isOther
    exact heapPageOf_distinct (alloc_of_slotTable isTable) (alloc_of_slotTable isOther)
  · intro address _ _ _ _ table _
    rfl

/-- The first page of slot 1 is mapped with a table page that still holds a word from
an earlier use: another page of the slot appears. -/
theorem pagingMap_stale_table :
    ∃ s', pagingMap heapPageOf (kernelPremainPaging 0x200000 0x100000 (fun _ => 0)
        (fun _ index => if index = 5 then 0x2003 else 0)) 0x1000 0x400000 4096 0 =
          .ok (true, s') ∧
      Outside 0x400000 4096 0x405000 ∧
      pagingGetPhysical (kernelPremainPaging 0x200000 0x100000 (fun _ => 0)
        (fun _ index => if index = 5 then 0x2003 else 0)) 0x405000 = .ok 0 ∧
      pagingGetPhysical s' 0x405000 = .ok 0x2000 := by
  rcases pagingMap_first_page (fun _ index => if index = 5 then 0x2003 else 0) rfl with
    ⟨s', returns⟩
  have effect := pagingMap_effect (by omega) returns
  have slot := effect.slotTouched 0 (Nat.le_refl 0) (Stride.passes_pos 4096 4096)
  have atSlot : pdindex (pageAt 0x400000 0) = pdindex 0x405000 := by decide
  rw [atSlot, slotTable_kernelPremainPaging _ _ _ _ _ (by decide)] at slot
  have stale : s'.tables 0xC0801000 5 = 0x2003 := by
    apply effect.kept
    intro k _ _ writes
    have index := writes.2
    rw [ptindex, pageAt] at index
    have only : k < 1 := by assumption
    omega
  refine ⟨s', returns, ?_, rfl, ?_⟩
  · intro byte above below
    omega
  · have low : pdindex 0x405000 < s'.higherPagesStart := by
      rw [effect.sameStart]
      decide
    have isTable : s'.pagingDirectoryMap (pdindex 0x405000) = some 0xC0801000 := slot.2
    have index : ptindex 0x405000 = 5 := by decide
    rw [Paging.translate_entry low slot.1 isTable, index, stale]
    rfl

end Osserver