import Osserver.Paging.Effect

/-!
# Translation of user addresses

How `paging_get_physical` answers below the heap, in terms of the slot and the
entry of the address, and what it answers for the pages that a call of
`paging_map` has mapped.
-/

namespace Osserver

/-- The variables of `__32_paging_init` have the values that `kernel_premain` passes. -/
structure Paging.Configured (s : Paging) : Prop where
  size : s.pagingSize = 768
  start : s.higherPagesStart = 770

theorem index_of_page {virt other : ℕ} (samePage : virt / 4096 = other / 4096) :
    pdindex virt = pdindex other ∧ ptindex virt = ptindex other := by
  simp only [pdindex, ptindex]
  omega

theorem pdindex_low {virt : ℕ} (low : virt < 0xC0000000) : pdindex virt < 768 := by
  rw [pdindex]
  omega

theorem pdindex_heap {virt : ℕ} (inHeap : 0xC0800000 ≤ virt) : 770 ≤ pdindex virt := by
  rw [pdindex]
  omega

theorem page_of_index {virt other : ℕ} (sameSlot : pdindex virt = pdindex other)
    (sameIndex : ptindex virt = ptindex other) : virt / 4096 = other / 4096 := by
  simp only [pdindex, ptindex] at sameSlot sameIndex
  omega

namespace Paging

variable {s : Paging} {virt table : ℕ}

theorem translate_empty (low : pdindex virt < s.higherPagesStart)
    (empty : s.pagingDir (pdindex virt) = 0) : pagingGetPhysical s virt = .ok 0 := by
  have notHigher : ¬pdindex virt ≥ s.higherPagesStart := Nat.not_le.mpr low
  rw [pagingGetPhysical, if_neg notHigher, if_pos empty]

theorem translate_null (low : pdindex virt < s.higherPagesStart)
    (present : s.pagingDir (pdindex virt) ≠ 0)
    (noTable : s.pagingDirectoryMap (pdindex virt) = none) :
    pagingGetPhysical s virt = .error .nullPointer := by
  have notHigher : ¬pdindex virt ≥ s.higherPagesStart := Nat.not_le.mpr low
  rw [pagingGetPhysical, if_neg notHigher, if_neg present, noTable]

theorem translate_entry (low : pdindex virt < s.higherPagesStart)
    (present : s.pagingDir (pdindex virt) ≠ 0)
    (isTable : s.pagingDirectoryMap (pdindex virt) = some table) :
    pagingGetPhysical s virt =
      if s.tables table (ptindex virt) = 0 then .ok 0
      else .ok (frame (s.tables table (ptindex virt)) + virt % 4096) := by
  have notHigher : ¬pdindex virt ≥ s.higherPagesStart := Nat.not_le.mpr low
  rw [pagingGetPhysical, if_neg notHigher, if_neg present, isTable]

theorem translate_unused {alloc : ℕ → Option ℕ} (low : pdindex virt < s.higherPagesStart)
    (isTable : s.slotTable alloc (pdindex virt) = some table)
    (unused : s.pagingDir (pdindex virt) = 0 ∨ s.tables table (ptindex virt) = 0) :
    pagingGetPhysical s virt = .ok 0 := by
  by_cases empty : s.pagingDir (pdindex virt) = 0
  · exact translate_empty low empty
  · rw [slotTable, if_neg empty] at isTable
    rw [translate_entry low empty isTable, if_pos (unused.resolve_left empty)]

end Paging

theorem frame_pagingMapWord (phys off : ℕ) :
    frame (pagingMapWord phys 0 off) = frame ((phys + off) % 2 ^ 32) := by
  rw [pagingMapWord, Nat.or_zero, frame_or_small _ (by omega)]
  simp only [frame]
  omega

section Mapped

variable {alloc : ℕ → Option ℕ} {phys virt flags first last : ℕ} {s s' : Paging}

theorem MapEffect.slot_after (effect : MapEffect alloc phys virt flags first last s s') {slot : ℕ}
    (inUse : s.pagingDir slot ≠ 0 ∨ ∃ k, first ≤ k ∧ k < last ∧ pdindex (pageAt virt k) = slot) :
    s'.pagingDir slot ≠ 0 ∧ s'.pagingDirectoryMap slot = s.slotTable alloc slot := by
  by_cases present : s.pagingDir slot = 0
  · rcases inUse with isPresent | ⟨k, low, high, rfl⟩
    · exact absurd present isPresent
    · exact effect.slotTouched k low high
  · have kept := effect.slotKept slot present
    rw [kept.1, kept.2, Paging.slotTable, if_neg present]
    exact ⟨present, rfl⟩

/-- Every address of a mapped page is translated by the word written for the page. -/
theorem MapEffect.translates (effect : MapEffect alloc phys virt flags first last s s')
    {k address : ℕ} (fromFirst : first ≤ k) (belowLast : k < last)
    (onPage : address / 4096 = pageAt virt k / 4096)
    (low : pdindex address < s.higherPagesStart) :
    pagingGetPhysical s' address =
      .ok (frame (pagingMapWord phys flags (k * 4096)) + address % 4096) := by
  have same := index_of_page onPage
  rcases effect.written k fromFirst belowLast with ⟨table, isTable, _, written⟩
  have slot := effect.slot_after (Or.inr ⟨k, fromFirst, belowLast, rfl⟩)
  rw [isTable, ← same.1] at slot
  rw [← same.2] at written
  rw [← effect.sameStart] at low
  have nonzero := pagingMapWord_ne_zero phys flags (k * 4096)
  rw [Paging.translate_entry low slot.1 slot.2, written, if_neg nonzero]

end Mapped

end Osserver
