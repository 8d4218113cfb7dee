import Osserver.Paging.Safety
import Osserver.Paging.UnmapEffect

/-!
# Windows that are mapped and unmapped again

A window is mapped, used and unmapped by a call with the same address and size. What is
done in between may open and close windows of its own; when it leaves the page tables as it
found them, so does the whole. `Restored` is this relation.

`ClearFrom` says that nothing is mapped from an address up to the kernel. It is what a
window needs in order to be mapped, and it goes through `Restored`.
-/

namespace Osserver

/-- Every entry is what it was before. Empty slots may have got their tables. -/
structure Restored (alloc : ℕ → Option ℕ) (s s' : Paging) : Prop where
  consistent : ∀ bootPages, Consistent bootPages s → Consistent bootPages s'
  sameTables : s'.tables = s.tables
  slotKept : ∀ slot, s.pagingDir slot ≠ 0 →
    s'.pagingDir slot = s.pagingDir slot ∧ s'.pagingDirectoryMap slot = s.pagingDirectoryMap slot
  slotTable : ∀ slot, s'.slotTable alloc slot = s.slotTable alloc slot

theorem slotKept_trans {s t u : Paging} {slot : ℕ} (present : s.pagingDir slot ≠ 0)
    (first : t.pagingDir slot = s.pagingDir slot ∧
      t.pagingDirectoryMap slot = s.pagingDirectoryMap slot)
    (second : t.pagingDir slot ≠ 0 → u.pagingDir slot = t.pagingDir slot ∧
      u.pagingDirectoryMap slot = t.pagingDirectoryMap slot) :
    u.pagingDir slot = s.pagingDir slot ∧
      u.pagingDirectoryMap slot = s.pagingDirectoryMap slot := by
  rw [← first.1] at present
  have kept := second present
  exact ⟨kept.1.trans first.1, kept.2.trans first.2⟩

namespace Restored

variable {alloc : ℕ → Option ℕ} {s t t' u : Paging}

theorem refl (s : Paging) : Restored alloc s s :=
  ⟨fun _ consistent => consistent, rfl, fun _ _ => ⟨rfl, rfl⟩, fun _ => rfl⟩

theorem trans (first : Restored alloc s t) (second : Restored alloc t u) :
    Restored alloc s u := by
  refine ⟨?_, second.sameTables.trans first.sameTables, ?_, ?_⟩
  · intro bootPages consistent
    exact second.consistent bootPages (first.consistent bootPages consistent)
  · intro slot present
    exact slotKept_trans present (first.slotKept slot present) (second.slotKept slot)
  · intro slot
    exact (second.slotTable slot).trans (first.slotTable slot)

end Restored

section Bracket

variable {bootPages : ℕ} {alloc : ℕ → Option ℕ} {s t t' u : Paging} {phys virt size passes : ℕ}

/-- The entries that unmapping clears are the ones that mapping has written. -/
theorem clears_iff_writes (mapped : MapEffect alloc phys virt 0 0 passes s t)
    (inside : Restored alloc t t') {k table index : ℕ} (before : k < passes) :
    t'.Clears virt k table index ↔ s.Writes alloc virt k table index := by
  have touched := mapped.slotTouched k (Nat.zero_le k) before
  have kept := inside.slotKept _ touched.1
  rw [← kept.1, ← kept.2] at touched
  simp only [Paging.Clears, Paging.Writes, touched.2, touched.1, ne_eq, not_false_eq_true, true_and]

theorem MapEffect.bracket_tables (mapped : MapEffect alloc phys virt 0 0 passes s t)
    (inside : Restored alloc t t') (unmapped : UnmapEffect virt 0 passes t' u) :
    u.tables = s.tables := by
  funext table index
  by_cases written : ∃ k < passes, s.Writes alloc virt k table index
  · rcases written with ⟨k, before, writes⟩
    rcases mapped.written k (Nat.zero_le k) before with ⟨other, isOther, free, _⟩
    have cleared := unmapped.cleared k (Nat.zero_le k) before table index
      ((clears_iff_writes mapped inside before).mpr writes)
    rcases writes with ⟨isTable, rfl⟩
    rw [isTable] at isOther
    cases isOther
    rw [cleared, free]
  · have notWritten : ∀ k < passes, ¬s.Writes alloc virt k table index :=
      fun k before writes => written ⟨k, before, writes⟩
    rw [unmapped.kept table index, inside.sameTables, mapped.kept table index]
    · intro k _ before
      exact notWritten k before
    · intro k _ before clears
      exact notWritten k before ((clears_iff_writes mapped inside before).mp clears)

/-- A call of `paging_map` that reaches up to the end of the address space does not succeed. -/
theorem pagingMap_unwrapped (consistent : Consistent bootPages s) (below : virt < 0xC0400000)
    (word : size < 2 ^ 32) (maps : pagingMap alloc s phys virt size 0 = .ok (true, t)) :
    size + 4096 ≤ 2 ^ 32 := by
  by_contra large
  exact pagingMap_kernel consistent (reachesKernel_of_large below word (by omega)) maps

/-- A window that is mapped, used for something that leaves the page tables as they are, and
unmapped leaves them as they are. -/
theorem Restored.bracket (heapPages : HeapPages alloc) (consistent : Consistent bootPages s)
    (below : virt < 0xC0400000) (word : size < 2 ^ 32)
    (maps : pagingMap alloc s phys virt size 0 = .ok (true, t)) (inside : Restored alloc t t')
    (unmaps : pagingUnmap t' virt size = .ok (true, u)) : Restored alloc s u := by
  have unwrapped := pagingMap_unwrapped consistent below word maps
  have mapped := pagingMap_effect unwrapped maps
  have unmapped := pagingUnmap_effect unwrapped unmaps
  refine ⟨?_, mapped.bracket_tables inside unmapped, ?_, ?_⟩
  · intro bootPages consistent
    exact (inside.consistent _ (consistent.step (.map heapPages maps))).step (.unmap unmaps)
  · intro slot present
    rw [unmapped.sameDir, unmapped.sameMap]
    exact slotKept_trans present (mapped.slotKept slot present) (inside.slotKept slot)
  · intro slot
    rw [unmapped.slotTable_eq, inside.slotTable, mapped.slotTable_eq]

end Bracket

/-- From an address up to the kernel no entry is in use, also in the tables that the allocator
has for empty slots; and no table belongs to two slots. -/
structure ClearFrom (alloc : ℕ → Option ℕ) (first : ℕ) (s : Paging) : Prop where
  unshared : ∀ i < 768, ∀ j < 768, ∀ table, s.slotTable alloc i = some table →
    s.slotTable alloc j = some table → i = j
  clear : ∀ virt, first ≤ virt → virt < 0xC0000000 → ∀ table,
    s.slotTable alloc (pdindex virt) = some table → s.tables table (ptindex virt) = 0

namespace ClearFrom

variable {bootPages : ℕ} {alloc : ℕ → Option ℕ} {s t : Paging}
  {phys virt flags first middle last : ℕ}

theorem mono (clear : ClearFrom alloc first s) (later : first ≤ last) : ClearFrom alloc last s :=
  ⟨clear.unshared, fun virt above => clear.clear virt (Nat.le_trans later above)⟩

theorem restored (clear : ClearFrom alloc first s) (restored : Restored alloc s t) :
    ClearFrom alloc first t := by
  refine ⟨?_, ?_⟩
  · intro i iLow j jLow table
    rw [restored.slotTable, restored.slotTable]
    exact clear.unshared i iLow j jLow table
  · intro virt above below table
    rw [restored.slotTable, restored.sameTables]
    exact clear.clear virt above below table

/-- Behind a range that is mapped it stays clear. -/
theorem map (clear : ClearFrom alloc first s) {low high : ℕ}
    (mapped : MapEffect alloc phys virt flags low high s t) (later : first ≤ last)
    (behind : virt + high * 4096 ≤ last) : ClearFrom alloc last t := by
  refine ⟨?_, ?_⟩
  · intro i iLow j jLow table
    rw [mapped.slotTable_eq, mapped.slotTable_eq]
    exact clear.unshared i iLow j jLow table
  · intro address above below table
    rw [mapped.slotTable_eq]
    intro isTable
    rw [mapped.kept table (ptindex address)]
    · exact clear.clear address (Nat.le_trans later above) below table isTable
    · rintro k _ before ⟨sameTable, sameIndex⟩
      have atPage : pageAt virt k = virt + k * 4096 := by
        rw [pageAt]
        omega
      have pageLow : pageAt virt k < 0xC0000000 := by
        rw [atPage]
        omega
      have sameSlot := clear.unshared _ (pdindex_low pageLow) _ (pdindex_low below) table sameTable
        isTable
      have samePage := page_of_index sameSlot sameIndex
      rw [atPage] at samePage
      omega

/-- A pass that comes to a clear page goes on, and one that comes to the kernel does not
return. -/
theorem body {off : ℕ} {result : Bool} (clear : ClearFrom alloc (virt + off) s)
    (consistent : Consistent bootPages s) (upTo : virt + off ≤ 0xC0000000)
    (returns : pagingMapBody alloc phys virt flags off s = .ok (result, t)) :
    result = true ∧ virt + off < 0xC0000000 := by
  have atPage : (virt + off) % 2 ^ 32 = virt + off := Nat.mod_eq_of_lt (by omega)
  have notBeyond : ¬pdindex (virt + off) > s.pagingSize := by
    rw [consistent.configured.size, pdindex]
    omega
  rw [pagingMapBody, atPage, if_neg notBeyond] at returns
  split at returns
  · cases returns
  · rename_i entered enters
    have slot := pagingMapTable_slot enters
    split at returns
    · cases returns
    · rename_i table isTable
      rw [slot.2.1] at isTable
      have low : virt + off < 0xC0000000 := by
        by_contra atKernel
        have kernelSlot : pdindex (virt + off) = 768 := by
          rw [pdindex]
          omega
        have kernel := consistent.kernel_null (Or.inl kernelSlot)
        rw [Paging.slotTable, if_neg kernel.1, kernel.2] at isTable
        cases isTable
      have zero := clear.clear _ (Nat.le_refl _) low table isTable
      rw [slot.2.2, zero, if_neg (not_not.mpr rfl)] at returns
      cases returns
      exact ⟨rfl, low⟩

/-- A call of `paging_map` for a range in which nothing is mapped, and behind which nothing
is mapped up to the kernel, does not return false. -/
theorem pagingMap_ne_false {size : ℕ} (clear : ClearFrom alloc virt s)
    (consistent : Consistent bootPages s) (upTo : virt ≤ 0xC0000000) (page : virt % 4096 = 0) :
    pagingMap alloc s phys virt size flags ≠ .ok (false, t) := by
  rw [pagingMap]
  apply @Stride.loop_ne_false _ _ _ _ _ _ _ _ _ _ _ (fun off s => off % 4096 = 0 ∧
    virt + off ≤ 0xC0000000 ∧ ClearFrom alloc (virt + off) s ∧ Consistent bootPages s)
  · rintro off s t result ⟨onPage, upTo, clear, consistent⟩ returns
    rcases clear.body consistent upTo returns with ⟨rfl, below⟩
    have next : (off + 4096) % 2 ^ 32 = off + 4096 := Nat.mod_eq_of_lt (by omega)
    have number : off = off / 4096 * 4096 := by omega
    have mapped : MapEffect alloc phys virt flags (off / 4096) (off / 4096 + 1) s t := by
      apply MapEffect.of_pass
      rw [← number]
      exact returns
    have nextPage : (off + 4096) % 4096 = 0 := by omega
    have nextUpTo : virt + (off + 4096) ≤ 0xC0000000 := by omega
    have later : virt + off ≤ virt + (off + 4096) :=
      Nat.add_le_add_left (Nat.le_add_right off 4096) virt
    have behind : virt + (off / 4096 + 1) * 4096 ≤ virt + (off + 4096) := by omega
    rw [next]
    exact ⟨rfl, nextPage, nextUpTo, clear.map mapped later behind, consistent.mapBody returns⟩
  · rw [Nat.add_zero]
    exact ⟨rfl, upTo, clear, consistent⟩

end ClearFrom

section Errors

variable {excluded : Halt → Prop} {alloc : ℕ → Option ℕ} {s : Paging}

open Outcome

theorem pagingGetPhysical_avoids (null : ¬excluded .nullPointer) (virt : ℕ) :
    Avoids excluded (pagingGetPhysical s virt) := by
  rw [pagingGetPhysical]
  split_ifs
  · exact avoids_ok _
  · exact avoids_ok _
  · split
    · exact avoids_error_iff.mpr null
    · split_ifs
      · exact avoids_ok _
      · exact avoids_ok _

theorem pagingMapTable_avoids (null : ¬excluded .nullPointer) (memory : ¬excluded (.kpanic "OOM"))
    (slot : ℕ) : Avoids excluded (pagingMapTable alloc s slot) := by
  rw [pagingMapTable]
  split_ifs
  · split
    · exact avoids_error_iff.mpr memory
    · split
      · rename_i fails
        exact (pagingGetPhysical_avoids null _).passed fails
      · exact avoids_ok _
  · exact avoids_ok _

theorem pagingMap_avoids (null : ¬excluded .nullPointer) (memory : ¬excluded (.kpanic "OOM"))
    (endless : ¬excluded .endlessLoop) (phys virt size flags : ℕ) :
    Avoids excluded (pagingMap alloc s phys virt size flags) := by
  apply Stride.loop_avoids endless
  intro off s
  rw [pagingMapBody]
  split_ifs
  · exact avoids_ok _
  · split
    · rename_i fails
      exact (pagingMapTable_avoids null memory _).passed fails
    · split
      · exact avoids_error_iff.mpr null
      · split_ifs
        · exact avoids_ok _
        · exact avoids_ok _

theorem pagingUnmap_avoids (null : ¬excluded .nullPointer) (endless : ¬excluded .endlessLoop)
    (virt size : ℕ) : Avoids excluded (pagingUnmap s virt size) := by
  apply Stride.loop_avoids endless
  intro off s
  rw [pagingUnmapBody]
  split_ifs
  · exact avoids_ok _
  · exact avoids_ok _
  · split
    · exact avoids_error_iff.mpr null
    · split_ifs
      · exact avoids_ok _
      · exact avoids_ok _

end Errors

end Osserver
