import Osserver.Mem.Above
import Osserver.Paging.Translation

/-!
# The bound of the page directory

The kernel's own slots begin at 768, but `paging_map` and `paging_unmap` accept
slot 768 and `paging_get_physical` accepts 768 and 769 as slots with a table.
Both are 4 MiB pages that `bootstrap.asm` has entered and have no table, in any
state: `Consistent` is the invariant that gives every other accepted slot its
table. So a call goes through a null pointer exactly when it comes to a page of
one of these slots.
-/

namespace Osserver

open Transition

/-- A call into paging. With `map` goes what the allocator answers during the call;
`heap` is any change of heap pages that are not page tables. -/
inductive PagingCall where
  | map (alloc : ℕ → Option ℕ) (phys virt size flags : ℕ)
  | unmap (virt size : ℕ)
  | heap (memory : ℕ → ℕ → ℕ)

/-- The allocator answers with pages of the heap, which begins at 0xC0800000. -/
def HeapPages (alloc : ℕ → Option ℕ) : Prop :=
  ∀ slot table, alloc slot = some table → 0xC0800000 ≤ table

/-- The answers of the page allocator, whatever calls it has had, are heap pages. -/
theorem HeapPages.of_kmem {alloc : ℕ → Option ℕ}
    (answers : ∀ slot table, alloc slot = some table → ∃ run after,
      (kmemSystem 0xC0800000).Reachable run ∧
        kmemLiballocAlloc run.kmem 1 = .ok (some table, after)) : HeapPages alloc := by
  intro slot table allocated
  rcases answers slot table allocated with ⟨run, after, reached, returns⟩
  exact kmemLiballocAlloc_above reached (Nat.le_refl 1) returns

theorem HeapPages.slot_high {alloc : ℕ → Option ℕ} (heapPages : HeapPages alloc) {slot table : ℕ}
    (allocated : alloc slot = some table) : 770 ≤ pdindex table :=
  pdindex_heap (heapPages slot table allocated)

inductive PagingStep : Paging → PagingCall → Paging → Prop where
  | map {s s' : Paging} {alloc : ℕ → Option ℕ} {phys virt size flags : ℕ} {result : Bool}
      (heapPages : HeapPages alloc)
      (returns : pagingMap alloc s phys virt size flags = .ok (result, s')) :
      PagingStep s (.map alloc phys virt size flags) s'
  | unmap {s s' : Paging} {virt size : ℕ} {result : Bool}
      (returns : pagingUnmap s virt size = .ok (result, s')) :
      PagingStep s (.unmap virt size) s'
  | heap {s : Paging} {memory : ℕ → ℕ → ℕ}
      (tablesKept : ∀ slot table, s.pagingDirectoryMap slot = some table →
        memory table = s.tables table) :
      PagingStep s (.heap memory) { s with tables := memory }

/-- Paging from `__32_paging_init` on, with the page directory of `bootstrap.asm`. -/
def pagingSystem (bootPages : ℕ) : System Paging PagingCall where
  Init s := ∃ addr behind memory, s = kernelPremainPaging bootPages addr behind memory
  Step := PagingStep

/-- The slots below the kernel have an entry exactly when they have a table; the
slots of the kernel are as `bootstrap.asm` left them and have none. -/
structure Consistent (bootPages : ℕ) (s : Paging) : Prop where
  configured : s.Configured
  userSlots : ∀ slot < 768, s.pagingDir slot = 0 ↔ s.pagingDirectoryMap slot = none
  kernelSlots : ∀ slot, 768 ≤ slot →
    s.pagingDir slot = bootPageDirectory bootPages slot ∧ s.pagingDirectoryMap slot = none

theorem bootPageDirectory_kernel (bootPages : ℕ) :
    bootPageDirectory bootPages 768 ≠ 0 ∧ bootPageDirectory bootPages 769 ≠ 0 := by
  simp [bootPageDirectory]

namespace Consistent

variable {bootPages : ℕ} {s s' : Paging}

theorem init {addr : ℕ} {behind : ℕ → ℕ} {memory : ℕ → ℕ → ℕ} :
    Consistent bootPages (kernelPremainPaging bootPages addr behind memory) := by
  refine ⟨⟨rfl, rfl⟩, ?_, fun slot _ => ⟨rfl, rfl⟩⟩
  intro slot low
  have empty : bootPageDirectory bootPages slot = 0 := by
    simp only [bootPageDirectory]
    split_ifs <;> omega
  simp [kernelPremainPaging, pagingInit, empty]

theorem tables (consistent : Consistent bootPages s) (memory : ℕ → ℕ → ℕ) :
    Consistent bootPages { s with tables := memory } :=
  ⟨⟨consistent.configured.size, consistent.configured.start⟩, consistent.userSlots,
    consistent.kernelSlots⟩

theorem setEntry (consistent : Consistent bootPages s) (table index word : ℕ) :
    Consistent bootPages (s.setEntry table index word) :=
  consistent.tables _

theorem setSlot (consistent : Consistent bootPages s) {slot word table : ℕ} (low : slot < 768)
    (nonzero : word ≠ 0) : Consistent bootPages (s.setSlot slot word table) := by
  refine ⟨⟨consistent.configured.size, consistent.configured.start⟩, ?_, ?_⟩
  · intro other otherLow
    by_cases same : other = slot
    · subst same
      simp [nonzero]
    · simpa [same] using consistent.userSlots other otherLow
  · intro other high
    have different : other ≠ slot := by omega
    simpa [different] using consistent.kernelSlots other high

theorem low_of_empty (consistent : Consistent bootPages s) {slot : ℕ} (accepted : slot ≤ 768)
    (empty : s.pagingDir slot = 0) : slot < 768 := by
  rcases Nat.lt_or_eq_of_le accepted with low | atKernel
  · exact low
  · subst atKernel
    have kernel := consistent.kernelSlots 768 (Nat.le_refl 768)
    rw [kernel.1] at empty
    exact absurd empty (bootPageDirectory_kernel bootPages).1

theorem mapTable (consistent : Consistent bootPages s) {alloc : ℕ → Option ℕ} {slot : ℕ}
    (accepted : slot ≤ 768) (returns : pagingMapTable alloc s slot = .ok s') :
    Consistent bootPages s' := by
  rcases pagingMapTable_cases returns with ⟨_, rfl⟩ | ⟨empty, table, phys, _, _, rfl⟩
  · exact consistent
  · apply consistent.setSlot (consistent.low_of_empty accepted empty)
    exact or_ne_zero phys (by omega)

theorem mapBody (consistent : Consistent bootPages s) {alloc : ℕ → Option ℕ}
    {phys virt flags off : ℕ} {result : Bool}
    (returns : pagingMapBody alloc phys virt flags off s = .ok (result, s')) :
    Consistent bootPages s' := by
  rw [pagingMapBody] at returns
  split_ifs at returns with beyond
  · cases returns
    exact consistent
  · split at returns
    · cases returns
    · rename_i middle entered
      have accepted : pdindex ((virt + off) % 2 ^ 32) ≤ 768 := by
        rw [← consistent.configured.size]
        exact Nat.le_of_not_gt beyond
      have middleConsistent := consistent.mapTable accepted entered
      split at returns
      · cases returns
      · split_ifs at returns with occupied
        · cases returns
          exact middleConsistent
        · cases returns
          exact middleConsistent.setEntry _ _ _

theorem unmapBody (consistent : Consistent bootPages s) {virt off : ℕ} {result : Bool}
    (returns : pagingUnmapBody virt off s = .ok (result, s')) : Consistent bootPages s' := by
  rw [pagingUnmapBody] at returns
  split_ifs at returns with beyond empty
  · cases returns
    exact consistent
  · cases returns
    exact consistent
  · split at returns
    · cases returns
    · split_ifs at returns with used
      · cases returns
        exact consistent.setEntry _ _ _
      · cases returns
        exact consistent

theorem step {call : PagingCall} (consistent : Consistent bootPages s)
    (step : PagingStep s call s') : Consistent bootPages s' := by
  cases step with
  | map heapPages returns =>
      exact Stride.loop_invariant
        (fun _ _ _ _ consistent returns => consistent.mapBody returns) consistent returns
  | unmap returns =>
      exact Stride.loop_invariant
        (fun _ _ _ _ consistent returns => consistent.unmapBody returns) consistent returns
  | heap tablesKept =>
      exact consistent.tables _

theorem of_reachable (reached : (pagingSystem bootPages).Reachable s) :
    Consistent bootPages s := by
  apply System.Reachable.invariant _ _ reached
  · rintro s ⟨addr, behind, memory, rfl⟩
    exact init
  · intro s call s' consistent step
    exact consistent.step step

end Consistent

/-- Some page of the range lies in slot 768, and none before it in a higher slot. -/
def ReachesKernel (virt size : ℕ) : Prop :=
  virt < 0xC0400000 ∧ 0xC0000000 ≤ virt + (Stride.passes 4096 size - 1) * 4096

section Pages

variable {virt size : ℕ}

theorem ReachesKernel.first (reaches : ReachesKernel virt size) :
    ∃ stop < Stride.passes 4096 size, stop * 4096 < 2 ^ 32 ∧ pdindex (pageAt virt stop) = 768 ∧
      ∀ k < stop, pdindex (pageAt virt k) < 768 := by
  rcases reaches with ⟨low, high⟩
  have positive := Stride.passes_pos 4096 size
  refine ⟨(0xC0000000 - virt + 4095) / 4096, ?_, ?_, ?_, ?_⟩
  · omega
  · omega
  · rw [pdindex, pageAt]
    omega
  · intro k below
    rw [pdindex, pageAt]
    omega

theorem reachesKernel_of_pass {k : ℕ} (inside : k < Stride.passes 4096 size)
    (notAbove : virt < 0xC0400000) (atKernel : pdindex (pageAt virt k) = 768) :
    ReachesKernel virt size := by
  refine ⟨notAbove, ?_⟩
  rw [pdindex, pageAt] at atKernel
  omega

theorem reachesKernel_of_large (notAbove : virt < 0xC0400000) (word : size < 2 ^ 32)
    (large : 2 ^ 32 < size + 4096) : ReachesKernel virt size := by
  refine ⟨notAbove, ?_⟩
  simp only [Stride.passes]
  omega

end Pages

namespace Consistent

variable {bootPages : ℕ} {s s' : Paging}

theorem table_iff (consistent : Consistent bootPages s) {slot : ℕ}
    (present : s.pagingDir slot ≠ 0) : s.pagingDirectoryMap slot ≠ none ↔ slot < 768 := by
  rcases Nat.lt_or_ge slot 768 with low | high
  · have user := consistent.userSlots slot low
    simp only [low, iff_true]
    exact fun noTable => present (user.mpr noTable)
  · have kernel := consistent.kernelSlots slot high
    simp [kernel.2, Nat.not_lt.mpr high]

theorem kernel_null (consistent : Consistent bootPages s) {slot : ℕ}
    (atKernel : slot = 768 ∨ slot = 769) :
    s.pagingDir slot ≠ 0 ∧ s.pagingDirectoryMap slot = none := by
  have boot := bootPageDirectory_kernel bootPages
  rcases atKernel with rfl | rfl
  · have kernel := consistent.kernelSlots 768 (by omega)
    rw [kernel.1]
    exact ⟨boot.1, kernel.2⟩
  · have kernel := consistent.kernelSlots 769 (by omega)
    rw [kernel.1]
    exact ⟨boot.2, kernel.2⟩

theorem getPhysical_iff (consistent : Consistent bootPages s) (virt : ℕ) :
    pagingGetPhysical s virt ≠ .error .nullPointer ↔
      virt < 0xC0000000 ∨ 0xC0800000 ≤ virt := by
  have start := consistent.configured.start
  have slots : (virt < 0xC0000000 ∨ 0xC0800000 ≤ virt) ↔
      ¬(pdindex virt = 768 ∨ pdindex virt = 769) := by
    rw [pdindex]
    omega
  rw [slots]
  by_cases atKernel : pdindex virt = 768 ∨ pdindex virt = 769
  · have low : pdindex virt < s.higherPagesStart := by omega
    have kernel := consistent.kernel_null atKernel
    rw [Paging.translate_null low kernel.1 kernel.2]
    simp [atKernel]
  · simp only [atKernel, not_false_eq_true, iff_true]
    rcases Nat.lt_or_ge (pdindex virt) s.higherPagesStart with low | high
    · by_cases empty : s.pagingDir (pdindex virt) = 0
      · rw [Paging.translate_empty low empty]
        simp
      · have hasTable := (consistent.table_iff empty).mpr (by omega)
        rcases Option.ne_none_iff_exists'.mp hasTable with ⟨table, isTable⟩
        rw [Paging.translate_entry low empty isTable]
        split_ifs <;> simp
    · simp only [pagingGetPhysical, ge_iff_le, if_pos high]
      simp

theorem mapTable_error (consistent : Consistent bootPages s) {alloc : ℕ → Option ℕ} {slot : ℕ}
    (heapPages : HeapPages alloc) : pagingMapTable alloc s slot ≠ .error .nullPointer := by
  intro fails
  simp only [pagingMapTable] at fails
  split_ifs at fails with empty
  · split at fails
    · cases fails
    · rename_i table allocated
      have inHeap := heapPages slot table allocated
      have translated := (consistent.getPhysical_iff table).mpr (Or.inr inHeap)
      split at fails
      · rename_i halt failed
        cases fails
        exact translated failed
      · cases fails

theorem mapBody_error (consistent : Consistent bootPages s) {alloc : ℕ → Option ℕ}
    {phys virt flags k : ℕ} (heapPages : HeapPages alloc)
    (fails : pagingMapBody alloc phys virt flags (k * 4096) s = .error .nullPointer) :
    pdindex (pageAt virt k) = 768 := by
  rw [pagingMapBody, pageAt_eq] at fails
  split_ifs at fails with beyond
  have accepted : pdindex (pageAt virt k) ≤ 768 := by
    rw [← consistent.configured.size]
    exact Nat.le_of_not_gt beyond
  split at fails
  · rename_i halt failed
    cases fails
    exact absurd failed (consistent.mapTable_error heapPages)
  · rename_i middle entered
    split at fails
    · rename_i noTable
      have slot := pagingMapTable_slot entered
      have low := (consistent.mapTable accepted entered).table_iff slot.1
      have notLow : ¬pdindex (pageAt virt k) < 768 := fun isLow => low.mpr isLow noTable
      omega
    · split_ifs at fails

theorem mapBody_kernel (consistent : Consistent bootPages s) {alloc : ℕ → Option ℕ}
    {phys virt flags k : ℕ} (atKernel : pdindex (pageAt virt k) = 768) :
    pagingMapBody alloc phys virt flags (k * 4096) s ≠ .ok (true, s') := by
  intro goesOn
  have kernel := consistent.kernel_null (Or.inl atKernel)
  rcases (MapEffect.of_pass goesOn).written k (Nat.le_refl k) (Nat.lt_succ_self k) with
    ⟨table, isTable, _⟩
  rw [Paging.slotTable, if_neg kernel.1, kernel.2] at isTable
  cases isTable

theorem unmapBody_low (consistent : Consistent bootPages s) {virt k : ℕ}
    (low : pdindex (pageAt virt k) < 768) :
    ∃ s', pagingUnmapBody virt (k * 4096) s = .ok (true, s') := by
  have notBeyond : ¬pdindex (pageAt virt k) > s.pagingSize := by
    rw [consistent.configured.size]
    omega
  rw [pagingUnmapBody, pageAt_eq, if_neg notBeyond]
  by_cases empty : s.pagingDir (pdindex (pageAt virt k)) = 0
  · exact ⟨s, if_pos empty⟩
  · have hasTable := (consistent.table_iff empty).mpr low
    rcases Option.ne_none_iff_exists'.mp hasTable with ⟨table, isTable⟩
    rw [if_neg empty, isTable]
    simp only
    split_ifs
    · exact ⟨_, rfl⟩
    · exact ⟨_, rfl⟩

theorem unmapBody_kernel (consistent : Consistent bootPages s) {virt k : ℕ}
    (atKernel : pdindex (pageAt virt k) = 768) :
    pagingUnmapBody virt (k * 4096) s = .error .nullPointer := by
  have notBeyond : ¬pdindex (pageAt virt k) > s.pagingSize := by
    rw [consistent.configured.size]
    omega
  have kernel := consistent.kernel_null (Or.inl atKernel)
  rw [pagingUnmapBody, pageAt_eq, if_neg notBeyond, if_neg kernel.1, kernel.2]

theorem unmapBody_error (consistent : Consistent bootPages s) {virt k : ℕ}
    (fails : pagingUnmapBody virt (k * 4096) s = .error .nullPointer) :
    pdindex (pageAt virt k) = 768 := by
  by_contra notKernel
  rcases Nat.lt_or_ge (pdindex (pageAt virt k)) 768 with low | high
  · rcases consistent.unmapBody_low low with ⟨s', goesOn⟩
    rw [goesOn] at fails
    cases fails
  · have beyond : pdindex (pageAt virt k) > s.pagingSize := by
      rw [consistent.configured.size]
      omega
    rw [pagingUnmapBody, pageAt_eq, if_pos beyond] at fails
    cases fails

end Consistent

section Calls

variable {bootPages virt size : ℕ} {s : Paging}

/-- A loop whose passes go through a null pointer in slot 768 only, and which is
left at once above it, does so only when the range reaches the slot. -/
theorem reachesKernel_of_null {body : ℕ → Paging → Except Halt (Bool × Paging)}
    (word : virt < 2 ^ 32) (sizeWord : size < 2 ^ 32) (consistent : Consistent bootPages s)
    (preserved : ∀ off s s' result, Consistent bootPages s → body off s = .ok (result, s') →
      Consistent bootPages s')
    (refused : ∀ s, Consistent bootPages s → 768 < pdindex (pageAt virt 0) →
      body (0 * 4096) s = .ok (false, s))
    (null : ∀ k s, Consistent bootPages s → body (k * 4096) s = .error .nullPointer →
      pdindex (pageAt virt k) = 768)
    (fails : Stride.loop .endlessLoop body 4096 (2 ^ 32) size (2 ^ 20 + 1) (0 * 4096) s =
      .error .nullPointer) : ReachesKernel virt size := by
  rcases Nat.lt_or_ge virt 0xC0400000 with notAbove | above
  · rcases Nat.lt_or_ge (2 ^ 32) (size + 4096) with large | unwrapped
    · exact reachesKernel_of_large notAbove sizeWord large
    · rcases Stride.loop_error (by omega) (by omega) unwrapped
        (fun k s s' kept goesOn => preserved _ s s' true kept goesOn) (Stride.passes_pos 4096 size)
        consistent fails with endless | ⟨k, inside, t, kept, failed⟩
      · cases endless
      · exact reachesKernel_of_pass inside notAbove (null k t kept failed)
  · have high : 768 < pdindex (pageAt virt 0) := by
      rw [pdindex, pageAt]
      omega
    rw [Stride.loop, refused s consistent high] at fails
    cases fails

theorem pagingUnmap_iff (consistent : Consistent bootPages s) (word : virt < 2 ^ 32)
    (sizeWord : size < 2 ^ 32) :
    pagingUnmap s virt size ≠ .error .nullPointer ↔ ¬ReachesKernel virt size := by
  apply not_congr
  have start : pagingUnmap s virt size =
      Stride.loop .endlessLoop (pagingUnmapBody virt) 4096 (2 ^ 32) size (2 ^ 20 + 1)
        (0 * 4096) s := by
    rw [Nat.zero_mul]
    rfl
  rw [start]
  constructor
  · intro fails
    apply reachesKernel_of_null word sizeWord consistent _ _ _ fails
    · intro off s s' result consistent returns
      exact consistent.unmapBody returns
    · intro s consistent above
      rw [← consistent.configured.size] at above
      rw [pagingUnmapBody, pageAt_eq, if_pos above]
    · intro k s consistent failed
      exact consistent.unmapBody_error failed
  · intro reaches
    rcases reaches.first with ⟨stop, inside, inRange, atKernel, below⟩
    apply Stride.loop_fails (by omega) inRange inside _ _ (Nat.zero_le stop) _ consistent
    · intro k s before consistent
      rcases consistent.unmapBody_low (below k before) with ⟨s', goesOn⟩
      exact ⟨s', goesOn, consistent.unmapBody goesOn⟩
    · intro s consistent
      exact consistent.unmapBody_kernel atKernel
    · omega

theorem pagingMap_null {alloc : ℕ → Option ℕ} {phys flags : ℕ}
    (consistent : Consistent bootPages s) (heapPages : HeapPages alloc) (word : virt < 2 ^ 32)
    (sizeWord : size < 2 ^ 32)
    (fails : pagingMap alloc s phys virt size flags = .error .nullPointer) :
    ReachesKernel virt size := by
  rw [pagingMap, ← Nat.zero_mul 4096] at fails
  apply reachesKernel_of_null word sizeWord consistent _ _ _ fails
  · intro off s s' result consistent returns
    exact consistent.mapBody returns
  · intro s consistent above
    rw [← consistent.configured.size] at above
    rw [pagingMapBody, pageAt_eq, if_pos above]
  · intro k s consistent failed
    exact consistent.mapBody_error heapPages failed

theorem pagingMap_kernel {alloc : ℕ → Option ℕ} {phys flags : ℕ} {s' : Paging}
    (consistent : Consistent bootPages s) (reaches : ReachesKernel virt size) :
    pagingMap alloc s phys virt size flags ≠ .ok (true, s') := by
  intro returns
  rw [pagingMap, ← Nat.zero_mul 4096] at returns
  rcases reaches.first with ⟨stop, inside, inRange, atKernel, _⟩
  rcases Stride.loop_true (by omega) inRange inside
    (fun k s s' kept goesOn => Consistent.mapBody kept goesOn) (Nat.zero_le stop) consistent
      returns with ⟨t, t', kept, goesOn⟩
  exact kept.mapBody_kernel atKernel goesOn

end Calls

/-- What the bound of the directory comes to in a state. An accepted slot with an
entry has a table exactly when it lies below 768, and a translation or a call
goes through a null pointer exactly when it comes to another accepted slot; a
call of `paging_map` that comes to slot 768 and is not stopped before does. -/
structure DirectoryBound (bootPages : ℕ) (s : Paging) : Prop where
  table_iff : ∀ slot, slot ≤ s.pagingSize ∨ slot < s.higherPagesStart → s.pagingDir slot ≠ 0 →
    (s.pagingDirectoryMap slot ≠ none ↔ slot < 768)
  kernelSlots : ∀ slot, 768 ≤ slot → s.pagingDir slot = bootPageDirectory bootPages slot
  getPhysical_iff : ∀ virt, pagingGetPhysical s virt ≠ .error .nullPointer ↔
    virt < 0xC0000000 ∨ 0xC0800000 ≤ virt
  unmap_iff : ∀ virt < 2 ^ 32, ∀ size < 2 ^ 32,
    (pagingUnmap s virt size ≠ .error .nullPointer ↔ ¬ReachesKernel virt size)
  map_safe : ∀ alloc, HeapPages alloc → ∀ phys flags, ∀ virt < 2 ^ 32, ∀ size < 2 ^ 32,
    ¬ReachesKernel virt size → pagingMap alloc s phys virt size flags ≠ .error .nullPointer
  map_kernel : ∀ alloc phys flags virt size, ReachesKernel virt size →
    ∀ s', pagingMap alloc s phys virt size flags ≠ .ok (true, s')

/-- In every state that calls lead to, the accepted slots with a table are those
below 768, and no call changes a slot of the kernel. -/
theorem paging_directory_bound {bootPages : ℕ} {s : Paging}
    (reached : (pagingSystem bootPages).Reachable s) : DirectoryBound bootPages s := by
  have consistent := Consistent.of_reachable reached
  refine ⟨?_, ?_, consistent.getPhysical_iff, ?_, ?_, ?_⟩
  · intro slot _ present
    exact consistent.table_iff present
  · intro slot high
    exact (consistent.kernelSlots slot high).1
  · intro virt word size sizeWord
    exact pagingUnmap_iff consistent word sizeWord
  · intro alloc heapPages phys flags virt word size sizeWord notReaching fails
    exact notReaching (pagingMap_null consistent heapPages word sizeWord fails)
  · intro alloc phys flags virt size reaches s'
    exact pagingMap_kernel consistent reaches

/-- Behind two calls of `paging_map`, each of which has got a table, and one of
`paging_unmap`. -/
theorem paging_directory_bound_mapped :
    ∃ s, (pagingSystem 0x200000).Reachable s ∧ s.pagingDirectoryMap 1 = some 0xC0900000 ∧
      s.pagingDirectoryMap 2 = some 0xC0901000 ∧ DirectoryBound 0x200000 s := by
  have starts : (pagingSystem 0x200000).Reachable
      (kernelPremainPaging 0x200000 0x100000 (fun _ => 0) (fun _ _ => 0)) :=
    System.Reachable.init ⟨0x100000, fun _ => 0, fun _ _ => 0, rfl⟩
  have first := starts.step_by (.map (fun _ => some 0xC0900000) 0x1000 0x400000 4096 0)
    (.map (fun _ table allocated => by cases allocated; decide) rfl)
  have second := first.step_by (.map (fun _ => some 0xC0901000) 0x2000 0x800000 4096 0)
    (.map (fun _ table allocated => by cases allocated; decide) rfl)
  have unmapped := second.step_by (.unmap 0xC00000 4096) (.unmap rfl)
  exact ⟨_, unmapped, rfl, rfl, paging_directory_bound unmapped⟩

/-- Slot 768 is accepted and has an entry but no table; unmapping a page of it, or
translating its address, goes through the null pointer. -/
theorem paging_kernel_slot_null :
    ∃ s, (pagingSystem 0x200000).Reachable s ∧ 768 ≤ s.pagingSize ∧ s.pagingDir 768 ≠ 0 ∧
      s.pagingDirectoryMap 768 = none ∧
        pagingUnmap s 0xC0000000 4096 = .error .nullPointer ∧
          pagingGetPhysical s 0xC0000000 = .error .nullPointer := by
  refine ⟨kernelPremainPaging 0x200000 0x100000 (fun _ => 0) (fun _ _ => 0),
    System.Reachable.init ⟨0x100000, fun _ => 0, fun _ _ => 0, rfl⟩, by decide, by decide, rfl,
    ?_, rfl⟩
  rfl

end Osserver
