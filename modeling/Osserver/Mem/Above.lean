import Osserver.Mem.Run

/-!
# Where the pages of the allocator lie

No call moves a descriptor with pages below the base of the region, also when the
free list has come apart. So every page that is handed out lies at the base or
above, in every run whose sums stay in the address space.
-/

namespace Osserver

open Transition

/-- The block has no pages, or begins at `base` or above. -/
def Block.Above (base : ℕ) (block : Block) : Prop :=
  block.pages = 0 ∨ base ≤ block.ptr

namespace Block

variable {base : ℕ} {left right : Block}

theorem Above.join (leftAbove : left.Above base) (rightAbove : right.Above base)
    (touches : left.stop = right.ptr) :
    Above base ⟨left.ptr, uint16 (left.pages + right.pages)⟩ := by
  rcases leftAbove with empty | above
  · have samePtr : left.ptr = right.ptr := by
      rw [← touches, Block.stop, empty, Nat.zero_mul, Nat.add_zero]
    rcases rightAbove with alsoEmpty | above
    · left
      rw [empty, alsoEmpty]
      rfl
    · right
      rw [← samePtr] at above
      exact above
  · exact Or.inr above

end Block

namespace Kmem

/-- All descriptors, on whatever list, are above the base. -/
def Above (base : ℕ) (s : Kmem) : Prop :=
  ∀ page, (s.block page).Above base

variable {base : ℕ} {s s' : Kmem}

theorem Above.modify (above : s.Above base) {page : PageRef} {write : KmemPages → KmemPages}
    (written : Block.Above base
      ⟨(write (s.kmemInitPages page)).ptr, (write (s.kmemInitPages page)).size⟩) :
    (s.modify page write).Above base := by
  intro other
  rw [modify_block]
  by_cases same : other = page
  · rw [same, Function.update_self]
    exact written
  · rw [Function.update_of_ne same]
    exact above other

theorem Above.modify_next (above : s.Above base) (page : PageRef) (pointer : Option PageRef) :
    (s.modify page (fun d => { d with next := pointer })).Above base :=
  above.modify (above page)

theorem Above.setAllocPages (above : s.Above base) (pointer : Option PageRef) :
    (s.setAllocPages pointer).Above base :=
  above

theorem Above.allocWhole (above : s.Above base) (prev : Option PageRef) (page : PageRef) :
    (kmemLiballocAllocWhole s prev page).Above base := by
  apply Above.setAllocPages
  apply Above.modify
  · cases prev with
    | none => exact above
    | some prev => exact above.modify_next prev (s.next page)
  · exact Or.inl rfl

theorem Above.allocFront (above : s.Above base) {page : PageRef} {pages : ℕ}
    (larger : pages < (s.kmemInitPages page).size) :
    (kmemLiballocAllocFront s page pages).Above base := by
  apply above.modify
  rcases above page with empty | atLeast
  · rw [block_pages] at empty
    omega
  · exact Or.inr (Nat.le_trans atLeast (Nat.le_add_right _ _))

theorem Above.allocLoop (above : s.Above base) {pages fuel : ℕ} {prev : Option PageRef}
    {page : PageRef} {result : Option ℕ} (positive : 1 ≤ pages)
    (returns : kmemLiballocAllocLoop s pages fuel prev page = .ok (result, s')) :
    s'.Above base ∧ ∀ ptr, result = some ptr → base ≤ ptr := by
  induction fuel generalizing prev page with
  | zero => cases returns
  | succ fuel ih =>
      have inHeap : 1 ≤ (s.kmemInitPages page).size → base ≤ (s.kmemInitPages page).ptr := by
        intro hasPages
        rcases above page with empty | atLeast
        · rw [block_pages] at empty
          omega
        · exact atLeast
      simp only [kmemLiballocAllocLoop] at returns
      split_ifs at returns with exact' larger
      · cases returns
        refine ⟨above.allocWhole prev page, ?_⟩
        rintro ptr ⟨⟩
        exact inHeap (by omega)
      · cases returns
        refine ⟨above.allocFront larger, ?_⟩
        rintro ptr ⟨⟩
        exact inHeap (by omega)
      · split at returns
        · exact ih returns
        · cases returns
          refine ⟨above, ?_⟩
          rintro ptr ⟨⟩

theorem Above.alloc (above : s.Above base) {pages : ℕ} {result : Option ℕ}
    (positive : 1 ≤ pages) (returns : kmemLiballocAlloc s pages = .ok (result, s')) :
    s'.Above base ∧ ∀ ptr, result = some ptr → base ≤ ptr := by
  simp only [kmemLiballocAlloc] at returns
  split at returns
  · cases returns
    refine ⟨above, ?_⟩
    rintro ptr ⟨⟩
  · exact above.allocLoop positive returns

theorem Above.freeInsert (above : s.Above base) {prev : PageRef} {p : Option PageRef}
    {ptr size : ℕ} (inHeap : base ≤ ptr)
    (returns : kmemLiballocFreeInsert s prev p ptr size = .ok s') : s'.Above base := by
  simp only [kmemLiballocFreeInsert] at returns
  split at returns
  · cases returns
  · rename_i pages _
    cases returns
    apply Above.modify_next
    apply Above.modify
    · exact above.setAllocPages (s.next pages)
    · exact Or.inr inHeap

theorem Above.freeRecord (above : s.Above base) {prev : PageRef} {p : Option PageRef}
    {ptr size : ℕ} (inHeap : base ≤ ptr)
    (returns : kmemLiballocFreeRecord s prev p ptr size = .ok s') : s'.Above base := by
  have block : Block.Above base ⟨ptr, size⟩ := Or.inr inHeap
  simp only [kmemLiballocFreeRecord] at returns
  split_ifs at returns with touchesPrev
  · cases returns
    exact above.modify ((above prev).join block touchesPrev)
  · split at returns
    · exact above.freeInsert inHeap returns
    · split_ifs at returns with touches
      · cases returns
        apply above.modify
        right
        rw [← touches]
        exact Nat.le_trans inHeap (Nat.le_add_right _ _)
      · exact above.freeInsert inHeap returns

theorem Above.freeMerge (above : s.Above base) (prev : PageRef) (p : Option PageRef) :
    (kmemLiballocFreeMerge s prev p).Above base := by
  cases p with
  | none => exact above
  | some p =>
      simp only [kmemLiballocFreeMerge]
      split_ifs with touches
      · apply Above.setAllocPages
        apply Above.modify_next
        apply Above.modify_next
        apply above.modify
        exact (above prev).join (above p) touches
      · exact above

theorem Above.free (above : s.Above base) {ptr size : ℕ} (inHeap : base ≤ ptr)
    (returns : kmemLiballocFree s ptr size = .ok s') : s'.Above base := by
  simp only [kmemLiballocFree] at returns
  split at returns
  · cases returns
  · split at returns
    · cases returns
    · rename_i prev p _
      split at returns
      · cases returns
      · rename_i recorded records
        cases returns
        exact (above.freeRecord inHeap records).freeMerge prev p

end Kmem

/-- Neither a descriptor nor a block in the hands of a caller lies below the base. -/
structure KmemRun.Above (base : ℕ) (run : KmemRun) : Prop where
  kmem : run.kmem.Above base
  outstanding : ∀ block ∈ run.outstanding, base ≤ block.ptr

theorem KmemRun.above_of_reachable {base : ℕ} {run : KmemRun}
    (reached : (kmemSystem base).Reachable run) : run.Above base := by
  apply System.Reachable.invariant _ _ reached
  · rintro state rfl
    refine ⟨?_, nofun⟩
    intro page
    rw [(memoryKernelInit_spec base).2.2.2.2.2]
    by_cases first : page = 0
    · rw [first, Function.update_self]
      exact Or.inr (Nat.le_refl base)
    · rw [Function.update_of_ne first]
      exact Or.inl rfl
  · intro state call next above step
    cases step with
    | alloc positive returns =>
        rcases above.kmem.alloc positive returns with ⟨kept, inHeap⟩
        refine ⟨kept, ?_⟩
        intro block member
        rcases List.mem_cons.mp member with rfl | member
        · exact inHeap _ rfl
        · exact above.outstanding block member
    | allocNull positive returns =>
        exact ⟨(above.kmem.alloc positive returns).1, above.outstanding⟩
    | free held returns =>
        refine ⟨above.kmem.free (above.outstanding _ held) returns, ?_⟩
        intro block member
        exact above.outstanding block (List.mem_of_mem_erase member)

/-- In any run, the pages that a call is given lie at the base or above. -/
theorem kmemLiballocAlloc_above {base pages ptr : ℕ} {run : KmemRun} {after : Kmem}
    (reached : (kmemSystem base).Reachable run) (positive : 1 ≤ pages)
    (returns : kmemLiballocAlloc run.kmem pages = .ok (some ptr, after)) : base ≤ ptr :=
  ((KmemRun.above_of_reachable reached).kmem.alloc positive returns).2 ptr rfl

end Osserver
