import Osserver.Lib.Transition
import Osserver.Mem.FreeList

/-!
# Runs of the page allocator

A run starts behind `memory_kernel_init` and makes calls in any order: any
number of pages may be asked for, and a block may be freed when it was returned
earlier and has not been freed since. The blocks in the hands of callers are
kept beside the allocator's variables. A call that does not return ends the
run, so the states of a run are those behind calls that have returned.
-/

namespace Osserver

open Linked Transition

/-- The allocator and the blocks its callers hold. -/
structure KmemRun where
  kmem : Kmem
  outstanding : List Block

/-- A call into the allocator. -/
inductive KmemCall where
  | alloc (pages : ℕ)
  | free (block : Block)

inductive KmemStep : KmemRun → KmemCall → KmemRun → Prop where
  | alloc {run : KmemRun} {pages ptr : ℕ} {after : Kmem} (positive : 1 ≤ pages)
      (returns : kmemLiballocAlloc run.kmem pages = .ok (some ptr, after)) :
      KmemStep run (.alloc pages) ⟨after, ⟨ptr, pages⟩ :: run.outstanding⟩
  | allocNull {run : KmemRun} {pages : ℕ} {after : Kmem} (positive : 1 ≤ pages)
      (returns : kmemLiballocAlloc run.kmem pages = .ok (none, after)) :
      KmemStep run (.alloc pages) ⟨after, run.outstanding⟩
  | free {run : KmemRun} {block : Block} {after : Kmem} (held : block ∈ run.outstanding)
      (returns : kmemLiballocFree run.kmem block.ptr block.pages = .ok after) :
      KmemStep run (.free block) ⟨after, run.outstanding.erase block⟩

/-- The allocator from `memory_kernel_init` on, for the region at `base`. -/
def kmemSystem (base : ℕ) : System KmemRun KmemCall where
  Init run := run = ⟨memoryKernelInit Kmem.bss base, []⟩
  Step := KmemStep

section Init

variable {s : Kmem} {i page : PageRef}

theorem memoryKernelInitBody_next_self (different : i ≠ 1) :
    (memoryKernelInitBody s i).next i = some 1 := by
  simp [memoryKernelInitBody, different]

theorem memoryKernelInitBody_next_one : (memoryKernelInitBody s i).next 1 = some i := by
  simp [memoryKernelInitBody]

theorem memoryKernelInitBody_next_other (notSelf : page ≠ i) (notOne : page ≠ 1) :
    (memoryKernelInitBody s i).next page = s.next page := by
  simp [memoryKernelInitBody, notSelf, notOne]

theorem memoryKernelInitBody_block : (memoryKernelInitBody s i).block = s.block := by
  simp [memoryKernelInitBody]

theorem foldl_memoryKernelInitBody (s : Kmem) (indices : List PageRef) :
    (indices.foldl memoryKernelInitBody s).block = s.block ∧
      (indices.foldl memoryKernelInitBody s).kmemAllocPages = s.kmemAllocPages ∧
        (indices.foldl memoryKernelInitBody s).kmemBase = s.kmemBase ∧
          ((0 : PageRef) ∉ indices → (indices.foldl memoryKernelInitBody s).next 0 = s.next 0) := by
  induction indices generalizing s with
  | nil => simp
  | cons first indices ih =>
      have rest := ih (memoryKernelInitBody s first)
      rw [List.foldl_cons, rest.1, rest.2.1, rest.2.2.1]
      refine ⟨memoryKernelInitBody_block, rfl, rfl, ?_⟩
      intro notIn
      simp only [List.mem_cons, not_or] at notIn
      rw [rest.2.2.2 notIn.2]
      exact memoryKernelInitBody_next_other notIn.1 (by decide)

theorem memoryKernelInitLoop_indices :
    ∃ indices : List PageRef,
      (List.finRange 8192).filter (fun i => 2 ≤ i.val) = indices ++ [8191] ∧
        (0 : PageRef) ∉ (List.finRange 8192).filter (fun i => 2 ≤ i.val) := by
  refine ⟨((List.finRange 8191).map Fin.castSucc).filter (fun i => 2 ≤ i.val), ?_, ?_⟩
  · rw [List.finRange_succ_last, List.filter_append]
    rfl
  · intro member
    have atLeast := (List.mem_filter.mp member).2
    simp at atLeast

/-- The loop changes links only. It leaves descriptor 1 linked to the last one
and the last one linked to 1. -/
theorem memoryKernelInitLoop_spec (s : Kmem) :
    (memoryKernelInitLoop s).block = s.block ∧
      (memoryKernelInitLoop s).kmemAllocPages = s.kmemAllocPages ∧
        (memoryKernelInitLoop s).kmemBase = s.kmemBase ∧
          (memoryKernelInitLoop s).next 0 = s.next 0 ∧
            (memoryKernelInitLoop s).next 1 = some 8191 ∧
              (memoryKernelInitLoop s).next 8191 = some 1 := by
  rcases memoryKernelInitLoop_indices with ⟨indices, split, zeroNotIn⟩
  have frame := foldl_memoryKernelInitBody s ((List.finRange 8192).filter (fun i => 2 ≤ i.val))
  refine ⟨frame.1, frame.2.1, frame.2.2.1, frame.2.2.2 zeroNotIn, ?_, ?_⟩
  · rw [memoryKernelInitLoop, split, List.foldl_append]
    exact memoryKernelInitBody_next_one
  · rw [memoryKernelInitLoop, split, List.foldl_append]
    exact memoryKernelInitBody_next_self (by decide)

/-- What `memory_kernel_init` does behind its loop. The state is arbitrary here, so
that nothing tries to run the loop. -/
theorem memoryKernelInit_behind_loop {base : ℕ} {after : Kmem}
    (equation : after = (s.setFreePages (some 0)).modify 0 (fun page => { page with
      size := 8192, ptr := (s.setFreePages (some 0)).kmemBase }))
    (noBlocks : s.block = fun _ => ⟨0, 0⟩) (atBase : s.kmemBase = base) :
    after.kmemFreePages = some 0 ∧ after.kmemAllocPages = s.kmemAllocPages ∧
      after.next = s.next ∧ after.block = Function.update (fun _ => ⟨0, 0⟩) 0 ⟨base, 8192⟩ := by
  subst equation
  refine ⟨rfl, rfl, ?_, ?_⟩
  · funext page
    by_cases first : page = 0
    · subst page
      simp
    · simp [first]
  · simp only [Kmem.modify_block, Kmem.setFreePages_block, noBlocks, ← atBase]
    rfl

/-- Behind `memory_kernel_init` descriptor 0 is the free list, and the spare list
is the two descriptors 1 and 8191, linked to each other. -/
theorem memoryKernelInit_spec (base : ℕ) :
    (memoryKernelInit Kmem.bss base).kmemFreePages = some 0 ∧
      (memoryKernelInit Kmem.bss base).kmemAllocPages = some 1 ∧
        (memoryKernelInit Kmem.bss base).next 0 = none ∧
          (memoryKernelInit Kmem.bss base).next 1 = some 8191 ∧
            (memoryKernelInit Kmem.bss base).next 8191 = some 1 ∧
              (memoryKernelInit Kmem.bss base).block =
                Function.update (fun _ => ⟨0, 0⟩) 0 ⟨base, 8192⟩ := by
  rcases memoryKernelInitLoop_spec { Kmem.bss with kmemBase := base, kmemAllocPages := some 1 } with
    ⟨sameBlock, sameAlloc, sameBase, zeroNext, oneNext, lastNext⟩
  have atEnd := memoryKernelInit_behind_loop (memoryKernelInit.eq_1 Kmem.bss base) sameBlock sameBase
  rcases atEnd with ⟨freePages, allocPages, sameNext, blocks⟩
  refine ⟨freePages, allocPages.trans sameAlloc, ?_, ?_, ?_, blocks⟩
  · rw [sameNext]
    exact zeroNext
  · rw [sameNext]
    exact oneNext
  · rw [sameNext]
    exact lastNext

end Init

theorem KmemStep.alloc_head {s : Kmem} {outstanding : List Block} {head : PageRef} {pages : ℕ}
    (first : s.kmemFreePages = some head) (positive : 1 ≤ pages)
    (larger : pages < (s.block head).pages) :
    KmemStep ⟨s, outstanding⟩ (.alloc pages)
      ⟨kmemLiballocAllocFront s head pages, ⟨(s.block head).ptr, pages⟩ :: outstanding⟩ :=
  KmemStep.alloc positive (kmemLiballocAlloc_head first larger)

theorem kmemSystem_pages (base : ℕ) (allowed : KmemRun → KmemCall → Prop)
    (permits : ∀ run pages, allowed run (.alloc pages)) {count : ℕ} (some_left : count < 8192) :
    ∃ s : Kmem,
      (kmemSystem base).ReachableWhen allowed
        ⟨s, ((List.range count).map (fun page => ⟨base + page * 4096, 1⟩)).reverse⟩ ∧
      s.kmemFreePages = some 0 ∧ s.kmemAllocPages = some 1 ∧ s.next 0 = none ∧
        s.next 1 = some 8191 ∧ s.block 0 = ⟨base + count * 4096, 8192 - count⟩ := by
  induction count with
  | zero =>
      rcases memoryKernelInit_spec base with ⟨first, spare, zeroNext, oneNext, _, blocks⟩
      refine ⟨_, .init rfl, first, spare, zeroNext, oneNext, ?_⟩
      simp [blocks]
  | succ count ih =>
      rcases ih (by omega) with ⟨s, reached, first, spare, zeroNext, oneNext, whole⟩
      have larger : 1 < (s.block 0).pages := by
        rw [whole]
        simp only
        omega
      refine ⟨kmemLiballocAllocFront s 0 1, ?_, first, spare, ?_, ?_, ?_⟩
      · have next := reached.step (permits _ _)
          (KmemStep.alloc_head first (Nat.le_refl 1) larger)
        simpa [List.range_succ, whole] using next
      · simp [kmemLiballocAllocFront, zeroNext]
      · simp [kmemLiballocAllocFront, oneNext]
      · have pages := congrArg Block.pages whole
        have ptr := congrArg Block.ptr whole
        simp only [Kmem.block_pages, Kmem.block_ptr] at pages ptr
        simp only [kmemLiballocAllocFront, Kmem.modify_block, Function.update_self, pages, ptr,
          Block.mk.injEq]
        omega

end Osserver
