import Osserver.Lib.Refinement
import Osserver.Mem.HeapData

/-!
# Runs of the heap

A run starts behind `memory_kernel_init`, with the static variables of the heap as the
loader has cleared them. Callers then ask for blocks, give them back and write into
them, in any order; the paging code asks the page allocator for pages of its own, which
it keeps. What callers hold is kept beside the state. A call that does not return ends
the run.
-/

namespace Osserver

open Liballoc Transition Bytes

/-- A block that `kmalloc` has returned, and the size that was asked for. -/
structure HeldBlock where
  ptr : ℕ
  size : ℕ
  deriving DecidableEq

/-- The heap, the blocks its callers hold, and the pages that the paging code holds. -/
structure HeapRun where
  heap : Liballoc
  held : List HeldBlock
  tables : List Block

inductive HeapCall where
  | kmalloc (size : ℕ)
  | kcalloc (count size : ℕ)
  | krealloc (ptr size : ℕ)
  | kfree (ptr : ℕ)
  | tablePage
  | write (address : ℕ) (byte : UInt8)

namespace HeapRun

/-- A call has returned `ptr`, which is a block for the caller unless it is `NULL`. -/
def gain (run : HeapRun) (heap : Liballoc) (ptr size : ℕ) : HeapRun :=
  { run with heap := heap, held := if ptr = 0 then run.held else ⟨ptr, size⟩ :: run.held }

/-- The caller has given up `ptr`. -/
def lose (run : HeapRun) (ptr : ℕ) : HeapRun :=
  { run with held := run.held.filter (fun block => block.ptr ≠ ptr) }

/-- A byte is written. -/
def setByte (run : HeapRun) (address : ℕ) (byte : UInt8) : HeapRun :=
  { run with heap := { run.heap with memory := store8 run.heap.memory address byte } }

/-- Callers write into the blocks that they hold, the paging code into its pages, and
everyone where there is no heap. -/
def MayWrite (run : HeapRun) (address : ℕ) : Prop :=
  (∃ block ∈ run.held, block.ptr ≤ address ∧ address < block.ptr + block.size) ∨
    Foreign run.tables address

end HeapRun

inductive HeapStep : HeapRun → HeapCall → HeapRun → Prop where
  | kmalloc {run : HeapRun} {size ptr : ℕ} {heap : Liballoc}
      (returns : kmalloc run.heap size = .ok (ptr, heap)) :
      HeapStep run (.kmalloc size) (run.gain heap ptr size)
  | kcalloc {run : HeapRun} {count size ptr : ℕ} {heap : Liballoc}
      (returns : kcalloc run.heap count size = .ok (ptr, heap)) :
      HeapStep run (.kcalloc count size) (run.gain heap ptr (count * size % 2 ^ 32))
  | krealloc {run : HeapRun} {p size ptr : ℕ} {heap : Liballoc}
      (own : p = 0 ∨ ∃ block ∈ run.held, block.ptr = p)
      (returns : krealloc run.heap p size = .ok (ptr, heap)) :
      HeapStep run (.krealloc p size) ((run.lose p).gain heap ptr size)
  | kfree {run : HeapRun} {ptr : ℕ} {heap : Liballoc}
      (own : ptr = 0 ∨ ∃ block ∈ run.held, block.ptr = ptr)
      (returns : kfree run.heap ptr = .ok heap) :
      HeapStep run (.kfree ptr) { run.lose ptr with heap := heap }
  | tablePage {run : HeapRun} {ptr : ℕ} {kmem : Kmem}
      (returns : kmemLiballocAlloc run.heap.kmem 1 = .ok (some ptr, kmem)) :
      HeapStep run .tablePage
        { run with heap := run.heap.setKmem kmem, tables := ⟨ptr, 1⟩ :: run.tables }
  | noTablePage {run : HeapRun} {kmem : Kmem}
      (returns : kmemLiballocAlloc run.heap.kmem 1 = .ok (none, kmem)) :
      HeapStep run .tablePage { run with heap := run.heap.setKmem kmem }
  | write {run : HeapRun} {address : ℕ} {byte : UInt8} (fits : address < 2 ^ 32)
      (may : run.MayWrite address) :
      HeapStep run (.write address byte) (run.setByte address byte)

/-- The heap from `memory_kernel_init` on. -/
def heapSystem : System HeapRun HeapCall where
  Init run := ∃ memory flags, run =
    ⟨⟨memory, fun _ => 0, fun _ => 0, false, memoryKernelInit Kmem.bss kernelHeap, flags⟩, [], []⟩
  Step := HeapStep

/-- The calls that the heap is made for: the sizes leave room for a tag, and the pages that
are given to the page allocator can be taken back by it. -/
def HeapCallSafe (run : HeapRun) : HeapCall → Prop
  | .kmalloc size => size + 32 < 2 ^ 32
  | .kcalloc count size => count * size % 2 ^ 32 + 32 < 2 ^ 32
  | .krealloc ptr size => size + 32 < 2 ^ 32 ∧
      if size = 0 then FreeSafe run.heap ptr
      else ∀ moved, kmemReallocMove run.heap ptr size = .ok moved → FreeSafe moved.2 ptr
  | .kfree ptr => FreeSafe run.heap ptr
  | _ => True

namespace HeapRun

/-- The map of the heap shows the blocks that callers hold, and no others. -/
structure Mapped (run : HeapRun) (layout : Layout) : Prop where
  heapAt : HeapAt run.heap layout run.tables
  holds : ∀ ptr size, layout.Holds ptr size ↔ ⟨ptr, size⟩ ∈ run.held
  nodup : (run.held.map HeldBlock.ptr).Nodup

variable {run : HeapRun} {layout after : Layout} {heap : Liballoc} {ptr size p : ℕ}

theorem mem_lose {block : HeldBlock} :
    block ∈ (run.lose p).held ↔ block ∈ run.held ∧ block.ptr ≠ p := by
  simp [lose]

theorem mem_gain {block : HeldBlock} (notNull : ptr ≠ 0) :
    block ∈ (run.gain heap ptr size).held ↔ block = ⟨ptr, size⟩ ∨ block ∈ run.held := by
  simp [gain, notNull]

/-- A new block comes to what callers hold. -/
theorem Mapped.gain (mapped : run.Mapped layout) (heapAfter : HeapAt heap after run.tables)
    (gives : layout.Gives ptr size after) : (run.gain heap ptr size).Mapped after := by
  refine ⟨heapAfter, ?_, ?_⟩
  · intro other bytes
    rw [gives.holds, mem_gain gives.notNull, mapped.holds, HeldBlock.mk.injEq]
  · rw [HeapRun.gain]
    simp only [if_neg gives.notNull, List.map_cons, List.nodup_cons]
    refine ⟨?_, mapped.nodup⟩
    intro member
    rcases List.mem_map.mp member with ⟨block, held, rfl⟩
    exact gives.fresh block.size ((mapped.holds block.ptr block.size).mpr held)

theorem Mapped.gain_null (mapped : run.Mapped layout) (heapAfter : HeapAt heap layout run.tables) :
    (run.gain heap 0 size).Mapped layout :=
  ⟨heapAfter, mapped.holds, mapped.nodup⟩

theorem Mapped.lose (mapped : run.Mapped layout) (heapAfter : HeapAt heap after run.tables)
    (takes : layout.Takes ptr after) : { run.lose ptr with heap := heap }.Mapped after := by
  refine ⟨heapAfter, ?_, ?_⟩
  · intro other bytes
    rw [takes, mapped.holds]
    exact mem_lose.symm
  · exact mapped.nodup.sublist (List.filter_sublist.map _)

/-- Nobody holds `NULL`. -/
theorem Mapped.ne_null (mapped : run.Mapped layout) : ∀ block ∈ run.held, block.ptr ≠ 0 := by
  intro block member null
  rcases (mapped.holds block.ptr block.size).mpr member with ⟨chunk, _, atChunk, _⟩
  omega

theorem Mapped.lose_null (mapped : run.Mapped layout) : run.lose 0 = run := by
  have all : run.held.filter (fun block => block.ptr ≠ 0) = run.held := by
    apply List.filter_eq_self.mpr
    intro block member
    simpa using mapped.ne_null block member
  rw [HeapRun.lose, all]

end HeapRun

end Osserver
