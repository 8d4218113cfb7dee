import Osserver.Halt
import Mathlib.Algebra.GroupWithZero.Nat
import Mathlib.Data.Fin.Basic
import Mathlib.Data.List.FinRange
import Mathlib.Logic.Function.Basic

/-!
# The kernel page allocator

The model of `generic/sys/mem/kmem.c`. The 8192 elements of `kmem_init_pages`
are descriptors that move between two intrusive lists: the free list from
`kmem_free_pages`, whose entries describe runs of free pages, and the list of
spare descriptors from `kmem_alloc_pages`. A pointer to a descriptor is an
optional index into the array, `none` being `NULL`; addresses are natural
numbers, since the heap region lies inside the 32-bit address space and no sum
over blocks of the region leaves it. Sizes are `uint16_t` and wrap.

A walk is given one step of fuel for each descriptor there is. A walk that
needs more has met a descriptor twice and never ends.
-/

namespace Osserver

/-- A number stored in a `uint16_t`. -/
def uint16 (value : ℕ) : ℕ :=
  value % 2 ^ 16

theorem uint16_of_lt {value : ℕ} (narrow : value < 2 ^ 16) : uint16 value = value :=
  Nat.mod_eq_of_lt narrow

/-- A pointer's worth of `kmem_init_pages`: the index of a descriptor. -/
abbrev PageRef :=
  Fin 8192

instance PageRef.neZero : NeZero 8192 :=
  ⟨by decide⟩

/-- `kmem_pages`: a run of `size` pages from `ptr`, and the link of the list it is on. -/
structure KmemPages where
  ptr : ℕ
  size : ℕ
  next : Option PageRef
  deriving DecidableEq

/-- The static variables of the allocator. -/
structure Kmem where
  kmemInitPages : PageRef → KmemPages
  kmemAllocPages : Option PageRef
  kmemBase : ℕ
  kmemFreePages : Option PageRef

namespace Kmem

/-- The statics before any code has run: the `.bss` section is zero. -/
def bss : Kmem where
  kmemInitPages := fun _ => ⟨0, 0, none⟩
  kmemAllocPages := none
  kmemBase := 0
  kmemFreePages := none

/-- Write to fields of one descriptor. -/
def modify (s : Kmem) (page : PageRef) (write : KmemPages → KmemPages) : Kmem :=
  { s with
    kmemInitPages := Function.update s.kmemInitPages page (write (s.kmemInitPages page)) }

def setFreePages (s : Kmem) (pointer : Option PageRef) : Kmem :=
  { s with kmemFreePages := pointer }

def setAllocPages (s : Kmem) (pointer : Option PageRef) : Kmem :=
  { s with kmemAllocPages := pointer }

/-- The `next` field of every descriptor. -/
def next (s : Kmem) (page : PageRef) : Option PageRef :=
  (s.kmemInitPages page).next

/-- `page->ptr + page->size * 4096`, the address behind the pages of a descriptor. -/
def pagesEnd (s : Kmem) (page : PageRef) : ℕ :=
  (s.kmemInitPages page).ptr + (s.kmemInitPages page).size * 4096

end Kmem

/-- The body of the loop of `memory_kernel_init`, where `kmem_alloc_pages` is
`&kmem_init_pages[1]` throughout. -/
def memoryKernelInitBody (s : Kmem) (i : PageRef) : Kmem :=
  let s := s.modify i (fun page => { page with next := some 1 })
  s.modify 1 (fun page => { page with next := some i })

/-- The loop of `memory_kernel_init`, over the indices from 2 on. -/
def memoryKernelInitLoop (s : Kmem) : Kmem :=
  ((List.finRange 8192).filter (fun i => 2 ≤ i.val)).foldl memoryKernelInitBody s

/-- `memory_kernel_init`. -/
def memoryKernelInit (s : Kmem) (ptr : ℕ) : Kmem :=
  let s := { s with kmemBase := ptr, kmemAllocPages := some 1 }
  let s := memoryKernelInitLoop s
  let s := s.setFreePages (some 0)
  s.modify 0 (fun page => { page with size := 8192, ptr := s.kmemBase })

/-- The exact fit of `kmem_liballoc_alloc`: the descriptor leaves the free list
and becomes the first spare one. -/
def kmemLiballocAllocWhole (s : Kmem) (prev : Option PageRef) (page : PageRef) : Kmem :=
  let s := match prev with
    | none => s.setFreePages (s.next page)
    | some prev => s.modify prev (fun d => { d with next := s.next page })
  let s := s.modify page (fun _ => { ptr := 0, size := 0, next := s.kmemAllocPages })
  s.setAllocPages (some page)

/-- The larger fit of `kmem_liballoc_alloc`: the first `pages` pages are cut off. -/
def kmemLiballocAllocFront (s : Kmem) (page : PageRef) (pages : ℕ) : Kmem :=
  s.modify page (fun d => { d with size := d.size - pages, ptr := d.ptr + pages * 4096 })

/-- The loop of `kmem_liballoc_alloc`, standing at `page` with `prev` behind it. -/
def kmemLiballocAllocLoop (s : Kmem) (pages : ℕ) :
    ℕ → Option PageRef → PageRef → Except Halt (Option ℕ × Kmem)
  | 0, _, _ => .error .endlessLoop
  | fuel + 1, prev, page =>
      if (s.kmemInitPages page).size = pages then
        .ok (some (s.kmemInitPages page).ptr, kmemLiballocAllocWhole s prev page)
      else if (s.kmemInitPages page).size > pages then
        .ok (some (s.kmemInitPages page).ptr, kmemLiballocAllocFront s page pages)
      else
        match s.next page with
        | some after => kmemLiballocAllocLoop s pages fuel (some page) after
        | none => .ok (none, s)

/-- `kmem_liballoc_alloc`: the address of `pages` pages and the state after, or
`NULL`. -/
def kmemLiballocAlloc (s : Kmem) (pages : ℕ) : Except Halt (Option ℕ × Kmem) :=
  match s.kmemFreePages with
  | none => .ok (none, s)
  | some page => kmemLiballocAllocLoop s pages 8192 none page

/-- The walk of `kmem_liballoc_free`: the entry `prev` behind which the block at
`ptr` goes, and the entry `p` after it. The first entry is never compared. -/
def kmemLiballocFreeWalk (s : Kmem) (ptr : ℕ) :
    ℕ → PageRef → Except Halt (PageRef × Option PageRef)
  | 0, _ => .error .endlessLoop
  | fuel + 1, prev =>
      match s.next prev with
      | none => .ok (prev, none)
      | some p =>
          if (s.kmemInitPages p).ptr < ptr then kmemLiballocFreeWalk s ptr fuel p
          else .ok (prev, some p)

/-- The last branch of `kmem_liballoc_free`: a spare descriptor is put between
`prev` and `p`. Its own test for `kmem_free_pages == NULL` is always false here. -/
def kmemLiballocFreeInsert (s : Kmem) (prev : PageRef) (p : Option PageRef) (ptr size : ℕ) :
    Except Halt Kmem :=
  match s.kmemAllocPages with
  | none => .error .nullPointer
  | some pages =>
      let s := s.setAllocPages (s.next pages)
      let s := s.modify pages (fun _ => { next := p, ptr := ptr, size := uint16 size })
      .ok (s.modify prev (fun d => { d with next := some pages }))

/-- The three ways `kmem_liballoc_free` records the block between `prev` and `p`. -/
def kmemLiballocFreeRecord (s : Kmem) (prev : PageRef) (p : Option PageRef) (ptr size : ℕ) :
    Except Halt Kmem :=
  if s.pagesEnd prev = ptr then
    .ok (s.modify prev (fun d => { d with size := uint16 (d.size + size) }))
  else
    match p with
    | none => kmemLiballocFreeInsert s prev none ptr size
    | some p =>
        if ptr + size * 4096 = (s.kmemInitPages p).ptr then
          .ok (s.modify p (fun d => { d with size := uint16 (d.size + size) }))
        else kmemLiballocFreeInsert s prev (some p) ptr size

/-- The end of `kmem_liballoc_free`: `p` is merged into `prev` when `prev` now
ends where `p` begins, and its descriptor becomes the first spare one. -/
def kmemLiballocFreeMerge (s : Kmem) (prev : PageRef) : Option PageRef → Kmem
  | none => s
  | some p =>
      if s.pagesEnd prev = (s.kmemInitPages p).ptr then
        let s := s.modify prev (fun d =>
          { d with size := uint16 (d.size + (s.kmemInitPages p).size) })
        let s := s.modify prev (fun d => { d with next := s.next p })
        let s := s.modify p (fun d => { d with next := s.kmemAllocPages })
        s.setAllocPages (some p)
      else s

/-- `kmem_liballoc_free`. On an empty free list its guard, which tests
`kmem_free_pages` once more, always panics; nothing behind it runs. -/
def kmemLiballocFree (s : Kmem) (ptr size : ℕ) : Except Halt Kmem :=
  match s.kmemFreePages with
  | none => .error (.kpanic "Cannot free page: not enough free page structs")
  | some head =>
      match kmemLiballocFreeWalk s ptr 8192 head with
      | .error halt => .error halt
      | .ok (prev, p) =>
          match kmemLiballocFreeRecord s prev p ptr size with
          | .error halt => .error halt
          | .ok s => .ok (kmemLiballocFreeMerge s prev p)

end Osserver
