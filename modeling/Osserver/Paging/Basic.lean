import Osserver.Halt
import Osserver.Lib.Stride
import Mathlib.Algebra.Group.Nat.Defs
import Mathlib.Logic.Function.Basic
import Mathlib.Data.List.Range

/-!
# Paging

The model of `i386/pc/paging.c` and of the page tables it is started with by
`bootstrap.asm` and `kernel_premain`. Addresses, directory entries and table
entries are 32-bit words, written as natural numbers; sums of addresses wrap.

The page tables that `paging_map` creates are heap pages. `tables` is what heap
memory holds, as words: a page that `kmem_liballoc_alloc` hands out for a table
is used with the words it happens to have. What the allocator answers is an
argument of the functions here: `alloc slot` is the answer of
`kmem_liballoc_alloc(1)` when a table for the directory slot is asked for, which
a call does at most once for a slot.
-/

namespace Osserver

/-- The static variables of `paging.c` and the memory they point to. -/
structure Paging where
  pagingDir : ℕ → ℕ
  pagingSize : ℕ
  pagingDirectoryMap : ℕ → Option ℕ
  higherPages : ℕ → ℕ
  higherPagesStart : ℕ
  tables : ℕ → ℕ → ℕ

/-- `__32_paging_init`. The table pointers are zero, as `.bss` leaves them. -/
def pagingInit (directory : ℕ → ℕ) (size : ℕ) (hpages : ℕ → ℕ) (hpagesStart : ℕ)
    (memory : ℕ → ℕ → ℕ) : Paging where
  pagingDir := directory
  pagingSize := size
  pagingDirectoryMap := fun _ => none
  higherPages := hpages
  higherPagesStart := hpagesStart
  tables := memory

def pdindex (virt : ℕ) : ℕ :=
  virt / 2 ^ 22

def ptindex (virt : ℕ) : ℕ :=
  virt / 2 ^ 12 % 1024

/-- `word & ~0xFFF`. -/
def frame (word : ℕ) : ℕ :=
  word / 4096 * 4096

/-- `paging_get_physical`; `NULL` is 0. -/
def pagingGetPhysical (s : Paging) (virt : ℕ) : Except Halt ℕ :=
  if pdindex virt ≥ s.higherPagesStart then
    .ok (frame (s.higherPages ((pdindex virt - s.higherPagesStart) * 4096 + ptindex virt)) +
      virt % 4096)
  else if s.pagingDir (pdindex virt) = 0 then .ok 0
  else
    match s.pagingDirectoryMap (pdindex virt) with
    | none => .error .nullPointer
    | some table =>
        if s.tables table (ptindex virt) = 0 then .ok 0
        else .ok (frame (s.tables table (ptindex virt)) + virt % 4096)

namespace Paging

/-- A table is entered for a directory slot. -/
def setSlot (s : Paging) (slot word table : ℕ) : Paging :=
  { s with
    pagingDir := Function.update s.pagingDir slot word
    pagingDirectoryMap := Function.update s.pagingDirectoryMap slot (some table) }

/-- A word of a table is written. -/
def setEntry (s : Paging) (table index word : ℕ) : Paging :=
  { s with
    tables := Function.update s.tables table (Function.update (s.tables table) index word) }

end Paging

/-- The part of `paging_map` that gives a directory slot its table. -/
def pagingMapTable (alloc : ℕ → Option ℕ) (s : Paging) (slot : ℕ) : Except Halt Paging :=
  if s.pagingDir slot = 0 then
    match alloc slot with
    | none => .error (.kpanic "OOM")
    | some table =>
        match pagingGetPhysical s table with
        | .error halt => .error halt
        | .ok phys => .ok (s.setSlot slot (phys ||| 3) table)
  else .ok s

/-- The word `paging_map` writes for the page at offset `off`. -/
def pagingMapWord (phys flags off : ℕ) : ℕ :=
  frame ((phys + off) % 2 ^ 32) ||| flags ||| 1

/-- One pass of the loop of `paging_map`. -/
def pagingMapBody (alloc : ℕ → Option ℕ) (phys virt flags off : ℕ) (s : Paging) :
    Except Halt (Bool × Paging) :=
  if pdindex ((virt + off) % 2 ^ 32) > s.pagingSize then .ok (false, s)
  else
    match pagingMapTable alloc s (pdindex ((virt + off) % 2 ^ 32)) with
    | .error halt => .error halt
    | .ok s =>
        match s.pagingDirectoryMap (pdindex ((virt + off) % 2 ^ 32)) with
        | none => .error .nullPointer
        | some table =>
            if s.tables table (ptindex ((virt + off) % 2 ^ 32)) ≠ 0 then .ok (false, s)
            else .ok (true, s.setEntry table (ptindex ((virt + off) % 2 ^ 32))
              (pagingMapWord phys flags off))

/-- `paging_map`. An offset below 2^32 comes again after 2^20 passes. -/
def pagingMap (alloc : ℕ → Option ℕ) (s : Paging) (phys virt size flags : ℕ) :
    Except Halt (Bool × Paging) :=
  Stride.loop .endlessLoop (pagingMapBody alloc phys virt flags) 4096 (2 ^ 32) size
    (2 ^ 20 + 1) 0 s

/-- One pass of the loop of `paging_unmap`. -/
def pagingUnmapBody (virt off : ℕ) (s : Paging) : Except Halt (Bool × Paging) :=
  if pdindex ((virt + off) % 2 ^ 32) > s.pagingSize then .ok (false, s)
  else if s.pagingDir (pdindex ((virt + off) % 2 ^ 32)) = 0 then .ok (true, s)
  else
    match s.pagingDirectoryMap (pdindex ((virt + off) % 2 ^ 32)) with
    | none => .error .nullPointer
    | some table =>
        if s.tables table (ptindex ((virt + off) % 2 ^ 32)) ≠ 0 then
          .ok (true, s.setEntry table (ptindex ((virt + off) % 2 ^ 32)) 0)
        else .ok (true, s)

/-- `paging_unmap`. -/
def pagingUnmap (s : Paging) (virt size : ℕ) : Except Halt (Bool × Paging) :=
  Stride.loop .endlessLoop (pagingUnmapBody virt) 4096 (2 ^ 32) size (2 ^ 20 + 1) 0 s

/-- The page directory of `bootstrap.asm` behind `_higher_half`, which has cleared
slot 0. `bootPages` is the physical address of `boot_page_1`; the seven further
tables of the heap and `dev_page` lie behind it. -/
def bootPageDirectory (bootPages slot : ℕ) : ℕ :=
  if slot = 768 then 0x00000083
  else if slot = 769 then 0x00100083
  else if 770 ≤ slot ∧ slot ≤ 778 then bootPages + (slot - 770) * 4096 + 3
  else 0

/-- The loop of `kernel_premain` that fills the tables of the heap, for the memory
region at `addr`. The words behind the 8192 entries are what memory holds there. -/
def kernelPremainPages (addr : ℕ) (memory : ℕ → ℕ) : ℕ → ℕ :=
  (List.range 8192).foldl
    (fun pages i => Function.update pages i ((addr + i * 4096 + 0x300000 ||| 3) % 2 ^ 32)) memory

/-- Paging as `kernel_premain` sets it up. -/
def kernelPremainPaging (bootPages addr : ℕ) (behind : ℕ → ℕ) (memory : ℕ → ℕ → ℕ) : Paging :=
  pagingInit (bootPageDirectory bootPages) 768 (kernelPremainPages addr behind) 770 memory

end Osserver
