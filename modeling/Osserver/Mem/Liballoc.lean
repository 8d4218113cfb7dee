import Osserver.Interrupt.Basic
import Osserver.Lib.Words
import Osserver.Mem.Kmem
import Mathlib.Algebra.Group.Int.Defs

/-!
# The kernel heap

The model of `generic/sys/mem/kmem_liballoc.c`, the allocator behind `kmalloc`,
`kcalloc`, `krealloc` and `kfree`. A block of pages that it has got from
`kmem_liballoc_alloc` is divided into sections, each of which begins with a
`boundary_tag`; the tags live in the memory that they describe, as the 32 bytes
before the pointer that `kmem_malloc` returns. The neighbours of a section in its
block are linked through `split_left` and `split_right`, and the free sections
through `next` and `prev`, in one list for each power of two.

Pointers and `unsigned int` are natural numbers below 2³², `NULL` is 0, and an
`int` that is kept in a tag is its 32-bit pattern. A walk is given one step of
fuel for each address there is. The debug output is left out.
-/

namespace Osserver

open Bytes

/-- A sum in an `unsigned int`. -/
def add32 (left right : ℕ) : ℕ :=
  (left + right) % 2 ^ 32

/-- A difference in an `unsigned int`. -/
def sub32 (left right : ℕ) : ℕ :=
  (left + (2 ^ 32 - right % 2 ^ 32)) % 2 ^ 32

/-- The `int` with a given bit pattern. -/
def int32 (word : ℕ) : ℤ :=
  if word < 2 ^ 31 then word else (word : ℤ) - 2 ^ 32

/-- The bit pattern of an `int`. -/
def word32 (value : ℤ) : ℕ :=
  (value % 2 ^ 32).toNat

/-- The fields of `struct boundary_tag`. -/
inductive TagField where
  | magic
  | size
  | realSize
  | index
  | splitLeft
  | splitRight
  | next
  | prev
  deriving DecidableEq

/-- Where a field is in the structure; `sizeof(struct boundary_tag)` is 32. -/
def TagField.offset : TagField → ℕ
  | magic => 0
  | size => 4
  | realSize => 8
  | index => 12
  | splitLeft => 16
  | splitRight => 20
  | next => 24
  | prev => 28

/-- `LIBALLOC_MAGIC`. -/
def liballocMagic : ℕ :=
  0xc001c0de

/-- The memory of the kernel, the static variables of the heap, the page allocator
and the interrupt flags that the lock consists of. -/
structure Liballoc where
  memory : ℕ → UInt8
  kmemLFreePages : ℤ → ℕ
  kmemLCompletePages : ℤ → ℤ
  kmemLInitialized : Bool
  kmem : Kmem
  flags : InterruptFlags

namespace Liballoc

/-- `tag->field`. -/
def get (s : Liballoc) (tag : ℕ) (field : TagField) : ℕ :=
  load32 s.memory (tag + field.offset)

/-- `tag->field = value`. -/
def set (s : Liballoc) (tag : ℕ) (field : TagField) (value : ℕ) : Liballoc :=
  { s with memory := store32 s.memory (tag + field.offset) value }

/-- `tag->index`, which is an `int`. -/
def index (s : Liballoc) (tag : ℕ) : ℤ :=
  int32 (s.get tag .index)

def setIndex (s : Liballoc) (tag : ℕ) (value : ℤ) : Liballoc :=
  s.set tag .index (word32 value)

/-- `kmem_l_freePages[index] = tag`. -/
def setFreePages (s : Liballoc) (index : ℤ) (tag : ℕ) : Liballoc :=
  { s with kmemLFreePages := Function.update s.kmemLFreePages index tag }

/-- `kmem_l_completePages[index] += change`. -/
def addCompletePages (s : Liballoc) (index change : ℤ) : Liballoc :=
  { s with
    kmemLCompletePages :=
      Function.update s.kmemLCompletePages index (s.kmemLCompletePages index + change) }

def setKmem (s : Liballoc) (kmem : Kmem) : Liballoc :=
  { s with kmem := kmem }

def lock (s : Liballoc) : Liballoc :=
  { s with flags := kmemLiballocLock s.flags }

def unlock (s : Liballoc) : Liballoc :=
  { s with flags := kmemLiballocUnlock s.flags }

end Liballoc

/-- The loop of `kmem_getexp`, standing at `shift`. -/
def kmemGetexpLoop (size : ℕ) : ℕ → ℕ → ℕ
  | 0, shift => shift
  | fuel + 1, shift =>
      if shift < 32 then
        if 2 ^ shift > size then shift else kmemGetexpLoop size fuel (shift + 1)
      else shift

/-- `kmem_getexp`. The loop has 24 shifts to go through, from `MINEXP` to `MAXEXP`. -/
def kmemGetexp (size : ℕ) : ℤ :=
  if size < 2 ^ 8 then -1 else (kmemGetexpLoop size 24 8 : ℤ) - 1

/-- `if ( index < MINEXP ) index = MINEXP;` -/
def atLeastMinexp (index : ℤ) : ℤ :=
  if index < 8 then 8 else index

/-- The `realIndex` of `kmem_insert_tag`. -/
def kmemRealIndex (s : Liballoc) (tag : ℕ) (index : ℤ) : ℤ :=
  if index < 0 then atLeastMinexp (kmemGetexp (sub32 (s.get tag .realSize) 32)) else index

/-- `kmem_insert_tag`. -/
def kmemInsertTag (s : Liballoc) (tag : ℕ) (index : ℤ) : Liballoc :=
  let realIndex := kmemRealIndex s tag index
  let s := s.setIndex tag realIndex
  let s :=
    if s.kmemLFreePages realIndex ≠ 0 then
      let s := s.set (s.kmemLFreePages realIndex) .prev tag
      s.set tag .next (s.kmemLFreePages realIndex)
    else s
  s.setFreePages realIndex tag

/-- `kmem_remove_tag`. -/
def kmemRemoveTag (s : Liballoc) (tag : ℕ) : Liballoc :=
  let s :=
    if s.kmemLFreePages (s.index tag) = tag then s.setFreePages (s.index tag) (s.get tag .next)
    else s
  let s := if s.get tag .prev ≠ 0 then s.set (s.get tag .prev) .next (s.get tag .next) else s
  let s := if s.get tag .next ≠ 0 then s.set (s.get tag .next) .prev (s.get tag .prev) else s
  let s := s.set tag .next 0
  let s := s.set tag .prev 0
  s.setIndex tag (-1)

/-- `kmem_melt_left`: the tag to the left, and the state after. -/
def kmemMeltLeft (s : Liballoc) (tag : ℕ) : ℕ × Liballoc :=
  let left := s.get tag .splitLeft
  let s := s.set left .realSize (add32 (s.get left .realSize) (s.get tag .realSize))
  let s := s.set left .splitRight (s.get tag .splitRight)
  let s :=
    if s.get tag .splitRight ≠ 0 then s.set (s.get tag .splitRight) .splitLeft left else s
  (left, s)

/-- `kmem_absorb_right`, which returns `tag` itself. -/
def kmemAbsorbRight (s : Liballoc) (tag : ℕ) : Liballoc :=
  let right := s.get tag .splitRight
  let s := kmemRemoveTag s right
  let s := s.set tag .realSize (add32 (s.get tag .realSize) (s.get right .realSize))
  let s := s.set tag .splitRight (s.get right .splitRight)
  if s.get right .splitRight ≠ 0 then s.set (s.get right .splitRight) .splitLeft tag else s

/-- `kmem_split_tag`. The tag that it returns is not used. -/
def kmemSplitTag (s : Liballoc) (tag : ℕ) : Liballoc :=
  let remainder := sub32 (sub32 (s.get tag .realSize) 32) (s.get tag .size)
  let newTag := add32 (add32 tag 32) (s.get tag .size)
  let s := s.set newTag .magic liballocMagic
  let s := s.set newTag .realSize remainder
  let s := s.set newTag .next 0
  let s := s.set newTag .prev 0
  let s := s.set newTag .splitLeft tag
  let s := s.set newTag .splitRight (s.get tag .splitRight)
  let s :=
    if s.get newTag .splitRight ≠ 0 then s.set (s.get newTag .splitRight) .splitLeft newTag
    else s
  let s := s.set tag .splitRight newTag
  let s := s.set tag .realSize (sub32 (s.get tag .realSize) (s.get newTag .realSize))
  kmemInsertTag s newTag (-1)

/-- The number of pages that `usage` bytes need, at least `kmem_l_pageCount`. -/
def kmemPages (usage : ℕ) : ℕ :=
  let pages := usage / 4096
  let pages := if usage % 4096 ≠ 0 then pages + 1 else pages
  if pages < 16 then 16 else pages

/-- The writes of `kmem_allocate_new_tag`. -/
def kmemWriteNewTag (s : Liballoc) (tag size realSize : ℕ) : Liballoc :=
  let s := s.set tag .magic liballocMagic
  let s := s.set tag .size size
  let s := s.set tag .realSize realSize
  let s := s.setIndex tag (-1)
  let s := s.set tag .next 0
  let s := s.set tag .prev 0
  let s := s.set tag .splitLeft 0
  s.set tag .splitRight 0

/-- `kmem_allocate_new_tag`: the tag or `NULL`, and the state after. -/
def kmemAllocateNewTag (s : Liballoc) (size : ℕ) : Except Halt (Option ℕ × Liballoc) :=
  let usage := add32 size 32
  let pages := kmemPages usage
  match kmemLiballocAlloc s.kmem pages with
  | .error halt => .error halt
  | .ok (none, kmem) => .ok (none, s.setKmem kmem)
  | .ok (some tag, kmem) =>
      .ok (some tag, kmemWriteNewTag (s.setKmem kmem) tag size (pages * 4096 % 2 ^ 32))

/-- The initialization in `kmem_malloc`. -/
def kmemMallocInit (s : Liballoc) : Liballoc :=
  if !s.kmemLInitialized then
    { s with
      kmemLFreePages := fun i => if 0 ≤ i ∧ i < 32 then 0 else s.kmemLFreePages i
      kmemLCompletePages := fun i => if 0 ≤ i ∧ i < 32 then 0 else s.kmemLCompletePages i
      kmemLInitialized := true }
  else s

/-- The fuel of a walk over tags: one step for each address. -/
def walkFuel : ℕ :=
  2 ^ 32

/-- There is enough space in a tag. -/
def Liballoc.EnoughSpace (s : Liballoc) (size tag : ℕ) : Prop :=
  sub32 (s.get tag .realSize) 32 ≥ add32 size 32

instance Liballoc.decidableEnoughSpace (s : Liballoc) (size : ℕ) :
    DecidablePred (s.EnoughSpace size) :=
  fun _ => inferInstanceAs (Decidable (_ ≥ _))

/-- The search of `kmem_malloc`, standing at `tag`: the first tag with enough space,
or `NULL`. -/
def kmemMallocSearch (s : Liballoc) (size : ℕ) : ℕ → ℕ → Except Halt ℕ
  | 0, _ => .error .endlessLoop
  | fuel + 1, tag =>
      if tag = 0 then .ok 0
      else if s.EnoughSpace size tag then .ok tag
      else kmemMallocSearch s size fuel (s.get tag .next)

/-- What `kmem_malloc` does with the tag that its search has found. -/
def kmemMallocTake (s : Liballoc) (index : ℤ) (tag : ℕ) : Liballoc :=
  let s := kmemRemoveTag s tag
  if s.get tag .splitLeft = 0 ∧ s.get tag .splitRight = 0 then s.addCompletePages index (-1)
  else s

/-- The end of `kmem_malloc`: the excess space of the tag becomes a tag of its own. -/
def kmemMallocFinish (s : Liballoc) (tag size : ℕ) : Liballoc :=
  let s := s.set tag .size size
  let remainder := sub32 (sub32 (s.get tag .realSize) size) 64
  if int32 remainder > 0 then
    let childIndex := kmemGetexp remainder
    if childIndex ≥ 0 then kmemSplitTag s tag else s
  else s

/-- `kmem_malloc`, with `MODE` at `MODE_BEST`. -/
def kmemMalloc (s : Liballoc) (size : ℕ) : Except Halt (ℕ × Liballoc) :=
  let s := kmemMallocInit s.lock
  let index := atLeastMinexp (kmemGetexp size)
  match kmemMallocSearch s size walkFuel (s.kmemLFreePages index) with
  | .error halt => .error halt
  | .ok found =>
      if found = 0 then
        match kmemAllocateNewTag s size with
        | .error halt => .error halt
        | .ok (none, s) => .ok (0, s.unlock)
        | .ok (some tag, s) => .ok (add32 tag 32, (kmemMallocFinish s tag size).unlock)
      else
        let s := kmemMallocTake s index found
        .ok (add32 found 32, (kmemMallocFinish s found size).unlock)

/-- The first loop of `kmem_free`. -/
def kmemFreeMeltLeft : Liballoc → ℕ → ℕ → Except Halt (ℕ × Liballoc)
  | _, _, 0 => .error .endlessLoop
  | s, tag, fuel + 1 =>
      if s.get tag .splitLeft ≠ 0 ∧ s.index (s.get tag .splitLeft) ≥ 0 then
        let (tag, s) := kmemMeltLeft s tag
        kmemFreeMeltLeft (kmemRemoveTag s tag) tag fuel
      else .ok (tag, s)

/-- The second loop of `kmem_free`. -/
def kmemFreeMeltRight : Liballoc → ℕ → ℕ → Except Halt Liballoc
  | _, _, 0 => .error .endlessLoop
  | s, tag, fuel + 1 =>
      if s.get tag .splitRight ≠ 0 ∧ s.index (s.get tag .splitRight) ≥ 0 then
        kmemFreeMeltRight (kmemAbsorbRight s tag) tag fuel
      else .ok s

/-- The end of `kmem_free`: a block that is whole again goes back to the page
allocator when `MAXCOMPLETE` others stand by. -/
def kmemFreeFinish (s : Liballoc) (tag : ℕ) : Except Halt Liballoc :=
  let index := atLeastMinexp (kmemGetexp (sub32 (s.get tag .realSize) 32))
  if s.get tag .splitLeft = 0 ∧ s.get tag .splitRight = 0 then
    if s.kmemLCompletePages index = 5 then
      match kmemLiballocFree s.kmem tag (kmemPages (s.get tag .realSize)) with
      | .error halt => .error halt
      | .ok kmem => .ok (s.setKmem kmem)
    else .ok (kmemInsertTag (s.addCompletePages index 1) tag index)
  else .ok (kmemInsertTag s tag index)

/-- `kmem_free`. -/
def kmemFree (s : Liballoc) (ptr : ℕ) : Except Halt Liballoc :=
  if ptr = 0 then .ok s
  else
    let s := s.lock
    let tag := sub32 ptr 32
    if s.get tag .magic ≠ liballocMagic then .ok s.unlock
    else
      match kmemFreeMeltLeft s tag walkFuel with
      | .error halt => .error halt
      | .ok (tag, s) =>
          match kmemFreeMeltRight s tag walkFuel with
          | .error halt => .error halt
          | .ok s =>
              match kmemFreeFinish s tag with
              | .error halt => .error halt
              | .ok s => .ok s.unlock

/-- The loop of `kmem_liballoc_memset`: `n` bytes are left, from `s` on. -/
def kmemLiballocMemset (memory : ℕ → UInt8) (s : ℕ) (c : UInt8) : ℕ → ℕ → UInt8
  | 0 => memory
  | n + 1 => kmemLiballocMemset (store8 memory s c) (s + 1) c n

/-- The second loop of `kmem_liballoc_memcpy`, over single bytes. -/
def kmemLiballocMemcpyBytes (memory : ℕ → UInt8) (cdest csrc : ℕ) : ℕ → ℕ → UInt8
  | 0 => memory
  | n + 1 =>
      kmemLiballocMemcpyBytes (store8 memory cdest (load8 memory csrc)) (cdest + 1) (csrc + 1) n

/-- The first loop of `kmem_liballoc_memcpy`, over `words` words, and the second one
over the `rest` of the bytes. -/
def kmemLiballocMemcpyWords (memory : ℕ → UInt8) (ldest lsrc rest : ℕ) : ℕ → ℕ → UInt8
  | 0 => kmemLiballocMemcpyBytes memory ldest lsrc rest
  | words + 1 =>
      kmemLiballocMemcpyWords (store32 memory ldest (load32 memory lsrc)) (ldest + 4) (lsrc + 4)
        rest words

/-- `kmem_liballoc_memcpy`. -/
def kmemLiballocMemcpy (memory : ℕ → UInt8) (s1 s2 n : ℕ) : ℕ → UInt8 :=
  kmemLiballocMemcpyWords memory s1 s2 (n % 4) (n / 4)

/-- Bytes are written from `ptr` on, `n` of them; a write through `NULL` does not
come back. -/
def Liballoc.write (s : Liballoc) (ptr n : ℕ) (memory : ℕ → UInt8) : Except Halt Liballoc :=
  if ptr = 0 ∧ n ≠ 0 then .error .nullPointer else .ok { s with memory := memory }

/-- `kmem_calloc`. -/
def kmemCalloc (s : Liballoc) (nobj size : ℕ) : Except Halt (ℕ × Liballoc) :=
  let realSize := nobj * size % 2 ^ 32
  match kmemMalloc s realSize with
  | .error halt => .error halt
  | .ok (p, s) =>
      match s.write p realSize (kmemLiballocMemset s.memory p 0 realSize) with
      | .error halt => .error halt
      | .ok s => .ok (p, s)

/-- `kmem_realloc`. -/
def kmemRealloc (s : Liballoc) (p size : ℕ) : Except Halt (ℕ × Liballoc) :=
  if size = 0 then
    match kmemFree s p with
    | .error halt => .error halt
    | .ok s => .ok (0, s)
  else if p = 0 then kmemMalloc s size
  else
    let s := s.lock
    let realSize := s.get (sub32 p 32) .size
    let s := s.unlock
    let realSize := if realSize > size then size else realSize
    match kmemMalloc s size with
    | .error halt => .error halt
    | .ok (ptr, s) =>
        match s.write ptr realSize (kmemLiballocMemcpy s.memory ptr p realSize) with
        | .error halt => .error halt
        | .ok s =>
            match kmemFree s p with
            | .error halt => .error halt
            | .ok s => .ok (ptr, s)

/-- `kmalloc`. -/
def kmalloc (s : Liballoc) (size : ℕ) : Except Halt (ℕ × Liballoc) :=
  kmemMalloc s size

/-- `kcalloc`. -/
def kcalloc (s : Liballoc) (count size : ℕ) : Except Halt (ℕ × Liballoc) :=
  kmemCalloc s count size

/-- `krealloc`. -/
def krealloc (s : Liballoc) (ptr size : ℕ) : Except Halt (ℕ × Liballoc) :=
  kmemRealloc s ptr size

/-- `kfree`. -/
def kfree (s : Liballoc) (ptr : ℕ) : Except Halt Liballoc :=
  kmemFree s ptr

end Osserver
