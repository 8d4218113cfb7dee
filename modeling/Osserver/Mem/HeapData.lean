import Osserver.Mem.HeapFree
import Mathlib.Data.List.Range

/-!
# The bytes in the hands of callers

The heap keeps its tags between the blocks that it has handed out, so what matters to a
caller is that no call writes into a block that someone holds, except that
`kmem_calloc` clears the new block and `kmem_realloc` copies the old one into it.
-/

namespace Osserver

open Liballoc Bytes

section Copying

variable {memory : ℕ → UInt8} {target source count rest words : ℕ} {byte : UInt8}

theorem kmemLiballocMemset_eq (fits : target + count ≤ 2 ^ 32) :
    kmemLiballocMemset memory target byte count = filled memory target byte count := by
  induction count generalizing memory target with
  | zero => exact filled_zero.symm
  | succ count ih =>
      rw [kmemLiballocMemset, ih (by omega), store8_eq_filled (by omega), filled_append,
        Nat.add_comm 1 count]

theorem kmemLiballocMemcpyBytes_eq (fits : target + count ≤ 2 ^ 32)
    (sourceFits : source + count ≤ 2 ^ 32)
    (apart : target + count ≤ source ∨ source + count ≤ target) :
    kmemLiballocMemcpyBytes memory target source count = copied memory target source count := by
  induction count generalizing memory target source with
  | zero => exact copied_zero.symm
  | succ count ih =>
      rw [kmemLiballocMemcpyBytes, ih (by omega) (by omega) (by omega),
        store8_eq_copied (by omega) (by omega), copied_append (by omega), Nat.add_comm 1 count]

theorem kmemLiballocMemcpyWords_eq (fits : target + (words * 4 + rest) ≤ 2 ^ 32)
    (sourceFits : source + (words * 4 + rest) ≤ 2 ^ 32)
    (apart : target + (words * 4 + rest) ≤ source ∨ source + (words * 4 + rest) ≤ target) :
    kmemLiballocMemcpyWords memory target source rest words =
      copied memory target source (words * 4 + rest) := by
  induction words generalizing memory target source with
  | zero =>
      rw [kmemLiballocMemcpyWords,
        kmemLiballocMemcpyBytes_eq (by omega) (by omega) (by omega), Nat.zero_mul, Nat.zero_add]
  | succ words ih =>
      have split : (words + 1) * 4 + rest = 4 + (words * 4 + rest) := by omega
      rw [kmemLiballocMemcpyWords, ih (by omega) (by omega) (by omega),
        store32_eq_copied (by omega) (by omega), copied_append (by omega), split]

/-- `kmem_liballoc_memcpy` copies, word by word and then byte by byte, between two places that
do not overlap. -/
theorem kmemLiballocMemcpy_eq (fits : target + count ≤ 2 ^ 32)
    (sourceFits : source + count ≤ 2 ^ 32)
    (apart : target + count ≤ source ∨ source + count ≤ target) :
    kmemLiballocMemcpy memory target source count = copied memory target source count := by
  have split : count / 4 * 4 + count % 4 = count := by omega
  rw [kmemLiballocMemcpy, kmemLiballocMemcpyWords_eq (by omega) (by omega) (by omega), split]

end Copying

/-- `kmem_realloc` of a block, up to its call of `kmem_free`. -/
def kmemReallocMove (s : Liballoc) (p size : ℕ) : Except Halt (ℕ × Liballoc) :=
  let s := s.lock
  let realSize := s.get (sub32 p 32) .size
  let s := s.unlock
  let realSize := if realSize > size then size else realSize
  match kmemMalloc s size with
  | .error halt => .error halt
  | .ok (ptr, s) =>
      match s.write ptr realSize (kmemLiballocMemcpy s.memory ptr p realSize) with
      | .error halt => .error halt
      | .ok s => .ok (ptr, s)

theorem kmemRealloc_eq {s : Liballoc} {p size : ℕ} (positive : size ≠ 0) (notNull : p ≠ 0) :
    kmemRealloc s p size = (kmemReallocMove s p size).bind
      (fun moved => (kmemFree moved.2 p).map (fun s => (moved.1, s))) := by
  simp only [kmemRealloc, if_neg positive, if_neg notNull, kmemReallocMove]
  cases kmemMalloc s.lock.unlock size with
  | error halt => rfl
  | ok result =>
      dsimp only
      cases result.2.write result.1 _ _ with
      | error halt => rfl
      | ok middle =>
          dsimp only [Except.bind]
          cases kmemFree middle p with
          | error halt => rfl
          | ok s => rfl

/-- The `size` bytes from `ptr` on. -/
def Liballoc.bytes (s : Liballoc) (ptr size : ℕ) : List UInt8 :=
  (List.range size).map (fun offset => s.memory (ptr + offset))

/-- The address is no business of the heap: it lies in a page of the paging code, or outside
the region that the page allocator hands out. -/
def Foreign (tables : List Block) (address : ℕ) : Prop :=
  (∃ table ∈ tables, table.span.Covers address) ∨
    address < kernelHeap ∨ kernelHeap + 8192 * 4096 ≤ address

/-- What is in the blocks that callers hold stays, and so does what is foreign to the heap. -/
structure Layout.Keeps (layout : Layout) (tables : List Block) (s s' : Liballoc) : Prop where
  held : ∀ ptr size, layout.Holds ptr size → s'.bytes ptr size = s.bytes ptr size
  foreign : ∀ address, Foreign tables address → s'.memory address = s.memory address

section Bytes

variable {s s' : Liballoc} {ptr size offset : ℕ}

theorem Liballoc.bytes_length (s : Liballoc) (ptr size : ℕ) : (s.bytes ptr size).length = size := by
  simp [Liballoc.bytes]

theorem Liballoc.bytes_congr (same : ∀ offset < size,
    s'.memory (ptr + offset) = s.memory (ptr + offset)) : s'.bytes ptr size = s.bytes ptr size := by
  apply List.map_congr_left
  intro offset member
  exact same offset (List.mem_range.mp member)

theorem Liballoc.bytes_take {count : ℕ} (atMost : count ≤ size) :
    (s.bytes ptr size).take count = s.bytes ptr count := by
  rw [Liballoc.bytes, Liballoc.bytes, ← List.map_take, List.take_range, Nat.min_eq_left atMost]

end Bytes

section Payload

variable {s s' : Liballoc} {layout after : Layout} {tables : List Block} {ptr size other bytes : ℕ}

/-- No tag of the heap reaches into a block that a caller holds. -/
theorem HeapAt.payload_apart (heap : HeapAt s layout tables) (holds : layout.Holds ptr size)
    {tag : ℕ} (tagMem : tag ∈ cellsOf layout.regions) : ptr + size ≤ tag ∨ tag + 32 ≤ ptr := by
  rcases holds with ⟨chunk, member, rfl, taken⟩
  rcases mem_cellsOf.mp tagMem with ⟨other, otherMem, rfl⟩
  have room := (heap.chunk_sound member).of_taken taken
  have otherRoom := heap.shape.placed.chunk_bounds otherMem
  rcases heap.shape.placed.eq_or_apart member otherMem with rfl | apart
  · exact Or.inr (Nat.le_refl _)
  · rw [Chunk.Apart, Chunk.stop, Chunk.stop] at apart
    omega

/-- Two blocks that callers hold do not overlap; at least a tag is between them. -/
theorem HeapAt.holds_apart (heap : HeapAt s layout tables) (holds : layout.Holds ptr size)
    (otherHolds : layout.Holds other bytes) (different : ptr ≠ other) :
    ptr + size + 32 ≤ other ∨ other + bytes + 32 ≤ ptr := by
  rcases holds with ⟨chunk, member, rfl, taken⟩
  rcases otherHolds with ⟨next, nextMem, rfl, nextTaken⟩
  have room := (heap.chunk_sound member).of_taken taken
  have nextRoom := (heap.chunk_sound nextMem).of_taken nextTaken
  rcases heap.shape.placed.eq_or_apart member nextMem with rfl | apart
  · exact absurd rfl different
  · rw [Chunk.Apart, Chunk.stop, Chunk.stop] at apart
    omega

/-- No section of the heap reaches a foreign address. -/
theorem HeapAt.chunk_foreign (heap : HeapAt s layout tables) {address : ℕ}
    (foreign : Foreign tables address) {chunk : Chunk} (member : chunk ∈ chunksOf layout.regions) :
    address < chunk.start ∨ chunk.stop ≤ address := by
  rcases foreign with ⟨table, tableMem, covers⟩ | outside
  · rcases mem_chunksOf.mp member with ⟨region, regionMem, inRegion⟩
    rcases heap.backed.tiled with ⟨entries, _, owned⟩
    have handedOut := (List.pairwise_append.mp owned.pairwise_apart).2.1
    have apart := (List.pairwise_append.mp handedOut).2.2 region.block
      (List.mem_map_of_mem regionMem) table tableMem
    have inside := (heap.shape.placed.filled region regionMem).bounds inRegion
    rw [Block.span_covers] at covers
    rcases apart with before | behind
    · exact Or.inr (by omega)
    · exact Or.inl (by omega)
  · have inside := heap.inside member
    omega

theorem HeapAt.tag_foreign (heap : HeapAt s layout tables) {address : ℕ}
    (foreign : Foreign tables address) {tag : ℕ} (tagMem : tag ∈ cellsOf layout.regions) :
    address < tag ∨ tag + 32 ≤ address := by
  rcases mem_cellsOf.mp tagMem with ⟨chunk, member, rfl⟩
  have room := heap.shape.placed.chunk_bounds member
  have apart := heap.chunk_foreign foreign member
  simp only [Chunk.stop] at apart
  omega

theorem HeapAt.payload_foreign (heap : HeapAt s layout tables) {address : ℕ}
    (foreign : Foreign tables address) (holds : layout.Holds ptr size) :
    address < ptr ∨ ptr + size ≤ address := by
  rcases holds with ⟨chunk, member, rfl, taken⟩
  have room := (heap.chunk_sound member).of_taken taken
  have apart := heap.chunk_foreign foreign member
  simp only [Chunk.stop] at apart
  omega

/-- A call that writes tags only, those before it and those behind it, leaves a block alone
that is held all the time. -/
theorem HeapAt.payload_kept (heap : HeapAt s layout tables) (heapAfter : HeapAt s' after tables)
    (touches : Touches (cellsOf layout.regions ++ cellsOf after.regions) s s')
    (holds : layout.Holds ptr size) (still : after.Holds ptr size) :
    s'.bytes ptr size = s.bytes ptr size := by
  apply Liballoc.bytes_congr
  intro offset inside
  apply touches
  intro tag member
  rcases List.mem_append.mp member with before | behind
  · have apart := heap.payload_apart holds before
    omega
  · have apart := heapAfter.payload_apart still behind
    omega

/-- A call that writes tags only leaves every block alone that was held before it. -/
theorem HeapAt.keeps_of_touches (heap : HeapAt s layout tables)
    (touches : Touches (cellsOf layout.regions) s s') : layout.Keeps tables s s' := by
  refine ⟨?_, ?_⟩
  · intro ptr size holds
    apply Liballoc.bytes_congr
    intro offset inside
    apply touches
    intro tag member
    have apart := heap.payload_apart holds member
    omega
  · intro address foreign
    exact touches address fun _ member => heap.tag_foreign foreign member

/-- Writes beside the tags do not concern the heap. -/
theorem HeapAt.write (heap : HeapAt s layout tables) {memory : ℕ → UInt8}
    (same : ∀ tag ∈ cellsOf layout.regions, ∀ address, tag ≤ address → address < tag + 32 →
      memory address = s.memory address) : HeapAt { s with memory := memory } layout tables := by
  refine ⟨heap.shape.of_same ?_ rfl, heap.sound, heap.counted, heap.atMost, heap.backed, heap.empty⟩
  intro tag member field
  exact get_congr (heap.shape.roomy.fits tag member) (same tag member) field

/-- The caller who holds a block writes into it. -/
theorem HeapAt.write_payload (heap : HeapAt s layout tables) (holds : layout.Holds ptr size)
    (memory : ℕ → UInt8) (same : ∀ address, address < ptr ∨ ptr + size ≤ address →
      memory address = s.memory address) :
    HeapAt { s with memory := memory } layout tables ∧
      ∀ other bytes, layout.Holds other bytes → other ≠ ptr →
        ({ s with memory := memory } : Liballoc).bytes other bytes = s.bytes other bytes := by
  refine ⟨heap.write ?_, ?_⟩
  · intro tag member address above below
    have apart := heap.payload_apart holds member
    exact same address (by omega)
  · intro other bytes otherHolds different
    have apart := heap.holds_apart holds otherHolds different.symm
    apply Liballoc.bytes_congr
    intro offset inside
    exact same (other + offset) (by omega)

theorem HeapAt.payload_fits (heap : HeapAt s layout tables) (holds : layout.Holds ptr size) :
    ptr + size ≤ 2 ^ 32 := by
  rcases heap.holds_bounds holds with ⟨chunk, _, _, _, inside, fits⟩
  omega

theorem Layout.Gives.keeps (gives : layout.Gives ptr size after) (heap : HeapAt s layout tables)
    (heapAfter : HeapAt s' after tables)
    (touches : Touches (cellsOf layout.regions ++ cellsOf after.regions) s s') :
    layout.Keeps tables s s' := by
  refine ⟨?_, ?_⟩
  · intro other bytes holds
    have still := (gives.holds other bytes).mpr (Or.inr holds)
    exact heap.payload_kept heapAfter touches holds still
  · intro address foreign
    apply touches
    intro tag member
    rcases List.mem_append.mp member with before | behind
    · exact heap.tag_foreign foreign before
    · exact heapAfter.tag_foreign foreign behind

/-- Behind a request the new block is written into. -/
theorem Layout.Gives.keeps_write {middle : Liballoc} {memory : ℕ → UInt8}
    (gives : layout.Gives ptr size after) (keeps : layout.Keeps tables s middle)
    (heapAfter : HeapAt middle after tables)
    (same : ∀ address, address < ptr ∨ ptr + size ≤ address →
      memory address = middle.memory address)
    (others : ∀ other bytes, after.Holds other bytes → other ≠ ptr →
      ({ middle with memory := memory } : Liballoc).bytes other bytes = middle.bytes other bytes) :
    layout.Keeps tables s { middle with memory := memory } := by
  refine ⟨?_, ?_⟩
  · intro other bytes otherHolds
    have different : other ≠ ptr := by
      rintro rfl
      exact gives.fresh bytes otherHolds
    rw [others other bytes ((gives.holds _ _).mpr (Or.inr otherHolds)) different]
    exact keeps.held other bytes otherHolds
  · intro address foreign
    have new : after.Holds ptr size := (gives.holds _ _).mpr (Or.inl ⟨rfl, rfl⟩)
    have outside := heapAfter.payload_foreign foreign new
    exact (same address outside).trans (keeps.foreign address foreign)

end Payload

section Calls

variable {s s' : Liballoc} {layout : Layout} {tables : List Block} {ptr size nobj : ℕ}

theorem HeapAt.malloc_returns (heap : HeapAt s layout tables) (small : size + 32 < 2 ^ 32)
    (returns : kmemMalloc s size = .ok (ptr, s')) :
    (ptr = 0 ∧ HeapAt s' layout tables ∧ s'.memory = s.memory) ∨
      ∃ after, HeapAt s' after tables ∧ layout.Gives ptr size after ∧
        layout.Keeps tables s s' := by
  rcases heap.malloc small with ⟨result, behind, same, _, outcome⟩
  rw [returns] at same
  cases same
  rcases outcome with ⟨null, heapAfter, memory, _⟩ | ⟨after, heapAfter, gives, touches⟩
  · exact Or.inl ⟨null, heapAfter, memory⟩
  · exact Or.inr ⟨after, heapAfter, gives, gives.keeps heap heapAfter touches⟩

theorem Liballoc.bytes_filled {byte : UInt8} :
    ({ s with memory := filled s.memory ptr byte size } : Liballoc).bytes ptr size =
      List.replicate size byte := by
  refine List.eq_replicate_iff.mpr ⟨Liballoc.bytes_length _ _ _, ?_⟩
  intro value member
  rcases List.mem_map.mp member with ⟨offset, inside, rfl⟩
  have below := List.mem_range.mp inside
  exact if_pos (by omega)

theorem HeapAt.calloc_returns (heap : HeapAt s layout tables)
    (small : nobj * size % 2 ^ 32 + 32 < 2 ^ 32) (returns : kmemCalloc s nobj size = .ok (ptr, s')) :
    (ptr = 0 ∧ nobj * size % 2 ^ 32 = 0 ∧ HeapAt s' layout tables ∧ s'.memory = s.memory) ∨
      ∃ after, HeapAt s' after tables ∧ layout.Gives ptr (nobj * size % 2 ^ 32) after ∧
        layout.Keeps tables s s' ∧
          s'.bytes ptr (nobj * size % 2 ^ 32) = List.replicate (nobj * size % 2 ^ 32) 0 := by
  rw [kmemCalloc] at returns
  generalize nobj * size % 2 ^ 32 = realSize at *
  cases allocates : kmemMalloc s realSize with
  | error halt => simp [allocates] at returns
  | ok result =>
      rcases result with ⟨p, middle⟩
      rw [allocates] at returns
      simp only [Liballoc.write] at returns
      split at returns
      · cases returns
      · rename_i written
        split at written
        · cases written
        · rename_i notNull
          cases written
          cases returns
          rcases heap.malloc_returns small allocates with
            ⟨rfl, heapAfter, memory⟩ | ⟨after, heapAfter, gives, keeps⟩
          · have none : realSize = 0 := by simpa using notNull
            subst none
            exact Or.inl ⟨rfl, rfl, heapAfter, memory⟩
          · have holds : after.Holds ptr realSize := (gives.holds _ _).mpr (Or.inl ⟨rfl, rfl⟩)
            have fits := heapAfter.payload_fits holds
            rw [kmemLiballocMemset_eq fits]
            have clears := heapAfter.write_payload holds (filled middle.memory ptr 0 realSize)
              (fun address outside => if_neg (by omega))
            refine Or.inr ⟨after, clears.1, gives, ?_, Liballoc.bytes_filled⟩
            exact gives.keeps_write keeps heapAfter
              (fun address outside => if_neg (by omega)) clears.2

theorem HeapAt.free_returns (heap : HeapAt s layout tables) (holds : layout.Holds ptr size)
    (safe : FreeSafe s ptr) (returns : kmemFree s ptr = .ok s') :
    ∃ after, HeapAt s' after tables ∧ layout.Takes ptr after ∧ layout.Keeps tables s s' := by
  cases releases : kmemFreeReleases s ptr with
  | none =>
      rcases heap.free_keep holds releases with
        ⟨result, after, same, heapAfter, takes, touches, _⟩
      rw [returns] at same
      cases same
      exact ⟨after, heapAfter, takes, heap.keeps_of_touches touches⟩
  | some block =>
      rcases heap.free_release holds releases with ⟨middle, same, behind⟩
      rw [returns] at same
      cases released : kmemLiballocFree s.kmem block.ptr block.pages with
      | error halt => simp [released, Except.map] at same
      | ok kmem =>
          rw [released] at same
          cases same
          rcases behind kmem released (safe block releases) with
            ⟨after, heapAfter, takes, touches, _⟩
          exact ⟨after, heapAfter, takes, heap.keeps_of_touches touches⟩

theorem Liballoc.bytes_copied {source : ℕ} :
    ({ s with memory := copied s.memory ptr source size } : Liballoc).bytes ptr size =
      s.bytes source size := by
  apply List.map_congr_left
  intro offset member
  have below := List.mem_range.mp member
  have inside : ptr ≤ ptr + offset ∧ ptr + offset < ptr + size := by omega
  simp only [copied, if_pos inside, Nat.add_sub_cancel_left]

/-- `kmem_realloc` copies what fits of the old block into a new one. -/
theorem HeapAt.move_returns {p old : ℕ} (heap : HeapAt s layout tables)
    (holds : layout.Holds p old) (small : size + 32 < 2 ^ 32)
    (returns : kmemReallocMove s p size = .ok (ptr, s')) :
    (ptr = 0 ∧ min old size = 0 ∧ HeapAt s' layout tables ∧ s'.memory = s.memory) ∨
      ∃ after, HeapAt s' after tables ∧ layout.Gives ptr size after ∧
        layout.Keeps tables s s' ∧
        s'.bytes ptr (min old size) = s.bytes p (min old size) := by
  have sizeIs : s.lock.get (sub32 p 32) .size = old := by
    rcases holds with ⟨chunk, member, rfl, taken⟩
    rw [heap.tag_eq member]
    exact (heap.shape.fields_of_taken (chunk_cell_mem member) taken).2
  have smaller : (if old > size then size else old) = min old size := by
    split <;> omega
  rw [kmemReallocMove] at returns
  simp only [sizeIs, smaller] at returns
  cases allocates : kmemMalloc s.lock.unlock size with
  | error halt => simp [allocates] at returns
  | ok result =>
      rcases result with ⟨q, middle⟩
      rw [allocates] at returns
      simp only [Liballoc.write] at returns
      split at returns
      · cases returns
      · rename_i written
        split at written
        · cases written
        · rename_i notNull
          cases written
          cases returns
          rcases heap.lock.unlock.malloc_returns small allocates with
            ⟨rfl, heapAfter, memory⟩ | ⟨after, heapAfter, gives, keeps⟩
          · have none : min old size = 0 := by
              by_contra positive
              exact notNull ⟨rfl, positive⟩
            rw [none]
            exact Or.inl ⟨rfl, rfl, heapAfter, memory⟩
          · have new : after.Holds ptr size := (gives.holds _ _).mpr (Or.inl ⟨rfl, rfl⟩)
            have still : after.Holds p old := (gives.holds _ _).mpr (Or.inr holds)
            have different : p ≠ ptr := by
              rintro rfl
              exact gives.fresh old holds
            have fits := heapAfter.payload_fits new
            have sourceFits := heapAfter.payload_fits still
            have apart := heapAfter.holds_apart new still different.symm
            have copies : kmemLiballocMemcpy middle.memory ptr p (min old size) =
                copied middle.memory ptr p (min old size) :=
              kmemLiballocMemcpy_eq (by omega) (by omega) (by omega)
            rw [copies]
            have moves := heapAfter.write_payload new (copied middle.memory ptr p (min old size))
              (fun address outside => if_neg (by omega))
            refine Or.inr ⟨after, moves.1, gives, ?_, ?_⟩
            · exact gives.keeps_write ⟨keeps.held, keeps.foreign⟩ heapAfter
                (fun address outside => if_neg (by omega)) moves.2
            · have kept := congrArg (List.take (min old size)) (keeps.held p old holds)
              rw [Liballoc.bytes_take (by omega), Liballoc.bytes_take (by omega)] at kept
              rw [Liballoc.bytes_copied, kept]
              rfl

end Calls

end Osserver
