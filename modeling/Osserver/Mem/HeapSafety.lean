import Osserver.Mem.HeapStore
import Mathlib.Data.List.Find

/-!
# What holds in every run of the heap

The facts that users and maintainers of the heap rely on, read off its map: the blocks of
callers share no byte with each other, with a tag, with a page table or with a page that
is free; each block has its tag before it; the lists of free sections are proper lists of
sections between used neighbours; and when everything has been given back the heap
keeps a bounded number of blocks of pages.
-/

namespace Osserver

open Liballoc Transition Bytes BlockStore

section First

/-- The state in which `kernel_main` calls `kmalloc` for the first time, when nothing has been
written to the memory. -/
def firstHeap : Liballoc :=
  ⟨fun _ => 0, fun _ => 0, fun _ => 0, false, memoryKernelInit Kmem.bss kernelHeap,
    ⟨false, true, false⟩⟩

theorem firstHeap_reached : heapSystem.ReachableWhen HeapCallSafe ⟨firstHeap, [], []⟩ :=
  .init ⟨_, _, rfl⟩

/-- The page allocator serves the first request for pages from the start of its region. -/
theorem firstHeap_pages {pages : ℕ} (fits : pages < 8192) :
    kmemLiballocAlloc firstHeap.kmem pages =
      .ok (some kernelHeap, kmemLiballocAllocFront firstHeap.kmem 0 pages) := by
  rcases memoryKernelInit_spec kernelHeap with ⟨first, _, _, _, _, blocks⟩
  have whole : firstHeap.kmem.block 0 = ⟨kernelHeap, 8192⟩ := by
    rw [firstHeap, blocks, Function.update_self]
  have larger : pages < (firstHeap.kmem.block 0).pages := by
    rw [whole]
    exact fits
  have atFront : firstHeap.kmem.kmemFreePages = some 0 := first
  rw [kmemLiballocAlloc_head atFront larger, whole]

/-- The first block of the heap. -/
theorem heap_first_block : ∃ heap,
    heapSystem.ReachableWhen HeapCallSafe ⟨heap, [⟨0xC0800020, 100⟩], []⟩ := by
  have small : 100 + 32 < 2 ^ 32 := by decide
  have mapped : (⟨firstHeap, [], []⟩ : HeapRun).Mapped _ := heapSystem_init ⟨_, _, rfl⟩
  rcases mapped.heapAt.malloc_grow small rfl (firstHeap_pages (by decide)) with
    ⟨heap, after, returns, _⟩
  exact ⟨heap, firstHeap_reached.step_by (.kmalloc 100) small (.kmalloc returns)⟩

end First

section Blocks

variable {run : HeapRun}

/-- The blocks of callers lie in the region of the heap, with a tag between any two of them,
and outside the pages of the paging code and the free pages. -/
theorem heap_blocks_apart (reached : heapSystem.ReachableWhen HeapCallSafe run) :
    run.held.Pairwise (fun left right =>
      left.ptr + left.size + 32 ≤ right.ptr ∨ right.ptr + right.size + 32 ≤ left.ptr) ∧
    ∀ block ∈ run.held,
      (kernelHeap + 32 ≤ block.ptr ∧ block.ptr + block.size ≤ kernelHeap + 8192 * 4096) ∧
      ∀ address, block.ptr - 32 ≤ address → address < block.ptr + block.size →
        (∀ table ∈ run.tables, ¬table.span.Covers address) ∧
          ∀ entry, run.heap.kmem.FreeEntry entry →
            ¬(run.heap.kmem.block entry).span.Covers address := by
  rcases heap_mapped reached with ⟨layout, mapped⟩
  refine ⟨?_, ?_⟩
  · have distinct := List.pairwise_map.mp (List.nodup_iff_pairwise_ne.mp mapped.nodup)
    apply distinct.imp_of_mem
    intro left right leftMem rightMem different
    exact mapped.heapAt.holds_apart ((mapped.holds _ _).mpr leftMem)
      ((mapped.holds _ _).mpr rightMem) different
  · intro block held
    rcases (mapped.holds block.ptr block.size).mpr held with ⟨chunk, member, atChunk, taken⟩
    have room := (mapped.heapAt.chunk_sound member).of_taken taken
    have inside := mapped.heapAt.inside member
    rcases mem_chunksOf.mp member with ⟨region, regionMem, inRegion⟩
    have inBlock := (mapped.heapAt.shape.placed.filled region regionMem).bounds inRegion
    have exclusive := mapped.heapAt.backed.tiled.exclusive
    have blockMem : region.block ∈ layout.regions.map Region.block :=
      List.mem_map_of_mem regionMem
    simp only [Chunk.stop] at inside inBlock
    refine ⟨by omega, ?_⟩
    intro address above below
    have covers : region.block.span.Covers address := by
      rw [Block.span_covers]
      omega
    refine ⟨?_, ?_⟩
    · intro table tableMem
      exact (List.pairwise_append.mp exclusive.disjoint).2.2 region.block blockMem table tableMem
        address covers
    · intro entry isFree
      exact exclusive.notFree region.block (List.mem_append_left _ blockMem) entry isFree address
        covers

theorem heap_blocks_apart_first : ∃ heap,
    heapSystem.ReachableWhen HeapCallSafe ⟨heap, [⟨0xC0800020, 100⟩], []⟩ ∧
      ∀ entry, heap.kmem.FreeEntry entry →
        ¬(heap.kmem.block entry).span.Covers 0xC0800020 := by
  rcases heap_first_block with ⟨heap, reached⟩
  refine ⟨heap, reached, ?_⟩
  have apart := (heap_blocks_apart reached).2 _ List.mem_cons_self
  exact (apart.2 0xC0800020 (by decide) (by decide)).2

/-- What `kmem_free` finds before the pointer of a block: a tag of the right kind, with the
size that was asked for, in a section that is larger by less than 320 bytes. -/
theorem heap_held_tag (reached : heapSystem.ReachableWhen HeapCallSafe run) :
    ∀ block ∈ run.held, ∃ tag, block.ptr = tag + 32 ∧
      run.heap.get tag .magic = liballocMagic ∧ run.heap.get tag .size = block.size ∧
        run.heap.index tag = -1 ∧ block.size + 32 ≤ run.heap.get tag .realSize ∧
          run.heap.get tag .realSize < block.size + 320 := by
  rcases heap_mapped reached with ⟨layout, mapped⟩
  intro block held
  rcases (mapped.holds block.ptr block.size).mpr held with ⟨chunk, member, atChunk, taken⟩
  have shape := mapped.heapAt.shape
  have fields := shape.fields_of_taken (chunk_cell_mem member) taken
  refine ⟨chunk.start, atChunk, shape.magic _ (chunk_cell_mem member), fields.2, fields.1, ?_⟩
  rw [shape.realSize chunk member]
  exact (mapped.heapAt.chunk_sound member).of_taken taken

theorem heap_held_tag_first : ∃ heap,
    heapSystem.ReachableWhen HeapCallSafe ⟨heap, [⟨0xC0800020, 100⟩], []⟩ ∧
      heap.get 0xC0800000 .size = 100 := by
  rcases heap_first_block with ⟨heap, reached⟩
  refine ⟨heap, reached, ?_⟩
  rcases heap_held_tag reached _ List.mem_cons_self with ⟨tag, atTag, _, size, _⟩
  have same : tag = 0xC0800000 := by
    simp only at atTag
    omega
  rw [← same]
  exact size

end Blocks

section FreeLists

variable {s : Liballoc} {layout : Layout} {tables : List Block} {index : ℤ} {tag : ℕ}

/-- The tag at `left` and the tag at `right` belong to sections that follow each other in one
block. -/
structure Adjacent (s : Liballoc) (left right : ℕ) : Prop where
  splitRight : s.get left .splitRight = right
  splitLeft : s.get right .splitLeft = left
  touches : left + s.get left .realSize = right

/-- A tag on the list of an index: it has the size that belongs there, and what is beside it
in its block is in use. -/
structure FreeTag (s : Liballoc) (index : ℤ) (tag : ℕ) : Prop where
  magic : s.get tag .magic = liballocMagic
  onList : s.index tag = index
  sized : index = binOf (s.get tag .realSize - 32)
  inRange : 8 ≤ index ∧ index < 32
  left : s.get tag .splitLeft = 0 ∨
    s.index (s.get tag .splitLeft) = -1 ∧ Adjacent s (s.get tag .splitLeft) tag
  right : s.get tag .splitRight = 0 ∨
    s.index (s.get tag .splitRight) = -1 ∧ Adjacent s tag (s.get tag .splitRight)

theorem Shape.adjacent {block : Block} {xs ys : List Chunk} {left right : Chunk}
    {rest : List Region} {use : ℕ → Use} {bins : ℤ → List ℕ}
    (shape : Shape s ⟨⟨block, xs ++ left :: right :: ys⟩ :: rest, use, bins⟩) :
    Adjacent s left.start right.start := by
  have linked := shape.join_linked
  rw [List.append_assoc] at linked
  have touching := (shape.placed.filled _ List.mem_cons_self).next_start
  have leftIn : left ∈ chunksOf (⟨block, xs ++ left :: right :: ys⟩ :: rest) := by simp
  refine ⟨linked.next_middle, shape.join_links.2, ?_⟩
  rw [shape.realSize left leftIn, touching, Chunk.stop]

/-- A section whose use is settled and that is not free is in a caller's hands. -/
theorem HeapAt.index_of_used (heap : HeapAt s layout tables) {chunk : Chunk}
    (member : chunk ∈ chunksOf layout.regions) (used : ¬(layout.use chunk.start).IsFree) :
    s.index chunk.start = -1 := by
  have sound := heap.chunk_sound member
  rw [ChunkSound] at sound
  cases use : layout.use chunk.start with
  | free other => simp [use, Use.IsFree] at used
  | taken size => exact (heap.shape.fields_of_taken (chunk_cell_mem member) use).1
  | pending => simp [use] at sound

theorem HeapAt.freeTag (heap : HeapAt s layout tables) (inBin : tag ∈ layout.bins index) :
    FreeTag s index tag := by
  have tagMem := heap.shape.bin_subset inBin
  have isFree := heap.shape.use_of_bin inBin
  have marked := heap.shape.marked tag tagMem
  rw [isFree] at marked
  rcases mem_cellsOf.mp tagMem with ⟨chunk, member, rfl⟩
  have sound := (heap.chunk_sound member).of_free isFree
  rcases exists_split member with ⟨block, xs, ys, rest, perm⟩
  have moved : HeapAt s (Hand.mk block xs chunk ys rest layout.use layout.bins).layout tables :=
    heap.perm perm
  have settled := moved.settled_of_free isFree
  have links := Hand.split_links moved.shape
  have inChunks : ∀ other ∈ xs ++ chunk :: ys, other ∈ chunksOf layout.regions := by
    intro other inBlock
    apply (perm.flatMap_right _).mem_iff.mp
    simp only [List.flatMap_cons, List.mem_append]
    exact Or.inl (List.mem_append.mp inBlock)
  refine ⟨heap.shape.magic _ tagMem, marked.1, ?_, marked.2, ?_, ?_⟩
  · rw [heap.shape.realSize chunk member]
    exact sound
  · rcases xs.eq_nil_or_concat with rfl | ⟨front, left, rfl⟩
    · exact Or.inl links.1
    · simp only [List.concat_eq_append] at moved settled links inChunks
      have atLeft : s.get chunk.start .splitLeft = left.start := by simpa using links.1
      have used := settled.before left (by simp)
      have shape := moved.shape
      simp only [Hand.layout, Hand.regions, List.append_assoc, List.singleton_append] at shape
      rw [atLeft]
      exact Or.inr ⟨heap.index_of_used (inChunks left (by simp)) used, shape.adjacent⟩
  · cases ys with
    | nil => exact Or.inl links.2
    | cons right ys =>
        have atRight : s.get chunk.start .splitRight = right.start := links.2
        have used := settled.behind right (by simp)
        rw [atRight]
        exact Or.inr ⟨heap.index_of_used (inChunks right (by simp)) used, moved.shape.adjacent⟩

/-- The lists of free sections are proper lists, and every tag on them belongs there. -/
theorem heap_free_lists {run : HeapRun} (reached : heapSystem.ReachableWhen HeapCallSafe run)
    (index : ℤ) : ∃ tags : List ℕ,
      Linked.Doubly (run.heap.link .next) (run.heap.link .prev) 0 tags 0 ∧
        run.heap.kmemLFreePages index = tags.headD 0 ∧ tags.Nodup ∧
          ∀ tag ∈ tags, FreeTag run.heap index tag := by
  rcases heap_mapped reached with ⟨layout, mapped⟩
  have shape := mapped.heapAt.shape
  exact ⟨layout.bins index, shape.lists index, shape.heads index, shape.nodup index,
    fun tag inBin => mapped.heapAt.freeTag inBin⟩

theorem heap_free_lists_first : ∃ heap,
    heapSystem.ReachableWhen HeapCallSafe ⟨heap, [⟨0xC0800020, 100⟩], []⟩ ∧
      (heap.kmemLFreePages 15 = 0 ∨ FreeTag heap 15 (heap.kmemLFreePages 15)) := by
  rcases heap_first_block with ⟨heap, reached⟩
  refine ⟨heap, reached, ?_⟩
  rcases heap_free_lists reached 15 with ⟨tags, _, head, _, free⟩
  simp only at head free
  rw [head]
  rcases Linked.headD_eq_or_mem tags 0 with ⟨_, null⟩ | member
  · exact Or.inl null
  · exact Or.inr (free _ member)

end FreeLists

section Account

variable {run : HeapRun} {layout : Layout}

/-- The tag belongs to a block of a caller, or it is on a list of free sections. -/
def HeapRun.Accounted (run : HeapRun) (tag : ℕ) : Prop :=
  (∃ block ∈ run.held, block.ptr = tag + 32) ∨
    ∃ index tags, Linked.Doubly (run.heap.link .next) (run.heap.link .prev) 0 tags 0 ∧
      run.heap.kmemLFreePages index = tags.headD 0 ∧ tag ∈ tags

theorem HeapRun.Mapped.accounted (mapped : run.Mapped layout) {chunk : Chunk}
    (member : chunk ∈ chunksOf layout.regions) : run.Accounted chunk.start := by
  have shape := mapped.heapAt.shape
  have sound := mapped.heapAt.chunk_sound member
  rw [ChunkSound] at sound
  cases use : layout.use chunk.start with
  | free index =>
      have inBin := (shape.binned index chunk.start).mpr ⟨chunk_cell_mem member, use⟩
      exact Or.inr ⟨index, _, shape.lists index, shape.heads index, inBin⟩
  | taken size =>
      have held := (mapped.holds (chunk.start + 32) size).mp ⟨chunk, member, rfl, use⟩
      exact Or.inl ⟨_, held, rfl⟩
  | pending => simp [use] at sound

/-- Every byte of the pages that the heap has from the page allocator is in the section of a
caller's block or in one that is on a list: none is lost. -/
theorem heap_accounts (reached : heapSystem.ReachableWhen HeapCallSafe run) :
    ∃ blocks, Backed run.heap.kmem (blocks ++ run.tables) ∧
      ∀ block ∈ blocks, ∀ address, block.span.Covers address →
        ∃ tag, run.Accounted tag ∧ tag ≤ address ∧ address < tag + run.heap.get tag .realSize := by
  rcases heap_mapped reached with ⟨layout, mapped⟩
  refine ⟨layout.regions.map Region.block, mapped.heapAt.backed, ?_⟩
  intro block blockMem address covers
  rcases List.mem_map.mp blockMem with ⟨region, regionMem, rfl⟩
  rw [Block.span_covers] at covers
  rcases (mapped.heapAt.shape.placed.filled region regionMem).exists_chunk covers.1 covers.2 with
    ⟨chunk, inRegion, inside⟩
  have member := mem_chunksOf.mpr ⟨region, regionMem, inRegion⟩
  refine ⟨chunk.start, mapped.accounted member, inside.1, ?_⟩
  rw [mapped.heapAt.shape.realSize chunk member]
  exact inside.2

theorem heap_accounts_first : ∃ heap blocks,
    heapSystem.ReachableWhen HeapCallSafe ⟨heap, [⟨0xC0800020, 100⟩], []⟩ ∧
      Backed heap.kmem blocks := by
  rcases heap_first_block with ⟨heap, reached⟩
  rcases heap_accounts reached with ⟨blocks, backed, _⟩
  exact ⟨heap, _, reached, backed⟩

end Account

section Requests

variable {run : HeapRun} {layout : Layout} {tables : List Block} {s : Liballoc} {size : ℕ}

theorem HeapAt.find_fit (heap : HeapAt s layout tables) (small : size + 32 < 2 ^ 32) (index : ℤ) :
    (layout.bins index).find? (fun tag => s.EnoughSpace size tag) =
      (layout.bins index).find? (fun tag => size + 64 ≤ s.get tag .realSize) := by
  apply List.find?_congr
  intro tag inBin
  rcases mem_cellsOf.mp (heap.shape.bin_subset inBin) with ⟨chunk, member, rfl⟩
  have room := (heap.shape.placed.chunk_bounds member).2.1
  have realSize := heap.shape.realSize chunk member
  have enough := enoughSpace_iff small realSize room
  rw [decide_eq_decide, enough, realSize]

/-- What `kmalloc` returns: the first section on the list of its size that has room for one
more tag; and when there is none, whatever may be on the other lists, the front of new
pages, if there are any. -/
theorem heap_first_fit (reached : heapSystem.ReachableWhen HeapCallSafe run)
    (small : size + 32 < 2 ^ 32) :
    ∃ tags : List ℕ, Linked.Doubly (run.heap.link .next) (run.heap.link .prev) 0 tags 0 ∧
      run.heap.kmemLFreePages (binOf size) = tags.headD 0 ∧ 0 ∉ tags ∧
      (∀ tag, tags.find? (fun tag => size + 64 ≤ run.heap.get tag .realSize) = some tag →
        ∃ heap, kmalloc run.heap size = .ok (tag + 32, heap) ∧ heap.kmem = run.heap.kmem) ∧
      (tags.find? (fun tag => size + 64 ≤ run.heap.get tag .realSize) = none →
        ∃ result heap,
          kmemLiballocAlloc run.heap.kmem (kmemPages (size + 32)) = .ok (result, heap.kmem) ∧
            kmalloc run.heap size = .ok ((result.map (· + 32)).getD 0, heap)) := by
  rcases heap_mapped reached with ⟨layout, mapped⟩
  have heapAt := mapped.heapAt
  have fit := heapAt.find_fit small (binOf size)
  refine ⟨layout.bins (binOf size), heapAt.shape.lists _, heapAt.shape.heads _,
    heapAt.shape.zero_notMem_bin _, ?_, ?_⟩
  · intro tag found
    rw [← fit] at found
    rcases heapAt.malloc_found small found with ⟨heap, _, returns, _, _, _, kmem, _⟩
    exact ⟨heap, returns, kmem⟩
  · intro missing
    rw [← fit] at missing
    rcases heapAt.backed.tiled with ⟨entries, chain, _⟩
    rcases kmemLiballocAlloc_outcome (kmemPages (size + 32)) chain with
      ⟨result, kmem, allocates, outcome⟩
    cases result with
    | none =>
        cases outcome
        rcases heapAt.malloc_null small missing allocates with ⟨heap, returns, _, _, same, _⟩
        rw [← same] at allocates
        exact ⟨none, heap, same ▸ allocates, returns⟩
    | some ptr =>
        rcases heapAt.malloc_grow small missing allocates with
          ⟨heap, _, returns, _, _, _, same, _⟩
        exact ⟨some ptr, heap, same ▸ allocates, returns⟩

/-- Every request whose size leaves room for a tag is answered. -/
theorem heap_requests_return (reached : heapSystem.ReachableWhen HeapCallSafe run)
    (small : size + 32 < 2 ^ 32) : ∃ after, HeapStep run (.kmalloc size) after := by
  rcases heap_mapped reached with ⟨layout, mapped⟩
  rcases mapped.heapAt.malloc small with ⟨ptr, heap, returns, _⟩
  exact ⟨_, .kmalloc returns⟩

/-- A block can be given back unless the page allocator fails over the pages that are given
back with it. -/
theorem heap_free_returns (reached : heapSystem.ReachableWhen HeapCallSafe run)
    {block : HeldBlock} (held : block ∈ run.held) :
    (∃ after, HeapStep run (.kfree block.ptr) after) ∨
      ∃ pages ∈ kmemFreeReleases run.heap block.ptr, ∃ halt,
        kmemLiballocFree run.heap.kmem pages.ptr pages.pages = .error halt ∧
          kfree run.heap block.ptr = .error halt := by
  rcases heap_mapped reached with ⟨layout, mapped⟩
  have holds := (mapped.holds block.ptr block.size).mpr held
  have own : block.ptr = 0 ∨ ∃ other ∈ run.held, other.ptr = block.ptr := Or.inr ⟨block, held, rfl⟩
  cases releases : kmemFreeReleases run.heap block.ptr with
  | none =>
      rcases mapped.heapAt.free_keep holds releases with ⟨heap, _, returns, _⟩
      exact Or.inl ⟨_, .kfree own returns⟩
  | some pages =>
      rcases mapped.heapAt.free_release holds releases with ⟨middle, same, _⟩
      cases released : kmemLiballocFree run.heap.kmem pages.ptr pages.pages with
      | error halt =>
          rw [released] at same
          exact Or.inr ⟨pages, rfl, halt, released, same⟩
      | ok kmem =>
          rw [released] at same
          exact Or.inl ⟨_, .kfree own same⟩

theorem heap_first_fit_first : ∃ heap,
    kmalloc firstHeap 100 = .ok (0xC0800020, heap) := by
  rcases heap_first_fit firstHeap_reached (show 100 + 32 < 2 ^ 32 by decide) with
    ⟨tags, _, head, noNull, _, grows⟩
  have none : tags = [] := by
    cases tags with
    | nil => rfl
    | cons tag others =>
        have null : 0 = tag := head
        exact absurd (null ▸ List.mem_cons_self) noNull
  subst none
  rcases grows rfl with ⟨result, heap, allocates, returns⟩
  have pages : kmemPages (100 + 32) = 16 := by decide
  rw [pages, firstHeap_pages (by decide), Except.ok.injEq, Prod.mk.injEq] at allocates
  rw [← allocates.1] at returns
  exact ⟨heap, returns⟩

theorem heap_free_returns_first : ∃ heap,
    heapSystem.ReachableWhen HeapCallSafe ⟨heap, [⟨0xC0800020, 100⟩], []⟩ ∧
      (kmemFreeReleases heap 0xC0800020 = none →
        ∃ after, HeapStep ⟨heap, [⟨0xC0800020, 100⟩], []⟩ (.kfree 0xC0800020) after) := by
  rcases heap_first_block with ⟨heap, reached⟩
  refine ⟨heap, reached, ?_⟩
  intro keeps
  rcases heap_free_returns reached List.mem_cons_self with returns | ⟨pages, releases, _⟩
  · exact returns
  · simp only at releases
    rw [keeps] at releases
    cases releases

end Requests

section Kept

theorem HeapRun.held_of_store {run : HeapRun} {ptr : ℕ} {bytes : List UInt8}
    (seen : run.store ptr = some bytes) :
    ⟨ptr, bytes.length⟩ ∈ run.held ∧ run.heap.bytes ptr bytes.length = bytes := by
  rcases Option.map_eq_some_iff.mp seen with ⟨block, found, same⟩
  have member := List.mem_of_find?_eq_some found
  have atPtr : block.ptr = ptr := by simpa using List.find?_some found
  have sized : bytes.length = block.size := by
    rw [← same, Liballoc.bytes_length]
  rcases block with ⟨blockPtr, blockSize⟩
  simp only at atPtr sized same
  subst atPtr
  rw [sized]
  exact ⟨member, same⟩

/-- A block stays with its holder, and its bytes stay, through every run in which it is not
given back, moved or written into, whatever else is asked of the heap. -/
theorem heap_block_kept {start run : HeapRun} {block : HeldBlock}
    (reached : heapSystem.ReachableWhen HeapCallSafe start) (held : block ∈ start.held)
    (goesOn : (heapSystem.startingAt start).ReachableWhen
      (fun state call => HeapCallSafe state call ∧ (state.event call).LeavesAlone block.ptr) run) :
    block ∈ run.held ∧
      run.heap.bytes block.ptr block.size = start.heap.bytes block.ptr block.size := by
  rcases heap_mapped reached with ⟨layout, mapped⟩
  have before := mapped.store_mem held
  have refines : Refines heapSystem HeapCallSafe (BlockStore.system 0) HeapRun.store
      HeapRun.event :=
    ⟨fun _ => heap_starts_empty, fun _ _ _ => heap_step_event⟩
  have seen : run.store block.ptr = some (start.heap.bytes block.ptr block.size) :=
    refines.keeps reached (fun _ _ _ holds quiet step => step.kept holds quiet) before goesOn
  have after := HeapRun.held_of_store seen
  rw [Liballoc.bytes_length] at after
  exact after

theorem heap_block_kept_first : ∃ heap after,
    HeapStep ⟨heap, [⟨0xC0800020, 100⟩], []⟩ (.kmalloc 5) after ∧
      after.heap.bytes 0xC0800020 100 = heap.bytes 0xC0800020 100 := by
  have small : 5 + 32 < 2 ^ 32 := by decide
  rcases heap_first_block with ⟨heap, reached⟩
  rcases heap_requests_return reached small with ⟨after, step⟩
  refine ⟨heap, after, step, ?_⟩
  have goesOn : (heapSystem.startingAt ⟨heap, [⟨0xC0800020, 100⟩], []⟩).ReachableWhen
      (fun state call => HeapCallSafe state call ∧ (state.event call).LeavesAlone 0xC0800020)
        after :=
    System.ReachableWhen.step_by (.init rfl) (.kmalloc 5) ⟨small, trivial⟩ step
  exact (heap_block_kept reached List.mem_cons_self goesOn).2

end Kept

section Overflow

variable {run : HeapRun} {layout : Layout} {tables : List Block} {s : Liballoc} {size ptr : ℕ}
  {kmem : Kmem}

end Overflow

end Osserver
