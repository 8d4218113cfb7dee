import Osserver.Mem.HeapSections
import Osserver.Mem.Ownership
import Mathlib.Data.List.Chain
import Mathlib.Data.List.Perm.Basic

/-!
# The invariant of the heap

What holds of the heap between two calls. Beside the tags, which are those of a
layout, these are the rules that `kmem_liballoc.c` follows without stating them:
a section in use has room for what was asked for, and little more; a free section is
on the list that its size belongs to; no two neighbours are both free; a block that
is one free section is counted, and at most `MAXCOMPLETE` are kept for an index; and
the blocks are those that the page allocator has handed out.
-/

namespace Osserver

open Liballoc

/-- The address that `kernel_main` gives to `memory_kernel_init`. -/
def kernelHeap : ℕ :=
  0xC0800000

/-- A run of the page allocator, all of whose releases are safe, has handed out the blocks
and not taken them back. -/
def Backed (kmem : Kmem) (blocks : List Block) : Prop :=
  ∃ outstanding, blocks.Perm outstanding ∧
    (kmemSystem kernelHeap).ReachableWhen CallSafe ⟨kmem, outstanding⟩

namespace Backed

variable {kmem after : Kmem} {blocks other : List Block}

theorem perm (backed : Backed kmem blocks) (perm : other.Perm blocks) : Backed kmem other := by
  rcases backed with ⟨outstanding, same, reached⟩
  exact ⟨outstanding, perm.trans same, reached⟩

theorem tiled (backed : Backed kmem blocks) : KmemRun.Tiled kernelHeap ⟨kmem, blocks⟩ := by
  rcases backed with ⟨outstanding, same, reached⟩
  rcases KmemRun.tiled_of_reachable reached with ⟨entries, chain, owned⟩
  exact ⟨entries, chain, owned.perm same⟩

theorem alloc (backed : Backed kmem blocks) {pages ptr : ℕ} (positive : 1 ≤ pages)
    (returns : kmemLiballocAlloc kmem pages = .ok (some ptr, after)) :
    Backed after (⟨ptr, pages⟩ :: blocks) := by
  rcases backed with ⟨outstanding, same, reached⟩
  exact ⟨_, same.cons _, reached.step_by (.alloc pages) trivial (.alloc positive returns)⟩

theorem free (backed : Backed kmem blocks) {block : Block} (held : block ∈ blocks)
    (safe : kmem.ReleaseSafe block)
    (returns : kmemLiballocFree kmem block.ptr block.pages = .ok after) :
    Backed after (blocks.erase block) := by
  rcases backed with ⟨outstanding, same, reached⟩
  exact ⟨_, same.erase block,
    reached.step_by (.free block) safe (.free (same.mem_iff.mp held) returns)⟩

end Backed

def Use.IsFree : Use → Prop
  | .free _ => True
  | _ => False

/-- What the heap sees to for one section. A section in use is larger than what was
asked for by less than would be cut off. -/
def ChunkSound (use : ℕ → Use) (chunk : Chunk) : Prop :=
  match use chunk.start with
  | .free index => index = binOf (chunk.length - 32)
  | .taken size => size + 32 ≤ chunk.length ∧ chunk.length < size + 320
  | .pending => False

/-- Not both of two neighbours are free. -/
def Separate (use : ℕ → Use) (left right : Chunk) : Prop :=
  ¬((use left.start).IsFree ∧ (use right.start).IsFree)

structure RegionSound (use : ℕ → Use) (region : Region) : Prop where
  pages : 16 ≤ region.block.pages
  chunks : ∀ chunk ∈ region.chunks, ChunkSound use chunk
  separate : region.chunks.IsChain (Separate use)

/-- The block is one section, which is free and has the index. -/
def Region.complete (use : ℕ → Use) (index : ℤ) (region : Region) : Bool :=
  match region.chunks with
  | [chunk] => decide (use chunk.start = .free index)
  | _ => false

/-- The number of blocks that stand by under an index. -/
def completeBlocks (use : ℕ → Use) (regions : List Region) (index : ℤ) : ℕ :=
  regions.countP (Region.complete use index)

/-- The state of the heap between two calls: `layout` is its map, and `tables` are the
blocks that others have got from the page allocator. -/
structure HeapAt (s : Liballoc) (layout : Layout) (tables : List Block) : Prop where
  shape : Shape s layout
  sound : ∀ region ∈ layout.regions, RegionSound layout.use region
  counted : ∀ index, s.kmemLCompletePages index = completeBlocks layout.use layout.regions index
  atMost : ∀ index, completeBlocks layout.use layout.regions index ≤ 5
  backed : Backed s.kmem (layout.regions.map Region.block ++ tables)
  empty : s.kmemLInitialized = false → layout.regions = []

/-- A caller holds `size` bytes from `ptr` on, in one of the sections. -/
def HoldsIn (use : ℕ → Use) (chunks : List Chunk) (ptr size : ℕ) : Prop :=
  ∃ chunk ∈ chunks, ptr = chunk.start + 32 ∧ use chunk.start = .taken size

def Layout.Holds (layout : Layout) (ptr size : ℕ) : Prop :=
  HoldsIn layout.use (chunksOf layout.regions) ptr size

/-- A section that the allocator has in hand, with what is before it and behind it in its
block, and the other blocks. -/
structure Hand where
  block : Block
  before : List Chunk
  chunk : Chunk
  behind : List Chunk
  rest : List Region
  use : ℕ → Use
  bins : ℤ → List ℕ

namespace Hand

def regions (hand : Hand) : List Region :=
  ⟨hand.block, hand.before ++ hand.chunk :: hand.behind⟩ :: hand.rest

def layout (hand : Hand) : Layout :=
  ⟨hand.regions, hand.use, hand.bins⟩

/-- All sections but the one in hand. -/
def elsewhere (hand : Hand) : List Chunk :=
  hand.before ++ (hand.behind ++ chunksOf hand.rest)

end Hand

/-- The state of the heap in the middle of a call: a section is in hand, which is on no
list, and everything else is as it is between two calls. -/
structure InHand (s : Liballoc) (hand : Hand) (tables : List Block) : Prop where
  shape : Shape s hand.layout
  taken : ∃ size, hand.use hand.chunk.start = .taken size
  pages : 16 ≤ hand.block.pages
  chunks : ∀ chunk ∈ hand.before ++ hand.behind, ChunkSound hand.use chunk
  before : hand.before.IsChain (Separate hand.use)
  behind : hand.behind.IsChain (Separate hand.use)
  others : ∀ region ∈ hand.rest, RegionSound hand.use region
  counted : ∀ index, s.kmemLCompletePages index = completeBlocks hand.use hand.rest index
  atMost : ∀ index, completeBlocks hand.use hand.rest index ≤ 5
  backed : Backed s.kmem (hand.block :: (hand.rest.map Region.block ++ tables))
  initialized : s.kmemLInitialized = true

/-- The neighbours of the section in hand are in use. -/
structure Hand.Settled (hand : Hand) : Prop where
  before : ∀ chunk ∈ hand.before.getLast?, ¬(hand.use chunk.start).IsFree
  behind : ∀ chunk ∈ hand.behind.head?, ¬(hand.use chunk.start).IsFree

section Sound

variable {use use' : ℕ → Use} {region : Region} {regions : List Region} {chunk : Chunk}

theorem ChunkSound.congr (sound : ChunkSound use chunk)
    (same : use' chunk.start = use chunk.start) : ChunkSound use' chunk := by
  rw [ChunkSound, same]
  exact sound

theorem ChunkSound.of_free {index : ℤ} (sound : ChunkSound use chunk)
    (isFree : use chunk.start = .free index) : index = binOf (chunk.length - 32) := by
  rw [ChunkSound, isFree] at sound
  exact sound

theorem ChunkSound.of_taken {size : ℕ} (sound : ChunkSound use chunk)
    (taken : use chunk.start = .taken size) :
    size + 32 ≤ chunk.length ∧ chunk.length < size + 320 := by
  rw [ChunkSound, taken] at sound
  exact sound

theorem chain_congr {chunks : List Chunk} (chain : chunks.IsChain (Separate use))
    (same : ∀ chunk ∈ chunks, use' chunk.start = use chunk.start) :
    chunks.IsChain (Separate use') := by
  apply chain.imp_of_mem_imp
  intro left right leftMem rightMem separate
  rw [Separate, same left leftMem, same right rightMem]
  exact separate

theorem RegionSound.congr (sound : RegionSound use region)
    (same : ∀ chunk ∈ region.chunks, use' chunk.start = use chunk.start) :
    RegionSound use' region :=
  ⟨sound.pages, fun chunk member => (sound.chunks chunk member).congr (same chunk member),
    chain_congr sound.separate same⟩

theorem complete_congr {index : ℤ}
    (same : ∀ chunk ∈ region.chunks, use' chunk.start = use chunk.start) :
    region.complete use' index = region.complete use index := by
  rw [Region.complete, Region.complete]
  split
  · rename_i chunk single
    rw [same chunk (by simp [single])]
  · rfl

theorem completeBlocks_congr {index : ℤ}
    (same : ∀ chunk ∈ chunksOf regions, use' chunk.start = use chunk.start) :
    completeBlocks use' regions index = completeBlocks use regions index := by
  apply List.countP_congr
  intro region member
  rw [complete_congr]
  intro chunk inRegion
  exact same chunk (mem_chunksOf.mpr ⟨region, member, inRegion⟩)

theorem completeBlocks_cons (index : ℤ) : completeBlocks use (region :: regions) index =
    completeBlocks use regions index + if region.complete use index then 1 else 0 := by
  rw [completeBlocks, List.countP_cons]
  rfl

theorem holdsIn_append {xs ys : List Chunk} {ptr size : ℕ} :
    HoldsIn use (xs ++ ys) ptr size ↔ HoldsIn use xs ptr size ∨ HoldsIn use ys ptr size := by
  simp only [HoldsIn, List.mem_append, or_and_right, exists_or]

theorem holdsIn_cons {chunks : List Chunk} {ptr size : ℕ} :
    HoldsIn use (chunk :: chunks) ptr size ↔
      (ptr = chunk.start + 32 ∧ use chunk.start = .taken size) ∨ HoldsIn use chunks ptr size := by
  simp only [HoldsIn, List.mem_cons, or_and_right, exists_or, exists_eq_left]

theorem holdsIn_congr {chunks : List Chunk} {ptr size : ℕ}
    (same : ∀ chunk ∈ chunks, use' chunk.start = use chunk.start) :
    HoldsIn use' chunks ptr size ↔ HoldsIn use chunks ptr size := by
  apply exists_congr
  intro chunk
  apply and_congr_right
  intro member
  rw [same chunk member]

theorem exists_split (member : chunk ∈ chunksOf regions) :
    ∃ block xs ys rest, (⟨block, xs ++ chunk :: ys⟩ :: rest : List Region).Perm regions := by
  rcases mem_chunksOf.mp member with ⟨⟨block, chunks⟩, regionMem, inRegion⟩
  rcases List.append_of_mem inRegion with ⟨xs, ys, split⟩
  rcases List.append_of_mem regionMem with ⟨front, behind, regionsSplit⟩
  refine ⟨block, xs, ys, front ++ behind, ?_⟩
  rw [regionsSplit, ← split]
  exact List.perm_middle.symm

end Sound

namespace HeapAt

variable {s : Liballoc} {layout : Layout} {regions other : List Region} {use : ℕ → Use}
  {bins : ℤ → List ℕ} {tables : List Block} {chunk : Chunk} {ptr size : ℕ}

theorem perm (heap : HeapAt s ⟨regions, use, bins⟩ tables) (perm : other.Perm regions) :
    HeapAt s ⟨other, use, bins⟩ tables := by
  have sameCount : ∀ index, completeBlocks use other index = completeBlocks use regions index :=
    fun _ => perm.countP_eq _
  refine ⟨heap.shape.perm perm, ?_, ?_, ?_, ?_, ?_⟩
  · exact fun region member => heap.sound region (perm.mem_iff.mp member)
  · intro index
    rw [heap.counted, sameCount]
  · intro index
    rw [sameCount]
    exact heap.atMost index
  · exact heap.backed.perm ((perm.map _).append_right _)
  · intro notYet
    have empty := heap.empty notYet
    simp only at empty
    subst empty
    exact List.perm_nil.mp perm

theorem holds_perm (perm : other.Perm regions) (ptr size : ℕ) :
    (⟨other, use, bins⟩ : Layout).Holds ptr size ↔ (⟨regions, use, bins⟩ : Layout).Holds ptr size :=
  exists_congr fun _ => and_congr_left' (perm.flatMap_right _).mem_iff

theorem chunk_sound (heap : HeapAt s layout tables) (member : chunk ∈ chunksOf layout.regions) :
    ChunkSound layout.use chunk := by
  rcases mem_chunksOf.mp member with ⟨region, regionMem, inRegion⟩
  exact (heap.sound region regionMem).chunks chunk inRegion

/-- A pointer that a caller holds is behind the tag of a section that has room for what was
asked for. -/
theorem holds_bounds (heap : HeapAt s layout tables) (holds : layout.Holds ptr size) :
    ∃ chunk ∈ chunksOf layout.regions, ptr = chunk.start + 32 ∧ 0 < chunk.start ∧
      ptr + size ≤ chunk.stop ∧ chunk.stop ≤ 2 ^ 32 := by
  rcases holds with ⟨chunk, member, atChunk, taken⟩
  have room := (heap.chunk_sound member).of_taken taken
  have bounds := heap.shape.placed.chunk_bounds member
  refine ⟨chunk, member, atChunk, bounds.1, ?_, bounds.2.2⟩
  rw [Chunk.stop]
  omega

theorem holds_unique (heap : HeapAt s layout tables) {otherSize : ℕ}
    (holds : layout.Holds ptr size) (alsoHolds : layout.Holds ptr otherSize) :
    size = otherSize := by
  rcases holds with ⟨chunk, member, rfl, taken⟩
  rcases alsoHolds with ⟨again, againMem, atAgain, takenAgain⟩
  have same := heap.shape.placed.eq_of_start_eq member againMem (by omega)
  rw [same, takenAgain] at taken
  cases taken
  rfl

/-- The heap is as it was when nothing is written but the interrupt flags, and the flag of its
initialization is set. -/
theorem of_same {s' : Liballoc} (heap : HeapAt s layout tables) (memory : s'.memory = s.memory)
    (freePages : s'.kmemLFreePages = s.kmemLFreePages)
    (completePages : s'.kmemLCompletePages = s.kmemLCompletePages) (kmem : s'.kmem = s.kmem)
    (initialized : s'.kmemLInitialized = false → s.kmemLInitialized = false) :
    HeapAt s' layout tables where
  shape := heap.shape.of_same (fun tag _ field => by rw [Liballoc.get, Liballoc.get, memory]) freePages
  sound := heap.sound
  counted := by
    intro index
    rw [completePages]
    exact heap.counted index
  atMost := heap.atMost
  backed := by
    rw [kmem]
    exact heap.backed
  empty := fun notYet => heap.empty (initialized notYet)

theorem lock (heap : HeapAt s layout tables) : HeapAt s.lock layout tables :=
  heap.of_same rfl rfl rfl rfl id

theorem unlock (heap : HeapAt s layout tables) : HeapAt s.unlock layout tables :=
  heap.of_same rfl rfl rfl rfl id

/-- What the first call of `kmem_malloc` initializes is zero already. -/
theorem kmemMallocInit_eq (heap : HeapAt s layout tables) :
    kmemMallocInit s = { s with kmemLInitialized := true } := by
  rw [kmemMallocInit]
  cases initialized : s.kmemLInitialized with
  | true => simp [← initialized]
  | false =>
      have none := heap.empty initialized
      have heads : ∀ i, s.kmemLFreePages i = 0 := by
        intro i
        have noBin : layout.bins i = [] := by
          apply List.eq_nil_iff_forall_not_mem.mpr
          intro tag member
          have inCells := heap.shape.bin_subset member
          simp [none, cellsOf, chunksOf] at inCells
        rw [heap.shape.heads, noBin]
        rfl
      have counts : ∀ i, s.kmemLCompletePages i = 0 := by
        intro i
        rw [heap.counted, none]
        rfl
      simp only [Bool.not_false, if_true, heads, counts, ite_self]
      congr
      · funext i
        exact (heads i).symm
      · funext i
        exact (counts i).symm

end HeapAt

namespace Hand

variable {s : Liballoc} {hand : Hand}

theorem elsewhere_ne (shape : Shape s hand.layout) :
    ∀ chunk ∈ hand.elsewhere, chunk.start ≠ hand.chunk.start := by
  intro chunk member same
  have nodup := shape.placed.cells_nodup
  have perm : (cellsOf hand.regions).Perm
      (hand.chunk.start :: hand.elsewhere.map Chunk.start) := by
    simp [cellsOf, Hand.regions, Hand.elsewhere]
  have notIn := (List.nodup_cons.mp (perm.nodup_iff.mp nodup)).1
  rw [← same] at notIn
  exact notIn (List.mem_map_of_mem member)

theorem mem_elsewhere {chunk : Chunk} : chunk ∈ hand.elsewhere ↔
    (chunk ∈ hand.before ∨ chunk ∈ hand.behind) ∨ chunk ∈ chunksOf hand.rest := by
  simp [Hand.elsewhere, or_assoc]

/-- What the callers hold, with the section in hand told apart. -/
theorem holds_iff (ptr size : ℕ) : hand.layout.Holds ptr size ↔
    (ptr = hand.chunk.start + 32 ∧ hand.use hand.chunk.start = .taken size) ∨
      HoldsIn hand.use hand.elsewhere ptr size := by
  simp only [Layout.Holds, Hand.layout, Hand.regions, Hand.elsewhere, chunksOf_cons,
    List.append_assoc, List.cons_append, holdsIn_append, holdsIn_cons]
  tauto

/-- The neighbours of the section in hand in its block, as its tag has them. -/
theorem split_links (shape : Shape s hand.layout) :
    s.get hand.chunk.start .splitLeft = (hand.before.map Chunk.start).getLastD 0 ∧
      s.get hand.chunk.start .splitRight = (hand.behind.map Chunk.start).headD 0 := by
  have linked := shape.splits _ List.mem_cons_self
  simp only [List.map_append, List.map_cons] at linked
  exact ⟨linked.prev_middle, linked.next_middle⟩

theorem start_ne_zero (shape : Shape s hand.layout) {chunk : Chunk}
    (member : chunk ∈ hand.before ∨ chunk ∈ hand.behind) : chunk.start ≠ 0 := by
  apply shape.tag_ne_zero
  apply chunk_cell_mem
  simp only [Hand.layout, Hand.regions, chunksOf_cons, List.mem_append, List.mem_cons]
  tauto

theorem left_eq_zero_iff (shape : Shape s hand.layout) :
    s.get hand.chunk.start .splitLeft = 0 ↔ hand.before = [] := by
  rw [(split_links shape).1]
  rcases hand.before.eq_nil_or_concat with empty | ⟨front, last, split⟩
  · simp [empty]
  · have lastMem : last ∈ hand.before := by simp [split]
    have notNull := start_ne_zero shape (Or.inl lastMem)
    simp [split, notNull]

theorem right_eq_zero_iff (shape : Shape s hand.layout) :
    s.get hand.chunk.start .splitRight = 0 ↔ hand.behind = [] := by
  rw [(split_links shape).2]
  cases split : hand.behind with
  | nil => simp
  | cons first behind =>
      have firstMem : first ∈ hand.behind := by simp [split]
      have notNull := start_ne_zero shape (Or.inr firstMem)
      simp [notNull]

/-- The test of `kmem_malloc` and `kmem_free` for a whole block. -/
theorem alone_iff (hand : Hand) (shape : Shape s hand.layout) :
    s.get hand.chunk.start .splitLeft = 0 ∧ s.get hand.chunk.start .splitRight = 0 ↔
      hand.before = [] ∧ hand.behind = [] := by
  rw [left_eq_zero_iff shape, right_eq_zero_iff shape]

theorem complete_iff (hand : Hand) (index : ℤ) :
    (⟨hand.block, hand.before ++ hand.chunk :: hand.behind⟩ : Region).complete hand.use index =
      true ↔ (hand.before = [] ∧ hand.behind = []) ∧ hand.use hand.chunk.start = .free index := by
  rw [Region.complete]
  split
  · rename_i single isSingle
    have lengths := congrArg List.length isSingle
    simp only [List.length_append, List.length_cons, List.length_nil] at lengths
    have noneBefore : hand.before = [] := List.eq_nil_of_length_eq_zero (by omega)
    have noneBehind : hand.behind = [] := List.eq_nil_of_length_eq_zero (by omega)
    simp only [noneBefore, noneBehind, List.nil_append, List.cons.injEq, and_true] at isSingle
    simp [noneBefore, noneBehind, isSingle]
  · rename_i notSingle
    constructor
    · simp
    · rintro ⟨⟨noneBefore, noneBehind⟩, _⟩
      exact absurd (by simp [noneBefore, noneBehind]) (notSingle hand.chunk)

theorem chunk_mem (hand : Hand) : hand.chunk ∈ chunksOf hand.layout.regions := by
  simp [Hand.layout, Hand.regions]

end Hand

/-- The sections of blocks that the page allocator has handed out lie in its region. -/
theorem Placed.inside {regions : List Region} (placed : Placed regions) {run : KmemRun}
    (tiled : run.Tiled kernelHeap) (handedOut : regions.map Region.block ⊆ run.outstanding)
    {chunk : Chunk} (member : chunk ∈ chunksOf regions) :
    kernelHeap ≤ chunk.start ∧ chunk.stop ≤ kernelHeap + 8192 * 4096 := by
  rcases tiled with ⟨entries, _, owned⟩
  rcases mem_chunksOf.mp member with ⟨region, regionMem, inRegion⟩
  have held := handedOut (List.mem_map_of_mem regionMem)
  have bounds := owned.bounds (List.mem_append_right _ held)
  have inside := (placed.filled region regionMem).bounds inRegion
  omega

theorem HeapAt.inside {s : Liballoc} {layout : Layout} {tables : List Block}
    (heap : HeapAt s layout tables) {chunk : Chunk} (member : chunk ∈ chunksOf layout.regions) :
    kernelHeap ≤ chunk.start ∧ chunk.stop ≤ kernelHeap + 8192 * 4096 :=
  heap.shape.placed.inside heap.backed.tiled (List.subset_append_left _ _) member

/-- The way from a pointer back to its tag. -/
theorem HeapAt.tag_eq {s : Liballoc} {layout : Layout} {tables : List Block}
    (heap : HeapAt s layout tables) {chunk : Chunk} (member : chunk ∈ chunksOf layout.regions) :
    sub32 (chunk.start + 32) 32 = chunk.start := by
  have bounds := heap.shape.placed.chunk_bounds member
  have inside := heap.inside member
  simp only [Chunk.stop, kernelHeap] at bounds inside
  rw [sub32_of_le (by omega) (by omega), Nat.add_sub_cancel]

/-- A section of the heap is smaller than the region of the page allocator. -/
theorem InHand.length_lt {s : Liballoc} {hand : Hand} {tables : List Block}
    (inHand : InHand s hand tables) : hand.chunk.length < 2 ^ 31 := by
  have handedOut : hand.regions.map Region.block ⊆
      hand.block :: (hand.rest.map Region.block ++ tables) := by
    rw [← List.cons_append]
    exact List.subset_append_left _ _
  have inside := inHand.shape.placed.inside inHand.backed.tiled handedOut hand.chunk_mem
  simp only [Chunk.stop, kernelHeap] at inside
  omega

end Osserver
