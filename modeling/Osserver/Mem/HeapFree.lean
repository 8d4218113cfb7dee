import Osserver.Mem.HeapMalloc

/-!
# What `kmem_free` does to the heap

The section that is given back is in hand. As long as the neighbour on the left is
free, and then as long as the one on the right is, the section is joined with it.
What it has become goes on a list, or back to the page allocator when it is a whole
block and enough such blocks stand by.
-/

namespace Osserver

open Liballoc

section Melt

variable {s s' : Liballoc} {hand hand' : Hand} {tables : List Block} {index : ℤ}
  {left right : Chunk} {xs ys : List Chunk} {cells : List ℕ}

/-- Another section of the same block is in hand, and what is left around it is as it was. -/
theorem InHand.replace (inHand : InHand s hand tables) (only : TagsOnly cells s s')
    (shape : Shape s' hand'.layout) (taken : ∃ size, hand'.use hand'.chunk.start = .taken size)
    (block : hand'.block = hand.block) (rest : hand'.rest = hand.rest)
    (before : hand'.before <+: hand.before) (behind : hand'.behind <:+ hand.behind)
    (same : ∀ chunk ∈ hand'.elsewhere, hand'.use chunk.start = hand.use chunk.start) :
    InHand s' hand' tables := by
  have around : ∀ chunk ∈ hand'.before ++ hand'.behind,
      hand'.use chunk.start = hand.use chunk.start :=
    fun chunk member => same chunk (Hand.mem_elsewhere.mpr (Or.inl (List.mem_append.mp member)))
  have inRest : ∀ chunk ∈ chunksOf hand.rest, hand'.use chunk.start = hand.use chunk.start :=
    fun chunk member => same chunk (Hand.mem_elsewhere.mpr (Or.inr (rest ▸ member)))
  have counts : ∀ other, completeBlocks hand'.use hand'.rest other =
      completeBlocks hand.use hand.rest other := by
    intro other
    rw [rest]
    exact completeBlocks_congr inRest
  refine ⟨shape, taken, ?_, ?_, ?_, ?_, ?_, ?_, ?_, ?_, ?_⟩
  · rw [block]
    exact inHand.pages
  · intro chunk member
    apply (inHand.chunks chunk _).congr (around chunk member)
    rcases List.mem_append.mp member with inBefore | inBehind
    · exact List.mem_append_left _ (before.subset inBefore)
    · exact List.mem_append_right _ (behind.subset inBehind)
  · rcases before with ⟨others, split⟩
    have chain := inHand.before
    rw [← split] at chain
    exact chain_congr chain.left_of_append
      (fun chunk member => around chunk (List.mem_append_left _ member))
  · rcases behind with ⟨others, split⟩
    have chain := inHand.behind
    rw [← split] at chain
    exact chain_congr chain.right_of_append
      (fun chunk member => around chunk (List.mem_append_right _ member))
  · intro region member
    rw [rest] at member
    apply (inHand.others region member).congr
    exact fun chunk inRegion => inRest chunk (mem_chunksOf.mpr ⟨region, member, inRegion⟩)
  · intro other
    rw [only.completePages, inHand.counted, counts]
  · intro other
    rw [counts]
    exact inHand.atMost other
  · rw [only.kmem, block, rest]
    exact inHand.backed
  · exact only.initialized.trans inHand.initialized

/-- The section in hand and the one before it, as one section. -/
def Hand.joinLeft (hand : Hand) (xs : List Chunk) (left : Chunk) : Hand :=
  { hand with before := xs, chunk := ⟨left.start, left.length + hand.chunk.length⟩ }

/-- The section in hand and the one behind it, as one section. -/
def Hand.joinRight (hand : Hand) (right : Chunk) (ys : List Chunk) : Hand :=
  { hand with chunk := ⟨hand.chunk.start, hand.chunk.length + right.length⟩, behind := ys }

theorem InHand.notFree (inHand : InHand s hand tables) (index : ℤ) :
    hand.use hand.chunk.start ≠ .free index := by
  rcases inHand.taken with ⟨size, taken⟩
  rw [taken]
  simp

theorem not_holdsIn_free (isFree : hand.use left.start = .free index) (ptr size : ℕ) :
    ¬HoldsIn hand.use [left] ptr size := by
  rintro ⟨chunk, member, _, taken⟩
  rw [List.mem_singleton.mp member, isFree] at taken
  cases taken

/-- What callers hold elsewhere does not change when free neighbours are joined. -/
theorem Hand.joinLeft_holds (split : hand.before = xs ++ [left])
    (isFree : hand.use left.start = .free index) (ptr size : ℕ) :
    HoldsIn hand.use (hand.joinLeft xs left).elsewhere ptr size ↔
      HoldsIn hand.use hand.elsewhere ptr size := by
  have nothing := not_holdsIn_free isFree ptr size
  simp only [Hand.elsewhere, Hand.joinLeft, split, holdsIn_append, nothing, or_false]

theorem Hand.joinRight_holds (split : hand.behind = right :: ys)
    (isFree : hand.use right.start = .free index) (ptr size : ℕ) :
    HoldsIn hand.use (hand.joinRight right ys).elsewhere ptr size ↔
      HoldsIn hand.use hand.elsewhere ptr size := by
  have nothing := not_holdsIn_free isFree ptr size
  rw [← List.singleton_append] at split
  simp only [Hand.elsewhere, Hand.joinRight, split, holdsIn_append, nothing, false_or]

/-- A free section on the left takes in the section in hand and leaves its list. -/
theorem InHand.meltLeft (inHand : InHand s hand tables) (split : hand.before = xs ++ [left])
    (isFree : hand.use left.start = .free index) :
    ∃ size, InHand (kmemRemoveTag (kmemJoin s left.start hand.chunk.start) left.start)
        ((hand.joinLeft xs left).withdrawn index size) tables ∧
      TagsOnly (cellsOf hand.regions) s
        (kmemRemoveTag (kmemJoin s left.start hand.chunk.start) left.start) ∧
      ∀ chunk ∈ (hand.joinLeft xs left).elsewhere,
        ((hand.joinLeft xs left).withdrawn index size).use chunk.start = hand.use chunk.start := by
  have regions : hand.regions =
      ⟨hand.block, xs ++ left :: hand.chunk :: hand.behind⟩ :: hand.rest := by
    simp [Hand.regions, split]
  have shape : Shape s ⟨⟨hand.block, xs ++ left :: hand.chunk :: hand.behind⟩ :: hand.rest,
      hand.use, hand.bins⟩ := regions ▸ inHand.shape
  have joined : Shape (kmemJoin s left.start hand.chunk.start) (hand.joinLeft xs left).layout :=
    shape.join inHand.notFree
  have tagMem := chunk_cell_mem (hand.joinLeft xs left).chunk_mem
  have inBin := (joined.binned index left.start).mpr ⟨tagMem, isFree⟩
  have fewer : cellsOf (hand.joinLeft xs left).regions ⊆
      cellsOf (⟨hand.block, xs ++ left :: hand.chunk :: hand.behind⟩ :: hand.rest) :=
    fun cell member => ((shape.joined_cells_iff cell).mp member).1
  have only := shape.join_edited.toTagsOnly.trans
    ((joined.remove_edited inBin).toTagsOnly.mono fewer)
  have same := (hand.joinLeft xs left).withdrawn_use joined index
    ((kmemJoin s left.start hand.chunk.start).get left.start .size)
  refine ⟨_, inHand.replace only (joined.remove inBin) ⟨_, Function.update_self _ _ _⟩ rfl rfl
    ⟨[left], split.symm⟩ (List.suffix_refl _) same, regions ▸ only, same⟩

/-- The section in hand takes in a free section on the right, which has left its list. -/
theorem InHand.absorbRight (inHand : InHand s hand tables) (split : hand.behind = right :: ys)
    (isFree : hand.use right.start = .free index) :
    ∃ use bins, InHand (kmemJoin (kmemRemoveTag s right.start) hand.chunk.start right.start)
        { hand.joinRight right ys with use := use, bins := bins } tables ∧
      TagsOnly (cellsOf hand.regions) s
        (kmemJoin (kmemRemoveTag s right.start) hand.chunk.start right.start) ∧
      ∀ chunk ∈ (hand.joinRight right ys).elsewhere, use chunk.start = hand.use chunk.start := by
  have regions : hand.regions =
      ⟨hand.block, hand.before ++ hand.chunk :: right :: ys⟩ :: hand.rest := by
    simp [Hand.regions, split]
  have old : Shape s (Hand.mk hand.block (hand.before ++ [hand.chunk]) right ys hand.rest hand.use
      hand.bins).layout := by
    have shape := inHand.shape
    rw [Hand.layout, regions] at shape
    simpa [Hand.layout, Hand.regions] using shape
  have away := Hand.elsewhere_ne old
  have tagMem := chunk_cell_mem (Hand.mk hand.block (hand.before ++ [hand.chunk]) right ys
    hand.rest hand.use hand.bins).chunk_mem
  have inBin := (old.binned index right.start).mpr ⟨tagMem, isFree⟩
  have removed : Shape (kmemRemoveTag s right.start)
      ⟨⟨hand.block, hand.before ++ hand.chunk :: right :: ys⟩ :: hand.rest,
        Function.update hand.use right.start (.taken (s.get right.start .size)),
        Function.update hand.bins index ((hand.bins index).erase right.start)⟩ := by
    have shape := old.remove inBin
    simpa [Hand.layout, Hand.regions] using shape
  have joined := removed.join (by simp)
  have sameRegions : (Hand.mk hand.block (hand.before ++ [hand.chunk]) right ys hand.rest hand.use
      hand.bins).regions = hand.regions := by
    simp [Hand.regions, split]
  have first : TagsOnly (cellsOf hand.regions) s (kmemRemoveTag s right.start) := by
    rw [← sameRegions]
    exact (old.remove_edited inBin).toTagsOnly
  have second : TagsOnly (cellsOf hand.regions) (kmemRemoveTag s right.start)
      (kmemJoin (kmemRemoveTag s right.start) hand.chunk.start right.start) := by
    rw [regions]
    exact removed.join_edited.toTagsOnly
  have same : ∀ chunk ∈ (hand.joinRight right ys).elsewhere,
      Function.update hand.use right.start (.taken (s.get right.start .size)) chunk.start =
        hand.use chunk.start := by
    intro chunk member
    apply Function.update_of_ne
    apply away
    simp only [Hand.elsewhere, Hand.joinRight, List.mem_append] at member ⊢
    tauto
  have notRight : hand.chunk.start ≠ right.start := away hand.chunk (by simp [Hand.elsewhere])
  rcases inHand.taken with ⟨size, taken⟩
  refine ⟨_, _, inHand.replace (first.trans second) joined ⟨size, ?_⟩ rfl rfl (List.prefix_refl _)
    ⟨[right], split.symm⟩ same, first.trans second, same⟩
  exact (Function.update_of_ne notRight _ _).trans taken

/-- The section in hand has been joined with free neighbours, and nothing else has happened
to the heap. -/
structure Melted (s : Liballoc) (hand : Hand) (s' : Liballoc) (hand' : Hand)
    (tables : List Block) : Prop where
  inHand : InHand s' hand' tables
  only : TagsOnly (cellsOf hand.regions) s s'
  cells : cellsOf hand'.regions ⊆ cellsOf hand.regions
  block : hand'.block = hand.block
  holds : ∀ ptr size, HoldsIn hand'.use hand'.elsewhere ptr size ↔
    HoldsIn hand.use hand.elsewhere ptr size

theorem Melted.refl (inHand : InHand s hand tables) : Melted s hand s hand tables :=
  ⟨inHand, TagsOnly.refl _ _, List.Subset.refl _, rfl, fun _ _ => Iff.rfl⟩

theorem Melted.trans {s'' : Liballoc} {hand'' : Hand} (first : Melted s hand s' hand' tables)
    (second : Melted s' hand' s'' hand'' tables) : Melted s hand s'' hand'' tables :=
  ⟨second.inHand, first.only.trans (second.only.mono first.cells),
    List.Subset.trans second.cells first.cells, second.block.trans first.block,
    fun ptr size => (second.holds ptr size).trans (first.holds ptr size)⟩

/-- The test that `kmem_free` makes of a neighbour. -/
theorem Shape.index_nonneg_iff {layout : Layout} {chunk : Chunk} (shape : Shape s layout)
    (member : chunk ∈ chunksOf layout.regions) (sound : ChunkSound layout.use chunk) :
    s.index chunk.start ≥ 0 ↔ (layout.use chunk.start).IsFree := by
  have marked := shape.marked chunk.start (chunk_cell_mem member)
  rw [ChunkSound] at sound
  cases use : layout.use chunk.start with
  | free index =>
      rw [use] at marked
      have low : 8 ≤ s.index chunk.start := marked.1.symm ▸ marked.2.1
      simp only [Use.IsFree, iff_true]
      omega
  | taken size =>
      rw [use] at marked
      have index : s.index chunk.start = -1 := marked.1
      simp [Use.IsFree, index]
  | pending => simp [use] at sound

theorem InHand.neighbour_iff (inHand : InHand s hand tables) {chunk : Chunk}
    (member : chunk ∈ hand.before ∨ chunk ∈ hand.behind) :
    chunk.start ≠ 0 ∧ (s.index chunk.start ≥ 0 ↔ (hand.use chunk.start).IsFree) := by
  refine ⟨Hand.start_ne_zero inHand.shape member, ?_⟩
  apply inHand.shape.index_nonneg_iff
  · simp only [Hand.layout, Hand.regions, chunksOf_cons, List.mem_append, List.mem_cons]
    tauto
  · exact inHand.chunks chunk (List.mem_append.mpr member)

theorem Use.IsFree.exists_index {use : Use} (isFree : use.IsFree) : ∃ index, use = .free index := by
  cases use with
  | free index => exact ⟨index, rfl⟩
  | taken size => exact isFree.elim
  | pending => exact isFree.elim

/-- The first loop stops when the neighbour on the left is not free. -/
theorem InHand.meltLeft_stop (inHand : InHand s hand tables) (fuel : ℕ)
    (settled : ∀ chunk ∈ hand.before.getLast?, ¬(hand.use chunk.start).IsFree) :
    kmemFreeMeltLeft s hand.chunk.start (fuel + 1) = .ok (hand.chunk.start, s) := by
  rw [kmemFreeMeltLeft, if_neg]
  rw [(Hand.split_links inHand.shape).1]
  rcases hand.before.eq_nil_or_concat with none | ⟨front, last, split⟩
  · simp [none]
  · have lastMem : last ∈ hand.before := by simp [split]
    have notFree := settled last (by simp [split])
    have tested := (inHand.neighbour_iff (Or.inl lastMem)).2
    rintro ⟨_, nonneg⟩
    rw [split, List.concat_eq_append, List.map_append, List.map_singleton,
      List.getLastD_concat] at nonneg
    exact notFree (tested.mp nonneg)

/-- The first loop of `kmem_free` takes in the free neighbour on the left, if there is one. -/
theorem InHand.meltLeft_loop (inHand : InHand s hand tables) (fuel : ℕ) :
    ∃ hand' s', kmemFreeMeltLeft s hand.chunk.start (fuel + 2) = .ok (hand'.chunk.start, s') ∧
      Melted s hand s' hand' tables ∧
        ∀ chunk ∈ hand'.before.getLast?, ¬(hand'.use chunk.start).IsFree := by
  by_cases settled : ∀ chunk ∈ hand.before.getLast?, ¬(hand.use chunk.start).IsFree
  · exact ⟨hand, s, inHand.meltLeft_stop (fuel + 1) settled, Melted.refl inHand, settled⟩
  · push Not at settled
    rcases settled with ⟨left, isLast, isFree⟩
    rcases List.getLast?_eq_some_iff.mp isLast with ⟨xs, split⟩
    rcases isFree.exists_index with ⟨index, atIndex⟩
    rcases inHand.meltLeft split atIndex with ⟨size, joined, only, same⟩
    have leftMem : left ∈ hand.before := by simp [split]
    have tested := inHand.neighbour_iff (Or.inl leftMem)
    have atLeft : s.get hand.chunk.start .splitLeft = left.start := by
      rw [(Hand.split_links inHand.shape).1, split]
      simp
    have stops : ∀ chunk ∈ ((hand.joinLeft xs left).withdrawn index size).before.getLast?,
        ¬(((hand.joinLeft xs left).withdrawn index size).use chunk.start).IsFree := by
      intro chunk member
      have inXs : chunk ∈ xs := List.mem_of_mem_getLast? member
      have chain := inHand.before
      rw [split] at chain
      have separate := (List.isChain_append.mp chain).2.2 chunk member left (by simp)
      rw [same chunk (Hand.mem_elsewhere.mpr (Or.inl (Or.inl inXs)))]
      exact fun chunkFree => separate ⟨chunkFree, isFree⟩
    refine ⟨_, _, ?_, ⟨joined, only, ?_, rfl, ?_⟩, stops⟩
    · rw [kmemFreeMeltLeft, atLeft, if_pos ⟨tested.1, tested.2.mpr isFree⟩, kmemMeltLeft_eq, atLeft]
      exact joined.meltLeft_stop fuel stops
    · intro cell member
      simp only [Hand.withdrawn, Hand.joinLeft, Hand.regions, split, cellsOf, chunksOf_cons,
        List.map_append, List.map_cons, List.mem_append, List.mem_cons] at member ⊢
      tauto
    · intro ptr bytes
      rw [← hand.joinLeft_holds split atIndex ptr bytes]
      exact holdsIn_congr same

/-- The second loop stops when the neighbour on the right is not free. -/
theorem InHand.meltRight_stop (inHand : InHand s hand tables) (fuel : ℕ)
    (settled : ∀ chunk ∈ hand.behind.head?, ¬(hand.use chunk.start).IsFree) :
    kmemFreeMeltRight s hand.chunk.start (fuel + 1) = .ok s := by
  rw [kmemFreeMeltRight, if_neg]
  rw [(Hand.split_links inHand.shape).2]
  cases split : hand.behind with
  | nil => simp
  | cons first behind =>
      have firstMem : first ∈ hand.behind := by simp [split]
      have notFree := settled first (by simp [split])
      have tested := (inHand.neighbour_iff (Or.inr firstMem)).2
      rintro ⟨_, nonneg⟩
      simp only [List.map_cons, List.headD_cons] at nonneg
      exact notFree (tested.mp nonneg)

/-- The second loop takes in the free neighbour on the right, if there is one. -/
theorem InHand.meltRight_loop (inHand : InHand s hand tables) (fuel : ℕ)
    (before : ∀ chunk ∈ hand.before.getLast?, ¬(hand.use chunk.start).IsFree) :
    ∃ hand' s', kmemFreeMeltRight s hand.chunk.start (fuel + 2) = .ok s' ∧
      hand'.chunk.start = hand.chunk.start ∧ Melted s hand s' hand' tables ∧ hand'.Settled := by
  by_cases settled : ∀ chunk ∈ hand.behind.head?, ¬(hand.use chunk.start).IsFree
  · exact ⟨hand, s, inHand.meltRight_stop (fuel + 1) settled, rfl, Melted.refl inHand,
      before, settled⟩
  · push Not at settled
    rcases settled with ⟨right, isFirst, isFree⟩
    rcases List.head?_eq_some_iff.mp isFirst with ⟨ys, split⟩
    rcases isFree.exists_index with ⟨index, atIndex⟩
    rcases inHand.absorbRight split atIndex with ⟨use, bins, joined, only, same⟩
    have rightMem : right ∈ hand.behind := by simp [split]
    have tested := inHand.neighbour_iff (Or.inr rightMem)
    have atRight : s.get hand.chunk.start .splitRight = right.start := by
      rw [(Hand.split_links inHand.shape).2, split]
      simp
    have stops : ∀ chunk ∈ ys.head?, ¬(use chunk.start).IsFree := by
      intro chunk member
      have inYs : chunk ∈ ys := List.mem_of_mem_head? member
      have chain := inHand.behind
      rw [split] at chain
      have separate := (List.isChain_cons.mp chain).1 chunk member
      rw [same chunk (Hand.mem_elsewhere.mpr (Or.inl (Or.inr inYs)))]
      exact fun chunkFree => separate ⟨isFree, chunkFree⟩
    refine ⟨{ hand.joinRight right ys with use := use, bins := bins }, _, ?_, rfl,
      ⟨joined, only, ?_, rfl, ?_⟩, ?_, stops⟩
    · rw [kmemFreeMeltRight, atRight, if_pos ⟨tested.1, tested.2.mpr isFree⟩, kmemAbsorbRight_eq,
        atRight]
      exact joined.meltRight_stop fuel stops
    · intro cell member
      simp only [Hand.joinRight, Hand.regions, split, cellsOf, chunksOf_cons,
        List.map_append, List.map_cons, List.mem_append, List.mem_cons] at member ⊢
      tauto
    · intro ptr bytes
      rw [← hand.joinRight_holds split atIndex ptr bytes]
      exact holdsIn_congr same
    · intro chunk member
      have inBefore : chunk ∈ hand.before := List.mem_of_mem_getLast? member
      have notFree := before chunk member
      rw [← same chunk (Hand.mem_elsewhere.mpr (Or.inl (Or.inl inBefore)))] at notFree
      exact notFree

end Melt

section Return

variable {s : Liballoc} {hand : Hand} {tables : List Block}

/-- The list that the section in hand belongs on when it is free. -/
def Hand.index (hand : Hand) : ℤ :=
  binOf (hand.chunk.length - 32)

/-- The section in hand is free and in front of its list. -/
def Hand.returned (hand : Hand) : Hand :=
  { hand with
    use := Function.update hand.use hand.chunk.start (.free hand.index)
    bins := Function.update hand.bins hand.index (hand.chunk.start :: hand.bins hand.index) }

theorem Hand.returned_use (shape : Shape s hand.layout) :
    ∀ chunk ∈ hand.elsewhere, hand.returned.use chunk.start = hand.use chunk.start :=
  fun chunk member => Function.update_of_ne (Hand.elsewhere_ne shape chunk member) _ _

theorem Hand.returned_start (hand : Hand) :
    hand.returned.use hand.returned.chunk.start = .free hand.index :=
  Function.update_self _ _ _

theorem InHand.index_bounds (inHand : InHand s hand tables) : 8 ≤ hand.index ∧ hand.index < 32 := by
  have small := inHand.length_lt
  exact ⟨eight_le_binOf _, binOf_lt (by omega)⟩

theorem InHand.index_eq (inHand : InHand s hand tables) :
    atLeastMinexp (kmemGetexp (sub32 (s.get hand.chunk.start .realSize) 32)) = hand.index := by
  have small := inHand.length_lt
  have room := (inHand.shape.placed.chunk_bounds hand.chunk_mem).2.1
  rw [inHand.shape.realSize hand.chunk hand.chunk_mem, sub32_of_le room (by omega),
    atLeastMinexp_kmemGetexp (by omega), Hand.index]

theorem InHand.returned_sound (inHand : InHand s hand tables) (settled : hand.Settled) :
    ∀ region ∈ hand.returned.regions, RegionSound hand.returned.use region := by
  have same := Hand.returned_use inHand.shape
  have around : ∀ chunk ∈ hand.before ++ hand.behind,
      hand.returned.use chunk.start = hand.use chunk.start :=
    fun chunk member => same chunk (Hand.mem_elsewhere.mpr (Or.inl (List.mem_append.mp member)))
  intro region member
  rcases List.mem_cons.mp member with rfl | inRest
  · refine ⟨inHand.pages, ?_, ?_⟩
    · intro chunk inBlock
      rcases List.mem_append.mp inBlock with inBefore | inBehind
      · have other := List.mem_append_left hand.behind inBefore
        exact (inHand.chunks chunk other).congr (around chunk other)
      · rcases List.mem_cons.mp inBehind with rfl | inBehind
        · rw [ChunkSound, hand.returned_start]
          rfl
        · have other := List.mem_append_right hand.before inBehind
          exact (inHand.chunks chunk other).congr (around chunk other)
    · have before := chain_congr inHand.before
        (fun chunk member => around chunk (List.mem_append_left _ member))
      have behind := chain_congr inHand.behind
        (fun chunk member => around chunk (List.mem_append_right _ member))
      refine before.append (List.isChain_cons.mpr ⟨?_, behind⟩) ?_
      · intro next isNext both
        have notFree := settled.behind next isNext
        have inBehind : next ∈ hand.behind := List.mem_of_mem_head? isNext
        rw [← around next (List.mem_append_right _ inBehind)] at notFree
        exact notFree both.2
      · intro last isLast next isNext both
        have notFree := settled.before last isLast
        have inBefore : last ∈ hand.before := List.mem_of_mem_getLast? isLast
        rw [← around last (List.mem_append_left _ inBefore)] at notFree
        exact notFree both.1
  · apply (inHand.others region inRest).congr
    intro chunk inRegion
    exact same chunk
      (Hand.mem_elsewhere.mpr (Or.inr (mem_chunksOf.mpr ⟨region, inRest, inRegion⟩)))

/-- The counts with the section in hand: its block is counted if there is no other section
in it. -/
theorem InHand.returned_count (inHand : InHand s hand tables) (index : ℤ) :
    completeBlocks hand.returned.use hand.returned.regions index =
      completeBlocks hand.use hand.rest index +
        if (hand.before = [] ∧ hand.behind = []) ∧ hand.index = index then 1 else 0 := by
  have complete := hand.returned.complete_iff index
  have rest : completeBlocks hand.returned.use hand.rest index =
      completeBlocks hand.use hand.rest index :=
    completeBlocks_congr fun chunk member => Hand.returned_use inHand.shape chunk
      (Hand.mem_elsewhere.mpr (Or.inr member))
  rw [hand.returned_start, Use.free.injEq] at complete
  rw [Hand.regions, completeBlocks_cons]
  simp only [complete]
  exact congrArg (· + _) rest

/-- The section goes on its list, in a block that is counted or not. -/
theorem InHand.insert (inHand : InHand s hand tables) (settled : hand.Settled) {s' : Liballoc}
    (shape : Shape s' hand.layout) (changes : HeapOnly (cellsOf hand.regions) s s')
    (counted : ∀ index, s'.kmemLCompletePages index = s.kmemLCompletePages index +
      if (hand.before = [] ∧ hand.behind = []) ∧ hand.index = index then 1 else 0)
    (room : hand.before = [] ∧ hand.behind = [] → s.kmemLCompletePages hand.index ≠ 5) :
    HeapAt (kmemInsertTag s' hand.chunk.start hand.index) hand.returned.layout tables ∧
      HeapOnly (cellsOf hand.regions) s (kmemInsertTag s' hand.chunk.start hand.index) := by
  have tagMem := chunk_cell_mem hand.chunk_mem
  have bounds := inHand.index_bounds
  have nonneg : 0 ≤ hand.index := by omega
  have only := (shape.insert_edited tagMem nonneg).toTagsOnly
  have tags : Shape (kmemInsertTag s' hand.chunk.start hand.index) hand.returned.layout :=
    shape.insert tagMem inHand.notFree bounds.1 bounds.2
  have written := changes.trans only.heapOnly
  refine ⟨⟨tags, inHand.returned_sound settled, ?_, ?_, ?_, ?_⟩, written⟩
  · intro index
    have count := inHand.returned_count index
    rw [only.completePages, counted, inHand.counted]
    simp only [Hand.layout, count]
    split <;> simp
  · intro index
    have count := inHand.returned_count index
    have before := inHand.atMost index
    simp only [Hand.layout, count]
    split
    · rename_i isCounted
      have notFull := room isCounted.1
      rw [isCounted.2, inHand.counted] at notFull
      omega
    · omega
  · rw [written.kmem]
    exact inHand.backed
  · intro notYet
    rw [written.initialized, inHand.initialized] at notYet
    cases notYet

/-- A section without neighbours is the whole of its block. -/
theorem InHand.whole (inHand : InHand s hand tables)
    (alone : hand.before = [] ∧ hand.behind = []) :
    hand.chunk.start = hand.block.ptr ∧ hand.chunk.length = hand.block.pages * 4096 := by
  have filled := inHand.shape.placed.filled _ List.mem_cons_self
  simp only [alone.1, alone.2, List.nil_append, Fills, Block.stop] at filled
  omega

/-- The block of the section in hand goes back to the page allocator. -/
theorem InHand.release (inHand : InHand s hand tables)
    (alone : hand.before = [] ∧ hand.behind = []) (safe : s.kmem.ReleaseSafe hand.block)
    {after : Kmem}
    (returns : kmemLiballocFree s.kmem hand.block.ptr hand.block.pages = .ok after) :
    HeapAt (s.setKmem after) ⟨hand.rest, hand.use, hand.bins⟩ tables := by
  have noneFree : ∀ chunk ∈ hand.before ++ hand.chunk :: hand.behind, ∀ index,
      hand.use chunk.start ≠ .free index := by
    rw [alone.1, alone.2]
    intro chunk member
    rw [List.mem_singleton.mp member]
    exact inHand.notFree
  have shape := inHand.shape.drop noneFree
  have backed := inHand.backed.free List.mem_cons_self safe returns
  refine ⟨shape.of_same (fun _ _ _ => rfl) rfl, inHand.others, inHand.counted, inHand.atMost,
    ?_, ?_⟩
  · rw [List.erase_cons_head] at backed
    exact backed
  · intro notYet
    have initialized : s.kmemLInitialized = false := notYet
    rw [inHand.initialized] at initialized
    cases initialized

/-- Unless the section is a whole block and enough of them stand by, it goes on its list. -/
theorem InHand.finish_keep (inHand : InHand s hand tables) (settled : hand.Settled)
    (room : hand.before = [] ∧ hand.behind = [] → s.kmemLCompletePages hand.index ≠ 5) :
    ∃ s', kmemFreeFinish s hand.chunk.start = .ok s' ∧ HeapAt s' hand.returned.layout tables ∧
      HeapOnly (cellsOf hand.regions) s s' := by
  have tested := hand.alone_iff inHand.shape
  simp only [kmemFreeFinish, inHand.index_eq, tested]
  by_cases alone : hand.before = [] ∧ hand.behind = []
  · rw [if_pos alone, if_neg (room alone)]
    have changes : HeapOnly (cellsOf hand.regions) s (s.addCompletePages hand.index 1) :=
      ((TagsOnly.refl _ s).heapOnly).addCompletePages _ _
    refine ⟨_, rfl, inHand.insert settled (inHand.shape.addCompletePages _ _) changes ?_ room⟩
    intro index
    rw [Liballoc.addCompletePages]
    by_cases same : index = hand.index
    · subst same
      simp [alone]
    · simp [same, Ne.symm same]
  · rw [if_neg alone]
    refine ⟨_, rfl, inHand.insert settled inHand.shape (TagsOnly.refl _ s).heapOnly ?_ room⟩
    intro index
    simp [alone]

/-- A whole block that is not wanted any more is given to the page allocator. -/
theorem InHand.finish_release (inHand : InHand s hand tables)
    (alone : hand.before = [] ∧ hand.behind = []) (full : s.kmemLCompletePages hand.index = 5) :
    kmemFreeFinish s hand.chunk.start =
      (kmemLiballocFree s.kmem hand.block.ptr hand.block.pages).map s.setKmem := by
  have tested := hand.alone_iff inHand.shape
  have whole := inHand.whole alone
  have realSize := inHand.shape.realSize hand.chunk hand.chunk_mem
  simp only [kmemFreeFinish, inHand.index_eq, tested]
  rw [if_pos alone, if_pos full, realSize, whole.1, whole.2, kmemPages_whole inHand.pages]
  cases kmemLiballocFree s.kmem hand.block.ptr hand.block.pages with
  | error halt => rfl
  | ok kmem => rfl

end Return

/-- What the end of `kmem_free` gives to the page allocator, if anything. -/
def kmemFreeFinishReleases (s : Liballoc) (tag : ℕ) : Option Block :=
  let index := atLeastMinexp (kmemGetexp (sub32 (s.get tag .realSize) 32))
  if (s.get tag .splitLeft = 0 ∧ s.get tag .splitRight = 0) ∧ s.kmemLCompletePages index = 5 then
    some ⟨tag, kmemPages (s.get tag .realSize)⟩
  else none

/-- The block that `kmem_free` gives to the page allocator, if it gives one. -/
def kmemFreeReleases (s : Liballoc) (ptr : ℕ) : Option Block :=
  let tag := sub32 ptr 32
  if ptr = 0 ∨ s.get tag .magic ≠ liballocMagic then none
  else
    match kmemFreeMeltLeft s.lock tag walkFuel with
    | .error _ => none
    | .ok (tag, s) =>
        match kmemFreeMeltRight s tag walkFuel with
        | .error _ => none
        | .ok s => kmemFreeFinishReleases s tag

/-- The page allocator can take back what `kmem_free` gives to it. -/
def FreeSafe (s : Liballoc) (ptr : ℕ) : Prop :=
  ∀ block ∈ kmemFreeReleases s ptr, s.kmem.ReleaseSafe block

/-- A caller has given back `ptr`, and everyone else has what they had. -/
def Layout.Takes (layout : Layout) (ptr : ℕ) (after : Layout) : Prop :=
  ∀ other bytes, after.Holds other bytes ↔ layout.Holds other bytes ∧ other ≠ ptr

/-- `kmem_free` has joined the section of `ptr` with its free neighbours and has it in
hand. -/
structure Loosened (s : Liballoc) (layout : Layout) (tables : List Block) (ptr : ℕ)
    (s' : Liballoc) (hand : Hand) : Prop where
  finish : kmemFree s ptr = (kmemFreeFinish s' hand.chunk.start).map Liballoc.unlock
  releases : kmemFreeReleases s ptr = kmemFreeFinishReleases s' hand.chunk.start
  inHand : InHand s' hand tables
  settled : hand.Settled
  only : TagsOnly (cellsOf layout.regions) s.lock s'
  cells : cellsOf hand.regions ⊆ cellsOf layout.regions
  block : hand.block ∈ layout.regions.map Region.block
  holds : ∀ other bytes, HoldsIn hand.use hand.elsewhere other bytes ↔
    layout.Holds other bytes ∧ other ≠ ptr

section Free

variable {s : Liballoc} {layout : Layout} {hand : Hand} {tables : List Block} {ptr size : ℕ}

/-- A section in a caller's hands can be taken in hand. -/
theorem HeapAt.inHand (heap : HeapAt s hand.layout tables)
    (taken : hand.use hand.chunk.start = .taken size) : InHand s hand tables := by
  have same : ∀ chunk ∈ hand.elsewhere, hand.use chunk.start = hand.use chunk.start :=
    fun _ _ => rfl
  have around := heap.around same
  have counts : ∀ index, completeBlocks hand.use hand.regions index =
      completeBlocks hand.use hand.rest index := by
    intro index
    have complete := hand.complete_iff index
    rw [taken] at complete
    rw [Hand.regions, completeBlocks_cons]
    simp [complete]
  refine ⟨heap.shape, ⟨size, taken⟩, heap.sound_hand.1.pages, around.1, around.2.1, around.2.2.1,
    around.2.2.2, ?_, ?_, heap.backed, heap.initialized⟩
  · intro index
    rw [heap.counted]
    exact congrArg _ (counts index)
  · intro index
    rw [← counts]
    exact heap.atMost index

theorem HeapAt.loosen (heap : HeapAt s layout tables) (holds : layout.Holds ptr size) :
    ∃ s' hand, Loosened s layout tables ptr s' hand := by
  rcases holds with ⟨chunk, member, rfl, taken⟩
  rcases exists_split member with ⟨block, xs, ys, rest, perm⟩
  have moved : HeapAt s.lock (Hand.mk block xs chunk ys rest layout.use layout.bins).layout
      tables := heap.lock.perm perm
  have first := moved.inHand taken
  rcases first.meltLeft_loop (2 ^ 32 - 2) with ⟨middle, s₁, leftRun, left, settledLeft⟩
  rcases left.inHand.meltRight_loop (2 ^ 32 - 2) settledLeft with
    ⟨last, s₂, rightRun, sameTag, right, settled⟩
  have melted := left.trans right
  have cells : (cellsOf (Hand.mk block xs chunk ys rest layout.use layout.bins).regions).Perm
      (cellsOf layout.regions) := cellsOf_perm perm
  have magic := heap.shape.magic _ (chunk_cell_mem member)
  have atTag := heap.tag_eq member
  have fuel : walkFuel = 2 ^ 32 - 2 + 2 := rfl
  have leftLoop : kmemFreeMeltLeft s.lock chunk.start walkFuel = .ok (middle.chunk.start, s₁) := by
    rw [fuel]
    exact leftRun
  have rightLoop : kmemFreeMeltRight s₁ middle.chunk.start walkFuel = .ok s₂ := by
    rw [fuel]
    exact rightRun
  have notNull : chunk.start + 32 ≠ 0 := by omega
  refine ⟨s₂, last, ?_, ?_, right.inHand, settled, melted.only.mono cells.subset,
    List.Subset.trans melted.cells cells.subset, ?_, ?_⟩
  · have same : s.lock.get chunk.start .magic = liballocMagic := magic
    rw [kmemFree, if_neg notNull]
    dsimp only
    rw [atTag, same, if_neg (not_not_intro rfl), leftLoop]
    dsimp only
    rw [rightLoop, sameTag]
    dsimp only
    cases kmemFreeFinish s₂ middle.chunk.start with
    | error halt => rfl
    | ok s' => rfl
  · rw [kmemFreeReleases, atTag, if_neg (by simp [magic]), leftLoop]
    dsimp only
    rw [rightLoop, sameTag]
  · rw [melted.block]
    exact (perm.map Region.block).subset List.mem_cons_self
  · intro other bytes
    rw [melted.holds, ← HeapAt.holds_perm perm other bytes]
    have apart := Hand.not_holdsIn first.shape layout.use bytes
    have split := (Hand.mk block xs chunk ys rest layout.use layout.bins).holds_iff other bytes
    constructor
    · intro held
      refine ⟨split.mpr (Or.inr held), ?_⟩
      rintro rfl
      exact apart held
    · rintro ⟨held, different⟩
      exact (split.mp held).resolve_left (fun own => different own.1)

/-- The pages go back when the block is whole and enough of its kind stand by. -/
theorem InHand.finishReleases_eq (inHand : InHand s hand tables) :
    kmemFreeFinishReleases s hand.chunk.start =
      if (hand.before = [] ∧ hand.behind = []) ∧ s.kmemLCompletePages hand.index = 5 then
        some hand.block else none := by
  have tested := hand.alone_iff inHand.shape
  have realSize := inHand.shape.realSize hand.chunk hand.chunk_mem
  rw [kmemFreeFinishReleases, inHand.index_eq]
  simp only [tested, realSize]
  apply ite_congr rfl
  · intro released
    have whole := inHand.whole released.1
    rw [whole.1, whole.2, kmemPages_whole inHand.pages]
  · intro _
    rfl

theorem Loosened.releases_eq {s' : Liballoc} (loosened : Loosened s layout tables ptr s' hand) :
    kmemFreeReleases s ptr =
      if (hand.before = [] ∧ hand.behind = []) ∧ s'.kmemLCompletePages hand.index = 5 then
        some hand.block else none :=
  loosened.releases.trans loosened.inHand.finishReleases_eq

/-- A block is given back, and the heap keeps its section for later. -/
theorem HeapAt.free_keep (heap : HeapAt s layout tables) (holds : layout.Holds ptr size)
    (keeps : kmemFreeReleases s ptr = none) :
    ∃ s' after, kmemFree s ptr = .ok s' ∧ HeapAt s' after tables ∧ layout.Takes ptr after ∧
      Touches (cellsOf layout.regions) s s' ∧ s'.kmem = s.kmem ∧
        s'.flags = kmemLiballocUnlock (kmemLiballocLock s.flags) := by
  rcases heap.loosen holds with ⟨middle, hand, loosened⟩
  have room : hand.before = [] ∧ hand.behind = [] → middle.kmemLCompletePages hand.index ≠ 5 := by
    intro alone full
    rw [loosened.releases_eq, if_pos ⟨alone, full⟩] at keeps
    cases keeps
  rcases loosened.inHand.finish_keep loosened.settled room with
    ⟨last, returns, heapAfter, changes⟩
  have written := (loosened.only.heapOnly.trans (changes.mono loosened.cells)).unlock
  refine ⟨last.unlock, hand.returned.layout, ?_, heapAfter.unlock, ?_, written.2.2.rebase rfl,
    written.1, written.2.1⟩
  · rw [loosened.finish, returns]
    rfl
  · intro other bytes
    have moved := Hand.returned_use loosened.inHand.shape
    rw [← loosened.holds, ← holdsIn_congr moved, hand.returned.holds_iff, hand.returned_start]
    simp only [reduceCtorEq, and_false, false_or]
    rfl

/-- A block is given back, and with it the pages of the block that it was the last one in, as
far as the page allocator takes them. -/
theorem HeapAt.free_release (heap : HeapAt s layout tables) (holds : layout.Holds ptr size)
    {block : Block} (releases : kmemFreeReleases s ptr = some block) :
    ∃ middle : Liballoc, kmemFree s ptr =
        (kmemLiballocFree s.kmem block.ptr block.pages).map
          (fun kmem => (middle.setKmem kmem).unlock) ∧
      ∀ kmem, kmemLiballocFree s.kmem block.ptr block.pages = .ok kmem →
        s.kmem.ReleaseSafe block →
          ∃ after, HeapAt (middle.setKmem kmem).unlock after tables ∧ layout.Takes ptr after ∧
            Touches (cellsOf layout.regions) s (middle.setKmem kmem).unlock ∧
              (middle.setKmem kmem).unlock.flags =
                kmemLiballocUnlock (kmemLiballocLock s.flags) := by
  rcases heap.loosen holds with ⟨middle, hand, loosened⟩
  have sameKmem : middle.kmem = s.kmem := loosened.only.kmem
  have sameFlags : middle.flags = kmemLiballocLock s.flags := loosened.only.flags
  rw [loosened.releases_eq] at releases
  split at releases
  · rename_i released
    rcases released with ⟨alone, full⟩
    cases releases
    refine ⟨middle, ?_, ?_⟩
    · rw [loosened.finish, loosened.inHand.finish_release alone full, sameKmem]
      cases kmemLiballocFree s.kmem hand.block.ptr hand.block.pages with
      | error halt => rfl
      | ok kmem => rfl
    · intro kmem returns safe
      rw [← sameKmem] at safe returns
      refine ⟨_, (loosened.inHand.release alone safe returns).unlock, ?_,
        loosened.only.touches.rebase rfl, congrArg kmemLiballocUnlock sameFlags⟩
      intro other bytes
      rw [← loosened.holds]
      simp [Layout.Holds, Hand.elsewhere, alone.1, alone.2]
  · cases releases

end Free

end Osserver
