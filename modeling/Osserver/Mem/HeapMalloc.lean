import Osserver.Mem.HeapInvariant

/-!
# What `kmem_malloc` does to the heap

A section that is in hand, either because it has left its list or because its block
is new, is given to the caller: whole, or without its end when that is large enough
to be a section of its own. `Allot` is this step on the map of the heap.
-/

namespace Osserver

open Liballoc

/-- The section at `start` before, and the sections in its place, their uses and the lists
after `size` bytes of it are given to a caller. -/
inductive Allot (size start : ℕ) (use : ℕ → Use) (bins : ℤ → List ℕ) :
    ℕ → List Chunk → (ℕ → Use) → (ℤ → List ℕ) → Prop where
  | whole {length : ℕ} (room : size + 32 ≤ length) (small : length < size + 320) :
      Allot size start use bins length [⟨start, length⟩]
        (Function.update use start (.taken size)) bins
  | cut {back : ℕ} (large : 288 ≤ back) :
      Allot size start use bins (32 + size + back)
        [⟨start, 32 + size⟩, ⟨start + (32 + size), back⟩]
        (Function.update (Function.update use start (.taken size)) (start + (32 + size))
          (.free (binOf (back - 32))))
        (Function.update bins (binOf (back - 32))
          ((start + (32 + size)) :: bins (binOf (back - 32))))

namespace Allot

variable {size start length : ℕ} {use use' : ℕ → Use} {bins bins' : ℤ → List ℕ}
  {between : List Chunk}

theorem use_start (allot : Allot size start use bins length between use' bins') :
    use' start = .taken size := by
  cases allot with
  | whole => exact Function.update_self _ _ _
  | cut =>
      have different : start ≠ start + (32 + size) := by omega
      rw [Function.update_of_ne different, Function.update_self]

theorem use_other (allot : Allot size start use bins length between use' bins') {cell : ℕ}
    (away : ∀ chunk ∈ between, cell ≠ chunk.start) : use' cell = use cell := by
  cases allot with
  | whole => exact Function.update_of_ne (away _ List.mem_cons_self) _ _
  | cut =>
      have notBack := away _ (List.mem_cons_of_mem _ List.mem_cons_self)
      have notFront := away _ List.mem_cons_self
      rw [Function.update_of_ne notBack, Function.update_of_ne notFront]

theorem sound (allot : Allot size start use bins length between use' bins') :
    ∀ chunk ∈ between, ChunkSound use' chunk := by
  have atStart := allot.use_start
  cases allot with
  | whole room small =>
      intro chunk member
      rw [List.mem_singleton] at member
      subst member
      rw [ChunkSound, atStart]
      exact ⟨room, small⟩
  | cut large =>
      intro chunk member
      simp only [List.mem_cons, List.not_mem_nil, or_false] at member
      rcases member with rfl | rfl
      · rw [ChunkSound, atStart]
        simp only
        omega
      · rw [ChunkSound, Function.update_self]

theorem head (allot : Allot size start use bins length between use' bins') :
    ∃ chunk behind, between = chunk :: behind ∧ chunk.start = start := by
  cases allot with
  | whole => exact ⟨_, _, rfl, rfl⟩
  | cut => exact ⟨_, _, rfl, rfl⟩

theorem holdsIn (allot : Allot size start use bins length between use' bins') (ptr bytes : ℕ) :
    HoldsIn use' between ptr bytes ↔ ptr = start + 32 ∧ bytes = size := by
  have atStart := allot.use_start
  cases allot with
  | whole =>
      simp only [HoldsIn, List.mem_singleton, exists_eq_left, atStart, Use.taken.injEq]
      tauto
  | cut =>
      simp only [HoldsIn, List.mem_cons, List.not_mem_nil, or_false, exists_eq_or_imp,
        exists_eq_left, atStart, Function.update_self, Use.taken.injEq, reduceCtorEq, and_false]
      tauto

theorem chain (allot : Allot size start use bins length between use' bins') :
    between.IsChain (Separate use') := by
  have atStart := allot.use_start
  cases allot with
  | whole => exact List.isChain_singleton _
  | cut =>
      rw [List.isChain_pair, Separate, atStart]
      exact fun both => both.1

/-- A block with a section in use is not complete. -/
theorem not_complete (allot : Allot size start use bins length between use' bins') (block : Block)
    (xs ys : List Chunk) (index : ℤ) :
    (⟨block, xs ++ (between ++ ys)⟩ : Region).complete use' index = false := by
  have atStart := allot.use_start
  rcases allot.head with ⟨chunk, behind, rfl, same⟩
  rw [Region.complete]
  split
  · rename_i single isSingle
    have member : chunk ∈ [single] := by
      rw [← isSingle]
      simp
    rw [List.mem_singleton] at member
    rw [← member, same, atStart]
    simp
  · rfl

/-- What was as it should be around the section still is. -/
theorem regionSound (allot : Allot size start use bins length between use' bins') {block : Block}
    {xs ys : List Chunk} (pages : 16 ≤ block.pages)
    (chunks : ∀ chunk ∈ xs ++ ys, ChunkSound use' chunk)
    (before : xs.IsChain (Separate use')) (behind : ys.IsChain (Separate use'))
    (clear : ∀ chunk ∈ ys.head?, ¬(use' chunk.start).IsFree) :
    RegionSound use' ⟨block, xs ++ (between ++ ys)⟩ := by
  refine ⟨pages, ?_, ?_⟩
  · intro chunk member
    simp only [List.mem_append] at member
    rcases member with inXs | inBetween | inYs
    · exact chunks chunk (List.mem_append_left _ inXs)
    · exact allot.sound chunk inBetween
    · exact chunks chunk (List.mem_append_right _ inYs)
  · refine before.append (allot.chain.append behind ?_) ?_
    · intro last _ next nextMem both
      exact clear next nextMem both.2
    · rcases allot.head with ⟨first, others, rfl, atStart⟩
      intro last _ next nextMem both
      have isFirst : first = next := by simpa using nextMem
      rw [← isFirst, atStart, allot.use_start] at both
      exact both.2

end Allot

section Finish

variable {s : Liballoc} {block : Block} {xs ys : List Chunk} {rest : List Region} {use : ℕ → Use}
  {bins : ℤ → List ℕ} {start length size : ℕ}

theorem remainder_cases (room : size + 32 ≤ length) (small : length < 2 ^ 31) :
    int32 (sub32 (sub32 length size) 64) > 0 ∧
        kmemGetexp (sub32 (sub32 length size) 64) ≥ 0 ↔ size + 320 ≤ length := by
  have first : sub32 length size = length - size := sub32_of_le (by omega) (by omega)
  rw [first]
  by_cases enough : 64 ≤ length - size
  · rw [sub32_of_le enough (by omega), int32_pos_iff (by omega), kmemGetexp_eq (by omega)]
    split <;> omega
  · have wrapped : sub32 (length - size) 64 = 2 ^ 32 + (length - size) - 64 := by
      rw [sub32]
      omega
    rw [wrapped, int32_pos_iff (by omega)]
    omega

theorem kmemMallocFinish_eq (realSize : (s.set start .size size).get start .realSize = length)
    (room : size + 32 ≤ length) (small : length < 2 ^ 31) :
    kmemMallocFinish s start size =
      if size + 320 ≤ length then kmemSplitTag (s.set start .size size) start
      else s.set start .size size := by
  have cases := remainder_cases room small
  simp only [kmemMallocFinish, realSize]
  by_cases enough : size + 320 ≤ length
  · have both := cases.mpr enough
    rw [if_pos both.1, if_pos both.2, if_pos enough]
  · rw [if_neg enough]
    by_cases positive : int32 (sub32 (sub32 length size) 64) > 0
    · have tooSmall : ¬kmemGetexp (sub32 (sub32 length size) 64) ≥ 0 :=
        fun nonneg => enough (cases.mp ⟨positive, nonneg⟩)
      rw [if_pos positive, if_neg tooSmall]
    · rw [if_neg positive]

theorem Shape.split {back : ℕ}
    (shape : Shape s ⟨⟨block, xs ++ ⟨start, 32 + size + back⟩ :: ys⟩ :: rest, use, bins⟩)
    (taken : use start = .taken size) (large : 288 ≤ back) :
    Shape (kmemSplitTag s start)
        ⟨⟨block, xs ++ ⟨start, 32 + size⟩ :: ⟨start + (32 + size), back⟩ :: ys⟩ :: rest,
          Function.update use (start + (32 + size)) (.free (binOf (back - 32))),
          Function.update bins (binOf (back - 32))
            ((start + (32 + size)) :: bins (binOf (back - 32)))⟩ ∧
      TagsOnly (cellsOf (⟨block,
        xs ++ ⟨start, 32 + size⟩ :: ⟨start + (32 + size), back⟩ :: ys⟩ :: rest)) s
        (kmemSplitTag s start) := by
  have wholeIn : (⟨start, 32 + size + back⟩ : Chunk) ∈
      chunksOf (⟨block, xs ++ ⟨start, 32 + size + back⟩ :: ys⟩ :: rest) := by simp
  have bounds := shape.placed.chunk_bounds wholeIn
  simp only [Chunk.stop] at bounds
  have realSize : s.get start .realSize = 32 + size + back := shape.realSize _ wholeIn
  have sizeIs : s.get start .size = size :=
    (shape.fields_of_taken (chunk_cell_mem wholeIn) taken).2
  have atNew : add32 (add32 start 32) size = start + (32 + size) := by
    have tagEnd : add32 start 32 = start + 32 := add32_of_lt (by omega)
    rw [tagEnd, add32_of_lt (by omega), Nat.add_assoc]
  have remainder : sub32 (sub32 (32 + size + back) 32) size = back := by
    have behindTag : sub32 (32 + size + back) 32 = size + back := by
      rw [sub32_of_le (by omega) (by omega)]
      omega
    rw [behindTag, sub32_of_le (by omega) (by omega), Nat.add_sub_cancel_left]
  have frontRoom : 32 ≤ 32 + size := by omega
  have backRoom : 32 ≤ back := by omega
  have carved := shape.carve frontRoom backRoom
  have carvedOnly := (shape.carve_edited frontRoom backRoom).toTagsOnly
  have backIn : (⟨start + (32 + size), back⟩ : Chunk) ∈ chunksOf (⟨block,
      xs ++ ⟨start, 32 + size⟩ :: ⟨start + (32 + size), back⟩ :: ys⟩ :: rest) := by simp
  have newMem := chunk_cell_mem backIn
  have low := eight_le_binOf (back - 32)
  have high : binOf (back - 32) < 32 := binOf_lt (by omega)
  have inserted := carved.insert newMem (by simp) low high
  have nonneg : 0 ≤ binOf (back - 32) := by omega
  have insertedOnly := (carved.insert_edited newMem nonneg).toTagsOnly
  rw [kmemSplitTag_eq, realSize, sizeIs, atNew, remainder,
    kmemInsertTag_unindexed (carved.realSize _ backIn) backRoom]
  refine ⟨?_, carvedOnly.trans insertedOnly⟩
  simpa only [Function.update_idem] using inserted

theorem Shape.finish (shape : Shape s ⟨⟨block, xs ++ ⟨start, length⟩ :: ys⟩ :: rest, use, bins⟩)
    {old : ℕ} (taken : use start = .taken old) (room : size + 32 ≤ length)
    (small : length < 2 ^ 31) :
    ∃ between use' bins', Allot size start use bins length between use' bins' ∧
      Shape (kmemMallocFinish s start size) ⟨⟨block, xs ++ (between ++ ys)⟩ :: rest, use', bins'⟩ ∧
        TagsOnly (cellsOf (⟨block, xs ++ (between ++ ys)⟩ :: rest)) s
          (kmemMallocFinish s start size) := by
  have wholeIn : (⟨start, length⟩ : Chunk) ∈
      chunksOf (⟨block, xs ++ ⟨start, length⟩ :: ys⟩ :: rest) := by simp
  have tagMem := chunk_cell_mem wholeIn
  have sizeSmall : size < 2 ^ 32 := by omega
  have sized := shape.setSize tagMem taken sizeSmall
  have setOnly := ((Edited.refl _ s).set shape.roomy tagMem .size size sizeSmall).toTagsOnly
  have realSize := sized.realSize _ wholeIn
  rw [kmemMallocFinish_eq realSize room small]
  by_cases enough : size + 320 ≤ length
  · rw [if_pos enough]
    have split : length = 32 + size + (length - (32 + size)) := by omega
    have large : 288 ≤ length - (32 + size) := by omega
    rw [split] at sized ⊢
    have parted := sized.split (Function.update_self _ _ _) large
    refine ⟨_, _, _, .cut large, parted.1, ?_⟩
    refine TagsOnly.trans ?_ parted.2
    apply setOnly.mono
    intro cell member
    rw [split] at member
    exact (carve_cell_mem cell).mpr (Or.inr member)
  · rw [if_neg enough]
    exact ⟨_, _, _, .whole room (by omega), sized, setOnly⟩

end Finish

section InHand

variable {s : Liballoc} {hand : Hand} {tables : List Block} {size : ℕ}

/-- A section in hand that has room for `size` bytes is given to a caller. -/
theorem InHand.finish (inHand : InHand s hand tables) (settled : hand.Settled)
    (room : size + 32 ≤ hand.chunk.length) :
    ∃ layout, HeapAt (kmemMallocFinish s hand.chunk.start size) layout tables ∧
      (∀ ptr bytes, layout.Holds ptr bytes ↔
        (ptr = hand.chunk.start + 32 ∧ bytes = size) ∨
          HoldsIn hand.use hand.elsewhere ptr bytes) ∧
        TagsOnly (cellsOf layout.regions) s (kmemMallocFinish s hand.chunk.start size) := by
  rcases inHand.taken with ⟨old, taken⟩
  rcases inHand.shape.finish taken room inHand.length_lt with
    ⟨between, use', bins', allot, shape, only⟩
  have perm : (cellsOf (⟨hand.block, hand.before ++ (between ++ hand.behind)⟩ :: hand.rest)).Perm
      (between.map Chunk.start ++ hand.elsewhere.map Chunk.start) := by
    simp only [cellsOf, Hand.elsewhere, chunksOf_cons, List.map_append, List.append_assoc]
    exact List.perm_append_comm_assoc _ _ _
  have apart := (List.nodup_append.mp (perm.nodup_iff.mp shape.placed.cells_nodup)).2.2
  have same : ∀ chunk ∈ hand.elsewhere, use' chunk.start = hand.use chunk.start := by
    intro chunk member
    apply allot.use_other
    intro other otherMem equal
    exact apart _ (List.mem_map_of_mem otherMem) _ (List.mem_map_of_mem member) equal.symm
  have around : ∀ chunk ∈ hand.before ++ hand.behind, use' chunk.start = hand.use chunk.start :=
    fun chunk member => same chunk (Hand.mem_elsewhere.mpr (Or.inl (List.mem_append.mp member)))
  have inRest : ∀ chunk ∈ chunksOf hand.rest, use' chunk.start = hand.use chunk.start :=
    fun chunk member => same chunk (Hand.mem_elsewhere.mpr (Or.inr member))
  have counts : ∀ index, completeBlocks use'
      (⟨hand.block, hand.before ++ (between ++ hand.behind)⟩ :: hand.rest) index =
        completeBlocks hand.use hand.rest index := by
    intro index
    rw [completeBlocks_cons, allot.not_complete, completeBlocks_congr inRest]
    simp
  refine ⟨_, ⟨shape, ?_, ?_, ?_, ?_, ?_⟩, ?_, only⟩
  · intro region member
    rcases List.mem_cons.mp member with rfl | old
    · apply allot.regionSound inHand.pages
      · exact fun chunk member => (inHand.chunks chunk member).congr (around chunk member)
      · exact chain_congr inHand.before
          (fun chunk member => around chunk (List.mem_append_left _ member))
      · exact chain_congr inHand.behind
          (fun chunk member => around chunk (List.mem_append_right _ member))
      · intro chunk member
        rw [around chunk (List.mem_append_right _ (List.mem_of_mem_head? member))]
        exact settled.behind chunk member
    · apply (inHand.others region old).congr
      exact fun chunk member => inRest chunk (mem_chunksOf.mpr ⟨region, old, member⟩)
  · intro index
    rw [only.completePages, inHand.counted, counts]
  · intro index
    rw [counts]
    exact inHand.atMost index
  · rw [only.kmem]
    exact inHand.backed
  · intro notYet
    rw [only.initialized, inHand.initialized] at notYet
    cases notYet
  · intro ptr bytes
    rw [← holdsIn_congr same]
    simp only [Layout.Holds, chunksOf_cons, Hand.elsewhere, List.append_assoc, holdsIn_append,
      allot.holdsIn]
    exact or_left_comm

end InHand

/-- A caller has got `size` bytes from `ptr` on, and everyone else has what they had. -/
structure Layout.Gives (layout : Layout) (ptr size : ℕ) (after : Layout) : Prop where
  holds : ∀ other bytes,
    after.Holds other bytes ↔ (other = ptr ∧ bytes = size) ∨ layout.Holds other bytes
  fresh : ∀ bytes, ¬layout.Holds ptr bytes
  notNull : ptr ≠ 0

theorem cell_mem_of_holds {layout : Layout} {tag size : ℕ} (holds : layout.Holds (tag + 32) size) :
    tag ∈ cellsOf layout.regions := by
  rcases holds with ⟨chunk, member, same, _⟩
  have start : chunk.start = tag := by omega
  exact start ▸ chunk_cell_mem member

/-- The section in hand is nobody's. -/
theorem Hand.not_holdsIn {s : Liballoc} {hand : Hand} (shape : Shape s hand.layout)
    (use : ℕ → Use) (bytes : ℕ) :
    ¬HoldsIn use hand.elsewhere (hand.chunk.start + 32) bytes := by
  rintro ⟨chunk, member, same, _⟩
  exact Hand.elsewhere_ne shape chunk member (by omega)

section Take

variable {s : Liballoc} {hand : Hand} {layout : Layout} {tables : List Block} {index : ℤ}

theorem kmemMallocTake_eq {tag : ℕ} {alone : Prop} [Decidable alone]
    (tested : (kmemRemoveTag s tag).get tag .splitLeft = 0 ∧
      (kmemRemoveTag s tag).get tag .splitRight = 0 ↔ alone) :
    kmemMallocTake s index tag =
      if alone then (kmemRemoveTag s tag).addCompletePages index (-1) else kmemRemoveTag s tag := by
  simp only [kmemMallocTake, tested]

/-- A free section is counted once, if it is the whole of its block. -/
theorem HeapAt.counted_free (heap : HeapAt s hand.layout tables)
    (isFree : hand.use hand.chunk.start = .free index) (other : ℤ) :
    s.kmemLCompletePages other = completeBlocks hand.use hand.rest other +
      if (hand.before = [] ∧ hand.behind = []) ∧ index = other then 1 else 0 := by
  have counted := heap.counted other
  have complete := hand.complete_iff other
  rw [isFree, Use.free.injEq] at complete
  simp only [Hand.layout, Hand.regions, completeBlocks_cons, complete] at counted
  rw [counted]
  split <;> simp

theorem HeapAt.sound_hand (heap : HeapAt s hand.layout tables) :
    RegionSound hand.use ⟨hand.block, hand.before ++ hand.chunk :: hand.behind⟩ ∧
      ∀ region ∈ hand.rest, RegionSound hand.use region :=
  List.forall_mem_cons.mp heap.sound

theorem HeapAt.settled_of_free (heap : HeapAt s hand.layout tables)
    (isFree : hand.use hand.chunk.start = .free index) : hand.Settled := by
  have separate := heap.sound_hand.1.separate
  have ends := (List.isChain_append.mp separate).2.2
  have behind := (List.isChain_cons.mp (List.isChain_append.mp separate).2.1).1
  have free : (hand.use hand.chunk.start).IsFree := by
    rw [isFree]
    trivial
  refine ⟨?_, ?_⟩
  · exact fun chunk member alsoFree => ends chunk member hand.chunk (by simp) ⟨alsoFree, free⟩
  · exact fun chunk member alsoFree => behind chunk member ⟨free, alsoFree⟩

/-- What is around a section is as it should be, whatever happens to the section. -/
theorem HeapAt.around (heap : HeapAt s hand.layout tables) {use : ℕ → Use}
    (same : ∀ chunk ∈ hand.elsewhere, use chunk.start = hand.use chunk.start) :
    (∀ chunk ∈ hand.before ++ hand.behind, ChunkSound use chunk) ∧
      hand.before.IsChain (Separate use) ∧ hand.behind.IsChain (Separate use) ∧
        ∀ region ∈ hand.rest, RegionSound use region := by
  rcases heap.sound_hand with ⟨⟨_, chunks, separate⟩, others⟩
  have around : ∀ chunk ∈ hand.before ++ hand.behind, use chunk.start = hand.use chunk.start :=
    fun chunk member => same chunk (Hand.mem_elsewhere.mpr (Or.inl (List.mem_append.mp member)))
  have chains := List.isChain_append.mp separate
  refine ⟨?_, ?_, ?_, ?_⟩
  · intro chunk member
    apply (chunks chunk _).congr (around chunk member)
    simp only [List.mem_append, List.mem_cons] at member ⊢
    tauto
  · exact chain_congr chains.1 (fun chunk member => around chunk (List.mem_append_left _ member))
  · exact chain_congr (List.isChain_cons.mp chains.2.1).2
      (fun chunk member => around chunk (List.mem_append_right _ member))
  · intro region member
    apply (others region member).congr
    intro chunk inRegion
    exact same chunk (Hand.mem_elsewhere.mpr
      (Or.inr (mem_chunksOf.mpr ⟨region, member, inRegion⟩)))

theorem HeapAt.initialized (heap : HeapAt s hand.layout tables) : s.kmemLInitialized = true := by
  cases initialized : s.kmemLInitialized with
  | true => rfl
  | false => simpa [Hand.layout, Hand.regions] using heap.empty initialized

/-- The section in hand, which was free, has left its list. Its tag keeps some size. -/
def Hand.withdrawn (hand : Hand) (index : ℤ) (size : ℕ) : Hand :=
  { hand with
    use := Function.update hand.use hand.chunk.start (.taken size)
    bins := Function.update hand.bins index ((hand.bins index).erase hand.chunk.start) }

theorem Hand.withdrawn_taken (hand : Hand) (index : ℤ) (size : ℕ) :
    (hand.withdrawn index size).use hand.chunk.start = .taken size :=
  Function.update_self _ _ _

theorem Hand.withdrawn_use (shape : Shape s hand.layout) (index : ℤ) (size : ℕ) :
    ∀ chunk ∈ hand.elsewhere,
      (hand.withdrawn index size).use chunk.start = hand.use chunk.start :=
  fun chunk member => Function.update_of_ne (Hand.elsewhere_ne shape chunk member) _ _

theorem Hand.withdrawn_complete (shape : Shape s hand.layout) (index : ℤ) (size : ℕ)
    (other : ℤ) :
    completeBlocks (hand.withdrawn index size).use hand.rest other =
      completeBlocks hand.use hand.rest other := by
  apply completeBlocks_congr
  intro chunk member
  exact hand.withdrawn_use shape index size chunk (mem_elsewhere.mpr (Or.inr member))

/-- The counts of the complete blocks when the block of a free section is not counted. -/
theorem HeapAt.counted_take (heap : HeapAt s hand.layout tables)
    (isFree : hand.use hand.chunk.start = .free index) {s' : Liballoc}
    (same : s'.kmemLCompletePages = s.kmemLCompletePages) (other : ℤ) :
    (if hand.before = [] ∧ hand.behind = [] then s'.addCompletePages index (-1)
      else s').kmemLCompletePages other = completeBlocks hand.use hand.rest other := by
  have counted := heap.counted_free isFree other
  by_cases alone : hand.before = [] ∧ hand.behind = []
  · rw [if_pos alone, addCompletePages, same]
    by_cases equal : other = index
    · subst equal
      rw [if_pos ⟨alone, rfl⟩] at counted
      simp only [Function.update_self, counted]
      omega
    · rw [if_neg (fun both => equal both.2.symm)] at counted
      simp only [Function.update_of_ne equal, counted]
      omega
  · rw [if_neg (fun both => alone both.1)] at counted
    rw [if_neg alone, same, counted]
    omega

/-- The section of a free tag leaves its list, and a block that was complete is not counted
any more. -/
theorem HeapAt.take (heap : HeapAt s hand.layout tables)
    (isFree : hand.use hand.chunk.start = .free index) :
    InHand (kmemMallocTake s index hand.chunk.start)
        (hand.withdrawn index (s.get hand.chunk.start .size)) tables ∧
      HeapOnly (cellsOf hand.regions) s (kmemMallocTake s index hand.chunk.start) := by
  have inBin := (heap.shape.binned index _).mpr ⟨chunk_cell_mem hand.chunk_mem, isFree⟩
  have only := (heap.shape.remove_edited inBin).toTagsOnly
  have shape : Shape (kmemRemoveTag s hand.chunk.start)
      (hand.withdrawn index (s.get hand.chunk.start .size)).layout := heap.shape.remove inBin
  have tested : (kmemRemoveTag s hand.chunk.start).get hand.chunk.start .splitLeft = 0 ∧
      (kmemRemoveTag s hand.chunk.start).get hand.chunk.start .splitRight = 0 ↔
        hand.before = [] ∧ hand.behind = [] :=
    (hand.withdrawn index (s.get hand.chunk.start .size)).alone_iff shape
  have counted := heap.counted_take isFree only.completePages
  have changes : HeapOnly (cellsOf hand.regions) s
      (if hand.before = [] ∧ hand.behind = [] then
        (kmemRemoveTag s hand.chunk.start).addCompletePages index (-1)
        else kmemRemoveTag s hand.chunk.start) := by
    split
    · exact only.heapOnly.addCompletePages index (-1)
    · exact only.heapOnly
  have tags : Shape (if hand.before = [] ∧ hand.behind = [] then
        (kmemRemoveTag s hand.chunk.start).addCompletePages index (-1)
        else kmemRemoveTag s hand.chunk.start)
      (hand.withdrawn index (s.get hand.chunk.start .size)).layout := by
    split
    · exact shape.addCompletePages index (-1)
    · exact shape
  rw [kmemMallocTake_eq tested]
  have around := heap.around (hand.withdrawn_use heap.shape index (s.get hand.chunk.start .size))
  refine ⟨⟨tags, ⟨_, hand.withdrawn_taken index _⟩, heap.sound_hand.1.pages, around.1, around.2.1,
    around.2.2.1, around.2.2.2, ?_, ?_, ?_, changes.initialized.trans heap.initialized⟩, changes⟩
  · intro other
    rw [counted]
    exact congrArg _ (hand.withdrawn_complete heap.shape index _ other).symm
  · intro other
    have before := heap.atMost other
    simp only [Hand.layout, Hand.regions, completeBlocks_cons] at before
    have after := hand.withdrawn_complete heap.shape index (s.get hand.chunk.start .size) other
    exact after ▸ Nat.le_of_add_right_le before
  · rw [changes.kmem]
    exact heap.backed

end Take

section Fresh

variable {s : Liballoc} {layout : Layout} {tables : List Block} {size : ℕ}

/-- The section that a new block consists of, in hand. -/
def Layout.grown (layout : Layout) (block : Block) (size : ℕ) : Hand where
  block := block
  before := []
  chunk := ⟨block.ptr, block.pages * 4096⟩
  behind := []
  rest := layout.regions
  use := Function.update layout.use block.ptr (.taken size)
  bins := layout.bins

theorem Layout.grown_elsewhere (layout : Layout) (block : Block) (size : ℕ) :
    (layout.grown block size).elsewhere = chunksOf layout.regions :=
  rfl

/-- A block that the page allocator hands out lies beside those that the heap has. -/
theorem HeapAt.placed_new (heap : HeapAt s layout tables) {block : Block} {after : Kmem}
    (pages : 16 ≤ block.pages) (tiled : KmemRun.Tiled kernelHeap
      ⟨after, block :: (layout.regions.map Region.block ++ tables)⟩) :
    Placed (⟨block, [⟨block.ptr, block.pages * 4096⟩]⟩ :: layout.regions) := by
  rcases tiled with ⟨entries, _, owned⟩
  have blockMem : block ∈ entries.map after.block ++
      (block :: (layout.regions.map Region.block ++ tables)) := by simp
  have bounds := owned.bounds blockMem
  have held := (List.pairwise_append.mp owned.pairwise_apart).2.1
  have apart := (List.pairwise_cons.mp held).1
  refine ⟨?_, ?_, ?_⟩
  · intro region member
    rcases List.mem_cons.mp member with rfl | old
    · refine ⟨rfl, ?_, rfl⟩
      simp only
      omega
    · exact heap.shape.placed.filled region old
  · intro region member
    rcases List.mem_cons.mp member with rfl | old
    · simp only [kernelHeap] at bounds
      simp only
      omega
    · exact heap.shape.placed.bounds region old
  · refine List.pairwise_cons.mpr ⟨?_, heap.shape.placed.apart⟩
    intro region member
    apply apart
    exact List.mem_append_left _ (List.mem_map_of_mem member)

theorem HeapAt.grow (heap : HeapAt s layout tables) (initialized : s.kmemLInitialized = true)
    (small : size < 2 ^ 32) (block : Block) {after : Kmem} (pages : 16 ≤ block.pages)
    (returns : kmemLiballocAlloc s.kmem block.pages = .ok (some block.ptr, after)) :
    InHand (kmemWriteNewTag (s.setKmem after) block.ptr size (block.pages * 4096 % 2 ^ 32))
        (layout.grown block size) tables ∧
      HeapOnly (cellsOf (layout.grown block size).regions) (s.setKmem after)
        (kmemWriteNewTag (s.setKmem after) block.ptr size
          (block.pages * 4096 % 2 ^ 32)) ∧
      ∀ chunk ∈ chunksOf layout.regions,
        (layout.grown block size).use chunk.start = layout.use chunk.start := by
  have backed : Backed after (block :: (layout.regions.map Region.block ++ tables)) :=
    heap.backed.alloc (by omega) returns
  have placed := heap.placed_new pages backed.tiled
  have bounds := placed.bounds _ List.mem_cons_self
  simp only [Block.stop] at bounds
  have whole : block.pages * 4096 % 2 ^ 32 = block.pages * 4096 := Nat.mod_eq_of_lt (by omega)
  have old : Shape (s.setKmem after) ⟨layout.regions, layout.use, layout.bins⟩ :=
    heap.shape.of_same (fun _ _ _ => rfl) rfl
  have fresh := old.fresh placed small
  have edited := Shape.fresh_edited (s := s.setKmem after) placed small
  have notMem := Shape.fresh_notMem placed
  have same : ∀ chunk ∈ chunksOf layout.regions,
      Function.update layout.use block.ptr (.taken size) chunk.start = layout.use chunk.start := by
    intro chunk member
    apply Function.update_of_ne
    rintro equal
    exact notMem (equal ▸ chunk_cell_mem member)
  rw [whole]
  refine ⟨⟨fresh, ⟨size, Function.update_self _ _ _⟩, pages, ?_, List.isChain_nil, List.isChain_nil,
    ?_, ?_, ?_, ?_, ?_⟩, edited.toTagsOnly.heapOnly, same⟩
  · intro chunk member
    cases member
  · intro region member
    apply (heap.sound region member).congr
    exact fun chunk inRegion => same chunk (mem_chunksOf.mpr ⟨region, member, inRegion⟩)
  · intro index
    rw [edited.completePages]
    exact (heap.counted index).trans (congrArg _ (completeBlocks_congr same).symm)
  · intro index
    exact (completeBlocks_congr same).trans_le (heap.atMost index)
  · have kmem : _ = after := edited.kmem
    rw [kmem]
    exact backed
  · exact edited.initialized.trans initialized

/-- The front of a new block is given to the caller. -/
theorem HeapAt.grow_finish (heap : HeapAt s layout tables)
    (initialized : s.kmemLInitialized = true) (small : size + 32 < 2 ^ 32) {ptr : ℕ} {after : Kmem}
    (returns : kmemLiballocAlloc s.kmem (kmemPages (size + 32)) = .ok (some ptr, after)) :
    ∃ s' layout', kmemAllocateNewTag s size = .ok (some ptr, s') ∧ ptr + 32 < 2 ^ 32 ∧
      HeapAt (kmemMallocFinish s' ptr size) layout' tables ∧ layout.Gives (ptr + 32) size layout' ∧
        HeapOnly (cellsOf layout.regions ++ cellsOf layout'.regions) (s.setKmem after)
          (kmemMallocFinish s' ptr size) := by
  have pages := kmemPages_spec (size + 32)
  have sizeSmall : size < 2 ^ 32 := by omega
  rcases heap.grow initialized sizeSmall ⟨ptr, kmemPages (size + 32)⟩ pages.1 returns with
    ⟨inHand, changes, sameUse⟩
  have settled : (layout.grown ⟨ptr, kmemPages (size + 32)⟩ size).Settled := by
    refine ⟨?_, ?_⟩
    · intro chunk member
      cases member
    · intro chunk member
      cases member
  rcases inHand.finish settled pages.2 with ⟨layout', heapAfter, holds, only⟩
  have bounds := inHand.shape.placed.chunk_bounds (Hand.chunk_mem _)
  simp only [Layout.grown, Chunk.stop] at bounds
  refine ⟨_, layout', ?_, by omega, heapAfter, ⟨?_, ?_, by omega⟩, ?_⟩
  · rw [kmemAllocateNewTag, add32_of_lt small]
    dsimp only
    rw [returns]
  · intro other bytes
    rw [holds, Layout.grown_elsewhere, holdsIn_congr sameUse]
    rfl
  · exact Hand.not_holdsIn inHand.shape layout.use
  · refine HeapOnly.trans (changes.mono ?_) (only.heapOnly.mono (List.subset_append_right _ _))
    intro cell member
    rcases mem_cellsOf.mp member with ⟨chunk, inChunks, rfl⟩
    rcases List.mem_cons.mp inChunks with rfl | old
    · exact List.mem_append_right _ (cell_mem_of_holds ((holds _ _).mpr (Or.inl ⟨rfl, rfl⟩)))
    · exact List.mem_append_left _ (chunk_cell_mem old)

end Fresh

section Search

variable {s : Liballoc} {layout : Layout} {size : ℕ}

/-- The search goes through a list in order and stops at the first tag that fits. -/
theorem kmemMallocSearch_eq {prev : ℕ → ℕ} {left : ℕ} {cells : List ℕ} {fuel : ℕ}
    (linked : Linked.Doubly (s.link .next) prev left cells 0) (notNull : 0 ∉ cells)
    (enough : cells.length < fuel) : kmemMallocSearch s size fuel (cells.headD 0) =
      .ok ((cells.find? (fun tag => s.EnoughSpace size tag)).getD 0) := by
  induction cells generalizing left fuel with
  | nil =>
      rcases fuel with _ | fuel
      · simp at enough
      · simp [kmemMallocSearch]
  | cons tag cells ih =>
      rcases fuel with _ | fuel
      · simp at enough
      · rcases linked with ⟨_, atNext, rest⟩
        simp only [List.mem_cons, not_or] at notNull
        have enoughLeft : cells.length < fuel := by simpa using enough
        rw [List.headD_cons, kmemMallocSearch, if_neg (Ne.symm notNull.1)]
        by_cases fits : s.EnoughSpace size tag
        · rw [if_pos fits, List.find?_cons_of_pos (by simpa using fits)]
          rfl
        · rw [if_neg fits, List.find?_cons_of_neg (by simpa using fits),
            show s.get tag .next = cells.headD 0 from atNext]
          exact ih rest notNull.2 enoughLeft

/-- A list of tags is shorter than the address space. -/
theorem Shape.bin_length (shape : Shape s layout) (index : ℤ) :
    (layout.bins index).length < 2 ^ 32 := by
  have subset : layout.bins index ⊆ List.range (2 ^ 32 - 31) := by
    intro tag member
    have fits := shape.roomy.fits tag (shape.bin_subset member)
    rw [List.mem_range]
    omega
  have atMost := ((shape.nodup index).subperm subset).length_le
  rw [List.length_range] at atMost
  omega

theorem Shape.search (shape : Shape s layout) (size : ℕ) (index : ℤ) :
    kmemMallocSearch s size walkFuel (s.kmemLFreePages index) =
      .ok (((layout.bins index).find? (fun tag => s.EnoughSpace size tag)).getD 0) := by
  rw [shape.heads]
  exact kmemMallocSearch_eq (shape.lists index) (shape.zero_notMem_bin index)
    (shape.bin_length index)

end Search

section Malloc

variable {s : Liballoc} {layout : Layout} {tables : List Block} {size tag : ℕ}

/-- The state before the search of `kmem_malloc`. -/
def Liballoc.ready (s : Liballoc) : Liballoc :=
  { s.lock with kmemLInitialized := true }

theorem HeapAt.locked (heap : HeapAt s layout tables) :
    kmemMallocInit s.lock = s.ready ∧
      HeapAt s.ready layout tables :=
  ⟨heap.lock.kmemMallocInit_eq, heap.of_same rfl rfl rfl rfl (fun notYet => by cases notYet)⟩

theorem enoughSpace_iff (small : size + 32 < 2 ^ 32) {length : ℕ}
    (realSize : s.get tag .realSize = length) (room : 32 ≤ length) :
    s.EnoughSpace size tag ↔ size + 64 ≤ length := by
  have fits := s.get_lt tag .realSize
  rw [Liballoc.EnoughSpace, realSize] at *
  rw [sub32_of_le room (by omega), add32_of_lt small]
  omega

theorem Hand.withdrawn_settled {hand : Hand} (shape : Shape s hand.layout)
    (settled : hand.Settled) (index : ℤ) (bytes : ℕ) : (hand.withdrawn index bytes).Settled := by
  have same := hand.withdrawn_use shape index bytes
  refine ⟨?_, ?_⟩
  · intro chunk member
    have inBefore : chunk ∈ hand.before := List.mem_of_mem_getLast? member
    rw [same chunk (Hand.mem_elsewhere.mpr (Or.inl (Or.inl inBefore)))]
    exact settled.before chunk member
  · intro chunk member
    have inBehind : chunk ∈ hand.behind := List.mem_of_mem_head? member
    rw [same chunk (Hand.mem_elsewhere.mpr (Or.inl (Or.inr inBehind)))]
    exact settled.behind chunk member

/-- A free section that is large enough leaves its list and is given to the caller. -/
theorem HeapAt.take_finish {hand : Hand} {index : ℤ} (heap : HeapAt s hand.layout tables)
    (isFree : hand.use hand.chunk.start = .free index) (room : size + 64 ≤ hand.chunk.length) :
    ∃ after, HeapAt (kmemMallocFinish (kmemMallocTake s index hand.chunk.start)
        hand.chunk.start size) after tables ∧
      hand.layout.Gives (hand.chunk.start + 32) size after ∧
        HeapOnly (cellsOf hand.regions ++ cellsOf after.regions) s
          (kmemMallocFinish (kmemMallocTake s index hand.chunk.start) hand.chunk.start size) := by
  have taken := heap.take isFree
  have settled := Hand.withdrawn_settled heap.shape (heap.settled_of_free isFree) index
    (s.get hand.chunk.start .size)
  have enough : size + 32 ≤ (hand.withdrawn index (s.get hand.chunk.start .size)).chunk.length :=
    Nat.le_trans (Nat.add_le_add_left (by decide) size) room
  rcases taken.1.finish settled enough with ⟨after, heapAfter, holds, only⟩
  have before : ∀ other bytes, hand.layout.Holds other bytes ↔
      HoldsIn hand.use hand.elsewhere other bytes := by
    intro other bytes
    rw [Hand.holds_iff, isFree]
    simp
  refine ⟨after, heapAfter, ⟨?_, ?_, ?_⟩, ?_⟩
  · intro other bytes
    rw [before, ← holdsIn_congr (hand.withdrawn_use heap.shape index
      (s.get hand.chunk.start .size))]
    exact holds other bytes
  · intro bytes
    rw [before]
    exact Hand.not_holdsIn heap.shape hand.use bytes
  · omega
  · exact (taken.2.mono (List.subset_append_left _ _)).trans
      (only.heapOnly.mono (List.subset_append_right _ _))

theorem kmemMalloc_of_found (heap : HeapAt s layout tables) (small : size + 32 < 2 ^ 32)
    (found : (layout.bins (binOf size)).find? (fun tag => s.EnoughSpace size tag) = some tag)
    (fits : tag + 32 < 2 ^ 32) (notNull : tag ≠ 0) :
    kmemMalloc s size = .ok (tag + 32,
      (kmemMallocFinish (kmemMallocTake s.ready (binOf size) tag)
        tag size).unlock) := by
  have search := heap.locked.2.shape.search size (binOf size)
  have same : (layout.bins (binOf size)).find? (fun tag =>
      s.ready.EnoughSpace size tag) = some tag := found
  rw [same] at search
  rw [kmemMalloc]
  dsimp only
  rw [heap.locked.1, atLeastMinexp_kmemGetexp (by omega), search]
  dsimp only [Option.getD_some]
  rw [if_neg notNull, add32_of_lt fits]

/-- The search finds a tag: its section, or the front of it, is given to the caller. -/
theorem HeapAt.malloc_found (heap : HeapAt s layout tables) (small : size + 32 < 2 ^ 32)
    (found : (layout.bins (binOf size)).find? (fun tag => s.EnoughSpace size tag) = some tag) :
    ∃ s' after, kmemMalloc s size = .ok (tag + 32, s') ∧ HeapAt s' after tables ∧
      layout.Gives (tag + 32) size after ∧
        Touches (cellsOf layout.regions ++ cellsOf after.regions) s s' ∧
          s'.kmem = s.kmem ∧ s'.flags = kmemLiballocUnlock (kmemLiballocLock s.flags) := by
  have inBin := List.mem_of_find?_eq_some found
  have enough : s.EnoughSpace size tag := by simpa using List.find?_some found
  have isFree := heap.shape.use_of_bin inBin
  have tagMem := heap.shape.bin_subset inBin
  rcases mem_cellsOf.mp tagMem with ⟨chunk, member, rfl⟩
  have bounds := heap.shape.placed.chunk_bounds member
  have room := (enoughSpace_iff small (heap.shape.realSize chunk member) bounds.2.1).mp enough
  simp only [Chunk.stop] at bounds
  have returns := kmemMalloc_of_found heap small found (by omega) (by omega)
  rcases exists_split member with ⟨block, xs, ys, rest, perm⟩
  have here : HeapAt s.ready
      (Hand.mk block xs chunk ys rest layout.use layout.bins).layout tables :=
    heap.locked.2.perm perm
  rcases here.take_finish isFree room with ⟨after, heapAfter, gives, changes⟩
  refine ⟨_, after, returns, heapAfter.unlock, ⟨?_, ?_, gives.notNull⟩, ?_, ?_, ?_⟩
  · intro other bytes
    rw [gives.holds]
    exact or_congr_right (HeapAt.holds_perm perm other bytes)
  · intro bytes held
    exact gives.fresh bytes ((HeapAt.holds_perm perm _ bytes).mpr held)
  · have moved : cellsOf (Hand.mk block xs chunk ys rest layout.use layout.bins).regions ++
        cellsOf after.regions ⊆ cellsOf layout.regions ++ cellsOf after.regions :=
      ((cellsOf_perm perm).append_right _).subset
    exact (changes.unlock.2.2.mono moved).rebase rfl
  · exact changes.unlock.1
  · exact changes.unlock.2.1

/-- The search of `kmem_malloc` fails. -/
theorem Shape.search_none (heap : HeapAt s layout tables)
    (missing : (layout.bins (binOf size)).find? (fun tag => s.EnoughSpace size tag) = none) :
    kmemMallocSearch s.ready size walkFuel
      (s.ready.kmemLFreePages (binOf size)) =
        .ok 0 := by
  have search := heap.locked.2.shape.search size (binOf size)
  have same : (layout.bins (binOf size)).find? (fun tag =>
      s.ready.EnoughSpace size tag) = none := missing
  rwa [same] at search

/-- The search finds nothing, and the page allocator has no pages: nothing changes. -/
theorem HeapAt.malloc_null (heap : HeapAt s layout tables) (small : size + 32 < 2 ^ 32)
    (missing : (layout.bins (binOf size)).find? (fun tag => s.EnoughSpace size tag) = none)
    (returns : kmemLiballocAlloc s.kmem (kmemPages (size + 32)) = .ok (none, s.kmem)) :
    ∃ s', kmemMalloc s size = .ok (0, s') ∧ HeapAt s' layout tables ∧ s'.memory = s.memory ∧
      s'.kmem = s.kmem ∧ s'.flags = kmemLiballocUnlock (kmemLiballocLock s.flags) := by
  refine ⟨s.ready.unlock, ?_, heap.locked.2.unlock,
    rfl, rfl, rfl⟩
  rw [kmemMalloc]
  dsimp only
  rw [heap.locked.1, atLeastMinexp_kmemGetexp (by omega), Shape.search_none heap missing]
  dsimp only
  rw [if_pos rfl, kmemAllocateNewTag, add32_of_lt small]
  have same : kmemLiballocAlloc s.ready.kmem (kmemPages (size + 32)) = .ok (none, s.kmem) := returns
  rw [same]
  rfl

/-- The search finds nothing: the front of a new block is given to the caller. -/
theorem HeapAt.malloc_grow (heap : HeapAt s layout tables) (small : size + 32 < 2 ^ 32)
    (missing : (layout.bins (binOf size)).find? (fun tag => s.EnoughSpace size tag) = none)
    {ptr : ℕ} {kmem : Kmem}
    (returns : kmemLiballocAlloc s.kmem (kmemPages (size + 32)) = .ok (some ptr, kmem)) :
    ∃ s' after, kmemMalloc s size = .ok (ptr + 32, s') ∧ HeapAt s' after tables ∧
      layout.Gives (ptr + 32) size after ∧
        Touches (cellsOf layout.regions ++ cellsOf after.regions) s s' ∧
          s'.kmem = kmem ∧ s'.flags = kmemLiballocUnlock (kmemLiballocLock s.flags) := by
  rcases heap.locked.2.grow_finish rfl small returns with
    ⟨s', after, allocates, fits, heapAfter, gives, changes⟩
  refine ⟨_, after, ?_, heapAfter.unlock, gives, changes.unlock.2.2.rebase rfl, changes.unlock.1,
    changes.unlock.2.1⟩
  rw [kmemMalloc]
  dsimp only
  rw [heap.locked.1, atLeastMinexp_kmemGetexp (by omega), Shape.search_none heap missing]
  dsimp only
  rw [if_pos rfl, allocates, ← add32_of_lt fits]

/-- Every call of `kmem_malloc` whose size does not wrap comes back, with `NULL` and nothing
changed or with a block for the caller. -/
theorem HeapAt.malloc (heap : HeapAt s layout tables) (small : size + 32 < 2 ^ 32) :
    ∃ ptr s', kmemMalloc s size = .ok (ptr, s') ∧
      s'.flags = kmemLiballocUnlock (kmemLiballocLock s.flags) ∧
        ((ptr = 0 ∧ HeapAt s' layout tables ∧ s'.memory = s.memory ∧ s'.kmem = s.kmem) ∨
          ∃ after, HeapAt s' after tables ∧ layout.Gives ptr size after ∧
            Touches (cellsOf layout.regions ++ cellsOf after.regions) s s') := by
  cases search : (layout.bins (binOf size)).find? (fun tag => s.EnoughSpace size tag) with
  | some tag =>
      rcases heap.malloc_found small search with
        ⟨s', after, returns, heapAfter, gives, touches, _, flags⟩
      exact ⟨tag + 32, s', returns, flags, Or.inr ⟨after, heapAfter, gives, touches⟩⟩
  | none =>
      rcases heap.backed.tiled with ⟨entries, chain, _⟩
      rcases kmemLiballocAlloc_outcome (kmemPages (size + 32)) chain with
        ⟨result, kmem, allocates, outcome⟩
      cases result with
      | none =>
          cases outcome
          rcases heap.malloc_null small search allocates with
            ⟨s', returns, heapAfter, memory, kmem, flags⟩
          exact ⟨0, s', returns, flags, Or.inl ⟨rfl, heapAfter, memory, kmem⟩⟩
      | some ptr =>
          rcases heap.malloc_grow small search allocates with
            ⟨s', after, returns, heapAfter, gives, touches, _, flags⟩
          exact ⟨ptr + 32, s', returns, flags, Or.inr ⟨after, heapAfter, gives, touches⟩⟩

end Malloc

end Osserver
