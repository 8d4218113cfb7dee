import Osserver.Mem.HeapShape

/-!
# Dividing and joining the sections of a block

The edits of the heap that change how a block of pages is divided: two sections
become one, a section is cut in two, a new block comes in as one section, and a
block whose sections are not on any list goes out. The order of the blocks does not
matter, so each lemma has the block that it is about in front.
-/

namespace Osserver

open Liballoc Linked

namespace Shape

variable {s s' : Liballoc} {layout : Layout} {regions rest : List Region} {use : ℕ → Use}
  {bins : ℤ → List ℕ} {block : Block} {xs ys : List Chunk} {left right chunk : Chunk} {tag : ℕ}

/-- A layout is in memory as long as the fields of its tags and the heads of its lists stay. -/
theorem of_same (shape : Shape s layout)
    (same : ∀ tag ∈ cellsOf layout.regions, ∀ field, s'.get tag field = s.get tag field)
    (heads : s'.kmemLFreePages = s.kmemLFreePages) : Shape s' layout where
  placed := shape.placed
  magic := fun tag member => (same tag member .magic).trans (shape.magic tag member)
  realSize := by
    intro chunk member
    rw [same _ (chunk_cell_mem member)]
    exact shape.realSize chunk member
  marked := by
    intro tag member
    exact (shape.marked tag member).congr (same tag member .index) (same tag member .size)
      (fun _ => ⟨same tag member .next, same tag member .prev⟩)
  splits := by
    intro region member
    apply (shape.splits region member).congr
    · intro c inRegion
      exact same c (region_cell_mem member inRegion) .splitRight
    · intro c inRegion
      exact same c (region_cell_mem member inRegion) .splitLeft
  lists := by
    intro index
    apply (shape.lists index).congr
    · intro c inBin
      exact same c (shape.bin_subset inBin) .next
    · intro c inBin
      exact same c (shape.bin_subset inBin) .prev
  heads := by
    intro index
    rw [heads, shape.heads]
  nodup := shape.nodup
  binned := shape.binned

theorem addCompletePages (shape : Shape s layout) (index change : ℤ) :
    Shape (s.addCompletePages index change) layout :=
  shape.of_same (fun _ _ _ => rfl) rfl

theorem perm {other : List Region} (shape : Shape s ⟨regions, use, bins⟩)
    (perm : other.Perm regions) : Shape s ⟨other, use, bins⟩ := by
  have sameChunks : ∀ chunk, chunk ∈ chunksOf other ↔ chunk ∈ chunksOf regions :=
    fun _ => (perm.flatMap_right _).mem_iff
  have sameCells : ∀ tag, tag ∈ cellsOf other ↔ tag ∈ cellsOf regions :=
    fun _ => (cellsOf_perm perm).mem_iff
  refine ⟨shape.placed.perm perm, ?_, ?_, ?_, ?_, shape.lists, shape.heads, shape.nodup, ?_⟩
  · exact fun tag member => shape.magic tag ((sameCells tag).mp member)
  · exact fun chunk member => shape.realSize chunk ((sameChunks chunk).mp member)
  · exact fun tag member => shape.marked tag ((sameCells tag).mp member)
  · exact fun region member => shape.splits region (perm.mem_iff.mp member)
  · intro index tag
    rw [shape.binned, sameCells]

/-- A block none of whose sections is on a list goes out. -/
theorem drop {region : Region} (shape : Shape s ⟨region :: rest, use, bins⟩)
    (noneFree : ∀ chunk ∈ region.chunks, ∀ index, use chunk.start ≠ .free index) :
    Shape s ⟨rest, use, bins⟩ := by
  have chunkIn : ∀ chunk ∈ chunksOf rest, chunk ∈ chunksOf (region :: rest) := by
    intro chunk member
    rw [chunksOf_cons]
    exact List.mem_append_right _ member
  have cellIn : ∀ tag ∈ cellsOf rest, tag ∈ cellsOf (region :: rest) := by
    intro tag member
    rcases mem_cellsOf.mp member with ⟨chunk, inChunks, rfl⟩
    exact chunk_cell_mem (chunkIn chunk inChunks)
  refine ⟨shape.placed.tail, ?_, ?_, ?_, ?_, shape.lists, shape.heads, shape.nodup, ?_⟩
  · exact fun tag member => shape.magic tag (cellIn tag member)
  · exact fun chunk member => shape.realSize chunk (chunkIn chunk member)
  · exact fun tag member => shape.marked tag (cellIn tag member)
  · exact fun other member => shape.splits other (List.mem_cons_of_mem _ member)
  · intro index tag
    rw [shape.binned]
    constructor
    · rintro ⟨member, isFree⟩
      refine ⟨?_, isFree⟩
      rcases mem_cellsOf.mp member with ⟨chunk, inChunks, rfl⟩
      rw [chunksOf_cons] at inChunks
      rcases List.mem_append.mp inChunks with inRegion | inRest
      · exact absurd isFree (noneFree chunk inRegion index)
      · exact chunk_cell_mem inRest
    · rintro ⟨member, isFree⟩
      exact ⟨cellIn tag member, isFree⟩

theorem setSize (shape : Shape s layout) (tagMem : tag ∈ cellsOf layout.regions) {old size : ℕ}
    (taken : layout.use tag = .taken old) (small : size < 2 ^ 32) :
    Shape (s.set tag .size size) { layout with
      use := Function.update layout.use tag (.taken size) } := by
  have edited := (Edited.refl (cellsOf layout.regions) s).set shape.roomy tagMem .size size
    small
  have reads : ∀ c ∈ cellsOf layout.regions, ∀ field, field ≠ .size →
      (s.set tag .size size).get c field = s.get c field := by
    intro c member field notSize
    rw [edited.reads c member field, if_neg (fun both => notSize both.2)]
  refine ⟨shape.placed, ?_, ?_, ?_, ?_, ?_, shape.heads, shape.nodup, ?_⟩
  · intro cell member
    rw [reads cell member .magic (by simp)]
    exact shape.magic cell member
  · intro chunk member
    rw [reads _ (chunk_cell_mem member) .realSize (by simp)]
    exact shape.realSize chunk member
  · intro cell member
    have marked := shape.marked cell member
    by_cases isTag : cell = tag
    · subst isTag
      rw [taken] at marked
      simp only [Function.update_self]
      refine ⟨?_, ?_, ?_, ?_⟩
      · rw [Liballoc.index, reads cell member .index (by simp)]
        exact marked.1
      · rw [edited.reads cell member .size, if_pos ⟨rfl, rfl⟩]
      · rw [reads cell member .next (by simp)]
        exact marked.2.2.1
      · rw [reads cell member .prev (by simp)]
        exact marked.2.2.2
    · simp only [Function.update_of_ne isTag]
      apply marked.congr (reads cell member .index (by simp))
      · rw [edited.reads cell member .size, if_neg (fun both => isTag both.1)]
      · exact fun _ => ⟨reads cell member .next (by simp), reads cell member .prev (by simp)⟩
  · intro region member
    apply (shape.splits region member).congr
    · intro c inRegion
      exact reads c (region_cell_mem member inRegion) .splitRight (by simp)
    · intro c inRegion
      exact reads c (region_cell_mem member inRegion) .splitLeft (by simp)
  · intro index
    apply (shape.lists index).congr
    · intro c inBin
      exact reads c (shape.bin_subset inBin) .next (by simp)
    · intro c inBin
      exact reads c (shape.bin_subset inBin) .prev (by simp)
  · intro index cell
    rw [shape.binned]
    by_cases isTag : cell = tag
    · subst isTag
      simp [taken]
    · simp [isTag]

section Join

theorem join_cells : cellsOf (⟨block, xs ++ left :: right :: ys⟩ :: rest) =
    xs.map Chunk.start ++ left.start :: right.start :: (ys.map Chunk.start ++ cellsOf rest) := by
  simp [cellsOf]

theorem joined_cells {length : ℕ} :
    cellsOf (⟨block, xs ++ ⟨left.start, length⟩ :: ys⟩ :: rest) =
      xs.map Chunk.start ++ left.start :: (ys.map Chunk.start ++ cellsOf rest) := by
  simp [cellsOf]

theorem join_members :
    left.start ∈ cellsOf (⟨block, xs ++ left :: right :: ys⟩ :: rest) ∧
      right.start ∈ cellsOf (⟨block, xs ++ left :: right :: ys⟩ :: rest) := by
  rw [join_cells]
  simp

variable (shape : Shape s ⟨⟨block, xs ++ left :: right :: ys⟩ :: rest, use, bins⟩)

include shape

theorem joined_cells_iff {length : ℕ} (cell : ℕ) :
    cell ∈ cellsOf (⟨block, xs ++ ⟨left.start, length⟩ :: ys⟩ :: rest) ↔
      cell ∈ cellsOf (⟨block, xs ++ left :: right :: ys⟩ :: rest) ∧ cell ≠ right.start := by
  have nodup := shape.placed.cells_nodup
  rw [join_cells] at nodup ⊢
  rw [joined_cells]
  have moved : (xs.map Chunk.start ++ left.start :: right.start ::
      (ys.map Chunk.start ++ cellsOf rest)).Perm
        (right.start :: (xs.map Chunk.start ++ left.start :: (ys.map Chunk.start ++ cellsOf rest)))
      := perm_second _ _ _ _
  have fresh := (List.nodup_cons.mp (moved.nodup_iff.mp nodup)).1
  rw [moved.mem_iff, List.mem_cons]
  constructor
  · intro member
    refine ⟨Or.inr member, ?_⟩
    rintro rfl
    exact fresh member
  · rintro ⟨rfl | member, different⟩
    · exact absurd rfl different
    · exact member

/-- The links of the tags of the block, around the tag on the right. -/
theorem join_linked : Doubly (s.link .splitRight) (s.link .splitLeft) 0
    ((xs.map Chunk.start ++ [left.start]) ++ right.start :: ys.map Chunk.start) 0 := by
  have linked := shape.splits ⟨block, xs ++ left :: right :: ys⟩ (by simp)
  simpa using linked

theorem join_links : s.get right.start .splitRight = (ys.map Chunk.start).headD 0 ∧
    s.get right.start .splitLeft = left.start := by
  refine ⟨shape.join_linked.next_middle, ?_⟩
  have atLeft := shape.join_linked.prev_middle
  rwa [List.getLastD_concat] at atLeft

theorem join_behind : s.get right.start .splitRight = 0 ∨
    s.get right.start .splitRight ∈ ys.map Chunk.start := by
  rw [shape.join_links.1]
  rcases headD_eq_or_mem (ys.map Chunk.start) 0 with ⟨_, null⟩ | member
  · exact Or.inl null
  · exact Or.inr member

theorem join_edited : Edited (cellsOf (⟨block, xs ++ left :: right :: ys⟩ :: rest)) s
    (kmemJoin s left.start right.start) (joinedTags s left.start right.start) := by
  refine kmemJoin_edited shape.roomy join_members.1 join_members.2 ?_
  apply shape.join_behind.imp_right
  intro member
  rw [join_cells]
  exact List.mem_append_right _ (List.mem_cons_of_mem _ (List.mem_cons_of_mem _
    (List.mem_append_left _ member)))

/-- The tags of other blocks are none of those that are written. -/
theorem join_apart {cell : ℕ} (member : cell ∈ cellsOf rest) :
    cell ≠ left.start ∧ cell ≠ s.get right.start .splitRight := by
  have nodup := shape.placed.cells_nodup
  have inCells : cell ∈ cellsOf (⟨block, xs ++ left :: right :: ys⟩ :: rest) := by
    rw [join_cells]
    simp [member]
  have split : cellsOf (⟨block, xs ++ left :: right :: ys⟩ :: rest) =
      (xs.map Chunk.start ++ left.start :: right.start :: ys.map Chunk.start) ++ cellsOf rest := by
    rw [join_cells]
    simp
  rw [split] at nodup
  have apart := (List.nodup_append.mp nodup).2.2
  refine ⟨?_, ?_⟩
  · exact (apart left.start (by simp) cell member).symm
  · rcases shape.join_behind with null | behind
    · rw [null]
      exact shape.tag_ne_zero inCells
    · exact (apart _ (by simp [behind]) cell member).symm

theorem join_splits : Doubly ((kmemJoin s left.start right.start).link .splitRight)
    ((kmemJoin s left.start right.start).link .splitLeft) 0
    ((xs.map Chunk.start ++ [left.start]) ++ ys.map Chunk.start) 0 := by
  have reads := shape.join_edited.reads
  have nodup := (shape.placed.filled _ List.mem_cons_self).nodup
  simp only [List.map_append, List.map_cons] at nodup
  have inCells : ∀ c ∈ (xs.map Chunk.start ++ [left.start]) ++ ys.map Chunk.start,
      c ∈ cellsOf (⟨block, xs ++ left :: right :: ys⟩ :: rest) := by
    intro c member
    rw [join_cells]
    simp only [List.mem_append, List.mem_cons, List.not_mem_nil, or_false] at member ⊢
    tauto
  refine shape.join_linked.remove ?_ ?_ ?_ ?_ ?_
  · simpa using nodup
  · exact fun member => shape.tag_ne_zero (inCells 0 member) rfl
  · exact fun member => shape.tag_ne_zero (inCells 0 member) rfl
  · intro c member
    rw [link, reads c (inCells c member), joinedTags, link, shape.join_links.2]
    rfl
  · intro c member
    rw [link, reads c (inCells c member), joinedTags, ← shape.join_links.2]
    rfl

theorem join_realSize {other : Chunk}
    (member : other ∈ chunksOf (⟨block, xs ++ ⟨left.start, left.length + right.length⟩ :: ys⟩ ::
      rest)) :
    (kmemJoin s left.start right.start).get other.start .realSize = other.length := by
  have reads := shape.join_edited.reads
  have nodup := shape.placed.cells_nodup
  have leftIn : left ∈ chunksOf (⟨block, xs ++ left :: right :: ys⟩ :: rest) := by simp
  have rightIn : right ∈ chunksOf (⟨block, xs ++ left :: right :: ys⟩ :: rest) := by simp
  have touching := (shape.placed.filled _ List.mem_cons_self).next_start
  have leftBounds := shape.placed.chunk_bounds leftIn
  have rightBounds := shape.placed.chunk_bounds rightIn
  simp only [Chunk.stop] at touching leftBounds rightBounds
  have cases : other = ⟨left.start, left.length + right.length⟩ ∨
      other.start ≠ left.start ∧ other ∈ chunksOf (⟨block, xs ++ left :: right :: ys⟩ :: rest) := by
    simp only [chunksOf_cons, List.mem_append, List.mem_cons] at member
    by_cases same : other.start = left.start
    · have joined := shape.placed.refill
        (shape.placed.filled _ List.mem_cons_self).join
      left
      exact joined.eq_of_start_eq (by simpa [or_assoc] using member) (by simp) same
    · right
      refine ⟨same, ?_⟩
      simp only [chunksOf_cons, List.mem_append, List.mem_cons]
      rcases member with (before | rfl | behind) | inRest
      · exact Or.inl (Or.inl before)
      · exact absurd rfl same
      · exact Or.inl (Or.inr (Or.inr (Or.inr behind)))
      · exact Or.inr inRest
  rcases cases with rfl | ⟨different, old⟩
  · rw [reads _ join_members.1, joinedTags, if_pos rfl, shape.realSize left leftIn,
      shape.realSize right rightIn, add32_of_lt (by omega)]
  · rw [reads _ (chunk_cell_mem old), joinedTags, if_neg different, shape.realSize other old]

/-- The tag on the right of two becomes a part of the section on the left. -/
theorem join (notFree : ∀ index, use right.start ≠ .free index) :
    Shape (kmemJoin s left.start right.start)
      ⟨⟨block, xs ++ ⟨left.start, left.length + right.length⟩ :: ys⟩ :: rest, use, bins⟩ where
  placed := shape.placed.refill (shape.placed.filled _ List.mem_cons_self).join
  magic := by
    intro cell member
    have old := ((shape.joined_cells_iff cell).mp member).1
    rw [shape.join_edited.reads cell old]
    exact shape.magic cell old
  realSize := fun other member => shape.join_realSize member
  marked := by
    intro cell member
    have old := ((shape.joined_cells_iff cell).mp member).1
    have reads := shape.join_edited.reads cell old
    exact (shape.marked cell old).congr (reads .index) (reads .size)
      (fun _ => ⟨reads .next, reads .prev⟩)
  splits := by
    intro region member
    rcases List.mem_cons.mp member with rfl | inRest
    · simpa using shape.join_splits
    · have old := shape.splits region (List.mem_cons_of_mem _ inRest)
      have reads := shape.join_edited.reads
      apply old.congr
      · intro c inRegion
        have apart := shape.join_apart (region_cell_mem inRest inRegion)
        rw [link, reads c (region_cell_mem (List.mem_cons_of_mem _ inRest) inRegion), joinedTags,
          if_neg apart.1]
        rfl
      · intro c inRegion
        have apart := shape.join_apart (region_cell_mem inRest inRegion)
        rw [link, reads c (region_cell_mem (List.mem_cons_of_mem _ inRest) inRegion), joinedTags,
          if_neg apart.2]
        rfl
  lists := by
    intro index
    apply (shape.lists index).congr
    · intro c inBin
      exact shape.join_edited.reads c (shape.bin_subset inBin) .next
    · intro c inBin
      exact shape.join_edited.reads c (shape.bin_subset inBin) .prev
  heads := by
    intro index
    rw [kmemJoin_heads]
    exact shape.heads index
  nodup := shape.nodup
  binned := by
    intro index cell
    rw [shape.binned, shape.joined_cells_iff]
    constructor
    · rintro ⟨member, isFree⟩
      refine ⟨⟨member, ?_⟩, isFree⟩
      rintro rfl
      exact notFree index isFree
    · rintro ⟨⟨member, _⟩, isFree⟩
      exact ⟨member, isFree⟩

end Join

section Carve

variable {start front back : ℕ}

theorem carve_cells_perm :
    (cellsOf (⟨block, xs ++ ⟨start, front⟩ :: ⟨start + front, back⟩ :: ys⟩ :: rest)).Perm
      ((start + front) :: cellsOf (⟨block, xs ++ ⟨start, front + back⟩ :: ys⟩ :: rest)) := by
  simpa [cellsOf] using perm_second (xs.map Chunk.start) start (start + front)
    (ys.map Chunk.start ++ cellsOf rest)

theorem carve_cell_mem (cell : ℕ) :
    cell ∈ cellsOf (⟨block, xs ++ ⟨start, front⟩ :: ⟨start + front, back⟩ :: ys⟩ :: rest) ↔
      cell = start + front ∨
        cell ∈ cellsOf (⟨block, xs ++ ⟨start, front + back⟩ :: ys⟩ :: rest) := by
  rw [carve_cells_perm.mem_iff, List.mem_cons]

variable (shape : Shape s ⟨⟨block, xs ++ ⟨start, front + back⟩ :: ys⟩ :: rest, use, bins⟩)

include shape

/-- The links of the tags of the block, around the place of the new one. -/
theorem carve_linked : Doubly (s.link .splitRight) (s.link .splitLeft) 0
    ((xs.map Chunk.start ++ [start]) ++ ys.map Chunk.start) 0 := by
  have linked := shape.splits ⟨block, xs ++ ⟨start, front + back⟩ :: ys⟩ (by simp)
  simpa using linked

theorem carve_right : s.get start .splitRight = (ys.map Chunk.start).headD 0 := by
  have linked := shape.carve_linked
  rw [List.append_assoc] at linked
  exact linked.next_middle

theorem carve_behind : s.get start .splitRight = 0 ∨
    s.get start .splitRight ∈ ys.map Chunk.start := by
  rw [shape.carve_right]
  rcases headD_eq_or_mem (ys.map Chunk.start) 0 with ⟨_, null⟩ | member
  · exact Or.inl null
  · exact Or.inr member

variable (frontRoom : 32 ≤ front) (backRoom : 32 ≤ back)

include frontRoom backRoom

theorem carve_placed :
    Placed (⟨block, xs ++ ⟨start, front⟩ :: ⟨start + front, back⟩ :: ys⟩ :: rest) := by
  have fits : Fills start [⟨start, front⟩, ⟨start + front, back⟩] (start + (front + back)) :=
    ⟨rfl, frontRoom, rfl, backRoom, Nat.add_assoc _ _ _⟩
  exact shape.placed.refill ((shape.placed.filled _ List.mem_cons_self).replace fits)

theorem carve_fresh :
    start + front ∉ cellsOf (⟨block, xs ++ ⟨start, front + back⟩ :: ys⟩ :: rest) := by
  have nodup := (shape.carve_placed frontRoom backRoom).cells_nodup
  exact (List.nodup_cons.mp (carve_cells_perm.nodup_iff.mp nodup)).1

theorem carve_edited :
    Edited (cellsOf (⟨block, xs ++ ⟨start, front⟩ :: ⟨start + front, back⟩ :: ys⟩ :: rest)) s
      (kmemCarve s start (start + front) back) (carvedTags s start (start + front) back) := by
  have placed := shape.carve_placed frontRoom backRoom
  have backIn : (⟨start + front, back⟩ : Chunk) ∈ chunksOf (⟨block,
      xs ++ ⟨start, front⟩ :: ⟨start + front, back⟩ :: ys⟩ :: rest) := by simp
  have bounds := placed.chunk_bounds backIn
  simp only [Chunk.stop] at bounds
  refine kmemCarve_edited placed.roomy (by simp [cellsOf]) (by simp [cellsOf]) (by omega) (by omega)
    ?_
  apply shape.carve_behind.imp_right
  intro member
  simp only [cellsOf, chunksOf_cons, List.map_append, List.map_cons, List.mem_append,
    List.mem_cons]
  tauto

/-- The tags of other blocks are none of those that are written. -/
theorem carve_apart {cell : ℕ} (member : cell ∈ cellsOf rest) :
    cell ≠ start ∧ cell ≠ start + front ∧ cell ≠ s.get start .splitRight := by
  have nodup := (shape.carve_placed frontRoom backRoom).cells_nodup
  have split :
      cellsOf (⟨block, xs ++ ⟨start, front⟩ :: ⟨start + front, back⟩ :: ys⟩ :: rest) =
        (xs.map Chunk.start ++ start :: (start + front) :: ys.map Chunk.start) ++ cellsOf rest := by
    simp [cellsOf]
  have inCells : cell ∈ cellsOf (⟨block, xs ++ ⟨start, front + back⟩ :: ys⟩ :: rest) := by
    simp only [cellsOf, chunksOf_cons, List.map_append, List.mem_append]
    exact Or.inr member
  rw [split] at nodup
  have apart := (List.nodup_append.mp nodup).2.2
  refine ⟨?_, ?_, ?_⟩
  · exact (apart start (by simp) cell member).symm
  · exact (apart (start + front) (by simp) cell member).symm
  · rcases shape.carve_behind with null | behind
    · rw [null]
      exact shape.tag_ne_zero inCells
    · exact (apart _ (by simp [behind]) cell member).symm

theorem carve_splits : Doubly ((kmemCarve s start (start + front) back).link .splitRight)
    ((kmemCarve s start (start + front) back).link .splitLeft) 0
    ((xs.map Chunk.start ++ [start]) ++ (start + front) :: ys.map Chunk.start) 0 := by
  have reads := (shape.carve_edited frontRoom backRoom).reads
  have fresh := shape.carve_fresh frontRoom backRoom
  have placed := shape.carve_placed frontRoom backRoom
  have nodup := (placed.filled _ List.mem_cons_self).nodup
  simp only [List.map_append, List.map_cons] at nodup
  have inCells : ∀ c ∈ (xs.map Chunk.start ++ [start]) ++ (start + front) :: ys.map Chunk.start,
      c ∈ cellsOf (⟨block, xs ++ ⟨start, front⟩ :: ⟨start + front, back⟩ :: ys⟩ :: rest) := by
    intro c member
    simp only [cellsOf, chunksOf_cons, List.map_append, List.map_cons, List.mem_append,
      List.mem_cons, List.not_mem_nil, or_false] at member ⊢
    tauto
  have zeroNotIn : 0 ∉ (xs.map Chunk.start ++ [start]) ++ ys.map Chunk.start := by
    intro member
    apply Nat.lt_irrefl 0
    apply placed.roomy.positive 0 (inCells 0 _)
    simp only [List.mem_append, List.mem_cons] at member ⊢
    tauto
  have different : start + front ≠ start := by omega
  have notBehind : start + front ≠ s.get start .splitRight := by
    intro same
    rcases shape.carve_behind with null | member
    · have positive := placed.roomy.positive (start + front) (by simp [cellsOf])
      omega
    · rw [← same] at member
      apply fresh
      simp only [cellsOf, chunksOf_cons, List.map_append, List.map_cons, List.mem_append,
        List.mem_cons]
      tauto
  refine shape.carve_linked.insert ?_ zeroNotIn zeroNotIn ?_ ?_
  · simpa using nodup
  · intro c member
    rw [link, reads c (inCells c member), carvedTags, List.getLastD_concat]
    by_cases isNew : c = start + front
    · subst isNew
      rw [if_neg different, if_pos rfl, if_pos rfl, shape.carve_right]
    · rw [if_neg isNew, if_neg isNew]
      rfl
  · intro c member
    rw [link, reads c (inCells c member), carvedTags, List.getLastD_concat, ← shape.carve_right]
    by_cases isNew : c = start + front
    · subst isNew
      rw [if_neg notBehind, if_pos rfl, if_pos rfl]
    · rw [if_neg isNew, if_neg isNew]
      rfl

theorem carve_realSize {other : Chunk} (member : other ∈ chunksOf (⟨block,
      xs ++ ⟨start, front⟩ :: ⟨start + front, back⟩ :: ys⟩ :: rest)) :
    (kmemCarve s start (start + front) back).get other.start .realSize = other.length := by
  have placed := shape.carve_placed frontRoom backRoom
  have frontIn : (⟨start, front⟩ : Chunk) ∈ chunksOf (⟨block,
      xs ++ ⟨start, front⟩ :: ⟨start + front, back⟩ :: ys⟩ :: rest) := by simp
  have backIn : (⟨start + front, back⟩ : Chunk) ∈ chunksOf (⟨block,
      xs ++ ⟨start, front⟩ :: ⟨start + front, back⟩ :: ys⟩ :: rest) := by simp
  have wholeIn : (⟨start, front + back⟩ : Chunk) ∈ chunksOf (⟨block,
      xs ++ ⟨start, front + back⟩ :: ys⟩ :: rest) := by simp
  have bounds := shape.placed.chunk_bounds wholeIn
  have realSize : s.get start .realSize = front + back := shape.realSize _ wholeIn
  simp only [Chunk.stop] at bounds
  rw [(shape.carve_edited frontRoom backRoom).reads _ (chunk_cell_mem member), carvedTags]
  by_cases isBack : other.start = start + front
  · rw [if_pos isBack, placed.eq_of_start_eq member backIn isBack]
  · rw [if_neg isBack]
    by_cases isFront : other.start = start
    · rw [if_pos isFront, placed.eq_of_start_eq member frontIn isFront, realSize,
        sub32_of_le (by omega) (by omega), Nat.add_sub_cancel]
    · rw [if_neg isFront]
      apply shape.realSize other
      simp only [chunksOf_cons, List.mem_append, List.mem_cons] at member ⊢
      rcases member with (before | rfl | rfl | behind) | inRest
      · exact Or.inl (Or.inl before)
      · exact absurd rfl isFront
      · exact absurd rfl isBack
      · exact Or.inl (Or.inr (Or.inr behind))
      · exact Or.inr inRest

theorem carve_marked {cell : ℕ} (member : cell ∈ cellsOf (⟨block,
      xs ++ ⟨start, front⟩ :: ⟨start + front, back⟩ :: ys⟩ :: rest)) :
    Marked (kmemCarve s start (start + front) back) cell
      (Function.update use (start + front) .pending cell) := by
  have reads := (shape.carve_edited frontRoom backRoom).reads cell member
  by_cases isBack : cell = start + front
  · rw [isBack] at reads ⊢
    rw [Function.update_self]
    refine ⟨?_, ?_⟩
    · rw [reads, carvedTags, if_pos rfl]
    · rw [reads, carvedTags, if_pos rfl]
  · have old := ((carve_cell_mem cell).mp member).resolve_left isBack
    rw [Function.update_of_ne isBack]
    apply (shape.marked cell old).congr (reads .index) (reads .size)
    intro _
    rw [reads, reads, carvedTags, carvedTags, if_neg isBack, if_neg isBack]
    exact ⟨rfl, rfl⟩

/-- The end of a section is cut off and becomes a section of its own. -/
theorem carve : Shape (kmemCarve s start (start + front) back)
    ⟨⟨block, xs ++ ⟨start, front⟩ :: ⟨start + front, back⟩ :: ys⟩ :: rest,
      Function.update use (start + front) .pending, bins⟩ where
  placed := shape.carve_placed frontRoom backRoom
  magic := by
    intro cell member
    rw [(shape.carve_edited frontRoom backRoom).reads cell member, carvedTags]
    split
    · rfl
    · rename_i notBack
      exact shape.magic cell (((carve_cell_mem cell).mp member).resolve_left notBack)
  realSize := fun other member => shape.carve_realSize frontRoom backRoom member
  marked := fun cell member => shape.carve_marked frontRoom backRoom member
  splits := by
    intro region member
    rcases List.mem_cons.mp member with rfl | inRest
    · simpa using shape.carve_splits frontRoom backRoom
    · have old := shape.splits region (List.mem_cons_of_mem _ inRest)
      have reads := (shape.carve_edited frontRoom backRoom).reads
      apply old.congr
      · intro c inRegion
        have apart := shape.carve_apart frontRoom backRoom (region_cell_mem inRest inRegion)
        rw [link, reads c (region_cell_mem member inRegion), carvedTags, if_neg apart.1,
          if_neg apart.2.1]
        rfl
      · intro c inRegion
        have apart := shape.carve_apart frontRoom backRoom (region_cell_mem inRest inRegion)
        rw [link, reads c (region_cell_mem member inRegion), carvedTags, if_neg apart.2.2,
          if_neg apart.2.1]
        rfl
  lists := by
    have reads := (shape.carve_edited frontRoom backRoom).reads
    have fresh := shape.carve_fresh frontRoom backRoom
    have unwritten : ∀ index, ∀ c ∈ bins index, c ≠ start + front ∧
        c ∈ cellsOf (⟨block, xs ++ ⟨start, front⟩ :: ⟨start + front, back⟩ :: ys⟩ :: rest) := by
      intro index c inBin
      have old := shape.bin_subset inBin
      refine ⟨?_, (carve_cell_mem c).mpr (Or.inr old)⟩
      rintro rfl
      exact fresh old
    intro index
    apply (shape.lists index).congr
    · intro c inBin
      rcases unwritten index c inBin with ⟨notBack, member⟩
      rw [link, reads c member, carvedTags, if_neg notBack]
      rfl
    · intro c inBin
      rcases unwritten index c inBin with ⟨notBack, member⟩
      rw [link, reads c member, carvedTags, if_neg notBack]
      rfl
  heads := by
    intro index
    rw [kmemCarve_heads]
    exact shape.heads index
  nodup := shape.nodup
  binned := by
    have fresh := shape.carve_fresh frontRoom backRoom
    intro index cell
    rw [shape.binned, carve_cell_mem]
    by_cases isBack : cell = start + front
    · subst isBack
      simp [fresh]
    · simp [isBack]

end Carve

section Fresh

variable {size pages ptr : ℕ}
  (placed : Placed (⟨⟨ptr, pages⟩, [⟨ptr, pages * 4096⟩]⟩ :: rest)) (small : size < 2 ^ 32)

theorem fresh_cells : cellsOf (⟨⟨ptr, pages⟩, [⟨ptr, pages * 4096⟩]⟩ :: rest) =
    ptr :: cellsOf rest := by
  simp [cellsOf]

include placed in
theorem fresh_notMem : ptr ∉ cellsOf rest := by
  have nodup := placed.cells_nodup
  rw [fresh_cells] at nodup
  exact (List.nodup_cons.mp nodup).1

include placed small in
theorem fresh_edited : Edited (ptr :: cellsOf rest) s
    (kmemWriteNewTag s ptr size (pages * 4096)) (fun c field =>
      if c = ptr then newTag size (pages * 4096) field else s.get c field) := by
  have roomy := placed.roomy
  have bounds := placed.bounds _ List.mem_cons_self
  rw [fresh_cells] at roomy
  simp only [Block.stop] at bounds
  exact kmemWriteNewTag_edited roomy List.mem_cons_self small (by omega)

include placed small

theorem fresh_old {cell : ℕ} (member : cell ∈ cellsOf rest) (field : TagField) :
    (kmemWriteNewTag s ptr size (pages * 4096)).get cell field = s.get cell field := by
  have different : cell ≠ ptr := by
    rintro rfl
    exact fresh_notMem placed member
  rw [(fresh_edited placed small).reads cell (List.mem_cons_of_mem _ member), if_neg different]

theorem fresh_new (field : TagField) :
    (kmemWriteNewTag s ptr size (pages * 4096)).get ptr field =
      newTag size (pages * 4096) field := by
  rw [(fresh_edited placed small).reads ptr List.mem_cons_self, if_pos rfl]

theorem fresh (shape : Shape s ⟨rest, use, bins⟩) : Shape (kmemWriteNewTag s ptr size (pages * 4096))
    ⟨⟨⟨ptr, pages⟩, [⟨ptr, pages * 4096⟩]⟩ :: rest, Function.update use ptr (.taken size),
      bins⟩ where
  placed := placed
  magic := by
    intro cell member
    rw [fresh_cells] at member
    rcases List.mem_cons.mp member with rfl | old
    · exact fresh_new placed small .magic
    · rw [fresh_old placed small old]
      exact shape.magic cell old
  realSize := by
    intro chunk member
    rw [chunksOf_cons] at member
    rcases List.mem_cons.mp member with rfl | old
    · exact fresh_new placed small .realSize
    · rw [fresh_old placed small (chunk_cell_mem old)]
      exact shape.realSize chunk old
  marked := by
    intro cell member
    rw [fresh_cells] at member
    by_cases isNew : cell = ptr
    · subst isNew
      simp only [Function.update_self]
      refine ⟨?_, ?_, ?_, ?_⟩
      · rw [Liballoc.index, fresh_new placed small .index]
        exact int32_word32 (by decide) (by decide)
      · exact fresh_new placed small .size
      · exact fresh_new placed small .next
      · exact fresh_new placed small .prev
    · have old := (List.mem_cons.mp member).resolve_left isNew
      have same := fun field => fresh_old (s := s) placed small old field
      simp only [Function.update_of_ne isNew]
      exact (shape.marked cell old).congr (same .index) (same .size)
        (fun _ => ⟨same .next, same .prev⟩)
  splits := by
    intro region member
    rcases List.mem_cons.mp member with rfl | inRest
    · rw [List.map_singleton, doubly_single]
      exact ⟨fresh_new placed small .splitLeft, fresh_new placed small .splitRight⟩
    · apply (shape.splits region inRest).congr
      · intro c inRegion
        exact fresh_old placed small (region_cell_mem inRest inRegion) .splitRight
      · intro c inRegion
        exact fresh_old placed small (region_cell_mem inRest inRegion) .splitLeft
  lists := by
    intro index
    apply (shape.lists index).congr
    · intro c inBin
      exact fresh_old placed small (shape.bin_subset inBin) .next
    · intro c inBin
      exact fresh_old placed small (shape.bin_subset inBin) .prev
  heads := shape.heads
  nodup := shape.nodup
  binned := by
    intro index cell
    have notIn := fresh_notMem placed
    rw [shape.binned, fresh_cells, List.mem_cons]
    by_cases isNew : cell = ptr
    · subst isNew
      simp [notIn]
    · simp [isNew]

end Fresh

end Shape

end Osserver
