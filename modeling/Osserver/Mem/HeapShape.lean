import Osserver.Lib.Doubly
import Osserver.Mem.Chunks
import Osserver.Mem.TagEdits

/-!
# The tags of the heap and the map that they describe

`Shape s layout` says that the memory of the heap holds the tags of a layout: each
section has its tag, the tags of a block are linked through `split_left` and
`split_right`, and the free sections of an index through `next` and `prev`. For
each edit of the tags there is one lemma that tells the layout after it.
-/

namespace Osserver

open Liballoc Linked

/-- What the tag of a section says about its use. -/
def Marked (s : Liballoc) (tag : ℕ) : Use → Prop
  | .free index => s.index tag = index ∧ 8 ≤ index ∧ index < 32
  | .taken size =>
      s.index tag = -1 ∧ s.get tag .size = size ∧ s.get tag .next = 0 ∧ s.get tag .prev = 0
  | .pending => s.get tag .next = 0 ∧ s.get tag .prev = 0

/-- The links of one kind, as a function on tags. -/
def Liballoc.link (s : Liballoc) (field : TagField) (tag : ℕ) : ℕ :=
  s.get tag field

/-- The tags in memory are those of the layout. -/
structure Shape (s : Liballoc) (layout : Layout) : Prop where
  placed : Placed layout.regions
  magic : ∀ tag ∈ cellsOf layout.regions, s.get tag .magic = liballocMagic
  realSize : ∀ chunk ∈ chunksOf layout.regions, s.get chunk.start .realSize = chunk.length
  marked : ∀ tag ∈ cellsOf layout.regions, Marked s tag (layout.use tag)
  splits : ∀ region ∈ layout.regions,
    Doubly (s.link .splitRight) (s.link .splitLeft) 0 (region.chunks.map Chunk.start) 0
  lists : ∀ index, Doubly (s.link .next) (s.link .prev) 0 (layout.bins index) 0
  heads : ∀ index, s.kmemLFreePages index = (layout.bins index).headD 0
  nodup : ∀ index, (layout.bins index).Nodup
  binned : ∀ index tag,
    tag ∈ layout.bins index ↔ tag ∈ cellsOf layout.regions ∧ layout.use tag = .free index

theorem Placed.roomy {regions : List Region} (placed : Placed regions) :
    Roomy (cellsOf regions) where
  positive := by
    intro a member
    rcases mem_cellsOf.mp member with ⟨chunk, inChunks, rfl⟩
    exact (placed.chunk_bounds inChunks).1
  fits := by
    intro a member
    rcases mem_cellsOf.mp member with ⟨chunk, inChunks, rfl⟩
    have bounds := placed.chunk_bounds inChunks
    rw [Chunk.stop] at bounds
    omega
  apart := by
    intro a aMem b bMem
    rcases mem_cellsOf.mp aMem with ⟨left, leftMem, rfl⟩
    rcases mem_cellsOf.mp bMem with ⟨right, rightMem, rfl⟩
    have leftRoom := placed.chunk_bounds leftMem
    have rightRoom := placed.chunk_bounds rightMem
    rcases placed.eq_or_apart leftMem rightMem with rfl | apart
    · exact Or.inl rfl
    · rw [Chunk.Apart, Chunk.stop, Chunk.stop] at apart
      omega

theorem Marked.unlinked {s : Liballoc} {tag : ℕ} {use : Use} (marked : Marked s tag use)
    (notFree : ∀ index, use ≠ .free index) : s.get tag .next = 0 ∧ s.get tag .prev = 0 := by
  cases use with
  | free index => exact absurd rfl (notFree index)
  | taken size => exact marked.2.2
  | pending => exact marked

theorem Marked.congr {s s' : Liballoc} {tag : ℕ} {use : Use} (marked : Marked s tag use)
    (index : s'.get tag .index = s.get tag .index) (size : s'.get tag .size = s.get tag .size)
    (links : (∀ index, use ≠ .free index) →
      s'.get tag .next = s.get tag .next ∧ s'.get tag .prev = s.get tag .prev) :
    Marked s' tag use := by
  cases use with
  | free at_ => simpa only [Marked, Liballoc.index, index] using marked
  | taken bytes =>
      have same := links (by simp)
      simpa only [Marked, Liballoc.index, index, size, same.1, same.2] using marked
  | pending =>
      have same := links (by simp)
      simpa only [Marked, same.1, same.2] using marked

namespace Shape

variable {s : Liballoc} {layout : Layout} {tag : ℕ}

theorem roomy (shape : Shape s layout) : Roomy (cellsOf layout.regions) :=
  shape.placed.roomy

theorem tag_ne_zero (shape : Shape s layout) (tagMem : tag ∈ cellsOf layout.regions) : tag ≠ 0 :=
  Nat.ne_of_gt (shape.roomy.positive tag tagMem)

theorem bin_subset (shape : Shape s layout) {index : ℤ} (inBin : tag ∈ layout.bins index) :
    tag ∈ cellsOf layout.regions :=
  ((shape.binned index tag).mp inBin).1

theorem use_of_bin (shape : Shape s layout) {index : ℤ} (inBin : tag ∈ layout.bins index) :
    layout.use tag = .free index :=
  ((shape.binned index tag).mp inBin).2

theorem zero_notMem_bin (shape : Shape s layout) (index : ℤ) : 0 ∉ layout.bins index :=
  fun member => shape.tag_ne_zero (shape.bin_subset member) rfl

theorem index_of_free (shape : Shape s layout) (tagMem : tag ∈ cellsOf layout.regions) {index : ℤ}
    (isFree : layout.use tag = .free index) : s.index tag = index := by
  have marked := shape.marked tag tagMem
  rw [isFree] at marked
  exact marked.1

theorem fields_of_taken (shape : Shape s layout) (tagMem : tag ∈ cellsOf layout.regions)
    {size : ℕ} (taken : layout.use tag = .taken size) :
    s.index tag = -1 ∧ s.get tag .size = size := by
  have marked := shape.marked tag tagMem
  rw [taken] at marked
  exact ⟨marked.1, marked.2.1⟩

/-- The head of a list is a tag or `NULL`. -/
theorem head_mem (shape : Shape s layout) (index : ℤ) :
    s.kmemLFreePages index = 0 ∨ s.kmemLFreePages index ∈ cellsOf layout.regions := by
  rw [shape.heads]
  rcases headD_eq_or_mem (layout.bins index) 0 with ⟨_, null⟩ | member
  · exact Or.inl null
  · exact Or.inr (shape.bin_subset member)

/-- Where a free tag is in its list, and its links there. -/
theorem list_split (shape : Shape s layout) {index : ℤ} (inBin : tag ∈ layout.bins index) :
    ∃ xs ys, layout.bins index = xs ++ tag :: ys ∧ s.get tag .prev = xs.getLastD 0 ∧
      s.get tag .next = ys.headD 0 := by
  rcases List.append_of_mem inBin with ⟨xs, ys, split⟩
  have linked := shape.lists index
  rw [split] at linked
  exact ⟨xs, ys, split, linked.prev_middle, linked.next_middle⟩

/-- The neighbours of a free tag in its list are free tags of the same index. -/
theorem list_neighbours (shape : Shape s layout) {index : ℤ} (inBin : tag ∈ layout.bins index) :
    (s.get tag .prev = 0 ∨ s.get tag .prev ∈ layout.bins index) ∧
      (s.get tag .next = 0 ∨ s.get tag .next ∈ layout.bins index) := by
  rcases shape.list_split inBin with ⟨xs, ys, split, prev, next⟩
  rw [split, prev, next]
  refine ⟨?_, ?_⟩
  · rcases getLastD_eq_or_mem xs 0 with ⟨_, null⟩ | member
    · exact Or.inl null
    · exact Or.inr (List.mem_append_left _ member)
  · rcases headD_eq_or_mem ys 0 with ⟨_, null⟩ | member
    · exact Or.inl null
    · exact Or.inr (List.mem_append_right _ (List.mem_cons_of_mem _ member))

/-- A tag of another use is no neighbour of a free tag in its list. -/
theorem not_neighbour (shape : Shape s layout) {index : ℤ} (inBin : tag ∈ layout.bins index)
    {other : ℕ} (otherMem : other ∈ cellsOf layout.regions)
    (different : layout.use other ≠ .free index) :
    other ≠ s.get tag .prev ∧ other ≠ s.get tag .next := by
  have neighbours := shape.list_neighbours inBin
  have notNull := shape.tag_ne_zero otherMem
  refine ⟨?_, ?_⟩
  · rintro rfl
    rcases neighbours.1 with null | member
    · exact notNull null
    · exact different (shape.use_of_bin member)
  · rintro rfl
    rcases neighbours.2 with null | member
    · exact notNull null
    · exact different (shape.use_of_bin member)

section Remove

variable {index : ℤ}

theorem remove_edited (shape : Shape s layout) (inBin : tag ∈ layout.bins index) :
    Edited (cellsOf layout.regions) s (kmemRemoveTag s tag) (removedTags s tag) := by
  have neighbours := shape.list_neighbours inBin
  exact kmemRemoveTag_edited shape.roomy (shape.bin_subset inBin)
    (neighbours.1.imp_right shape.bin_subset) (neighbours.2.imp_right shape.bin_subset)

theorem remove_marked (shape : Shape s layout) (inBin : tag ∈ layout.bins index) {cell : ℕ}
    (member : cell ∈ cellsOf layout.regions) :
    Marked (kmemRemoveTag s tag) cell
      (Function.update layout.use tag (.taken (s.get tag .size)) cell) := by
  have reads := (shape.remove_edited inBin).reads cell member
  by_cases same : cell = tag
  · rw [same] at reads ⊢
    rw [Function.update_self]
    refine ⟨?_, ?_, ?_, ?_⟩
    · rw [Liballoc.index, reads, removedTags, if_pos rfl, int32_word32 (by decide) (by decide)]
    · rw [reads, removedTags]
      all_goals simp
    · rw [reads, removedTags, if_pos rfl]
    · rw [reads, removedTags, if_pos rfl]
  · rw [Function.update_of_ne same]
    apply (shape.marked cell member).congr
    · rw [reads, removedTags, if_neg same]
    · rw [reads, removedTags]
      all_goals simp
    · intro notFree
      have apart := shape.not_neighbour inBin member (notFree index)
      rw [reads, reads, removedTags, removedTags, if_neg same, if_neg same, if_neg apart.1,
        if_neg apart.2]
      exact ⟨rfl, rfl⟩

theorem erase_split (shape : Shape s layout) {xs ys : List ℕ}
    (split : layout.bins index = xs ++ tag :: ys) :
    (layout.bins index).erase tag = xs ++ ys ∧ (∀ c ∈ xs ++ ys, c ≠ tag) ∧
      ∀ c ∈ xs ++ ys, c ∈ cellsOf layout.regions := by
  have nodup := shape.nodup index
  rw [split] at nodup
  have away := (List.nodup_middle.mp nodup).notMem
  have erased : (xs ++ tag :: ys).erase tag = xs ++ ys := by
    have notBefore : tag ∉ xs := fun member => away (List.mem_append_left _ member)
    rw [List.erase_append_right _ notBefore, List.erase_cons_head]
  refine ⟨by rw [split, erased], ?_, ?_⟩
  · rintro c member rfl
    exact away member
  · intro c member
    have inBin : c ∈ layout.bins index := by
      rw [split]
      exact List.perm_middle.mem_iff.mpr (List.mem_cons_of_mem _ member)
    exact shape.bin_subset inBin

theorem remove_list (shape : Shape s layout) (inBin : tag ∈ layout.bins index) :
    Doubly ((kmemRemoveTag s tag).link .next) ((kmemRemoveTag s tag).link .prev) 0
      ((layout.bins index).erase tag) 0 := by
  have reads := (shape.remove_edited inBin).reads
  rcases List.append_of_mem inBin with ⟨xs, ys, split⟩
  rcases shape.erase_split split with ⟨erased, away, inCells⟩
  have linked := shape.lists index
  have nodup := shape.nodup index
  rw [split] at linked nodup
  rw [erased]
  refine linked.remove nodup ?_ ?_ ?_ ?_
  · exact fun member => shape.tag_ne_zero (inCells 0 member) rfl
  · exact fun member => shape.tag_ne_zero (inCells 0 member) rfl
  · intro c member
    rw [link, reads c (inCells c member), removedTags, if_neg (away c member)]
    rfl
  · intro c member
    rw [link, reads c (inCells c member), removedTags, if_neg (away c member)]
    rfl

theorem remove_other_list (shape : Shape s layout) (inBin : tag ∈ layout.bins index) {other : ℤ}
    (different : other ≠ index) :
    Doubly ((kmemRemoveTag s tag).link .next) ((kmemRemoveTag s tag).link .prev) 0
      (layout.bins other) 0 := by
  have reads := (shape.remove_edited inBin).reads
  have apart : ∀ c ∈ layout.bins other,
      c ≠ tag ∧ c ≠ s.get tag .prev ∧ c ≠ s.get tag .next := by
    intro c member
    have notFree : layout.use c ≠ .free index := by
      rw [shape.use_of_bin member]
      simpa using different
    refine ⟨?_, shape.not_neighbour inBin (shape.bin_subset member) notFree⟩
    rintro rfl
    exact notFree (shape.use_of_bin inBin)
  apply (shape.lists other).congr
  · intro c member
    rcases apart c member with ⟨notTag, notPrev, _⟩
    rw [link, reads c (shape.bin_subset member), removedTags, if_neg notTag, if_neg notPrev]
    rfl
  · intro c member
    rcases apart c member with ⟨notTag, _, notNext⟩
    rw [link, reads c (shape.bin_subset member), removedTags, if_neg notTag, if_neg notNext]
    rfl

theorem remove_head (shape : Shape s layout) (inBin : tag ∈ layout.bins index) :
    (kmemRemoveTag s tag).kmemLFreePages index = ((layout.bins index).erase tag).headD 0 := by
  rcases shape.list_split inBin with ⟨xs, ys, split, _, next⟩
  rcases shape.erase_split split with ⟨erased, away, _⟩
  have atHead := shape.heads index
  rw [split, headD_append] at atHead
  rw [kmemRemoveTag_heads, shape.index_of_free (shape.bin_subset inBin) (shape.use_of_bin inBin),
    erased, headD_append]
  cases xs with
  | nil =>
      have isHead : s.kmemLFreePages index = tag := atHead
      rw [if_pos isHead, Function.update_self, next]
      rfl
  | cons first xs =>
      have different : first ≠ tag := away first (by simp)
      rw [List.headD_cons] at atHead
      rw [atHead, if_neg different, atHead]
      rfl

theorem remove_other_head (shape : Shape s layout) (inBin : tag ∈ layout.bins index) {other : ℤ}
    (different : other ≠ index) :
    (kmemRemoveTag s tag).kmemLFreePages other = s.kmemLFreePages other := by
  rw [kmemRemoveTag_heads, shape.index_of_free (shape.bin_subset inBin) (shape.use_of_bin inBin)]
  split
  · rw [Function.update_of_ne different]
  · rfl

theorem remove (shape : Shape s layout) (inBin : tag ∈ layout.bins index) :
    Shape (kmemRemoveTag s tag) { layout with
      use := Function.update layout.use tag (.taken (s.get tag .size))
      bins := Function.update layout.bins index ((layout.bins index).erase tag) } where
  placed := shape.placed
  magic := by
    intro cell member
    rw [(shape.remove_edited inBin).reads cell member]
    exact shape.magic cell member
  realSize := by
    intro chunk member
    rw [(shape.remove_edited inBin).reads _ (chunk_cell_mem member)]
    exact shape.realSize chunk member
  marked := fun _ member => shape.remove_marked inBin member
  splits := by
    intro region member
    apply (shape.splits region member).congr
    · intro c inRegion
      exact (shape.remove_edited inBin).reads c (region_cell_mem member inRegion) .splitRight
    · intro c inRegion
      exact (shape.remove_edited inBin).reads c (region_cell_mem member inRegion) .splitLeft
  lists := by
    intro other
    by_cases same : other = index
    · subst same
      simpa using shape.remove_list inBin
    · simpa [same] using shape.remove_other_list inBin same
  heads := by
    intro other
    by_cases same : other = index
    · subst same
      simpa using shape.remove_head inBin
    · simpa [same, shape.heads other] using shape.remove_other_head inBin same
  nodup := by
    intro other
    by_cases same : other = index
    · subst same
      simpa using (shape.nodup other).erase tag
    · simpa [same] using shape.nodup other
  binned := by
    intro other b
    have isFree := shape.use_of_bin inBin
    by_cases isTag : b = tag
    · subst isTag
      by_cases same : other = index
      · subst same
        simpa using fun member => ((shape.nodup other).mem_erase_iff.mp member).1 rfl
      · simp [same, shape.binned, isFree, Ne.symm same]
    · by_cases same : other = index
      · subst same
        simp [isTag, (shape.nodup other).mem_erase_iff, shape.binned]
      · simp [same, isTag, shape.binned]

end Remove

section Insert

variable {index : ℤ}

/-- A tag that is not free is not the head of a list. -/
theorem ne_head (shape : Shape s layout) (tagMem : tag ∈ cellsOf layout.regions)
    (notFree : layout.use tag ≠ .free index) : tag ≠ s.kmemLFreePages index := by
  rintro rfl
  rw [shape.heads] at notFree tagMem
  rcases headD_eq_or_mem (layout.bins index) 0 with ⟨_, null⟩ | member
  · rw [null] at tagMem
    exact shape.tag_ne_zero tagMem rfl
  · exact notFree (shape.use_of_bin member)

theorem insert_edited (shape : Shape s layout) (tagMem : tag ∈ cellsOf layout.regions)
    (nonneg : 0 ≤ index) :
    Edited (cellsOf layout.regions) s (kmemInsertTag s tag index)
      (insertedTags s tag index (s.kmemLFreePages index)) :=
  kmemInsertTag_edited shape.roomy tagMem nonneg (shape.head_mem index)

theorem insert_marked (shape : Shape s layout) (tagMem : tag ∈ cellsOf layout.regions)
    (low : 8 ≤ index) (high : index < 32) {cell : ℕ}
    (member : cell ∈ cellsOf layout.regions) :
    Marked (kmemInsertTag s tag index) cell
      (Function.update layout.use tag (.free index) cell) := by
  have nonneg : 0 ≤ index := by omega
  have reads := (shape.insert_edited tagMem nonneg).reads cell member
  by_cases same : cell = tag
  · rw [same] at reads ⊢
    rw [Function.update_self]
    refine ⟨?_, low, high⟩
    rw [Liballoc.index, reads, insertedTags, if_pos rfl, int32_word32 (by omega) (by omega)]
  · rw [Function.update_of_ne same]
    apply (shape.marked cell member).congr
    · rw [reads, insertedTags, if_neg same]
    · rw [reads, insertedTags]
      all_goals simp
    · intro notFree
      have notHead := shape.ne_head member (notFree index)
      rw [reads, reads, insertedTags, insertedTags, if_neg (fun both => same both.1),
        if_neg notHead]
      exact ⟨rfl, rfl⟩

theorem insert_list (shape : Shape s layout) (tagMem : tag ∈ cellsOf layout.regions)
    (notFree : ∀ index, layout.use tag ≠ .free index) (nonneg : 0 ≤ index) :
    Doubly ((kmemInsertTag s tag index).link .next) ((kmemInsertTag s tag index).link .prev) 0
      (tag :: layout.bins index) 0 := by
  have reads := (shape.insert_edited tagMem nonneg).reads
  have unlinked := (shape.marked tag tagMem).unlinked notFree
  have notHead := shape.ne_head tagMem (notFree index)
  have notIn : tag ∉ layout.bins index := fun member => notFree index (shape.use_of_bin member)
  have zeroNotIn := shape.zero_notMem_bin index
  have inCells : ∀ c ∈ tag :: layout.bins index, c ∈ cellsOf layout.regions := by
    intro c member
    rcases List.mem_cons.mp member with rfl | inBin
    · exact tagMem
    · exact shape.bin_subset inBin
  have linked : Doubly (s.link .next) (s.link .prev) 0 ([] ++ layout.bins index) 0 :=
    shape.lists index
  refine linked.insert (List.nodup_cons.mpr ⟨notIn, shape.nodup index⟩) zeroNotIn zeroNotIn ?_ ?_
  · intro c member
    rw [link, reads c (inCells c member), insertedTags, shape.heads]
    by_cases isTag : c = tag
    · subst isTag
      by_cases empty : (layout.bins index).headD 0 = 0
      · rw [if_neg (fun both => both.2 empty), if_pos rfl, unlinked.1, empty]
      · rw [if_pos ⟨rfl, empty⟩, if_pos rfl]
    · have notNull := shape.tag_ne_zero (inCells c member)
      rw [if_neg (fun both => isTag both.1), if_neg isTag, List.getLastD_nil, if_neg notNull]
      rfl
  · intro c member
    rw [link, reads c (inCells c member), insertedTags]
    by_cases isTag : c = tag
    · subst isTag
      rw [if_neg notHead, if_pos rfl, unlinked.2]
      rfl
    · rw [if_neg isTag, shape.heads]
      rfl

theorem insert_other_list (shape : Shape s layout) (tagMem : tag ∈ cellsOf layout.regions)
    (notFree : ∀ index, layout.use tag ≠ .free index) (nonneg : 0 ≤ index) {other : ℤ}
    (different : other ≠ index) :
    Doubly ((kmemInsertTag s tag index).link .next) ((kmemInsertTag s tag index).link .prev) 0
      (layout.bins other) 0 := by
  have reads := (shape.insert_edited tagMem nonneg).reads
  have apart : ∀ c ∈ layout.bins other, c ≠ tag ∧ c ≠ s.kmemLFreePages index := by
    intro c member
    have use := shape.use_of_bin member
    refine ⟨?_, ?_⟩
    · rintro rfl
      exact notFree other use
    · apply shape.ne_head (shape.bin_subset member)
      rw [use]
      simpa using different
  apply (shape.lists other).congr
  · intro c member
    rcases apart c member with ⟨notTag, _⟩
    rw [link, reads c (shape.bin_subset member), insertedTags, if_neg (fun both => notTag both.1)]
    rfl
  · intro c member
    rcases apart c member with ⟨_, notHead⟩
    rw [link, reads c (shape.bin_subset member), insertedTags, if_neg notHead]
    rfl

theorem insert (shape : Shape s layout) (tagMem : tag ∈ cellsOf layout.regions)
    (notFree : ∀ index, layout.use tag ≠ .free index) (low : 8 ≤ index) (high : index < 32) :
    Shape (kmemInsertTag s tag index) { layout with
      use := Function.update layout.use tag (.free index)
      bins := Function.update layout.bins index (tag :: layout.bins index) } where
  placed := shape.placed
  magic := by
    intro cell member
    rw [(shape.insert_edited tagMem (by omega)).reads cell member]
    exact shape.magic cell member
  realSize := by
    intro chunk member
    rw [(shape.insert_edited tagMem (by omega)).reads _ (chunk_cell_mem member)]
    exact shape.realSize chunk member
  marked := fun _ member => shape.insert_marked tagMem low high member
  splits := by
    have reads := (shape.insert_edited tagMem (show 0 ≤ index by omega)).reads
    intro region member
    apply (shape.splits region member).congr
    · intro c inRegion
      exact reads c (region_cell_mem member inRegion) .splitRight
    · intro c inRegion
      exact reads c (region_cell_mem member inRegion) .splitLeft
  lists := by
    intro other
    by_cases same : other = index
    · subst same
      simpa using shape.insert_list tagMem notFree (by omega)
    · simpa [same] using shape.insert_other_list tagMem notFree (by omega) same
  heads := by
    intro other
    rw [kmemInsertTag_heads (by omega)]
    by_cases same : other = index
    · subst same
      simp
    · simp [same, shape.heads]
  nodup := by
    intro other
    by_cases same : other = index
    · subst same
      have notIn : tag ∉ layout.bins other := fun member => notFree other (shape.use_of_bin member)
      simpa [notIn] using shape.nodup other
    · simpa [same] using shape.nodup other
  binned := by
    intro other b
    by_cases isTag : b = tag
    · subst isTag
      by_cases same : other = index
      · subst same
        simp [tagMem]
      · simp [same, shape.binned, notFree, Ne.symm same]
    · by_cases same : other = index
      · subst same
        simp [isTag, shape.binned]
      · simp [same, isTag, shape.binned]

end Insert

end Shape

end Osserver
