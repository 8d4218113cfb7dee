import Osserver.Mem.Blocks
import Mathlib.Algebra.Group.Nat.Defs
import Mathlib.Data.Int.Notation

/-!
# Blocks of pages divided into sections

The map of the heap that its tags describe: each block of pages that the heap has
is filled by chunks that follow each other without a gap, and what a chunk is used
for is kept beside them. This module has the geometry: the chunks of all blocks
lie side by side, and an edit of one block moves nothing else.
-/

namespace Osserver

/-- A section of a block: a tag of 32 bytes and what is behind it. -/
structure Chunk where
  start : ℕ
  length : ℕ
  deriving DecidableEq

/-- What a section is used for: it is free and on the list of an index, it is in a
caller's hands with the size that was asked for, or it is being worked on. -/
inductive Use where
  | free (index : ℤ)
  | taken (size : ℕ)
  | pending
  deriving DecidableEq

/-- A block of pages and its sections, in order of address. -/
structure Region where
  block : Block
  chunks : List Chunk

/-- The sections of the heap, what they are used for, and the lists of the free ones. -/
structure Layout where
  regions : List Region
  use : ℕ → Use
  bins : ℤ → List ℕ

namespace Chunk

/-- The address behind the section. -/
def stop (chunk : Chunk) : ℕ :=
  chunk.start + chunk.length

def Apart (left right : Chunk) : Prop :=
  left.stop ≤ right.start ∨ right.stop ≤ left.start

end Chunk

/-- `chunks` fill the addresses from `start` up to `stop`, each with room for its tag. -/
def Fills : ℕ → List Chunk → ℕ → Prop
  | start, [], stop => start = stop
  | start, chunk :: chunks, stop =>
      chunk.start = start ∧ 32 ≤ chunk.length ∧ Fills (start + chunk.length) chunks stop

section Fills

variable {start middle stop : ℕ} {chunks xs ys : List Chunk} {chunk : Chunk}

theorem fills_append : Fills start (xs ++ ys) stop ↔
    ∃ middle, Fills start xs middle ∧ Fills middle ys stop := by
  induction xs generalizing start with
  | nil => simp [Fills]
  | cons first xs ih =>
      simp only [List.cons_append, Fills, ih]
      tauto

theorem Fills.le (fills : Fills start chunks stop) : start ≤ stop := by
  induction chunks generalizing start with
  | nil => exact Nat.le_of_eq fills
  | cons first chunks ih =>
      have rest := ih fills.2.2
      omega

theorem Fills.bounds (fills : Fills start chunks stop) (member : chunk ∈ chunks) :
    start ≤ chunk.start ∧ 32 ≤ chunk.length ∧ chunk.stop ≤ stop := by
  induction chunks generalizing start with
  | nil => simp at member
  | cons first chunks ih =>
      rcases fills with ⟨atStart, room, rest⟩
      have behind := rest.le
      rcases List.mem_cons.mp member with rfl | later
      · refine ⟨?_, room, ?_⟩
        · omega
        · rw [Chunk.stop]
          omega
      · have bounds := ih rest later
        omega

theorem Fills.sorted (fills : Fills start chunks stop) :
    chunks.Pairwise (fun left right => left.stop ≤ right.start) := by
  induction chunks generalizing start with
  | nil => exact List.Pairwise.nil
  | cons first chunks ih =>
      refine List.Pairwise.cons ?_ (ih fills.2.2)
      intro later member
      have bounds := fills.2.2.bounds member
      rw [Chunk.stop, fills.1]
      exact bounds.1

theorem Fills.nodup (fills : Fills start chunks stop) : (chunks.map Chunk.start).Nodup := by
  rw [List.nodup_iff_pairwise_ne, List.pairwise_map]
  apply fills.sorted.imp_of_mem
  intro left right leftMem _ below same
  have bounds := fills.bounds leftMem
  rw [Chunk.stop] at below
  omega

/-- Each address between the ends is in one of the sections. -/
theorem Fills.exists_chunk (fills : Fills start chunks stop) {address : ℕ} (above : start ≤ address)
    (below : address < stop) : ∃ chunk ∈ chunks, chunk.start ≤ address ∧ address < chunk.stop := by
  induction chunks generalizing start with
  | nil =>
      have empty : start = stop := fills
      omega
  | cons first chunks ih =>
      rcases fills with ⟨atStart, _, rest⟩
      by_cases inFirst : address < start + first.length
      · refine ⟨first, List.mem_cons_self, by omega, ?_⟩
        rw [Chunk.stop]
        omega
      · rcases ih rest (by omega) with ⟨chunk, member, inside⟩
        exact ⟨chunk, List.mem_cons_of_mem _ member, inside⟩

/-- The section in the middle gives way to others that fill its place. -/
theorem Fills.replace (fills : Fills start (xs ++ chunk :: ys) stop) {between : List Chunk}
    (fit : Fills chunk.start between chunk.stop) : Fills start (xs ++ (between ++ ys)) stop := by
  rcases fills_append.mp fills with ⟨middle, before, atMiddle, _, behind⟩
  refine fills_append.mpr ⟨middle, before, fills_append.mpr ⟨chunk.stop, ?_, ?_⟩⟩
  · rw [← atMiddle]
    exact fit
  · rw [Chunk.stop, atMiddle]
    exact behind

/-- Two sections in the middle give way to one that fills their place. -/
theorem Fills.join {left right : Chunk} (fills : Fills start (xs ++ left :: right :: ys) stop) :
    Fills start (xs ++ ⟨left.start, left.length + right.length⟩ :: ys) stop := by
  rcases fills_append.mp fills with ⟨middle, before, atMiddle, room, _, _, behind⟩
  refine fills_append.mpr ⟨middle, before, atMiddle, Nat.le_add_right_of_le room, ?_⟩
  simpa only [Nat.add_assoc] using behind

/-- A section with a neighbour on the right ends where that one starts. -/
theorem Fills.next_start {left right : Chunk}
    (fills : Fills start (xs ++ left :: right :: ys) stop) : right.start = left.stop := by
  rcases fills_append.mp fills with ⟨middle, _, atMiddle, _, atBehind, _⟩
  rw [atBehind, Chunk.stop, atMiddle]

end Fills

theorem perm_second {α : Type} (xs : List α) (first second : α) (ys : List α) :
    (xs ++ first :: second :: ys).Perm (second :: (xs ++ first :: ys)) :=
  ((List.Perm.swap second first ys).append_left xs).trans List.perm_middle

/-- The sections of blocks. -/
def chunksOf (regions : List Region) : List Chunk :=
  regions.flatMap Region.chunks

/-- The addresses of the tags of blocks. -/
def cellsOf (regions : List Region) : List ℕ :=
  (chunksOf regions).map Chunk.start

@[simp]
theorem chunksOf_cons (region : Region) (regions : List Region) :
    chunksOf (region :: regions) = region.chunks ++ chunksOf regions :=
  List.flatMap_cons

theorem mem_chunksOf {regions : List Region} {chunk : Chunk} :
    chunk ∈ chunksOf regions ↔ ∃ region ∈ regions, chunk ∈ region.chunks :=
  List.mem_flatMap

theorem mem_cellsOf {regions : List Region} {cell : ℕ} :
    cell ∈ cellsOf regions ↔ ∃ chunk ∈ chunksOf regions, chunk.start = cell :=
  List.mem_map

theorem region_cell_mem {regions : List Region} {region : Region} (regionMem : region ∈ regions)
    {tag : ℕ}
    (tagMem : tag ∈ region.chunks.map Chunk.start) : tag ∈ cellsOf regions := by
  rcases List.mem_map.mp tagMem with ⟨chunk, member, rfl⟩
  exact mem_cellsOf.mpr ⟨chunk, mem_chunksOf.mpr ⟨region, regionMem, member⟩, rfl⟩

theorem chunk_cell_mem {regions : List Region} {chunk : Chunk}
    (member : chunk ∈ chunksOf regions) : chunk.start ∈ cellsOf regions :=
  mem_cellsOf.mpr ⟨chunk, member, rfl⟩

theorem cellsOf_perm {regions other : List Region} (perm : other.Perm regions) :
    (cellsOf other).Perm (cellsOf regions) :=
  (perm.flatMap_right _).map _

/-- Blocks of the address space that do not overlap, filled by their sections. -/
structure Placed (regions : List Region) : Prop where
  filled : ∀ region ∈ regions, Fills region.block.ptr region.chunks region.block.stop
  bounds : ∀ region ∈ regions, 0 < region.block.ptr ∧ region.block.stop ≤ 2 ^ 32
  apart : regions.Pairwise (fun left right => left.block.Apart right.block)

namespace Placed

variable {regions rest : List Region} {region : Region} {block : Block} {chunks : List Chunk}

theorem perm {other : List Region} (placed : Placed regions) (perm : other.Perm regions) :
    Placed other where
  filled := fun region member => placed.filled region (perm.mem_iff.mp member)
  bounds := fun region member => placed.bounds region (perm.mem_iff.mp member)
  apart := placed.apart.perm perm.symm (fun apart => apart.symm)

theorem tail (placed : Placed (region :: rest)) : Placed rest where
  filled := fun other member => placed.filled other (List.mem_cons_of_mem _ member)
  bounds := fun other member => placed.bounds other (List.mem_cons_of_mem _ member)
  apart := (List.pairwise_cons.mp placed.apart).2

/-- One block is divided anew. -/
theorem refill (placed : Placed (⟨block, chunks⟩ :: rest)) {other : List Chunk}
    (fills : Fills block.ptr other block.stop) : Placed (⟨block, other⟩ :: rest) where
  filled := by
    intro region member
    rcases List.mem_cons.mp member with rfl | inRest
    · exact fills
    · exact placed.filled region (List.mem_cons_of_mem _ inRest)
  bounds := by
    intro region member
    rcases List.mem_cons.mp member with rfl | inRest
    · exact placed.bounds ⟨block, chunks⟩ (by simp)
    · exact placed.bounds region (List.mem_cons_of_mem _ inRest)
  apart := List.pairwise_cons.mpr (List.pairwise_cons.mp placed.apart)

theorem chunk_bounds (placed : Placed regions) {chunk : Chunk} (member : chunk ∈ chunksOf regions) :
    0 < chunk.start ∧ 32 ≤ chunk.length ∧ chunk.stop ≤ 2 ^ 32 := by
  rcases mem_chunksOf.mp member with ⟨region, regionMem, inRegion⟩
  have inside := (placed.filled region regionMem).bounds inRegion
  have bounds := placed.bounds region regionMem
  omega

theorem pairwise_apart (placed : Placed regions) : (chunksOf regions).Pairwise Chunk.Apart := by
  rw [chunksOf, List.pairwise_flatMap]
  refine ⟨?_, ?_⟩
  · intro region member
    exact (placed.filled region member).sorted.imp Or.inl
  · apply placed.apart.imp_of_mem
    intro first second firstMem secondMem apart x xMem y yMem
    have inFirst := (placed.filled first firstMem).bounds xMem
    have inSecond := (placed.filled second secondMem).bounds yMem
    rcases apart with below | below
    · exact Or.inl (by omega)
    · exact Or.inr (by omega)

theorem cells_nodup (placed : Placed regions) : (cellsOf regions).Nodup := by
  rw [cellsOf, List.nodup_iff_pairwise_ne, List.pairwise_map]
  apply placed.pairwise_apart.imp_of_mem
  intro left right leftMem rightMem apart same
  have leftRoom := placed.chunk_bounds leftMem
  have rightRoom := placed.chunk_bounds rightMem
  rw [Chunk.Apart, Chunk.stop, Chunk.stop] at apart
  omega

/-- Two sections are the same one, or one lies wholly below the other. -/
theorem eq_or_apart (placed : Placed regions) {left right : Chunk}
    (leftMem : left ∈ chunksOf regions) (rightMem : right ∈ chunksOf regions) :
    left = right ∨ left.Apart right := by
  have symmetric : Std.Symm Chunk.Apart := ⟨fun _ _ => Or.symm⟩
  by_cases same : left = right
  · exact Or.inl same
  · exact Or.inr (placed.pairwise_apart.forall leftMem rightMem same)

theorem eq_of_start_eq (placed : Placed regions) {left right : Chunk}
    (leftMem : left ∈ chunksOf regions) (rightMem : right ∈ chunksOf regions)
    (same : left.start = right.start) : left = right := by
  rcases placed.eq_or_apart leftMem rightMem with equal | apart
  · exact equal
  · have leftRoom := placed.chunk_bounds leftMem
    have rightRoom := placed.chunk_bounds rightMem
    rw [Chunk.Apart, Chunk.stop, Chunk.stop] at apart
    omega

end Placed

end Osserver
