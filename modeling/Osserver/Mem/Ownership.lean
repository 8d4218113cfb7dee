import Osserver.Mem.Run

/-!
# Exclusive ownership of pages

What callers rely on is `KmemRun.Exclusive`: every page of the region is either
in one block that a caller holds or in one entry of the free list, and in no
other. The invariant behind it is `KmemRun.Tiled`, which says that the free list
is a list proper and that its blocks and the blocks held tile the region.

Allocation keeps it always. Release keeps it unless one of three things happens
at the place where the block is put: the block touches only the entry after it,
whose address is then not moved down; the two entries around it touch each
other, so that the block's new descriptor is dropped when they are merged; or
the first spare descriptor still is an entry of the free list.
-/

namespace Osserver

open Linked Transition Tiling

/-- The release of a block may be asked for when it does not go wrong; an
allocation may always be asked for. -/
def CallSafe (run : KmemRun) : KmemCall → Prop
  | .alloc _ => True
  | .free block => run.kmem.ReleaseSafe block

namespace KmemRun

/-- The blocks held by callers and the entries of the free list divide the 8192
pages from `base` among themselves. -/
structure Exclusive (base : ℕ) (run : KmemRun) : Prop where
  disjoint : run.outstanding.Pairwise (fun left right =>
    ∀ address, left.span.Covers address → ¬right.span.Covers address)
  inRegion : ∀ block ∈ run.outstanding, base ≤ block.ptr ∧ block.stop ≤ base + 8192 * 4096
  notFree : ∀ block ∈ run.outstanding, ∀ entry, run.kmem.FreeEntry entry →
    ∀ address, block.span.Covers address → ¬(run.kmem.block entry).span.Covers address
  once : ∀ entry other, run.kmem.FreeEntry entry → run.kmem.FreeEntry other → entry ≠ other →
    ∀ address, (run.kmem.block entry).span.Covers address →
      ¬(run.kmem.block other).span.Covers address
  exactly : ∀ address,
    ((∃ block ∈ run.outstanding, address ∈ block.pageSet) ∨
      ∃ entry, run.kmem.FreeEntry entry ∧ address ∈ (run.kmem.block entry).pageSet) ↔
        address ∈ (⟨base, 8192⟩ : Block).pageSet

/-- The free list ends, and its blocks and the blocks held tile the region. -/
def Tiled (base : ℕ) (run : KmemRun) : Prop :=
  ∃ entries, run.kmem.FreeEntries entries ∧
    Owned base (entries.map run.kmem.block) run.outstanding

theorem tiled_init {base : ℕ} {run : KmemRun} (starts : (kmemSystem base).Init run) :
    run.Tiled base := by
  subst starts
  rcases memoryKernelInit_spec base with ⟨first, _, zeroNext, _, _, blocks⟩
  refine ⟨[0], ?_, ?_⟩
  · rw [Kmem.FreeEntries, first]
    exact ⟨rfl, zeroNext⟩
  · simp only [List.map_cons, List.map_nil, blocks, Function.update_self]
    apply Owned.initial

theorem Tiled.alloc {base pages ptr : ℕ} {run : KmemRun} {after : Kmem} (tiled : run.Tiled base)
    (positive : 1 ≤ pages)
    (returns : kmemLiballocAlloc run.kmem pages = .ok (some ptr, after)) :
    Tiled base ⟨after, ⟨ptr, pages⟩ :: run.outstanding⟩ := by
  rcases tiled with ⟨entries, chain, owned⟩
  rcases kmemLiballocAlloc_outcome pages chain with ⟨result, s', equation, outcome⟩
  rw [returns] at equation
  cases equation
  rcases outcome.take chain with ⟨entries', chain', taken⟩
  exact ⟨entries', chain', owned.take positive taken⟩

theorem Tiled.allocNull {base pages : ℕ} {run : KmemRun} {after : Kmem} (tiled : run.Tiled base)
    (returns : kmemLiballocAlloc run.kmem pages = .ok (none, after)) :
    Tiled base ⟨after, run.outstanding⟩ := by
  rcases tiled with ⟨entries, chain, owned⟩
  rcases kmemLiballocAlloc_outcome pages chain with ⟨result, s', equation, outcome⟩
  rw [returns] at equation
  cases equation
  cases outcome
  exact ⟨entries, chain, owned⟩

theorem Tiled.free {base : ℕ} {run : KmemRun} {block : Block} {after : Kmem}
    (tiled : run.Tiled base) (held : block ∈ run.outstanding)
    (safe : run.kmem.ReleaseSafe block)
    (returns : kmemLiballocFree run.kmem block.ptr block.pages = .ok after) :
    Tiled base ⟨after, run.outstanding.erase block⟩ := by
  rcases tiled with ⟨entries, chain, owned⟩
  rcases kmemLiballocFree_release chain owned held safe returns with
    ⟨before, prev, after', entries', rfl, _, chain', released⟩
  rw [List.map_append, List.map_cons] at owned
  exact ⟨entries', chain', owned.release held released⟩

theorem Tiled.step {base : ℕ} {run after : KmemRun} {call : KmemCall} (tiled : run.Tiled base)
    (safe : CallSafe run call) (step : KmemStep run call after) : after.Tiled base := by
  cases step with
  | alloc positive returns =>
      exact tiled.alloc positive returns
  | allocNull positive returns =>
      exact tiled.allocNull returns
  | free held returns =>
      exact tiled.free held safe returns

theorem tiled_of_reachable {base : ℕ} {run : KmemRun}
    (reached : (kmemSystem base).ReachableWhen CallSafe run) : run.Tiled base := by
  apply System.ReachableWhen.invariant _ _ reached
  · intro run starts
    exact tiled_init starts
  · intro run call after tiled safe step
    exact tiled.step safe step

theorem page_mem_region {base : ℕ} {free outstanding : List Block}
    (owned : Owned base free outstanding) {block : Block} (member : block ∈ free ++ outstanding)
    {address : ℕ} (hasPage : address ∈ block.pageSet) :
    address ∈ (⟨base, 8192⟩ : Block).pageSet := by
  rcases owned.aligned block member with ⟨page, atPage⟩
  have bounds := owned.bounds member
  rcases hasPage with ⟨offset, inside, rfl⟩
  simp only [Block.stop] at bounds
  refine ⟨page + offset, ?_, ?_⟩
  · simp only
    omega
  · simp only
    omega

theorem Tiled.exclusive {base : ℕ} {run : KmemRun} (tiled : run.Tiled base) :
    run.Exclusive base := by
  rcases tiled with ⟨entries, chain, owned⟩
  have tiles := owned.tiles
  have pairwise := List.pairwise_map.mp tiles.pairwise_disjoint
  rcases List.pairwise_append.mp pairwise with ⟨freeApart, heldApart, cross⟩
  have onList : ∀ entry, run.kmem.FreeEntry entry → entry ∈ entries := by
    intro entry onFree
    exact (chain.entry_iff entry).mp onFree
  have isFree : ∀ entry, run.kmem.FreeEntry entry →
      run.kmem.block entry ∈ entries.map run.kmem.block := by
    intro entry onFree
    exact List.mem_map_of_mem (onList entry onFree)
  refine ⟨?_, ?_, ?_, ?_, ?_⟩
  · apply heldApart.imp
    intro left right apart address coversLeft coversRight
    exact apart address ⟨coversLeft, coversRight⟩
  · intro block held
    exact owned.bounds (List.mem_append_right _ held)
  · intro block held entry onFree address coversBlock coversEntry
    exact cross _ (isFree entry onFree) block held address ⟨coversEntry, coversBlock⟩
  · intro entry other onFree otherOnFree different address covers coversOther
    have entriesApart := List.pairwise_map.mp freeApart
    have symmetric : Std.Symm (fun first second : PageRef => ∀ a,
        ¬((run.kmem.block first).span.Covers a ∧ (run.kmem.block second).span.Covers a)) :=
      ⟨fun first second apart a both => apart a both.symm⟩
    exact entriesApart.forall (onList entry onFree) (onList other otherOnFree) different address
      ⟨covers, coversOther⟩
  · intro address
    constructor
    · rintro (⟨block, held, hasPage⟩ | ⟨entry, onFree, hasPage⟩)
      · exact page_mem_region owned (List.mem_append_right _ held) hasPage
      · exact page_mem_region owned (List.mem_append_left _ (isFree entry onFree)) hasPage
    · rintro ⟨page, inside, rfl⟩
      rcases owned.exists_page inside with ⟨block, member, hasPage⟩
      rcases List.mem_append.mp member with inFree | held
      · rcases List.mem_map.mp inFree with ⟨entry, onEntries, rfl⟩
        exact Or.inr ⟨entry, (chain.entry_iff entry).mpr onEntries, hasPage⟩
      · exact Or.inl ⟨block, held, hasPage⟩

end KmemRun

end Osserver
