import Osserver.Mem.Loss

/-!
# No false exhaustion

First fit finds room whenever there is any as long as no two entries of the free
list touch (`KmemRun.Compact`). A release keeps this when the block touches no
entries but the two it is put between. The first entry of the list is never
compared with the block, so a block below it is put behind it, where it is not
joined with what it touches; only behind the first entry is the list sorted.
-/

namespace Osserver

open Linked Transition

/-- A release may be asked for when it does not go wrong and joins the block with
every entry that touches it. -/
def CallJoined (run : KmemRun) : KmemCall → Prop
  | .alloc _ => True
  | .free block => run.kmem.ReleaseSafe block ∧ run.kmem.TouchesNeighbours block

/-- Moreover the block lies above the first entry of the free list. -/
def CallOrdered (run : KmemRun) : KmemCall → Prop
  | .alloc _ => True
  | .free block => run.kmem.ReleaseSafe block ∧ run.kmem.TouchesNeighbours block ∧
      ∀ head, run.kmem.kmemFreePages = some head → (run.kmem.block head).ptr < block.ptr

namespace KmemRun

/-- The region has `pages` consecutive pages from page `first` on, none of them held. -/
def FreeRun (base : ℕ) (run : KmemRun) (first pages : ℕ) : Prop :=
  first + pages ≤ 8192 ∧ ∀ page, first ≤ page → page < first + pages →
    ∀ block ∈ run.outstanding, base + page * 4096 ∉ block.pageSet

/-- The free list is coalesced, and sorted behind its first entry; a request that
some run of free pages could serve is granted, and one for the whole region is
granted when nothing is held. -/
structure Complete (base : ℕ) (run : KmemRun) : Prop where
  coalesced : ∃ entries, run.kmem.FreeEntries entries ∧
    Coalesced (entries.map run.kmem.block) ∧ Sorted (entries.map run.kmem.block).tail
  granted : ∀ first pages, 1 ≤ pages → run.FreeRun base first pages →
    ∃ ptr after, kmemLiballocAlloc run.kmem pages = .ok (some ptr, after)
  whole : run.outstanding = [] →
    ∃ after, kmemLiballocAlloc run.kmem 8192 = .ok (some base, after)

/-- The free list is a list proper, tiles the region together with the blocks
held, and is coalesced and sorted behind its first entry. -/
def Compact (base : ℕ) (run : KmemRun) : Prop :=
  ∃ entries, run.kmem.FreeEntries entries ∧
    Owned base (entries.map run.kmem.block) run.outstanding ∧
      Coalesced (entries.map run.kmem.block) ∧ Sorted (entries.map run.kmem.block).tail

/-- The whole free list is sorted by address. -/
def InOrder (run : KmemRun) : Prop :=
  ∃ entries, run.kmem.FreeEntries entries ∧ Sorted (entries.map run.kmem.block)

theorem Compact.tiled {base : ℕ} {run : KmemRun} (compact : run.Compact base) :
    run.Tiled base := by
  rcases compact with ⟨entries, chain, owned, _⟩
  exact ⟨entries, chain, owned⟩

theorem Tiled.owned {base : ℕ} {run : KmemRun} (tiled : run.Tiled base) {entries : List PageRef}
    (chain : run.kmem.FreeEntries entries) :
    Owned base (entries.map run.kmem.block) run.outstanding := by
  rcases tiled with ⟨others, otherChain, owned⟩
  have same := otherChain.unique chain
  subst same
  exact owned

theorem init_single {base : ℕ} {run : KmemRun} (starts : (kmemSystem base).Init run) :
    run.kmem.FreeEntries [0] := by
  subst starts
  rcases memoryKernelInit_spec base with ⟨first, _, zeroNext, _, _, _⟩
  rw [Kmem.FreeEntries, first]
  exact ⟨rfl, zeroNext⟩

theorem compact_init {base : ℕ} {run : KmemRun} (starts : (kmemSystem base).Init run) :
    run.Compact base := by
  have chain := init_single starts
  refine ⟨[0], chain, (tiled_init starts).owned chain, ?_, ?_⟩
  · apply List.pairwise_singleton
  · apply List.Pairwise.nil

theorem inOrder_init {base : ℕ} {run : KmemRun} (starts : (kmemSystem base).Init run) :
    run.InOrder := by
  refine ⟨[0], init_single starts, ?_⟩
  apply List.pairwise_singleton

theorem Compact.alloc {base pages ptr : ℕ} {run : KmemRun} {after : Kmem}
    (compact : run.Compact base) (positive : 1 ≤ pages)
    (returns : kmemLiballocAlloc run.kmem pages = .ok (some ptr, after)) :
    Compact base ⟨after, ⟨ptr, pages⟩ :: run.outstanding⟩ := by
  rcases compact with ⟨entries, chain, owned, coalesced, sorted⟩
  rcases kmemLiballocAlloc_outcome pages chain with ⟨result, s', equation, outcome⟩
  rw [returns] at equation
  cases equation
  rcases outcome.take chain with ⟨entries', chain', taken⟩
  have apart := (List.pairwise_append.mp owned.pairwise_apart).1
  exact ⟨entries', chain', owned.take positive taken, coalesced.take apart positive taken,
    sorted.take_tail apart taken⟩

theorem Compact.inOrder_alloc {base pages ptr : ℕ} {run : KmemRun} {after : Kmem}
    {outstanding : List Block} (compact : run.Compact base) (inOrder : run.InOrder)
    (returns : kmemLiballocAlloc run.kmem pages = .ok (some ptr, after)) :
    InOrder ⟨after, outstanding⟩ := by
  rcases inOrder with ⟨entries, chain, sorted⟩
  rcases kmemLiballocAlloc_outcome pages chain with ⟨result, s', equation, outcome⟩
  rw [returns] at equation
  cases equation
  rcases outcome.take chain with ⟨entries', chain', taken⟩
  have owned := compact.tiled.owned chain
  exact ⟨entries', chain', sorted.take (List.pairwise_append.mp owned.pairwise_apart).1 taken⟩

theorem alloc_null {pages : ℕ} {run : KmemRun} {after : Kmem} {entries : List PageRef}
    (chain : run.kmem.FreeEntries entries)
    (returns : kmemLiballocAlloc run.kmem pages = .ok (none, after)) : after = run.kmem := by
  rcases kmemLiballocAlloc_outcome pages chain with ⟨result, s', equation, outcome⟩
  rw [returns] at equation
  cases equation
  cases outcome
  rfl

theorem Compact.allocNull {base pages : ℕ} {run : KmemRun} {after : Kmem}
    (compact : run.Compact base)
    (returns : kmemLiballocAlloc run.kmem pages = .ok (none, after)) :
    Compact base ⟨after, run.outstanding⟩ := by
  rcases compact with ⟨entries, chain, rest⟩
  cases alloc_null chain returns
  exact ⟨entries, chain, rest⟩

theorem not_at_of_owned {base : ℕ} {free outstanding : List Block}
    (owned : Owned base free outstanding) {block following : Block} (held : block ∈ outstanding)
    (inFree : following ∈ free) : block.ptr ≠ following.ptr := by
  have blockPositive := owned.positive block (by simp [held])
  have followingPositive := owned.positive following (by simp [inFree])
  exact (owned.sides inFree held).symm.ptr_ne blockPositive followingPositive

theorem Compact.free {base : ℕ} {run : KmemRun} {block : Block} {after : Kmem}
    (compact : run.Compact base) (held : block ∈ run.outstanding)
    (safe : run.kmem.ReleaseSafe block) (neighbours : run.kmem.TouchesNeighbours block)
    (returns : kmemLiballocFree run.kmem block.ptr block.pages = .ok after) :
    Compact base ⟨after, run.outstanding.erase block⟩ := by
  rcases compact with ⟨entries, chain, owned, coalesced, sorted⟩
  rcases kmemLiballocFree_release chain owned held safe returns with
    ⟨before, prev, after', entries', rfl, position, chain', released⟩
  have onlyNeighbours := neighbours before prev after' position
  rw [List.map_append, List.map_cons] at owned coalesced sorted
  refine ⟨entries', chain', owned.release held released, ?_, ?_⟩
  · apply coalesced.release _ _ released
    · intro entry member touches
      rw [← List.map_cons, ← List.map_append] at member
      rcases List.mem_map.mp member with ⟨page, onList, rfl⟩
      rw [(onlyNeighbours page onList).1 touches]
    · intro entry member touched
      rw [← List.map_cons, ← List.map_append] at member
      rcases List.mem_map.mp member with ⟨page, onList, rfl⟩
      have atHead := (onlyNeighbours page onList).2 touched
      rw [List.head?_map, Option.mem_map]
      exact ⟨page, atHead, rfl⟩
  · have notAt : ∀ following ∈ after'.map run.kmem.block, block.ptr ≠ following.ptr := by
      intro following member
      exact not_at_of_owned owned held (by simp [member])
    apply sorted.release_tail notAt _ released
    cases before with
    | nil => exact Or.inl rfl
    | cons first before =>
        right
        apply position.below
        simp

theorem Compact.inOrder_free {base : ℕ} {run : KmemRun} {block : Block} {after : Kmem}
    {outstanding : List Block} (compact : run.Compact base) (inOrder : run.InOrder)
    (held : block ∈ run.outstanding) (safe : run.kmem.ReleaseSafe block)
    (above : ∀ head, run.kmem.kmemFreePages = some head → (run.kmem.block head).ptr < block.ptr)
    (returns : kmemLiballocFree run.kmem block.ptr block.pages = .ok after) :
    InOrder ⟨after, outstanding⟩ := by
  rcases inOrder with ⟨entries, chain, sorted⟩
  have owned := compact.tiled.owned chain
  rcases kmemLiballocFree_release chain owned held safe returns with
    ⟨before, prev, after', entries', rfl, position, chain', released⟩
  rw [List.map_append, List.map_cons] at owned sorted
  refine ⟨entries', chain', ?_⟩
  apply sorted.release _ _ released
  · cases before with
    | nil => exact above prev chain.1
    | cons first before =>
        apply position.below
        simp
  · intro following member
    exact not_at_of_owned owned held (by simp [member])

theorem Compact.step {base : ℕ} {run after : KmemRun} {call : KmemCall}
    (compact : run.Compact base) (joined : CallJoined run call)
    (step : KmemStep run call after) : after.Compact base := by
  cases step with
  | alloc positive returns =>
      exact compact.alloc positive returns
  | allocNull positive returns =>
      exact compact.allocNull returns
  | free held returns =>
      exact compact.free held joined.1 joined.2 returns

theorem Compact.inOrder_step {base : ℕ} {run after : KmemRun} {call : KmemCall}
    (compact : run.Compact base) (inOrder : run.InOrder) (ordered : CallOrdered run call)
    (step : KmemStep run call after) : after.InOrder := by
  cases step with
  | alloc positive returns =>
      exact compact.inOrder_alloc inOrder returns
  | allocNull positive returns =>
      rcases inOrder with ⟨entries, chain, sorted⟩
      cases alloc_null chain returns
      exact ⟨entries, chain, sorted⟩
  | free held returns =>
      exact compact.inOrder_free inOrder held ordered.1 ordered.2.2 returns

theorem compact_of_reachable {base : ℕ} {run : KmemRun}
    (reached : (kmemSystem base).ReachableWhen CallJoined run) : run.Compact base := by
  apply System.ReachableWhen.invariant _ _ reached
  · intro run starts
    exact compact_init starts
  · intro run call after compact joined step
    exact compact.step joined step

theorem inOrder_of_reachable {base : ℕ} {run : KmemRun}
    (reached : (kmemSystem base).ReachableWhen CallOrdered run) : run.InOrder := by
  have both : run.Compact base ∧ run.InOrder := by
    refine @System.ReachableWhen.invariant _ _ _ _ (fun run => run.Compact base ∧ run.InOrder)
      ?_ ?_ _ reached
    · intro run starts
      exact ⟨compact_init starts, inOrder_init starts⟩
    · rintro run call after ⟨compact, inOrder⟩ ordered step
      refine ⟨compact.step ?_ step, compact.inOrder_step inOrder ordered step⟩
      cases call with
      | alloc pages => trivial
      | free block => exact ⟨ordered.1, ordered.2.1⟩
  exact both.2

/-- On a compact free list first fit finds every run of free pages. -/
theorem Compact.granted {base first pages : ℕ} {run : KmemRun} (compact : run.Compact base)
    (positive : 1 ≤ pages) (unused : run.FreeRun base first pages) :
    ∃ ptr after, kmemLiballocAlloc run.kmem pages = .ok (some ptr, after) := by
  rcases compact with ⟨entries, chain, owned, coalesced, _⟩
  rcases kmemLiballocAlloc_outcome pages chain with ⟨result, after, returns, outcome⟩
  rcases owned.exists_fit coalesced positive unused.1 unused.2 with ⟨block, isFree, fits⟩
  rcases List.mem_map.mp isFree with ⟨entry, member, rfl⟩
  cases outcome with
  | exhausted small =>
      have tooSmall := small entry member
      omega
  | whole split small fits =>
      exact ⟨_, _, returns⟩
  | front split small fits =>
      exact ⟨_, _, returns⟩

theorem Compact.complete {base : ℕ} {run : KmemRun} (compact : run.Compact base) :
    run.Complete base := by
  refine ⟨?_, ?_, ?_⟩
  · rcases compact with ⟨entries, chain, _, coalesced, sorted⟩
    exact ⟨entries, chain, coalesced, sorted⟩
  · intro first pages positive unused
    exact compact.granted positive unused
  · intro nothingHeld
    have unused : run.FreeRun base 0 8192 := by
      refine ⟨Nat.le_refl _, ?_⟩
      simp [nothingHeld]
    rcases compact.granted (by omega) unused with ⟨ptr, after, returns⟩
    rcases compact.tiled.alloc (by omega) returns with ⟨_, _, owned⟩
    have bounds := owned.bounds (List.mem_append_right _ (List.mem_cons_self ..))
    simp only [Block.stop] at bounds
    have atBase : ptr = base := by omega
    subst atBase
    exact ⟨after, returns⟩

/-- A release that does not go wrong and leaves the list coalesced has joined the
block with all it touches. -/
theorem Tiled.touchesNeighbours {base : ℕ} {run : KmemRun} {block : Block} {after : Kmem}
    (tiled : run.Tiled base) (held : block ∈ run.outstanding) (safe : run.kmem.ReleaseSafe block)
    (returns : kmemLiballocFree run.kmem block.ptr block.pages = .ok after)
    {entries : List PageRef} (chain : after.FreeEntries entries)
    (coalesced : Coalesced (entries.map after.block)) : run.kmem.TouchesNeighbours block := by
  rcases tiled with ⟨old, oldChain, owned⟩
  rcases kmemLiballocFree_release oldChain owned held safe returns with
    ⟨before, prev, behind, entries', rfl, position, chain', released⟩
  have sameEntries := chain.unique chain'
  subst sameEntries
  have positive : ∀ page ∈ before ++ prev :: behind, 0 < (run.kmem.block page).pages := by
    intro page onList
    exact owned.positive _ (List.mem_append_left _ (List.mem_map_of_mem onList))
  -- Two entries with one block would not lie apart.
  have distinct : ∀ page ∈ before ++ prev :: behind, ∀ other ∈ before ++ prev :: behind,
      run.kmem.block page = run.kmem.block other → page = other := by
    intro page onList other otherOnList sameBlock
    by_contra different
    have apart := owned.entries_apart onList otherOnList different
    rw [sameBlock] at apart
    exact apart.ptr_ne (positive other otherOnList) (positive other otherOnList) rfl
  have neighbours := coalesced.neighbours_of_release released ?_ ?_ ?_
  · intro before' prev' behind' position' page onList
    rcases position.unique position' with ⟨rfl, rfl, rfl⟩
    have member : run.kmem.block page ∈ before.map run.kmem.block ++ run.kmem.block prev ::
        behind.map run.kmem.block := by
      rw [← List.map_cons, ← List.map_append]
      exact List.mem_map_of_mem onList
    constructor
    · intro touches
      exact distinct page onList prev (by simp) ((neighbours _ member).1 touches)
    · intro touched
      have atHead := (neighbours _ member).2 touched
      rw [List.head?_map, Option.mem_map] at atHead
      rcases atHead with ⟨following, isHead, sameBlock⟩
      have followingOnList : following ∈ before ++ prev :: behind := by
        simp [List.mem_of_mem_head? isHead]
      rw [← distinct following followingOnList page onList sameBlock]
      exact isHead
  · intro entry member
    rcases List.mem_cons.mp member with rfl | isFree
    · exact owned.positive _ (List.mem_append_right _ held)
    · rw [← List.map_cons, ← List.map_append] at isFree
      exact owned.positive _ (List.mem_append_left _ isFree)
  · intro entry isFree
    rw [← List.map_cons, ← List.map_append] at isFree
    exact owned.sides isFree held
  · intro entry isFree other otherFree different
    rw [← List.map_cons, ← List.map_append] at isFree otherFree
    rcases List.mem_map.mp isFree with ⟨page, onList, rfl⟩
    rcases List.mem_map.mp otherFree with ⟨otherPage, otherOnList, rfl⟩
    apply owned.entries_apart onList otherOnList
    rintro rfl
    exact different rfl

theorem Compact.complete_iff {base : ℕ} {run : KmemRun} {block : Block} {after : Kmem}
    (compact : run.Compact base) (held : block ∈ run.outstanding)
    (safe : run.kmem.ReleaseSafe block)
    (returns : kmemLiballocFree run.kmem block.ptr block.pages = .ok after) :
    Complete base ⟨after, run.outstanding.erase block⟩ ↔ run.kmem.TouchesNeighbours block := by
  constructor
  · intro complete
    rcases complete.coalesced with ⟨entries, chain, coalesced, _⟩
    exact compact.tiled.touchesNeighbours held safe returns chain coalesced
  · intro neighbours
    exact (compact.free held safe neighbours returns).complete

end KmemRun

/-- In a run whose releases do not go wrong and join each block with all it touches,
the allocator never runs out of memory falsely, and the first release that does not
join its block ends this. The free list is sorted as a whole when, besides, every
block released lies above its first entry. -/
theorem kmem_no_false_exhaustion {base : ℕ} {run : KmemRun}
    (reached : (kmemSystem base).ReachableWhen CallJoined run) :
    run.Complete base ∧
      (∀ call next, KmemStep run call next → CallSafe run call →
        (next.Complete base ↔ CallJoined run call)) ∧
      ((kmemSystem base).ReachableWhen CallOrdered run → run.InOrder) := by
  have compact := KmemRun.compact_of_reachable reached
  refine ⟨compact.complete, ?_, KmemRun.inOrder_of_reachable⟩
  intro call next step safe
  cases step with
  | alloc positive returns => exact iff_of_true (compact.alloc positive returns).complete trivial
  | allocNull positive returns => exact iff_of_true (compact.allocNull returns).complete trivial
  | free held returns =>
      rw [compact.complete_iff held safe returns, CallJoined]
      exact (and_iff_right safe).symm

/-- The two lowest pages are handed out and the lower one is taken back. -/
theorem kmem_no_false_exhaustion_lower_page :
    ∃ s : Kmem, (kmemSystem 0xC0800000).ReachableWhen CallJoined ⟨s, [⟨0xC0801000, 1⟩]⟩ ∧
      s.block 1 = ⟨0xC0800000, 1⟩ ∧ (KmemRun.mk s [⟨0xC0801000, 1⟩]).Complete 0xC0800000 := by
  rcases kmemSystem_pages 0xC0800000 CallJoined (fun _ _ => trivial) (show 2 < 8192 by omega) with
    ⟨s, reached, first, atSpare, last, _, whole⟩
  have apart : (s.block 0).stop ≠ 0xC0800000 := by
    simp [whole, Block.stop]
  rcases kmemLiballocFree_behind_head first last atSpare (by decide) apart
    (show 1 < 2 ^ 16 by omega) with ⟨s', returns, _, _, _, block'⟩
  have safe : s.ReleaseSafe ⟨0xC0800000, 1⟩ := .of_single first last atSpare (by decide)
  have neighbours : s.TouchesNeighbours ⟨0xC0800000, 1⟩ := by
    apply Kmem.TouchesNeighbours.of_single first last
    rw [whole]
    decide
  have step : KmemStep ⟨s, [⟨0xC0801000, 1⟩, ⟨0xC0800000, 1⟩]⟩ (.free ⟨0xC0800000, 1⟩)
      ⟨s', [⟨0xC0801000, 1⟩]⟩ := by
    have erased : [⟨0xC0801000, 1⟩] =
        [(⟨0xC0801000, 1⟩ : Block), ⟨0xC0800000, 1⟩].erase ⟨0xC0800000, 1⟩ := by decide
    rw [erased]
    exact KmemStep.free (by simp) returns
  have back : (kmemSystem 0xC0800000).ReachableWhen CallJoined ⟨s', [⟨0xC0801000, 1⟩]⟩ := by
    apply System.ReachableWhen.step reached _ step
    exact ⟨safe, neighbours⟩
  exact ⟨s', back, by simp [block'], (kmem_no_false_exhaustion back).1⟩

/-- The lowest page is handed out and taken back. It lies below the other pages,
whose entry comes first all the same. -/
theorem kmem_false_exhaustion :
    ∃ run, (kmemSystem 0xC0800000).Reachable run ∧ run.outstanding = [] ∧
      kmemLiballocAlloc run.kmem 8192 = .ok (none, run.kmem) ∧ ¬run.Complete 0xC0800000 := by
  rcases kmemSystem_pages 0xC0800000 (fun _ _ => True) (fun _ _ => trivial)
    (show 1 < 8192 by omega) with ⟨s, reached, first, atSpare, last, _, whole⟩
  have apart : (s.block 0).stop ≠ 0xC0800000 := by
    simp [whole, Block.stop]
  rcases kmemLiballocFree_behind_head first last atSpare (by decide) apart
    (show 1 < 2 ^ 16 by omega) with ⟨s', returns, first', _, next', block'⟩
  have step : KmemStep ⟨s, [⟨0xC0800000, 1⟩]⟩ (.free ⟨0xC0800000, 1⟩) ⟨s', []⟩ :=
    KmemStep.free (by simp) returns
  have zero' : (s'.block 0).pages = 8191 := by simp [block', whole]
  have one' : (s'.block 1).pages = 1 := by simp [block']
  have chain : s'.FreeEntries [0, 1] := by
    simp [Kmem.FreeEntries, first', next']
  have noRoom : kmemLiballocAlloc s' 8192 = .ok (none, s') := by
    apply kmemLiballocAlloc_exhausted chain
    simp only [List.mem_cons, List.not_mem_nil, or_false]
    rintro entry (rfl | rfl)
    · omega
    · omega
  refine ⟨_, System.Reachable.step reached step, rfl, noRoom, ?_⟩
  intro complete
  rcases complete.whole rfl with ⟨after, granted⟩
  rw [noRoom] at granted
  simp at granted

end Osserver
