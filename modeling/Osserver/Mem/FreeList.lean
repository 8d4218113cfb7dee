import Osserver.Lib.Linked
import Osserver.Mem.Blocks
import Osserver.Mem.Kmem
import Mathlib.Data.Fintype.Card

/-!
# The free list as a list of blocks

When the chain from `kmem_free_pages` is a list proper, an allocation is a
`Take` on the blocks of its entries, and a release that avoids three wrong
branches is a `Release`. Everything the two functions do to descriptors is said
here, in `AllocOutcome` and `kmemLiballocFree_release`; the invariants of the
allocator are derived from these two and never unfold the code.
-/

namespace Osserver

open Linked

namespace Kmem

/-- The run of pages a descriptor describes. -/
def block (s : Kmem) (page : PageRef) : Block :=
  ⟨(s.kmemInitPages page).ptr, (s.kmemInitPages page).size⟩

/-- The chain from `kmem_free_pages` is the list `entries` and ends in `NULL`. -/
def FreeEntries (s : Kmem) (entries : List PageRef) : Prop :=
  Segment s.next s.kmemFreePages entries none

/-- A descriptor that following links from `kmem_free_pages` comes to. -/
def FreeEntry (s : Kmem) (page : PageRef) : Prop :=
  Reaches s.next s.kmemFreePages page

variable {s : Kmem}

@[simp]
theorem block_ptr (page : PageRef) : (s.block page).ptr = (s.kmemInitPages page).ptr :=
  rfl

@[simp]
theorem block_pages (page : PageRef) : (s.block page).pages = (s.kmemInitPages page).size :=
  rfl

@[simp]
theorem block_stop (page : PageRef) : (s.block page).stop = s.pagesEnd page :=
  rfl

@[simp]
theorem modify_kmemFreePages (page : PageRef) (write : KmemPages → KmemPages) :
    (s.modify page write).kmemFreePages = s.kmemFreePages :=
  rfl

@[simp]
theorem modify_kmemAllocPages (page : PageRef) (write : KmemPages → KmemPages) :
    (s.modify page write).kmemAllocPages = s.kmemAllocPages :=
  rfl

@[simp]
theorem modify_self (page : PageRef) (write : KmemPages → KmemPages) :
    (s.modify page write).kmemInitPages page = write (s.kmemInitPages page) := by
  simp [modify]

@[simp]
theorem modify_of_ne {page other : PageRef} (different : other ≠ page)
    (write : KmemPages → KmemPages) :
    (s.modify page write).kmemInitPages other = s.kmemInitPages other := by
  simp [modify, different]

@[simp]
theorem modify_next (page : PageRef) (write : KmemPages → KmemPages) :
    (s.modify page write).next =
      Function.update s.next page (write (s.kmemInitPages page)).next := by
  funext other
  by_cases same : other = page
  · subst other
    simp [modify, next]
  · simp [modify, next, same]

@[simp]
theorem modify_block (page : PageRef) (write : KmemPages → KmemPages) :
    (s.modify page write).block = Function.update s.block page
      ⟨(write (s.kmemInitPages page)).ptr, (write (s.kmemInitPages page)).size⟩ := by
  funext other
  by_cases same : other = page
  · subst other
    simp [modify, block]
  · simp [modify, block, same]

@[simp]
theorem block_eta (page : PageRef) :
    (⟨(s.kmemInitPages page).ptr, (s.kmemInitPages page).size⟩ : Block) = s.block page :=
  rfl

@[simp]
theorem kmemInitPages_next (page : PageRef) : (s.kmemInitPages page).next = s.next page :=
  rfl

@[simp]
theorem setFreePages_kmemFreePages (pointer : Option PageRef) :
    (s.setFreePages pointer).kmemFreePages = pointer :=
  rfl

@[simp]
theorem setFreePages_kmemAllocPages (pointer : Option PageRef) :
    (s.setFreePages pointer).kmemAllocPages = s.kmemAllocPages :=
  rfl

@[simp]
theorem setFreePages_kmemInitPages (pointer : Option PageRef) :
    (s.setFreePages pointer).kmemInitPages = s.kmemInitPages :=
  rfl

@[simp]
theorem setFreePages_next (pointer : Option PageRef) : (s.setFreePages pointer).next = s.next :=
  rfl

@[simp]
theorem setFreePages_block (pointer : Option PageRef) :
    (s.setFreePages pointer).block = s.block :=
  rfl

@[simp]
theorem setAllocPages_kmemFreePages (pointer : Option PageRef) :
    (s.setAllocPages pointer).kmemFreePages = s.kmemFreePages :=
  rfl

@[simp]
theorem setAllocPages_kmemAllocPages (pointer : Option PageRef) :
    (s.setAllocPages pointer).kmemAllocPages = pointer :=
  rfl

@[simp]
theorem setAllocPages_kmemInitPages (pointer : Option PageRef) :
    (s.setAllocPages pointer).kmemInitPages = s.kmemInitPages :=
  rfl

@[simp]
theorem setAllocPages_next (pointer : Option PageRef) : (s.setAllocPages pointer).next = s.next :=
  rfl

@[simp]
theorem setAllocPages_block (pointer : Option PageRef) :
    (s.setAllocPages pointer).block = s.block :=
  rfl

theorem FreeEntries.length_le {entries : List PageRef} (chain : s.FreeEntries entries) :
    entries.length ≤ 8192 := by
  have bound := List.Nodup.length_le_card chain.nodup
  simpa using bound

theorem FreeEntries.entry_iff {entries : List PageRef} (chain : s.FreeEntries entries)
    (page : PageRef) : s.FreeEntry page ↔ page ∈ entries :=
  chain.reaches_iff page

theorem map_update_of_notMem {entries : List PageRef} {page : PageRef} {new : Block}
    {blockOf : PageRef → Block} (outside : page ∉ entries) :
    entries.map (Function.update blockOf page new) = entries.map blockOf := by
  apply List.map_congr_left
  intro entry member
  have different : entry ≠ page := fun same => outside (same ▸ member)
  simp [different]

end Kmem

/-- What `kmem_liballoc_alloc` does to a free list proper: nothing when every
entry is too small, and otherwise one of the two cuts at the first entry that is
large enough. -/
inductive AllocOutcome (s : Kmem) (pages : ℕ) (entries : List PageRef) :
    Option ℕ → Kmem → Prop where
  | exhausted (small : ∀ entry ∈ entries, (s.block entry).pages < pages) :
      AllocOutcome s pages entries none s
  | whole {before after : List PageRef} {page : PageRef} (split : entries = before ++ page :: after)
      (small : ∀ entry ∈ before, (s.block entry).pages < pages)
      (fits : (s.block page).pages = pages) :
      AllocOutcome s pages entries (some (s.block page).ptr)
        (kmemLiballocAllocWhole s before.getLast? page)
  | front {before after : List PageRef} {page : PageRef} (split : entries = before ++ page :: after)
      (small : ∀ entry ∈ before, (s.block entry).pages < pages)
      (fits : pages < (s.block page).pages) :
      AllocOutcome s pages entries (some (s.block page).ptr)
        (kmemLiballocAllocFront s page pages)

/-- An entry that is neither as large nor larger is too small. -/
theorem small_concat {s : Kmem} {pages : ℕ} {before : List PageRef} {page : PageRef}
    (small : ∀ entry ∈ before, (s.block entry).pages < pages)
    (notExact : ¬(s.kmemInitPages page).size = pages)
    (notLarger : ¬pages < (s.kmemInitPages page).size) :
    ∀ entry ∈ before ++ [page], (s.block entry).pages < pages := by
  intro entry member
  rcases List.mem_append.mp member with member | member
  · exact small entry member
  · have same : entry = page := by simpa using member
    subst same
    simp only [Kmem.block_pages]
    omega

theorem kmemLiballocAllocLoop_outcome {s : Kmem} {pages fuel : ℕ} {before after : List PageRef}
    {page : PageRef} (chain : s.FreeEntries (before ++ page :: after))
    (small : ∀ entry ∈ before, (s.block entry).pages < pages) (enough : after.length < fuel) :
    ∃ result s', kmemLiballocAllocLoop s pages fuel before.getLast? page = .ok (result, s') ∧
      AllocOutcome s pages (before ++ page :: after) result s' := by
  induction after generalizing before page fuel with
  | nil =>
      rcases fuel with _ | fuel
      · omega
      · simp only [kmemLiballocAllocLoop]
        have last : s.next page = none := (segment_middle.mp chain).2
        split_ifs with exact larger
        · exact ⟨_, _, rfl, .whole rfl small exact⟩
        · exact ⟨_, _, rfl, .front rfl small larger⟩
        · rw [last]
          exact ⟨_, _, rfl, .exhausted (small_concat small exact larger)⟩
  | cons following after ih =>
      rcases fuel with _ | fuel
      · omega
      · simp only [kmemLiballocAllocLoop]
        have link : s.next page = some following := (segment_middle.mp chain).2.1
        split_ifs with exact larger
        · exact ⟨_, _, rfl, .whole rfl small exact⟩
        · exact ⟨_, _, rfl, .front rfl small larger⟩
        · rw [link]
          have regroup : before ++ page :: following :: after =
              (before ++ [page]) ++ following :: after := by simp
          have smallToo := small_concat small exact larger
          rw [regroup] at chain ⊢
          have enoughLeft : after.length < fuel := by simpa using enough
          have step := ih chain smallToo enoughLeft
          simpa using step

theorem kmemLiballocAlloc_outcome {s : Kmem} (pages : ℕ) {entries : List PageRef}
    (chain : s.FreeEntries entries) :
    ∃ result s', kmemLiballocAlloc s pages = .ok (result, s') ∧
      AllocOutcome s pages entries result s' := by
  have bound := chain.length_le
  cases entries with
  | nil =>
      have empty : s.kmemFreePages = none := chain
      refine ⟨none, s, ?_, .exhausted (by simp)⟩
      simp [kmemLiballocAlloc, empty]
  | cons page after =>
      have head : s.kmemFreePages = some page := chain.1
      have enough : after.length < 8192 := by
        rw [List.length_cons] at bound
        omega
      have start : s.FreeEntries ([] ++ page :: after) := chain
      rcases kmemLiballocAllocLoop_outcome start (by simp) enough with
        ⟨result, s', returns, outcome⟩
      refine ⟨result, s', ?_, outcome⟩
      simp only [kmemLiballocAlloc, head]
      exact returns

theorem Kmem.FreeEntries.apart {s : Kmem} {before after : List PageRef} {page : PageRef}
    (chain : s.FreeEntries (before ++ page :: after)) : page ∉ before ∧ page ∉ after := by
  have nodup := List.nodup_append.mp chain.nodup
  refine ⟨?_, (List.nodup_cons.mp nodup.2.1).1⟩
  intro member
  exact nodup.2.2 page member page (by simp) rfl

theorem kmemLiballocAllocWhole_block {s : Kmem} {prev : Option PageRef} {page other : PageRef}
    (different : other ≠ page) : (kmemLiballocAllocWhole s prev page).block other = s.block other := by
  cases prev with
  | none => simp [kmemLiballocAllocWhole, different]
  | some prev =>
      by_cases same : other = prev
      · subst other
        simp only [kmemLiballocAllocWhole, Kmem.setAllocPages_block, Kmem.modify_block,
          Function.update_self, Function.update_of_ne different]
        rfl
      · simp [kmemLiballocAllocWhole, different]

theorem kmemLiballocAllocWhole_chain {s : Kmem} {before after : List PageRef} {page : PageRef}
    (chain : s.FreeEntries (before ++ page :: after)) :
    (kmemLiballocAllocWhole s before.getLast? page).FreeEntries (before ++ after) := by
  have rest := (segment_middle.mp chain).2
  have pageApart := chain.apart
  rcases List.eq_nil_or_concat before with rfl | ⟨first, prev, rfl⟩
  · have redirected := rest.update_of_notMem s.kmemAllocPages pageApart.2
    simpa [Kmem.FreeEntries, kmemLiballocAllocWhole] using redirected
  · simp only [List.concat_eq_append, List.append_assoc, List.singleton_append] at chain pageApart ⊢
    have prevApart := chain.apart
    have outside : page ∉ first ++ prev :: after := by
      have notFirst := pageApart.1
      simp only [List.mem_append, List.mem_singleton] at notFirst
      simp only [List.mem_append, List.mem_cons]
      tauto
    have prevNotAfter : prev ∉ after := by
      intro member
      exact prevApart.2 (by simp [member])
    have unlinked := Segment.redirect chain prevApart.1 prevNotAfter rest
    have redirected := unlinked.update_of_notMem s.kmemAllocPages outside
    simpa [Kmem.FreeEntries, kmemLiballocAllocWhole] using redirected

theorem kmemLiballocAllocFront_chain {s : Kmem} {entries : List PageRef} {page : PageRef}
    {pages : ℕ} (chain : s.FreeEntries entries) :
    (kmemLiballocAllocFront s page pages).FreeEntries entries := by
  have sameNext : (kmemLiballocAllocFront s page pages).next = s.next := by
    simp [kmemLiballocAllocFront]
  simp only [Kmem.FreeEntries, sameNext]
  exact chain

theorem AllocOutcome.take {s s' : Kmem} {pages ptr : ℕ} {entries : List PageRef}
    (chain : s.FreeEntries entries) (outcome : AllocOutcome s pages entries (some ptr) s') :
    ∃ entries', s'.FreeEntries entries' ∧
      Take pages (entries.map s.block) ⟨ptr, pages⟩ (entries'.map s'.block) := by
  cases outcome with
  | @whole before after page split small fits =>
      subst split
      refine ⟨before ++ after, kmemLiballocAllocWhole_chain chain, ?_⟩
      have apart := chain.apart
      have sameBlocks : (before ++ after).map (kmemLiballocAllocWhole s before.getLast? page).block =
          (before ++ after).map s.block := by
        apply List.map_congr_left
        intro other member
        apply kmemLiballocAllocWhole_block
        rintro rfl
        simp [apart] at member
      rw [sameBlocks]
      have taken : s.block page = ⟨(s.block page).ptr, pages⟩ := by
        rw [← fits]
      simp only [List.map_append, List.map_cons]
      rw [taken]
      exact Take.whole
  | @front before after page split small fits =>
      subst split
      refine ⟨_, kmemLiballocAllocFront_chain chain, ?_⟩
      have apart := chain.apart
      have cut : (kmemLiballocAllocFront s page pages).block = Function.update s.block page
          ⟨(s.block page).ptr + pages * 4096, (s.block page).pages - pages⟩ := by
        simp [kmemLiballocAllocFront]
      rw [cut]
      simp only [List.map_append, List.map_cons, Function.update_self]
      rw [Kmem.map_update_of_notMem apart.1, Kmem.map_update_of_notMem apart.2]
      exact Take.front fits

namespace Kmem

/-- `kmem_liballoc_free` puts a block at `ptr` behind the entry `prev` of the free
list `before ++ prev :: after`. The first entry of the list is passed whatever
its address. -/
structure Position (s : Kmem) (ptr : ℕ) (before : List PageRef) (prev : PageRef)
    (after : List PageRef) : Prop where
  chain : s.FreeEntries (before ++ prev :: after)
  below : ∀ entry ∈ (before ++ [prev]).tail, (s.block entry).ptr < ptr
  above : ∀ entry ∈ after.head?, ptr ≤ (s.block entry).ptr

/-- The release of a block does not go wrong: the block touches the entry before
it, or else it does not touch the entry after it, these two entries do not touch
each other, and the first spare descriptor is not on the free list. -/
def ReleaseSafe (s : Kmem) (block : Block) : Prop :=
  ∀ before prev after, s.Position block.ptr before prev after →
    (s.block prev).stop = block.ptr ∨
      (∀ following ∈ after.head?, block.stop ≠ (s.block following).ptr ∧
        (s.block prev).stop ≠ (s.block following).ptr) ∧
      ∀ spare ∈ s.kmemAllocPages, spare ∉ before ++ prev :: after

/-- The block touches no entries but the two it is put between. -/
def TouchesNeighbours (s : Kmem) (block : Block) : Prop :=
  ∀ before prev after, s.Position block.ptr before prev after →
    ∀ entry ∈ before ++ prev :: after,
      ((s.block entry).stop = block.ptr → entry = prev) ∧
        (block.stop = (s.block entry).ptr → entry ∈ after.head?)

end Kmem

theorem kmemLiballocFreeWalk_position {s : Kmem} {ptr fuel : ℕ} {before rest : List PageRef}
    {prev : PageRef} (chain : s.FreeEntries (before ++ prev :: rest))
    (below : ∀ entry ∈ (before ++ [prev]).tail, (s.block entry).ptr < ptr)
    (enough : rest.length < fuel) :
    ∃ before' prev' after', before' ++ prev' :: after' = before ++ prev :: rest ∧
      s.Position ptr before' prev' after' ∧
      kmemLiballocFreeWalk s ptr fuel prev = .ok (prev', after'.head?) := by
  induction rest generalizing before prev fuel with
  | nil =>
      rcases fuel with _ | fuel
      · omega
      · have last : s.next prev = none := (segment_middle.mp chain).2
        refine ⟨before, prev, [], rfl, ⟨chain, below, by simp⟩, ?_⟩
        simp [kmemLiballocFreeWalk, last]
  | cons following rest ih =>
      rcases fuel with _ | fuel
      · omega
      · have link : s.next prev = some following := (segment_middle.mp chain).2.1
        by_cases lower : (s.block following).ptr < ptr
        · have regroup : before ++ prev :: following :: rest =
              (before ++ [prev]) ++ following :: rest := by simp
          have belowToo : ∀ entry ∈ ((before ++ [prev]) ++ [following]).tail,
              (s.block entry).ptr < ptr := by
            intro entry member
            rw [List.tail_append_of_ne_nil (by simp)] at member
            rcases List.mem_append.mp member with member | member
            · exact below entry member
            · have same : entry = following := by simpa using member
              subst same
              exact lower
          have enoughLeft : rest.length < fuel := by simpa using enough
          rw [regroup] at chain ⊢
          rcases ih chain belowToo enoughLeft with ⟨before', prev', after', split, position, walk⟩
          refine ⟨before', prev', after', split, position, ?_⟩
          rw [← walk]
          simp only [Kmem.block_ptr] at lower
          simp [kmemLiballocFreeWalk, link, lower]
        · refine ⟨before, prev, following :: rest, rfl, ⟨chain, below, ?_⟩, ?_⟩
          · intro entry atHead
            have same : following = entry := by simpa using atHead
            subst same
            omega
          · simp only [Kmem.block_ptr] at lower
            simp [kmemLiballocFreeWalk, link, lower]

theorem kmemLiballocFree_position {s : Kmem} {ptr size : ℕ} {entries : List PageRef}
    (chain : s.FreeEntries entries) (nonempty : entries ≠ []) :
    ∃ before prev after, before ++ prev :: after = entries ∧ s.Position ptr before prev after ∧
      kmemLiballocFree s ptr size =
        (kmemLiballocFreeRecord s prev after.head? ptr size).map
          (fun s => kmemLiballocFreeMerge s prev after.head?) := by
  cases entries with
  | nil => exact absurd rfl nonempty
  | cons head rest =>
      have first : s.kmemFreePages = some head := chain.1
      have bound := chain.length_le
      have enough : rest.length < 8192 := by
        rw [List.length_cons] at bound
        omega
      have start : s.FreeEntries ([] ++ head :: rest) := chain
      have below : ∀ entry ∈ ([] ++ [head]).tail, (s.block entry).ptr < ptr := by simp
      rcases kmemLiballocFreeWalk_position start below enough with
        ⟨before, prev, after, split, position, walk⟩
      refine ⟨before, prev, after, split, position, ?_⟩
      simp only [kmemLiballocFree, first, walk]
      cases kmemLiballocFreeRecord s prev after.head? ptr size <;> rfl

theorem kmemLiballocFreeMerge_apart {s : Kmem} {prev : PageRef} {p : Option PageRef}
    (apart : ∀ following ∈ p, (s.block prev).stop ≠ (s.block following).ptr) :
    kmemLiballocFreeMerge s prev p = s := by
  cases p with
  | none => rfl
  | some following =>
      have noTouch := apart following rfl
      simp only [Kmem.block_stop, Kmem.block_ptr] at noTouch
      simp [kmemLiballocFreeMerge, noTouch]

theorem kmemLiballocFreeMerge_touching {s : Kmem} {before after : List PageRef}
    {prev following : PageRef} (chain : s.FreeEntries (before ++ prev :: following :: after))
    (touches : (s.block prev).stop = (s.block following).ptr)
    (narrow : (s.block prev).pages + (s.block following).pages < 2 ^ 16) :
    (kmemLiballocFreeMerge s prev (some following)).FreeEntries (before ++ prev :: after) ∧
      (kmemLiballocFreeMerge s prev (some following)).block = Function.update s.block prev
        ⟨(s.block prev).ptr, (s.block prev).pages + (s.block following).pages⟩ := by
  have prevApart := chain.apart
  have different : following ≠ prev := by
    rintro rfl
    exact prevApart.2 (by simp)
  have prevNotAfter : prev ∉ after := fun member => prevApart.2 (by simp [member])
  have regroup : before ++ prev :: following :: after = (before ++ [prev]) ++ following :: after := by
    simp
  have followingApart : following ∉ before ++ [prev] ∧ following ∉ after := by
    rw [regroup] at chain
    exact chain.apart
  have outside : following ∉ before ++ prev :: after := by
    intro member
    apply followingApart.1
    simp only [List.mem_append, List.mem_cons] at member ⊢
    tauto
  have rest : Segment s.next (s.next following) after none := (segment_middle.mp chain).2.2
  simp only [Kmem.block_stop, Kmem.block_ptr, Kmem.block_pages] at touches narrow
  simp only [kmemLiballocFreeMerge, touches, if_true]
  constructor
  · have unlinked := Segment.redirect chain prevApart.1 prevNotAfter rest
    have redirected := unlinked.update_of_notMem s.kmemAllocPages outside
    simpa [Kmem.FreeEntries, different] using redirected
  · funext other
    by_cases atFollowing : other = following
    · subst other
      simp [different]
    · by_cases atPrev : other = prev
      · subst other
        simp [atFollowing, uint16_of_lt narrow]
      · simp [atFollowing, atPrev]

theorem kmemLiballocFreeRecord_insert {s s' : Kmem} {block : Block} {before after : List PageRef}
    {prev : PageRef} (position : s.Position block.ptr before prev after)
    (notTouching : (s.block prev).stop ≠ block.ptr)
    (apart : ∀ following ∈ after.head?, block.stop ≠ (s.block following).ptr)
    (unused : ∀ spare ∈ s.kmemAllocPages, spare ∉ before ++ prev :: after)
    (narrow : block.pages < 2 ^ 16)
    (returns : kmemLiballocFreeRecord s prev after.head? block.ptr block.pages = .ok s') :
    ∃ spare, s'.FreeEntries (before ++ prev :: spare :: after) ∧
      spare ∉ before ++ prev :: after ∧ s'.block = Function.update s.block spare block := by
  have inserted : kmemLiballocFreeInsert s prev after.head? block.ptr block.pages = .ok s' := by
    have noTouchPrev : ¬s.pagesEnd prev = block.ptr := notTouching
    simp only [kmemLiballocFreeRecord, if_neg noTouchPrev] at returns
    cases after with
    | nil => exact returns
    | cons following after =>
        have noTouch : ¬block.ptr + block.pages * 4096 = (s.kmemInitPages following).ptr :=
          apart following rfl
        simpa only [List.head?_cons, if_neg noTouch] using returns
  have prevApart := position.chain.apart
  have rest : Segment s.next (s.next prev) after none := (segment_middle.mp position.chain).2
  have atHead : s.next prev = after.head? := by
    cases after with
    | nil => exact rest
    | cons following after => exact rest.1
  simp only [kmemLiballocFreeInsert] at inserted
  split at inserted
  · exact absurd inserted (by simp)
  · rename_i spare atSpare
    have outside := unused spare atSpare
    have different : spare ≠ prev := by
      rintro rfl
      exact outside (by simp)
    cases inserted
    refine ⟨spare, ?_, outside, ?_⟩
    · have spareNotBefore : spare ∉ before := fun member => outside (by simp [member])
      have spareNotAfter : spare ∉ after := fun member => outside (by simp [member])
      have linked := position.chain.update_of_notMem after.head? outside
      have tail : Segment (Function.update s.next spare after.head?) (some spare)
          (spare :: after) none := by
        refine ⟨rfl, ?_⟩
        simp only [Function.update_self, ← atHead]
        exact rest.update_of_notMem _ spareNotAfter
      have prevNotTail : prev ∉ spare :: after := by
        simp [prevApart.2, Ne.symm different]
      have spliced := Segment.redirect linked prevApart.1 prevNotTail tail
      simpa [Kmem.FreeEntries] using spliced
    · funext other
      by_cases atPrev : other = prev
      · subst other
        simp [Ne.symm different]
      · by_cases same : other = spare
        · subst other
          simp [atPrev, uint16_of_lt narrow]
        · simp [atPrev, same]

/-- A block that touches the entry before it grows that entry, which may then be
merged with the entry behind. -/
theorem kmemLiballocFree_join {s : Kmem} {block : Block} {before after : List PageRef}
    {prev : PageRef} {size : ℕ} (chain : s.FreeEntries (before ++ prev :: after))
    (touches : (s.block prev).stop = block.ptr) (grown : size = (s.block prev).pages + block.pages)
    (narrow : ∀ following ∈ after, block.stop = (s.block following).ptr →
      size + (s.block following).pages < 2 ^ 16) :
    ∃ entries', (kmemLiballocFreeMerge (s.modify prev (fun d => { d with size := size })) prev
        after.head?).FreeEntries entries' ∧
      Release block (before.map s.block) (s.block prev) (after.map s.block) (entries'.map
        (kmemLiballocFreeMerge (s.modify prev (fun d => { d with size := size })) prev
          after.head?).block) := by
  have prevApart := chain.apart
  let joined := s.modify prev (fun d => { d with size := size })
  have sameChain : joined.FreeEntries (before ++ prev :: after) := by
    simpa [joined, Kmem.FreeEntries] using chain
  have newBlock : joined.block = Function.update s.block prev
      ⟨(s.block prev).ptr, (s.block prev).pages + block.pages⟩ := by
    simp [joined, grown]
  have otherBlock : ∀ other, other ≠ prev → joined.block other = s.block other := by
    intro other different
    simp [newBlock, different]
  have joinedStop : (joined.block prev).stop = block.stop := by
    rw [newBlock, Function.update_self]
    exact Block.joined_stop touches rfl
  change ∃ entries', (kmemLiballocFreeMerge joined prev after.head?).FreeEntries entries' ∧
    Release block (before.map s.block) (s.block prev) (after.map s.block)
      (entries'.map (kmemLiballocFreeMerge joined prev after.head?).block)
  by_cases apart : ∀ following ∈ after.head?, block.stop ≠ (s.block following).ptr
  · have apartToo : ∀ following ∈ after.head?,
        (joined.block prev).stop ≠ (joined.block following).ptr := by
      intro following atHead
      have different : following ≠ prev := by
        rintro rfl
        exact prevApart.2 (List.mem_of_mem_head? atHead)
      rw [joinedStop, otherBlock following different]
      exact apart following atHead
    rw [kmemLiballocFreeMerge_apart apartToo]
    refine ⟨_, sameChain, ?_⟩
    rw [newBlock]
    simp only [List.map_append, List.map_cons, Function.update_self]
    rw [Kmem.map_update_of_notMem prevApart.1, Kmem.map_update_of_notMem prevApart.2]
    apply Release.joinPrev touches
    simpa using apart
  · push Not at apart
    rcases apart with ⟨following, atHead, touched⟩
    cases after with
    | nil => simp at atHead
    | cons first after =>
        have same : first = following := by simpa using atHead
        subst following
        have different : first ≠ prev := by
          rintro rfl
          exact prevApart.2 (by simp)
        have firstBlock := otherBlock first different
        have touching : (joined.block prev).stop = (joined.block first).ptr := by
          rw [joinedStop, firstBlock]
          exact touched
        have prevPages : (joined.block prev).pages = size := by
          rw [newBlock, Function.update_self, grown]
        have fits : (joined.block prev).pages + (joined.block first).pages < 2 ^ 16 := by
          rw [prevPages, firstBlock]
          exact narrow first (by simp) touched
        rcases kmemLiballocFreeMerge_touching sameChain touching fits with ⟨mergedChain, mergedBlock⟩
        refine ⟨_, mergedChain, ?_⟩
        have prevNotAfter : prev ∉ after := fun member => prevApart.2 (by simp [member])
        simp only [List.head?_cons, mergedBlock, newBlock, Function.update_idem, List.map_append,
          List.map_cons, Function.update_self, Function.update_of_ne different]
        rw [Kmem.map_update_of_notMem prevApart.1, Kmem.map_update_of_notMem prevNotAfter]
        exact Release.joinBoth touches touched

/-- A block that touches neither of the entries it is put between, which do not touch
each other, gets an entry of its own. -/
theorem kmemLiballocFree_insert {s inserted : Kmem} {block : Block} {before after : List PageRef}
    {prev : PageRef} (position : s.Position block.ptr before prev after)
    (notTouching : (s.block prev).stop ≠ block.ptr)
    (apart : ∀ following ∈ after.head?, block.stop ≠ (s.block following).ptr ∧
      (s.block prev).stop ≠ (s.block following).ptr)
    (unused : ∀ spare ∈ s.kmemAllocPages, spare ∉ before ++ prev :: after)
    (narrow : block.pages < 2 ^ 16)
    (recorded : kmemLiballocFreeRecord s prev after.head? block.ptr block.pages = .ok inserted) :
    ∃ entries', (kmemLiballocFreeMerge inserted prev after.head?).FreeEntries entries' ∧
      Release block (before.map s.block) (s.block prev) (after.map s.block)
        (entries'.map (kmemLiballocFreeMerge inserted prev after.head?).block) := by
  rcases kmemLiballocFreeRecord_insert position notTouching
    (fun following atHead => (apart following atHead).1) unused narrow recorded with
    ⟨spare, insertedChain, outside, insertedBlock⟩
  have otherBlock : ∀ entry ∈ before ++ prev :: after, inserted.block entry = s.block entry := by
    intro entry member
    have different : entry ≠ spare := by
      rintro rfl
      exact outside member
    simp [insertedBlock, different]
  have notMerged : kmemLiballocFreeMerge inserted prev after.head? = inserted := by
    apply kmemLiballocFreeMerge_apart
    intro following atHead
    have member := List.mem_of_mem_head? atHead
    rw [otherBlock prev (by simp), otherBlock following (by simp [member])]
    exact (apart following atHead).2
  simp only [notMerged]
  refine ⟨_, insertedChain, ?_⟩
  have notBefore : spare ∉ before := fun member => outside (by simp [member])
  have notAfter : spare ∉ after := fun member => outside (by simp [member])
  have notPrev : prev ≠ spare := fun same => outside (by simp [same])
  simp only [insertedBlock, List.map_append, List.map_cons, Function.update_self,
    Function.update_of_ne notPrev]
  rw [Kmem.map_update_of_notMem notBefore, Kmem.map_update_of_notMem notAfter]
  apply Release.insert
  · cases before with
    | nil => exact Or.inl rfl
    | cons first before =>
        right
        apply position.below
        simp
  · simpa using position.above
  · exact notTouching
  · simpa using fun following atHead => (apart following atHead).1

/-- A release that does not go wrong is a release on the list of free blocks. -/
theorem kmemLiballocFree_release {base : ℕ} {s s' : Kmem} {block : Block}
    {entries : List PageRef} {outstanding : List Block} (chain : s.FreeEntries entries)
    (owned : Owned base (entries.map s.block) outstanding) (held : block ∈ outstanding)
    (safe : s.ReleaseSafe block) (returns : kmemLiballocFree s block.ptr block.pages = .ok s') :
    ∃ before prev after entries', before ++ prev :: after = entries ∧
      s.Position block.ptr before prev after ∧ s'.FreeEntries entries' ∧
        Release block (before.map s.block) (s.block prev) (after.map s.block)
          (entries'.map s'.block) := by
  have nonempty : entries ≠ [] := by
    rintro rfl
    have empty : s.kmemFreePages = none := chain
    simp [kmemLiballocFree, empty] at returns
  rcases kmemLiballocFree_position chain nonempty with ⟨before, prev, after, rfl, position, finds⟩
  rw [finds] at returns
  have blockBounds := owned.bounds (List.mem_append_right _ held)
  have entryBounds : ∀ entry ∈ before ++ prev :: after,
      base ≤ (s.block entry).ptr ∧ (s.block entry).stop ≤ base + 8192 * 4096 := by
    intro entry member
    exact owned.bounds (List.mem_append_left _ (List.mem_map_of_mem member))
  simp only [Block.stop] at blockBounds entryBounds
  by_cases touches : (s.block prev).stop = block.ptr
  · have prevBounds := entryBounds prev (by simp)
    have stops := touches
    simp only [Block.stop] at stops
    have noWrap : uint16 ((s.block prev).pages + block.pages) =
        (s.block prev).pages + block.pages := by
      apply uint16_of_lt
      omega
    have narrow : ∀ following ∈ after, block.stop = (s.block following).ptr →
        uint16 ((s.block prev).pages + block.pages) + (s.block following).pages < 2 ^ 16 := by
      intro following member touched
      have followingBounds := entryBounds following (by simp [member])
      simp only [Block.stop] at touched
      omega
    have recorded : kmemLiballocFreeRecord s prev after.head? block.ptr block.pages =
        .ok (s.modify prev (fun d => { d with size := uint16 (d.size + block.pages) })) := by
      have touchesPrev : s.pagesEnd prev = block.ptr := touches
      simp only [kmemLiballocFreeRecord, if_pos touchesPrev]
    rw [recorded] at returns
    cases returns
    rcases kmemLiballocFree_join position.chain touches noWrap narrow with
      ⟨entries', joinedChain, released⟩
    exact ⟨before, prev, after, entries', rfl, position, joinedChain, released⟩
  · rcases safe before prev after position with touching | ⟨apart, unused⟩
    · exact absurd touching touches
    · have narrow : block.pages < 2 ^ 16 := by omega
      cases recorded : kmemLiballocFreeRecord s prev after.head? block.ptr block.pages with
      | error halt => simp [recorded, Except.map] at returns
      | ok inserted =>
          rw [recorded] at returns
          cases returns
          rcases kmemLiballocFree_insert position touches apart unused narrow recorded with
            ⟨entries', insertedChain, released⟩
          exact ⟨before, prev, after, entries', rfl, position, insertedChain, released⟩

theorem kmemLiballocAlloc_head {s : Kmem} {head : PageRef} {pages : ℕ}
    (first : s.kmemFreePages = some head) (larger : pages < (s.block head).pages) :
    kmemLiballocAlloc s pages =
      .ok (some (s.block head).ptr, kmemLiballocAllocFront s head pages) := by
  simp only [Kmem.block_pages] at larger
  have different : (s.kmemInitPages head).size ≠ pages := by omega
  simp [kmemLiballocAlloc, first, kmemLiballocAllocLoop, different, larger]

/-- A block released behind the only entry of the free list, which it does not
touch, gets the first spare descriptor. -/
theorem kmemLiballocFree_behind_head {s : Kmem} {head spare : PageRef} {ptr size : ℕ}
    (first : s.kmemFreePages = some head) (last : s.next head = none)
    (atSpare : s.kmemAllocPages = some spare) (different : spare ≠ head)
    (apart : (s.block head).stop ≠ ptr) (narrow : size < 2 ^ 16) :
    ∃ s', kmemLiballocFree s ptr size = .ok s' ∧ s'.kmemFreePages = some head ∧
      s'.kmemAllocPages = s.next spare ∧
        s'.next = Function.update (Function.update s.next spare none) head (some spare) ∧
          s'.block = Function.update s.block spare ⟨ptr, size⟩ := by
  have noTouch : s.pagesEnd head ≠ ptr := apart
  have headNotSpare : head ≠ spare := Ne.symm different
  refine ⟨((s.setAllocPages (s.next spare)).modify spare
    (fun _ => { next := none, ptr := ptr, size := uint16 size })).modify head
      (fun d => { d with next := some spare }), ?_, ?_, ?_, ?_, ?_⟩
  · simp [kmemLiballocFree, first, kmemLiballocFreeWalk, last, kmemLiballocFreeRecord, noTouch,
      kmemLiballocFreeInsert, atSpare, kmemLiballocFreeMerge]
  · simp [first]
  · simp
  · simp
  · funext other
    by_cases atHead : other = head
    · subst other
      simp [headNotSpare]
    · by_cases same : other = spare
      · subst other
        simp [atHead, uint16_of_lt narrow]
      · simp [atHead, same]

/-- A block released behind the first entry that touches only the second one adds
its pages to the end of that one. -/
theorem kmemLiballocFree_grow_following {s : Kmem} {head p : PageRef} {ptr size : ℕ}
    (first : s.kmemFreePages = some head) (link : s.next head = some p) (different : head ≠ p)
    (notBelow : ptr ≤ (s.block p).ptr) (apart : (s.block head).stop ≠ ptr)
    (touched : ptr + size * 4096 = (s.block p).ptr)
    (apartHead : (s.block head).stop ≠ (s.block p).ptr) :
    kmemLiballocFree s ptr size =
      .ok (s.modify p (fun d => { d with size := uint16 (d.size + size) })) := by
  simp only [Kmem.block_ptr, Kmem.block_stop] at notBelow apart touched apartHead
  have stays : ¬(s.kmemInitPages p).ptr < ptr := by omega
  have sameEnd : (s.modify p (fun d => { d with size := uint16 (d.size + size) })).pagesEnd head =
      s.pagesEnd head := by
    simp [Kmem.pagesEnd, different]
  simp [kmemLiballocFree, first, kmemLiballocFreeWalk, link, stays, kmemLiballocFreeRecord, apart,
    touched, kmemLiballocFreeMerge, sameEnd, apartHead]

theorem kmemLiballocAlloc_exhausted {s : Kmem} {pages : ℕ} {entries : List PageRef}
    (chain : s.FreeEntries entries) (small : ∀ entry ∈ entries, (s.block entry).pages < pages) :
    kmemLiballocAlloc s pages = .ok (none, s) := by
  rcases kmemLiballocAlloc_outcome pages chain with ⟨result, s', returns, outcome⟩
  cases outcome with
  | exhausted _ => exact returns
  | @whole before after page split _ fits =>
      have tooSmall := small page (by simp [split])
      omega
  | @front before after page split _ fits =>
      have tooSmall := small page (by simp [split])
      omega

namespace Kmem

variable {s : Kmem} {head : PageRef}

theorem Position.of_single {ptr : ℕ} {before after : List PageRef} {prev : PageRef}
    (first : s.kmemFreePages = some head) (last : s.next head = none)
    (position : s.Position ptr before prev after) : before = [] ∧ prev = head ∧ after = [] := by
  have single : s.FreeEntries [head] := by
    rw [FreeEntries, first]
    exact ⟨rfl, last⟩
  have same : before ++ prev :: after = [head] := position.chain.unique single
  cases before with
  | nil => simpa using same
  | cons first before => simp at same

theorem ReleaseSafe.of_single {spare : PageRef} {block : Block}
    (first : s.kmemFreePages = some head) (last : s.next head = none)
    (atSpare : s.kmemAllocPages = some spare) (different : spare ≠ head) :
    s.ReleaseSafe block := by
  intro before prev after position
  rcases position.of_single first last with ⟨rfl, rfl, rfl⟩
  right
  simpa [atSpare] using different

theorem TouchesNeighbours.of_single {block : Block} (first : s.kmemFreePages = some head)
    (last : s.next head = none) (apart : block.stop ≠ (s.block head).ptr) :
    s.TouchesNeighbours block := by
  intro before prev after position
  rcases position.of_single first last with ⟨rfl, rfl, rfl⟩
  intro entry onList
  have same : entry = prev := by simpa using onList
  subst same
  exact ⟨fun _ => rfl, fun touched => absurd touched apart⟩

end Kmem

end Osserver
