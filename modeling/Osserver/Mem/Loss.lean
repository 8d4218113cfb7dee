import Osserver.Mem.Ownership

/-!
# Releases that lose pages

The releases that `Kmem.ReleaseSafe` leaves out all lose pages: the block itself
when it touches only the entry after it, or when its new descriptor is dropped;
the pages of a free entry when the spare descriptor is that entry. So a release
keeps exclusive ownership exactly when it is one of the others.
-/

namespace Osserver

open Linked Transition Tiling

namespace Kmem.Position

variable {s : Kmem} {ptr : ℕ} {before before' after after' : List PageRef} {prev prev' : PageRef}

/-- Of two places, the entry behind the earlier one would be below and above the block. -/
theorem not_earlier {between : List PageRef}
    (earlier : s.Position ptr before prev (between ++ prev' :: after'))
    (later : s.Position ptr (before ++ prev :: between) prev' after') : False := by
  have behind : ∃ entry, entry ∈ (between ++ prev' :: after').head? ∧
      entry ∈ ((before ++ prev :: between) ++ [prev']).tail := by
    cases between with
    | nil => exact ⟨prev', rfl, by cases before <;> simp⟩
    | cons entry between => exact ⟨entry, rfl, by cases before <;> simp⟩
  rcases behind with ⟨entry, atHead, passed⟩
  have below := later.below entry passed
  have above := earlier.above entry atHead
  omega

theorem unique (position : s.Position ptr before prev after)
    (position' : s.Position ptr before' prev' after') :
    before = before' ∧ prev = prev' ∧ after = after' := by
  have same : before ++ prev :: after = before' ++ prev' :: after' :=
    position.chain.unique position'.chain
  rcases List.append_eq_append_iff.mp same with ⟨between, rfl, atRight⟩ | ⟨between, rfl, atRight⟩
  · cases between with
    | nil => simpa using atRight
    | cons entry between =>
        cases atRight
        exact (not_earlier position position').elim
  · cases between with
    | nil => simpa [eq_comm] using atRight
    | cons entry between =>
        cases atRight
        exact (not_earlier position' position).elim

end Kmem.Position

/-- No entry of the free list describes the address. -/
def Kmem.Lost (s : Kmem) (address : ℕ) : Prop :=
  ∀ entry, s.FreeEntry entry → ¬(s.block entry).span.Covers address

/-- A page that nobody holds and that no entry describes has no owner. -/
theorem KmemRun.not_exclusive_of_lost {base page : ℕ} {run : KmemRun} (inside : page < 8192)
    (notHeld : ∀ block ∈ run.outstanding, ¬block.span.Covers (base + page * 4096))
    (lost : run.kmem.Lost (base + page * 4096)) : ¬run.Exclusive base := by
  intro exclusive
  have inRegion : base + page * 4096 ∈ (⟨base, 8192⟩ : Block).pageSet := ⟨page, inside, rfl⟩
  rcases (exclusive.exactly _).mpr inRegion with ⟨block, held, hasPage⟩ | ⟨entry, onFree, hasPage⟩
  · exact notHeld block held (Owned.covers_of_page_mem hasPage)
  · exact lost entry onFree (Owned.covers_of_page_mem hasPage)

section Release

variable {s inserted : Kmem} {block : Block} {before after : List PageRef}
  {prev following spare : PageRef}

theorem modify_next_block (s : Kmem) (page : PageRef) (pointer : Option PageRef) :
    (s.modify page (fun d => { d with next := pointer })).block = s.block := by
  rw [Kmem.modify_block]
  exact Function.update_eq_self page s.block

theorem kmemLiballocFreeInsert_ok {p : Option PageRef} {ptr size : ℕ}
    (returns : kmemLiballocFreeInsert s prev p ptr size = .ok inserted) :
    ∃ spare, s.kmemAllocPages = some spare ∧ inserted.kmemFreePages = s.kmemFreePages ∧
      inserted.kmemAllocPages = s.next spare ∧
        inserted.next = Function.update (Function.update s.next spare p) prev (some spare) ∧
          inserted.block = Function.update s.block spare ⟨ptr, uint16 size⟩ := by
  simp only [kmemLiballocFreeInsert] at returns
  split at returns
  · cases returns
  · rename_i spare atSpare
    cases returns
    refine ⟨spare, atSpare, rfl, rfl, ?_, ?_⟩
    · simp
    · rw [modify_next_block, Kmem.modify_block, Kmem.setAllocPages_block]

theorem kmemLiballocFreeMerge_cases (s : Kmem) (prev : PageRef) (p : Option PageRef) :
    (kmemLiballocFreeMerge s prev p = s ∧
        ∀ following ∈ p, (s.block prev).stop ≠ (s.block following).ptr) ∨
      ∃ following ∈ p, (s.block prev).stop = (s.block following).ptr ∧
        (kmemLiballocFreeMerge s prev p).kmemFreePages = s.kmemFreePages ∧
          (kmemLiballocFreeMerge s prev p).next = Function.update
            (Function.update s.next prev (s.next following)) following s.kmemAllocPages ∧
          (kmemLiballocFreeMerge s prev p).block = Function.update s.block prev
            ⟨(s.block prev).ptr, uint16 ((s.block prev).pages + (s.block following).pages)⟩ := by
  cases p with
  | none => exact Or.inl ⟨rfl, nofun⟩
  | some following =>
      by_cases touches : (s.block prev).stop = (s.block following).ptr
      · right
        have touching : s.pagesEnd prev = (s.kmemInitPages following).ptr := touches
        simp only [kmemLiballocFreeMerge, if_pos touching]
        refine ⟨following, rfl, touches, rfl, ?_, ?_⟩
        · simp
        · rw [Kmem.setAllocPages_block, modify_next_block, modify_next_block, Kmem.modify_block]
          rfl
      · left
        have apart : ∀ p ∈ some following, (s.block prev).stop ≠ (s.block p).ptr := by
          rintro p ⟨⟩
          exact touches
        exact ⟨kmemLiballocFreeMerge_apart apart, apart⟩

/-- Merging covers no address that `prev` and `following` did not cover. -/
theorem kmemLiballocFreeMerge_covers {entry : PageRef} {address : ℕ} {p : Option PageRef}
    (notPrev : ¬(s.block prev).span.Covers address)
    (notFollowing : ∀ following ∈ p, ¬(s.block following).span.Covers address)
    (notEntry : ¬(s.block entry).span.Covers address) :
    ¬((kmemLiballocFreeMerge s prev p).block entry).span.Covers address := by
  rcases kmemLiballocFreeMerge_cases s prev p with
    ⟨same, _⟩ | ⟨following, atHead, touches, _, _, merged⟩
  · rw [same]
    exact notEntry
  · rw [merged]
    by_cases atPrev : entry = prev
    · rw [atPrev, Function.update_self]
      exact Block.not_covers_join touches (Nat.mod_le _ _) notPrev (notFollowing following atHead)
    · rw [Function.update_of_ne atPrev]
      exact notEntry

/-- The entries of a free list that owns its blocks lie apart. -/
theorem Owned.entries_apart {base : ℕ} {entries : List PageRef} {outstanding : List Block}
    (owned : Owned base (entries.map s.block) outstanding) {entry other : PageRef}
    (onList : entry ∈ entries) (otherOnList : other ∈ entries) (different : entry ≠ other) :
    (s.block entry).Apart (s.block other) := by
  have pairwise := List.pairwise_map.mp (List.pairwise_append.mp owned.pairwise_apart).1
  have symmetric : Std.Symm (fun first second : PageRef =>
      (s.block first).Apart (s.block second)) := ⟨fun first second apart => apart.symm⟩
  exact pairwise.forall onList otherOnList different

/-- The links that a release sets lead to entries, when the spare descriptor is one. -/
theorem freeEntry_of_spare_on_list (chain : s.FreeEntries (before ++ prev :: after))
    (onList : spare ∈ before ++ prev :: after) (atSpare : s.kmemAllocPages = some spare)
    {ptr size : ℕ} (returns : kmemLiballocFreeInsert s prev after.head? ptr size = .ok inserted)
    {entry : PageRef} (onFree : (kmemLiballocFreeMerge inserted prev after.head?).FreeEntry entry) :
    entry ∈ before ++ prev :: after := by
  rcases kmemLiballocFreeInsert_ok returns with ⟨pages, atPages, sameFree, allocPages, links, _⟩
  rw [atSpare] at atPages
  cases atPages
  have linked : ∀ cell next, cell ∈ before ++ prev :: after → s.next cell = some next →
      next ∈ before ++ prev :: after := by
    intro cell next member link
    have reaches := ((chain.entry_iff cell).mpr member).tail link
    exact (chain.entry_iff next).mp reaches
  have headOnList : ∀ cell, s.kmemFreePages = some cell → cell ∈ before ++ prev :: after := by
    intro cell atHead
    have reaches : s.FreeEntry cell := ⟨[], atHead⟩
    exact (chain.entry_iff cell).mp reaches
  have insertedLinked : ∀ cell next, cell ∈ before ++ prev :: after →
      inserted.next cell = some next → next ∈ before ++ prev :: after := by
    intro cell next member link
    rw [links] at link
    by_cases atPrev : cell = prev
    · rw [atPrev, Function.update_self] at link
      cases link
      exact onList
    · rw [Function.update_of_ne atPrev] at link
      by_cases isSpare : cell = spare
      · rw [isSpare, Function.update_self] at link
        simp [List.mem_of_mem_head? link]
      · rw [Function.update_of_ne isSpare] at link
        exact linked cell next member link
  rcases kmemLiballocFreeMerge_cases inserted prev after.head? with
    ⟨same, _⟩ | ⟨following, atHead, _, mergedFree, mergedLinks, _⟩
  · rw [same] at onFree
    apply onFree.closed _ insertedLinked
    rw [sameFree]
    exact headOnList
  · have followingOnList : following ∈ before ++ prev :: after := by
      simp [List.mem_of_mem_head? atHead]
    apply onFree.closed
    · rw [mergedFree, sameFree]
      exact headOnList
    · intro cell next member link
      rw [mergedLinks] at link
      by_cases atFollowing : cell = following
      · rw [atFollowing, Function.update_self, allocPages] at link
        exact linked spare next onList link
      · rw [Function.update_of_ne atFollowing] at link
        by_cases atPrev : cell = prev
        · rw [atPrev, Function.update_self] at link
          exact insertedLinked following next followingOnList link
        · rw [Function.update_of_ne atPrev] at link
          exact insertedLinked cell next member link

end Release

section Loss

variable {base : ℕ} {s inserted : Kmem} {block : Block} {outstanding : List Block}
  {before after : List PageRef} {prev following spare : PageRef}

/-- The descriptor of a free entry is used for the block: the pages of the entry are lost. -/
theorem lost_of_spare_on_list (chain : s.FreeEntries (before ++ prev :: after))
    (owned : Owned base ((before ++ prev :: after).map s.block) outstanding)
    (held : block ∈ outstanding) (onList : spare ∈ before ++ prev :: after)
    (atSpare : s.kmemAllocPages = some spare) (narrow : block.pages < 2 ^ 16)
    (returns : kmemLiballocFreeInsert s prev after.head? block.ptr block.pages = .ok inserted) :
    (kmemLiballocFreeMerge inserted prev after.head?).Lost (s.block spare).ptr := by
  intro entry onFree
  have entryOnList := freeEntry_of_spare_on_list chain onList atSpare returns onFree
  rcases kmemLiballocFreeInsert_ok returns with ⟨pages, atPages, _, _, _, blocks⟩
  rw [atSpare] at atPages
  cases atPages
  have spareFree : s.block spare ∈ (before ++ prev :: after).map s.block :=
    List.mem_map_of_mem onList
  have covers : (s.block spare).span.Covers (s.block spare).ptr :=
    Block.covers_ptr (owned.positive _ (List.mem_append_left _ spareFree))
  have notCovered : ∀ other ∈ before ++ prev :: after,
      ¬(inserted.block other).span.Covers (s.block spare).ptr := by
    intro other otherOnList
    rw [blocks, uint16_of_lt narrow]
    by_cases isSpare : other = spare
    · rw [isSpare, Function.update_self]
      exact (owned.sides spareFree held).symm.not_covers covers
    · rw [Function.update_of_ne isSpare]
      exact (owned.entries_apart otherOnList onList isSpare).not_covers covers
  apply kmemLiballocFreeMerge_covers
  · exact notCovered prev (by simp)
  · intro p atHead
    exact notCovered p (by simp [List.mem_of_mem_head? atHead])
  · exact notCovered entry entryOnList

/-- When the entries around the new one are merged, the new one is no longer on the list. -/
theorem chain_of_merge (chain : s.FreeEntries (before ++ prev :: following :: after))
    (notOnList : spare ∉ before ++ prev :: following :: after)
    (sameFree : inserted.kmemFreePages = s.kmemFreePages)
    (links : inserted.next =
      Function.update (Function.update s.next spare (some following)) prev (some spare))
    (touches : (inserted.block prev).stop = (inserted.block following).ptr) :
    (kmemLiballocFreeMerge inserted prev (some following)).FreeEntries (before ++ prev :: after) := by
  have prevApart := chain.apart
  have prevNotAfter : prev ∉ after := fun member => prevApart.2 (by simp [member])
  have different : following ≠ prev := by
    rintro rfl
    exact prevApart.2 (by simp)
  have followingNotSpare : following ≠ spare := by
    rintro rfl
    exact notOnList (by simp)
  have regroup : before ++ prev :: following :: after = (before ++ [prev]) ++ following :: after := by
    simp
  have followingApart : following ∉ before ++ [prev] ∧ following ∉ after := by
    rw [regroup] at chain
    exact chain.apart
  have rest : Segment s.next (s.next following) after none := (segment_middle.mp chain).2.2
  have unlinked := Segment.redirect chain prevApart.1 prevNotAfter rest
  rcases kmemLiballocFreeMerge_cases inserted prev (some following) with
    ⟨_, apart⟩ | ⟨_, ⟨⟩, _, mergedFree, mergedLinks, _⟩
  · exact absurd touches (apart following rfl)
  · rw [Kmem.FreeEntries, mergedFree, sameFree]
    apply unlinked.congr
    intro cell onList
    have notFollowing : cell ≠ following := by
      rintro rfl
      simp only [List.mem_append, List.mem_cons] at onList followingApart
      tauto
    have notSpare : cell ≠ spare := by
      rintro rfl
      apply notOnList
      simp only [List.mem_append, List.mem_cons] at onList ⊢
      tauto
    rw [mergedLinks, links, Function.update_of_ne notFollowing]
    by_cases atPrev : cell = prev
    · simp [atPrev, different, followingNotSpare]
    · simp [atPrev, notSpare]

/-- The two entries around the block touch each other: its descriptor is dropped. -/
theorem lost_of_merge (chain : s.FreeEntries (before ++ prev :: following :: after))
    (owned : Owned base ((before ++ prev :: following :: after).map s.block) outstanding)
    (held : block ∈ outstanding) (touches : (s.block prev).stop = (s.block following).ptr)
    (outside : ∀ spare ∈ s.kmemAllocPages, spare ∉ before ++ prev :: following :: after)
    (returns : kmemLiballocFreeInsert s prev (some following) block.ptr block.pages =
      .ok inserted) :
    (kmemLiballocFreeMerge inserted prev (some following)).Lost block.ptr := by
  rcases kmemLiballocFreeInsert_ok returns with ⟨spare, atSpare, sameFree, _, links, blocks⟩
  have notOnList := outside spare atSpare
  have isEntry : ∀ entry ∈ before ++ prev :: following :: after,
      inserted.block entry = s.block entry := by
    intro entry onList
    have different : entry ≠ spare := fun same => notOnList (same ▸ onList)
    rw [blocks, Function.update_of_ne different]
  have prevBlock := isEntry prev (by simp)
  have followingBlock := isEntry following (by simp)
  have covers : block.span.Covers block.ptr :=
    Block.covers_ptr (owned.positive _ (List.mem_append_right _ held))
  have notCovered : ∀ entry ∈ before ++ prev :: following :: after,
      ¬(inserted.block entry).span.Covers block.ptr := by
    intro entry onList
    rw [isEntry entry onList]
    exact (owned.sides (List.mem_map_of_mem onList) held).not_covers covers
  intro entry onFree
  have entryOnList : entry ∈ before ++ prev :: following :: after := by
    have touching : (inserted.block prev).stop = (inserted.block following).ptr := by
      rw [prevBlock, followingBlock]
      exact touches
    have merged := chain_of_merge chain notOnList sameFree links touching
    have member := (merged.entry_iff entry).mp onFree
    simp only [List.mem_append, List.mem_cons] at member ⊢
    tauto
  apply kmemLiballocFreeMerge_covers
  · exact notCovered prev (by simp)
  · rintro p ⟨⟩
    exact notCovered following (by simp)
  · exact notCovered entry entryOnList

/-- The block touches only the entry behind it, whose address stays: the block is lost. -/
theorem lost_of_grow (chain : s.FreeEntries (before ++ prev :: following :: after))
    (owned : Owned base ((before ++ prev :: following :: after).map s.block) outstanding)
    (held : block ∈ outstanding) (touches : block.stop = (s.block following).ptr) (size : ℕ) :
    (kmemLiballocFreeMerge (s.modify following (fun d => { d with size := size })) prev
      (some following)).Lost block.ptr := by
  have prevFree : s.block prev ∈ (before ++ prev :: following :: after).map s.block :=
    List.mem_map_of_mem (by simp)
  have different : prev ≠ following := by
    rintro rfl
    exact chain.apart.2 (by simp)
  have positive := owned.positive block (List.mem_append_right _ held)
  have notMerged : kmemLiballocFreeMerge (s.modify following (fun d => { d with size := size }))
      prev (some following) = s.modify following (fun d => { d with size := size }) := by
    apply kmemLiballocFreeMerge_apart
    rintro p ⟨⟩
    have prevPositive := owned.positive _ (List.mem_append_left _ prevFree)
    have apart := owned.sides prevFree held
    rw [Kmem.modify_block, Function.update_of_ne different, Function.update_self]
    intro prevTouches
    exact apart.stop_ne prevPositive positive (prevTouches.trans touches.symm)
  rw [notMerged]
  intro entry onFree
  have sameLinks : (s.modify following (fun d => { d with size := size })).next = s.next := by
    rw [Kmem.modify_next]
    exact Function.update_eq_self following s.next
  have onList : entry ∈ before ++ prev :: following :: after := by
    apply (chain.entry_iff entry).mp
    rw [Kmem.FreeEntry, sameLinks] at onFree
    exact onFree
  rw [Kmem.modify_block]
  by_cases atFollowing : entry = following
  · rw [atFollowing, Function.update_self, Block.span_covers]
    have behind : block.ptr < block.stop := (Block.covers_ptr positive).2
    rw [touches] at behind
    intro covers
    exact Nat.lt_irrefl _ (Nat.lt_of_lt_of_le behind covers.1)
  · rw [Function.update_of_ne atFollowing]
    exact (owned.sides (List.mem_map_of_mem onList) held).not_covers (Block.covers_ptr positive)

end Loss

/-- The first page of a block is a page of the region. -/
theorem Owned.exists_first {base : ℕ} {free outstanding : List Block}
    (owned : Owned base free outstanding) {block : Block} (member : block ∈ free ++ outstanding) :
    ∃ page < 8192, block.ptr = base + page * 4096 := by
  rcases owned.aligned block member with ⟨page, atPage⟩
  have bounds := owned.bounds member
  have positive := owned.positive block member
  rw [Block.stop] at bounds
  refine ⟨page, ?_, atPage⟩
  omega

/-- A release that is not safe loses the first page of the block or of a free entry. -/
theorem kmemLiballocFree_loses {base : ℕ} {s after : Kmem} {block : Block} {entries : List PageRef}
    {outstanding : List Block} (chain : s.FreeEntries entries)
    (owned : Owned base (entries.map s.block) outstanding) (held : block ∈ outstanding)
    (notSafe : ¬s.ReleaseSafe block)
    (returns : kmemLiballocFree s block.ptr block.pages = .ok after) :
    after.Lost block.ptr ∨ ∃ spare ∈ entries, after.Lost (s.block spare).ptr := by
  have narrow : block.pages < 2 ^ 16 := by
    have bounds := owned.bounds (List.mem_append_right _ held)
    rw [Block.stop] at bounds
    omega
  simp only [Kmem.ReleaseSafe] at notSafe
  push Not at notSafe
  rcases notSafe with ⟨before, prev, behind, position, notTouching, notApart⟩
  have same := position.chain.unique chain
  subst same
  rcases kmemLiballocFree_position chain (by simp) with ⟨_, _, _, _, position', finds⟩
  rcases position.unique position' with ⟨rfl, rfl, rfl⟩
  rw [finds] at returns
  cases recorded : kmemLiballocFreeRecord s prev behind.head? block.ptr block.pages with
  | error halt => simp [recorded, Except.map] at returns
  | ok inserted =>
      rw [recorded] at returns
      cases returns
      have notTouchingPrev : ¬s.pagesEnd prev = block.ptr := notTouching
      simp only [kmemLiballocFreeRecord, if_neg notTouchingPrev] at recorded
      cases behind with
      | nil =>
          rcases notApart (by rintro p ⟨⟩) with ⟨spare, atSpare, onList⟩
          exact Or.inr ⟨spare, onList,
            lost_of_spare_on_list chain owned held onList atSpare narrow recorded⟩
      | cons following behind =>
          simp only [List.head?_cons] at recorded
          split_ifs at recorded with touches
          · cases recorded
            exact Or.inl (lost_of_grow chain owned held touches _)
          · by_cases free : ∃ spare ∈ s.kmemAllocPages,
              spare ∈ before ++ prev :: following :: behind
            · rcases free with ⟨spare, atSpare, onList⟩
              exact Or.inr ⟨spare, onList,
                lost_of_spare_on_list chain owned held onList atSpare narrow recorded⟩
            · push Not at free
              have merges : (s.block prev).stop = (s.block following).ptr := by
                by_contra apart
                rcases notApart (by rintro p ⟨⟩; exact ⟨touches, apart⟩) with
                  ⟨spare, atSpare, onList⟩
                exact free spare atSpare onList
              exact Or.inl (lost_of_merge chain owned held merges free recorded)

/-- A release keeps exclusive ownership of the pages exactly when it is safe. -/
theorem kmemLiballocFree_exclusive_iff {base : ℕ} {run : KmemRun} {block : Block} {after : Kmem}
    (tiled : run.Tiled base) (held : block ∈ run.outstanding)
    (returns : kmemLiballocFree run.kmem block.ptr block.pages = .ok after) :
    KmemRun.Exclusive base ⟨after, run.outstanding.erase block⟩ ↔ run.kmem.ReleaseSafe block := by
  constructor
  · intro exclusive
    by_contra notSafe
    rcases tiled with ⟨entries, chain, owned⟩
    rcases kmemLiballocFree_loses chain owned held notSafe returns with
      lost | ⟨spare, onList, lost⟩
    · have heldOnce := owned.perm (List.perm_cons_erase held).symm
      rcases owned.exists_first (List.mem_append_right _ held) with ⟨page, inside, atPage⟩
      have covers := Block.covers_ptr (owned.positive _ (List.mem_append_right _ held))
      rw [atPage] at lost covers
      apply KmemRun.not_exclusive_of_lost inside _ lost exclusive
      intro other stillHeld
      have apart := (List.pairwise_append.mp heldOnce.pairwise_apart).2.1
      exact ((List.pairwise_cons.mp apart).1 other stillHeld).symm.not_covers covers
    · have isFree : run.kmem.block spare ∈ entries.map run.kmem.block := List.mem_map_of_mem onList
      have spareFree := List.mem_append_left run.outstanding isFree
      rcases owned.exists_first spareFree with ⟨page, inside, atPage⟩
      have covers := Block.covers_ptr (owned.positive _ spareFree)
      rw [atPage] at lost covers
      apply KmemRun.not_exclusive_of_lost inside _ lost exclusive
      intro other stillHeld
      have apart := owned.sides isFree (List.mem_of_mem_erase stillHeld)
      exact apart.symm.not_covers covers
  · intro safe
    exact (tiled.free held safe returns).exclusive

/-- In a run whose releases do not go wrong, every page keeps exactly one owner; and
the first release that goes wrong takes a page its owner away. -/
theorem kmem_exclusive_ownership {base : ℕ} {run : KmemRun}
    (reached : (kmemSystem base).ReachableWhen CallSafe run) :
    run.Exclusive base ∧ ∀ call next, KmemStep run call next →
      (next.Exclusive base ↔ CallSafe run call) := by
  have tiled := KmemRun.tiled_of_reachable reached
  refine ⟨tiled.exclusive, ?_⟩
  intro call next step
  cases step with
  | alloc positive returns => exact iff_of_true (tiled.alloc positive returns).exclusive trivial
  | allocNull positive returns => exact iff_of_true (tiled.allocNull returns).exclusive trivial
  | free held returns => exact kmemLiballocFree_exclusive_iff tiled held returns

/-- One page is handed out and taken back. -/
theorem kmem_exclusive_ownership_page_and_back :
    ∃ s : Kmem, (kmemSystem 0xC0800000).ReachableWhen CallSafe ⟨s, []⟩ ∧
      s.block 1 = ⟨0xC0800000, 1⟩ ∧ (KmemRun.mk s []).Exclusive 0xC0800000 := by
  rcases kmemSystem_pages 0xC0800000 CallSafe (fun _ _ => trivial) (show 1 < 8192 by omega) with
    ⟨s, reached, first, atSpare, last, _, whole⟩
  have apart : (s.block 0).stop ≠ 0xC0800000 := by
    simp [whole, Block.stop]
  rcases kmemLiballocFree_behind_head first last atSpare (by decide) apart
    (show 1 < 2 ^ 16 by omega) with ⟨s', returns, _, _, _, block'⟩
  have safe : s.ReleaseSafe ⟨0xC0800000, 1⟩ := .of_single first last atSpare (by decide)
  have step : KmemStep ⟨s, [⟨0xC0800000, 1⟩]⟩ (.free ⟨0xC0800000, 1⟩) ⟨s', []⟩ :=
    KmemStep.free (by simp) returns
  have back : (kmemSystem 0xC0800000).ReachableWhen CallSafe ⟨s', []⟩ := by
    apply System.ReachableWhen.step reached _ step
    exact safe
  exact ⟨s', back, by simp [block'], (kmem_exclusive_ownership back).1⟩

/-- The two lowest pages are handed out, and the higher one is taken back first. -/
theorem kmem_page_lost :
    ∃ run, (kmemSystem 0xC0800000).Reachable run ∧ ¬run.Exclusive 0xC0800000 := by
  rcases kmemSystem_pages 0xC0800000 (fun _ _ => True) (fun _ _ => trivial)
    (show 2 < 8192 by omega) with ⟨s, reached, first, atSpare, last, _, whole⟩
  have apart : (s.block 0).stop ≠ 0xC0801000 := by
    simp [whole, Block.stop]
  rcases kmemLiballocFree_behind_head first last atSpare (by decide) apart
    (show 1 < 2 ^ 16 by omega) with ⟨s', returns, first', _, next', block'⟩
  have higher : KmemStep ⟨s, [⟨0xC0801000, 1⟩, ⟨0xC0800000, 1⟩]⟩ (.free ⟨0xC0801000, 1⟩)
      ⟨s', [⟨0xC0800000, 1⟩]⟩ := KmemStep.free (by simp) returns
  have link : s'.next 0 = some 1 := by simp [next']
  have end' : s'.next 1 = none := by simp [next']
  have zero' : s'.block 0 = ⟨0xC0802000, 8190⟩ := by simp [block', whole]
  have one' : s'.block 1 = ⟨0xC0801000, 1⟩ := by simp [block']
  have returnsLower := kmemLiballocFree_grow_following first' link (by decide)
    (show 0xC0800000 ≤ (s'.block 1).ptr by simp [one']) (by simp [zero', Block.stop])
    (show 0xC0800000 + 1 * 4096 = (s'.block 1).ptr by simp [one'])
    (by simp [zero', one', Block.stop])
  have lower : KmemStep ⟨s', [⟨0xC0800000, 1⟩]⟩ (.free ⟨0xC0800000, 1⟩) ⟨_, []⟩ :=
    KmemStep.free (by simp) returnsLower
  refine ⟨_, System.Reachable.step (System.Reachable.step reached higher) lower, ?_⟩
  intro exclusive
  have lowest : 0xC0800000 ∈ (⟨0xC0800000, 8192⟩ : Block).pageSet := ⟨0, by decide, rfl⟩
  rcases (exclusive.exactly _).mpr lowest with ⟨block, held, _⟩ | ⟨entry, onFree, hasPage⟩
  · simp at held
  · have chain : Kmem.FreeEntries (s'.modify 1 (fun d => { d with size := uint16 (d.size + 1) }))
        [0, 1] := by
      simp [Kmem.FreeEntries, first', link, end']
    have onList := (chain.entry_iff entry).mp onFree
    have bounds := Owned.covers_of_page_mem hasPage
    have ptrs : (s'.kmemInitPages 0).ptr = 0xC0802000 ∧ (s'.kmemInitPages 1).ptr = 0xC0801000 :=
      ⟨congrArg Block.ptr zero', congrArg Block.ptr one'⟩
    rw [Block.span_covers] at bounds
    simp only [List.mem_cons, List.not_mem_nil, or_false] at onList
    rcases onList with rfl | rfl
    · simp [ptrs] at bounds
    · simp [ptrs] at bounds

end Osserver
