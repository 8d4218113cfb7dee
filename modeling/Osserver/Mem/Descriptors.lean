import Osserver.Mem.Run

/-!
# The two descriptor lists

`Kmem.Bookkept` is the bookkeeping one expects of the allocator: the free list
and the list of spare descriptors are lists proper and divide the 8192
descriptors between them. The loop of `memory_kernel_init` links every
descriptor to `kmem_init_pages[1]` and leaves only the last one linked from it,
so it never holds.

What shows it of a whole run is that the allocator is confined: a set of
descriptors that contains both list heads and is closed under `next` is never
left, since each pointer the allocator writes was read from one of the two
heads or from a descriptor of the set.
-/

namespace Osserver

open Linked Transition

namespace Kmem

/-- The chain from `kmem_alloc_pages` is the list `spares` and ends in `NULL`. -/
def SpareEntries (s : Kmem) (spares : List PageRef) : Prop :=
  Segment s.next s.kmemAllocPages spares none

/-- Both chains end in `NULL`, and together they have every descriptor exactly once. -/
def Bookkept (s : Kmem) : Prop :=
  ∃ entries spares, s.FreeEntries entries ∧ s.SpareEntries spares ∧
    (entries ++ spares).Perm (List.finRange 8192)

/-- Both chains stay among the descriptors of a set. -/
structure Confined (s : Kmem) (known : PageRef → Prop) : Prop where
  freeHead : ∀ page, s.kmemFreePages = some page → known page
  spareHead : ∀ page, s.kmemAllocPages = some page → known page
  links : ∀ page after, known page → s.next page = some after → known after

/-- Bookkeeping reaches every descriptor, so no proper set confines it. -/
theorem Confined.not_bookkept {s : Kmem} {known : PageRef → Prop} (confined : s.Confined known)
    {page : PageRef} (unknown : ¬known page) : ¬s.Bookkept := by
  rintro ⟨entries, spares, entriesChain, sparesChain, everyOne⟩
  have member := everyOne.mem_iff.mpr (List.mem_finRange page)
  apply unknown
  rcases List.mem_append.mp member with onFree | onSpare
  · have reaches := (entriesChain.reaches_iff page).mpr onFree
    exact reaches.closed confined.freeHead confined.links
  · have reaches := (sparesChain.reaches_iff page).mpr onSpare
    exact reaches.closed confined.spareHead confined.links

namespace Confined

variable {s : Kmem} {known : PageRef → Prop}

theorem setFreePages (confined : s.Confined known) {pointer : Option PageRef}
    (inside : ∀ page, pointer = some page → known page) :
    (s.setFreePages pointer).Confined known :=
  ⟨inside, confined.spareHead, confined.links⟩

theorem setAllocPages (confined : s.Confined known) {pointer : Option PageRef}
    (inside : ∀ page, pointer = some page → known page) :
    (s.setAllocPages pointer).Confined known :=
  ⟨confined.freeHead, inside, confined.links⟩

theorem modify (confined : s.Confined known) {page : PageRef} {write : KmemPages → KmemPages}
    (inside : ∀ after, (write (s.kmemInitPages page)).next = some after → known after) :
    (s.modify page write).Confined known := by
  refine ⟨confined.freeHead, confined.spareHead, ?_⟩
  intro other after isKnown link
  rw [modify_next] at link
  by_cases same : other = page
  · subst other
    apply inside after
    simpa using link
  · apply confined.links other after isKnown
    simpa [same] using link

theorem modify_size (confined : s.Confined known) {page : PageRef} (isKnown : known page)
    {write : KmemPages → KmemPages} (sameLink : ∀ d, (write d).next = d.next) :
    (s.modify page write).Confined known := by
  apply confined.modify
  intro after link
  rw [sameLink] at link
  exact confined.links page after isKnown link

theorem allocWhole (confined : s.Confined known) {prev : Option PageRef} {page : PageRef}
    (isKnown : known page) : (kmemLiballocAllocWhole s prev page).Confined known := by
  have behind : ∀ after, s.next page = some after → known after :=
    fun after => confined.links page after isKnown
  have unlinked : ∀ t : Kmem, t.Confined known →
      ((t.modify page (fun _ => { ptr := 0, size := 0, next := t.kmemAllocPages })).setAllocPages
        (some page)).Confined known := by
    intro t tConfined
    apply setAllocPages
    · apply tConfined.modify
      exact tConfined.spareHead
    · rintro other ⟨⟩
      exact isKnown
  cases prev with
  | none =>
      apply unlinked
      exact confined.setFreePages behind
  | some prev =>
      apply unlinked
      exact confined.modify behind

theorem allocLoop (confined : s.Confined known) {pages fuel : ℕ} {prev : Option PageRef}
    {page : PageRef} (isKnown : known page) {result : Option ℕ} {after : Kmem}
    (returns : kmemLiballocAllocLoop s pages fuel prev page = .ok (result, after)) :
    after.Confined known := by
  induction fuel generalizing prev page with
  | zero => simp [kmemLiballocAllocLoop] at returns
  | succ fuel ih =>
      simp only [kmemLiballocAllocLoop] at returns
      split_ifs at returns with exact larger
      · cases returns
        exact confined.allocWhole isKnown
      · cases returns
        exact confined.modify_size isKnown (fun _ => rfl)
      · split at returns
        · rename_i following link
          exact ih (confined.links page following isKnown link) returns
        · cases returns
          exact confined

theorem alloc (confined : s.Confined known) {pages : ℕ} {result : Option ℕ} {after : Kmem}
    (returns : kmemLiballocAlloc s pages = .ok (result, after)) : after.Confined known := by
  rw [kmemLiballocAlloc] at returns
  split at returns
  · cases returns
    exact confined
  · rename_i page first
    exact confined.allocLoop (confined.freeHead page first) returns

theorem freeWalk (confined : s.Confined known) {ptr fuel : ℕ} {start prev : PageRef}
    {p : Option PageRef} (isKnown : known start)
    (returns : kmemLiballocFreeWalk s ptr fuel start = .ok (prev, p)) :
    known prev ∧ ∀ following, p = some following → known following := by
  induction fuel generalizing start with
  | zero => simp [kmemLiballocFreeWalk] at returns
  | succ fuel ih =>
      simp only [kmemLiballocFreeWalk] at returns
      split at returns
      · cases returns
        exact ⟨isKnown, by simp⟩
      · rename_i following link
        have followingKnown := confined.links start following isKnown link
        split_ifs at returns with below
        · exact ih followingKnown returns
        · cases returns
          refine ⟨isKnown, ?_⟩
          rintro other ⟨⟩
          exact followingKnown

theorem freeInsert (confined : s.Confined known) {prev : PageRef} {p : Option PageRef}
    {ptr size : ℕ} (pKnown : ∀ following, p = some following → known following) {after : Kmem}
    (returns : kmemLiballocFreeInsert s prev p ptr size = .ok after) : after.Confined known := by
  rw [kmemLiballocFreeInsert] at returns
  split at returns
  · cases returns
  · rename_i pages atSpare
    have pagesKnown := confined.spareHead pages atSpare
    cases returns
    apply modify
    · apply modify
      · apply confined.setAllocPages
        exact fun page => confined.links pages page pagesKnown
      · exact pKnown
    · rintro other ⟨⟩
      exact pagesKnown

theorem freeRecord (confined : s.Confined known) {prev : PageRef} {p : Option PageRef}
    {ptr size : ℕ} (prevKnown : known prev)
    (pKnown : ∀ following, p = some following → known following) {after : Kmem}
    (returns : kmemLiballocFreeRecord s prev p ptr size = .ok after) : after.Confined known := by
  simp only [kmemLiballocFreeRecord] at returns
  split_ifs at returns with touches
  · cases returns
    exact confined.modify_size prevKnown (fun _ => rfl)
  · cases p with
    | none => exact confined.freeInsert pKnown returns
    | some p =>
        simp only at returns
        split_ifs at returns with touched
        · cases returns
          exact confined.modify_size (pKnown p rfl) (fun _ => rfl)
        · exact confined.freeInsert pKnown returns

theorem freeMerge (confined : s.Confined known) {prev : PageRef} {p : Option PageRef}
    (prevKnown : known prev) (pKnown : ∀ following, p = some following → known following) :
    (kmemLiballocFreeMerge s prev p).Confined known := by
  cases p with
  | none => exact confined
  | some p =>
      have isKnown := pKnown p rfl
      simp only [kmemLiballocFreeMerge]
      split_ifs with touches
      · have grown : (s.modify prev (fun d =>
            { d with size := uint16 (d.size + (s.kmemInitPages p).size) })).Confined known :=
          confined.modify_size prevKnown (fun _ => rfl)
        apply setAllocPages
        · apply modify
          · apply grown.modify
            intro after link
            exact grown.links p after isKnown link
          · exact confined.spareHead
        · rintro other ⟨⟩
          exact isKnown
      · exact confined

theorem free (confined : s.Confined known) {ptr size : ℕ} {after : Kmem}
    (returns : kmemLiballocFree s ptr size = .ok after) : after.Confined known := by
  rw [kmemLiballocFree] at returns
  split at returns
  · cases returns
  · rename_i head first
    split at returns
    · cases returns
    · rename_i prev p walk
      rcases confined.freeWalk (confined.freeHead head first) walk with ⟨prevKnown, pKnown⟩
      split at returns
      · cases returns
      · rename_i recorded record
        cases returns
        exact (confined.freeRecord prevKnown pKnown record).freeMerge prevKnown pKnown

theorem step {run after : KmemRun} {call : KmemCall} (confined : run.kmem.Confined known)
    (step : KmemStep run call after) : after.kmem.Confined known := by
  cases step with
  | alloc positive returns => exact confined.alloc returns
  | allocNull positive returns => exact confined.alloc returns
  | free held returns => exact confined.free returns

end Confined

/-- The descriptors that `memory_kernel_init` leaves within reach. -/
def initReach (page : PageRef) : Prop :=
  page = 0 ∨ page = 1 ∨ page = 8191

theorem confined_init (base : ℕ) : (memoryKernelInit Kmem.bss base).Confined initReach := by
  rcases memoryKernelInit_spec base with ⟨first, spare, zeroNext, oneNext, lastNext, _⟩
  refine ⟨?_, ?_, ?_⟩
  · intro page atPage
    rw [first] at atPage
    cases atPage
    exact Or.inl rfl
  · intro page atPage
    rw [spare] at atPage
    cases atPage
    exact Or.inr (Or.inl rfl)
  · rintro page after (rfl | rfl | rfl) link
    · rw [zeroNext] at link
      cases link
    · rw [oneNext] at link
      cases link
      exact Or.inr (Or.inr rfl)
    · rw [lastNext] at link
      cases link
      exact Or.inr (Or.inl rfl)

theorem confined_of_reachable {base : ℕ} {run : KmemRun}
    (reached : (kmemSystem base).Reachable run) : run.kmem.Confined initReach := by
  apply System.Reachable.invariant _ _ reached
  · rintro run ⟨⟩
    exact confined_init base
  · intro run call after confined step
    exact confined.step step

end Kmem

/-- In no state of any run do the two lists divide the descriptors between them. -/
theorem kmem_descriptors_never_bookkept {base : ℕ} {run : KmemRun}
    (reached : (kmemSystem base).Reachable run) : ¬run.kmem.Bookkept := by
  apply (Kmem.confined_of_reachable reached).not_bookkept
  show ¬Kmem.initReach 2
  rintro (same | same | same) <;> exact absurd same (by decide)

/-- Two pages are handed out and the lower one is taken back. -/
theorem kmem_descriptors_never_bookkept_released :
    ∃ s : Kmem, (kmemSystem 0xC0800000).Reachable ⟨s, [⟨0xC0801000, 1⟩]⟩ ∧ ¬s.Bookkept := by
  rcases kmemSystem_pages 0xC0800000 (fun _ _ => True) (fun _ _ => trivial)
    (show 2 < 8192 by omega) with ⟨s, reached, first, atSpare, last, _, whole⟩
  have apart : (s.block 0).stop ≠ 0xC0800000 := by
    simp [whole, Block.stop]
  rcases kmemLiballocFree_behind_head first last atSpare (by decide) apart
    (show 1 < 2 ^ 16 by omega) with ⟨s', returns, _⟩
  have erased : [⟨0xC0801000, 1⟩] =
      [(⟨0xC0801000, 1⟩ : Block), ⟨0xC0800000, 1⟩].erase ⟨0xC0800000, 1⟩ := by decide
  have step : KmemStep ⟨s, [⟨0xC0801000, 1⟩, ⟨0xC0800000, 1⟩]⟩ (.free ⟨0xC0800000, 1⟩)
      ⟨s', [⟨0xC0801000, 1⟩]⟩ := by
    rw [erased]
    exact KmemStep.free (by simp) returns
  have back := System.Reachable.step reached step
  exact ⟨s', back, kmem_descriptors_never_bookkept back⟩

/-- Behind `memory_kernel_init` the chain of spare descriptors returns to its first one. -/
theorem kmem_spare_list_cyclic :
    ∃ run, (kmemSystem 0xC0800000).Reachable run ∧ ¬run.kmem.Bookkept := by
  rcases memoryKernelInit_spec 0xC0800000 with ⟨_, spare, _, oneNext, lastNext, _⟩
  refine ⟨_, System.Reachable.init rfl, ?_⟩
  rintro ⟨_, spares, _, chain, _⟩
  have cycle : Segment (memoryKernelInit Kmem.bss 0xC0800000).next (some 1) [1, 8191] (some 1) :=
    ⟨rfl, oneNext, lastNext⟩
  rw [Kmem.SpareEntries, spare] at chain
  exact cycle.not_none_of_cycle (by simp) spares chain

end Osserver
