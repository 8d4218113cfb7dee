import Osserver.Mem.FreeList

/-!
# One allocation on the whole allocator state

`AllocOutcome` says which cut `kmem_liballoc_alloc` makes and `Take` what the cut
does to the blocks of the free list. Here both cuts are told descriptor by
descriptor: which fields of which descriptors they write, and that every other
descriptor is as it was.
-/

namespace Osserver

open Linked

namespace Kmem

/-- The state after an entry has left the free list and become the first spare
descriptor. Of the other descriptors only the one linked in front of it on the free
list is written to, and only its link. -/
structure Unlinked (s s' : Kmem) (entries : List PageRef) (page : PageRef) : Prop where
  chain : s'.FreeEntries (entries.erase page)
  spare : s'.kmemAllocPages = some page
  cleared : s'.kmemInitPages page = ⟨0, 0, s.kmemAllocPages⟩
  relinked : ∀ other ∈ entries, s.next other = some page →
    s'.kmemInitPages other = { s.kmemInitPages other with next := s.next page }
  kept : ∀ other, other ≠ page → ¬(other ∈ entries ∧ s.next other = some page) →
    s'.kmemInitPages other = s.kmemInitPages other
  base : s'.kmemBase = s.kmemBase

/-- The state after the first `pages` pages of an entry have been cut off. -/
structure Trimmed (s s' : Kmem) (entries : List PageRef) (page : PageRef) (pages : ℕ) : Prop where
  chain : s'.FreeEntries entries
  spare : s'.kmemAllocPages = s.kmemAllocPages
  cut : s'.kmemInitPages page =
    { s.kmemInitPages page with
      ptr := (s.kmemInitPages page).ptr + pages * 4096
      size := (s.kmemInitPages page).size - pages }
  sameEnd : s'.pagesEnd page = s.pagesEnd page
  kept : ∀ other, other ≠ page → s'.kmemInitPages other = s.kmemInitPages other
  base : s'.kmemBase = s.kmemBase

variable {s : Kmem}

/-- On a list proper only the entry before a page links to it. -/
theorem FreeEntries.linksTo_iff {before after : List PageRef} {page other : PageRef}
    (chain : s.FreeEntries (before ++ page :: after)) :
    other ∈ before ++ page :: after ∧ s.next other = some page ↔ before.getLast? = some other := by
  have apart := chain.apart
  constructor
  · rintro ⟨onList, link⟩
    rcases List.mem_iff_append.mp onList with ⟨first, behind, split⟩
    have split' := chain
    rw [split] at split'
    have rest := (segment_middle.mp split').2
    rw [link] at rest
    cases behind with
    | nil => simp at rest
    | cons following behind =>
        have same : page = following := by simpa using rest.1
        subst following
        have regroup : before ++ page :: after = (first ++ [other]) ++ page :: behind := by
          rw [split]
          simp
        rw [regroup] at chain
        have places := (List.append_cons_inj_of_notMem chain.apart.1 chain.apart.2).mp regroup.symm
        rw [← places.1]
        simp
  · intro last
    rcases List.getLast?_eq_some_iff.mp last with ⟨first, rfl⟩
    simp only [List.append_assoc, List.singleton_append] at chain
    have rest := (segment_middle.mp chain).2
    exact ⟨by simp, rest.1⟩

end Kmem

/-- Of the descriptors that stay on the free list, the exact fit writes to the link of
the one in front. -/
theorem kmemLiballocAllocWhole_kmemInitPages {s : Kmem} {prev : Option PageRef}
    {page other : PageRef} (different : other ≠ page) :
    (kmemLiballocAllocWhole s prev page).kmemInitPages other =
      if prev = some other then { s.kmemInitPages other with next := s.next page }
      else s.kmemInitPages other := by
  cases prev with
  | none => simp [kmemLiballocAllocWhole, different]
  | some prev =>
      by_cases atPrev : other = prev
      · subst other
        simp [kmemLiballocAllocWhole, different]
      · have notPrev : prev ≠ other := Ne.symm atPrev
        simp [kmemLiballocAllocWhole, different, atPrev, notPrev]

theorem kmemLiballocAllocWhole_unlinked {s : Kmem} {before after : List PageRef} {page : PageRef}
    (chain : s.FreeEntries (before ++ page :: after)) :
    s.Unlinked (kmemLiballocAllocWhole s before.getLast? page) (before ++ page :: after) page := by
  have apart := chain.apart
  have linked := @Kmem.FreeEntries.linksTo_iff s before after page
  refine ⟨?_, ?_, ?_, ?_, ?_, ?_⟩
  · rw [List.erase_append_right _ apart.1, List.erase_cons_head]
    exact kmemLiballocAllocWhole_chain chain
  · simp [kmemLiballocAllocWhole]
  · cases before.getLast? with
    | none => simp [kmemLiballocAllocWhole]
    | some prev => simp [kmemLiballocAllocWhole]
  · intro other onList link
    have last := (linked chain).mp ⟨onList, link⟩
    have different : other ≠ page := by
      rintro rfl
      exact apart.1 (List.mem_of_getLast? last)
    rw [kmemLiballocAllocWhole_kmemInitPages different, if_pos last]
  · intro other different unlinked
    have notLast : before.getLast? ≠ some other := fun last => unlinked ((linked chain).mpr last)
    rw [kmemLiballocAllocWhole_kmemInitPages different, if_neg notLast]
  · cases before.getLast? with
    | none => rfl
    | some prev => rfl

theorem kmemLiballocAllocFront_trimmed {s : Kmem} {entries : List PageRef} {page : PageRef}
    {pages : ℕ} (chain : s.FreeEntries entries) (fits : pages < (s.block page).pages) :
    s.Trimmed (kmemLiballocAllocFront s page pages) entries page pages := by
  refine ⟨kmemLiballocAllocFront_chain chain, ?_, ?_, ?_, ?_, ?_⟩
  · simp [kmemLiballocAllocFront]
  · simp only [kmemLiballocAllocFront, Kmem.modify_self]
  · simp only [Kmem.block_pages] at fits
    simp only [Kmem.pagesEnd, kmemLiballocAllocFront, Kmem.modify_self]
    omega
  · intro other different
    simp [kmemLiballocAllocFront, different]
  · rfl

namespace Kmem

variable {s : Kmem}

/-- The first entry in list order that holds at least `pages` pages. -/
def firstFit (s : Kmem) (pages : ℕ) (entries : List PageRef) : Option PageRef :=
  entries.find? (fun entry => pages ≤ (s.kmemInitPages entry).size)

theorem firstFit_eq_none_iff {pages : ℕ} {entries : List PageRef} :
    s.firstFit pages entries = none ↔
      ∀ entry ∈ entries, (s.kmemInitPages entry).size < pages := by
  simp [firstFit]

theorem firstFit_split {pages : ℕ} {before after : List PageRef} {page : PageRef}
    (small : ∀ entry ∈ before, (s.kmemInitPages entry).size < pages)
    (fits : pages ≤ (s.kmemInitPages page).size) :
    s.firstFit pages (before ++ page :: after) = some page := by
  refine List.find?_eq_some_iff_append.mpr ⟨by simpa using fits, before, after, rfl, ?_⟩
  simpa using small

end Kmem

/-- `kmem_liballoc_alloc` serves a request from the first entry that is large enough,
and touches nothing when there is none. -/
theorem kmemLiballocAlloc_firstFit {s : Kmem} {entries : List PageRef} (pages : ℕ)
    (chain : s.FreeEntries entries) :
    ∃ result s', kmemLiballocAlloc s pages = .ok (result, s') ∧
      result = (s.firstFit pages entries).map (fun page => (s.kmemInitPages page).ptr) ∧
      (result = none ↔ ∀ entry ∈ entries, (s.kmemInitPages entry).size < pages) ∧
      (result = none → s' = s) ∧
      ∀ page ∈ s.firstFit pages entries,
        ((s.kmemInitPages page).size = pages → s.Unlinked s' entries page) ∧
        ((s.kmemInitPages page).size ≠ pages → s.Trimmed s' entries page pages) := by
  rcases kmemLiballocAlloc_outcome pages chain with ⟨result, s', returns, outcome⟩
  refine ⟨result, s', returns, ?_⟩
  cases outcome with
  | exhausted small =>
      have nothing : s.firstFit pages entries = none := Kmem.firstFit_eq_none_iff.mpr small
      refine ⟨by simp [nothing], ⟨fun _ => small, fun _ => rfl⟩, fun _ => rfl, ?_⟩
      simp [nothing]
  | @whole before after page split small fits =>
      subst split
      have first : s.firstFit pages (before ++ page :: after) = some page :=
        Kmem.firstFit_split small (Nat.le_of_eq fits.symm)
      refine ⟨by simp [first], ?_, by simp, ?_⟩
      · rw [← Kmem.firstFit_eq_none_iff, first]
        simp
      · intro entry found
        have same : page = entry := by simpa [first] using found
        subst entry
        exact ⟨fun _ => kmemLiballocAllocWhole_unlinked chain, fun differs => absurd fits differs⟩
  | @front before after page split small fits =>
      subst split
      have first : s.firstFit pages (before ++ page :: after) = some page :=
        Kmem.firstFit_split small (Nat.le_of_lt fits)
      refine ⟨by simp [first], ?_, by simp, ?_⟩
      · rw [← Kmem.firstFit_eq_none_iff, first]
        simp
      · intro entry found
        have same : page = entry := by simpa [first] using found
        subst entry
        refine ⟨fun exact => ?_, fun _ => kmemLiballocAllocFront_trimmed chain fits⟩
        simp only [Kmem.block_pages] at fits
        omega

/-- A list of two entries, the first of which is too small. -/
theorem kmemLiballocAlloc_firstFit_second :
    ∃ s : Kmem, s.FreeEntries [0, 1] ∧ ∃ s', kmemLiballocAlloc s 2 = .ok (some 0xC1002000, s') ∧
      s'.FreeEntries [0] ∧ s'.kmemAllocPages = some 1 := by
  let s : Kmem :=
    { Kmem.bss with
      kmemInitPages := fun page =>
        if page = 0 then ⟨0xC1000000, 1, some 1⟩
        else if page = 1 then ⟨0xC1002000, 2, none⟩ else ⟨0, 0, none⟩
      kmemFreePages := some 0 }
  have chain : s.FreeEntries [0, 1] := ⟨rfl, rfl, rfl⟩
  have first : s.firstFit 2 [0, 1] = some 1 := by decide
  rcases kmemLiballocAlloc_firstFit 2 chain with ⟨result, s', returns, value, _, _, cut⟩
  have unlinked := (cut 1 first).1 rfl
  rw [first] at value
  subst value
  exact ⟨s, chain, s', returns, unlinked.chain, unlinked.spare⟩

end Osserver
