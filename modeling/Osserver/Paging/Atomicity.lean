import Osserver.Paging.Frame
import Osserver.Paging.Safety

/-!
# A call of `paging_map` that returns false

The loop of `paging_map` tests a page when it comes to it, and what it has done for
the pages before stays when the test fails. An entry that is in use stays in use
along a call, so the first page tells whether a refused call has changed anything.
-/

namespace Osserver

namespace Paging

/-- The entry `index` of the table of a slot is in use. -/
def EntryUsed (s : Paging) (slot index : ℕ) : Prop :=
  s.pagingDir slot ≠ 0 ∧
    ∃ table, s.pagingDirectoryMap slot = some table ∧ s.tables table index ≠ 0

/-- The first page of a call lies above the bound of the directory, or its entry is in
use already. -/
def RefusedAtOnce (s : Paging) (virt : ℕ) : Prop :=
  s.pagingSize < pdindex virt ∨ s.EntryUsed (pdindex virt) (ptindex virt)

theorem EntryUsed.setEntry {s : Paging} {slot index table other word : ℕ}
    (used : s.EntryUsed slot index) (nonzero : word ≠ 0) :
    (s.setEntry table other word).EntryUsed slot index := by
  rcases used with ⟨present, mine, isMine, occupied⟩
  refine ⟨present, mine, isMine, ?_⟩
  by_cases same : mine = table ∧ index = other
  · rw [same.1, same.2, setEntry_tables_self]
    exact nonzero
  · rw [setEntry_tables_other same]
    exact occupied

end Paging

section Pass

variable {alloc : ℕ → Option ℕ} {phys virt flags off : ℕ} {s s' : Paging} {result : Bool}

theorem pagingMapTable_entryUsed {slot other index : ℕ} (used : s.EntryUsed other index)
    (returns : pagingMapTable alloc s slot = .ok s') : s'.EntryUsed other index := by
  rcases pagingMapTable_cases returns with ⟨_, rfl⟩ | ⟨empty, table, phys, _, _, rfl⟩
  · exact used
  · rcases used with ⟨present, mine, isMine, occupied⟩
    have different : other ≠ slot := by
      rintro rfl
      exact present empty
    exact ⟨by simpa [different] using present, mine, by simpa [different] using isMine, occupied⟩

/-- What a pass does, whether it goes on or not: nothing above the bound; otherwise
the slot of the page has a table, and the entry of the page is in use. -/
theorem pagingMapBody_cases
    (returns : pagingMapBody alloc phys virt flags off s = .ok (result, s')) :
    (s.pagingSize < pdindex ((virt + off) % 2 ^ 32) ∧ result = false ∧ s' = s) ∨
      ∃ middle, pagingMapTable alloc s (pdindex ((virt + off) % 2 ^ 32)) = .ok middle ∧
        s'.EntryUsed (pdindex ((virt + off) % 2 ^ 32)) (ptindex ((virt + off) % 2 ^ 32)) ∧
          (s' = middle ∨ ∃ table, s' = middle.setEntry table (ptindex ((virt + off) % 2 ^ 32))
            (pagingMapWord phys flags off)) := by
  rw [pagingMapBody] at returns
  split_ifs at returns with beyond
  · cases returns
    exact Or.inl ⟨beyond, rfl, rfl⟩
  · right
    split at returns
    · cases returns
    · rename_i middle entered
      have slot := pagingMapTable_slot entered
      split at returns
      · cases returns
      · rename_i table isTable
        split_ifs at returns with occupied
        · cases returns
          exact ⟨_, entered, ⟨slot.1, table, isTable, occupied⟩, Or.inl rfl⟩
        · cases returns
          refine ⟨middle, entered, ⟨slot.1, table, isTable, ?_⟩, Or.inr ⟨table, rfl⟩⟩
          rw [Paging.setEntry_tables_self]
          exact pagingMapWord_ne_zero phys flags off

theorem pagingMapBody_entryUsed {slot index : ℕ} (used : s.EntryUsed slot index)
    (returns : pagingMapBody alloc phys virt flags off s = .ok (result, s')) :
    s'.EntryUsed slot index := by
  rcases pagingMapBody_cases returns with ⟨_, _, rfl⟩ | ⟨middle, entered, _, rfl | ⟨table, rfl⟩⟩
  · exact used
  · exact pagingMapTable_entryUsed used entered
  · exact (pagingMapTable_entryUsed used entered).setEntry (pagingMapWord_ne_zero _ _ _)

theorem Paging.RefusedAtOnce.body (word : virt < 2 ^ 32) (refused : s.RefusedAtOnce virt) :
    pagingMapBody alloc phys virt flags 0 s = .ok (false, s) := by
  have atPage : (virt + 0) % 2 ^ 32 = virt := Nat.mod_eq_of_lt word
  rw [pagingMapBody, atPage]
  rcases refused with beyond | ⟨present, table, isTable, occupied⟩
  · rw [if_pos beyond]
  · split_ifs
    · rfl
    · simp [pagingMapTable, present, isTable, occupied]

end Pass

section Call

variable {alloc : ℕ → Option ℕ} {phys virt size flags : ℕ} {s s' : Paging} {result : Bool}

/-- A call that is refused at once leaves everything as it was. -/
theorem Paging.RefusedAtOnce.unchanged (word : virt < 2 ^ 32) (refused : s.RefusedAtOnce virt)
    (returns : pagingMap alloc s phys virt size flags = .ok (result, s')) : s' = s := by
  rw [pagingMap, Stride.loop, refused.body word] at returns
  cases returns
  rfl

/-- When a call that was not refused at once is over, the entry of its first page is
in use. -/
theorem pagingMap_first_used (word : virt < 2 ^ 32) (accepted : ¬s.pagingSize < pdindex virt)
    (returns : pagingMap alloc s phys virt size flags = .ok (result, s')) :
    s'.EntryUsed (pdindex virt) (ptindex virt) := by
  have atPage : (virt + 0) % 2 ^ 32 = virt := Nat.mod_eq_of_lt word
  have first : ∀ result t, pagingMapBody alloc phys virt flags 0 s = .ok (result, t) →
      t.EntryUsed (pdindex virt) (ptindex virt) := by
    intro result t pass
    rcases pagingMapBody_cases pass with ⟨beyond, _⟩ | ⟨middle, _, used, _⟩
    · rw [atPage] at beyond
      exact absurd beyond accepted
    · rwa [atPage] at used
  have stays : ∀ off t t' result, t.EntryUsed (pdindex virt) (ptindex virt) →
      pagingMapBody alloc phys virt flags off t = .ok (result, t') →
        t'.EntryUsed (pdindex virt) (ptindex virt) :=
    fun _ _ _ _ used pass => pagingMapBody_entryUsed used pass
  rw [pagingMap, Stride.loop] at returns
  split at returns
  · cases returns
  · rename_i t pass
    cases returns
    exact first _ _ pass
  · rename_i t pass
    split_ifs at returns with more
    · exact @Stride.loop_invariant _ _ _ _ _ _ _ _ _ _ _
        (fun t => t.EntryUsed (pdindex virt) (ptindex virt)) _ stays (first _ _ pass) returns
    · cases returns
      exact first _ _ pass

end Call

/-- An address of a page whose entry is not in use is not translated; of one whose entry
is in use, byte 1 is. -/
theorem Consistent.translate_byte_one_iff {bootPages virt : ℕ} {s : Paging}
    (consistent : Consistent bootPages s) (user : pdindex virt < 768) :
    pagingGetPhysical s (virt / 4096 * 4096 + 1) ≠ .ok 0 ↔
      s.EntryUsed (pdindex virt) (ptindex virt) := by
  have onPage : (virt / 4096 * 4096 + 1) / 4096 = virt / 4096 := by omega
  have same := index_of_page onPage
  have low : pdindex (virt / 4096 * 4096 + 1) < s.higherPagesStart := by
    rw [same.1, consistent.configured.start]
    omega
  by_cases empty : s.pagingDir (pdindex virt) = 0
  · rw [Paging.translate_empty low (by rwa [same.1])]
    simp [Paging.EntryUsed, empty]
  · rcases Option.ne_none_iff_exists'.mp ((consistent.table_iff empty).mpr user) with
      ⟨table, isTable⟩
    rw [Paging.translate_entry low (by rwa [same.1]) (by rwa [same.1]), same.2]
    simp only [Paging.EntryUsed, empty, isTable, ne_eq, not_false_eq_true, Option.some.injEq,
      exists_eq_left', true_and]
    split_ifs with zero
    · simp [zero]
    · simp only [Except.ok.injEq, zero, not_false_eq_true, iff_true]
      omega

/-- A call that returns false has changed no translation below the kernel exactly when it
was refused at its first page. -/
theorem pagingMap_atomic_iff {bootPages : ℕ} {alloc : ℕ → Option ℕ}
    {phys virt size flags : ℕ} {s s' : Paging} (consistent : Consistent bootPages s)
    (word : virt < 2 ^ 32)
    (returns : pagingMap alloc s phys virt size flags = .ok (false, s')) :
    (∀ address < 0xC0000000, pagingGetPhysical s' address = pagingGetPhysical s address) ↔
      s.RefusedAtOnce virt := by
  constructor
  · intro kept
    by_contra notRefused
    simp only [Paging.RefusedAtOnce, not_or] at notRefused
    have used := pagingMap_first_used word notRefused.1 returns
    have consistent' : Consistent bootPages s' := Stride.loop_invariant
      (fun _ _ _ _ consistent pass => consistent.mapBody pass) consistent returns
    have user : pdindex virt < 768 := by
      rcases used with ⟨present, table, isTable, _⟩
      exact (consistent'.table_iff present).mp (by simp [isTable])
    have below : virt / 4096 * 4096 + 1 < 0xC0000000 := by
      rw [pdindex] at user
      omega
    have translated := (consistent'.translate_byte_one_iff user).mpr used
    rw [kept _ below] at translated
    exact notRefused.2 ((consistent.translate_byte_one_iff user).mp translated)
  · intro refused address _
    rw [refused.unchanged word returns]

/-- Paging with a table for slot 1 in which the page 0x401000 is mapped. -/
def secondPageMapped : Paging :=
  ((kernelPremainPaging 0x200000 0x100000 (fun _ => 0) (fun _ _ => 0)).setSlot 1 0x501003
    0xC0801000).setEntry 0xC0801000 1 0x2001

theorem secondPageMapped_consistent : Consistent 0x200000 secondPageMapped :=
  (Consistent.init.setSlot (by omega) (by omega)).setEntry _ _ _

/-- Mapping the page that is mapped is refused at once. -/
theorem pagingMap_atomic_iff_refused :
    ∃ s', pagingMap heapPageOf secondPageMapped 0x1000 0x401000 4096 0 = .ok (false, s') ∧
      ∀ address < 0xC0000000,
        pagingGetPhysical s' address = pagingGetPhysical secondPageMapped address := by
  have refused : secondPageMapped.RefusedAtOnce 0x401000 := by
    right
    exact ⟨by decide, 0xC0801000, rfl, by decide⟩
  have returns : pagingMap heapPageOf secondPageMapped 0x1000 0x401000 4096 0 =
      .ok (false, secondPageMapped) := by
    rw [pagingMap, Stride.loop, refused.body (by omega)]
  exact ⟨_, returns,
    (pagingMap_atomic_iff secondPageMapped_consistent (by omega) returns).mpr refused⟩

/-- Mapping two pages of which the second is mapped leaves the first one mapped. -/
theorem pagingMap_not_atomic :
    ∃ s', Consistent 0x200000 secondPageMapped ∧
      pagingMap heapPageOf secondPageMapped 0x1000 0x400000 8192 0 = .ok (false, s') ∧
      pagingGetPhysical secondPageMapped 0x400000 = .ok 0 ∧
      pagingGetPhysical s' 0x400000 = .ok 0x1000 := by
  refine ⟨secondPageMapped.setEntry 0xC0801000 0 0x1001, secondPageMapped_consistent, ?_, rfl, rfl⟩
  rfl

end Osserver
