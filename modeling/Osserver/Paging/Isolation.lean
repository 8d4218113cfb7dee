import Osserver.Mem.HeapSafety
import Osserver.Paging.Frame
import Osserver.Paging.OnHeap

/-!
# The heap and the page tables in one run

Callers of the heap and callers of `paging_map` and `paging_unmap` share the page allocator
and the memory. In every run in which their calls alternate in any order the two do not
meet: no table lies where a block is, no call into paging changes a block, and no call
into the heap changes a translation.
-/

namespace Osserver

open Liballoc Transition BlockStore

inductive HeapPagingCall where
  | heap (call : HeapCall)
  | map (phys virt size flags : ℕ)
  | unmap (virt size : ℕ)

/-- The call is made by those who use the heap for themselves, and who do not write into page
tables. -/
def HeapCall.OfCallers (run : HeapRun) : HeapCall → Prop
  | .tablePage => False
  | .write address _ => ∀ table ∈ run.tables, ¬table.span.Covers address
  | _ => True

inductive HeapPagingStep : HeapPaging → HeapPagingCall → HeapPaging → Prop where
  | heap {s : HeapPaging} {call : HeapCall} {run : HeapRun} (ofCallers : call.OfCallers s.run)
      (step : HeapStep s.run call run) : HeapPagingStep s (.heap call) { s with run := run }
  | map {s s' : HeapPaging} {phys virt size flags : ℕ} {result : Bool} (word : flags < 2 ^ 32)
      (returns : heapPagingMap s phys virt size flags = .ok (result, s')) :
      HeapPagingStep s (.map phys virt size flags) s'
  | unmap {s s' : HeapPaging} {virt size : ℕ} {result : Bool}
      (returns : heapPagingUnmap s virt size = .ok (result, s')) :
      HeapPagingStep s (.unmap virt size) s'

/-- The state in which `kernel_premain` leaves paging and the heap. -/
def kernelPremainHeapPaging (bootPages addr : ℕ) (behind : ℕ → ℕ) (run : HeapRun) :
    HeapPaging where
  run := run
  pagingDir := bootPageDirectory bootPages
  pagingSize := 768
  pagingDirectoryMap := fun _ => none
  higherPages := kernelPremainPages addr behind
  higherPagesStart := 770

def heapPagingSystem (bootPages : ℕ) : System HeapPaging HeapPagingCall where
  Init s := ∃ run addr behind, heapSystem.Init run ∧
    s = kernelPremainHeapPaging bootPages addr behind run
  Step := HeapPagingStep

/-- The calls into the heap are those that it is made for. -/
def HeapPagingSafe (s : HeapPaging) : HeapPagingCall → Prop
  | .heap call => HeapCallSafe s.run call
  | _ => True

/-- The call is not about a certain block of the heap. -/
def HeapPagingCall.LeavesAlone (s : HeapPaging) (ptr : ℕ) : HeapPagingCall → Prop
  | .heap call => (s.run.event call).LeavesAlone ptr
  | _ => True

def HeapPagingCall.IsHeap : HeapPagingCall → Prop
  | .heap _ => True
  | _ => False

section Steps

open HeapPaging

variable {bootPages : ℕ} {s s' : HeapPaging} {call : HeapPagingCall} {run : HeapRun}

theorem HeapStep.tables_kept {run after : HeapRun} {call : HeapCall}
    (ofCallers : call.OfCallers run) (step : HeapStep run call after) :
    after.tables = run.tables := by
  cases step with
  | tablePage => exact ofCallers.elim
  | noTablePage => exact ofCallers.elim
  | kmalloc => rfl
  | kcalloc => rfl
  | krealloc => rfl
  | kfree => rfl
  | write => rfl

theorem HeapPaging.Sound.heap {call : HeapCall} (sound : s.Sound) (safe : HeapCallSafe s.run call)
    (ofCallers : call.OfCallers s.run) (step : HeapStep s.run call run) :
    { s with run := run }.Sound := by
  refine ⟨sound.reached.step_by call safe step, ?_, sound.once⟩
  simp only [step.tables_kept ofCallers]
  exact sound.held

/-- A call of the heap's users keeps the words of all tables. -/
theorem HeapPaging.Sound.word_kept {call : HeapCall} (sound : s.Sound)
    (safe : HeapCallSafe s.run call) (ofCallers : call.OfCallers s.run)
    (step : HeapStep s.run call run) {slot table : ℕ}
    (isTable : s.pagingDirectoryMap slot = some table) :
    pageWords run.heap.memory table = pageWords s.run.heap.memory table := by
  have page := sound.isPage isTable
  have fits := page.fits
  have tableMem := sound.held slot table isTable
  funext index
  by_cases inPage : index < 1024
  · rw [pageWords_eq page inPage, pageWords_eq page inPage]
    apply Bytes.load32_congr (by omega)
    intro place above below
    have covers : (⟨table, 1⟩ : Block).span.Covers place := by
      simp only [Block.span_covers, Block.stop]
      omega
    apply heap_step_foreign sound.reached safe step place (Or.inl ⟨_, tableMem, covers⟩)
    rintro byte rfl
    exact ofCallers _ tableMem covers
  · rw [pageWords, pageWords, if_neg (fun inRange => inPage inRange.2.2),
      if_neg (fun inRange => inPage inRange.2.2)]

theorem HeapPaging.Sound.translation_kept {call : HeapCall} (sound : s.Sound)
    (safe : HeapCallSafe s.run call) (ofCallers : call.OfCallers s.run)
    (step : HeapStep s.run call run) (virt : ℕ) :
    heapPagingGetPhysical { s with run := run } virt = heapPagingGetPhysical s virt := by
  have after := sound.heap safe ofCallers step
  rw [sound.getPhysical, after.getPhysical, pagingGetPhysical, pagingGetPhysical]
  simp only [HeapPaging.paging]
  cases isTable : s.pagingDirectoryMap (pdindex virt) with
  | none => rfl
  | some table =>
      have words := sound.word_kept safe ofCallers step isTable
      simp only [words]
      rfl

theorem HeapPaging.Sound.step (sound : s.Sound) (safe : HeapPagingSafe s call)
    (step : HeapPagingStep s call s') : s'.Sound := by
  cases step with
  | heap ofCallers step => exact sound.heap safe ofCallers step
  | map word returns => exact (heapPagingMap_sound sound returns).1
  | unmap returns => exact (heapPagingUnmap_sound sound returns).1

theorem heapPaging_sound (reached : (heapPagingSystem bootPages).ReachableWhen HeapPagingSafe s) :
    s.Sound := by
  apply System.ReachableWhen.invariant _ _ reached
  · rintro s ⟨run, addr, behind, starts, rfl⟩
    refine ⟨.init starts, ?_, ?_⟩
    · intro slot table isTable
      cases isTable
    · intro slot other table isTable
      cases isTable
  · intro s call s' sound safe step
    exact sound.step safe step

/-- With the tables apart from the memory, a step is one of the paging code with heap pages, or
a change of other pages. -/
theorem HeapPaging.Sound.paging_step (sound : s.Sound) (safe : HeapPagingSafe s call)
    (step : HeapPagingStep s call s') : ∃ label, PagingStep s.paging label s'.paging := by
  cases step with
  | heap ofCallers step =>
      exact ⟨_, .heap fun _ _ isTable => sound.word_kept safe ofCallers step isTable⟩
  | map word returns =>
      have after := (heapPagingMap_sound sound returns).1
      have heapPages : HeapPages s'.pagingDirectoryMap :=
        fun _ _ isTable => (after.isPage isTable).fromHeap
      exact ⟨_, .map heapPages (heapPagingMap_simulates sound word returns)⟩
  | unmap returns => exact ⟨_, .unmap (heapPagingUnmap_simulates sound returns)⟩

theorem heapPaging_paging_reached
    (reached : (heapPagingSystem bootPages).ReachableWhen HeapPagingSafe s) :
    (pagingSystem bootPages).Reachable s.paging := by
  induction reached with
  | init starts =>
      rcases starts with ⟨run, addr, behind, _, rfl⟩
      apply System.Reachable.init
      refine ⟨addr, behind, pageWords run.heap.memory, ?_⟩
      simp only [HeapPaging.paging, kernelPremainHeapPaging, kernelPremainPaging, pagingInit]
  | step before safe step ih =>
      rcases (heapPaging_sound before).paging_step safe step with ⟨label, pagingStep⟩
      exact ih.step pagingStep

/-- A call into paging changes nothing for the callers of the heap. -/
theorem HeapPaging.Leads.store (leads : Leads s s') (after : s'.Sound) :
    s'.run.store = s.run.store := by
  rcases heap_mapped after.reached with ⟨layout, mapped⟩
  rw [HeapRun.store, HeapRun.store, leads.callers]
  apply storeOf_congr
  intro block held
  rw [← leads.callers] at held
  have holds := (mapped.holds block.ptr block.size).mpr held
  apply Liballoc.bytes_congr
  intro offset inside
  apply leads.memory
  intro table tableMem covers
  have apart := mapped.heapAt.payload_foreign (Or.inl ⟨table, tableMem, covers⟩) holds
  omega

end Steps

section First

variable {s : HeapPaging}

/-- Paging and the heap when nothing has been asked for, for a memory region at 1 MiB. -/
def firstPaging : HeapPaging :=
  kernelPremainHeapPaging 0x200000 0x100000 (fun _ => 0) ⟨firstHeap, [], []⟩

theorem firstPaging_reached :
    (heapPagingSystem 0x200000).ReachableWhen HeapPagingSafe firstPaging :=
  .init ⟨_, _, _, ⟨_, _, rfl⟩, rfl⟩

/-- The page at 4 MiB is mapped, with the first page of the heap for a table. -/
theorem firstPaging_maps : ∃ s', heapPagingMap firstPaging 0x1000 0x400000 4096 0 = .ok (true, s') ∧
    s'.pagingDirectoryMap 1 = some kernelHeap := by
  have allocates : kmemLiballocAlloc firstPaging.run.heap.kmem 1 =
      .ok (some kernelHeap, kmemLiballocAllocFront firstHeap.kmem 0 1) :=
    firstHeap_pages (by decide)
  have higher : pdindex kernelHeap ≥ firstPaging.higherPagesStart := by decide
  have table : ∃ word, heapPagingMapTable firstPaging 1 = .ok (firstPaging.withTable 1 word
      kernelHeap (kmemLiballocAllocFront firstHeap.kmem 0 1)) := by
    have empty : firstPaging.pagingDir 1 = 0 := rfl
    rw [heapPagingMapTable, if_pos empty, allocates]
    simp only [heapPagingGetPhysical, if_pos higher]
    exact ⟨_, rfl⟩
  rcases table with ⟨word, table⟩
  generalize kmemLiballocAllocFront firstHeap.kmem 0 1 = kmem at table
  have slot : pdindex ((0x400000 + 0) % 2 ^ 32) = 1 := by decide
  have index : ptindex ((0x400000 + 0) % 2 ^ 32) = 0 := by decide
  have accepted : ¬1 > firstPaging.pagingSize := by decide
  have isTable : (firstPaging.withTable 1 word kernelHeap kmem).pagingDirectoryMap 1 =
      some kernelHeap := by
    simp [HeapPaging.withTable]
  have free : ¬(firstPaging.withTable 1 word kernelHeap kmem).word kernelHeap 0 ≠ 0 :=
    not_not.mpr rfl
  have pass : heapPagingMapBody 0x1000 0x400000 0 0 firstPaging = .ok (true,
      (firstPaging.withTable 1 word kernelHeap kmem).setWord kernelHeap 0
        (pagingMapWord 0x1000 0 0)) := by
    rw [heapPagingMapBody, slot, index, if_neg accepted, table]
    simp only [isTable, if_neg free]
  exact ⟨_, heapPagingMap_single (by decide) pass, isTable⟩

/-- The first block of the heap, before any page is mapped. -/
theorem firstPaging_block : ∃ s, (heapPagingSystem 0x200000).ReachableWhen HeapPagingSafe s ∧
    ⟨0xC0800020, 100⟩ ∈ s.run.held ∧ s.pagingSize = 768 ∧ s.pagingDir 1 = 0 ∧
      HeapPagingStep firstPaging (.heap (.kmalloc 100)) s := by
  have small : 100 + 32 < 2 ^ 32 := by decide
  have mapped : firstPaging.run.Mapped _ := heapSystem_init ⟨_, _, rfl⟩
  rcases mapped.heapAt.malloc_grow small rfl (firstHeap_pages (by decide)) with
    ⟨heap, after, returns, _⟩
  have step : HeapPagingStep firstPaging (.heap (.kmalloc 100))
      { firstPaging with run := firstPaging.run.gain heap 0xC0800020 100 } :=
    .heap trivial (.kmalloc returns)
  exact ⟨_, firstPaging_reached.step_by (.heap (.kmalloc 100)) small step, List.mem_cons_self, rfl,
    rfl, step⟩

end First

section Runs

variable {bootPages : ℕ} {start s : HeapPaging}

/-- Each table has a page of its own, which is in no block of a caller, in no tag before one, and
not free. -/
theorem heapPaging_tables (reached : (heapPagingSystem bootPages).ReachableWhen HeapPagingSafe s)
    {slot table : ℕ} (isTable : s.pagingDirectoryMap slot = some table) :
    IsPage table ∧
      (∀ other, s.pagingDirectoryMap other = some table → other = slot) ∧
        ∀ address, (⟨table, 1⟩ : Block).span.Covers address →
          (∀ block ∈ s.run.held, address < block.ptr - 32 ∨ block.ptr + block.size ≤ address) ∧
            ∀ entry, s.run.heap.kmem.FreeEntry entry →
              ¬(s.run.heap.kmem.block entry).span.Covers address := by
  have sound := heapPaging_sound reached
  have tableMem := sound.held slot table isTable
  refine ⟨sound.isPage isTable, fun other alsoTable => sound.once _ _ _ alsoTable isTable, ?_⟩
  intro address covers
  rcases heap_mapped sound.reached with ⟨layout, mapped⟩
  have foreign : Foreign s.run.tables address := Or.inl ⟨_, tableMem, covers⟩
  refine ⟨?_, ?_⟩
  · intro block held
    rcases (mapped.holds block.ptr block.size).mpr held with ⟨chunk, member, atChunk, taken⟩
    have apartTag := mapped.heapAt.tag_foreign foreign (chunk_cell_mem member)
    have apart := mapped.heapAt.payload_foreign foreign ⟨chunk, member, atChunk, taken⟩
    omega
  · intro entry isFree
    have exclusive := mapped.heapAt.backed.tiled.exclusive
    exact exclusive.notFree _ (List.mem_append_right _ tableMem) entry isFree address covers

theorem heapPaging_tables_first : ∃ s,
    (heapPagingSystem 0x200000).ReachableWhen HeapPagingSafe s ∧ IsPage kernelHeap ∧
      ∀ other, s.pagingDirectoryMap other = some kernelHeap → other = 1 := by
  rcases firstPaging_maps with ⟨s, returns, isTable⟩
  have reached := firstPaging_reached.step_by (.map 0x1000 0x400000 4096 0) trivial
    (.map (by decide) returns)
  have tables := heapPaging_tables reached isTable
  exact ⟨s, reached, tables.1, tables.2.1⟩

/-- The users of the heap cannot change a translation, whatever they ask for and write. -/
theorem heapPaging_translations_kept
    (reached : (heapPagingSystem bootPages).ReachableWhen HeapPagingSafe start)
    (goesOn : ((heapPagingSystem bootPages).startingAt start).ReachableWhen
      (fun state call => HeapPagingSafe state call ∧ call.IsHeap) s) (virt : ℕ) :
    heapPagingGetPhysical s virt = heapPagingGetPhysical start virt := by
  induction goesOn with
  | init starts => rw [starts]
  | step before permitted step ih =>
      have sound := heapPaging_sound (reached.go_on (fun _ _ both => both.1) before)
      rw [← ih]
      cases step with
      | heap ofCallers step => exact sound.translation_kept permitted.1 ofCallers step virt
      | map => exact permitted.2.elim
      | unmap => exact permitted.2.elim

theorem heapPaging_translations_kept_first : ∃ s,
    HeapPagingStep firstPaging (.heap (.kmalloc 100)) s ∧
      heapPagingGetPhysical s 0x400000 = heapPagingGetPhysical firstPaging 0x400000 := by
  rcases firstPaging_block with ⟨s, _, _, _, _, step⟩
  have small : 100 + 32 < 2 ^ 32 := by decide
  have goesOn : ((heapPagingSystem 0x200000).startingAt firstPaging).ReachableWhen
      (fun state call => HeapPagingSafe state call ∧ call.IsHeap) s :=
    System.ReachableWhen.step_by (.init rfl) (.heap (.kmalloc 100)) ⟨small, trivial⟩ step
  exact ⟨s, step, heapPaging_translations_kept firstPaging_reached goesOn 0x400000⟩

/-- A block stays with its holder, and its bytes stay, also when pages are mapped and unmapped
meanwhile. -/
theorem heapPaging_block_kept {block : HeldBlock}
    (reached : (heapPagingSystem bootPages).ReachableWhen HeapPagingSafe start)
    (held : block ∈ start.run.held)
    (goesOn : ((heapPagingSystem bootPages).startingAt start).ReachableWhen
      (fun state call => HeapPagingSafe state call ∧ call.LeavesAlone state block.ptr) s) :
    block ∈ s.run.held ∧
      s.run.heap.bytes block.ptr block.size = start.run.heap.bytes block.ptr block.size := by
  have seen : s.run.store block.ptr = some (start.run.heap.bytes block.ptr block.size) := by
    induction goesOn with
    | init starts =>
        rcases heap_mapped (heapPaging_sound reached).reached with ⟨layout, mapped⟩
        rw [starts]
        exact mapped.store_mem held
    | step before permitted step ih =>
        have sound := heapPaging_sound (reached.go_on (fun _ _ both => both.1) before)
        cases step with
        | heap ofCallers step =>
            exact (heap_step_event sound.reached permitted.1 step).kept ih permitted.2
        | map word returns =>
            have after := heapPagingMap_sound sound returns
            rw [after.2.store after.1]
            exact ih
        | unmap returns =>
            have after := heapPagingUnmap_sound sound returns
            rw [after.2.store after.1]
            exact ih
  have after := HeapRun.held_of_store seen
  rw [Liballoc.bytes_length] at after
  exact after

theorem heapPaging_block_kept_first : ∃ s s',
    HeapPagingStep s (.unmap 0x400000 4096) s' ∧ ⟨0xC0800020, 100⟩ ∈ s'.run.held := by
  rcases firstPaging_block with ⟨s, reached, held, size, empty, _⟩
  have last : ¬(0 + 4096) % 2 ^ 32 < 4096 := by decide
  have slot : pdindex ((0x400000 + 0) % 2 ^ 32) = 1 := by decide
  have accepted : ¬1 > s.pagingSize := by omega
  have pass : heapPagingUnmapBody 0x400000 0 s = .ok (true, s) := by
    rw [heapPagingUnmapBody, slot, if_neg accepted, if_pos empty]
  have returns : heapPagingUnmap s 0x400000 4096 = .ok (true, s) := by
    rw [heapPagingUnmap, Stride.loop, pass]
    simp only [if_neg last]
  have step : HeapPagingStep s (.unmap 0x400000 4096) s := .unmap returns
  have goesOn : ((heapPagingSystem 0x200000).startingAt s).ReachableWhen
      (fun state call => HeapPagingSafe state call ∧ call.LeavesAlone state 0xC0800020) s :=
    System.ReachableWhen.step_by (.init rfl) (.unmap 0x400000 4096) ⟨trivial, trivial⟩ step
  exact ⟨s, s, step, (heapPaging_block_kept reached held goesOn).1⟩

/-- Of a call that maps a range the translations outside are kept exactly when each page that
it takes for a table is zero outside the range; `paging_map` does not clear it. -/
theorem heapPagingMap_frame {s' : HeapPaging} {phys virt size flags : ℕ}
    (reached : (heapPagingSystem bootPages).ReachableWhen HeapPagingSafe s)
    (positive : 1 ≤ size) (belowKernel : virt + size ≤ 0xC0000000) (small : flags < 2 ^ 32)
    (returns : heapPagingMap s phys virt size flags = .ok (true, s')) :
    (∀ address < 0xC0000000, Outside virt size address →
        heapPagingGetPhysical s' address = heapPagingGetPhysical s address) ↔
      ∀ address < 0xC0000000, Outside virt size address → s.pagingDir (pdindex address) = 0 →
        ∀ table, s'.pagingDirectoryMap (pdindex address) = some table →
          s.word table (ptindex address) = 0 := by
  have sound := heapPaging_sound reached
  have after := heapPagingMap_sound sound returns
  have consistent := Consistent.of_reachable (heapPaging_paging_reached reached)
  have effect := pagingMap_effect (by omega) (heapPagingMap_simulates sound small returns)
  have kept : (∀ address < 0xC0000000, Outside virt size address →
      heapPagingGetPhysical s' address = heapPagingGetPhysical s address) ↔
        FrameKept s.paging s'.paging virt size := by
    simp only [sound.getPhysical, after.1.getPhysical]
    exact Iff.rfl
  have word : ∀ {slot table address}, s'.pagingDirectoryMap slot = some table →
      s.paging.tables table (ptindex address) = s.word table (ptindex address) :=
    fun isTable => HeapPaging.paging_tables (after.1.isPage isTable) (ptindex_lt _)
  rw [kept]
  constructor
  · intro frame address low outside empty table isTable
    have safe := frame.safe consistent.configured effect
    have touched : Touches virt size (pdindex address) := by
      by_contra untouched
      have same := effect.slotUntouched (pdindex address)
        (fun k _ inside atSlot => untouched ⟨k, inside, atSlot⟩)
      have none := (consistent.userSlots (pdindex address) (pdindex_low low)).mp empty
      rw [none] at same
      rw [HeapPaging.paging_pagingDirectoryMap, isTable] at same
      cases same.2
    rw [← word isTable]
    exact safe.fresh address low outside empty touched table isTable
  · intro zero
    apply FrameSafe.kept consistent.configured _ effect
    apply FrameSafe.of_zeroed positive belowKernel
    · have slotTable : ∀ slot, s.paging.slotTable s'.pagingDirectoryMap slot =
          s'.pagingDirectoryMap slot := by
        intro slot
        rw [Paging.slotTable]
        split_ifs with empty
        · rfl
        · exact (after.2.slots slot empty).2.symm
      intro slot other table isTable alsoTable
      rw [slotTable] at isTable alsoTable
      exact after.1.once slot other table isTable alsoTable
    · intro address low outside empty _ table isTable
      rw [word isTable]
      exact zero address low outside empty table isTable

/-- In a memory of zeros the first page that is mapped is the only one that appears. -/
theorem heapPagingMap_frame_first : ∃ s',
    heapPagingMap firstPaging 0x1000 0x400000 4096 0 = .ok (true, s') ∧
      ∀ address < 0xC0000000, Outside 0x400000 4096 address →
        heapPagingGetPhysical s' address = heapPagingGetPhysical firstPaging address := by
  rcases firstPaging_maps with ⟨s', returns, _⟩
  refine ⟨s', returns, ?_⟩
  apply (heapPagingMap_frame firstPaging_reached (by decide) (by decide) (by decide) returns).mpr
  intro address _ _ _ table _
  rfl

end Runs

end Osserver
