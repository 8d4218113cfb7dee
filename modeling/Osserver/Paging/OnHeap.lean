import Osserver.Mem.HeapStore
import Osserver.Paging.Safety

/-!
# Page tables in the memory of the heap

`paging_map` takes the pages for its tables from the page allocator that serves the heap,
and its tables are read and written in the same memory. Here the functions of `paging.c`
run on that allocator and that memory; the model without them, which is told what the
allocator answers and has the words of the tables apart, simulates them.
-/

namespace Osserver

open Liballoc Transition Bytes

/-- The variables of `paging.c`, and the memory with the heap in it. -/
structure HeapPaging where
  run : HeapRun
  pagingDir : ℕ → ℕ
  pagingSize : ℕ
  pagingDirectoryMap : ℕ → Option ℕ
  higherPages : ℕ → ℕ
  higherPagesStart : ℕ

/-- The words of a memory, by their place in a page. -/
def pageWords (memory : ℕ → UInt8) (table index : ℕ) : ℕ :=
  if table % 4096 = 0 ∧ table < 2 ^ 32 ∧ index < 1024 then load32 memory (table + index * 4) else 0

namespace HeapPaging

/-- `table[index]`. -/
def word (s : HeapPaging) (table index : ℕ) : ℕ :=
  load32 s.run.heap.memory (table + index * 4)

/-- `table[index] = word`. -/
def setWord (s : HeapPaging) (table index word : ℕ) : HeapPaging :=
  { s with
    run := { s.run with
      heap := { s.run.heap with
        memory := store32 s.run.heap.memory (table + index * 4) word } } }

/-- The page allocator has handed out a page, and it is entered for a directory slot. -/
def withTable (s : HeapPaging) (slot word table : ℕ) (kmem : Kmem) : HeapPaging :=
  { s with
    run := { s.run with heap := s.run.heap.setKmem kmem, tables := ⟨table, 1⟩ :: s.run.tables }
    pagingDir := Function.update s.pagingDir slot word
    pagingDirectoryMap := Function.update s.pagingDirectoryMap slot (some table) }

/-- The state with the tables apart from the memory. -/
def paging (s : HeapPaging) : Paging where
  pagingDir := s.pagingDir
  pagingSize := s.pagingSize
  pagingDirectoryMap := s.pagingDirectoryMap
  higherPages := s.higherPages
  higherPagesStart := s.higherPagesStart
  tables := pageWords s.run.heap.memory

@[simp]
theorem paging_pagingDir (s : HeapPaging) : s.paging.pagingDir = s.pagingDir :=
  rfl

@[simp]
theorem paging_pagingSize (s : HeapPaging) : s.paging.pagingSize = s.pagingSize :=
  rfl

@[simp]
theorem paging_pagingDirectoryMap (s : HeapPaging) :
    s.paging.pagingDirectoryMap = s.pagingDirectoryMap :=
  rfl

end HeapPaging

/-- `paging_get_physical`. -/
def heapPagingGetPhysical (s : HeapPaging) (virt : ℕ) : Except Halt ℕ :=
  if pdindex virt ≥ s.higherPagesStart then
    .ok (frame (s.higherPages ((pdindex virt - s.higherPagesStart) * 4096 + ptindex virt)) +
      virt % 4096)
  else if s.pagingDir (pdindex virt) = 0 then .ok 0
  else
    match s.pagingDirectoryMap (pdindex virt) with
    | none => .error .nullPointer
    | some table =>
        if s.word table (ptindex virt) = 0 then .ok 0
        else .ok (frame (s.word table (ptindex virt)) + virt % 4096)

/-- The part of `paging_map` that gives a directory slot its table. -/
def heapPagingMapTable (s : HeapPaging) (slot : ℕ) : Except Halt HeapPaging :=
  if s.pagingDir slot = 0 then
    match kmemLiballocAlloc s.run.heap.kmem 1 with
    | .error halt => .error halt
    | .ok (none, _) => .error (.kpanic "OOM")
    | .ok (some table, kmem) =>
        match heapPagingGetPhysical s table with
        | .error halt => .error halt
        | .ok phys => .ok (s.withTable slot (phys ||| 3) table kmem)
  else .ok s

/-- One pass of the loop of `paging_map`. -/
def heapPagingMapBody (phys virt flags off : ℕ) (s : HeapPaging) :
    Except Halt (Bool × HeapPaging) :=
  if pdindex ((virt + off) % 2 ^ 32) > s.pagingSize then .ok (false, s)
  else
    match heapPagingMapTable s (pdindex ((virt + off) % 2 ^ 32)) with
    | .error halt => .error halt
    | .ok s =>
        match s.pagingDirectoryMap (pdindex ((virt + off) % 2 ^ 32)) with
        | none => .error .nullPointer
        | some table =>
            if s.word table (ptindex ((virt + off) % 2 ^ 32)) ≠ 0 then .ok (false, s)
            else .ok (true, s.setWord table (ptindex ((virt + off) % 2 ^ 32))
              (pagingMapWord phys flags off))

/-- `paging_map`. -/
def heapPagingMap (s : HeapPaging) (phys virt size flags : ℕ) : Except Halt (Bool × HeapPaging) :=
  Stride.loop .endlessLoop (heapPagingMapBody phys virt flags) 4096 (2 ^ 32) size (2 ^ 20 + 1) 0 s

/-- One pass of the loop of `paging_unmap`. -/
def heapPagingUnmapBody (virt off : ℕ) (s : HeapPaging) : Except Halt (Bool × HeapPaging) :=
  if pdindex ((virt + off) % 2 ^ 32) > s.pagingSize then .ok (false, s)
  else if s.pagingDir (pdindex ((virt + off) % 2 ^ 32)) = 0 then .ok (true, s)
  else
    match s.pagingDirectoryMap (pdindex ((virt + off) % 2 ^ 32)) with
    | none => .error .nullPointer
    | some table =>
        if s.word table (ptindex ((virt + off) % 2 ^ 32)) ≠ 0 then
          .ok (true, s.setWord table (ptindex ((virt + off) % 2 ^ 32)) 0)
        else .ok (true, s)

/-- `paging_unmap`. -/
def heapPagingUnmap (s : HeapPaging) (virt size : ℕ) : Except Halt (Bool × HeapPaging) :=
  Stride.loop .endlessLoop (heapPagingUnmapBody virt) 4096 (2 ^ 32) size (2 ^ 20 + 1) 0 s

/-- The address of a page of the heap's region. -/
structure IsPage (table : ℕ) : Prop where
  aligned : table % 4096 = 0
  fromHeap : kernelHeap ≤ table
  inside : table + 4096 ≤ kernelHeap + 8192 * 4096

theorem ptindex_lt (virt : ℕ) : ptindex virt < 1024 := by
  rw [ptindex]
  omega

section Words

variable {memory : ℕ → UInt8} {table index word : ℕ} {s : HeapPaging}

theorem IsPage.fits (page : IsPage table) : table + 4096 ≤ 2 ^ 32 := by
  have inside := page.inside
  rw [kernelHeap] at inside
  omega

theorem pageWords_eq (page : IsPage table) (inPage : index < 1024) :
    pageWords memory table index = load32 memory (table + index * 4) := by
  have fits := page.fits
  exact if_pos ⟨page.aligned, by omega, inPage⟩

theorem HeapPaging.paging_tables (page : IsPage table) (inPage : index < 1024) :
    s.paging.tables table index = s.word table index :=
  pageWords_eq page inPage

/-- A word that is written to a page is read back, and all other words of all pages are as they
were. -/
theorem pageWords_store32 (page : IsPage table) (inPage : index < 1024) (small : word < 2 ^ 32) :
    pageWords (store32 memory (table + index * 4) word) =
      Function.update (pageWords memory) table (Function.update (pageWords memory table) index word)
    := by
  have fits := page.fits
  have aligned := page.aligned
  funext other place
  by_cases same : other = table ∧ place = index
  · rcases same with ⟨rfl, rfl⟩
    rw [pageWords_eq page inPage, load32_store32 (by omega), Function.update_self,
      Function.update_self, Nat.mod_eq_of_lt small]
  · have kept : Function.update (pageWords memory) table
        (Function.update (pageWords memory table) index word) other place =
          pageWords memory other place := by
      by_cases sameTable : other = table
      · subst other
        have different : place ≠ index := fun samePlace => same ⟨rfl, samePlace⟩
        rw [Function.update_self, Function.update_of_ne different]
      · rw [Function.update_of_ne sameTable]
    rw [kept, pageWords, pageWords]
    split_ifs with inRange
    · rcases inRange with ⟨otherAligned, otherFits, otherIn⟩
      apply load32_store32_apart (by omega) (by omega)
      by_cases sameTable : other = table
      · subst other
        have different : place ≠ index := fun samePlace => same ⟨rfl, samePlace⟩
        omega
      · omega
    · rfl

theorem HeapPaging.paging_setWord (page : IsPage table) (inPage : index < 1024)
    (small : word < 2 ^ 32) :
    (s.setWord table index word).paging = s.paging.setEntry table index word := by
  have tables := @pageWords_store32 s.run.heap.memory table index word page inPage small
  simp only [HeapPaging.paging, HeapPaging.setWord, Paging.setEntry, tables]

theorem HeapPaging.paging_withTable {slot : ℕ} {kmem : Kmem} :
    (s.withTable slot word table kmem).paging = s.paging.setSlot slot word table :=
  rfl

end Words

/-- The state is that of a run of the heap, and the tables of the slots are pages that the
paging code has got from the page allocator, each for one slot. -/
structure HeapPaging.Sound (s : HeapPaging) : Prop where
  reached : heapSystem.ReachableWhen HeapCallSafe s.run
  held : ∀ slot table, s.pagingDirectoryMap slot = some table → ⟨table, 1⟩ ∈ s.run.tables
  once : ∀ slot other table, s.pagingDirectoryMap slot = some table →
    s.pagingDirectoryMap other = some table → slot = other

/-- What a call of the paging code does to the rest: callers hold what they held, its pages stay
its pages, slots keep their tables, and the memory outside its pages is as it was. -/
structure HeapPaging.Leads (s s' : HeapPaging) : Prop where
  callers : s'.run.held = s.run.held
  tables : s.run.tables ⊆ s'.run.tables
  slots : ∀ slot, s.pagingDir slot ≠ 0 → s'.pagingDir slot ≠ 0 ∧
    s'.pagingDirectoryMap slot = s.pagingDirectoryMap slot
  memory : ∀ address, (∀ table ∈ s'.run.tables, ¬table.span.Covers address) →
    s'.run.heap.memory address = s.run.heap.memory address

section Tables

variable {run : HeapRun} {table ptr : ℕ} {kmem : Kmem}

/-- The pages of the paging code are pages of the region. -/
theorem table_isPage (reached : heapSystem.ReachableWhen HeapCallSafe run)
    (tableMem : ⟨table, 1⟩ ∈ run.tables) : IsPage table := by
  rcases heap_mapped reached with ⟨layout, mapped⟩
  rcases mapped.heapAt.backed.tiled with ⟨entries, _, owned⟩
  have held : (⟨table, 1⟩ : Block) ∈ layout.regions.map Region.block ++ run.tables :=
    List.mem_append_right _ tableMem
  have bounds := owned.bounds (List.mem_append_right _ held)
  rcases owned.aligned _ (List.mem_append_right _ held) with ⟨page, atPage⟩
  simp only [Block.stop] at bounds
  simp only at atPage
  refine ⟨?_, bounds.1, by omega⟩
  rw [atPage, kernelHeap]
  omega

/-- A page that is handed out is none of those that the paging code has. -/
theorem table_fresh (reached : heapSystem.ReachableWhen HeapCallSafe run)
    (returns : kmemLiballocAlloc run.heap.kmem 1 = .ok (some ptr, kmem)) :
    ⟨ptr, 1⟩ ∉ run.tables := by
  have next := reached.step_by .tablePage trivial (.tablePage returns)
  rcases heap_mapped next with ⟨layout, mapped⟩
  rcases mapped.heapAt.backed.tiled with ⟨entries, _, owned⟩
  have handedOut := (List.pairwise_append.mp owned.pairwise_apart).2.1
  have tables := (List.pairwise_append.mp handedOut).2.1
  intro member
  have apart := (List.pairwise_cons.mp tables).1 _ member
  simp only [Block.Apart, Block.stop] at apart
  omega

/-- The paging code may write the words of its pages. -/
theorem heap_storeWord_reached {address width value : ℕ}
    (reached : heapSystem.ReachableWhen HeapCallSafe run) (fits : address + width ≤ 2 ^ 32)
    (own : ∀ place, address ≤ place → place < address + width → Foreign run.tables place) :
    heapSystem.ReachableWhen HeapCallSafe { run with
      heap := { run.heap with memory := storeWord run.heap.memory address width value } } := by
  induction width generalizing run address value with
  | zero => exact reached
  | succ width ih =>
      have first : run.MayWrite address := Or.inr (own address (by omega) (by omega))
      have next := reached.step_by (.write address (UInt8.ofNat value)) trivial
        (.write (by omega) first)
      exact ih next (by omega) (fun place above below => own place (by omega) (by omega))

end Tables

namespace HeapPaging

variable {s s' t u : HeapPaging} {table index word slot : ℕ}

theorem Leads.refl (s : HeapPaging) : Leads s s :=
  ⟨rfl, List.Subset.refl _, fun _ present => ⟨present, rfl⟩, fun _ _ => rfl⟩

theorem Leads.trans (first : Leads s t) (second : Leads t u) : Leads s u := by
  refine ⟨second.callers.trans first.callers, List.Subset.trans first.tables second.tables, ?_, ?_⟩
  · intro slot present
    have kept := first.slots slot present
    have keptAgain := second.slots slot kept.1
    exact ⟨keptAgain.1, keptAgain.2.trans kept.2⟩
  · intro address outside
    have outsideBefore : ∀ table ∈ t.run.tables, ¬table.span.Covers address :=
      fun table member => outside table (second.tables member)
    exact (second.memory address outside).trans (first.memory address outsideBefore)

theorem Sound.setWord (sound : s.Sound) (isTable : ⟨table, 1⟩ ∈ s.run.tables)
    (inPage : index < 1024) (word : ℕ) :
    (s.setWord table index word).Sound ∧ Leads s (s.setWord table index word) := by
  have page := table_isPage sound.reached isTable
  have fits := page.fits
  have covers : ∀ place, table + index * 4 ≤ place → place < table + index * 4 + 4 →
      (⟨table, 1⟩ : Block).span.Covers place := by
    intro place above below
    simp only [Block.span_covers, Block.stop]
    omega
  refine ⟨⟨?_, sound.held, sound.once⟩, rfl, List.Subset.refl _, ?_, ?_⟩
  · apply heap_storeWord_reached sound.reached (by omega)
    intro place above below
    exact Or.inl ⟨_, isTable, covers place above below⟩
  · exact fun _ present => ⟨present, rfl⟩
  · intro address outside
    apply store32_outside (by omega)
    by_contra inside
    exact outside _ isTable (covers address (by omega) (by omega))

theorem Sound.withTable {kmem : Kmem} (sound : s.Sound) (empty : s.pagingDir slot = 0)
    (returns : kmemLiballocAlloc s.run.heap.kmem 1 = .ok (some table, kmem)) (word : ℕ) :
    (s.withTable slot word table kmem).Sound ∧ Leads s (s.withTable slot word table kmem) := by
  have fresh := table_fresh sound.reached returns
  refine ⟨⟨?_, ?_, ?_⟩, rfl, List.subset_cons_self _ _, ?_, fun _ _ => rfl⟩
  · exact sound.reached.step_by .tablePage trivial (.tablePage returns)
  · intro other page isPage
    simp only [HeapPaging.withTable] at isPage ⊢
    by_cases same : other = slot
    · rw [same, Function.update_self] at isPage
      cases isPage
      exact List.mem_cons_self
    · rw [Function.update_of_ne same] at isPage
      exact List.mem_cons_of_mem _ (sound.held other page isPage)
  · intro other another page isPage alsoPage
    simp only [HeapPaging.withTable] at isPage alsoPage
    by_cases same : other = slot
    · by_cases alsoSame : another = slot
      · rw [same, alsoSame]
      · rw [same, Function.update_self] at isPage
        rw [Function.update_of_ne alsoSame] at alsoPage
        cases isPage
        exact absurd (sound.held another table alsoPage) fresh
    · by_cases alsoSame : another = slot
      · rw [Function.update_of_ne same] at isPage
        rw [alsoSame, Function.update_self] at alsoPage
        cases alsoPage
        exact absurd (sound.held other table isPage) fresh
      · rw [Function.update_of_ne same] at isPage
        rw [Function.update_of_ne alsoSame] at alsoPage
        exact sound.once other another page isPage alsoPage
  · intro other present
    have different : other ≠ slot := by
      rintro rfl
      exact present empty
    simp only [HeapPaging.withTable, Function.update_of_ne different]
    exact ⟨present, trivial⟩

theorem Sound.isPage (sound : s.Sound) (isTable : s.pagingDirectoryMap slot = some table) :
    IsPage table :=
  table_isPage sound.reached (sound.held slot table isTable)

/-- `paging_get_physical` sees the tables in the memory. -/
theorem Sound.getPhysical (sound : s.Sound) (virt : ℕ) :
    heapPagingGetPhysical s virt = pagingGetPhysical s.paging virt := by
  rw [heapPagingGetPhysical, pagingGetPhysical]
  simp only [HeapPaging.paging]
  cases isTable : s.pagingDirectoryMap (pdindex virt) with
  | none => rfl
  | some table =>
      have word := @pageWords_eq s.run.heap.memory table _ (sound.isPage isTable) (ptindex_lt virt)
      simp only [word, HeapPaging.word]
      rfl

end HeapPaging

section Map

open HeapPaging

variable {s s' final : HeapPaging} {phys virt size flags off slot : ℕ} {result : Bool}

theorem heapPagingMapTable_cases (returns : heapPagingMapTable s slot = .ok s') :
    (s.pagingDir slot ≠ 0 ∧ s' = s) ∨
      s.pagingDir slot = 0 ∧ ∃ table kmem phys,
        kmemLiballocAlloc s.run.heap.kmem 1 = .ok (some table, kmem) ∧
          heapPagingGetPhysical s table = .ok phys ∧
            s' = s.withTable slot (phys ||| 3) table kmem := by
  simp only [heapPagingMapTable] at returns
  split_ifs at returns with empty
  · refine Or.inr ⟨empty, ?_⟩
    split at returns
    · cases returns
    · cases returns
    · rename_i table kmem allocates
      split at returns
      · cases returns
      · rename_i phys translated
        cases returns
        exact ⟨table, kmem, phys, allocates, translated, rfl⟩
  · cases returns
    exact Or.inl ⟨empty, rfl⟩

theorem heapPagingMapTable_sound (sound : s.Sound) (returns : heapPagingMapTable s slot = .ok s') :
    s'.Sound ∧ Leads s s' := by
  rcases heapPagingMapTable_cases returns with
    ⟨_, rfl⟩ | ⟨empty, table, kmem, phys, allocates, _, rfl⟩
  · exact ⟨sound, Leads.refl _⟩
  · exact sound.withTable empty allocates _

theorem heapPagingMapBody_cases
    (returns : heapPagingMapBody phys virt flags off s = .ok (result, s')) :
    (result = false ∧ s' = s ∧ pdindex ((virt + off) % 2 ^ 32) > s.pagingSize) ∨
      ¬pdindex ((virt + off) % 2 ^ 32) > s.pagingSize ∧ ∃ middle table,
        heapPagingMapTable s (pdindex ((virt + off) % 2 ^ 32)) = .ok middle ∧
          middle.pagingDirectoryMap (pdindex ((virt + off) % 2 ^ 32)) = some table ∧
            ((middle.word table (ptindex ((virt + off) % 2 ^ 32)) ≠ 0 ∧ result = false ∧
                s' = middle) ∨
              middle.word table (ptindex ((virt + off) % 2 ^ 32)) = 0 ∧ result = true ∧
                s' = middle.setWord table (ptindex ((virt + off) % 2 ^ 32))
                  (pagingMapWord phys flags off)) := by
  rw [heapPagingMapBody] at returns
  split_ifs at returns with beyond
  · cases returns
    exact Or.inl ⟨rfl, rfl, beyond⟩
  · refine Or.inr ⟨beyond, ?_⟩
    split at returns
    · cases returns
    · rename_i middle entered
      split at returns
      · cases returns
      · rename_i table isTable
        refine ⟨middle, table, entered, isTable, ?_⟩
        split_ifs at returns with used
        · cases returns
          exact Or.inl ⟨used, rfl, rfl⟩
        · cases returns
          exact Or.inr ⟨not_not.mp used, rfl, rfl⟩

theorem heapPagingMapBody_sound (sound : s.Sound)
    (returns : heapPagingMapBody phys virt flags off s = .ok (result, s')) :
    s'.Sound ∧ Leads s s' := by
  rcases heapPagingMapBody_cases returns with ⟨_, rfl, _⟩ | ⟨_, middle, table, entered, isTable, done⟩
  · exact ⟨sound, Leads.refl _⟩
  · have before := heapPagingMapTable_sound sound entered
    rcases done with ⟨_, _, rfl⟩ | ⟨_, _, rfl⟩
    · exact before
    · have tableMem := before.1.held _ table isTable
      have after := before.1.setWord tableMem (ptindex_lt ((virt + off) % 2 ^ 32))
        (pagingMapWord phys flags off)
      exact ⟨after.1, before.2.trans after.2⟩

theorem pagingMapWord_lt (small : flags < 2 ^ 32) (phys off : ℕ) :
    pagingMapWord phys flags off < 2 ^ 32 := by
  apply Nat.or_lt_two_pow (Nat.or_lt_two_pow _ small) (by decide)
  rw [frame]
  omega

/-- The allocator answers with the tables that the slots have in the end. -/
theorem heapPagingMapBody_simulates (sound : s.Sound) (small : flags < 2 ^ 32)
    (returns : heapPagingMapBody phys virt flags off s = .ok (result, s'))
    (leads : Leads s' final) :
    pagingMapBody final.pagingDirectoryMap phys virt flags off s.paging =
      .ok (result, s'.paging) := by
  rw [pagingMapBody]
  generalize atPage : (virt + off) % 2 ^ 32 = page
  rcases heapPagingMapBody_cases returns with
    ⟨rfl, rfl, beyond⟩ | ⟨inside, middle, table, entered, isTable, done⟩
  · rw [atPage] at beyond
    exact if_pos beyond
  · rw [atPage] at inside entered isTable done
    have before := heapPagingMapTable_sound sound entered
    have entry : middle.pagingDir (pdindex page) ≠ 0 := by
      rcases heapPagingMapTable_cases entered with
        ⟨present, rfl⟩ | ⟨_, table, kmem, phys, _, _, rfl⟩
      · exact present
      · simp only [HeapPaging.withTable, Function.update_self]
        exact or_ne_zero phys (by omega)
    have atEnd : final.pagingDirectoryMap (pdindex page) = some table := by
      have kept : s'.pagingDir (pdindex page) = middle.pagingDir (pdindex page) ∧
          s'.pagingDirectoryMap (pdindex page) = middle.pagingDirectoryMap (pdindex page) := by
        rcases done with ⟨_, _, rfl⟩ | ⟨_, _, rfl⟩ <;> exact ⟨rfl, rfl⟩
      rw [← kept.1] at entry
      rw [(leads.slots _ entry).2, kept.2, isTable]
    have given : pagingMapTable final.pagingDirectoryMap s.paging (pdindex page) =
        .ok middle.paging := by
      rcases heapPagingMapTable_cases entered with
        ⟨present, rfl⟩ | ⟨empty, new, kmem, phys, _, translated, rfl⟩
      · exact if_neg present
      · simp only [HeapPaging.withTable, Function.update_self, Option.some.injEq] at isTable
        subst isTable
        rw [sound.getPhysical] at translated
        rw [pagingMapTable, paging_pagingDir, if_pos empty, atEnd]
        simp only [translated]
        rfl
    have word : middle.paging.tables table (ptindex page) = middle.word table (ptindex page) :=
      paging_tables (before.1.isPage isTable) (ptindex_lt page)
    rw [paging_pagingSize, if_neg inside, given]
    simp only [paging_pagingDirectoryMap, isTable, word]
    rcases done with ⟨used, rfl, rfl⟩ | ⟨free, rfl, rfl⟩
    · rw [if_pos used]
    · have small' := @pagingMapWord_lt flags small phys off
      rw [if_neg (not_not.mpr free),
        paging_setWord (before.1.isPage isTable) (ptindex_lt page) small']

/-- A call for one page makes one pass. -/
theorem heapPagingMap_single (size_le : size ≤ 4096)
    (goesOn : heapPagingMapBody phys virt flags 0 s = .ok (true, s')) :
    heapPagingMap s phys virt size flags = .ok (true, s') := by
  have last : ¬(0 + 4096) % 2 ^ 32 < size := by omega
  rw [heapPagingMap, Stride.loop, goesOn]
  simp only [if_neg last]

theorem heapPagingMap_sound (sound : s.Sound)
    (returns : heapPagingMap s phys virt size flags = .ok (result, s')) :
    s'.Sound ∧ Leads s s' :=
  Stride.loop_leads Leads.refl Leads.trans
    (fun _ _ _ _ sound returns => heapPagingMapBody_sound sound returns) sound returns

theorem heapPagingMap_simulates (sound : s.Sound) (small : flags < 2 ^ 32)
    (returns : heapPagingMap s phys virt size flags = .ok (result, s')) :
    pagingMap s'.pagingDirectoryMap s.paging phys virt size flags = .ok (result, s'.paging) :=
  Stride.loop_simulates Leads.refl Leads.trans
    (fun _ _ _ _ sound returns => heapPagingMapBody_sound sound returns)
    (fun _ _ _ _ sound returns leads => heapPagingMapBody_simulates sound small returns leads)
    sound returns

end Map

section Unmap

open HeapPaging

variable {s s' : HeapPaging} {virt size off : ℕ} {result : Bool}

theorem heapPagingUnmapBody_cases
    (returns : heapPagingUnmapBody virt off s = .ok (result, s')) :
    s' = s ∨ ∃ table, s.pagingDirectoryMap (pdindex ((virt + off) % 2 ^ 32)) = some table ∧
      s' = s.setWord table (ptindex ((virt + off) % 2 ^ 32)) 0 := by
  rw [heapPagingUnmapBody] at returns
  split_ifs at returns
  · cases returns
    exact Or.inl rfl
  · cases returns
    exact Or.inl rfl
  · split at returns
    · cases returns
    · rename_i table isTable
      split_ifs at returns
      · cases returns
        exact Or.inr ⟨table, isTable, rfl⟩
      · cases returns
        exact Or.inl rfl

theorem heapPagingUnmapBody_sound (sound : s.Sound)
    (returns : heapPagingUnmapBody virt off s = .ok (result, s')) : s'.Sound ∧ Leads s s' := by
  rcases heapPagingUnmapBody_cases returns with rfl | ⟨table, isTable, rfl⟩
  · exact ⟨sound, Leads.refl _⟩
  · exact sound.setWord (sound.held _ table isTable) (ptindex_lt _) 0

theorem heapPagingUnmapBody_simulates (sound : s.Sound)
    (returns : heapPagingUnmapBody virt off s = .ok (result, s')) :
    pagingUnmapBody virt off s.paging = .ok (result, s'.paging) := by
  rw [heapPagingUnmapBody] at returns
  rw [pagingUnmapBody, paging_pagingSize, paging_pagingDir, paging_pagingDirectoryMap]
  generalize (virt + off) % 2 ^ 32 = page at *
  by_cases beyond : pdindex page > s.pagingSize
  · rw [if_pos beyond] at returns ⊢
    cases returns
    rfl
  · rw [if_neg beyond] at returns ⊢
    by_cases empty : s.pagingDir (pdindex page) = 0
    · rw [if_pos empty] at returns ⊢
      cases returns
      rfl
    · rw [if_neg empty] at returns ⊢
      cases isTable : s.pagingDirectoryMap (pdindex page) with
      | none => simp [isTable] at returns
      | some table =>
          have isPage := sound.isPage isTable
          have word : s.paging.tables table (ptindex page) = s.word table (ptindex page) :=
            paging_tables isPage (ptindex_lt page)
          simp only [isTable] at returns
          simp only [word]
          split_ifs at returns ⊢
          · cases returns
            rw [paging_setWord isPage (ptindex_lt page) (by decide)]
          · cases returns
            rfl

theorem heapPagingUnmap_sound (sound : s.Sound)
    (returns : heapPagingUnmap s virt size = .ok (result, s')) : s'.Sound ∧ Leads s s' :=
  Stride.loop_leads Leads.refl Leads.trans
    (fun _ _ _ _ sound returns => heapPagingUnmapBody_sound sound returns) sound returns

theorem heapPagingUnmap_simulates (sound : s.Sound)
    (returns : heapPagingUnmap s virt size = .ok (result, s')) :
    pagingUnmap s.paging virt size = .ok (result, s'.paging) :=
  Stride.loop_simulates Leads.refl Leads.trans
    (fun _ _ _ _ sound returns => heapPagingUnmapBody_sound sound returns)
    (fun _ _ _ _ sound returns _ => heapPagingUnmapBody_simulates sound returns) sound returns

end Unmap

end Osserver
