import Osserver.Paging.Basic
import Mathlib.Data.Nat.Bitwise

/-!
# What mapping a range does

`MapEffect` says what passes `first` to `last - 1` of `paging_map` do when all of
them go on: which tables are entered, which entries are written, and that
nothing else changes. One pass has this effect, and effects compose, so the call
has it. `MapReady` is the converse condition under which a call returns true.

The notion that stays the same along a call is `slotTable`, the table a
directory slot has once a page below it is mapped.
-/

namespace Osserver

theorem or_ne_zero (left : ℕ) {right : ℕ} (nonzero : right ≠ 0) : left ||| right ≠ 0 := by
  intro zero
  exact nonzero (Nat.or_eq_zero_iff.mp zero).2

theorem pagingMapWord_ne_zero (phys flags off : ℕ) : pagingMapWord phys flags off ≠ 0 :=
  or_ne_zero _ (by omega)

theorem frame_or_small (word : ℕ) {bits : ℕ} (small : bits < 4096) :
    frame (word ||| bits) = frame word := by
  have shifted : (word ||| bits) / 2 ^ 12 = word / 2 ^ 12 ||| bits / 2 ^ 12 := Nat.or_div_two_pow ..
  have none : bits / 2 ^ 12 = 0 := Nat.div_eq_of_lt small
  rw [none, Nat.or_zero] at shifted
  rw [frame, frame]
  exact congrArg (· * 4096) shifted

/-- The page a call with `virt` comes to in pass `k`. -/
def pageAt (virt k : ℕ) : ℕ :=
  (virt + k * 4096) % 2 ^ 32

theorem pageAt_eq (virt k : ℕ) : (virt + k * 4096) % 2 ^ 32 = pageAt virt k :=
  rfl

namespace Paging

variable {s : Paging} {slot word table index : ℕ}

@[simp]
theorem setSlot_pagingSize : (s.setSlot slot word table).pagingSize = s.pagingSize :=
  rfl

@[simp]
theorem setSlot_higherPages : (s.setSlot slot word table).higherPages = s.higherPages :=
  rfl

@[simp]
theorem setSlot_higherPagesStart :
    (s.setSlot slot word table).higherPagesStart = s.higherPagesStart :=
  rfl

@[simp]
theorem setSlot_tables : (s.setSlot slot word table).tables = s.tables :=
  rfl

@[simp]
theorem setSlot_pagingDir :
    (s.setSlot slot word table).pagingDir = Function.update s.pagingDir slot word :=
  rfl

@[simp]
theorem setSlot_pagingDirectoryMap : (s.setSlot slot word table).pagingDirectoryMap =
    Function.update s.pagingDirectoryMap slot (some table) :=
  rfl

@[simp]
theorem setEntry_pagingSize : (s.setEntry table index word).pagingSize = s.pagingSize :=
  rfl

@[simp]
theorem setEntry_higherPages : (s.setEntry table index word).higherPages = s.higherPages :=
  rfl

@[simp]
theorem setEntry_higherPagesStart :
    (s.setEntry table index word).higherPagesStart = s.higherPagesStart :=
  rfl

@[simp]
theorem setEntry_pagingDir : (s.setEntry table index word).pagingDir = s.pagingDir :=
  rfl

@[simp]
theorem setEntry_pagingDirectoryMap :
    (s.setEntry table index word).pagingDirectoryMap = s.pagingDirectoryMap :=
  rfl

@[simp]
theorem setEntry_tables_self : (s.setEntry table index word).tables table index = word := by
  simp [setEntry]

theorem setEntry_tables_other {otherTable otherIndex : ℕ}
    (different : ¬(otherTable = table ∧ otherIndex = index)) :
    (s.setEntry table index word).tables otherTable otherIndex = s.tables otherTable otherIndex := by
  by_cases sameTable : otherTable = table
  · subst otherTable
    have otherIndex : otherIndex ≠ index := fun same => different ⟨rfl, same⟩
    simp [setEntry, otherIndex]
  · simp [setEntry, sameTable]

/-- The table a slot has once a page below it is mapped. -/
def slotTable (s : Paging) (alloc : ℕ → Option ℕ) (slot : ℕ) : Option ℕ :=
  if s.pagingDir slot = 0 then alloc slot else s.pagingDirectoryMap slot

/-- Pass `k` of a call with `virt` writes the entry `index` of `table`. -/
def Writes (s : Paging) (alloc : ℕ → Option ℕ) (virt k table index : ℕ) : Prop :=
  s.slotTable alloc (pdindex (pageAt virt k)) = some table ∧ ptindex (pageAt virt k) = index

end Paging

/-- What `pagingMapTable` does: nothing to a slot that has an entry; otherwise it
enters the page the allocator answers with. -/
theorem pagingMapTable_cases {alloc : ℕ → Option ℕ} {s s' : Paging} {slot : ℕ}
    (returns : pagingMapTable alloc s slot = .ok s') :
    (s.pagingDir slot ≠ 0 ∧ s' = s) ∨
      (s.pagingDir slot = 0 ∧ ∃ table phys, alloc slot = some table ∧
        pagingGetPhysical s table = .ok phys ∧ s' = s.setSlot slot (phys ||| 3) table) := by
  simp only [pagingMapTable] at returns
  split_ifs at returns with empty
  · right
    refine ⟨empty, ?_⟩
    split at returns
    · cases returns
    · rename_i table allocated
      split at returns
      · cases returns
      · rename_i phys translated
        cases returns
        exact ⟨table, phys, allocated, translated, rfl⟩
  · cases returns
    exact Or.inl ⟨empty, rfl⟩

theorem pagingMapTable_slot {alloc : ℕ → Option ℕ} {s s' : Paging} {slot : ℕ}
    (returns : pagingMapTable alloc s slot = .ok s') :
    s'.pagingDir slot ≠ 0 ∧ s'.pagingDirectoryMap slot = s.slotTable alloc slot ∧
      s'.tables = s.tables := by
  rcases pagingMapTable_cases returns with ⟨present, rfl⟩ | ⟨empty, table, phys, allocated, _, rfl⟩
  · simp [Paging.slotTable, present]
  · have word : phys ||| 3 ≠ 0 := or_ne_zero phys (by omega)
    simp [Paging.slotTable, empty, allocated, word]

theorem pagingMapBody_true {alloc : ℕ → Option ℕ} {phys virt flags k : ℕ} {s s' : Paging}
    (goesOn : pagingMapBody alloc phys virt flags (k * 4096) s = .ok (true, s')) :
    pdindex (pageAt virt k) ≤ s.pagingSize ∧ ∃ middle table,
      pagingMapTable alloc s (pdindex (pageAt virt k)) = .ok middle ∧
        middle.pagingDirectoryMap (pdindex (pageAt virt k)) = some table ∧
          middle.tables table (ptindex (pageAt virt k)) = 0 ∧
            s' = middle.setEntry table (ptindex (pageAt virt k))
              (pagingMapWord phys flags (k * 4096)) := by
  rw [pagingMapBody, pageAt_eq] at goesOn
  split_ifs at goesOn with beyond
  · cases goesOn
  · refine ⟨Nat.le_of_not_gt beyond, ?_⟩
    split at goesOn
    · cases goesOn
    · rename_i middle entered
      split at goesOn
      · cases goesOn
      · rename_i table hasTable
        split_ifs at goesOn with occupied
        · cases goesOn
        · cases goesOn
          exact ⟨middle, table, entered, hasTable, not_not.mp occupied, rfl⟩

/-- The passes `first` to `last - 1` of `paging_map` have been made and went on. -/
structure MapEffect (alloc : ℕ → Option ℕ) (phys virt flags first last : ℕ) (s s' : Paging) :
    Prop where
  sameSize : s'.pagingSize = s.pagingSize
  sameHigher : s'.higherPages = s.higherPages
  sameStart : s'.higherPagesStart = s.higherPagesStart
  accepted : ∀ k, first ≤ k → k < last → pdindex (pageAt virt k) ≤ s.pagingSize
  slotKept : ∀ slot, s.pagingDir slot ≠ 0 →
    s'.pagingDir slot = s.pagingDir slot ∧ s'.pagingDirectoryMap slot = s.pagingDirectoryMap slot
  slotUntouched : ∀ slot, (∀ k, first ≤ k → k < last → pdindex (pageAt virt k) ≠ slot) →
    s'.pagingDir slot = s.pagingDir slot ∧ s'.pagingDirectoryMap slot = s.pagingDirectoryMap slot
  slotTouched : ∀ k, first ≤ k → k < last → s'.pagingDir (pdindex (pageAt virt k)) ≠ 0 ∧
    s'.pagingDirectoryMap (pdindex (pageAt virt k)) = s.slotTable alloc (pdindex (pageAt virt k))
  written : ∀ k, first ≤ k → k < last → ∃ table,
    s.slotTable alloc (pdindex (pageAt virt k)) = some table ∧
      s.tables table (ptindex (pageAt virt k)) = 0 ∧
        s'.tables table (ptindex (pageAt virt k)) = pagingMapWord phys flags (k * 4096)
  kept : ∀ table index, (∀ k, first ≤ k → k < last → ¬s.Writes alloc virt k table index) →
    s'.tables table index = s.tables table index

namespace MapEffect

variable {alloc : ℕ → Option ℕ} {phys virt flags first middle last : ℕ} {s t u : Paging}

theorem slotTable_eq (effect : MapEffect alloc phys virt flags first last s t) (slot : ℕ) :
    t.slotTable alloc slot = s.slotTable alloc slot := by
  by_cases touched : ∃ k, first ≤ k ∧ k < last ∧ pdindex (pageAt virt k) = slot
  · rcases touched with ⟨k, low, high, rfl⟩
    have entry := effect.slotTouched k low high
    rw [Paging.slotTable, if_neg entry.1]
    exact entry.2
  · have same := effect.slotUntouched slot
      (fun k low high atSlot => touched ⟨k, low, high, atSlot⟩)
    simp only [Paging.slotTable, same]

theorem writes_iff (effect : MapEffect alloc phys virt flags first last s t) (k table index : ℕ) :
    t.Writes alloc virt k table index ↔ s.Writes alloc virt k table index := by
  simp only [Paging.Writes, effect.slotTable_eq]

theorem of_pass {k : ℕ}
    (goesOn : pagingMapBody alloc phys virt flags (k * 4096) s = .ok (true, t)) :
    MapEffect alloc phys virt flags k (k + 1) s t := by
  have onlyPass : ∀ j, k ≤ j → j < k + 1 → j = k := fun j low high => by omega
  rcases pagingMapBody_true goesOn with ⟨inside, entered, table, tableReturns, hasTable, free, rfl⟩
  have slot := pagingMapTable_slot tableReturns
  rw [hasTable] at slot
  have others : entered.pagingSize = s.pagingSize ∧ entered.higherPages = s.higherPages ∧
      entered.higherPagesStart = s.higherPagesStart ∧
        (∀ other, s.pagingDir other ≠ 0 ∨ pdindex (pageAt virt k) ≠ other →
          entered.pagingDir other = s.pagingDir other ∧
            entered.pagingDirectoryMap other = s.pagingDirectoryMap other) := by
    rcases pagingMapTable_cases tableReturns with
      ⟨_, rfl⟩ | ⟨empty, _, _, _, _, rfl⟩
    · exact ⟨rfl, rfl, rfl, fun _ _ => ⟨rfl, rfl⟩⟩
    · refine ⟨rfl, rfl, rfl, ?_⟩
      intro other elsewhere
      have different : other ≠ pdindex (pageAt virt k) := by
        rintro rfl
        rcases elsewhere with present | different
        · exact present empty
        · exact different rfl
      simp [different]
  rcases others with ⟨sameSize, sameHigher, sameStart, sameSlots⟩
  refine ⟨sameSize, sameHigher, sameStart, ?_, ?_, ?_, ?_, ?_, ?_⟩
  · intro j low high
    rw [onlyPass j low high]
    exact inside
  · intro other present
    exact sameSlots other (Or.inl present)
  · intro other untouched
    exact sameSlots other (Or.inr (untouched k (Nat.le_refl k) (Nat.lt_succ_self k)))
  · intro j low high
    rw [onlyPass j low high]
    exact ⟨slot.1, hasTable.trans slot.2.1⟩
  · intro j low high
    rw [onlyPass j low high]
    refine ⟨table, slot.2.1.symm, ?_, ?_⟩
    · rw [← slot.2.2]
      exact free
    · exact Paging.setEntry_tables_self
  · intro otherTable otherIndex notWritten
    rw [← slot.2.2]
    apply Paging.setEntry_tables_other
    rintro ⟨rfl, rfl⟩
    exact notWritten k (Nat.le_refl k) (Nat.lt_succ_self k) ⟨slot.2.1.symm, rfl⟩

theorem not_writes_of_written (effect : MapEffect alloc phys virt flags first last s t)
    {j k table : ℕ} (low : first ≤ k) (high : k < last)
    (occupied : s.tables table (ptindex (pageAt virt j)) ≠ 0) :
    ¬s.Writes alloc virt k table (ptindex (pageAt virt j)) := by
  rintro ⟨sameTable, sameIndex⟩
  rcases effect.written k low high with ⟨written, isWritten, free, _⟩
  rw [sameTable] at isWritten
  cases isWritten
  rw [sameIndex] at free
  exact occupied free

theorem compose (firstMiddle : first ≤ middle) (middleLast : middle ≤ last)
    (before : MapEffect alloc phys virt flags first middle s t)
    (after : MapEffect alloc phys virt flags middle last t u) :
    MapEffect alloc phys virt flags first last s u := by
  have split : ∀ k, first ≤ k → k < last → (first ≤ k ∧ k < middle) ∨ (middle ≤ k ∧ k < last) := by
    intro k low high
    omega
  refine ⟨after.sameSize.trans before.sameSize, after.sameHigher.trans before.sameHigher,
    after.sameStart.trans before.sameStart, ?_, ?_, ?_, ?_, ?_, ?_⟩
  · intro k low high
    rcases split k low high with inBefore | inAfter
    · exact before.accepted k inBefore.1 inBefore.2
    · rw [← before.sameSize]
      exact after.accepted k inAfter.1 inAfter.2
  · intro slot present
    have keptBefore := before.slotKept slot present
    rw [← keptBefore.1] at present
    have keptAfter := after.slotKept slot present
    exact ⟨keptAfter.1.trans keptBefore.1, keptAfter.2.trans keptBefore.2⟩
  · intro slot untouched
    have sameBefore := before.slotUntouched slot
      (fun k low high => untouched k low (Nat.lt_of_lt_of_le high middleLast))
    have sameAfter := after.slotUntouched slot
      (fun k low high => untouched k (Nat.le_trans firstMiddle low) high)
    exact ⟨sameAfter.1.trans sameBefore.1, sameAfter.2.trans sameBefore.2⟩
  · intro k low high
    rcases split k low high with inBefore | inAfter
    · have touched := before.slotTouched k inBefore.1 inBefore.2
      have kept := after.slotKept _ touched.1
      rw [kept.1, kept.2]
      exact touched
    · have touched := after.slotTouched k inAfter.1 inAfter.2
      rw [before.slotTable_eq] at touched
      exact touched
  · intro k low high
    rcases split k low high with inBefore | inAfter
    · rcases before.written k inBefore.1 inBefore.2 with ⟨table, isTable, free, written⟩
      refine ⟨table, isTable, free, ?_⟩
      rw [← written]
      apply after.kept
      intro j lowAfter highAfter
      apply after.not_writes_of_written lowAfter highAfter
      rw [written]
      apply pagingMapWord_ne_zero
    · rcases after.written k inAfter.1 inAfter.2 with ⟨table, isTable, free, written⟩
      rw [before.slotTable_eq] at isTable
      refine ⟨table, isTable, ?_, written⟩
      rw [← before.kept table (ptindex (pageAt virt k))]
      · exact free
      · rintro j lowBefore highBefore ⟨sameTable, sameIndex⟩
        rcases before.written j lowBefore highBefore with ⟨other, isOther, _, occupied⟩
        rw [sameTable] at isOther
        cases isOther
        rw [sameIndex] at occupied
        rw [occupied] at free
        exact pagingMapWord_ne_zero _ _ _ free
  · intro table index notWritten
    have keptAfter := after.kept table index (fun k low high => by
      rw [before.writes_iff]
      exact notWritten k (Nat.le_trans firstMiddle low) high)
    have keptBefore := before.kept table index
      (fun k low high => notWritten k low (Nat.lt_of_lt_of_le high middleLast))
    exact keptAfter.trans keptBefore

end MapEffect

theorem pagingMap_effect {alloc : ℕ → Option ℕ} {phys virt size flags : ℕ} {s s' : Paging}
    (unwrapped : size + 4096 ≤ 2 ^ 32)
    (returns : pagingMap alloc s phys virt size flags = .ok (true, s')) :
    MapEffect alloc phys virt flags 0 (Stride.passes 4096 size) s s' := by
  have start : pagingMap alloc s phys virt size flags =
      Stride.loop .endlessLoop (pagingMapBody alloc phys virt flags) 4096 (2 ^ 32) size
        (2 ^ 20 + 1) (0 * 4096) s := by
    rw [Nat.zero_mul]
    rfl
  rw [start] at returns
  apply Stride.loop_effect (by omega) (by omega) unwrapped _ _ (Stride.passes_pos 4096 size) returns
  · intro k s s' _ goesOn
    exact MapEffect.of_pass goesOn
  · intro first middle last s t u firstMiddle middleLast before after
    exact before.compose firstMiddle middleLast after

/-- A call of `paging_map` can map all its `passes`: every page is accepted and free,
no two of them share an entry, and the allocator answers with heap pages, whose
addresses `paging_get_physical` takes from `higher_pages`. -/
structure MapReady (alloc : ℕ → Option ℕ) (virt passes : ℕ) (s : Paging) : Prop where
  accepted : ∀ k < passes, pdindex (pageAt virt k) ≤ s.pagingSize
  free : ∀ k < passes, ∃ table, s.slotTable alloc (pdindex (pageAt virt k)) = some table ∧
    s.tables table (ptindex (pageAt virt k)) = 0
  distinct : ∀ j k, j < k → k < passes → ∀ table,
    s.slotTable alloc (pdindex (pageAt virt k)) = some table →
      ¬s.Writes alloc virt j table (ptindex (pageAt virt k))
  heap : ∀ slot table, alloc slot = some table → s.higherPagesStart ≤ pdindex table

namespace MapEffect

variable {alloc : ℕ → Option ℕ} {phys virt flags first last : ℕ} {s t : Paging}

theorem refl (s : Paging) : MapEffect alloc phys virt flags first first s s := by
  have empty : ∀ k, first ≤ k → k < first → False := fun k low high => by omega
  refine ⟨rfl, rfl, rfl, ?_, fun _ _ => ⟨rfl, rfl⟩, fun _ _ => ⟨rfl, rfl⟩, ?_, ?_, fun _ _ _ => rfl⟩
  · intro k low high
    exact (empty k low high).elim
  · intro k low high
    exact (empty k low high).elim
  · intro k low high
    exact (empty k low high).elim

end MapEffect

theorem pagingMapTable_ok {alloc : ℕ → Option ℕ} {s : Paging} {slot table : ℕ}
    (isTable : s.slotTable alloc slot = some table)
    (heap : ∀ slot table, alloc slot = some table → s.higherPagesStart ≤ pdindex table) :
    ∃ s', pagingMapTable alloc s slot = .ok s' := by
  by_cases empty : s.pagingDir slot = 0
  · rw [Paging.slotTable, if_pos empty] at isTable
    have high := heap slot table isTable
    simp only [pagingMapTable, if_pos empty, isTable, pagingGetPhysical, ge_iff_le, if_pos high]
    exact ⟨_, rfl⟩
  · exact ⟨s, if_neg empty⟩

theorem MapReady.pass {alloc : ℕ → Option ℕ} {phys virt flags passes k : ℕ} {s t : Paging}
    (ready : MapReady alloc virt passes s) (inside : k < passes)
    (mapped : MapEffect alloc phys virt flags 0 k s t) :
    ∃ u, pagingMapBody alloc phys virt flags (k * 4096) t = .ok (true, u) := by
  rcases ready.free k inside with ⟨table, isTable, free⟩
  have accepted : ¬pdindex (pageAt virt k) > t.pagingSize := by
    rw [mapped.sameSize]
    exact Nat.not_lt.mpr (ready.accepted k inside)
  have stillTable : t.slotTable alloc (pdindex (pageAt virt k)) = some table := by
    rw [mapped.slotTable_eq]
    exact isTable
  have stillFree : t.tables table (ptindex (pageAt virt k)) = 0 := by
    rw [mapped.kept table _ (fun j _ below => ready.distinct j k below inside table isTable)]
    exact free
  have stillHeap : ∀ slot table, alloc slot = some table → t.higherPagesStart ≤ pdindex table := by
    rw [mapped.sameStart]
    exact ready.heap
  rcases pagingMapTable_ok stillTable stillHeap with ⟨entered, enters⟩
  have slot := pagingMapTable_slot enters
  rw [stillTable] at slot
  rw [pagingMapBody, pageAt_eq, if_neg accepted, enters]
  simp only [slot, stillFree, ne_eq, not_true_eq_false, if_false]
  exact ⟨_, rfl⟩

/-- A call that can map all its pages does. -/
theorem pagingMap_complete {alloc : ℕ → Option ℕ} {phys virt size flags : ℕ} {s : Paging}
    (unwrapped : size + 4096 ≤ 2 ^ 32)
    (ready : MapReady alloc virt (Stride.passes 4096 size) s) :
    ∃ s', pagingMap alloc s phys virt size flags = .ok (true, s') := by
  have enough : Stride.passes 4096 size ≤ 0 + (2 ^ 20 + 1) := by
    simp only [Stride.passes]
    omega
  have start : MapEffect alloc phys virt flags 0 0 s s := MapEffect.refl s
  have ends := @Stride.loop_complete Paging Halt .endlessLoop
    (pagingMapBody alloc phys virt flags) 4096 (2 ^ 32) size (2 ^ 20 + 1) s 0
    (fun k t => MapEffect alloc phys virt flags 0 k s t) (by omega) (by omega) unwrapped ?_
    (Stride.passes_pos 4096 size) enough start
  · rcases ends with ⟨s', returns, _⟩
    rw [Nat.zero_mul] at returns
    exact ⟨s', returns⟩
  · intro k t inside mapped
    rcases ready.pass inside mapped with ⟨u, goesOn⟩
    exact ⟨u, goesOn, mapped.compose (Nat.zero_le k) (Nat.le_succ k) (MapEffect.of_pass goesOn)⟩

end Osserver
