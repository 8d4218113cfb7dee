import Osserver.Acpi.Search
import Osserver.Acpi.Window

/-!
# What the search for the root pointer finds

`FindsRsdp` says what `search_rsdp_bios` is for: it returns the lowest paragraph
of the BIOS area that holds a root pointer, and 0 when there is none. Since it
passes over the paragraphs with the signature, it does so only where there is no
root pointer and no other paragraph has a sum of 0, which is `BiosSearchable`.
-/

namespace Osserver

/-- A root pointer lies at `offset` of the BIOS area. -/
def RsdpAt (ram : ℕ → UInt8) (offset : ℕ) : Prop :=
  SignatureAt ram (0xE0000 + offset) ∧ byteSum (fun i => ram (0xE0000 + offset + i)) 20 % 256 = 0

/-- The search returns the window address of the lowest root pointer, or 0 with the
window removed when there is none. -/
structure FindsRsdp (alloc : ℕ → Option ℕ) (ram : ℕ → UInt8) (s : Paging) : Prop where
  found : ∀ k < 8192, RsdpAt ram (k * 16) → (∀ j < k, ¬RsdpAt ram (j * 16)) →
    ∃ s', searchRsdpBios alloc ram s = .ok (pagingDevmapStart + k * 16, s')
  notFound : (∀ k < 8192, ¬RsdpAt ram (k * 16)) →
    ∃ s', searchRsdpBios alloc ram s = .ok (0, s') ∧
      ∀ x < 0x20000, pagingGetPhysical s' (pagingDevmapStart + x) = .ok 0

/-- What the sum over the last paragraph reads when the entry behind the window is
`word`: four of the bytes come from the frame of that entry. -/
def lastParagraph (ram : ℕ → UInt8) (word i : ℕ) : UInt8 :=
  if i < 16 then ram (0xFFFF0 + i) else ram (frame word + (i - 16))

/-- The window can be mapped with the table of its slot, and there is neither a root
pointer in it nor a paragraph whose bytes sum to 0 by chance. -/
structure BiosSearchable (alloc : ℕ → Option ℕ) (ram : ℕ → UInt8) (s : Paging) : Prop where
  mappable : ∃ table, s.slotTable alloc 736 = some table ∧ ∀ i < 32, s.tables table i = 0
  sums : ∀ k < 8191, byteSum (fun i => ram (0xE0000 + k * 16 + i)) 20 % 256 ≠ 0
  lastSum : SignatureAt ram 0xFFFF0 → byteSum (fun i => ram (0xFFFF0 + i)) 20 % 256 ≠ 0
  lastRead : ¬SignatureAt ram 0xFFFF0 → ∀ table, s.slotTable alloc 736 = some table →
    s.tables table 32 % 2 = 1 ∧ byteSum (lastParagraph ram (s.tables table 32)) 20 % 256 ≠ 0

section Window

variable {alloc : ℕ → Option ℕ} {ram : ℕ → UInt8} {s s' : Paging} {phys table : ℕ}

theorem pagingDevmapStart_index {x : ℕ} (bounded : x < 2 ^ 22) :
    pdindex (pagingDevmapStart + x) = 736 ∧ ptindex (pagingDevmapStart + x) = x / 4096 ∧
      (pagingDevmapStart + x) % 4096 = x % 4096 := by
  have window : pagingDevmapStart = 0xB8000000 := rfl
  rw [pdindex, ptindex, window]
  refine ⟨?_, ?_, ?_⟩ <;> omega

/-- The window for the BIOS area takes 32 pages. -/
theorem passes_bios : Stride.passes 4096 0x20000 = 32 := rfl

theorem biosPage_index {k : ℕ} (inside : k < 32) :
    pdindex (pageAt pagingDevmapStart k) = 736 ∧ ptindex (pageAt pagingDevmapStart k) = k := by
  have window : pagingDevmapStart = 0xB8000000 := rfl
  rw [pdindex, ptindex, pageAt, window]
  constructor <;> omega

theorem readByte_present {virt : ℕ} (slot : s.pagingDir (pdindex virt) ≠ 0)
    (isTable : s.pagingDirectoryMap (pdindex virt) = some table)
    (present : s.tables table (ptindex virt) % 2 = 1) :
    readByte s ram virt = .ok (ram (frame (s.tables table (ptindex virt)) + virt % 4096)) := by
  rw [readByte, if_neg slot, isTable]
  simp only [present, if_true]

theorem readByte_absent {virt : ℕ} (isTable : s.pagingDirectoryMap (pdindex virt) = some table)
    (absent : s.tables table (ptindex virt) % 2 ≠ 1) :
    readByte s ram virt = .error .pageFault := by
  rw [readByte, isTable]
  simp only [absent, if_false, ite_self]

theorem pagingMapWord_present (phys flags off : ℕ) : pagingMapWord phys flags off % 2 = 1 := by
  rw [pagingMapWord, Nat.or_mod_two_eq_one]
  exact Or.inr rfl

/-- The window is open: its 32 pages are mapped, and the rest of its table is as before. -/
structure BiosWindow (table : ℕ) (s s' : Paging) : Prop where
  slot : s'.pagingDir 736 ≠ 0
  isTable : s'.pagingDirectoryMap 736 = some table
  mapped : ∀ k < 32, s'.tables table k = pagingMapWord 0xE0000 0 (k * 4096)
  behind : s'.tables table 32 = s.tables table 32

theorem BiosWindow.of_effect (effect : MapEffect alloc 0xE0000 pagingDevmapStart 0 0 32 s s')
    (isTable : s.slotTable alloc 736 = some table) : BiosWindow table s s' := by
  have slot := effect.slotTouched 0 (Nat.le_refl 0) (by omega)
  rw [(biosPage_index (Nat.zero_lt_succ _)).1, isTable] at slot
  refine ⟨slot.1, slot.2, ?_, ?_⟩
  · intro k inside
    rcases effect.written k (Nat.zero_le k) inside with ⟨written, isWritten, _, word⟩
    have index := biosPage_index inside
    rw [index.1, isTable] at isWritten
    cases isWritten
    rw [index.2] at word
    exact word
  · apply effect.kept
    rintro k _ inside ⟨_, atIndex⟩
    rw [(biosPage_index inside).2] at atIndex
    omega

theorem BiosWindow.reads (window : BiosWindow table s s') {x : ℕ} (inside : x < 0x20000) :
    readByte s' ram (pagingDevmapStart + x) = .ok (ram (0xE0000 + x)) := by
  have bounded : x < 2 ^ 22 := by omega
  rcases pagingDevmapStart_index bounded with ⟨atSlot, atIndex, inPage⟩
  have word := window.mapped (x / 4096) (by omega)
  rw [← atIndex] at word
  have slot := window.slot
  have isTable := window.isTable
  rw [← atSlot] at slot isTable
  have present : s'.tables table (ptindex (pagingDevmapStart + x)) % 2 = 1 := by
    rw [word]
    exact pagingMapWord_present _ _ _
  have place : frame ((0xE0000 + x / 4096 * 4096) % 2 ^ 32) + x % 4096 = 0xE0000 + x := by
    simp only [frame]
    omega
  rw [readByte_present slot isTable present, word, frame_pagingMapWord, inPage, atIndex, place]

theorem BiosWindow.reads_behind (window : BiosWindow table s s')
    (present : s.tables table 32 % 2 = 1) {x : ℕ} (fromEnd : 0x20000 ≤ x) (below : x < 0x21000) :
    readByte s' ram (pagingDevmapStart + x) =
      .ok (ram (frame (s.tables table 32) + (x - 0x20000))) := by
  have bounded : x < 2 ^ 22 := by omega
  have lastPage : x / 4096 = 32 := by omega
  have offset : x % 4096 = x - 0x20000 := by omega
  rcases pagingDevmapStart_index bounded with ⟨atSlot, atIndex, inPage⟩
  rw [lastPage] at atIndex
  have slot := window.slot
  have isTable := window.isTable
  rw [← atSlot] at slot isTable
  rw [← window.behind, ← atIndex] at present
  rw [readByte_present slot isTable present, atIndex, window.behind, inPage, offset]

theorem BiosWindow.fails_behind (window : BiosWindow table s s')
    (absent : s.tables table 32 % 2 ≠ 1) :
    readByte s' ram (pagingDevmapStart + 0x20000) = .error .pageFault := by
  have bounded : 0x20000 < 2 ^ 22 := by omega
  rcases pagingDevmapStart_index bounded with ⟨atSlot, atIndex, _⟩
  have lastPage : 32 = 0x20000 / 4096 := rfl
  have isTable := window.isTable
  rw [← atSlot] at isTable
  rw [← window.behind, lastPage, ← atIndex] at absent
  exact readByte_absent isTable absent

/-- A paragraph of the window is passed over when it has the signature, or when its
sum is not 0; the last paragraph is another matter. -/
theorem BiosWindow.skips_iff (window : BiosWindow table s s') {k : ℕ} (inside : k < 8191) :
    Skips (fun i => readByte s' ram (pagingDevmapStart + i)) (k * 16) ↔
      SignatureAt ram (0xE0000 + k * 16) ∨
        byteSum (fun i => ram (0xE0000 + k * 16 + i)) 20 % 256 ≠ 0 := by
  apply Osserver.skips_iff
  intro j inParagraph
  have inWindow : k * 16 + j < 0x20000 := by omega
  rw [window.reads inWindow, Nat.add_assoc]

theorem BiosWindow.skips_last_iff (window : BiosWindow table s s') :
    Skips (fun i => readByte s' ram (pagingDevmapStart + i)) (8191 * 16) ↔
      SignatureAt ram 0xFFFF0 ∨ (s.tables table 32 % 2 = 1 ∧
        byteSum (lastParagraph ram (s.tables table 32)) 20 % 256 ≠ 0) := by
  have sameStart : (∀ j < 8, lastParagraph ram (s.tables table 32) j = rsdpSignature j) ↔
      SignatureAt ram 0xFFFF0 := by
    apply forall₂_congr
    intro j inside
    rw [lastParagraph, if_pos (Nat.lt_trans inside (by omega))]
  have inWindow : ∀ j < 16, readByte s' ram (pagingDevmapStart + (8191 * 16 + j)) =
      .ok (lastParagraph ram (s.tables table 32) j) := by
    intro j inside
    have beforeEnd : 8191 * 16 + j < 0x20000 := by omega
    rw [window.reads beforeEnd, lastParagraph, if_pos inside, ← Nat.add_assoc]
  by_cases present : s.tables table 32 % 2 = 1
  · rw [← sameStart, and_iff_right present]
    apply Osserver.skips_iff
    intro j inside
    by_cases before : j < 16
    · exact inWindow j before
    · have fromEnd : 0x20000 ≤ 8191 * 16 + j := by omega
      have place : 8191 * 16 + j - 0x20000 = j - 16 := by omega
      rw [window.reads_behind present fromEnd (by omega), lastParagraph, if_neg before, place]
  · rw [← sameStart, or_iff_left (fun behind => present behind.1)]
    exact Osserver.skips_iff_of_fails inWindow (window.fails_behind present)

end Window

section Result

variable {alloc : ℕ → Option ℕ} {ram : ℕ → UInt8} {s s' : Paging} {address table : ℕ}

theorem searchRsdpBios_ok (returns : searchRsdpBios alloc ram s = .ok (address, s')) :
    ∃ mapped, pagingMap alloc s 0xE0000 pagingDevmapStart 0x20000 0 = .ok (true, mapped) ∧
      ((∃ offset, address = pagingDevmapStart + offset ∧
          searchRsdpLoop (fun i => readByte mapped ram (pagingDevmapStart + i)) 8192 0 =
            .ok (some offset)) ∨
        (address = 0 ∧
          searchRsdpLoop (fun i => readByte mapped ram (pagingDevmapStart + i)) 8192 0 =
            .ok none)) := by
  rw [searchRsdpBios] at returns
  split at returns
  · cases returns
  · cases returns
  · rename_i mapped maps
    refine ⟨mapped, maps, ?_⟩
    split at returns
    · cases returns
    · rename_i offset finds
      cases returns
      exact Or.inl ⟨offset, rfl, finds⟩
    · rename_i findsNone
      split at returns
      · cases returns
      · cases returns
      · cases returns
        exact Or.inr ⟨rfl, findsNone⟩

theorem biosWindow_of_maps
    (maps : pagingMap alloc s 0xE0000 pagingDevmapStart 0x20000 0 = .ok (true, s')) :
    ∃ table, s.slotTable alloc 736 = some table ∧ (∀ i < 32, s.tables table i = 0) ∧
      BiosWindow table s s' := by
  have effect := pagingMap_effect (by omega) maps
  rw [passes_bios] at effect
  have slot : ∀ k < 32, ∃ table, s.slotTable alloc 736 = some table ∧ s.tables table k = 0 := by
    intro k inside
    rcases effect.written k (Nat.zero_le k) inside with ⟨table, isTable, free, _⟩
    have index := biosPage_index inside
    rw [index.1] at isTable
    rw [index.2] at free
    exact ⟨table, isTable, free⟩
  rcases slot 0 (by omega) with ⟨table, isTable, _⟩
  refine ⟨table, isTable, ?_, BiosWindow.of_effect effect isTable⟩
  intro k inside
  rcases slot k inside with ⟨other, isOther, free⟩
  rw [isTable] at isOther
  cases isOther
  exact free

/-- The search never returns a paragraph with the signature. -/
theorem searchRsdpBios_not_signature {k : ℕ} (inside : k < 8192)
    (returns : searchRsdpBios alloc ram s = .ok (pagingDevmapStart + k * 16, s')) :
    ¬SignatureAt ram (0xE0000 + k * 16) := by
  intro signature
  rcases searchRsdpBios_ok returns with
    ⟨mapped, maps, ⟨offset, isAddress, finds⟩ | ⟨isZero, _⟩⟩
  · rw [Nat.add_left_cancel_iff] at isAddress
    rcases searchRsdpLoop_some finds with ⟨_, _, _, compared⟩
    rw [← isAddress] at compared
    rcases biosWindow_of_maps maps with ⟨table, _, _, window⟩
    have reads : ∀ j < 8, readByte mapped ram (pagingDevmapStart + (k * 16 + j)) =
        .ok (ram (0xE0000 + k * 16 + j)) := by
      intro j inSignature
      have inWindow : k * 16 + j < 0x20000 := by omega
      rw [window.reads inWindow, Nat.add_assoc]
    rcases memcmp_of_reads rsdpSignature reads with ⟨equal, _⟩ | ⟨_, differs⟩
    · rw [compared] at equal
      cases equal
    · exact differs signature
  · have positive : 0 < pagingDevmapStart + k * 16 := Nat.add_pos_left (by decide) _
    rw [isZero] at positive
    exact Nat.lt_irrefl 0 positive

theorem FindsRsdp.searchable (finds : FindsRsdp alloc ram s) : BiosSearchable alloc ram s := by
  have none : ∀ k < 8192, ¬RsdpAt ram (k * 16) := by
    intro k
    induction k using Nat.strong_induction_on with
    | _ k lower =>
        intro inside isRsdp
        rcases finds.found k inside isRsdp
          (fun j before => lower j before (Nat.lt_trans before inside)) with ⟨s', returns⟩
        exact searchRsdpBios_not_signature inside returns isRsdp.1
  rcases finds.notFound none with ⟨s', returns, _⟩
  rcases searchRsdpBios_ok returns with
    ⟨mapped, maps, ⟨offset, isAddress, _⟩ | ⟨_, findsNone⟩⟩
  · have positive : 0 < pagingDevmapStart + offset := Nat.add_pos_left (by decide) _
    rw [← isAddress] at positive
    exact (Nat.lt_irrefl 0 positive).elim
  · rcases biosWindow_of_maps maps with ⟨table, isTable, free, window⟩
    have skips := searchRsdpLoop_none_iff.mp findsNone
    simp only [Nat.zero_add] at skips
    refine ⟨⟨table, isTable, free⟩, ?_, ?_, ?_⟩
    · intro k inside sum
      rcases (window.skips_iff inside).mp (skips k (Nat.lt_succ_of_lt inside)) with
        signature | nonzero
      · exact none k (Nat.lt_succ_of_lt inside) ⟨signature, sum⟩
      · exact nonzero sum
    · intro signature sum
      exact none 8191 (by omega) ⟨signature, sum⟩
    · intro noSignature other isOther
      rw [isTable] at isOther
      cases isOther
      exact (window.skips_last_iff.mp (skips 8191 (by omega))).resolve_left noSignature

theorem BiosSearchable.maps (configured : s.Configured) (heapPages : HeapPages alloc)
    (searchable : BiosSearchable alloc ram s) :
    ∃ mapped, pagingMap alloc s 0xE0000 pagingDevmapStart 0x20000 0 = .ok (true, mapped) := by
  rcases searchable.mappable with ⟨table, isTable, free⟩
  have index := @biosPage_index
  apply pagingMap_complete (by omega)
  rw [passes_bios]
  refine ⟨?_, ?_, ?_, ?_⟩
  · intro k inside
    rw [(index inside).1, configured.size]
    decide
  · intro k inside
    rw [(index inside).1, (index inside).2]
    exact ⟨table, isTable, free k inside⟩
  · intro j k before inside other _ writes
    have same := writes.2
    rw [(index (Nat.lt_trans before inside)).2, (index inside).2] at same
    exact Nat.ne_of_lt before same
  · intro slot page allocated
    rw [configured.start]
    exact heapPages.slot_high allocated

theorem biosWindow_unmaps (configured : s.Configured)
    (effect : MapEffect alloc 0xE0000 pagingDevmapStart 0 0 32 s s')
    (window : BiosWindow table s s') :
    ∃ unmapped, pagingUnmap s' pagingDevmapStart 0x20000 = .ok (true, unmapped) ∧
      ∀ x < 0x20000, pagingGetPhysical unmapped (pagingDevmapStart + x) = .ok 0 := by
  have hasTable : s'.pagingDirectoryMap 736 ≠ none := by
    rw [window.isTable]
    exact Option.some_ne_none table
  have unmaps : ∃ unmapped, pagingUnmap s' pagingDevmapStart 0x20000 = .ok (true, unmapped) := by
    apply pagingUnmap_complete (by omega)
    · intro k inside
      rw [(biosPage_index inside).1, effect.sameSize, configured.size]
      decide
    · intro k inside _
      rw [(biosPage_index inside).1]
      exact hasTable
  rcases unmaps with ⟨unmapped, clears⟩
  refine ⟨unmapped, clears, ?_⟩
  have cleared := pagingUnmap_effect (by omega) clears
  intro x inside
  have bounded : x < 2 ^ 22 := by omega
  rcases pagingDevmapStart_index bounded with ⟨atSlot, atIndex, _⟩
  have pageInside : x / 4096 < 32 := by omega
  have page := biosPage_index pageInside
  apply cleared.translates (Nat.zero_le _) pageInside
  · apply page_of_index
    · rw [atSlot, page.1]
    · rw [atIndex, page.2]
  · rw [atSlot, effect.sameStart, configured.start]
    decide
  · intro _
    rw [atSlot]
    exact hasTable

theorem BiosSearchable.finds (configured : s.Configured) (heapPages : HeapPages alloc)
    (searchable : BiosSearchable alloc ram s) : FindsRsdp alloc ram s := by
  have none : ∀ k < 8192, ¬RsdpAt ram (k * 16) := by
    rintro k inside ⟨signature, sum⟩
    rcases Nat.lt_succ_iff_lt_or_eq.mp inside with before | rfl
    · exact searchable.sums k before sum
    · exact searchable.lastSum signature sum
  refine ⟨fun k inside isRsdp => (none k inside isRsdp).elim, fun _ => ?_⟩
  rcases searchable.maps configured heapPages with ⟨mapped, maps⟩
  rcases biosWindow_of_maps maps with ⟨table, isTable, _, window⟩
  have skips : ∀ k < 8192,
      Skips (fun i => readByte mapped ram (pagingDevmapStart + i)) (0 + k * 16) := by
    intro k inside
    rw [Nat.zero_add]
    rcases Nat.lt_succ_iff_lt_or_eq.mp inside with before | rfl
    · exact (window.skips_iff before).mpr (Or.inr (searchable.sums k before))
    · apply window.skips_last_iff.mpr
      by_cases signature : SignatureAt ram 0xFFFF0
      · exact Or.inl signature
      · exact Or.inr (searchable.lastRead signature table isTable)
  have findsNone := searchRsdpLoop_none_iff.mpr skips
  rcases biosWindow_unmaps configured (pagingMap_effect (by omega) maps) window with
    ⟨unmapped, clears, untranslated⟩
  refine ⟨unmapped, ?_, untranslated⟩
  rw [searchRsdpBios, maps]
  simp only [findsNone, clears]

end Result

/-- The search finds what it is meant to find exactly when there is nothing to find
and no paragraph that it takes for a root pointer. -/
theorem searchRsdpBios_finds_iff {alloc : ℕ → Option ℕ} {ram : ℕ → UInt8} {s : Paging}
    (configured : s.Configured) (heapPages : HeapPages alloc) :
    FindsRsdp alloc ram s ↔ BiosSearchable alloc ram s :=
  ⟨fun finds => finds.searchable, fun searchable => searchable.finds configured heapPages⟩

theorem heapPages_heapPageOf : HeapPages heapPageOf := by
  intro slot table allocated
  cases allocated
  exact Nat.le_add_right _ _

/-- There is nothing to find in a memory of ones, and its paragraphs sum to 20. -/
theorem searchRsdpBios_finds_iff_ones :
    FindsRsdp heapPageOf (fun _ => 1) (kernelPremainPaging 0x200000 0x100000 (fun _ => 0)
      (fun _ index => if index = 32 then 0x1003 else 0)) := by
  apply (searchRsdpBios_finds_iff ⟨rfl, rfl⟩ heapPages_heapPageOf).mpr
  refine ⟨⟨0xC0800000 + 736 * 4096, ?_, ?_⟩, fun _ _ => by decide, fun _ => by decide, ?_⟩
  · exact slotTable_kernelPremainPaging _ _ _ _ _ (by omega)
  · intro i inside
    exact if_neg (Nat.ne_of_lt inside)
  · intro _ table _
    have behind : (kernelPremainPaging 0x200000 0x100000 (fun _ => 0)
        (fun _ index => if index = 32 then 0x1003 else 0)).tables table 32 = 0x1003 := rfl
    rw [behind]
    decide

/-- In a memory of zeros the search returns the first paragraph. -/
theorem searchRsdpBios_zeros :
    ∃ s', searchRsdpBios heapPageOf (fun _ => 0)
        (kernelPremainPaging 0x200000 0x100000 (fun _ => 0) (fun _ _ => 0)) =
          .ok (pagingDevmapStart, s') ∧
      ∀ k < 8192, ¬RsdpAt (fun _ => 0) (k * 16) := by
  have belowKernel : pagingDevmapStart + Stride.passes 4096 0x20000 * 4096 ≤ 0xC0000000 := by decide
  rcases pagingMap_complete (by decide) (Blank.init.ready belowKernel) with ⟨mapped, maps⟩
  rcases biosWindow_of_maps maps with ⟨table, _, _, window⟩
  have reads : ∀ j < 20, readByte mapped (fun _ => 0) (pagingDevmapStart + (0 + j)) = .ok 0 := by
    intro j inside
    rw [Nat.zero_add]
    exact window.reads (Nat.lt_trans inside (by omega))
  have noSignature : ∀ address, ¬SignatureAt (fun _ => 0) address := by
    intro address signature
    have first : 0 = rsdpSignature 0 := signature 0 (by omega)
    exact absurd first (by decide)
  have stops : searchRsdpLoop (fun i => readByte mapped (fun _ => 0) (pagingDevmapStart + i))
      8192 0 = .ok (some 0) := by
    have passes : 8192 = 8191 + 1 := rfl
    rw [passes, searchRsdpLoop]
    rcases @checkRsdp_of_reads _ (fun _ => 0) reads with ⟨sum, summed, isSum⟩
    have zero : sum = 0 := UInt8.toNat_inj.mp isSum
    rcases @memcmp_of_reads _ (fun _ => 0) rsdpSignature 8
        (fun j inside => reads j (Nat.lt_trans inside (by omega))) with ⟨_, same⟩ | ⟨compared, _⟩
    · exact absurd same (noSignature 0)
    · simp only [compared, summed, zero]
      rfl
  refine ⟨mapped, ?_, fun k _ isRsdp => noSignature _ isRsdp.1⟩
  rw [searchRsdpBios, maps]
  simp [stops]

end Osserver
