import Osserver.Paging.Translation

/-!
# What unmapping a range does

`paging_unmap` clears the entries of the pages of its range and changes nothing
else: `UnmapEffect` for passes `first` to `last - 1`. It is not stopped by a
page that is not mapped, so it returns true as soon as every page of the range
is accepted and no slot of the range lacks a table.
-/

namespace Osserver

namespace Paging

/-- Pass `k` of a call with `virt` comes to the entry `index` of `table`. -/
def Clears (s : Paging) (virt k table index : ℕ) : Prop :=
  s.pagingDir (pdindex (pageAt virt k)) ≠ 0 ∧
    s.pagingDirectoryMap (pdindex (pageAt virt k)) = some table ∧ ptindex (pageAt virt k) = index

end Paging

/-- The passes `first` to `last - 1` of `paging_unmap` have been made and went on. -/
structure UnmapEffect (virt first last : ℕ) (s s' : Paging) : Prop where
  sameSize : s'.pagingSize = s.pagingSize
  sameHigher : s'.higherPages = s.higherPages
  sameStart : s'.higherPagesStart = s.higherPagesStart
  sameDir : s'.pagingDir = s.pagingDir
  sameMap : s'.pagingDirectoryMap = s.pagingDirectoryMap
  cleared : ∀ k, first ≤ k → k < last → ∀ table index, s.Clears virt k table index →
    s'.tables table index = 0
  keptOrZero : ∀ table index, s'.tables table index = s.tables table index ∨
    s'.tables table index = 0
  kept : ∀ table index, (∀ k, first ≤ k → k < last → ¬s.Clears virt k table index) →
    s'.tables table index = s.tables table index

theorem pagingUnmapBody_true {virt k : ℕ} {s s' : Paging}
    (goesOn : pagingUnmapBody virt (k * 4096) s = .ok (true, s')) :
    (s' = s ∧ ∀ table index, s.Clears virt k table index → s.tables table index = 0) ∨
      ∃ table index, s.Clears virt k table index ∧ s' = s.setEntry table index 0 := by
  rw [pagingUnmapBody, pageAt_eq] at goesOn
  split_ifs at goesOn with beyond empty
  · cases goesOn
  · cases goesOn
    exact Or.inl ⟨rfl, fun table index clears => absurd empty clears.1⟩
  · split at goesOn
    · cases goesOn
    · rename_i table isTable
      split_ifs at goesOn with used
      · cases goesOn
        exact Or.inr ⟨table, _, ⟨empty, isTable, rfl⟩, rfl⟩
      · cases goesOn
        refine Or.inl ⟨rfl, ?_⟩
        rintro other index ⟨_, isOther, atIndex⟩
        rw [isTable] at isOther
        cases isOther
        rw [← atIndex]
        exact not_not.mp used

namespace UnmapEffect

variable {virt first middle last : ℕ} {s t u : Paging}

theorem clears_iff (effect : UnmapEffect virt first last s t) (k table index : ℕ) :
    t.Clears virt k table index ↔ s.Clears virt k table index := by
  simp only [Paging.Clears, effect.sameDir, effect.sameMap]

theorem slotTable_eq (effect : UnmapEffect virt first last s t) (alloc : ℕ → Option ℕ)
    (slot : ℕ) : t.slotTable alloc slot = s.slotTable alloc slot := by
  simp only [Paging.slotTable, effect.sameDir, effect.sameMap]

theorem of_pass {k : ℕ} (goesOn : pagingUnmapBody virt (k * 4096) s = .ok (true, t)) :
    UnmapEffect virt k (k + 1) s t := by
  have onlyPass : ∀ j, k ≤ j → j < k + 1 → j = k := fun j low high => by omega
  rcases pagingUnmapBody_true goesOn with ⟨rfl, already⟩ | ⟨table, index, clears, rfl⟩
  · refine ⟨rfl, rfl, rfl, rfl, rfl, ?_, fun _ _ => Or.inl rfl, fun _ _ _ => rfl⟩
    intro j low high table index clears
    rw [onlyPass j low high] at clears
    exact already table index clears
  · refine ⟨rfl, rfl, rfl, rfl, rfl, ?_, ?_, ?_⟩
    · intro j low high other otherIndex otherClears
      rw [onlyPass j low high] at otherClears
      have sameTable : some table = some other := clears.2.1.symm.trans otherClears.2.1
      cases sameTable
      rw [← otherClears.2.2, clears.2.2]
      exact Paging.setEntry_tables_self
    · intro other otherIndex
      by_cases same : other = table ∧ otherIndex = index
      · right
        rw [same.1, same.2]
        exact Paging.setEntry_tables_self
      · left
        exact Paging.setEntry_tables_other same
    · intro other otherIndex notCleared
      apply Paging.setEntry_tables_other
      rintro ⟨rfl, rfl⟩
      exact notCleared k (Nat.le_refl k) (Nat.lt_succ_self k) clears

theorem compose (firstMiddle : first ≤ middle) (middleLast : middle ≤ last)
    (before : UnmapEffect virt first middle s t) (after : UnmapEffect virt middle last t u) :
    UnmapEffect virt first last s u := by
  refine ⟨after.sameSize.trans before.sameSize, after.sameHigher.trans before.sameHigher,
    after.sameStart.trans before.sameStart, after.sameDir.trans before.sameDir,
    after.sameMap.trans before.sameMap, ?_, ?_, ?_⟩
  · intro k low high table index clears
    rcases Nat.lt_or_ge k middle with inBefore | inAfter
    · have zero := before.cleared k low inBefore table index clears
      rcases after.keptOrZero table index with same | cleared
      · rw [same]
        exact zero
      · exact cleared
    · apply after.cleared k inAfter high table index
      rw [before.clears_iff]
      exact clears
  · intro table index
    rcases after.keptOrZero table index with same | cleared
    · rw [same]
      exact before.keptOrZero table index
    · exact Or.inr cleared
  · intro table index notCleared
    have keptAfter := after.kept table index (fun k low high => by
      rw [before.clears_iff]
      exact notCleared k (Nat.le_trans firstMiddle low) high)
    have keptBefore := before.kept table index
      (fun k low high => notCleared k low (Nat.lt_of_lt_of_le high middleLast))
    exact keptAfter.trans keptBefore

theorem refl (s : Paging) : UnmapEffect virt first first s s := by
  refine ⟨rfl, rfl, rfl, rfl, rfl, ?_, fun _ _ => Or.inl rfl, fun _ _ _ => rfl⟩
  intro k low high
  omega

theorem translates (effect : UnmapEffect virt first last s t) {k address : ℕ}
    (fromFirst : first ≤ k) (belowLast : k < last)
    (onPage : address / 4096 = pageAt virt k / 4096)
    (low : pdindex address < s.higherPagesStart)
    (hasTable : s.pagingDir (pdindex address) ≠ 0 →
      s.pagingDirectoryMap (pdindex address) ≠ none) : pagingGetPhysical t address = .ok 0 := by
  have same := index_of_page onPage
  rw [← effect.sameStart] at low
  by_cases empty : s.pagingDir (pdindex address) = 0
  · rw [← effect.sameDir] at empty
    exact Paging.translate_empty low empty
  · rcases Option.ne_none_iff_exists'.mp (hasTable empty) with ⟨table, isTable⟩
    have clears : s.Clears virt k table (ptindex address) := by
      rw [Paging.Clears, ← same.1, ← same.2]
      exact ⟨empty, isTable, rfl⟩
    have zero := effect.cleared k fromFirst belowLast table _ clears
    rw [← effect.sameDir] at empty
    rw [← effect.sameMap] at isTable
    rw [Paging.translate_entry low empty isTable, if_pos zero]

end UnmapEffect

theorem pagingUnmap_effect {virt size : ℕ} {s s' : Paging} (unwrapped : size + 4096 ≤ 2 ^ 32)
    (returns : pagingUnmap s virt size = .ok (true, s')) :
    UnmapEffect virt 0 (Stride.passes 4096 size) s s' := by
  rw [pagingUnmap, ← Nat.zero_mul 4096] at returns
  apply Stride.loop_effect (by omega) (by omega) unwrapped _ _ (Stride.passes_pos 4096 size) returns
  · intro k s s' _ goesOn
    exact UnmapEffect.of_pass goesOn
  · intro first middle last s t u firstMiddle middleLast before after
    exact before.compose firstMiddle middleLast after

/-- A call of `paging_unmap` returns true when its slots are accepted and have
their tables. -/
theorem pagingUnmap_complete {virt size : ℕ} {s : Paging} (unwrapped : size + 4096 ≤ 2 ^ 32)
    (accepted : ∀ k < Stride.passes 4096 size, pdindex (pageAt virt k) ≤ s.pagingSize)
    (hasTable : ∀ k < Stride.passes 4096 size, s.pagingDir (pdindex (pageAt virt k)) ≠ 0 →
      s.pagingDirectoryMap (pdindex (pageAt virt k)) ≠ none) :
    ∃ s', pagingUnmap s virt size = .ok (true, s') := by
  have enough : Stride.passes 4096 size ≤ 0 + (2 ^ 20 + 1) := by
    simp only [Stride.passes]
    omega
  have start : UnmapEffect virt 0 0 s s := UnmapEffect.refl s
  have ends := @Stride.loop_complete Paging Halt .endlessLoop (pagingUnmapBody virt) 4096 (2 ^ 32)
    size (2 ^ 20 + 1) s 0 (fun k t => UnmapEffect virt 0 k s t) (by omega) (by omega) unwrapped ?_
    (Stride.passes_pos 4096 size) enough start
  · rcases ends with ⟨s', returns, _⟩
    rw [Nat.zero_mul] at returns
    exact ⟨s', returns⟩
  · intro k t inside done
    have notBeyond : ¬pdindex (pageAt virt k) > t.pagingSize := by
      rw [done.sameSize]
      exact Nat.not_lt.mpr (accepted k inside)
    have goesOn : ∃ u, pagingUnmapBody virt (k * 4096) t = .ok (true, u) := by
      rw [pagingUnmapBody, pageAt_eq, if_neg notBeyond, done.sameDir, done.sameMap]
      by_cases empty : s.pagingDir (pdindex (pageAt virt k)) = 0
      · exact ⟨t, if_pos empty⟩
      · rcases Option.ne_none_iff_exists'.mp (hasTable k inside empty) with ⟨table, isTable⟩
        rw [if_neg empty, isTable]
        simp only
        split_ifs
        · exact ⟨_, rfl⟩
        · exact ⟨_, rfl⟩
    rcases goesOn with ⟨u, pass⟩
    exact ⟨u, pass, done.compose (Nat.zero_le k) (Nat.le_succ k) (UnmapEffect.of_pass pass)⟩

end Osserver
