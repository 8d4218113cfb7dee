import Osserver.Paging.Effect

/-!
# Translation of heap addresses

`kernel_premain` fills the eight tables of the heap as one flat array, 1024
words to a table, and the MMU walks them so. `paging_get_physical` indexes the
same array with 4096 words to a table. The two agree on the first table and on
no address of the second; from the third table on `paging_get_physical` reads
behind the array.
-/

namespace Osserver

theorem kernelPremainPages_eq (addr : ℕ) (memory : ℕ → ℕ) (i : ℕ) :
    kernelPremainPages addr memory i =
      if i < 8192 then (addr + i * 4096 + 0x300000 ||| 3) % 2 ^ 32 else memory i := by
  have filled : ∀ count, (List.range count).foldl
      (fun pages i => Function.update pages i ((addr + i * 4096 + 0x300000 ||| 3) % 2 ^ 32))
        memory i =
      if i < count then (addr + i * 4096 + 0x300000 ||| 3) % 2 ^ 32 else memory i := by
    intro count
    induction count with
    | zero => simp
    | succ count ih =>
        rw [List.range_succ, List.foldl_append, List.foldl_cons, List.foldl_nil]
        by_cases last : i = count
        · subst last
          simp
        · have below : i < count + 1 ↔ i < count := by omega
          rw [Function.update_of_ne last, ih]
          simp only [below]
  exact filled 8192

theorem frame_kernelPremainPages {i : ℕ} (addr : ℕ) (memory : ℕ → ℕ) (inside : i < 8192) :
    frame (kernelPremainPages addr memory i) =
      frame ((addr + i * 4096 + 0x300000) % 2 ^ 32) := by
  rw [kernelPremainPages_eq, if_pos inside, Nat.or_mod_two_pow]
  exact frame_or_small _ (by omega)

/-- The word of the heap tables that the MMU comes to: the directory slot chooses
one of the eight tables of 1024 words, the table index the word. -/
def bootPageWord (pages : ℕ → ℕ) (virt : ℕ) : ℕ :=
  pages ((pdindex virt - 770) * 1024 + ptindex virt)

/-- The physical address that the MMU reaches through the heap tables. -/
def mmuPhysical (pages : ℕ → ℕ) (virt : ℕ) : ℕ :=
  frame (bootPageWord pages virt) + virt % 4096

/-- The walk through the eight tables comes to the entry of the page in the flat array. -/
theorem bootPageWord_eq (pages : ℕ → ℕ) {virt : ℕ} (low : 0xC0800000 ≤ virt)
    (high : virt < 0xC2800000) : bootPageWord pages virt = pages ((virt - 0xC0800000) / 4096) := by
  rw [bootPageWord, pdindex, ptindex]
  congr 1
  omega

/-- The index that `paging_get_physical` uses for a heap address. -/
def heapIndex (virt : ℕ) : ℕ :=
  (pdindex virt - 770) * 4096 + ptindex virt

theorem pagingGetPhysical_heap {bootPages addr virt : ℕ} {behind : ℕ → ℕ}
    {memory : ℕ → ℕ → ℕ} (low : 0xC0800000 ≤ virt) :
    pagingGetPhysical (kernelPremainPaging bootPages addr behind memory) virt =
      .ok (frame (kernelPremainPages addr behind (heapIndex virt)) + virt % 4096) := by
  have higher : 770 ≤ pdindex virt := by
    rw [pdindex]
    omega
  simp only [pagingGetPhysical, kernelPremainPaging, pagingInit, ge_iff_le, if_pos higher, heapIndex]

theorem mmuPhysical_heap (addr : ℕ) (behind : ℕ → ℕ) {virt : ℕ} (low : 0xC0800000 ≤ virt)
    (high : virt < 0xC2800000) :
    mmuPhysical (kernelPremainPages addr behind) virt =
      frame ((addr + (virt - 0xC0800000) / 4096 * 4096 + 0x300000) % 2 ^ 32) + virt % 4096 := by
  have page : (virt - 0xC0800000) / 4096 < 8192 := by omega
  rw [mmuPhysical, bootPageWord_eq _ low high, frame_kernelPremainPages addr behind page]

/-- From 8 MiB on it is a word behind the array that decides. -/
theorem pagingGetPhysical_behind_iff {bootPages addr virt : ℕ} {behind : ℕ → ℕ}
    {memory : ℕ → ℕ → ℕ} (low : 0xC1000000 ≤ virt) (high : virt < 0xC2800000) :
    pagingGetPhysical (kernelPremainPaging bootPages addr behind memory) virt =
        .ok (mmuPhysical (kernelPremainPages addr behind) virt) ↔
      frame (behind (heapIndex virt)) =
        frame ((addr + (virt - 0xC0800000) / 4096 * 4096 + 0x300000) % 2 ^ 32) := by
  have outside : ¬heapIndex virt < 8192 := by
    rw [heapIndex, pdindex, ptindex]
    omega
  rw [pagingGetPhysical_heap (by omega), mmuPhysical_heap addr behind (by omega) high,
    Except.ok.injEq, Nat.add_right_cancel_iff, kernelPremainPages_eq, if_neg outside]

/-- `bootstrap.asm` puts `dev_page` behind the eight tables and clears it, so the addresses of the
third table would have to be mapped to the first frame. -/
theorem pagingGetPhysical_devPage_iff {bootPages addr virt : ℕ} {behind : ℕ → ℕ}
    {memory : ℕ → ℕ → ℕ} (devPage : ∀ i, 8192 ≤ i → i < 8192 + 1024 → behind i = 0)
    (low : 0xC1000000 ≤ virt) (high : virt < 0xC1400000) :
    pagingGetPhysical (kernelPremainPaging bootPages addr behind memory) virt =
        .ok (mmuPhysical (kernelPremainPages addr behind) virt) ↔
      frame ((addr + (virt - 0xC0800000) / 4096 * 4096 + 0x300000) % 2 ^ 32) = 0 := by
  have inDevPage : 8192 ≤ heapIndex virt ∧ heapIndex virt < 8192 + 1024 := by
    rw [heapIndex, pdindex, ptindex]
    omega
  rw [pagingGetPhysical_behind_iff low (by omega), devPage _ inDevPage.1 inDevPage.2]
  exact eq_comm

/-- `paging_get_physical` translates a heap address as the MMU does exactly when the
address lies in the first 4 MiB of the heap, or from 8 MiB on and the word it
reads behind the array happens to have the frame of the page. -/
theorem pagingGetPhysical_heap_iff {bootPages addr virt : ℕ} {behind : ℕ → ℕ}
    {memory : ℕ → ℕ → ℕ} (low : 0xC0800000 ≤ virt) (high : virt < 0xC2800000) :
    pagingGetPhysical (kernelPremainPaging bootPages addr behind memory) virt =
        .ok (mmuPhysical (kernelPremainPages addr behind) virt) ↔
      virt < 0xC0C00000 ∨ (0xC1000000 ≤ virt ∧ frame (behind (heapIndex virt)) =
        frame ((addr + (virt - 0xC0800000) / 4096 * 4096 + 0x300000) % 2 ^ 32)) := by
  have page : (virt - 0xC0800000) / 4096 < 8192 := by omega
  rcases Nat.lt_or_ge virt 0xC0C00000 with firstTable | later
  · have sameIndex : heapIndex virt = (virt - 0xC0800000) / 4096 := by
      rw [heapIndex, pdindex, ptindex]
      omega
    rw [pagingGetPhysical_heap low, mmuPhysical_heap addr behind low high, sameIndex,
      frame_kernelPremainPages addr behind page]
    simp [firstTable]
  · have notFirst : ¬virt < 0xC0C00000 := Nat.not_lt.mpr later
    rcases Nat.lt_or_ge virt 0xC1000000 with secondTable | behindArray
    · have notBehind : ¬0xC1000000 ≤ virt := Nat.not_le.mpr secondTable
      have index : heapIndex virt = (virt - 0xC0800000) / 4096 + 3072 := by
        rw [heapIndex, pdindex, ptindex]
        omega
      have inside : heapIndex virt < 8192 := by omega
      rw [pagingGetPhysical_heap low, mmuPhysical_heap addr behind low high, Except.ok.injEq,
        Nat.add_right_cancel_iff, frame_kernelPremainPages addr behind inside, index]
      simp only [notFirst, notBehind, false_and, or_self, iff_false, frame]
      omega
    · rw [pagingGetPhysical_behind_iff behindArray high]
      simp [notFirst, behindArray]

theorem pagingGetPhysical_heap_iff_first_page :
    pagingGetPhysical (kernelPremainPaging 0x200000 0x100000 (fun _ => 0) (fun _ _ => 0))
        0xC0800000 =
      .ok (mmuPhysical (kernelPremainPages 0x100000 (fun _ => 0)) 0xC0800000) :=
  (pagingGetPhysical_heap_iff (by omega) (by omega)).mpr (Or.inl (by omega))

/-- The first page of the second heap table: the MMU has the frame 0x800000. -/
theorem pagingGetPhysical_second_table :
    pagingGetPhysical (kernelPremainPaging 0x200000 0x100000 (fun _ => 0) (fun _ _ => 0))
        0xC0C00000 = .ok 0x1400000 ∧
      mmuPhysical (kernelPremainPages 0x100000 (fun _ => 0)) 0xC0C00000 = 0x800000 := by
  constructor
  · rw [pagingGetPhysical_heap (by omega), kernelPremainPages_eq]
    decide
  · rw [mmuPhysical, bootPageWord, kernelPremainPages_eq]
    decide

end Osserver
