import Osserver.Paging.HeapTranslation
import Osserver.Paging.MemoryMap
import Mathlib.Tactic.IntervalCases

/-!
# The frames of the heap

Which physical pages the entries of the heap tables name, in terms of the start and
the length of the region that `kernel_premain` takes them from. The start is not
rounded up to a page but moved by its distance from the page before, and the entry
keeps the lower 32 bits only.
-/

namespace Osserver

open Loop

/-- The 8192 entries of the heap tables are present and writable, and name different
pages of the region of `len` bytes at `addr`. -/
structure HeapFrames (pages : ℕ → ℕ) (addr len : ℕ) : Prop where
  bits : ∀ i < 8192, pages i % 4096 = 3
  word : ∀ i < 8192, pages i < 2 ^ 32
  inside : ∀ i < 8192, addr ≤ frame (pages i) ∧ frame (pages i) + 4096 ≤ addr + len
  distinct : ∀ i < 8192, ∀ j < 8192, frame (pages i) = frame (pages j) → i = j

/-- The start of a region is at most a byte behind a page or the middle of one, the
region reaches behind the distance its start is moved by, and the heap ends below
4 GiB. -/
structure FramesFit (addr len : ℕ) : Prop where
  residue : addr % 2048 = 0 ∨ addr % 2048 = 1
  long : addr % 4096 ≤ len
  below : addr + addr % 4096 + 0x300000 + 8191 * 4096 < 2 ^ 32

theorem or_three_mod {word : ℕ} : (word ||| 3) % 4096 = 3 ↔ word % 4096 < 4 := by
  have bits : (word ||| 3) % 2 ^ 12 = word % 2 ^ 12 ||| 3 % 2 ^ 12 := Nat.or_mod_two_pow
  have lower : (word ||| 3) % 4096 = word % 4096 ||| 3 := bits
  rw [lower]
  generalize word % 4096 = low
  constructor
  · intro three
    have bound := @Nat.left_le_or low 3
    omega
  · intro small
    interval_cases low <;> rfl

section Region

variable {memory : ℕ → UInt8} {mmap i : ℕ} {pages : ℕ → ℕ}

theorem kernelPremainPages_bits (inside : i < 8192) :
    kernelPremainPages (usableAddr memory mmap) pages i % 4096 = 3 ↔
      mmapAddr memory mmap % 2048 = 0 ∨ mmapAddr memory mmap % 2048 = 1 := by
  rw [kernelPremainPages_eq, if_pos inside, Nat.mod_mod_of_dvd _ (by decide), or_three_mod,
    usableAddr]
  split_ifs
  · omega
  · omega

/-- The lower 32 bits of `addr`. A start on a page is moved by nothing. -/
theorem usableAddr_mod (memory : ℕ → UInt8) (mmap : ℕ) :
    usableAddr memory mmap % 2 ^ 32 =
      (mmapAddr memory mmap + mmapAddr memory mmap % 4096) % 2 ^ 32 := by
  rw [usableAddr]
  split_ifs
  · omega
  · omega

theorem frame_usable (inside : i < 8192) :
    frame (kernelPremainPages (usableAddr memory mmap) pages i) =
      frame ((mmapAddr memory mmap + mmapAddr memory mmap % 4096 + 0x300000 + i * 4096) %
        2 ^ 32) := by
  have lower := usableAddr_mod memory mmap
  have same : (usableAddr memory mmap + i * 4096 + 0x300000) % 2 ^ 32 =
      (mmapAddr memory mmap + mmapAddr memory mmap % 4096 + 0x300000 + i * 4096) % 2 ^ 32 := by
    omega
  rw [frame_kernelPremainPages _ _ inside, same]

/-- The frames lie in the region exactly when no sum leaves the 32 bits and the region is
not shorter than the distance its start is moved by. -/
theorem usable_inside_iff (suffices' : Suffices memory mmap)
    (residue : mmapAddr memory mmap % 2048 = 0 ∨ mmapAddr memory mmap % 2048 = 1) :
    (∀ i < 8192, mmapAddr memory mmap ≤
          frame (kernelPremainPages (usableAddr memory mmap) pages i) ∧
        frame (kernelPremainPages (usableAddr memory mmap) pages i) + 4096 ≤
          mmapAddr memory mmap + mmapLen memory mmap) ↔
      FramesFit (mmapAddr memory mmap) (mmapLen memory mmap) := by
  have long := suffices'.2
  rw [usableLen] at long
  constructor
  · intro inside
    have last := inside 8191 (by omega)
    rw [frame_usable (by omega), frame] at last
    refine ⟨residue, ?_, ?_⟩
    · omega
    · omega
  · rintro ⟨_, reaches, below⟩ i inside
    rw [frame_usable inside, frame]
    split_ifs at long with unaligned
    · omega
    · omega

theorem heapFrames_usable_iff (suffices' : Suffices memory mmap) :
    HeapFrames (kernelPremainPages (usableAddr memory mmap) pages) (mmapAddr memory mmap)
      (mmapLen memory mmap) ↔ FramesFit (mmapAddr memory mmap) (mmapLen memory mmap) := by
  constructor
  · intro frames
    have residue := (kernelPremainPages_bits (by omega)).mp (frames.bits 0 (by omega))
    exact (usable_inside_iff suffices' residue).mp frames.inside
  · intro fit
    refine ⟨fun i inside => (kernelPremainPages_bits inside).mpr fit.residue, ?_,
      (usable_inside_iff suffices' fit.residue).mpr fit, ?_⟩
    · intro i inside
      rw [kernelPremainPages_eq, if_pos inside]
      exact Nat.mod_lt _ (Nat.two_pow_pos 32)
    · intro i inside j insideToo same
      rw [frame_usable inside, frame_usable insideToo, frame, frame] at same
      omega

end Region

section Run

variable {memory : ℕ → UInt8} {stop count fuel : ℕ} {start walk final : MemoryMapWalk}

/-- The pass that comes to an entry that suffices, while no memory is set up, fills the
heap tables from its region. -/
theorem kernelPremainBody_selects (inside : walk.mmap < stop) (unset : walk.memorySetup = false)
    (suffices' : Suffices memory (nextEntry memory walk.mmap)) :
    ∃ next, kernelPremainBody memory stop walk = .again next ∧ next.memorySetup = true ∧
      next.pages = kernelPremainPages (usableAddr memory (nextEntry memory walk.mmap)) walk.pages := by
  refine ⟨_, kernelPremainBody_inside inside, ?_, ?_⟩
  · simp [lookAt, unset, suffices']
  · simp [lookAt, unset, suffices']

/-- Once memory is set up the heap tables stay as they are. -/
theorem kernelPremainBody_isSetup {next : MemoryMapWalk} (isSetup : walk.memorySetup = true)
    (goesOn : kernelPremainBody memory stop walk = .again next) :
    next.memorySetup = true ∧ next.pages = walk.pages := by
  by_cases inside : walk.mmap < stop
  · rw [kernelPremainBody_inside inside] at goesOn
    cases goesOn
    simp [lookAt, isSetup]
  · simp only [kernelPremainBody, kernelPremainPass, if_neg inside] at goesOn
    cases goesOn

theorem before_isSetup (isSetup : walk.memorySetup = true)
    (reached : before (kernelPremainBody memory stop) count walk = some final) :
    final.pages = walk.pages := by
  induction count generalizing walk with
  | zero =>
      cases reached
      rfl
  | succ count ih =>
      cases pass : kernelPremainBody memory stop walk with
      | done result => simp [before, pass] at reached
      | again next =>
          have kept := kernelPremainBody_isSetup isSetup pass
          rw [before_again pass] at reached
          rw [ih kept.1 reached, kept.2]

/-- The loop leaves its variables as they are when it ends. -/
theorem before_of_run (returns : run (kernelPremainBody memory stop) fuel walk = some final) :
    ∃ count, before (kernelPremainBody memory stop) count walk = some final := by
  induction fuel generalizing walk with
  | zero => cases returns
  | succ fuel ih =>
      by_cases inside : walk.mmap < stop
      · have goesOn := @kernelPremainBody_inside memory stop walk inside
        rw [run_again goesOn] at returns
        rcases ih returns with ⟨count, reached⟩
        exact ⟨count + 1, (before_again goesOn).trans reached⟩
      · have done : kernelPremainBody memory stop walk = .done walk := by
          simp only [kernelPremainBody, kernelPremainPass, if_neg inside]
        rw [run_done done] at returns
        exact ⟨0, returns⟩

end Run

/-- When the loop of `kernel_premain` comes to an entry that suffices, while no memory is set
up, it fills the heap tables, which then stay as they are for the rest of the loop and
behind it. The heap's frames are pages of the entry's region exactly when the region
`FramesFit`. -/
theorem kernelPremain_heapFrames_iff {memory : ℕ → UInt8} {stop count mmap : ℕ}
    {start walk : MemoryMapWalk}
    (reached : before (kernelPremainBody memory stop) count start = some walk)
    (inside : walk.mmap < stop) (unset : walk.memorySetup = false)
    (entry : nextEntry memory walk.mmap = mmap) (suffices' : Suffices memory mmap) :
    ∃ next, before (kernelPremainBody memory stop) (count + 1) start = some next ∧
      (∀ later final, before (kernelPremainBody memory stop) later next = some final →
        (HeapFrames final.pages (mmapAddr memory mmap) (mmapLen memory mmap) ↔
          FramesFit (mmapAddr memory mmap) (mmapLen memory mmap))) ∧
      ∀ fuel final, run (kernelPremainBody memory stop) fuel next = some final →
        (HeapFrames final.pages (mmapAddr memory mmap) (mmapLen memory mmap) ↔
          FramesFit (mmapAddr memory mmap) (mmapLen memory mmap)) := by
  subst entry
  rcases kernelPremainBody_selects inside unset suffices' with ⟨next, goesOn, isSetup, filled⟩
  have fromThen : ∀ later final, before (kernelPremainBody memory stop) later next = some final →
      (HeapFrames final.pages (mmapAddr memory (nextEntry memory walk.mmap))
          (mmapLen memory (nextEntry memory walk.mmap)) ↔
        FramesFit (mmapAddr memory (nextEntry memory walk.mmap))
          (mmapLen memory (nextEntry memory walk.mmap))) := by
    intro later final reachedLater
    rw [before_isSetup isSetup reachedLater, filled]
    exact heapFrames_usable_iff suffices'
  refine ⟨next, before_succ reached goesOn, fromThen, ?_⟩
  intro fuel final returns
  rcases before_of_run returns with ⟨later, reachedLater⟩
  exact fromThen later final reachedLater

/-- A map at 0x1000 with two entries, the second for 64 MiB of memory from 1 MiB on, or from
as many times 256 bytes behind. -/
def twoEntryMemory (moved : UInt8) (address : ℕ) : UInt8 :=
  if address = 0xC0001000 ∨ address = 0xC0001018 then 20
  else if address = 0xC000101D then moved
  else if address = 0xC000101E then 0x10
  else if address = 0xC0001027 then 4
  else if address = 0xC000102C then 1
  else 0

theorem kernelPremain_heapFrames_iff_aligned :
    ∃ next, before (kernelPremainBody (twoEntryMemory 0) 0xC0001030) 1
        (startWalk 0x1000 (fun _ => 0)) = some next ∧
      HeapFrames next.pages 0x100000 0x4000000 := by
  have first : before (kernelPremainBody (twoEntryMemory 0) 0xC0001030) 0
      (startWalk 0x1000 (fun _ => 0)) = some (startWalk 0x1000 (fun _ => 0)) := rfl
  rcases kernelPremain_heapFrames_iff first (by decide) rfl rfl (by decide) with
    ⟨next, reached, frames, _⟩
  exact ⟨next, reached, (frames 0 next rfl).mpr ⟨by decide, by decide, by decide⟩⟩

/-- A region from 1 MiB and 1 KiB on is selected, and its entries get bits of the start. -/
theorem kernelPremain_heapFrames_unaligned :
    ∃ walk, kernelPremainMemory 3 (twoEntryMemory 4) 0x1000 48 (fun _ => 0) = some walk ∧
      walk.memorySetup = true ∧ Suffices (twoEntryMemory 4) 0xC0001018 ∧
      mmapAddr (twoEntryMemory 4) 0xC0001018 = 0x100400 ∧ walk.pages 0 = 0x400803 ∧
        ¬HeapFrames walk.pages 0x100400 0x4000000 := by
  have suffices' : Suffices (twoEntryMemory 4) 0xC0001018 := by decide
  rcases @kernelPremainBody_selects (twoEntryMemory 4) 0xC0001030
    (startWalk 0x1000 (fun _ => 0)) (by decide) rfl suffices' with ⟨next, goesOn, isSetup, filled⟩
  have ends : ∃ walk, run (kernelPremainBody (twoEntryMemory 4) 0xC0001030) 3
      (startWalk 0x1000 (fun _ => 0)) = some walk ∧ walk.memorySetup = true := ⟨_, rfl, rfl⟩
  rcases ends with ⟨walk, returns, isSet⟩
  have rest := returns
  rw [run_again goesOn] at rest
  rcases before_of_run rest with ⟨later, reached⟩
  have entry : walk.pages 0 = 0x400803 := by
    rw [before_isSetup isSetup reached, filled, kernelPremainPages_eq]
    decide
  refine ⟨walk, returns, isSet, suffices', by decide, entry, ?_⟩
  intro frames
  have bits := frames.bits 0 (by decide)
  rw [entry] at bits
  omega

end Osserver
