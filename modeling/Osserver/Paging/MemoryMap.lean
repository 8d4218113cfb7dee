import Osserver.Lib.Bytes
import Osserver.Lib.Loop
import Osserver.Mem.Kmem
import Osserver.Paging.Basic

/-!
# The memory map of the boot loader

The model of the loop of `kernel_premain` of `i386/pc/kernel.c` that walks the memory
map and sets up the memory of the kernel. Each pass moves to the next entry before it
looks at one. So the first entry is never looked at, and the last pass looks at what
lies behind the map as if it were an entry.
-/

namespace Osserver

open Loop Bytes

/-- The fields of `multiboot_mmap_entry` for the entry at `mmap`. -/
def mmapSize (memory : ℕ → UInt8) (mmap : ℕ) : ℕ :=
  load32 memory mmap

def mmapAddr (memory : ℕ → UInt8) (mmap : ℕ) : ℕ :=
  load64 memory (mmap + 4)

def mmapLen (memory : ℕ → UInt8) (mmap : ℕ) : ℕ :=
  load64 memory (mmap + 12)

def mmapType (memory : ℕ → UInt8) (mmap : ℕ) : ℕ :=
  load32 memory (mmap + 20)

/-- `addr` of the loop. -/
def usableAddr (memory : ℕ → UInt8) (mmap : ℕ) : ℕ :=
  if mmapAddr memory mmap % 4096 > 0 then
    (mmapAddr memory mmap + mmapAddr memory mmap % 4096) % 2 ^ 64
  else mmapAddr memory mmap

/-- `len` of the loop. -/
def usableLen (memory : ℕ → UInt8) (mmap : ℕ) : ℕ :=
  if mmapAddr memory mmap % 4096 > 0 then
    (mmapLen memory mmap + 2 ^ 64 - mmapAddr memory mmap % 4096) % 2 ^ 64
  else mmapLen memory mmap

/-- The entry can hold the memory of the kernel: it is of the type
`MULTIBOOT_MEMORY_AVAILABLE` and long enough. -/
def Suffices (memory : ℕ → UInt8) (mmap : ℕ) : Prop :=
  mmapType memory mmap = 1 ∧ usableLen memory mmap > 32 * 1024 * 1024 + 0x300000

instance (memory : ℕ → UInt8) (mmap : ℕ) : Decidable (Suffices memory mmap) :=
  inferInstanceAs (Decidable (_ ∧ _))

/-- A field that the loop reads, of the entry at `mmap`. -/
inductive MmapField where
  | size (mmap : ℕ)
  | type (mmap : ℕ)
  | addr (mmap : ℕ)
  | len (mmap : ℕ)
  deriving DecidableEq

/-- The variables of the loop, and what it sets up: the page tables of the heap and the
page allocator. -/
structure MemoryMapWalk where
  mmap : ℕ
  memorySetup : Bool
  pages : ℕ → ℕ
  kmem : Kmem

/-- The entry behind the one at `mmap`. -/
def nextEntry (memory : ℕ → UInt8) (mmap : ℕ) : ℕ :=
  (mmap + mmapSize memory mmap + 4) % 2 ^ 32

/-- One pass of the loop, with the fields it reads. -/
def kernelPremainPass (memory : ℕ → UInt8) (stop : ℕ) (walk : MemoryMapWalk) :
    List MmapField × Pass MemoryMapWalk MemoryMapWalk :=
  if walk.mmap < stop then
    let mmap := nextEntry memory walk.mmap
    if mmapType memory mmap ≠ 1 then
      ([.size walk.mmap, .type mmap], .again { walk with mmap := mmap })
    else
      ([.size walk.mmap, .type mmap, .addr mmap, .len mmap],
        if !walk.memorySetup ∧ usableLen memory mmap > 32 * 1024 * 1024 + 0x300000 then
          .again
            { mmap := mmap
              memorySetup := true
              pages := kernelPremainPages (usableAddr memory mmap) walk.pages
              kmem := memoryKernelInit walk.kmem 0xC0800000 }
        else .again { walk with mmap := mmap })
  else ([], .done walk)

def kernelPremainBody (memory : ℕ → UInt8) (stop : ℕ) (walk : MemoryMapWalk) :
    Pass MemoryMapWalk MemoryMapWalk :=
  (kernelPremainPass memory stop walk).2

/-- `mbt->mmap_addr + KERNEL_VIRTUAL_BASE`. -/
def mmapStart (mapAddr : ℕ) : ℕ :=
  (mapAddr + 0xC0000000) % 2 ^ 32

/-- `(mbt->mmap_addr + KERNEL_VIRTUAL_BASE) + mbt->mmap_length`. -/
def mmapStop (mapAddr mapLength : ℕ) : ℕ :=
  (mmapStart mapAddr + mapLength) % 2 ^ 32

/-- The variables before the loop. -/
def startWalk (mapAddr : ℕ) (pages : ℕ → ℕ) : MemoryMapWalk where
  mmap := mmapStart mapAddr
  memorySetup := false
  pages := pages
  kmem := Kmem.bss

/-- The loop of `kernel_premain`, for at most `fuel` passes. -/
def kernelPremainMemory (fuel : ℕ) (memory : ℕ → UInt8) (mapAddr mapLength : ℕ)
    (pages : ℕ → ℕ) : Option MemoryMapWalk :=
  run (kernelPremainBody memory (mmapStop mapAddr mapLength)) fuel (startWalk mapAddr pages)

/-- The entry whose type is read. -/
def MmapField.examined : MmapField → Option ℕ
  | .type mmap => some mmap
  | .size _ | .addr _ | .len _ => none

/-- The entries that a run of the loop looks at, in order. -/
def examined (memory : ℕ → UInt8) (stop fuel : ℕ) (walk : MemoryMapWalk) : List ℕ :=
  (trace (kernelPremainPass memory stop) fuel walk).filterMap MmapField.examined

/-- The field lies in the `length` bytes from `start` on. -/
def MmapField.Inside (start length : ℕ) : MmapField → Prop
  | .size mmap => start ≤ mmap ∧ mmap + 4 ≤ start + length
  | .type mmap => start ≤ mmap ∧ mmap + 24 ≤ start + length
  | .addr mmap => start ≤ mmap ∧ mmap + 12 ≤ start + length
  | .len mmap => start ≤ mmap ∧ mmap + 20 ≤ start + length

/-- How far behind the first entry the entry of the given number begins, as the size
fields have it. -/
def entryOffset (memory : ℕ → UInt8) (start : ℕ) : ℕ → ℕ
  | 0 => 0
  | k + 1 => entryOffset memory start k + mmapSize memory (start + entryOffset memory start k) + 4

def entryAt (memory : ℕ → UInt8) (start k : ℕ) : ℕ :=
  (start + entryOffset memory start k) % 2 ^ 32

/-- The map at `mapAddr` has `count` entries, which fill its `mapLength` bytes. -/
structure IsMemoryMap (memory : ℕ → UInt8) (mapAddr mapLength count : ℕ) : Prop where
  nonempty : 1 ≤ count
  fills : entryOffset memory (mmapStart mapAddr) count = mapLength
  word : mapLength < 2 ^ 32

/-- The loop ends; it has looked at the entries of the map, at each once and in order,
and has read no field outside of the map; and it has set up memory exactly when some
entry suffices, from the first such entry. -/
def WalksMemoryMap (memory : ℕ → UInt8) (mapAddr mapLength count : ℕ) (pages : ℕ → ℕ) : Prop :=
  ∃ fuel walk,
    kernelPremainMemory fuel memory mapAddr mapLength pages = some walk ∧
    examined memory (mmapStop mapAddr mapLength) fuel (startWalk mapAddr pages) =
      (List.range count).map (entryAt memory (mmapStart mapAddr)) ∧
    (∀ field ∈ trace (kernelPremainPass memory (mmapStop mapAddr mapLength)) fuel
      (startWalk mapAddr pages), field.Inside (mmapStart mapAddr) mapLength) ∧
    (walk.memorySetup = true ↔
      ∃ k < count, Suffices memory (entryAt memory (mmapStart mapAddr) k)) ∧
    ∀ k < count, Suffices memory (entryAt memory (mmapStart mapAddr) k) →
      (∀ j < k, ¬Suffices memory (entryAt memory (mmapStart mapAddr) j)) →
        walk.pages =
            kernelPremainPages (usableAddr memory (entryAt memory (mmapStart mapAddr) k)) pages ∧
          walk.kmem = memoryKernelInit Kmem.bss 0xC0800000

section Walk

variable {memory : ℕ → UInt8} {stop start fuel k : ℕ} {walk : MemoryMapWalk}

theorem kernelPremainPass_inside (inside : walk.mmap < stop) :
    ∃ next, (kernelPremainPass memory stop walk).2 = .again next ∧
      next.mmap = nextEntry memory walk.mmap ∧
      (kernelPremainPass memory stop walk).1.filterMap MmapField.examined =
        [nextEntry memory walk.mmap] := by
  simp only [kernelPremainPass, if_pos inside]
  split_ifs with otherType enough
  · exact ⟨_, rfl, rfl, rfl⟩
  · exact ⟨_, rfl, rfl, rfl⟩
  · exact ⟨_, rfl, rfl, rfl⟩

theorem examined_inside (inside : walk.mmap < stop) :
    ∃ next, (kernelPremainPass memory stop walk).2 = .again next ∧
      next.mmap = nextEntry memory walk.mmap ∧
      examined memory stop (fuel + 1) walk =
        nextEntry memory walk.mmap :: examined memory stop fuel next := by
  rcases @kernelPremainPass_inside memory stop walk inside with ⟨next, goesOn, moved, looksAt⟩
  refine ⟨next, goesOn, moved, ?_⟩
  rw [examined, trace_again goesOn, List.filterMap_append, looksAt]
  rfl

theorem examined_outside (outside : ¬walk.mmap < stop) : examined memory stop fuel walk = [] := by
  rcases fuel with _ | fuel
  · rfl
  · simp [examined, trace, kernelPremainPass, outside]

theorem entryOffset_le {j : ℕ} (upTo : j ≤ k) :
    entryOffset memory start j ≤ entryOffset memory start k := by
  induction k with
  | zero =>
      rw [Nat.le_zero.mp upTo]
  | succ k ih =>
      rcases Nat.eq_or_lt_of_le upTo with same | earlier
      · rw [same]
      · have before := ih (Nat.lt_succ_iff.mp earlier)
        rw [entryOffset]
        omega

theorem entryOffset_lt (j : ℕ) (before : j < k) :
    entryOffset memory start j < entryOffset memory start k := by
  have next : entryOffset memory start (j + 1) ≤ entryOffset memory start k :=
    entryOffset_le before
  rw [entryOffset] at next
  omega

/-- The entry behind an entry of a map that does not reach the end of memory. -/
theorem nextEntry_entryAt (below : start + entryOffset memory start (k + 1) < 2 ^ 32) :
    nextEntry memory (start + entryOffset memory start k) =
      start + entryOffset memory start (k + 1) := by
  rw [nextEntry, Nat.mod_eq_of_lt]
  · rw [entryOffset]
    omega
  · rw [entryOffset] at below
    omega

/-- What the loop looks at first is not the entry it stands at. -/
theorem examined_ne_entries {count : ℕ} (position : walk.mmap = start) (word : start < 2 ^ 32)
    (nonempty : 1 ≤ count) (short : entryOffset memory start count < 2 ^ 32) :
    examined memory stop fuel walk ≠ (List.range count).map (entryAt memory start) := by
  intro looks
  rcases count with _ | rest
  · omega
  have first : entryAt memory start 0 = start := by
    rw [entryAt, entryOffset, Nat.add_zero]
    exact Nat.mod_eq_of_lt word
  rw [List.range_succ_eq_map, List.map_cons, first] at looks
  by_cases inside : walk.mmap < stop
  · rcases fuel with _ | fuel
    · cases looks
    · rcases @examined_inside memory stop fuel walk inside with ⟨next, _, _, looksAt⟩
      rw [looksAt, position, nextEntry] at looks
      have same := (List.cons.inj looks).1
      have within : entryOffset memory start 1 ≤ entryOffset memory start (rest + 1) := by
        apply entryOffset_le
        exact nonempty
      have size : entryOffset memory start 1 = mmapSize memory start + 4 := by
        simp [entryOffset]
      omega
  · rw [examined_outside inside] at looks
    cases looks

/-- The loop never looks at the first entry of a map, so it walks no map as it should. -/
theorem IsMemoryMap.not_walks {mapAddr mapLength count : ℕ} {pages : ℕ → ℕ}
    (isMap : IsMemoryMap memory mapAddr mapLength count) :
    ¬WalksMemoryMap memory mapAddr mapLength count pages := by
  rintro ⟨fuel, walk, _, looks, _⟩
  have short : entryOffset memory (mmapStart mapAddr) count < 2 ^ 32 := by
    rw [isMap.fills]
    exact isMap.word
  have position : (startWalk mapAddr pages).mmap = mmapStart mapAddr := by
    rw [startWalk]
  apply examined_ne_entries position _ isMap.nonempty short looks
  apply Nat.mod_lt
  apply Nat.two_pow_pos

/-- What looking at an entry sets up. -/
def lookAt (memory : ℕ → UInt8) (walk : MemoryMapWalk) (mmap : ℕ) : MemoryMapWalk :=
  if walk.memorySetup = false ∧ Suffices memory mmap then
    { mmap := mmap
      memorySetup := true
      pages := kernelPremainPages (usableAddr memory mmap) walk.pages
      kmem := memoryKernelInit walk.kmem 0xC0800000 }
  else { walk with mmap := mmap }

theorem lookAt_mmap (memory : ℕ → UInt8) (walk : MemoryMapWalk) (mmap : ℕ) :
    (lookAt memory walk mmap).mmap = mmap := by
  rw [lookAt]
  split_ifs
  · rfl
  · rfl

theorem kernelPremainBody_inside (inside : walk.mmap < stop) :
    kernelPremainBody memory stop walk =
      .again (lookAt memory walk (nextEntry memory walk.mmap)) := by
  simp only [kernelPremainBody, kernelPremainPass, if_pos inside, lookAt, Suffices]
  by_cases available : mmapType memory (nextEntry memory walk.mmap) = 1
  · cases isSetup : walk.memorySetup with
    | true => simp [available]
    | false =>
        by_cases long : usableLen memory (nextEntry memory walk.mmap) > 32 * 1024 * 1024 + 0x300000
        · simp [available, long]
        · simp [available, long]
  · simp [available]

/-- The loop looks at the entries behind the one it stands at, and last at what lies
behind the map. -/
theorem kernelPremain_looks {rest : ℕ} (position : walk.mmap = start + entryOffset memory start k)
    (fills : start + entryOffset memory start (k + rest) = stop) (below : stop < 2 ^ 32)
    (enough : rest < fuel) :
    let entries := (List.range' (k + 1) rest).map (entryAt memory start)
    run (kernelPremainBody memory stop) fuel walk = some (entries.foldl (lookAt memory) walk) ∧
      examined memory stop fuel walk = entries := by
  intro entries
  induction rest generalizing k walk fuel with
  | zero =>
      rcases fuel with _ | fuel
      · omega
      have outside : ¬walk.mmap < stop := by
        rw [position, ← fills]
        exact Nat.lt_irrefl _
      refine ⟨?_, examined_outside outside⟩
      apply run_done
      simp only [kernelPremainBody, kernelPremainPass, if_neg outside]
      rfl
  | succ rest ih =>
      rcases fuel with _ | fuel
      · omega
      have atEnd : k + 1 + rest = k + (rest + 1) := by omega
      have shorter : entryOffset memory start k < entryOffset memory start (k + (rest + 1)) := by
        apply entryOffset_lt
        omega
      have inside : walk.mmap < stop := by
        rw [position, ← fills]
        omega
      have within : entryOffset memory start (k + 1) ≤ entryOffset memory start (k + (rest + 1)) := by
        apply entryOffset_le
        omega
      have next : nextEntry memory walk.mmap = start + entryOffset memory start (k + 1) := by
        rw [position]
        apply nextEntry_entryAt
        omega
      have isEntry : nextEntry memory walk.mmap = entryAt memory start (k + 1) := by
        rw [next, entryAt]
        exact (Nat.mod_eq_of_lt (by omega)).symm
      have goesOn := @kernelPremainBody_inside memory stop walk inside
      have moved : (lookAt memory walk (nextEntry memory walk.mmap)).mmap =
          start + entryOffset memory start (k + 1) := (lookAt_mmap ..).trans next
      have fillsRest : start + entryOffset memory start (k + 1 + rest) = stop := by
        rw [atEnd]
        exact fills
      rcases ih moved fillsRest (Nat.lt_of_succ_lt_succ enough) with ⟨returns, looks⟩
      rcases @examined_inside memory stop fuel walk inside with ⟨after, goesOnTo, _, looksAt⟩
      have same : after = lookAt memory walk (nextEntry memory walk.mmap) := by
        rw [kernelPremainBody, goesOnTo] at goesOn
        exact Pass.again.inj goesOn
      constructor
      · rw [run_again goesOn, returns, isEntry]
        rfl
      · rw [looksAt, same, looks, isEntry]
        rfl

theorem lookAt_memorySetup (memory : ℕ → UInt8) (walk : MemoryMapWalk) (mmap : ℕ) :
    (lookAt memory walk mmap).memorySetup = true ↔
      walk.memorySetup = true ∨ Suffices memory mmap := by
  rw [lookAt]
  by_cases isSetup : walk.memorySetup = true
  · simp [isSetup]
  · simp only [Bool.not_eq_true] at isSetup
    split_ifs with both
    · simp [both.2]
    · have notEnough : ¬Suffices memory mmap := fun enough => both ⟨isSetup, enough⟩
      simp [isSetup, notEnough]

theorem foldl_lookAt_memorySetup (memory : ℕ → UInt8) (walk : MemoryMapWalk) (entries : List ℕ) :
    (entries.foldl (lookAt memory) walk).memorySetup = true ↔
      walk.memorySetup = true ∨ ∃ mmap ∈ entries, Suffices memory mmap := by
  induction entries generalizing walk with
  | nil => simp
  | cons entry entries ih =>
      rw [List.foldl_cons, ih, lookAt_memorySetup, or_assoc]
      simp only [List.mem_cons, exists_eq_or_imp]

end Walk

/-- No map is walked as it should be. Of a map that does not reach the end of memory the
loop looks at every entry but the first, and at what lies behind the map instead, and
it sets up memory when one of these suffices. -/
theorem kernelPremain_never_walksMemoryMap {memory : ℕ → UInt8} {mapAddr mapLength count : ℕ}
    {pages : ℕ → ℕ} (isMap : IsMemoryMap memory mapAddr mapLength count) :
    ¬WalksMemoryMap memory mapAddr mapLength count pages ∧
      (mmapStart mapAddr + mapLength < 2 ^ 32 → ∀ fuel, count < fuel → ∃ walk,
        kernelPremainMemory fuel memory mapAddr mapLength pages = some walk ∧
        examined memory (mmapStop mapAddr mapLength) fuel (startWalk mapAddr pages) =
          (List.range' 1 count).map (entryAt memory (mmapStart mapAddr)) ∧
        (walk.memorySetup = true ↔
          ∃ k, 1 ≤ k ∧ k ≤ count ∧ Suffices memory (entryAt memory (mmapStart mapAddr) k))) := by
  refine ⟨isMap.not_walks, ?_⟩
  intro below fuel enough
  have position : (startWalk mapAddr pages).mmap =
      mmapStart mapAddr + entryOffset memory (mmapStart mapAddr) 0 := by
    rw [startWalk, entryOffset, Nat.add_zero]
  have fills : mmapStart mapAddr + entryOffset memory (mmapStart mapAddr) (0 + count) =
      mmapStop mapAddr mapLength := by
    rw [Nat.zero_add, isMap.fills, mmapStop]
    exact (Nat.mod_eq_of_lt below).symm
  have inMemory : mmapStop mapAddr mapLength < 2 ^ 32 := by
    apply Nat.mod_lt
    apply Nat.two_pow_pos
  rcases kernelPremain_looks position fills inMemory enough with ⟨returns, looks⟩
  refine ⟨_, returns, looks, ?_⟩
  have unset : (startWalk mapAddr pages).memorySetup = false := by rw [startWalk]
  rw [foldl_lookAt_memorySetup, unset]
  simp only [Bool.false_eq_true, false_or, List.mem_map, List.mem_range'_1, Nat.zero_add]
  constructor
  · rintro ⟨mmap, ⟨k, ⟨fromFirst, before⟩, rfl⟩, suffices'⟩
    exact ⟨k, fromFirst, by omega, suffices'⟩
  · rintro ⟨k, fromFirst, upTo, suffices'⟩
    exact ⟨_, ⟨k, ⟨fromFirst, by omega⟩, rfl⟩, suffices'⟩

/-- A map at 0x1000 with one entry, for the 64 MiB of memory from 1 MiB on. -/
def oneEntryMemory (address : ℕ) : UInt8 :=
  if address = 0xC0001000 then 20
  else if address = 0xC0001006 then 0x10
  else if address = 0xC000100F then 4
  else if address = 0xC0001014 then 1
  else 0

theorem isMemoryMap_oneEntryMemory : IsMemoryMap oneEntryMemory 0x1000 24 1 := by
  refine ⟨by decide, ?_, by decide⟩
  rfl

theorem kernelPremain_never_walksMemoryMap_oneEntry :
    ¬WalksMemoryMap oneEntryMemory 0x1000 24 1 (fun _ => 0) :=
  (kernelPremain_never_walksMemoryMap isMemoryMap_oneEntryMemory).1

/-- The only entry of the map would do, but the loop ends without memory. -/
theorem kernelPremain_sets_up_nothing :
    Suffices oneEntryMemory (entryAt oneEntryMemory (mmapStart 0x1000) 0) ∧
      (∃ walk, kernelPremainMemory 2 oneEntryMemory 0x1000 24 (fun _ => 0) = some walk ∧
        walk.memorySetup = false) ∧
      ¬WalksMemoryMap oneEntryMemory 0x1000 24 1 (fun _ => 0) :=
  ⟨by decide, ⟨_, rfl, rfl⟩, isMemoryMap_oneEntryMemory.not_walks⟩

end Osserver
