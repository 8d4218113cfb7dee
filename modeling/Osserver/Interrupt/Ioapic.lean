import Osserver.Acpi.MadtWalk

/-!
# The IOAPICs

The model of `generic/sys/interrupt/ioapic.c`. An IOAPIC has its registers behind two
words in memory: the first selects a register by its number, the second is the register.
The chips are found by the addresses that `acpi_apic_info` has for them, so two IOAPICs
at one address are one chip.
-/

namespace Osserver

/-- An IOAPIC: the register that `IOREGSEL` selects, and the registers. -/
structure Ioapic where
  ioregsel : ℕ
  registers : ℕ → ℕ

namespace Ioapic

/-- A write to `IOREGSEL`. -/
def select (chip : Ioapic) (reg : ℕ) : Ioapic :=
  { chip with ioregsel := reg }

/-- What is read from `IOWIN`. -/
def window (chip : Ioapic) : ℕ :=
  chip.registers chip.ioregsel

/-- A write to `IOWIN`. -/
def store (chip : Ioapic) (val : ℕ) : Ioapic :=
  { chip with registers := Function.update chip.registers chip.ioregsel val }

/-- How many redirection entries the chip reports in `IOAPICVER`. -/
def maxRedirectCount (chip : Ioapic) : ℕ :=
  chip.registers 0x01 / 2 ^ 16 % 256 + 1

/-- The mask bit of a redirection entry. -/
def Masked (chip : Ioapic) (index : ℕ) : Prop :=
  chip.registers (0x10 + index * 2) / 2 ^ 16 % 2 = 1

instance (chip : Ioapic) (index : ℕ) : Decidable (chip.Masked index) :=
  inferInstanceAs (Decidable (_ = _))

end Ioapic

/-- `ioapic_out`. -/
def ioapicOut (addr reg val : ℕ) (chips : ℕ → Ioapic) : ℕ → Ioapic :=
  Function.update chips addr (((chips addr).select reg).store val)

/-- `ioapic_in`: the word that is read, and the chips after. -/
def ioapicIn (addr reg : ℕ) (chips : ℕ → Ioapic) : ℕ × (ℕ → Ioapic) :=
  (((chips addr).select reg).window, Function.update chips addr ((chips addr).select reg))

/-- `ioapic_set_entry`. Its `id` and `index` are of the type `uint8_t`. -/
def ioapicSetEntry (info : Acpi) (id index data : ℕ) (chips : ℕ → Ioapic) : ℕ → Ioapic :=
  if id % 2 ^ 8 ≥ info.ioapicSize then chips
  else
    let addr := info.ioapicAddrs (id % 2 ^ 8)
    let chips := ioapicOut addr (0x10 + index % 2 ^ 8 * 2) (data % 2 ^ 32) chips
    ioapicOut addr (0x10 + index % 2 ^ 8 * 2 + 1) (data / 2 ^ 32 % 2 ^ 32) chips

/-- The inner loop of `ioapic_init`. Its counter hides the outer one, and what it passes
for the number of the IOAPIC is the address. -/
def ioapicInitEntries (info : Acpi) (addr maxRedirectCount : ℕ) (chips : ℕ → Ioapic) :
    ℕ → Ioapic :=
  (List.range maxRedirectCount).foldl
    (fun chips i => ioapicSetEntry info addr i (2 ^ 16) chips) chips

/-- One pass of the outer loop of `ioapic_init`. -/
def ioapicInitPass (info : Acpi) (chips : ℕ → Ioapic) (i : ℕ) : ℕ → Ioapic :=
  let addr := info.ioapicAddrs i
  let (entryCount, chips) := ioapicIn addr 0x01 chips
  ioapicInitEntries info addr (entryCount / 2 ^ 16 % 256 + 1) chips

/-- `ioapic_init`. -/
def ioapicInit (info : Acpi) (chips : ℕ → Ioapic) : ℕ → Ioapic :=
  (List.range info.ioapicSize).foldl (ioapicInitPass info) chips

/-- The first `count` redirection entries of one chip have been masked, and no other
register has been written to. -/
def Masks (addr count : ℕ) (chips chips' : ℕ → Ioapic) : Prop :=
  ∀ chip reg, (chips' chip).registers reg =
    if chip = addr ∧ 0x10 ≤ reg ∧ reg < 0x10 + count * 2 then
      if reg % 2 = 0 then 2 ^ 16 else 0
    else (chips chip).registers reg

section

variable {info : Acpi} {addr reg val count index : ℕ} {chips chips' chips'' : ℕ → Ioapic}

theorem ioapicOut_registers (chip other : ℕ) :
    (ioapicOut addr reg val chips chip).registers other =
      if chip = addr ∧ other = reg then val else (chips chip).registers other := by
  by_cases atChip : chip = addr
  · subst chip
    by_cases atReg : other = reg
    · subst other
      simp [ioapicOut, Ioapic.select, Ioapic.store]
    · simp [ioapicOut, Ioapic.select, Ioapic.store, atReg]
  · simp [ioapicOut, atChip]

theorem ioapicIn_registers (chip : ℕ) :
    ((ioapicIn addr reg chips).2 chip).registers = (chips chip).registers := by
  by_cases atChip : chip = addr
  · subst chip
    simp [ioapicIn, Ioapic.select]
  · simp [ioapicIn, atChip]

/-- The lower byte of an address on a page is 0, so the entry of the first IOAPIC is set. -/
theorem ioapicSetEntry_first (aligned : addr % 4096 = 0) (some' : 0 < info.ioapicSize)
    (narrow : index < 256) (chip other : ℕ) :
    (ioapicSetEntry info addr index (2 ^ 16) chips chip).registers other =
      if chip = info.ioapicAddrs 0 ∧ other = 0x10 + index * 2 + 1 then 0
      else if chip = info.ioapicAddrs 0 ∧ other = 0x10 + index * 2 then 2 ^ 16
      else (chips chip).registers other := by
  have id : addr % 2 ^ 8 = 0 := by omega
  have isSome : ¬0 ≥ info.ioapicSize := by omega
  have byte : index % 2 ^ 8 = index := Nat.mod_eq_of_lt narrow
  have low : 2 ^ 16 % 2 ^ 32 = 2 ^ 16 := by omega
  have high : 2 ^ 16 / 2 ^ 32 % 2 ^ 32 = 0 := by omega
  rw [ioapicSetEntry, id, if_neg isSome, byte, low, high]
  simp only [ioapicOut_registers]

theorem Masks.refl (addr : ℕ) (chips : ℕ → Ioapic) : Masks addr 0 chips chips := by
  intro chip reg
  rw [if_neg (by omega)]

theorem Masks.compose {more : ℕ} (first : Masks addr count chips chips')
    (second : Masks addr more chips' chips'') :
    Masks addr (max count more) chips chips'' := by
  intro chip reg
  rw [second chip reg, first chip reg]
  by_cases atChip : chip = addr
  · simp only [atChip, true_and]
    split_ifs
    all_goals first | rfl | omega
  · simp only [atChip, false_and, if_false]

theorem ioapicInitEntries_masks (aligned : addr % 4096 = 0) (some' : 0 < info.ioapicSize)
    (narrow : count ≤ 256) :
    Masks (info.ioapicAddrs 0) count chips (ioapicInitEntries info addr count chips) := by
  induction count with
  | zero => exact Masks.refl _ _
  | succ count ih =>
      intro chip reg
      rw [ioapicInitEntries, List.range_succ, List.foldl_append, List.foldl_cons, List.foldl_nil,
        ioapicSetEntry_first aligned some' (by omega)]
      have before := ih (by omega) chip reg
      rw [ioapicInitEntries] at before
      rw [before]
      by_cases atChip : chip = info.ioapicAddrs 0
      · simp only [atChip, true_and]
        split_ifs
        all_goals first | rfl | omega
      · simp only [atChip, false_and, if_false]

/-- Masking entries leaves the counts that the chips report alone. -/
theorem Masks.maxRedirectCount (masks : Masks addr count chips chips') (chip : ℕ) :
    (chips' chip).maxRedirectCount = (chips chip).maxRedirectCount := by
  have same := masks chip 0x01
  rw [if_neg (by omega)] at same
  rw [Ioapic.maxRedirectCount, Ioapic.maxRedirectCount, same]

theorem ioapicInitPass_masks {i : ℕ} (aligned : info.ioapicAddrs i % 4096 = 0)
    (some' : 0 < info.ioapicSize) :
    Masks (info.ioapicAddrs 0) (chips (info.ioapicAddrs i)).maxRedirectCount chips
      (ioapicInitPass info chips i) := by
  have narrow : (chips (info.ioapicAddrs i)).maxRedirectCount ≤ 256 := by
    rw [Ioapic.maxRedirectCount]
    omega
  intro chip reg
  rw [← @ioapicIn_registers (info.ioapicAddrs i) 0x01 chips chip]
  exact ioapicInitEntries_masks aligned some' narrow chip reg

/-- After some passes of the outer loop as many entries of the first IOAPIC are masked as any
chip passed reports. -/
theorem ioapicInit_masks {passes : ℕ} (upTo : passes ≤ info.ioapicSize)
    (aligned : ∀ i < info.ioapicSize, info.ioapicAddrs i % 4096 = 0) :
    ∃ count, (∀ i < passes, (chips (info.ioapicAddrs i)).maxRedirectCount ≤ count) ∧
      Masks (info.ioapicAddrs 0) count chips
        ((List.range passes).foldl (ioapicInitPass info) chips) := by
  induction passes with
  | zero => exact ⟨0, by simp, Masks.refl _ _⟩
  | succ passes ih =>
      rcases ih (by omega) with ⟨count, enough, masks⟩
      have next := @ioapicInitPass_masks info
        ((List.range passes).foldl (ioapicInitPass info) chips) passes
        (aligned passes (by omega)) (by omega)
      rw [masks.maxRedirectCount] at next
      refine ⟨max count (chips (info.ioapicAddrs passes)).maxRedirectCount, ?_, ?_⟩
      · intro i before
        rcases Nat.lt_or_eq_of_le (Nat.lt_succ_iff.mp before) with earlier | rfl
        · exact Nat.le_trans (enough i earlier) (Nat.le_max_left _ _)
        · exact Nat.le_max_right _ _
      · rw [List.range_succ, List.foldl_append, List.foldl_cons, List.foldl_nil]
        exact masks.compose next

end

/-- After `ioapic_init` all redirection entries of all IOAPICs are masked exactly when those
of the IOAPICs other than the first have been masked before. -/
theorem ioapicInit_masked_iff {info : Acpi} {chips : ℕ → Ioapic}
    (aligned : ∀ i < info.ioapicSize, info.ioapicAddrs i % 4096 = 0) :
    (∀ i < info.ioapicSize, ∀ index < (chips (info.ioapicAddrs i)).maxRedirectCount,
        (ioapicInit info chips (info.ioapicAddrs i)).Masked index) ↔
      ∀ i < info.ioapicSize, info.ioapicAddrs i ≠ info.ioapicAddrs 0 →
        ∀ index < (chips (info.ioapicAddrs i)).maxRedirectCount,
          (chips (info.ioapicAddrs i)).Masked index := by
  rcases @ioapicInit_masks info chips info.ioapicSize (Nat.le_refl _) aligned with
    ⟨count, enough, masks⟩
  have other : ∀ addr index, addr ≠ info.ioapicAddrs 0 →
      ((ioapicInit info chips addr).Masked index ↔ (chips addr).Masked index) := by
    intro addr index different
    rw [Ioapic.Masked, ioapicInit, masks addr, if_neg (fun both => different both.1)]
    rfl
  constructor
  · intro masked i inside different index reported
    exact (other _ index different).mp (masked i inside index reported)
  · intro before i inside index reported
    by_cases first : info.ioapicAddrs i = info.ioapicAddrs 0
    · have upTo := enough i inside
      have isMasked : 2 ^ 16 / 2 ^ 16 % 2 = 1 := by omega
      rw [Ioapic.Masked, ioapicInit, masks (info.ioapicAddrs i), if_pos ⟨first, by omega, by omega⟩,
        if_pos (by omega), isMasked]
    · exact (other _ index first).mpr (before i inside first index reported)

/-- IOAPICs on the pages for devices behind the one of the local APIC. -/
def deviceIoapics (count : ℕ) : Acpi :=
  { Acpi.init (fun _ => 0) with
    ioapicSize := count
    ioapicAddrs := fun i => deviceAddress (i + 1) }

theorem deviceIoapics_aligned (count i : ℕ) : (deviceIoapics count).ioapicAddrs i % 4096 = 0 := by
  simp only [deviceIoapics, deviceAddress]
  omega

/-- Two IOAPICs with 24 entries, of which those of the second are masked. -/
def secondMasked (addr : ℕ) : Ioapic :=
  ⟨0, fun reg => if reg = 1 then 0x170000 else if addr = 0xC2802000 then 0x10000 else 0⟩

theorem ioapicInit_masked_iff_two :
    ¬(secondMasked 0xC2801000).Masked 23 ∧
      (ioapicInit (deviceIoapics 2) secondMasked 0xC2801000).Masked 23 ∧
        (ioapicInit (deviceIoapics 2) secondMasked 0xC2802000).Masked 23 := by
  have before : ∀ i < 2, (deviceIoapics 2).ioapicAddrs i ≠ (deviceIoapics 2).ioapicAddrs 0 →
      ∀ index < (secondMasked ((deviceIoapics 2).ioapicAddrs i)).maxRedirectCount,
        (secondMasked ((deviceIoapics 2).ioapicAddrs i)).Masked index := by
    intro i inside different index _
    have second : i = 1 := by
      by_contra other
      have first : i = 0 := by omega
      exact different (congrArg _ first)
    have entry : 16 + index * 2 ≠ 1 := by omega
    subst second
    simp [Ioapic.Masked, secondMasked, deviceIoapics, deviceAddress, entry]
  have masked := (@ioapicInit_masked_iff (deviceIoapics 2) secondMasked
    (fun i _ => deviceIoapics_aligned 2 i)).mpr before
  exact ⟨by decide, masked 0 (by decide) 23 (by decide), masked 1 (by decide) 23 (by decide)⟩

/-- Two IOAPICs that report one entry each, not masked before: that of the second is not
masked after. -/
theorem ioapicInit_second_unmasked :
    (∀ i, (deviceIoapics 2).ioapicAddrs i % 4096 = 0) ∧
      (Ioapic.mk 0 fun _ => 0).maxRedirectCount = 1 ∧
      ¬(ioapicInit (deviceIoapics 2) (fun _ => ⟨0, fun _ => 0⟩)
        ((deviceIoapics 2).ioapicAddrs 1)).Masked 0 :=
  ⟨deviceIoapics_aligned 2, rfl, by decide⟩

end Osserver
