import Osserver.Interrupt.Idt

/-!
# From the lines of devices to their handlers

What `ioapic_init` and `idt_init` come to together. `idt_init` gives a vector to three
pins, which are the same on every IOAPIC: where the MADT maps the lines of the timer and
of the two ports. When two of them are mapped to one pin, the later one has it.
-/

namespace Osserver

open Bytes

section Entries

variable {info : Acpi} {id index data vector passes : ℕ} {chips : ℕ → Ioapic}

/-- An entry is two registers: the low one gets the vector, and the high one becomes 0. -/
theorem ioapicSetEntry_registers (listed : id < info.ioapicSize) (narrow : info.ioapicSize < 256)
    (pin : index < 256) (low : data < 2 ^ 32) (chip reg : ℕ) :
    (ioapicSetEntry info id index data chips chip).registers reg =
      if chip = info.ioapicAddrs id ∧ reg = 0x10 + index * 2 + 1 then 0
      else if chip = info.ioapicAddrs id ∧ reg = 0x10 + index * 2 then data
      else (chips chip).registers reg := by
  have sameId : id % 2 ^ 8 = id := Nat.mod_eq_of_lt (by omega)
  have samePin : index % 2 ^ 8 = index := Nat.mod_eq_of_lt pin
  have sameData : data % 2 ^ 32 = data := Nat.mod_eq_of_lt low
  have noHigh : data / 2 ^ 32 % 2 ^ 32 = 0 := by omega
  rw [ioapicSetEntry, sameId, if_neg (by omega), samePin, sameData, noHigh]
  simp only [ioapicOut_registers]

/-- After some passes of `ioapic_all_set_entry` the IOAPICs passed have the entry. -/
theorem ioapicAllSetEntry_passes (upTo : passes ≤ info.ioapicSize) (narrow : info.ioapicSize < 256)
    (pin : index < 256) (low : data < 2 ^ 32) (chip reg : ℕ) :
    ((List.range passes).foldl (fun chips i => ioapicSetEntry info i index data chips)
        chips chip).registers reg =
      if (∃ i < passes, chip = info.ioapicAddrs i) ∧ reg = 0x10 + index * 2 + 1 then 0
      else if (∃ i < passes, chip = info.ioapicAddrs i) ∧ reg = 0x10 + index * 2 then data
      else (chips chip).registers reg := by
  induction passes with
  | zero => simp
  | succ passes ih =>
      rw [List.range_succ, List.foldl_append, List.foldl_cons, List.foldl_nil,
        ioapicSetEntry_registers (by omega) narrow pin low, ih (by omega)]
      by_cases last : chip = info.ioapicAddrs passes
      · have passed : ∃ i < passes + 1, chip = info.ioapicAddrs i :=
          ⟨passes, Nat.lt_succ_self passes, last⟩
        simp only [last, true_and]
        rw [last] at passed
        simp only [passed, true_and]
        by_cases high : reg = 0x10 + index * 2 + 1
        · simp only [high, if_true]
        by_cases atLow : reg = 0x10 + index * 2
        · simp only [atLow, if_true]
        · simp only [high, atLow, and_false, if_false]
      · have sameChips : (∃ i < passes + 1, chip = info.ioapicAddrs i) ↔
            ∃ i < passes, chip = info.ioapicAddrs i := by
          constructor
          · rintro ⟨i, inside, same⟩
            refine ⟨i, ?_, same⟩
            rcases Nat.lt_or_eq_of_le (Nat.lt_succ_iff.mp inside) with earlier | rfl
            · exact earlier
            · exact absurd same last
          · rintro ⟨i, inside, same⟩
            exact ⟨i, Nat.lt_succ_of_lt inside, same⟩
        simp only [last, false_and, if_false, sameChips]

/-- On every IOAPIC the pin gets the vector, and the other pins keep theirs. -/
theorem ioapicAllSetEntry_vector (narrow : info.ioapicSize < 256) (isPin : index < 256)
    (isVector : vector < 256) {i : ℕ} (listed : i < info.ioapicSize) (pin : ℕ) :
    (ioapicAllSetEntry info index vector chips (info.ioapicAddrs i)).vector pin =
      if pin = index then some (BitVec.ofNat 8 vector)
      else (chips (info.ioapicAddrs i)).vector pin := by
  have isListed : ∃ j < info.ioapicSize, info.ioapicAddrs i = info.ioapicAddrs j :=
    ⟨i, listed, rfl⟩
  have low : (ioapicAllSetEntry info index vector chips (info.ioapicAddrs i)).registers
      (0x10 + pin * 2) = if pin = index then vector
        else (chips (info.ioapicAddrs i)).registers (0x10 + pin * 2) := by
    rw [ioapicAllSetEntry, ioapicAllSetEntry_passes (Nat.le_refl _) narrow isPin (by omega),
      if_neg (by omega)]
    by_cases same : pin = index
    · rw [if_pos ⟨isListed, by rw [same]⟩, if_pos same]
    · rw [if_neg (fun both => same (by omega)), if_neg same]
  rw [Ioapic.vector, low]
  by_cases same : pin = index
  · rw [if_pos same, if_pos same, if_pos (by omega)]
  · rw [if_neg same, if_neg same, Ioapic.vector]

theorem ioapicAllSetEntry_maxRedirectCount (narrow : info.ioapicSize < 256) (isPin : index < 256)
    (isVector : vector < 256) (chip : ℕ) :
    (ioapicAllSetEntry info index vector chips chip).maxRedirectCount =
      (chips chip).maxRedirectCount := by
  have version : (ioapicAllSetEntry info index vector chips chip).registers 0x01 =
      (chips chip).registers 0x01 := by
    rw [ioapicAllSetEntry, ioapicAllSetEntry_passes (Nat.le_refl _) narrow isPin (by omega),
      if_neg (by omega), if_neg (by omega)]
  rw [Ioapic.maxRedirectCount, Ioapic.maxRedirectCount, version]

theorem ioapicInit_vector (listed : 0 < info.ioapicSize)
    (aligned : ∀ i < info.ioapicSize, info.ioapicAddrs i % 4096 = 0) :
    (ioapicInit info chips (info.ioapicAddrs 0)).maxRedirectCount =
        (chips (info.ioapicAddrs 0)).maxRedirectCount ∧
      ∀ pin < (chips (info.ioapicAddrs 0)).maxRedirectCount,
        (ioapicInit info chips (info.ioapicAddrs 0)).vector pin = none := by
  rcases @ioapicInit_masks info chips info.ioapicSize (Nat.le_refl _) aligned with
    ⟨count, most, masks⟩
  have upTo := most 0 listed
  refine ⟨masks.maxRedirectCount _, ?_⟩
  intro pin reported
  have masked : (ioapicInit info chips (info.ioapicAddrs 0)).registers (0x10 + pin * 2) =
      2 ^ 16 := by
    rw [ioapicInit, masks (info.ioapicAddrs 0), if_pos ⟨rfl, by omega, by omega⟩,
      if_pos (by omega)]
  rw [Ioapic.vector, masked]
  rfl

end Entries

/-- Where the pin of a line is, on every IOAPIC. -/
def linePin (records : List SavedRecord) (irq : ℕ) : ℕ :=
  remapped records irq % 2 ^ 8

section Lines

variable {s : Acpi} {madt fuel : ℕ} {records : List SavedRecord} {chips : ℕ → Ioapic}

theorem idtInitLine_eq (saved : s.SavedMadt madt records) (enough : records.length < fuel)
    (irq vector : ℕ) : idtInitLine fuel s irq vector chips =
      .ok (ioapicAllSetEntry s (linePin records irq) vector chips) := by
  simp only [idtInitLine, acpiRemapIrq_eq irq saved enough, linePin]

theorem linePin_lt (records : List SavedRecord) (irq : ℕ) : linePin records irq < 256 :=
  Nat.mod_lt _ (by decide)

theorem idtInitIoapics_vector (saved : s.SavedMadt madt records) (enough : records.length < fuel)
    (narrow : s.ioapicSize < 256) : ∃ after, idtInitIoapics fuel s chips = .ok after ∧
      (∀ chip, (after chip).maxRedirectCount = (chips chip).maxRedirectCount) ∧
      ∀ i < s.ioapicSize, ∀ pin, (after (s.ioapicAddrs i)).vector pin =
        if pin = linePin records 12 then some 0x22#8
        else if pin = linePin records 1 then some 0x21#8
        else if pin = linePin records 2 then some 0x20#8
        else (chips (s.ioapicAddrs i)).vector pin := by
  refine ⟨ioapicAllSetEntry s (linePin records 12) 0x22 (ioapicAllSetEntry s (linePin records 1) 0x21
    (ioapicAllSetEntry s (linePin records 2) 0x20 chips)), ?_, ?_, ?_⟩
  · simp only [idtInitIoapics, idtInitLine_eq saved enough]
  · intro chip
    rw [ioapicAllSetEntry_maxRedirectCount narrow (linePin_lt _ _) (by omega),
      ioapicAllSetEntry_maxRedirectCount narrow (linePin_lt _ _) (by omega),
      ioapicAllSetEntry_maxRedirectCount narrow (linePin_lt _ _) (by omega)]
  · intro i listed pin
    rw [ioapicAllSetEntry_vector narrow (linePin_lt _ _) (by omega) listed,
      ioapicAllSetEntry_vector narrow (linePin_lt _ _) (by omega) listed,
      ioapicAllSetEntry_vector narrow (linePin_lt _ _) (by omega) listed]

end Lines

end Osserver
