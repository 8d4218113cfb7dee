import Osserver.Lib.Bytes

/-!
# Writing words

The writes that go with `load8` and `load32`: in a memory with 32-bit addresses
the bytes of a word are stored one by one, least significant first. A word that
is stored is read back, and a word or a byte that lies elsewhere is left alone.
-/

namespace Bytes

def store8 (memory : ℕ → UInt8) (address : ℕ) (byte : UInt8) : ℕ → UInt8 :=
  Function.update memory (address % 2 ^ 32) byte

/-- Write the `width` low bytes of a number from `address` on. -/
def storeWord (memory : ℕ → UInt8) (address : ℕ) : ℕ → ℕ → ℕ → UInt8
  | 0, _ => memory
  | width + 1, value =>
      storeWord (store8 memory address (UInt8.ofNat value)) (address + 1) width (value / 256)

def store32 (memory : ℕ → UInt8) (address value : ℕ) : ℕ → UInt8 :=
  storeWord memory address 4 value

variable {memory other : ℕ → UInt8} {address place width value : ℕ}

theorem store8_self (fits : address < 2 ^ 32) (byte : UInt8) :
    store8 memory address byte address = byte := by
  rw [store8, Nat.mod_eq_of_lt fits, Function.update_self]

theorem store8_of_ne (fits : address < 2 ^ 32) (different : place ≠ address) (byte : UInt8) :
    store8 memory address byte place = memory place := by
  rw [store8, Nat.mod_eq_of_lt fits, Function.update_of_ne different]

theorem storeWord_outside (fits : address + width ≤ 2 ^ 32)
    (outside : place < address ∨ address + width ≤ place) :
    storeWord memory address width value place = memory place := by
  induction width generalizing memory address value with
  | zero => rfl
  | succ width ih =>
      have different : place ≠ address := by omega
      rw [storeWord, ih (by omega) (by omega), store8_of_ne (by omega) different]

theorem word_congr_place {bytes : ℕ → UInt8}
    (agree : ∀ place, address ≤ place → place < address + width → bytes place = memory place) :
    word bytes address width = word memory address width := by
  apply word_congr
  intro i inside
  exact agree (address + i) (by omega) (by omega)

theorem load8_of_lt (fits : address < 2 ^ 32) : load8 memory address = memory address := by
  rw [load8, Nat.mod_eq_of_lt fits]

theorem word_load8 (fits : address + width ≤ 2 ^ 32) :
    word (load8 memory) address width = word memory address width := by
  apply word_congr_place
  intro place _ below
  exact load8_of_lt (by omega)

theorem word_storeWord (fits : address + width ≤ 2 ^ 32) :
    word (storeWord memory address width value) address width = value % 256 ^ width := by
  induction width generalizing memory address value with
  | zero => simp [word, Nat.mod_one]
  | succ width ih =>
      have first : storeWord memory address (width + 1) value address = UInt8.ofNat value := by
        rw [storeWord, storeWord_outside (by omega) (by omega), store8_self (by omega)]
      have rest := @ih (store8 memory address (UInt8.ofNat value)) (address + 1) (value / 256)
        (by omega)
      rw [word, first]
      rw [storeWord, rest, Nat.pow_succ', Nat.mod_mul]
      simp

/-- The memory with `count` bytes from `target` on replaced by those from `source` on. -/
def copied (memory : ℕ → UInt8) (target source count : ℕ) : ℕ → UInt8 :=
  fun place =>
    if target ≤ place ∧ place < target + count then memory (source + (place - target))
    else memory place

/-- The memory with `count` bytes from `target` on replaced by one value. -/
def filled (memory : ℕ → UInt8) (target : ℕ) (byte : UInt8) (count : ℕ) : ℕ → UInt8 :=
  fun place => if target ≤ place ∧ place < target + count then byte else memory place

section Copied

variable {target source count more : ℕ} {byte : UInt8}

/-- A copy in two parts, when the source is not written over. -/
theorem copied_append (apart : target + (count + more) ≤ source ∨ source + (count + more) ≤ target) :
    copied (copied memory target source count) (target + count) (source + count) more =
      copied memory target source (count + more) := by
  funext place
  simp only [copied]
  split_ifs <;> first | omega | rfl | skip
  congr 1
  omega

theorem store8_eq_copied (fits : target < 2 ^ 32) (sourceFits : source < 2 ^ 32) :
    store8 memory target (load8 memory source) = copied memory target source 1 := by
  funext place
  rw [load8_of_lt sourceFits, copied]
  by_cases same : place = target
  · subst same
    simp [store8_self fits]
  · rw [store8_of_ne fits same, if_neg (by omega)]

theorem filled_append : filled (filled memory target byte count) (target + count) byte more =
    filled memory target byte (count + more) := by
  funext place
  simp only [filled]
  split_ifs <;> first | omega | rfl

theorem store8_eq_filled (fits : target < 2 ^ 32) :
    store8 memory target byte = filled memory target byte 1 := by
  funext place
  rw [filled]
  by_cases same : place = target
  · subst same
    simp [store8_self fits]
  · rw [store8_of_ne fits same, if_neg (by omega)]

theorem copied_zero : copied memory target source 0 = memory := by
  funext place
  exact if_neg (by omega)

theorem filled_zero : filled memory target byte 0 = memory := by
  funext place
  exact if_neg (by omega)

end Copied

theorem storeWord_word {bytes : ℕ → UInt8} {source offset : ℕ} (fits : address + width ≤ 2 ^ 32)
    (inside : offset < width) :
    storeWord memory address width (word bytes source width) (address + offset) =
      bytes (source + offset) := by
  induction width generalizing memory address source offset with
  | zero => cases inside
  | succ width ih =>
      have low : UInt8.ofNat (word bytes source (width + 1)) = bytes source := by
        rw [word, ← UInt8.toNat_inj, UInt8.toNat_ofNat']
        have small := (bytes source).toNat_lt
        omega
      have high : word bytes source (width + 1) / 256 = word bytes (source + 1) width := by
        rw [word]
        have small := (bytes source).toNat_lt
        omega
      rw [storeWord, low, high]
      cases offset with
      | zero =>
          rw [storeWord_outside (by omega) (by omega)]
          exact store8_self (by omega) _
      | succ offset =>
          have shifted := @ih (store8 memory address (bytes source)) (address + 1) (source + 1)
            offset (by omega) (by omega)
          rwa [Nat.add_right_comm, Nat.add_right_comm source] at shifted

theorem store32_load32 {bytes : ℕ → UInt8} {source offset : ℕ} (fits : address + 4 ≤ 2 ^ 32)
    (sourceFits : source + 4 ≤ 2 ^ 32) (inside : offset < 4) :
    store32 memory address (load32 bytes source) (address + offset) = bytes (source + offset) := by
  rw [store32, load32, storeWord_word fits inside, load8_of_lt (by omega)]

theorem store32_eq_copied {source : ℕ} (fits : address + 4 ≤ 2 ^ 32)
    (sourceFits : source + 4 ≤ 2 ^ 32) :
    store32 memory address (load32 memory source) = copied memory address source 4 := by
  funext place
  rw [copied]
  split
  · rename_i inside
    have offset : place = address + (place - address) := by omega
    rw [offset, store32_load32 fits sourceFits (by omega), ← offset]
  · exact storeWord_outside fits (by omega)

theorem load32_store32 (fits : address + 4 ≤ 2 ^ 32) :
    load32 (store32 memory address value) address = value % 2 ^ 32 := by
  have four : 256 ^ 4 = 2 ^ 32 := by decide
  rw [load32, word_load8 fits, store32, word_storeWord fits, four]

theorem store32_outside (fits : address + 4 ≤ 2 ^ 32)
    (outside : place < address ∨ address + 4 ≤ place) :
    store32 memory address value place = memory place :=
  storeWord_outside fits outside

theorem load32_congr (fits : address + 4 ≤ 2 ^ 32)
    (agree : ∀ place, address ≤ place → place < address + 4 → other place = memory place) :
    load32 other address = load32 memory address := by
  rw [load32, load32, word_load8 fits, word_load8 fits]
  exact word_congr_place agree

theorem load32_store32_apart (fits : address + 4 ≤ 2 ^ 32) (alsoFits : place + 4 ≤ 2 ^ 32)
    (apart : place + 4 ≤ address ∨ address + 4 ≤ place) :
    load32 (store32 memory address value) place = load32 memory place := by
  apply load32_congr alsoFits
  intro byte above below
  exact store32_outside fits (by omega)

theorem word_lt (bytes : ℕ → UInt8) (address width : ℕ) :
    word bytes address width < 256 ^ width := by
  induction width generalizing address with
  | zero => exact Nat.one_pos
  | succ width ih =>
      have low := (bytes address).toNat_lt
      have high := ih (address + 1)
      rw [word, Nat.pow_succ]
      omega

theorem load32_lt (memory : ℕ → UInt8) (address : ℕ) : load32 memory address < 2 ^ 32 :=
  word_lt (load8 memory) address 4

end Bytes
