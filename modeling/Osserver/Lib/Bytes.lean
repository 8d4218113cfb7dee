import Osserver.Lib.Outcome
import Mathlib.Algebra.Group.Nat.Defs
import Mathlib.Data.Nat.Basic
import Mathlib.Logic.Function.Basic

/-!
# Bytes and little-endian words

A stretch of memory is a function from offsets to bytes. `word` is the number
that the bytes from an offset on stand for, least significant byte first; `fetch`
reads such a word where each byte read may fail, and agrees with `word` where
none does. `store` writes a list of bytes that is read one by one.

In a memory with 32-bit addresses an address past the last one comes round to the
first; `load8`, `load32` and `load64` read such a memory.
-/

namespace Bytes

universe u

variable {Error : Type u}

/-- What holds of the 256 bytes holds of every byte. -/
theorem forall_byte {p : UInt8 → Prop} (all : ∀ n : Fin 256, p (UInt8.ofNat n)) (c : UInt8) :
    p c := by
  have this := all ⟨c.toNat, c.toNat_lt⟩
  rwa [UInt8.ofNat_toNat] at this

/-- The number that `width` bytes from `offset` on stand for. -/
def word (bytes : ℕ → UInt8) (offset : ℕ) : ℕ → ℕ
  | 0 => 0
  | width + 1 => (bytes offset).toNat + 256 * word bytes (offset + 1) width

/-- Read a word of `width` bytes from `offset` on. -/
def fetch (read : ℕ → Except Error UInt8) (offset : ℕ) : ℕ → Except Error ℕ
  | 0 => .ok 0
  | width + 1 =>
      match read offset with
      | .error error => .error error
      | .ok byte =>
          match fetch read (offset + 1) width with
          | .error error => .error error
          | .ok rest => .ok (byte.toNat + 256 * rest)

/-- Write the bytes from `offset` on to `address offset` and so on: `count` of them
are left. -/
def store (read : ℕ → Except Error UInt8) (address : ℕ → ℕ) :
    ℕ → ℕ → (ℕ → UInt8) → Except Error (ℕ → UInt8)
  | 0, _, memory => .ok memory
  | count + 1, offset, memory =>
      match read offset with
      | .error error => .error error
      | .ok byte =>
          store read address count (offset + 1) (Function.update memory (address offset) byte)

/-- A byte of a memory with 32-bit addresses. -/
def load8 (memory : ℕ → UInt8) (address : ℕ) : UInt8 :=
  memory (address % 2 ^ 32)

def load32 (memory : ℕ → UInt8) (address : ℕ) : ℕ :=
  word (load8 memory) address 4

def load64 (memory : ℕ → UInt8) (address : ℕ) : ℕ :=
  word (load8 memory) address 8

variable {read : ℕ → Except Error UInt8} {bytes other memory after : ℕ → UInt8}
  {offset width count : ℕ}

theorem word_congr (agree : ∀ i < width, bytes (offset + i) = other (offset + i)) :
    word bytes offset width = word other offset width := by
  induction width generalizing offset with
  | zero => rfl
  | succ width ih =>
      have first := agree 0 (Nat.succ_pos width)
      have rest : ∀ i < width, bytes (offset + 1 + i) = other (offset + 1 + i) := by
        intro i inside
        rw [Nat.add_assoc, Nat.add_comm 1 i]
        exact agree (i + 1) (Nat.succ_lt_succ inside)
      rw [Nat.add_zero] at first
      rw [word, word, first, ih rest]

/-- A word is moved with its bytes. -/
theorem word_shift (bytes : ℕ → UInt8) (base offset width : ℕ) :
    word (fun i => bytes (base + i)) offset width = word bytes (base + offset) width := by
  induction width generalizing offset with
  | zero => rfl
  | succ width ih => rw [word, word, ih, Nat.add_assoc]

theorem fetch_of_reads (reads : ∀ i < width, read (offset + i) = .ok (bytes (offset + i))) :
    fetch read offset width = .ok (word bytes offset width) := by
  induction width generalizing offset with
  | zero => rfl
  | succ width ih =>
      have first : read offset = .ok (bytes offset) := reads 0 (Nat.succ_pos width)
      have rest : ∀ i < width, read (offset + 1 + i) = .ok (bytes (offset + 1 + i)) := by
        intro i inside
        rw [Nat.add_assoc, Nat.add_comm 1 i]
        exact reads (i + 1) (Nat.succ_lt_succ inside)
      simp only [fetch, first, ih rest, word]

theorem fetch_congr {other : ℕ → Except Error UInt8}
    (agree : ∀ i < width, read (offset + i) = other (offset + i)) :
    fetch read offset width = fetch other offset width := by
  induction width generalizing offset with
  | zero => rfl
  | succ width ih =>
      have first : read offset = other offset := agree 0 (Nat.succ_pos width)
      have rest : ∀ i < width, read (offset + 1 + i) = other (offset + 1 + i) := by
        intro i inside
        rw [Nat.add_assoc, Nat.add_comm 1 i]
        exact agree (i + 1) (Nat.succ_lt_succ inside)
      rw [fetch, fetch, first, ih rest]

theorem fetch_reads {value : ℕ} (fetches : fetch read offset width = .ok value) :
    ∀ i < width, ∃ byte, read (offset + i) = .ok byte := by
  induction width generalizing offset value with
  | zero => simp
  | succ width ih =>
      rw [fetch] at fetches
      split at fetches
      · cases fetches
      · rename_i first reads
        split at fetches
        · cases fetches
        · rename_i rest fetchesRest
          intro i inside
          rcases i with _ | i
          · exact ⟨first, reads⟩
          · rw [← Nat.add_assoc, Nat.add_right_comm]
            exact ih fetchesRest i (Nat.lt_of_succ_lt_succ inside)

theorem fetch_eq_word {value : ℕ}
    (agree : ∀ i < width, ∀ byte, read (offset + i) = .ok byte → byte = bytes (offset + i))
    (fetches : fetch read offset width = .ok value) : value = word bytes offset width := by
  have reads : ∀ i < width, read (offset + i) = .ok (bytes (offset + i)) := by
    intro i inside
    rcases fetch_reads fetches i inside with ⟨byte, reads⟩
    rw [reads, agree i inside byte reads]
  rw [fetch_of_reads reads] at fetches
  cases fetches
  rfl

theorem fetch_avoids {excluded : Error → Prop} (reads : ∀ i, Outcome.Avoids excluded (read i)) :
    Outcome.Avoids excluded (fetch read offset width) := by
  induction width generalizing offset with
  | zero => exact Outcome.avoids_ok _
  | succ width ih =>
      rw [fetch]
      split
      · rename_i fails
        exact (reads offset).passed fails
      · split
        · rename_i fails
          exact ih.passed fails
        · exact Outcome.avoids_ok _

theorem fetch_shift (read : ℕ → Except Error UInt8) (base offset width : ℕ) :
    fetch (fun i => read (base + i)) offset width = fetch read (base + offset) width := by
  induction width generalizing offset with
  | zero => rfl
  | succ width ih => rw [fetch, fetch, ih, Nat.add_assoc]

theorem fetch_lt {value : ℕ} (fetches : fetch read offset width = .ok value) :
    value < 256 ^ width := by
  induction width generalizing offset value with
  | zero =>
      cases fetches
      exact Nat.one_pos
  | succ width ih =>
      rw [fetch] at fetches
      split at fetches
      · cases fetches
      · rename_i byte _
        split at fetches
        · cases fetches
        · rename_i rest fetchesRest
          cases fetches
          have low := byte.toNat_lt
          have high := ih fetchesRest
          rw [Nat.pow_succ]
          omega

theorem store_avoids {excluded : Error → Prop} {address : ℕ → ℕ}
    (reads : ∀ i, Outcome.Avoids excluded (read i)) :
    Outcome.Avoids excluded (store read address count offset memory) := by
  induction count generalizing offset memory with
  | zero => exact Outcome.avoids_ok _
  | succ count ih =>
      rw [store]
      split
      · rename_i fails
        exact (reads offset).passed fails
      · exact ih

theorem store_congr {other : ℕ → Except Error UInt8} {address : ℕ → ℕ}
    (agree : ∀ i < count, read (offset + i) = other (offset + i)) :
    store read address count offset memory = store other address count offset memory := by
  induction count generalizing offset memory with
  | zero => rfl
  | succ count ih =>
      have first : read offset = other offset := agree 0 (Nat.succ_pos count)
      have rest : ∀ i < count, read (offset + 1 + i) = other (offset + 1 + i) := by
        intro i inside
        rw [Nat.add_assoc, Nat.add_comm 1 i]
        exact agree (i + 1) (Nat.succ_lt_succ inside)
      simp only [store, first, ih rest]

theorem store_of_reads {address : ℕ → ℕ}
    (reads : ∀ i < count, read (offset + i) = .ok (bytes (offset + i)))
    (injective : ∀ i < count, ∀ j < count, address (offset + i) = address (offset + j) → i = j) :
    ∃ after, store read address count offset memory = .ok after ∧
      (∀ i < count, after (address (offset + i)) = bytes (offset + i)) ∧
      (∀ place, (∀ i < count, place ≠ address (offset + i)) → after place = memory place) := by
  induction count generalizing offset memory with
  | zero => exact ⟨memory, rfl, by simp, fun _ _ => rfl⟩
  | succ count ih =>
      have first : read offset = .ok (bytes offset) := reads 0 (Nat.succ_pos count)
      have shift : ∀ i, offset + 1 + i = offset + (i + 1) := by
        intro i
        omega
      have restReads : ∀ i < count, read (offset + 1 + i) = .ok (bytes (offset + 1 + i)) := by
        intro i inside
        rw [shift]
        exact reads (i + 1) (Nat.succ_lt_succ inside)
      have restInjective : ∀ i < count, ∀ j < count,
          address (offset + 1 + i) = address (offset + 1 + j) → i = j := by
        intro i iInside j jInside same
        rw [shift, shift] at same
        have shifted := injective (i + 1) (Nat.succ_lt_succ iInside) (j + 1)
          (Nat.succ_lt_succ jInside) same
        omega
      rcases @ih (Function.update memory (address offset) (bytes offset)) (offset + 1) restReads
          restInjective with ⟨after, stores, written, kept⟩
      refine ⟨after, ?_, ?_, ?_⟩
      · simp only [store, first]
        exact stores
      · intro i inside
        rcases i with _ | i
        · rw [kept, Nat.add_zero, Function.update_self]
          intro j before same
          rw [shift] at same
          have zero := injective 0 inside (j + 1) (Nat.succ_lt_succ before) same
          omega
        · rw [← shift]
          exact written i (Nat.lt_of_succ_lt_succ inside)
      · intro place outside
        have notFirst : place ≠ address offset := outside 0 (Nat.succ_pos count)
        rw [kept, Function.update_of_ne notFirst]
        intro i inside
        rw [shift]
        exact outside (i + 1) (Nat.succ_lt_succ inside)

/-- A list that is kept to `count` elements may be cut at any time. -/
theorem take_take_append {α : Type} (count : ℕ) (front back : List α) :
    (front.take count ++ back).take count = (front ++ back).take count := by
  rw [List.take_append, List.take_append, List.take_take, Nat.min_self, List.length_take]
  congr 2
  omega

end Bytes
