import Osserver.Acpi.Basic
import Osserver.Paging.Safety
import Osserver.Paging.UnmapEffect

/-!
# The search for the root pointer

`search_rsdp_bios` compares each paragraph with the signature by
`memcmp(..) == 0`, but the `memcmp` of this kernel returns 1 on equality. So the
paragraphs it tests further are those without the signature, and it returns the
first of them whose 20 bytes sum to 0. It does what it is meant to do only on
memory in which no paragraph has that sum.

The sum of the last paragraph reads four bytes behind the window.
-/

namespace Osserver

/-- The sum of `count` bytes. -/
def byteSum (bytes : ℕ → UInt8) (count : ℕ) : ℕ :=
  ((List.range count).map (fun i => (bytes i).toNat)).sum

theorem byteSum_succ (bytes : ℕ → UInt8) (count : ℕ) :
    byteSum bytes (count + 1) = (bytes 0).toNat + byteSum (fun i => bytes (i + 1)) count := by
  simp [byteSum, List.range_succ_eq_map, Function.comp_def]

/-- The eight bytes from `address` on are the signature. -/
def SignatureAt (ram : ℕ → UInt8) (address : ℕ) : Prop :=
  ∀ i < 8, ram (address + i) = rsdpSignature i

instance (ram : ℕ → UInt8) (address : ℕ) : Decidable (SignatureAt ram address) :=
  inferInstanceAs (Decidable (∀ i < 8, ram (address + i) = rsdpSignature i))

section Reads

variable {read : ℕ → Except Halt UInt8} {bytes : ℕ → UInt8}

theorem reads_tail {count i : ℕ} (reads : ∀ j < count + 1, read (i + j) = .ok (bytes (i + j))) :
    ∀ j < count, read (i + 1 + j) = .ok (bytes (i + 1 + j)) := by
  intro j inside
  rw [Nat.add_assoc, Nat.add_comm 1 j]
  exact reads (j + 1) (Nat.succ_lt_succ inside)

theorem memcmpLoop_of_reads (s2 : ℕ → UInt8) {count i : ℕ}
    (reads : ∀ j < count, read (i + j) = .ok (bytes (i + j))) :
    (memcmpLoop read s2 count i = .ok 1 ∧ ∀ j < count, bytes (i + j) = s2 (i + j)) ∨
      (memcmpLoop read s2 count i = .ok 0 ∧ ¬∀ j < count, bytes (i + j) = s2 (i + j)) := by
  induction count generalizing i with
  | zero =>
      left
      exact ⟨rfl, by simp⟩
  | succ count ih =>
      have first : read i = .ok (bytes i) := reads 0 (Nat.succ_pos count)
      simp only [memcmpLoop, first]
      by_cases same : bytes i = s2 i
      · rw [if_neg (not_not.mpr same)]
        have shifted : (∀ j < count, bytes (i + 1 + j) = s2 (i + 1 + j)) ↔
            ∀ j < count + 1, bytes (i + j) = s2 (i + j) := by
          constructor
          · intro equal j inside
            rcases j with _ | j
            · exact same
            · rw [← Nat.add_assoc, Nat.add_right_comm]
              exact equal j (Nat.lt_of_succ_lt_succ inside)
          · intro equal j inside
            rw [Nat.add_assoc, Nat.add_comm 1 j]
            exact equal (j + 1) (Nat.succ_lt_succ inside)
        rw [← shifted]
        exact ih (reads_tail reads)
      · right
        rw [if_pos same]
        exact ⟨rfl, fun equal => same (equal 0 (Nat.succ_pos count))⟩

theorem memcmp_of_reads (s2 : ℕ → UInt8) {len : ℕ} (reads : ∀ j < len, read j = .ok (bytes j)) :
    (memcmp read s2 len = .ok 1 ∧ ∀ j < len, bytes j = s2 j) ∨
      (memcmp read s2 len = .ok 0 ∧ ¬∀ j < len, bytes j = s2 j) := by
  have fromStart : ∀ j < len, read (0 + j) = .ok (bytes (0 + j)) := by simpa using reads
  simpa [memcmp] using memcmpLoop_of_reads s2 fromStart

theorem checkRsdpLoop_of_reads (sum : UInt8) {count i : ℕ}
    (reads : ∀ j < count, read (i + j) = .ok (bytes (i + j))) :
    ∃ total, checkRsdpLoop read count i sum = .ok total ∧
      total.toNat = (sum.toNat + byteSum (fun j => bytes (i + j)) count) % 256 := by
  induction count generalizing i sum with
  | zero =>
      refine ⟨sum, rfl, ?_⟩
      have byte : sum.toNat < 256 := UInt8.toNat_lt sum
      simp [byteSum, Nat.mod_eq_of_lt byte]
  | succ count ih =>
      have first : read i = .ok (bytes i) := reads 0 (Nat.succ_pos count)
      rcases ih (sum + bytes i) (reads_tail reads) with ⟨total, returns, isSum⟩
      refine ⟨total, ?_, ?_⟩
      · simp only [checkRsdpLoop, first]
        exact returns
      · have shift : (fun j => bytes (i + 1 + j)) = fun j => bytes (i + (j + 1)) := by
          funext j
          rw [Nat.add_assoc, Nat.add_comm 1 j]
        rw [isSum, byteSum_succ, UInt8.toNat_add, shift]
        simp only [Nat.add_zero]
        omega

theorem checkRsdp_of_reads (reads : ∀ j < 20, read j = .ok (bytes j)) :
    ∃ total, checkRsdp read = .ok total ∧ total.toNat = byteSum bytes 20 % 256 := by
  have fromStart : ∀ j < 20, read (0 + j) = .ok (bytes (0 + j)) := by simpa using reads
  simpa [checkRsdp] using checkRsdpLoop_of_reads 0 fromStart

theorem checkRsdpLoop_error {count i stop : ℕ} {sum : UInt8} {halt : Halt} (inside : stop < count)
    (reads : ∀ j < stop, ∃ byte, read (i + j) = .ok byte) (fails : read (i + stop) = .error halt) :
    checkRsdpLoop read count i sum = .error halt := by
  induction count generalizing i stop sum with
  | zero => omega
  | succ count ih =>
      rcases stop with _ | stop
      · have first : read i = .error halt := fails
        simp only [checkRsdpLoop, first]
      · rcases reads 0 (Nat.succ_pos stop) with ⟨byte, first⟩
        simp only [Nat.add_zero] at first
        simp only [checkRsdpLoop, first]
        apply ih (Nat.lt_of_succ_lt_succ inside)
        · intro j before
          rw [Nat.add_assoc, Nat.add_comm 1 j]
          exact reads (j + 1) (Nat.succ_lt_succ before)
        · rw [Nat.add_assoc, Nat.add_comm 1 stop]
          exact fails

/-- The search goes past the paragraph at `offset`. -/
def Skips (read : ℕ → Except Halt UInt8) (offset : ℕ) : Prop :=
  ∃ result, memcmp (fun i => read (offset + i)) rsdpSignature 8 = .ok result ∧
    (result = 0 → ∃ sum, checkRsdp (fun i => read (offset + i)) = .ok sum ∧ sum ≠ 0)

/-- Where its 20 bytes can be read, a paragraph is passed over when it has the
signature, or when its sum is not 0. -/
theorem skips_iff {offset : ℕ} (reads : ∀ j < 20, read (offset + j) = .ok (bytes j)) :
    Skips read offset ↔
      (∀ j < 8, bytes j = rsdpSignature j) ∨ byteSum bytes 20 % 256 ≠ 0 := by
  rcases @checkRsdp_of_reads (fun i => read (offset + i)) bytes reads with ⟨sum, summed, isSum⟩
  have nonzero : sum ≠ 0 ↔ byteSum bytes 20 % 256 ≠ 0 := by
    rw [← isSum, ne_eq, ne_eq, ← UInt8.toNat_inj]
    rfl
  have prefixReads : ∀ j < 8, read (offset + j) = .ok (bytes j) :=
    fun j inside => reads j (Nat.lt_trans inside (by omega))
  rcases @memcmp_of_reads (fun i => read (offset + i)) bytes rsdpSignature 8 prefixReads with
    ⟨compared, same⟩ | ⟨compared, differs⟩
  · have passedOver : Skips read offset := ⟨1, compared, by simp⟩
    exact iff_of_true passedOver (Or.inl same)
  · rw [or_iff_right differs, ← nonzero]
    simp [Skips, compared, summed]

/-- Where the 17th byte cannot be read, only the signature leads past a paragraph. -/
theorem skips_iff_of_fails {offset : ℕ} {halt : Halt}
    (reads : ∀ j < 16, read (offset + j) = .ok (bytes j))
    (fails : read (offset + 16) = .error halt) :
    Skips read offset ↔ ∀ j < 8, bytes j = rsdpSignature j := by
  have summed : checkRsdp (fun i => read (offset + i)) = .error halt := by
    apply checkRsdpLoop_error (show 16 < 20 by omega)
    · intro j inside
      exact ⟨bytes j, by simpa using reads j inside⟩
    · simpa using fails
  have prefixReads : ∀ j < 8, read (offset + j) = .ok (bytes j) :=
    fun j inside => reads j (Nat.lt_trans inside (by omega))
  rcases @memcmp_of_reads (fun i => read (offset + i)) bytes rsdpSignature 8 prefixReads with
    ⟨compared, same⟩ | ⟨compared, differs⟩
  · have passedOver : Skips read offset := ⟨1, compared, by simp⟩
    exact iff_of_true passedOver same
  · have stopped : ¬Skips read offset := by simp [Skips, compared, summed]
    exact iff_of_false stopped differs

theorem searchRsdpLoop_none_iff {count offset : ℕ} :
    searchRsdpLoop read count offset = .ok none ↔ ∀ k < count, Skips read (offset + k * 16) := by
  induction count generalizing offset with
  | zero => simp [searchRsdpLoop]
  | succ count ih =>
      have shifted : (∀ k < count, Skips read (offset + 16 + k * 16)) ↔
          ∀ k < count, Skips read (offset + (k + 1) * 16) := by
        have step : ∀ k, offset + 16 + k * 16 = offset + (k + 1) * 16 := fun k => by omega
        simp only [step]
      have split : (∀ k < count + 1, Skips read (offset + k * 16)) ↔
          Skips read offset ∧ ∀ k < count, Skips read (offset + (k + 1) * 16) := by
        constructor
        · intro all
          refine ⟨by simpa using all 0 (Nat.succ_pos count), ?_⟩
          intro k inside
          exact all (k + 1) (Nat.succ_lt_succ inside)
        · rintro ⟨first, later⟩ k inside
          rcases k with _ | k
          · simpa using first
          · exact later k (Nat.lt_of_succ_lt_succ inside)
      rw [split, ← shifted, ← ih]
      simp only [searchRsdpLoop, Skips]
      cases compared : memcmp (fun i => read (offset + i)) rsdpSignature 8 with
      | error halt => simp
      | ok result =>
          by_cases differs : result = 0
          · cases summed : checkRsdp (fun i => read (offset + i)) with
            | error halt => simp [differs]
            | ok sum =>
                by_cases nonzero : sum = 0
                · simp [differs, nonzero]
                · simp [differs, nonzero]
          · simp [differs]

theorem searchRsdpLoop_some {count offset found : ℕ}
    (returns : searchRsdpLoop read count offset = .ok (some found)) :
    ∃ k < count, found = offset + k * 16 ∧
      memcmp (fun i => read (found + i)) rsdpSignature 8 = .ok 0 := by
  induction count generalizing offset with
  | zero => simp [searchRsdpLoop] at returns
  | succ count ih =>
      have later : searchRsdpLoop read count (offset + 16) = .ok (some found) →
          ∃ k < count + 1, found = offset + k * 16 ∧
            memcmp (fun i => read (found + i)) rsdpSignature 8 = .ok 0 := by
        intro goesOn
        rcases ih goesOn with ⟨k, inside, atPlace, compared⟩
        exact ⟨k + 1, Nat.succ_lt_succ inside, by omega, compared⟩
      simp only [searchRsdpLoop] at returns
      split at returns
      · cases returns
      · rename_i result compared
        split_ifs at returns with differs
        · split at returns
          · cases returns
          · split_ifs at returns with nonzero
            · exact later returns
            · cases returns
              refine ⟨0, Nat.succ_pos count, by omega, ?_⟩
              rw [← differs]
              exact compared
        · exact later returns

end Reads

end Osserver
