import Osserver.Format.Quotient

/-!
# The quotient of a large number

From 33 on the loop of `div` goes round the bits of its numerator more than once, and sets
the bits of the quotient in each round. By ten, the remainder is between 1 and 10 before
the last round, and then exceeds ten soon; or a one came behind a ten, and from then on it
exceeds ten for 29 passes. So one of the bits 27 to 30 of the quotient is set: it is large
again, or negative.
-/

namespace Osserver

/-- One of the bits 27 to 30 is set. -/
def HighBits (quot : Int32) : Prop :=
  ∃ bit, 27 ≤ bit ∧ bit ≤ 30 ∧ quot.toBitVec.getLsbD bit = true

section Bits

variable {quot more : Int32} {i : ℕ}

theorem HighBits.or (high : HighBits quot) : HighBits (quot ||| more) := by
  rcases high with ⟨bit, low, small, set⟩
  refine ⟨bit, low, small, ?_⟩
  rw [Int32.toBitVec_or, BitVec.getLsbD_or, set, Bool.true_or]

theorem highBits_set (low : 27 ≤ i % 32) (small : i % 32 ≤ 30) :
    HighBits (quot ||| 1 <<< Int32.ofNat i) := by
  refine ⟨i % 32, low, small, ?_⟩
  rw [show (1 : Int32) = Int32.ofNat 1 from rfl, ofNat_shiftLeft, Nat.one_mul,
    Int32.toBitVec_or, BitVec.getLsbD_or, toBitVec_ofNat, BitVec.getLsbD_ofNat,
    Nat.testBit_two_pow_self]
  simp
  omega

/-- The number is negative, but not the lowest one, or it is large. -/
theorem HighBits.negative_or_large (high : HighBits quot) :
    -2 ^ 31 < quot.toInt ∧ quot.toInt < 0 ∨ 2 ^ 27 ≤ quot.toInt := by
  rcases high with ⟨bit, low, small, set⟩
  have fits := quot.toBitVec.isLt
  have asInt : quot.toInt = if 2 * quot.toBitVec.toNat < 2 ^ 32 then (quot.toBitVec.toNat : ℤ)
      else (quot.toBitVec.toNat : ℤ) - 2 ^ 32 := BitVec.toInt_eq_toNat_cond _
  rw [BitVec.getLsbD, Nat.testBit_eq_decide_div_mod_eq, decide_eq_true_eq] at set
  rw [asInt]
  have cases_ : bit = 27 ∨ bit = 28 ∨ bit = 29 ∨ bit = 30 := by omega
  rcases cases_ with rfl | rfl | rfl | rfl
  all_goals split
  all_goals omega

end Bits

section Loop

variable {numer : Int32} {i r s count : ℕ} {quot : Int32} {ret : DivT}

theorem bitAt_le (numer : Int32) (i : ℕ) : bitAt numer i ≤ 1 := by
  rw [bitAt]
  omega

/-- The loop clears no bit of the quotient. -/
theorem HighBits.divLoop {denom : Int32} (high : HighBits ret.quot) :
    HighBits (divLoop numer denom i ret).quot := by
  induction i generalizing ret with
  | zero => exact high
  | succ i ih =>
      apply ih
      simp only [divBit]
      split_ifs
      · exact high.or
      · exact high
      · exact high.or
      · exact high

/-- A pass that takes ten off. -/
theorem divLoop_exceeds (large : 10 < 2 * r + bitAt numer (i + 1))
    (fits : 2 * r + bitAt numer (i + 1) < 2 ^ 31) :
    divLoop numer 10 (i + 1) ⟨quot, Int32.ofNat r⟩ =
      divLoop numer 10 i ⟨quot ||| 1 <<< Int32.ofNat (i + 1),
        Int32.ofNat (2 * r + bitAt numer (i + 1) - 10)⟩ := by
  rw [divLoop, show (10 : Int32) = Int32.ofNat 10 from rfl, divBit_eq (by omega) fits, if_pos large]

/-- A pass that takes nothing off. -/
theorem divLoop_stays (small : 2 * r + bitAt numer (i + 1) ≤ 10) :
    divLoop numer 10 (i + 1) ⟨quot, Int32.ofNat r⟩ =
      divLoop numer 10 i ⟨quot, Int32.ofNat (2 * r + bitAt numer (i + 1))⟩ := by
  rw [divLoop, show (10 : Int32) = Int32.ofNat 10 from rfl, divBit_eq (by omega) (by omega),
    if_neg (by omega)]

/-- A pass over one of the high bits, with a remainder that exceeds ten. -/
theorem highBits_of_exceeds (large : 10 < 2 * r + bitAt numer (i + 1))
    (fits : 2 * r + bitAt numer (i + 1) < 2 ^ 31) (low : 27 ≤ (i + 1) % 32)
    (small : (i + 1) % 32 ≤ 30) :
    HighBits (divLoop numer 10 (i + 1) ⟨quot, Int32.ofNat r⟩).quot := by
  rw [divLoop_exceeds large fits]
  exact (highBits_set low small).divLoop

/-- Above ten the remainder grows, and exceeds ten in each pass until it gets too large
for an `int`. -/
theorem highBits_of_growing (positive : 1 ≤ s) (fits : (s + 1) * 2 ^ count ≤ 2 ^ 30)
    (high : ∃ k, i < k + count ∧ k ≤ i ∧ 27 ≤ k % 32 ∧ k % 32 ≤ 30) :
    HighBits (divLoop numer 10 i ⟨quot, Int32.ofNat (10 + s)⟩).quot := by
  induction count generalizing i s quot with
  | zero =>
      rcases high with ⟨k, behind, before, -⟩
      omega
  | succ count ih =>
      rcases high with ⟨k, behind, before, low, small⟩
      have bit := bitAt_le numer i
      have power : 1 ≤ 2 ^ count := Nat.one_le_two_pow
      have twice : (s + 1) * 2 ^ (count + 1) = (2 * (s + 1)) * 2 ^ count := by
        rw [Nat.pow_succ, Nat.mul_comm (2 ^ count), ← Nat.mul_assoc, Nat.mul_comm (s + 1)]
      have bound : 2 * (s + 1) ≤ (2 * (s + 1)) * 2 ^ count := Nat.le_mul_of_pos_right _ power
      cases i with
      | zero => omega
      | succ i =>
          by_cases here : k = i + 1
          · rw [here] at low small
            exact highBits_of_exceeds (by omega) (by omega) low small
          · have next : 2 * (10 + s) + bitAt numer (i + 1) - 10 =
                10 + (2 * s + bitAt numer (i + 1)) := by
              omega
            have grown : (2 * s + bitAt numer (i + 1) + 1) * 2 ^ count ≤
                (2 * (s + 1)) * 2 ^ count := Nat.mul_le_mul_right _ (by omega)
            rw [divLoop_exceeds (by omega) (by omega), next]
            exact ih (by omega) (by omega) ⟨k, by omega, by omega, low, small⟩

/-- Behind bit 31 a remainder that is not zero exceeds ten in one of the next four passes. -/
theorem highBits_of_rest (positive : 1 ≤ r) (small : r ≤ 10) :
    HighBits (divLoop numer 10 30 ⟨quot, Int32.ofNat r⟩).quot := by
  have bit30 := bitAt_le numer (29 + 1)
  have bit29 := bitAt_le numer (28 + 1)
  have bit28 := bitAt_le numer (27 + 1)
  have bit27 := bitAt_le numer (26 + 1)
  by_cases exceeds30 : 10 < 2 * r + bitAt numer (29 + 1)
  · exact highBits_of_exceeds exceeds30 (by omega) (by decide) (by decide)
  rw [divLoop_stays (by omega)]
  by_cases exceeds29 : 10 < 2 * (2 * r + bitAt numer (29 + 1)) + bitAt numer (28 + 1)
  · exact highBits_of_exceeds exceeds29 (by omega) (by decide) (by decide)
  rw [divLoop_stays (by omega)]
  by_cases exceeds28 :
      10 < 2 * (2 * (2 * r + bitAt numer (29 + 1)) + bitAt numer (28 + 1)) + bitAt numer (27 + 1)
  · exact highBits_of_exceeds exceeds28 (by omega) (by decide) (by decide)
  rw [divLoop_stays (by omega)]
  exact highBits_of_exceeds (by omega) (by omega) (by decide) (by decide)

/-- From bit 31 on, or from above it, with a remainder that is not zero or with a bit to come
that makes it so. -/
theorem highBits_of_round (above : 31 ≤ i) (small : r ≤ 10)
    (some : 1 ≤ r ∨ ∃ k, 32 ≤ k ∧ k ≤ i ∧ bitAt numer k = 1) :
    HighBits (divLoop numer 10 i ⟨quot, Int32.ofNat r⟩).quot := by
  induction i, above using Nat.le_induction generalizing r quot with
  | base =>
      have bit := bitAt_le numer (30 + 1)
      have positive : 1 ≤ r := by
        rcases some with positive | ⟨k, low, high, -⟩
        · exact positive
        · omega
      by_cases exceeds : 10 < 2 * r + bitAt numer (30 + 1)
      · rw [divLoop_exceeds exceeds (by omega)]
        by_cases calm : 2 * r + bitAt numer (30 + 1) - 10 ≤ 10
        · exact highBits_of_rest (by omega) calm
        · have eleven : 2 * r + bitAt numer (30 + 1) - 10 = 10 + 1 := by omega
          rw [eleven]
          exact @highBits_of_growing _ _ _ 29 _ (by omega) (by decide)
            ⟨30, by omega, by omega, by decide, by decide⟩
      · rw [divLoop_stays (by omega)]
        exact highBits_of_rest (by omega) (by omega)
  | succ i above ih =>
      have bit := bitAt_le numer (i + 1)
      by_cases exceeds : 10 < 2 * r + bitAt numer (i + 1)
      · rw [divLoop_exceeds exceeds (by omega)]
        by_cases calm : 2 * r + bitAt numer (i + 1) - 10 ≤ 10
        · exact ih calm (Or.inl (by omega))
        · -- A one came behind a ten.
          have eleven : 2 * r + bitAt numer (i + 1) - 10 = 10 + 1 := by omega
          rw [eleven]
          by_cases here : 27 ≤ (i + 1) % 32 ∧ (i + 1) % 32 ≤ 30
          · exact (highBits_set here.1 here.2).divLoop
          · exact @highBits_of_growing _ _ _ 29 _ (by omega) (by decide)
              ⟨i - (i + 2) % 32, by omega, by omega, by omega, by omega⟩
      · rw [divLoop_stays (by omega)]
        apply ih (by omega)
        rcases some with positive | ⟨k, low, high, set⟩
        · exact Or.inl (by omega)
        · by_cases here : k = i + 1
          · rw [here] at set
            exact Or.inl (by omega)
          · exact Or.inr ⟨k, low, by omega, set⟩

end Loop

/-- A number from 33 on has a bit that the loop comes to before its last round. -/
theorem exists_bit {n : ℕ} (large : 33 ≤ n) (fits : n < 2 ^ 31) :
    ∃ bit < 32, bit + 33 ≤ n ∧ n / 2 ^ bit % 2 = 1 := by
  by_cases short : n < 64
  · have bits : ∀ n : Fin 64, 33 ≤ n.val →
        ∃ bit < 32, bit + 33 ≤ n.val ∧ n.val / 2 ^ bit % 2 = 1 := by
      decide
    exact bits ⟨n, short⟩ large
  · have highest : n.log2 < 31 := (Nat.log2_lt (by omega)).mpr fits
    have set := Nat.testBit_log2 (show n ≠ 0 by omega)
    rw [Nat.testBit_eq_decide_div_mod_eq, decide_eq_true_eq] at set
    exact ⟨n.log2, by omega, by omega, set⟩

/-- By ten, a number that the loop goes round more than once has a quotient with high bits. -/
theorem highBits_div {numer : Int32} (outside : ¬ShiftsInside numer) :
    HighBits (div numer 10).quot := by
  have start := start_of_not_inside outside
  have bits : ∃ k, 32 ≤ k ∧ k ≤ (numer - 1).toNatClampNeg ∧ bitAt numer k = 1 := by
    by_cases lowest : numer = Int32.minValue
    · rw [lowest]
      exact ⟨63, by decide, by decide, by decide⟩
    · have notLowest : numer.toInt ≠ -2 ^ 31 := fun same => lowest (Int32.toInt_inj.mp same)
      have bound := numer.le_toInt
      have fits := numer.toInt_lt
      rw [← Int32.toNat_toInt, toInt_pred (by omega)] at start ⊢
      have numerIs : numer = Int32.ofNat numer.toInt.toNat :=
        (Int32.ofNat_toNatClampNeg _ (Int32.le_iff_toInt_le.mpr (by
          have zero : (0 : Int32).toInt = 0 := rfl
          omega))).symm
      rcases @exists_bit numer.toInt.toNat (by omega) (by omega) with ⟨bit, inside, ahead, set⟩
      refine ⟨32 + bit, by omega, by omega, ?_⟩
      have sameBit : bitAt numer (32 + bit) = bitAt numer bit := by
        rw [bitAt, bitAt, Nat.add_mod_left]
      rw [sameBit, numerIs, bitAt_ofNat (by omega) inside]
      exact set
  rw [div, if_neg (by decide), show (0 : Int32) = Int32.ofNat 0 from rfl]
  exact highBits_of_round (by omega) (by omega) (Or.inr bits)

end Osserver
