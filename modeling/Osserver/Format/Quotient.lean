import Osserver.Format.Div

/-!
# The quotient and the remainder

The loop of `div` is a long division: from the highest bit on it takes one bit of the
numerator after another into the remainder, and takes the denominator off when the
remainder has become larger. What it has divided when it is over is the numerator without
its lowest bit, and a remainder that is equal to the denominator stays. So it gives the
quotient and the remainder of no numerator but zero.
-/

namespace Osserver

section Bits

variable {n i : ℕ}

theorem toBitVec_ofNat (n : ℕ) : (Int32.ofNat n).toBitVec = BitVec.ofNat 32 n := rfl

theorem smod_shiftCount (i : ℕ) : (BitVec.ofNat 32 i).smod 32 = BitVec.ofNat 32 (i % 32) := by
  apply BitVec.eq_of_toInt_eq
  have width : (32 : BitVec 32).toInt = 32 := rfl
  rw [BitVec.toInt_smod, width, Int.fmod_eq_emod_of_nonneg _ (by decide), BitVec.toInt_ofNat',
    BitVec.toInt_ofNat']
  simp only [Int.bmod]
  omega

theorem ofNat_shiftLeft (n i : ℕ) :
    Int32.ofNat n <<< Int32.ofNat i = Int32.ofNat (n * 2 ^ (i % 32)) := by
  apply Int32.toBitVec_inj.mp
  rw [Int32.toBitVec_shiftLeft, toBitVec_ofNat, toBitVec_ofNat, toBitVec_ofNat, smod_shiftCount]
  apply BitVec.eq_of_toNat_eq
  have small : i % 32 % 2 ^ 32 = i % 32 := Nat.mod_eq_of_lt (by omega)
  rw [BitVec.shiftLeft_eq', BitVec.toNat_shiftLeft, BitVec.toNat_ofNat, BitVec.toNat_ofNat,
    BitVec.toNat_ofNat, small, Nat.shiftLeft_eq, Nat.mod_mul_mod]

/-- The bit of a number that the shift by `i` takes. -/
def bitAt (numer : Int32) (i : ℕ) : ℕ :=
  numer.toBitVec.toNat / 2 ^ (i % 32) % 2

theorem bitAt_ofNat (fits : n < 2 ^ 31) (inside : i < 32) :
    bitAt (Int32.ofNat n) i = n / 2 ^ i % 2 := by
  have small : n % 2 ^ 32 = n := Nat.mod_eq_of_lt (by omega)
  rw [bitAt, toBitVec_ofNat, BitVec.toNat_ofNat, small, Nat.mod_eq_of_lt inside]

theorem shiftRight_and_one (numer : Int32) (i : ℕ) :
    (numer >>> Int32.ofNat i) &&& 1 = Int32.ofNat (bitAt numer i) := by
  have inside : i % 32 < 32 := Nat.mod_lt _ (by omega)
  have small : i % 32 % 2 ^ 32 = i % 32 := Nat.mod_eq_of_lt (by omega)
  have one : (1 : Int32).toBitVec.toNat = 2 ^ 1 - 1 := rfl
  have bit : bitAt numer i % 2 ^ 32 = bitAt numer i := by
    rw [bitAt]
    omega
  have sameBit : (numer.toBitVec.sshiftRight (i % 32)).getLsbD 0 =
      numer.toBitVec.getLsbD (i % 32) := by
    rw [BitVec.getLsbD_sshiftRight]
    simp [inside]
  rw [BitVec.getLsbD, BitVec.getLsbD, Nat.testBit_eq_decide_div_mod_eq,
    Nat.testBit_eq_decide_div_mod_eq, decide_eq_decide, Nat.pow_zero, Nat.div_one] at sameBit
  apply Int32.toBitVec_inj.mp
  rw [Int32.toBitVec_and, Int32.toBitVec_shiftRight, toBitVec_ofNat, toBitVec_ofNat,
    smod_shiftCount]
  apply BitVec.eq_of_toNat_eq
  rw [BitVec.toNat_and, one, Nat.and_two_pow_sub_one_eq_mod, Nat.pow_one, BitVec.toNat_ofNat, bit,
    BitVec.sshiftRight', BitVec.toNat_ofNat, small, bitAt]
  omega

theorem ofNat_or (a b : ℕ) : Int32.ofNat a ||| Int32.ofNat b = Int32.ofNat (a ||| b) := by
  apply Int32.toBitVec_inj.mp
  rw [Int32.toBitVec_or, toBitVec_ofNat, toBitVec_ofNat, toBitVec_ofNat, BitVec.ofNat_or]

/-- An even number has no lowest bit to clear. -/
theorem double_and_not_one : Int32.ofNat (2 * n) &&& ~~~1 = Int32.ofNat (2 * n) := by
  apply Int32.toBitVec_inj.mp
  rw [Int32.toBitVec_and, Int32.toBitVec_not, toBitVec_ofNat]
  have mask : ∀ i : Fin 31, (~~~1#32)[i.val + 1] = true := by decide
  ext i inside
  cases i with
  | zero => simp [BitVec.getElem_eq_testBit_toNat]
  | succ i =>
      rw [BitVec.getElem_and, Bool.and_eq_left_iff_imp]
      intro _
      exact mask ⟨i, by omega⟩

end Bits

/-- The bit and the state before each pass of the loop of `div`. -/
def divPasses (numer denom : Int32) : ℕ → DivT → List (ℕ × DivT)
  | 0, _ => []
  | i + 1, ret => (i + 1, ret) :: divPasses numer denom i (divBit numer denom (i + 1) ret)

/-- The pass shifts by less than the width of an `int`, and what it computes fits in one. -/
def PassFits (numer denom : Int32) (pass : ℕ × DivT) : Prop :=
  pass.1 < 32 ∧ 0 ≤ pass.2.rem.toInt ∧ 2 * pass.2.rem.toInt < 2 ^ 31 ∧
    ((divBit numer denom pass.1 pass.2).quot ≠ pass.2.quot → pass.1 < 31)

/-- The quotient and the remainder are right. -/
def DivT.IsQuotient (ret : DivT) (numer denom : Int32) : Prop :=
  ret.quot.toInt = numer.toInt / denom.toInt ∧ ret.rem.toInt = numer.toInt % denom.toInt

section Loop

variable {numer : Int32} {n d i q r : ℕ} {quot : Int32}

/-- The bit of the numerator goes into the remainder. -/
theorem shiftIn_eq (numer : Int32) (i r : ℕ) :
    (if ((numer >>> Int32.ofNat i) &&& 1).toInt8.toUInt8 ≠ 0
      then (Int32.ofNat r <<< 1) ||| 1 else (Int32.ofNat r <<< 1) &&& ~~~1) =
        Int32.ofNat (2 * r + bitAt numer i) := by
  have one : (1 : Int32) = Int32.ofNat 1 := rfl
  have double : Int32.ofNat r <<< 1 = Int32.ofNat (2 * r) := by
    rw [one, ofNat_shiftLeft, Nat.mul_comm]
    rfl
  rw [shiftRight_and_one, double]
  rcases Nat.mod_two_eq_zero_or_one (numer.toBitVec.toNat / 2 ^ (i % 32)) with clear | set
  · rw [bitAt, clear, if_neg (by decide), double_and_not_one, Nat.add_zero]
  · rw [bitAt, set, if_pos (by decide), one, ofNat_or]
    have append := Nat.two_pow_add_eq_or_of_lt (show 1 < 2 ^ 1 by omega) r
    rw [Nat.pow_one] at append
    rw [append]

/-- One pass takes the next bit of the numerator. -/
theorem divBit_eq (denomFits : d < 2 ^ 31) (remFits : 2 * r + bitAt numer i < 2 ^ 31) :
    divBit numer (Int32.ofNat d) i ⟨quot, Int32.ofNat r⟩ =
      if d < 2 * r + bitAt numer i then
        ⟨quot ||| 1 <<< Int32.ofNat i, Int32.ofNat (2 * r + bitAt numer i - d)⟩
      else ⟨quot, Int32.ofNat (2 * r + bitAt numer i)⟩ := by
  simp only [divBit, shiftIn_eq, gt_iff_lt, Int32.ofNat_lt_iff_lt denomFits remFits]
  by_cases larger : d < 2 * r + bitAt numer i
  · rw [if_pos larger, if_pos larger, Int32.ofNat_sub _ _ (by omega)]
  · rw [if_neg larger, if_neg larger]

/-- As long as the bits are inside the number, they come one below the other. -/
theorem divBit_ofNat (fits : n < 2 ^ 31) (denomFits : d < 2 ^ 31) (inside : i < 32)
    (remFits : 2 * r + n / 2 ^ i % 2 < 2 ^ 31) :
    divBit (Int32.ofNat n) (Int32.ofNat d) i ⟨Int32.ofNat (2 ^ (i + 1) * q), Int32.ofNat r⟩ =
      if d < 2 * r + n / 2 ^ i % 2 then
        ⟨Int32.ofNat (2 ^ i * (2 * q + 1)), Int32.ofNat (2 * r + n / 2 ^ i % 2 - d)⟩
      else ⟨Int32.ofNat (2 ^ i * (2 * q)), Int32.ofNat (2 * r + n / 2 ^ i % 2)⟩ := by
  have same : 2 ^ (i + 1) * q = 2 ^ i * (2 * q) := by
    rw [Nat.pow_succ, Nat.mul_assoc]
  have setBit : Int32.ofNat (2 ^ (i + 1) * q) ||| 1 <<< Int32.ofNat i =
      Int32.ofNat (2 ^ i * (2 * q + 1)) := by
    have append := Nat.two_pow_add_eq_or_of_lt (show 2 ^ i < 2 ^ (i + 1) by
      exact Nat.pow_lt_pow_right (by omega) (by omega)) q
    rw [show (1 : Int32) = Int32.ofNat 1 from rfl, ofNat_shiftLeft, Nat.mod_eq_of_lt inside,
      ofNat_or, Nat.one_mul, ← append, same, Nat.mul_add, Nat.mul_one]
  rw [← bitAt_ofNat fits inside] at remFits ⊢
  rw [divBit_eq denomFits remFits, setBit, same]

/-- Behind bit `i` the remainder is what the quotient leaves of the bits so far, and it is
zero only when these are all zero. -/
structure Divided (n d i q r : ℕ) : Prop where
  part : n / 2 ^ i = q * d + r
  zero : r = 0 → n / 2 ^ i = 0

theorem Divided.pass (divided : Divided n d (i + 1) q r) :
    if d < 2 * r + n / 2 ^ i % 2 then
      Divided n d i (2 * q + 1) (2 * r + n / 2 ^ i % 2 - d)
    else Divided n d i (2 * q) (2 * r + n / 2 ^ i % 2) := by
  have halves : n / 2 ^ i = 2 * (n / 2 ^ (i + 1)) + n / 2 ^ i % 2 := by
    rw [Nat.pow_succ, ← Nat.div_div_eq_div_mul]
    omega
  have part := divided.part
  have double : 2 * (q * d + r) = 2 * q * d + 2 * r := by
    rw [Nat.mul_add, Nat.mul_assoc]
  split_ifs with larger
  · refine ⟨?_, ?_⟩
    · rw [halves, part, double, Nat.add_mul, Nat.one_mul]
      omega
    · omega
  · refine ⟨?_, ?_⟩
    · rw [halves, part, double]
      omega
    · intro zero
      rw [halves, divided.zero (by omega)]
      omega

/-- The loop divides the numerator without its lowest bit. -/
theorem divLoop_ofNat (fits : n < 2 ^ 31) (denomFits : d < 2 ^ 31) (inside : i < 32)
    (divided : Divided n d (i + 1) q r) :
    ∃ quot rem, divLoop (Int32.ofNat n) (Int32.ofNat d) i
        ⟨Int32.ofNat (2 ^ (i + 1) * q), Int32.ofNat r⟩ =
          ⟨Int32.ofNat (2 * quot), Int32.ofNat rem⟩ ∧ Divided n d 1 quot rem := by
  induction i generalizing q r with
  | zero => exact ⟨q, r, by rw [Nat.zero_add, Nat.pow_one]; rfl, divided⟩
  | succ i ih =>
      have remFits : 2 * r + n / 2 ^ (i + 1) % 2 < 2 ^ 31 := by
        have part := divided.part
        have halves : n / 2 ^ (i + 1) = 2 * (n / 2 ^ (i + 1 + 1)) + n / 2 ^ (i + 1) % 2 := by
          rw [Nat.pow_succ 2 (i + 1), ← Nat.div_div_eq_div_mul]
          omega
        have bound := Nat.div_le_self n (2 ^ (i + 1))
        omega
      have pass := divided.pass
      rw [divLoop, divBit_ofNat fits denomFits inside remFits]
      by_cases larger : d < 2 * r + n / 2 ^ (i + 1) % 2
      · rw [if_pos larger] at pass ⊢
        exact ih (by omega) pass
      · rw [if_neg larger] at pass ⊢
        exact ih (by omega) pass

end Loop

/-- The remainder that is left of half of the numerator is not the one of all of it. -/
theorem not_quotient_of_divided {n d quot rem : ℕ} (positive : 0 < n)
    (divided : Divided n d 1 quot rem) : ¬(2 * quot = n / d ∧ rem = n % d) := by
  rintro ⟨isQuot, isRem⟩
  have whole := Nat.div_add_mod n d
  rw [← isQuot, ← isRem] at whole
  have part := divided.part
  have double : d * (2 * quot) = 2 * (quot * d) := by
    rw [Nat.mul_comm d, Nat.mul_assoc]
  rw [double] at whole
  rw [Nat.pow_one] at part
  have noRem : rem = 0 := by omega
  have noHalf := divided.zero noRem
  rw [Nat.pow_one] at noHalf
  omega

/-- A loop that starts below 32 leaves out a bit. -/
theorem div_not_quotient {n d : ℕ} (positive : 0 < n) (inside : n - 1 < 32)
    (denomPositive : 0 < d) (denomFits : d < 2 ^ 31) :
    ¬(div (Int32.ofNat n) (Int32.ofNat d)).IsQuotient (Int32.ofNat n) (Int32.ofNat d) := by
  have numerIs : (Int32.ofNat n).toInt = n := Int32.toInt_ofNat_of_lt (by omega)
  have denomIs : (Int32.ofNat d).toInt = d := Int32.toInt_ofNat_of_lt denomFits
  have notZero : Int32.ofNat d ≠ 0 := by
    intro isZero
    rw [isZero] at denomIs
    have zero : (0 : Int32).toInt = 0 := rfl
    omega
  have start : (Int32.ofNat n - 1).toNatClampNeg = n - 1 := by
    rw [← Int32.toNat_toInt, toInt_pred (by omega), numerIs]
    omega
  have noBits : n / 2 ^ (n - 1 + 1) = 0 := by
    rw [Nat.sub_add_cancel positive]
    exact Nat.div_eq_of_lt Nat.lt_two_pow_self
  have initially : Divided n d (n - 1 + 1) 0 0 := ⟨by rw [noBits, Nat.zero_mul], fun _ => noBits⟩
  rcases divLoop_ofNat (by omega) denomFits inside initially with ⟨quot, rem, loop, divided⟩
  have initialQuot : (0 : Int32) = Int32.ofNat (2 ^ (n - 1 + 1) * 0) := rfl
  have initialRem : (0 : Int32) = Int32.ofNat 0 := rfl
  rw [← initialQuot, ← initialRem] at loop
  have part := divided.part
  have quotFits : quot ≤ quot * d := Nat.le_mul_of_pos_right _ denomPositive
  rw [Nat.pow_one] at part
  rw [div, if_neg notZero, start, loop]
  rintro ⟨isQuot, isRem⟩
  rw [numerIs, denomIs] at isQuot isRem
  rw [Int32.toInt_ofNat_of_lt (by omega)] at isQuot isRem
  apply not_quotient_of_divided positive divided
  constructor
  · exact_mod_cast isQuot
  · exact_mod_cast isRem

/-- For a numerator that is not negative and a positive denominator `div` returns the quotient
and the remainder, with no shift too far and nothing that does not fit, only when the
numerator is zero. -/
theorem div_quotient_iff {numer denom : Int32} (notNegative : 0 ≤ numer.toInt)
    (positive : 0 < denom.toInt) :
    ((div numer denom).IsQuotient numer denom ∧
      ∀ pass ∈ divPasses numer denom (numer - 1).toNatClampNeg ⟨0, 0⟩,
        PassFits numer denom pass) ↔ numer = 0 := by
  constructor
  · rintro ⟨isQuotient, passFits⟩
    by_contra notZero
    have numerIs : numer = Int32.ofNat numer.toInt.toNat :=
      (Int32.ofNat_toNatClampNeg _ (Int32.le_iff_toInt_le.mpr notNegative)).symm
    have denomIs : denom = Int32.ofNat denom.toInt.toNat :=
      (Int32.ofNat_toNatClampNeg _ (Int32.le_iff_toInt_le.mpr (Int.le_of_lt positive))).symm
    have denomFits := denom.toInt_lt
    have numerPositive : numer.toInt ≠ 0 := fun same => notZero (Int32.toInt_inj.mp same)
    have start : (numer - 1).toNatClampNeg = numer.toInt.toNat - 1 := by
      rw [← Int32.toNat_toInt, toInt_pred (by omega)]
      omega
    -- From 33 on the first shift is too far, and up to there the lowest bit is missing.
    by_cases inside : numer.toInt.toNat - 1 < 32
    · rw [numerIs, denomIs] at isQuotient
      exact div_not_quotient (by omega) inside (by omega) (by omega) isQuotient
    · rcases Nat.exists_eq_add_of_le (show 1 ≤ numer.toInt.toNat - 1 by omega) with ⟨i, first⟩
      rw [start, first, Nat.add_comm 1 i] at passFits
      have small := (passFits _ (List.mem_cons_self ..)).1
      change i + 1 < 32 at small
      omega
  · rintro rfl
    have denomNotZero : denom ≠ 0 := by
      rintro rfl
      have zero : (0 : Int32).toInt = 0 := rfl
      omega
    constructor
    · have zero : (0 : Int32).toInt = 0 := rfl
      rw [div, if_neg denomNotZero]
      change DivT.IsQuotient ⟨0, 0⟩ 0 denom
      simp [DivT.IsQuotient, zero]
    · intro pass member
      cases member

theorem div_quotient_iff_zero :
    (div 0 10).IsQuotient 0 10 ∧
      ∀ pass ∈ divPasses 0 10 (0 - 1 : Int32).toNatClampNeg ⟨0, 0⟩, PassFits 0 10 pass :=
  (@div_quotient_iff 0 10 (by decide) (by decide)).mpr rfl

/-- Ten by five is nothing with five left, and for a hundred there is a shift by 99. -/
theorem div_not_quotients :
    div 10 5 = ⟨0, 5⟩ ∧ ¬(div 10 5).IsQuotient 10 5 ∧
      ∃ pass ∈ divPasses 100 10 (100 - 1 : Int32).toNatClampNeg ⟨0, 0⟩,
        pass.1 = 99 ∧ ¬PassFits 100 10 pass := by
  have computed : div 10 5 = ⟨0, 5⟩ := by decide +kernel
  refine ⟨computed, ?_, ⟨99, ⟨0, 0⟩⟩, List.mem_cons_self .., rfl, ?_⟩
  · rw [computed]
    rintro ⟨isQuot, _⟩
    revert isQuot
    decide
  · rintro ⟨inside, _⟩
    revert inside
    decide

end Osserver
