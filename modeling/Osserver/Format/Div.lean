import Osserver.Format.Basic

/-!
# Division

The model of `div` in `generic/std/stdlib.c`. Its loop starts at the numerator itself, not
at the number of its bits, so from 33 on it begins with shifts by more than an `int` has
bits. The processor takes the count of a shift modulo 32, and so does the model. For the
small numbers, whose loop has no such shift, the outcome is computed.
-/

namespace Osserver

/-- `div_t`. -/
structure DivT where
  quot : Int32
  rem : Int32
  deriving DecidableEq

/-- The body of the loop. Both shifts take `i` modulo 32. -/
def divBit (numer denom : Int32) (i : ℕ) (ret : DivT) : DivT :=
  let rem := ret.rem <<< 1
  let bit := ((numer >>> Int32.ofNat i) &&& 1).toInt8.toUInt8
  let rem := if bit ≠ 0 then rem ||| 1 else rem &&& ~~~1
  if rem > denom then ⟨ret.quot ||| 1 <<< Int32.ofNat i, rem - denom⟩ else ⟨ret.quot, rem⟩

/-- The loop, from bit `i` down to bit 1. -/
def divLoop (numer denom : Int32) : ℕ → DivT → DivT
  | 0, ret => ret
  | i + 1, ret => divLoop numer denom i (divBit numer denom (i + 1) ret)

def div (numer denom : Int32) : DivT :=
  if denom = 0 then ⟨0, 0⟩
  else divLoop numer denom (numer - 1).toNatClampNeg ⟨0, 0⟩

/-- The numbers that the loop of `div` shifts by less than an `int` has bits. -/
def ShiftsInside (numer : Int32) : Prop :=
  -2 ^ 31 < numer.toInt ∧ numer.toInt ≤ 32

instance (numer : Int32) : Decidable (ShiftsInside numer) :=
  inferInstanceAs (Decidable (_ ∧ _))

/-- What `div` gives for half of a small number, divided by ten. -/
def divHalf (half : ℕ) : DivT :=
  if half ≤ 10 then ⟨0, Int32.ofNat half⟩ else ⟨2, Int32.ofNat (half - 10)⟩

/-- The lowest bit is left out. -/
def divTen (numer : Int32) : DivT :=
  divHalf (numer.toInt.toNat / 2)

variable {numer : Int32}

theorem ShiftsInside.half_lt (inside : ShiftsInside numer) : numer.toInt.toNat / 2 < 17 := by
  have bound := inside.2
  omega

theorem div_ten_small :
    ∀ m : Fin 33, div (Int32.ofNat m) 10 = divTen (Int32.ofNat m) := by
  decide +kernel

theorem div_ten_eq (inside : ShiftsInside numer) : div numer 10 = divTen numer := by
  rcases inside with ⟨notLowest, small⟩
  by_cases positive : 0 < numer.toInt
  · have isSmall : Int32.ofNat numer.toInt.toNat = numer := by
      apply Int32.ofNat_toNatClampNeg
      rw [Int32.le_iff_toInt_le]
      exact Int.le_of_lt positive
    have computed := div_ten_small ⟨numer.toInt.toNat, by omega⟩
    simp only [isSmall] at computed
    exact computed
  · have start : (numer - 1).toNatClampNeg = 0 := by
      rw [← Int32.toNat_toInt, toInt_pred notLowest]
      omega
    have noHalf : numer.toInt.toNat / 2 = 0 := by omega
    rw [div, if_neg (by decide), start, divTen, noHalf]
    rfl

/-- For all other numbers the loop starts at 32 or above. -/
theorem start_of_not_inside (outside : ¬ShiftsInside numer) :
    32 ≤ (numer - 1).toNatClampNeg := by
  by_cases lowest : numer = Int32.minValue
  · rw [lowest]
    decide
  · have notLowest : numer.toInt ≠ -2 ^ 31 := fun same => lowest (Int32.toInt_inj.mp same)
    have bound := numer.le_toInt
    have large : ¬numer.toInt ≤ 32 := fun small => outside ⟨by omega, small⟩
    rw [← Int32.toNat_toInt, toInt_pred (by omega)]
    omega

end Osserver
