import Osserver.CString
import Osserver.Lib.Bytes
import Mathlib.Algebra.Group.Int.Defs

/-!
# What the text functions share

The model of `generic/std/format.c` and of what it calls in `stdlib.c`. Numbers are of the
widths that they have in the source, and a sum, difference or product that does not fit
wraps. Two things have no outcome here: to store outside a local buffer, and to read behind
the zero of a string.
-/

namespace Osserver

/-- Why a call of a text function has no outcome. -/
inductive Fault where
  | outOfBuffer
  | outOfString
  | endlessLoop
  deriving DecidableEq, Repr

/-- `format_is_space`. -/
def formatIsSpace (c : UInt8) : Bool :=
  c = 0x20 || c = 0x09 || c = 0x0D || c = 0x0A || c = 0x0C || c = 0x0B

/-- `format_is_digit`. A byte from 0x80 on is a negative `char`, so it is no digit either way. -/
def formatIsDigit (c : UInt8) : Bool :=
  0x30 ≤ c && c ≤ 0x39

theorem formatIsDigit_iff {c : UInt8} :
    formatIsDigit c = true ↔ 0x30 ≤ c.toNat ∧ c.toNat ≤ 0x39 := by
  simp [formatIsDigit, UInt8.le_iff_toNat_le]

section Int32

variable {x y : Int32}

theorem toInt_sub_of_fits (low : -2 ^ 31 ≤ x.toInt - y.toInt) (high : x.toInt - y.toInt < 2 ^ 31) :
    (x - y).toInt = x.toInt - y.toInt := by
  rw [Int32.toInt_sub]
  apply Int.bmod_eq_of_le
  · omega
  · omega

theorem toInt_pred (notLowest : -2 ^ 31 < x.toInt) : (x - 1).toInt = x.toInt - 1 := by
  have one : (1 : Int32).toInt = 1 := rfl
  have bound := x.toInt_lt
  rw [toInt_sub_of_fits, one]
  · omega
  · omega

end Int32

end Osserver
