import Mathlib.Data.List.TakeWhile

/-!
# Strings in memory

A string is the bytes before its terminating zero. A byte is read of it by its position;
behind the zero there is nothing to read.
-/

namespace Osserver

structure CString where
  chars : List UInt8
  noZero : 0 ∉ chars
  deriving DecidableEq

/-- `strlen`. -/
def strlen (str : CString) : ℕ :=
  str.chars.length

namespace CString

/-- The byte at a position up to the terminating zero. -/
def byte (str : CString) (i : ℕ) : Option UInt8 :=
  (str.chars ++ [0])[i]?

/-- The string that bytes are the start of, when a zero comes behind them. -/
def ofBytes (bytes : List UInt8) : CString where
  chars := bytes.takeWhile (· ≠ 0)
  noZero := by
    intro zero
    have nonzero := List.mem_takeWhile_imp zero
    simp at nonzero

variable {str : CString} {i : ℕ}

theorem ofBytes_chars {bytes : List UInt8} (noZero : 0 ∉ bytes) : (ofBytes bytes).chars = bytes := by
  apply List.takeWhile_eq_self_iff.mpr
  intro byte isByte
  simp only [ne_eq, decide_eq_true_eq]
  rintro rfl
  exact noZero isByte

theorem byte_of_lt (inside : i < strlen str) : str.byte i = some (str.chars.getD i 0) := by
  have inChars : i < str.chars.length := inside
  rw [byte, List.getElem?_append_left inChars, List.getD_eq_getElem?_getD,
    List.getElem?_eq_getElem inChars, Option.getD_some]

end CString

end Osserver
