import Osserver.Format.Vsnprintf
import Osserver.Lib.Numeral

/-!
# The texts that are put out

Each function that writes puts out one text after another, whatever the buffer is: a field
is its characters with padding before or behind them, and a number is a field whose width
was reduced by its digits. The digits of a decimal number are those that fit into the buffer
of `format_out_dec`; where they do not, there is no outcome.
-/

namespace Osserver

open Numeral

/-- Put out a text, character by character. -/
def Fmt.emit (fmt : Fmt) (text : List UInt8) : Fmt :=
  { fmt with sink := fmt.sink.putAll text }

section Emit

variable {fmt : Fmt} {text more : List UInt8}

@[simp]
theorem emit_sink : (fmt.emit text).sink = fmt.sink.putAll text := rfl

theorem emit_nil : fmt.emit [] = fmt := rfl

theorem emit_emit : (fmt.emit text).emit more = fmt.emit (text ++ more) := by
  rw [Fmt.emit, Fmt.emit, Fmt.emit, Sink.putAll_append]

theorem formatOutChar_eq (c : UInt8) : formatOutChar fmt c = fmt.emit [c] := rfl

theorem foldl_formatOutChar : text.foldl formatOutChar fmt = fmt.emit text := by
  induction text generalizing fmt with
  | nil => rfl
  | cons c text ih => rw [List.foldl_cons, ih, formatOutChar_eq, emit_emit, List.singleton_append]

end Emit

section Fields

/-- How often `--width >= 0` holds. From the lowest number the first step wraps. -/
def padCount (width : Int32) : ℕ :=
  ((width - 1).toInt + 1).toNat

/-- What `width` is after the loop. -/
def padEnd (width : Int32) : Int32 :=
  if 0 < padCount width then -1 else width - 1

/-- A field: its characters between the padding before and behind them. -/
def fieldText (flags : UInt8) (width : Int32) (chars : List UInt8) : List UInt8 :=
  let pad := if flags &&& padZero = padZero then 0x30 else 0x20
  if ~~~flags &&& padLeft ≠ 0 then
    List.replicate (padCount width) pad ++ chars ++ List.replicate (padCount (padEnd width)) pad
  else
    chars ++ List.replicate (padCount width) pad

variable {fmt : Fmt} {width : Int32} {pad : UInt8}

theorem padCount_pos_iff : 0 < padCount width ↔ 0 ≤ width - 1 := by
  have zero : (0 : Int32).toInt = 0 := rfl
  rw [padCount, Int32.le_iff_toInt_le, zero]
  omega

theorem padCount_pred (positive : 0 ≤ width - 1) :
    padCount width = padCount (width - 1) + 1 := by
  have zero : (0 : Int32).toInt = 0 := rfl
  rw [Int32.le_iff_toInt_le, zero] at positive
  rw [padCount, padCount, @toInt_pred (width - 1) (by omega)]
  omega

theorem padEnd_pred (positive : 0 ≤ width - 1) : padEnd (width - 1) = padEnd width := by
  have goesOn := padCount_pos_iff.mpr positive
  rw [padEnd, padEnd, if_pos goesOn]
  split
  · rfl
  · have isLast : (width - 1).toInt = (0 : Int32).toInt := by
      have zero : (0 : Int32).toInt = 0 := rfl
      have once := padCount_pred positive
      rw [padCount] at once
      omega
    rw [Int32.toInt_inj.mp isLast]
    rfl

theorem padLoop_eq : padLoop pad width fmt =
    (padEnd width, fmt.emit (List.replicate (padCount width) pad)) := by
  fun_induction padLoop pad width fmt with
  | case1 width fmt goesOn ih =>
      rw [ih, padEnd_pred goesOn, padCount_pred goesOn, formatOutChar_eq, emit_emit,
        List.replicate_succ, List.singleton_append]
  | case2 width fmt stops =>
      have none : padCount width = 0 := Nat.eq_zero_of_not_pos fun positive =>
        stops (padCount_pos_iff.mp positive)
      rw [padEnd, none, if_neg (Nat.lt_irrefl 0), List.replicate_zero, emit_nil]

theorem formatOutString_eq (str : CString) :
    formatOutString fmt str = fmt.emit (fieldText fmt.flags fmt.width str.chars) := by
  rw [formatOutString, fieldText]
  by_cases padsLeft : ~~~fmt.flags &&& padLeft ≠ 0
  · simp only [if_pos padsLeft, padLoop_eq, foldl_formatOutChar, emit_emit]
  · simp only [if_neg padsLeft, padLoop_eq, foldl_formatOutChar, emit_emit]

end Fields

section Digits

/-- What a pass of the digit loop of `format_out_dec` leaves of the number. -/
def decimalNext (num : UInt64) : UInt64 :=
  (div num.toUInt32.toInt32 10).quot.toInt64.toUInt64

/-- The character that a pass stores. -/
def passChar (num : UInt64) : UInt8 :=
  (0x30 + (div num.toUInt32.toInt32 10).rem).toInt8.toUInt8

/-- Division by ten brings the number to zero before the buffer is full. -/
def DigitsFit (num : UInt64) : Prop :=
  ∃ count < 31, decimalNext^[count + 1] num = 0

instance (num : UInt64) : Decidable (DigitsFit num) :=
  inferInstanceAs (Decidable (∃ count < 31, _))

/-- The characters that are in the buffer then. -/
def decimalDigits (num : UInt64) : List UInt8 :=
  (decDigits 31 num []).toOption.getD []

/-- The character of a digit. -/
def hexChar (type : UInt8) (digit : ℕ) : UInt8 :=
  if digit < 10 then 0x30 + UInt8.ofNat digit
  else if type = 0x78 then 0x61 + UInt8.ofNat digit - 10
  else 0x41 + UInt8.ofNat digit - 10

def hexText (type : UInt8) (num : UInt64) : List UInt8 :=
  numeral 16 (hexChar type) num.toNat

variable {num : UInt64} {type : UInt8} {room : ℕ} {digits : List UInt8}

theorem decDigits_succ :
    decDigits (room + 1) num digits =
      if decimalNext num = 0 then .ok (passChar num :: digits)
      else decDigits room (decimalNext num) (passChar num :: digits) := by
  have goesOn : decimalNext num > 0 ↔ ¬decimalNext num = 0 := UInt64.pos_iff_ne_zero
  change (if decimalNext num > 0 then decDigits room (decimalNext num) (passChar num :: digits)
    else .ok (passChar num :: digits)) = _
  simp only [goesOn, ite_not]

theorem decDigits_eq_ok (fits : ∃ count < room, decimalNext^[count + 1] num = 0) :
    ∃ text, decDigits room num digits = .ok (text ++ digits) ∧ text.length ≤ room := by
  induction room generalizing num digits with
  | zero =>
      rcases fits with ⟨count, none, -⟩
      omega
  | succ room ih =>
      rw [decDigits_succ]
      by_cases last : decimalNext num = 0
      · rw [if_pos last]
        exact ⟨[passChar num], rfl, Nat.succ_le_succ (Nat.zero_le _)⟩
      · rcases fits with ⟨count, inside, zero⟩
        cases count with
        | zero => exact absurd zero last
        | succ count =>
            rw [Function.iterate_succ_apply] at zero
            rcases @ih (decimalNext num) (passChar num :: digits)
              ⟨count, Nat.lt_of_succ_lt_succ inside, zero⟩ with ⟨text, written, few⟩
            refine ⟨text ++ [passChar num], ?_, ?_⟩
            · rw [if_neg last, written, List.append_assoc, List.singleton_append]
            · rw [List.length_append, List.length_singleton]
              exact Nat.succ_le_succ few

theorem decDigits_eq_error (tooMany : ¬∃ count < room, decimalNext^[count + 1] num = 0) :
    decDigits room num digits = .error .outOfBuffer := by
  induction room generalizing num digits with
  | zero => rfl
  | succ room ih =>
      have goesOn : ¬decimalNext num = 0 := fun last => tooMany ⟨0, Nat.succ_pos _, last⟩
      rw [decDigits_succ, if_neg goesOn]
      apply ih
      rintro ⟨count, inside, zero⟩
      exact tooMany ⟨count + 1, Nat.succ_lt_succ inside, zero⟩

theorem decDigits_decimalDigits (fits : DigitsFit num) :
    decDigits 31 num [] = .ok (decimalDigits num) := by
  rcases @decDigits_eq_ok num 31 [] fits with ⟨text, written, -⟩
  rw [decimalDigits, written]
  rfl

theorem length_decimalDigits (num : UInt64) : (decimalDigits num).length ≤ 31 := by
  rw [decimalDigits]
  by_cases fits : DigitsFit num
  · rcases @decDigits_eq_ok num 31 [] fits with ⟨text, written, few⟩
    rw [written, List.append_nil]
    exact few
  · rw [decDigits_eq_error fits]
    exact Nat.zero_le _

theorem lowDigit_eq (num : UInt64) : (num &&& 0xF).toUInt8 = UInt8.ofNat (num.toNat % 16) := by
  have mask : num.toNat &&& 15 = num.toNat % 16 := Nat.and_two_pow_sub_one_eq_mod num.toNat 4
  have literal : (0xF : UInt64).toNat = 15 := rfl
  rw [← UInt8.toNat_inj, UInt64.toNat_toUInt8, UInt64.toNat_and, literal, mask, UInt8.toNat_ofNat']

theorem toNat_shiftRight_four (num : UInt64) : (num >>> 4).toNat = num.toNat / 16 := by
  rw [UInt64.toNat_shiftRight]
  exact Nat.shiftRight_eq_div_pow num.toNat 4

theorem digitChar_eq {digit : ℕ} (isDigit : digit < 16) :
    (if UInt8.ofNat digit < 10 then 0x30 + UInt8.ofNat digit
      else if type = 0x78 then 0x61 + UInt8.ofNat digit - 10
      else 0x41 + UInt8.ofNat digit - 10) = hexChar type digit := by
  have small : UInt8.ofNat digit < 10 ↔ digit < 10 := by
    rw [UInt8.lt_iff_toNat_lt, UInt8.toNat_ofNat_of_lt' (Nat.lt_trans isDigit (by decide))]
    rfl
  simp only [small, hexChar]

/-- The loop goes on when there is a digit left. -/
theorem hexDigits_succ :
    hexDigits type (room + 1) num digits =
      if 16 ≤ num.toNat then
        hexDigits type room (num >>> 4) (hexChar type (num.toNat % 16) :: digits)
      else .ok (hexChar type (num.toNat % 16) :: digits) := by
  have goesOn : num >>> 4 > 0 ↔ 16 ≤ num.toNat := by
    have zero : (0 : UInt64).toNat = 0 := rfl
    rw [gt_iff_lt, UInt64.lt_iff_toNat_lt, toNat_shiftRight_four, zero]
    omega
  have isDigit : num.toNat % 16 < 16 := Nat.mod_lt _ (by omega)
  simp only [hexDigits, lowDigit_eq, digitChar_eq isDigit, goesOn]

theorem hexDigits_eq (fits : num.toNat < 16 ^ (room + 1)) :
    hexDigits type (room + 1) num digits = .ok (hexText type num ++ digits) := by
  induction room generalizing num digits with
  | zero =>
      have single : num.toNat < 16 := fits
      rw [hexDigits_succ, if_neg (by omega), hexText, numeral_of_lt single,
        Nat.mod_eq_of_lt single]
      rfl
  | succ room ih =>
      rw [hexDigits_succ]
      by_cases more : 16 ≤ num.toNat
      · have shorter : (num >>> 4).toNat < 16 ^ (room + 1) := by
          rw [toNat_shiftRight_four]
          rw [Nat.pow_succ] at fits
          exact Nat.div_lt_of_lt_mul (by omega)
        rw [if_pos more, ih shorter, hexText, hexText, toNat_shiftRight_four,
          numeral_of_le (by omega) more, List.append_assoc, List.singleton_append]
      · have single : num.toNat < 16 := by omega
        rw [if_neg more, hexText, numeral_of_lt single, Nat.mod_eq_of_lt single]
        rfl

theorem hexChar_ne_zero {digit : ℕ} (isDigit : digit < 16) : hexChar type digit ≠ 0 := by
  rw [hexChar]
  have chars : ∀ digit : Fin 16, 0x30 + UInt8.ofNat digit ≠ 0 ∧
      0x61 + UInt8.ofNat digit - 10 ≠ 0 ∧ 0x41 + UInt8.ofNat digit - 10 ≠ 0 := by
    decide
  rcases chars ⟨digit, isDigit⟩ with ⟨decimal, lower, upper⟩
  split
  · exact decimal
  · split
    · exact lower
    · exact upper

theorem hexText_noZero : 0 ∉ hexText type num := by
  intro zero
  rcases exists_of_mem_numeral (by omega) zero with ⟨digit, isDigit, isZero⟩
  exact hexChar_ne_zero isDigit isZero

end Digits

section Numerals

/-- The digits of a number in their field. Where a digit is a zero byte, the string that is
put out ends before it. -/
def numeralText (flags : UInt8) (width : Int32) (digits : List UInt8) : List UInt8 :=
  fieldText flags (width - Int32.ofNat digits.length) (CString.ofBytes digits).chars

variable {fmt : Fmt} {num : UInt64} {type : UInt8}

theorem formatOutDec_eq_ok (fits : DigitsFit num) :
    ∃ width, formatOutDec fmt num =
      .ok (Fmt.emit { fmt with width := width }
        (numeralText fmt.flags fmt.width (decimalDigits num))) := by
  refine ⟨fmt.width - Int32.ofNat (decimalDigits num).length, ?_⟩
  rw [formatOutDec, decDigits_decimalDigits fits, Except.map, formatOutString_eq]
  rfl

theorem formatOutDec_eq_error (tooMany : ¬DigitsFit num) :
    formatOutDec fmt num = .error .outOfBuffer := by
  rw [formatOutDec, decDigits_eq_error tooMany]
  rfl

theorem formatOutHex_eq :
    ∃ width, formatOutHex fmt type num =
      .ok (Fmt.emit { fmt with width := width }
        (numeralText fmt.flags fmt.width (hexText type num))) := by
  have fits : num.toNat < 16 ^ (30 + 1) := Nat.lt_trans num.toNat_lt (by decide)
  refine ⟨fmt.width - Int32.ofNat (hexText type num).length, ?_⟩
  rw [formatOutHex, hexDigits_eq fits, Except.map, formatOutString_eq, List.append_nil]
  rfl

end Numerals

end Osserver
