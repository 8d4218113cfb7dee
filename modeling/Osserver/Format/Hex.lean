import Osserver.Format.Field

/-!
# Padded numbers

The digits of a number come out in their field: the width is reduced by the digits, and
what is left of it is padded before or behind them. So hexadecimal output is exact.
-/

namespace Osserver

open Numeral

section Padding

/-- What a conversion with this flag and width is to put out for a number: the padding goes
before the text or behind it, and zeros go between the sign and the digits. -/
def Field.padded (field : Field) (sign digits : List UInt8) : List UInt8 :=
  let fill := field.width.getD 0 - (sign.length + digits.length)
  match field.flag with
  | none => List.replicate fill 0x20 ++ sign ++ digits
  | some .left => sign ++ digits ++ List.replicate fill 0x20
  | some .zero => sign ++ List.replicate fill 0x30 ++ digits

variable {field : Field} {sign digits : List UInt8} {v : ℤ} {width : Int32}

theorem length_padded : (field.padded sign digits).length =
    max (field.width.getD 0) (sign.length + digits.length) := by
  rw [Field.padded]
  rcases field.flag with _ | _ | _
  · simp only [List.length_append, List.length_replicate]
    omega
  · simp only [List.length_append, List.length_replicate]
    omega
  · simp only [List.length_append, List.length_replicate]
    omega

theorem padCount_ofInt (low : -2 ^ 31 < v) (high : v ≤ 2 ^ 31) :
    padCount (Int32.ofInt v) = v.toNat := by
  have one : Int32.ofInt v - 1 = Int32.ofInt (v - 1) := (Int32.ofInt_sub v 1).symm
  rw [padCount, one, Int32.toInt_ofInt_of_le (by omega) (by omega), Int.sub_add_cancel]

/-- Behind a field without padding before it there is none either. -/
theorem padCount_padEnd_ofInt (low : -2 ^ 31 + 1 < v) (high : v ≤ 2 ^ 31) :
    padCount (padEnd (Int32.ofInt v)) = 0 := by
  have one : Int32.ofInt v - 1 = Int32.ofInt (v - 1) := (Int32.ofInt_sub v 1).symm
  rw [padEnd, padCount_ofInt (by omega) high]
  split
  · rfl
  · rw [one, padCount_ofInt (by omega) (by omega)]
    omega

theorem padCount_le (width : Int32) : padCount width ≤ 2 ^ 31 := by
  have bound := (width - 1).toInt_lt
  rw [padCount]
  omega

/-- What is to be padded for a number with the given count of digits. -/
def Field.room (field : Field) (count : ℕ) : ℤ :=
  ((field.width.map Int.ofNat).getD (-1)) - count

theorem intWidth_sub (count : ℕ) :
    field.intWidth - Int32.ofNat count = Int32.ofInt (field.room count) := by
  rw [Field.room, Int32.ofInt_sub, Int32.ofInt_eq_ofNat, Field.intWidth]
  rcases field.width with _ | w
  · rfl
  · change Int32.ofNat w - _ = Int32.ofInt (w : ℤ) - _
    rw [Int32.ofInt_eq_ofNat]

theorem fieldText_eq (field : Field) (count : ℕ) (chars : List UInt8) :
    fieldText field.flags (field.intWidth - Int32.ofNat count) chars =
      match field.flag with
      | none =>
          List.replicate (padCount (Int32.ofInt (field.room count))) 0x20 ++ chars ++
            List.replicate (padCount (padEnd (Int32.ofInt (field.room count)))) 0x20
      | some .left =>
          chars ++ List.replicate (padCount (Int32.ofInt (field.room count))) 0x20
      | some .zero =>
          List.replicate (padCount (Int32.ofInt (field.room count))) 0x30 ++ chars ++
            List.replicate (padCount (padEnd (Int32.ofInt (field.room count)))) 0x30 := by
  rw [intWidth_sub, Field.flags]
  rcases field.flag with _ | _ | _
  · rfl
  · rfl
  · rfl

/-- Padding that can be counted comes before the characters or behind them. -/
theorem fieldText_of_fits {count : ℕ} (few : count < 2 ^ 30) (fits : field.room count ≤ 2 ^ 31)
    (chars : List UInt8) :
    fieldText field.flags (field.intWidth - Int32.ofNat count) chars =
      match field.flag with
      | none => List.replicate (field.width.getD 0 - count) 0x20 ++ chars
      | some .left => chars ++ List.replicate (field.width.getD 0 - count) 0x20
      | some .zero => List.replicate (field.width.getD 0 - count) 0x30 ++ chars := by
  have low : -2 ^ 31 + 1 < field.room count := by
    rw [Field.room]
    rcases field.width with _ | w
    · change _ < (-1 : ℤ) - _
      omega
    · change _ < (w : ℤ) - _
      omega
  have fill : (field.room count).toNat = field.width.getD 0 - count := by
    rw [Field.room]
    rcases field.width with _ | w
    · change ((-1 : ℤ) - count).toNat = 0 - _
      omega
    · change ((w : ℤ) - count).toNat = w - _
      omega
  rw [fieldText_eq, padCount_ofInt (by omega) fits, padCount_padEnd_ofInt low fits, fill]
  rcases field.flag with _ | _ | _
  · simp
  · simp
  · simp

/-- Digits alone come out in their field, as long as the padding can be counted. -/
theorem numeralText_eq_padded (few : digits.length < 2 ^ 30)
    (fits : field.room digits.length ≤ 2 ^ 31) (noZero : 0 ∉ digits) :
    numeralText field.flags field.intWidth digits = field.padded [] digits := by
  rw [numeralText, CString.ofBytes_chars noZero, fieldText_of_fits few fits, Field.padded,
    List.length_nil, Nat.zero_add]
  rcases field.flag with _ | _ | _
  · simp
  · simp
  · simp

end Padding

section Hex

variable {args : VaList} {i : ℕ} {field : Field} {isLongLong : Bool}

/-- The character of a hexadecimal conversion. -/
def hexType (upper : Bool) : UInt8 :=
  if upper then 0x58 else 0x78

theorem length_hexText (type : UInt8) (num : UInt64) : (hexText type num).length ≤ 16 :=
  length_numeral_le (by omega) (Nat.lt_of_lt_of_le num.toNat_lt (by decide))

theorem room_le_of_width (wide : field.width.getD 0 < 2 ^ 31) (count : ℕ) :
    field.room count ≤ 2 ^ 31 := by
  rw [Field.room]
  rcases width : field.width with _ | w
  · change (-1 : ℤ) - count ≤ _
    omega
  · rw [width] at wide
    change w < 2 ^ 31 at wide
    change (w : ℤ) - count ≤ _
    omega

/-- A hexadecimal conversion puts out the shortest numeral of its argument in the letter case
of its type, padded to the width. -/
theorem hex_exact (args : VaList) (i : ℕ) (field : Field) (isLongLong upper : Bool)
    (wide : field.width.getD 0 < 2 ^ 31) :
    let digits := numeral 16 (hexChar (hexType upper)) (args.unsignedArg i isLongLong).toNat
    Emits args i (spelled field isLongLong (hexType upper)) (longWords isLongLong)
        (field.padded [] digits) ∧
      (field.padded [] digits).length = max (field.width.getD 0) digits.length := by
  intro digits
  have known : conversionOf (hexType upper) = some .hex := by
    cases upper with
    | true => rfl
    | false => rfl
  have few : digits.length ≤ 16 := length_hexText _ _
  have noZero : 0 ∉ digits := hexText_noZero
  have emits := @emits_conversionText _ field isLongLong args i _ known fun num isArg => by
    cases isArg
  constructor
  · rw [← numeralText_eq_padded (by omega) (room_le_of_width wide _) noZero]
    exact emits
  · rw [length_padded]
    simp

/-- The width 6 and the flag `0`, for 255. -/
theorem hex_exact_of_255 :
    Emits ⟨fun _ => 255, fun _ => nullString⟩ 0 [0x30, 0x36, 0x78] 1
      [0x30, 0x30, 0x30, 0x30, 0x66, 0x66] := by
  have exact_ := hex_exact ⟨fun _ => 255, fun _ => nullString⟩ 0
    ⟨some .zero, [0x36], by simp [formatIsDigit], by simp⟩ false false (by decide)
  exact exact_.1

end Hex

end Osserver
