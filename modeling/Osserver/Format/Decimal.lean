import Osserver.Format.Hex
import Osserver.Format.HighBits

/-!
# Decimal output

A decimal conversion puts out its sign and then what `div` leaves of its number. Of a small
number the lowest bit is lost. A large one is followed by one that is large again, or by a
negative one, of which a zero comes out: so its digits begin with that zero. Only zero comes
out as it is.
-/

namespace Osserver

open Numeral

section Values

/-- The type of a decimal conversion. -/
def decimalType (signed : Bool) : UInt8 :=
  if signed then 0x64 else 0x75

def decimalConversion (signed : Bool) : Conversion :=
  if signed then .signed else .unsigned

/-- The number that a decimal conversion takes. -/
def decimalValue (args : VaList) (i : ℕ) (isLongLong signed : Bool) : ℤ :=
  if signed then (args.signedArg i isLongLong).toInt else (args.unsignedArg i isLongLong).toNat

def decimalSign (n : ℤ) : List UInt8 :=
  if n < 0 then [0x2D] else []

def decimalChar (digit : ℕ) : UInt8 :=
  0x30 + UInt8.ofNat digit

/-- The value of a decimal digit. -/
def decimalDigit (c : UInt8) : ℕ :=
  c.toNat - 0x30

variable {n : Int64} {num : UInt64}

theorem toNat_toUInt64 (notNegative : ¬n < 0) : n.toUInt64.toNat = n.toInt.natAbs := by
  have zero : (0 : Int64).toInt = 0 := rfl
  rw [Int64.lt_iff_toInt_lt, zero] at notNegative
  rw [Int64.toNat_toUInt64_of_le, ← Int64.toNat_toInt]
  · omega
  · rw [Int64.le_iff_toInt_le, zero]
    omega

/-- The lowest number is its own negative, and has the absolute value that it then has as an
unsigned number. -/
theorem toNat_neg_toUInt64 (negative : n < 0) : (-n).toUInt64.toNat = n.toInt.natAbs := by
  by_cases lowest : n = Int64.minValue
  · rw [lowest]
    decide
  · have zero : (0 : Int64).toInt = 0 := rfl
    have notLowest : n.toInt ≠ -2 ^ 63 := fun same => lowest (Int64.toInt_inj.mp same)
    have bound := n.le_toInt
    rw [Int64.lt_iff_toInt_lt, zero] at negative
    have opposite : (-n).toInt = -n.toInt := by
      rw [Int64.toInt_neg]
      apply Int.bmod_eq_of_le
      · omega
      · omega
    rw [toNat_toUInt64, opposite, Int.natAbs_neg]
    rw [Int64.lt_iff_toInt_lt, opposite, zero]
    omega

/-- A decimal conversion puts out its sign, and the digits of the absolute value of its
number. -/
theorem decimal_text (args : VaList) (i : ℕ) (directive : Directive) (signed : Bool) :
    ∃ num, decimalArg args i directive (decimalConversion signed) = some num ∧
      num.toNat = (decimalValue args i directive.isLongLong signed).natAbs ∧
      conversionText args i directive (decimalConversion signed) =
        decimalSign (decimalValue args i directive.isLongLong signed) ++
          numeralText directive.flags directive.width (decimalDigits num) := by
  cases signed with
  | false =>
      refine ⟨_, rfl, rfl, ?_⟩
      have notNegative : ¬decimalValue args i directive.isLongLong false < 0 :=
        Int.not_lt.mpr (Int.natCast_nonneg _)
      rw [decimalSign, if_neg notNegative]
      rfl
  | true =>
      have sign : args.signedArg i directive.isLongLong < 0 ↔
          decimalValue args i directive.isLongLong true < 0 := Int64.lt_iff_toInt_lt
      by_cases negative : args.signedArg i directive.isLongLong < 0
      · refine ⟨(-args.signedArg i directive.isLongLong).toUInt64, ?_,
          toNat_neg_toUInt64 negative, ?_⟩
        · exact congrArg some (if_pos negative)
        · rw [decimalSign, if_pos (sign.mp negative)]
          exact if_pos negative
      · refine ⟨(args.signedArg i directive.isLongLong).toUInt64, ?_, toNat_toUInt64 negative, ?_⟩
        · exact congrArg some (if_neg negative)
        · rw [decimalSign, if_neg (mt sign.mpr negative)]
          exact if_neg negative

end Values

section Exact

variable {num : UInt64} {room : ℕ} {digits text : List UInt8}

/-- The digits of half of a small number. A ten is one digit. -/
def halfText (half : ℕ) : List UInt8 :=
  if half ≤ 10 then [0x30 + UInt8.ofNat half] else [0x31, 0x30 + UInt8.ofNat (half - 10)]

/-- The first division leaves no more than a two, for which there is one digit more. -/
theorem decDigits_half : ∀ half : Fin 17,
    let digits := [(0x30 + (divHalf half).rem).toInt8.toUInt8]
    let num := (divHalf half).quot.toInt64.toUInt64
    (if num > 0 then decDigits 30 num digits else .ok digits) = .ok (halfText half) := by
  decide +kernel

theorem decDigits_small (inside : ShiftsInside num.toUInt32.toInt32) :
    decDigits 31 num [] = .ok (halfText (num.toUInt32.toInt32.toInt.toNat / 2)) := by
  rw [decDigits, div_ten_eq inside]
  exact decDigits_half ⟨_, inside.half_lt⟩

theorem digitsFit_small (inside : ShiftsInside num.toUInt32.toInt32) : DigitsFit num := by
  by_contra tooMany
  have written := decDigits_small inside
  rw [decDigits_eq_error tooMany] at written
  cases written

theorem decimalDigits_small (inside : ShiftsInside num.toUInt32.toInt32) :
    decimalDigits num = halfText (num.toUInt32.toInt32.toInt.toNat / 2) := by
  rw [decimalDigits, decDigits_small inside]
  rfl

theorem halfText_noZero : ∀ half : Fin 17, 0 ∉ halfText half := by
  decide

theorem value_halfText : ∀ half : Fin 17, value 10 decimalDigit (halfText half) = half := by
  decide

theorem decimalDigit_char : ∀ d < 10, decimalDigit (decimalChar d) = d := by
  decide

theorem decimalChar_ne_zero : ∀ d < 10, 0 < d → decimalChar d ≠ 0x30 := by
  decide

theorem eq_zero_of_half : ∀ half : Fin 17,
    (UInt64.ofNat half).toUInt32.toInt32.toInt.toNat / 2 = half → half = 0 := by
  decide

theorem decimalNext_toInt32 (num : UInt64) :
    (decimalNext num).toUInt32.toInt32 = (div num.toUInt32.toInt32 10).quot := by
  apply Int32.toBitVec_inj.mp
  ext i inside
  have inLong : i < 64 := by omega
  simp [decimalNext, BitVec.getElem_signExtend, inside, inLong]

/-- The digits of a large number come behind the zero of a negative one. -/
theorem head?_decDigits (outside : ¬ShiftsInside num.toUInt32.toInt32)
    (written : decDigits room num digits = .ok text) : text.head? = some 0x30 := by
  induction room generalizing num digits with
  | zero => cases written
  | succ room ih =>
      have high := highBits_div outside
      have notLast : ¬decimalNext num = 0 := by
        intro last
        have noQuot := decimalNext_toInt32 num
        have zero : (0 : Int32).toInt = 0 := rfl
        rw [last] at noQuot
        rw [← noQuot] at high
        change HighBits 0 at high
        have bounds := high.negative_or_large
        omega
      rw [decDigits_succ, if_neg notLast] at written
      by_cases negative : (div num.toUInt32.toInt32 10).quot.toInt < 0
      · have inside : ShiftsInside (decimalNext num).toUInt32.toInt32 := by
          rw [decimalNext_toInt32]
          have bounds := high.negative_or_large
          exact ⟨by omega, by omega⟩
        have noHalf : (decimalNext num).toUInt32.toInt32.toInt.toNat / 2 = 0 := by
          rw [decimalNext_toInt32]
          omega
        have divided := div_ten_eq inside
        rw [divTen, noHalf] at divided
        have last : decimalNext (decimalNext num) = 0 := by
          rw [decimalNext, divided]
          rfl
        have zero : passChar (decimalNext num) = 0x30 := by
          rw [passChar, divided]
          rfl
        cases room with
        | zero => cases written
        | succ room =>
            rw [decDigits_succ, if_pos last, zero] at written
            cases written
            rfl
      · apply ih _ written
        rw [decimalNext_toInt32]
        intro inside
        have bounds := high.negative_or_large
        have small := inside.2
        omega

/-- The string ends before the first zero, but not before another character. -/
theorem head?_ofBytes {c : UInt8} (head : text.head? = some c) (notZero : c ≠ 0) :
    (CString.ofBytes text).chars.head? = some c := by
  cases text with
  | nil => cases head
  | cons c' text =>
      cases head
      simp [CString.ofBytes, notZero]

/-- Only zero keeps its value. -/
theorem eq_zero_of_decimalDigits (fits : DigitsFit num)
    (isNumeral : (CString.ofBytes (decimalDigits num)).chars = numeral 10 decimalChar num.toNat) :
    num.toNat = 0 := by
  by_cases inside : ShiftsInside num.toUInt32.toInt32
  · have bound := inside.2
    have half := value_halfText ⟨_, inside.half_lt⟩
    rw [decimalDigits_small inside, CString.ofBytes_chars (halfText_noZero ⟨_, inside.half_lt⟩)]
      at isNumeral
    simp only [isNumeral, value_numeral (show 1 < 10 by omega) decimalDigit_char] at half
    have noHalf := eq_zero_of_half ⟨num.toNat, by omega⟩
    simp only [UInt64.ofNat_toNat] at noHalf
    exact congrArg Fin.val (noHalf half.symm)
  · by_contra notZero
    have head := head?_ofBytes (head?_decDigits inside (decDigits_decimalDigits fits)) (by decide)
    rcases @head?_numeral _ 10 num.toNat decimalChar (by omega) (by omega) with
      ⟨d, positive, isDigit, numeralHead⟩
    rw [isNumeral, numeralHead] at head
    exact decimalChar_ne_zero d isDigit positive (Option.some.inj head)

end Exact

/-- Without a flag and a width the digits come out alone. -/
theorem numeralText_bare {digits : List UInt8} (few : digits.length < 2 ^ 30) :
    numeralText Field.bare.flags Field.bare.intWidth digits = (CString.ofBytes digits).chars := by
  rw [numeralText, fieldText_of_fits few (room_le_of_width (by decide) _)]
  simp [Field.bare, Field.width]

/-- The decimal numeral of a number. -/
def decimalNumeral (n : ℤ) : List UInt8 :=
  decimalSign n ++ numeral 10 decimalChar n.natAbs

/-- A decimal conversion puts out the numeral of its number, and the digit loop takes no more
passes than a 64-bit number has digits. -/
def DecimalExact (args : VaList) (i : ℕ) (isLongLong signed : Bool) : Prop :=
  Emits args i (spelled .bare isLongLong (decimalType signed)) (longWords isLongLong)
    (decimalNumeral (decimalValue args i isLongLong signed)) ∧
  ∀ num, num.toNat = (decimalValue args i isLongLong signed).natAbs →
    ∃ digits, decDigits 31 num [] = .ok digits ∧ digits.length ≤ 20

/-- Only zero is put out as it is. -/
theorem decimal_exact_iff (args : VaList) (i : ℕ) (isLongLong signed : Bool) :
    DecimalExact args i isLongLong signed ↔ decimalValue args i isLongLong signed = 0 := by
  have known : conversionOf (decimalType signed) = some (decimalConversion signed) := by
    cases signed with
    | true => rfl
    | false => rfl
  have words : (decimalConversion signed).words
      (Field.bare.directive isLongLong (decimalType signed)) = longWords isLongLong := by
    cases signed with
    | true => rfl
    | false => rfl
  rcases decimal_text args i (Field.bare.directive isLongLong (decimalType signed)) signed with
    ⟨num, isArg, magnitude, text⟩
  change num.toNat = (decimalValue args i isLongLong signed).natAbs at magnitude
  change _ = decimalSign (decimalValue args i isLongLong signed) ++
    numeralText Field.bare.flags Field.bare.intWidth (decimalDigits num) at text
  have few := length_decimalDigits num
  rw [numeralText_bare (by omega)] at text
  have printable : (∀ num ∈ decimalArg args i (Field.bare.directive isLongLong
      (decimalType signed)) (decimalConversion signed), DigitsFit num) ↔ DigitsFit num := by
    simp [isArg]
  constructor
  · rintro ⟨emits, -⟩
    by_cases fits : DigitsFit num
    · have puts := emits_conversionText known (printable.mpr fits)
      rw [words, text] at puts
      have isNumeral := List.append_cancel_left (puts.unique emits)
      rw [← magnitude] at isNumeral
      have noNum := eq_zero_of_decimalDigits fits isNumeral
      omega
    · exact absurd emits (not_emits known (mt printable.mp fits))
  · intro isZero
    have noNum : num = 0 := by
      apply UInt64.toNat_inj.mp
      rw [magnitude, isZero]
      rfl
    have fits : DigitsFit num := by
      rw [noNum]
      decide
    have puts := emits_conversionText known (printable.mpr fits)
    rw [words, text, isZero, noNum] at puts
    rw [DecimalExact, isZero]
    refine ⟨puts, ?_⟩
    intro num' isZero'
    have same : num' = 0 := UInt64.toNat_inj.mp (by rw [isZero']; rfl)
    rw [same]
    exact ⟨[0x30], rfl, by decide⟩

/-- A seven comes out as a three. -/
theorem decimal_not_exact : ¬DecimalExact ⟨fun _ => 7, fun _ => nullString⟩ 0 false false := by
  rintro ⟨emits, -⟩
  have small : ShiftsInside (7 : UInt64).toUInt32.toInt32 := by decide
  have puts := @emits_conversionText 0x75 .bare false ⟨fun _ => 7, fun _ => nullString⟩ 0
    .unsigned rfl fun num isArg => by
      cases isArg
      exact digitsFit_small small
  have few := length_decimalDigits 7
  have three : conversionText ⟨fun _ => 7, fun _ => nullString⟩ 0
      (Field.bare.directive false 0x75) .unsigned = [0x33] := by
    change numeralText Field.bare.flags Field.bare.intWidth (decimalDigits 7) = _
    rw [numeralText_bare (by omega), decimalDigits_small small]
    rfl
  rw [three] at puts
  cases puts.unique emits

end Osserver
