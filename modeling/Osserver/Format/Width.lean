import Osserver.Format.Decimal

/-!
# The width of numbers with a sign

The sign of a number is put out before its field, and is not counted in its width. So a
number with a sign is padded right only when there is nothing to pad, or when the digits
that a zero byte among them cuts off make up for the sign.
-/

namespace Osserver

open Numeral

section Padding

variable {field : Field} {sign digits : List UInt8} {count : ℕ} {width : Int32}

theorem padCount_add_le (width : Int32) :
    padCount width + padCount (padEnd width) ≤ 2 ^ 31 := by
  rw [padEnd]
  split
  · have none : padCount (-1) = 0 := rfl
    rw [none]
    exact padCount_le width
  · have behind := padCount_le (width - 1)
    omega

theorem length_fieldText_le (field : Field) (count : ℕ) (chars : List UInt8) :
    (fieldText field.flags (field.intWidth - Int32.ofNat count) chars).length ≤
      chars.length + 2 ^ 31 := by
  have all := padCount_add_le (Int32.ofInt (field.room count))
  rw [fieldText_eq]
  rcases field.flag with _ | _ | _
  · simp only [List.length_append, List.length_replicate]
    omega
  · simp only [List.length_append, List.length_replicate]
    omega
  · simp only [List.length_append, List.length_replicate]
    omega

/-- Zeros may stand on either side of digits just when these are zeros too. -/
theorem zeros_comm_iff {count : ℕ} (enough : digits.length ≤ count) :
    digits ++ List.replicate count 0x30 = List.replicate count 0x30 ++ digits ↔
      ∀ c ∈ digits, c = 0x30 := by
  constructor
  · intro same c isDigit
    have front : digits <+: List.replicate count 0x30 ++ digits := by
      rw [← same]
      exact List.prefix_append _ _
    have inZeros : digits <+: List.replicate count 0x30 :=
      List.prefix_of_prefix_length_le front (List.prefix_append _ _)
        (by rw [List.length_replicate]; exact enough)
    exact List.eq_of_mem_replicate (inZeros.subset isDigit)
  · intro zeros
    rw [List.eq_replicate_of_mem zeros, List.replicate_append_replicate,
      List.replicate_append_replicate, Nat.add_comm]

theorem padded_of_le (narrow : field.width.getD 0 ≤ sign.length + digits.length) :
    field.padded sign digits = sign ++ digits := by
  rw [Field.padded, Nat.sub_eq_zero_of_le narrow]
  rcases field.flag with _ | _ | _
  · simp
  · simp
  · simp

theorem padded_ne_of_lt (wide : sign.length + digits.length < field.width.getD 0) :
    sign ++ digits ≠ field.padded sign digits := by
  intro same
  have lengths := congrArg List.length same
  rw [length_padded, List.length_append] at lengths
  omega

theorem room_of_lt (wide : count < field.width.getD 0) :
    field.room count = (field.width.getD 0 : ℕ) - (count : ℤ) := by
  rw [Field.room]
  rcases width : field.width with _ | w
  · rw [width] at wide
    exact absurd wide (Nat.not_lt_zero _)
  · rfl

/-- A width that the digits fill already. -/
theorem fieldText_of_le (few : count < 2 ^ 30) (narrow : field.width.getD 0 ≤ count) :
    fieldText field.flags (field.intWidth - Int32.ofNat count) digits = digits := by
  rw [fieldText_of_fits few (room_le_of_width (by omega) _), Nat.sub_eq_zero_of_le narrow]
  rcases field.flag with _ | _ | _
  · simp
  · simp
  · simp

/-- One more than can be counted wraps to a field with nothing before it, and all of the
padding behind. -/
theorem fieldText_of_wrap (wrap : field.room count = 2 ^ 31 + 1) :
    fieldText field.flags (field.intWidth - Int32.ofNat count) digits =
      match field.flag with
      | none => digits ++ List.replicate (2 ^ 31) 0x20
      | some .left => digits
      | some .zero => digits ++ List.replicate (2 ^ 31) 0x30 := by
  have before : padCount (Int32.ofInt (2 ^ 31 + 1)) = 0 := by decide
  have behind : padCount (padEnd (Int32.ofInt (2 ^ 31 + 1))) = 2 ^ 31 := by decide
  rw [fieldText_eq, wrap, before, behind]
  rcases field.flag with _ | _ | _
  · simp only [List.replicate_zero, List.nil_append]
  · simp only [List.replicate_zero, List.nil_append]
  · simp only [List.replicate_zero, List.append_nil]

/-- Two more than can be counted wrap to no padding at all. -/
theorem fieldText_of_wrap_two (wrap : field.room count = 2 ^ 31 + 2) :
    fieldText field.flags (field.intWidth - Int32.ofNat count) digits = digits := by
  have before : padCount (Int32.ofInt (2 ^ 31 + 2)) = 0 := by decide
  have behind : padCount (padEnd (Int32.ofInt (2 ^ 31 + 2))) = 0 := by decide
  rw [fieldText_eq, wrap, before, behind]
  rcases field.flag with _ | _ | _
  · simp
  · simp
  · simp

/-- What comes out has the length that it is to have. -/
theorem length_of_padded
    (same : sign ++ fieldText field.flags (field.intWidth - Int32.ofNat count) digits =
      field.padded sign digits) :
    sign.length + (fieldText field.flags (field.intWidth - Int32.ofNat count) digits).length =
      max (field.width.getD 0) (sign.length + digits.length) := by
  rw [← List.length_append, same, length_padded]

/-- Padding that can be counted is right when the sign makes up for what the digits lack to
their count; and spaces come before a sign. -/
theorem signed_padded_of_fits (noSpace : sign.head? ≠ some 0x20) (few : count < 2 ^ 30)
    (wide : count < field.width.getD 0) (fits : field.width.getD 0 ≤ count + 2 ^ 31) :
    sign ++ fieldText field.flags (field.intWidth - Int32.ofNat count) digits =
        field.padded sign digits ↔
      sign.length + digits.length = count ∧ (sign = [] ∨ field.flag.isSome = true) := by
  have room := room_of_lt wide
  have text := fieldText_of_fits few (show field.room count ≤ 2 ^ 31 by omega) digits
  constructor
  · intro same
    have lengths := length_of_padded same
    have long : (fieldText field.flags (field.intWidth - Int32.ofNat count) digits).length =
        field.width.getD 0 - count + digits.length := by
      rw [text]
      rcases field.flag with _ | _ | _
      · simp only [List.length_append, List.length_replicate]
      · simp only [List.length_append, List.length_replicate]
      · simp only [List.length_append, List.length_replicate]
        omega
    have exact_ : sign.length + digits.length = count := by omega
    refine ⟨exact_, ?_⟩
    by_contra! signed
    rcases flag : field.flag with _ | flag
    · rcases Nat.exists_eq_add_of_lt wide with ⟨fill, isFill⟩
      have filled : field.width.getD 0 - count = fill + 1 := by omega
      rcases sign with _ | ⟨c, sign⟩
      · exact signed.1 rfl
      · rw [text, Field.padded, flag, exact_, filled] at same
        have heads := congrArg List.head? same
        simp only [List.cons_append, List.head?_cons, List.replicate_succ] at heads
        exact noSpace heads
    · rw [flag] at signed
      exact signed.2 rfl
  · rintro ⟨exact_, noSignOrFlag⟩
    rw [text, Field.padded, exact_]
    rcases flag : field.flag with _ | _ | _
    · rcases noSignOrFlag with rfl | isSome
      · rw [List.nil_append, List.append_nil]
      · rw [flag] at isSome
        cases isSome
    · exact (List.append_assoc ..).symm
    · exact (List.append_assoc ..).symm

theorem signed_padded_of_wrap (short : sign.length ≤ 2) (noSpace : sign.head? ≠ some 0x20)
    (few : count < 2 ^ 30) (notMore : digits.length ≤ count)
    (wide : field.width.getD 0 = count + 2 ^ 31 + 1) :
    sign ++ fieldText field.flags (field.intWidth - Int32.ofNat count) digits =
        field.padded sign digits ↔
      sign.length + digits.length = count + 1 ∧ field.flag = some .zero ∧
        ∀ c ∈ digits, c = 0x30 := by
  have room := @room_of_lt field count (by omega)
  have text := @fieldText_of_wrap field digits count (by omega)
  constructor
  · intro same
    have lengths := length_of_padded same
    rw [text] at lengths same
    rcases flag : field.flag with _ | _ | _
    · rw [flag] at lengths same
      simp only [List.length_append, List.length_replicate] at lengths
      have oneMore : sign.length + digits.length = count + 1 := by omega
      have fill : field.width.getD 0 - (sign.length + digits.length) = 2 ^ 31 - 1 + 1 := by omega
      rw [Field.padded, flag, fill] at same
      rcases sign with _ | ⟨c, sign⟩
      · rw [List.length_nil] at oneMore
        omega
      · have heads := congrArg List.head? same
        simp only [List.cons_append, List.head?_cons, List.replicate_succ] at heads
        exact absurd heads noSpace
    · rw [flag] at lengths same
      simp only [List.length_append, List.length_replicate] at lengths
      have oneMore : sign.length + digits.length = count + 1 := by omega
      have fill : field.width.getD 0 - (sign.length + digits.length) = 2 ^ 31 := by omega
      rw [Field.padded, flag, fill] at same
      simp only [List.append_assoc] at same
      exact ⟨oneMore, rfl, (zeros_comm_iff (by omega)).mp (List.append_cancel_left same)⟩
    · rw [flag] at lengths
      simp only at lengths
      omega
  · rintro ⟨oneMore, flag, zeros⟩
    have fill : field.width.getD 0 - (sign.length + digits.length) = 2 ^ 31 := by omega
    have comm := (@zeros_comm_iff digits (2 ^ 31) (by omega)).mpr zeros
    rw [text, Field.padded, flag, fill]
    simp only [List.append_assoc, comm]

/-- When the padding behind a sign is right: the digits that are counted fill the width, and so
do the sign and those that come out; or there are as many of these as are counted, and no
spaces come between them; or zeros stand beside zeros that are all of the digits. -/
theorem signed_padded_iff (few : count < 2 ^ 30) (notMore : digits.length ≤ count)
    (short : sign.length ≤ 2) (noSpace : sign.head? ≠ some 0x20) :
    sign ++ fieldText field.flags (field.intWidth - Int32.ofNat count) digits =
        field.padded sign digits ↔
      (field.width.getD 0 ≤ count ∧ field.width.getD 0 ≤ sign.length + digits.length) ∨
      (sign.length + digits.length = count ∧ (sign = [] ∨ field.flag.isSome = true) ∧
        field.width.getD 0 ≤ count + 2 ^ 31) ∨
      (sign.length + digits.length = count + 1 ∧ field.flag = some .zero ∧
        (∀ c ∈ digits, c = 0x30) ∧ field.width.getD 0 = count + 2 ^ 31 + 1) := by
  by_cases narrow : field.width.getD 0 ≤ count
  · rw [fieldText_of_le few narrow]
    by_cases filled : field.width.getD 0 ≤ sign.length + digits.length
    · exact iff_of_true (padded_of_le filled).symm (Or.inl ⟨narrow, filled⟩)
    · refine iff_of_false (padded_ne_of_lt (Nat.lt_of_not_le filled)) ?_
      rintro (⟨-, fills⟩ | ⟨all, -, -⟩ | ⟨-, -, -, wide⟩)
      · exact filled fills
      · omega
      · omega
  by_cases fits : field.width.getD 0 ≤ count + 2 ^ 31
  · rw [signed_padded_of_fits noSpace few (by omega) fits]
    constructor
    · rintro ⟨all, noSignOrFlag⟩
      exact Or.inr (Or.inl ⟨all, noSignOrFlag, fits⟩)
    · rintro (⟨isNarrow, -⟩ | ⟨all, noSignOrFlag, -⟩ | ⟨-, -, -, wide⟩)
      · exact absurd isNarrow narrow
      · exact ⟨all, noSignOrFlag⟩
      · omega
  by_cases wrap : field.width.getD 0 = count + 2 ^ 31 + 1
  · rw [signed_padded_of_wrap short noSpace few notMore wrap]
    constructor
    · rintro ⟨oneMore, flag, zeros⟩
      exact Or.inr (Or.inr ⟨oneMore, flag, zeros, wrap⟩)
    · rintro (⟨isNarrow, -⟩ | ⟨-, -, small⟩ | ⟨oneMore, flag, zeros, -⟩)
      · exact absurd isNarrow narrow
      · exact absurd small fits
      · exact ⟨oneMore, flag, zeros⟩
  · have tooWide : sign ++ fieldText field.flags (field.intWidth - Int32.ofNat count) digits ≠
        field.padded sign digits := by
      intro same
      have lengths := length_of_padded same
      have bound := length_fieldText_le field count digits
      have room := @room_of_lt field count (by omega)
      have isWrap : field.room count = 2 ^ 31 + 2 := by omega
      rw [fieldText_of_wrap_two isWrap] at lengths
      omega
    refine iff_of_false tooWide ?_
    rintro (⟨isNarrow, -⟩ | ⟨-, -, small⟩ | ⟨-, -, -, wide⟩)
    · exact narrow isNarrow
    · exact fits small
    · exact wrap wide

end Padding

section Law

/-- The conversions that put out something in front of their digits. -/
inductive SignedConversion where
  | dec (isLongLong : Bool)
  | pointer

namespace SignedConversion

/-- The spelling with a flag and a width. -/
def spelled (field : Field) : SignedConversion → List UInt8
  | .dec isLongLong => Osserver.spelled field isLongLong 0x64
  | .pointer => Osserver.spelled field false 0x70

def words : SignedConversion → ℕ
  | .dec isLongLong => longWords isLongLong
  | .pointer => 1

/-- What comes in front of the digits. -/
def sign (args : VaList) (i : ℕ) : SignedConversion → List UInt8
  | .dec isLongLong => decimalSign (decimalValue args i isLongLong true)
  | .pointer => [0x30, 0x78]

/-- The absolute value of the argument. -/
def magnitude (args : VaList) (i : ℕ) (isLongLong : Bool) : UInt64 :=
  UInt64.ofNat (decimalValue args i isLongLong true).natAbs

/-- The digits fit into their buffer. -/
def Fits (args : VaList) (i : ℕ) : SignedConversion → Prop
  | .dec isLongLong => DigitsFit (magnitude args i isLongLong)
  | .pointer => True

/-- The digits in the buffer. The width is reduced by all of them. -/
def digits (args : VaList) (i : ℕ) : SignedConversion → List UInt8
  | .dec isLongLong => decimalDigits (magnitude args i isLongLong)
  | .pointer => hexText 0x78 (args.word i).toUInt64

/-- The digits that come out: those before one that is a zero byte. -/
def shown (args : VaList) (i : ℕ) (conversion : SignedConversion) : List UInt8 :=
  (CString.ofBytes (conversion.digits args i)).chars

end SignedConversion

/-- With a flag and a width the conversion puts out what it puts out without them, padded to
the width: before it, behind it, or with zeros between the sign and the digits. -/
def WidthLaw (args : VaList) (i : ℕ) (conversion : SignedConversion) (field : Field) : Prop :=
  ∃ digits,
    Emits args i (conversion.spelled .bare) conversion.words (conversion.sign args i ++ digits) ∧
    Emits args i (conversion.spelled field) conversion.words
      (field.padded (conversion.sign args i) digits) ∧
    (field.padded (conversion.sign args i) digits).length =
      max (field.width.getD 0) (conversion.sign args i ++ digits).length

open SignedConversion

variable {args : VaList} {i : ℕ} {conversion : SignedConversion} {field : Field}
  {digits : List UInt8}

theorem length_shown_le (args : VaList) (i : ℕ) (conversion : SignedConversion) :
    (conversion.shown args i).length ≤ (conversion.digits args i).length :=
  (List.takeWhile_prefix _).length_le

theorem width_law_of_emits (few : (conversion.digits args i).length < 2 ^ 30)
    (emits : ∀ field : Field, Emits args i (conversion.spelled field) conversion.words
      (conversion.sign args i ++
        numeralText field.flags field.intWidth (conversion.digits args i))) :
    WidthLaw args i conversion field ↔
      conversion.sign args i ++
          numeralText field.flags field.intWidth (conversion.digits args i) =
        field.padded (conversion.sign args i) (conversion.shown args i) := by
  have bare := emits .bare
  rw [numeralText_bare few] at bare
  constructor
  · rintro ⟨digits', bare', padded, -⟩
    have same := List.append_cancel_left (bare.unique bare')
    rw [← same] at padded
    exact (emits field).unique padded
  · intro same
    refine ⟨conversion.shown args i, bare, ?_, ?_⟩
    · rw [← same]
      exact emits field
    · rw [length_padded, List.length_append]

theorem signed_arg (args : VaList) (i : ℕ) (directive : Directive) :
    decimalArg args i directive .signed = some (magnitude args i directive.isLongLong) ∧
      conversionText args i directive .signed =
        decimalSign (decimalValue args i directive.isLongLong true) ++
          numeralText directive.flags directive.width
            (decimalDigits (magnitude args i directive.isLongLong)) := by
  rcases decimal_text args i directive true with ⟨num, isArg, isMagnitude, text⟩
  rw [magnitude, ← isMagnitude, UInt64.ofNat_toNat]
  exact ⟨isArg, text⟩

theorem dec_printable_iff (args : VaList) (i : ℕ) (isLongLong : Bool) (field : Field) :
    (∀ num ∈ decimalArg args i (field.directive isLongLong 0x64) .signed, DigitsFit num) ↔
      (SignedConversion.dec isLongLong).Fits args i := by
  rw [(signed_arg args i (field.directive isLongLong 0x64)).1]
  simp only [Option.mem_def, Option.some.injEq, forall_eq']
  rfl

/-- A conversion whose digits fit puts out its sign, and the digits in their field. -/
theorem signed_emits (fits : conversion.Fits args i) (field : Field) :
    Emits args i (conversion.spelled field) conversion.words
      (conversion.sign args i ++
        numeralText field.flags field.intWidth (conversion.digits args i)) := by
  cases conversion with
  | pointer =>
      exact @emits_conversionText 0x70 field false args i .pointer rfl fun num isArg => by
        cases isArg
  | dec isLongLong =>
      have emits := @emits_conversionText 0x64 field isLongLong args i .signed rfl
        ((dec_printable_iff args i isLongLong field).mpr fits)
      rw [(signed_arg args i (field.directive isLongLong 0x64)).2] at emits
      exact emits

theorem signed_not_emits {text : List UInt8} (tooMany : ¬conversion.Fits args i) :
    ¬Emits args i (conversion.spelled field) conversion.words text := by
  cases conversion with
  | pointer => exact absurd trivial tooMany
  | dec isLongLong =>
      have known : conversionOf 0x64 = some .signed := rfl
      exact not_emits known (mt (dec_printable_iff args i isLongLong field).mp tooMany)

theorem length_sign_le (args : VaList) (i : ℕ) (conversion : SignedConversion) :
    (conversion.sign args i).length ≤ 2 := by
  cases conversion with
  | pointer => exact Nat.le_refl 2
  | dec isLongLong =>
      rw [SignedConversion.sign, decimalSign]
      split
      · exact Nat.le_succ 1
      · exact Nat.zero_le 2

theorem sign_head (args : VaList) (i : ℕ) (conversion : SignedConversion) :
    (conversion.sign args i).head? ≠ some 0x20 := by
  cases conversion with
  | pointer => simp [SignedConversion.sign]
  | dec isLongLong =>
      rw [SignedConversion.sign, decimalSign]
      split
      · simp
      · simp

theorem length_digits_le (args : VaList) (i : ℕ) (conversion : SignedConversion) :
    (conversion.digits args i).length ≤ 31 := by
  cases conversion with
  | pointer =>
      have few := length_hexText 0x78 (args.word i).toUInt64
      change (hexText 0x78 (args.word i).toUInt64).length ≤ 31
      omega
  | dec isLongLong => exact length_decimalDigits _

/-- The padding is right just when the digits fit into their buffer, and there is nothing to
pad; or the sign and the digits that come out are as many as there are in the buffer, no spaces
come behind a sign, and what is to be padded can be counted; and in one more case, where zeros
that come behind zeros are taken for zeros before them. -/
theorem width_law_iff (args : VaList) (i : ℕ) (conversion : SignedConversion) (field : Field) :
    WidthLaw args i conversion field ↔
      conversion.Fits args i ∧
        (field.width.getD 0 ≤ (conversion.digits args i).length ∧
            field.width.getD 0 ≤
              (conversion.sign args i).length + (conversion.shown args i).length ∨
          (conversion.sign args i).length + (conversion.shown args i).length =
              (conversion.digits args i).length ∧
            (conversion.sign args i = [] ∨ field.flag.isSome = true) ∧
            field.width.getD 0 ≤ (conversion.digits args i).length + 2 ^ 31 ∨
          (conversion.sign args i).length + (conversion.shown args i).length =
              (conversion.digits args i).length + 1 ∧
            field.flag = some .zero ∧ (∀ c ∈ conversion.shown args i, c = 0x30) ∧
            field.width.getD 0 = (conversion.digits args i).length + 2 ^ 31 + 1) := by
  have few := length_digits_le args i conversion
  by_cases fits : conversion.Fits args i
  · rw [width_law_of_emits (by omega) (signed_emits fits), and_iff_right fits]
    exact signed_padded_iff (by omega) (length_shown_le args i conversion)
      (length_sign_le args i conversion) (sign_head args i conversion)
  · refine iff_of_false ?_ fun holds => fits holds.1
    rintro ⟨digits, bare, -⟩
    exact signed_not_emits fits bare

/-- The width 4 for a minus one: three spaces come between the sign and its digit. -/
theorem width_law_fails_for_minus_one :
    ¬WidthLaw ⟨fun _ => 0xFFFFFFFF, fun _ => nullString⟩ 0 (.dec false)
      ⟨none, [0x34], by simp [formatIsDigit], by simp⟩ := by
  have inside : ShiftsInside
      (magnitude ⟨fun _ => 0xFFFFFFFF, fun _ => nullString⟩ 0 false).toUInt32.toInt32 := by
    decide
  have one : SignedConversion.digits ⟨fun _ => 0xFFFFFFFF, fun _ => nullString⟩ 0 (.dec false) =
      [0x30] := decimalDigits_small inside
  have fits : SignedConversion.Fits ⟨fun _ => 0xFFFFFFFF, fun _ => nullString⟩ 0 (.dec false) :=
    digitsFit_small inside
  have noSpace := sign_head ⟨fun _ => 0xFFFFFFFF, fun _ => nullString⟩ 0 (.dec false)
  have few := length_digits_le ⟨fun _ => 0xFFFFFFFF, fun _ => nullString⟩ 0 (.dec false)
  intro law
  have same := (width_law_of_emits (by omega) (signed_emits fits)).mp law
  rw [SignedConversion.shown, one] at same
  have noSign := (signed_padded_of_fits noSpace (by decide) (by decide) (by decide)).mp same
  revert noSign
  decide

end Law

end Osserver
