import Osserver.Format.Strtoul

/-!
# The laws of reading a number

`strtoul` returns the value of the digits that it finds. What it has skipped before it finds
none is not given back.
-/

namespace Osserver

open Numeral

section Exact

variable {base r d : ℕ}

theorem add_exact (large : 1 < base) (small : base ≤ 36) (fits : r * base + d < 2 ^ 63) :
    Accumulated.add ⟨Int64.ofNat r, false⟩ (Int64.ofNat base) (Int64.ofNat d) =
      ⟨Int64.ofNat (r * base + d), false⟩ := by
  have notLess : r ≤ r * base := Nat.le_mul_of_pos_right _ (by omega)
  have product : (Int64.ofNat r * Int64.ofNat base).toInt = (r * base : ℕ) := by
    rw [← Int64.ofNat_mul, Int64.toInt_ofNat_of_lt (by omega)]
  have sum : (Int64.ofNat r * Int64.ofNat base + Int64.ofNat d).toInt = (r * base + d : ℕ) := by
    rw [← Int64.ofNat_mul, ← Int64.ofNat_add, Int64.toInt_ofNat_of_lt (by omega)]
  rw [Accumulated.add]
  simp only [product, sum, Int64.ofNat_add, Int64.ofNat_mul]
  rw [Int64.toInt_ofNat_of_lt (by omega), Int64.toInt_ofNat_of_lt (by omega),
    Int64.toInt_ofNat_of_lt (by omega)]
  simp

/-- Digits whose value fits are added exactly: what was read before is no larger. -/
theorem addDigits_exact (large : 1 < base) (small : base ≤ 36) {done digits : List UInt8}
    (fits : value base digitVal (done ++ digits) < 2 ^ 63) :
    addDigits base ⟨Int64.ofNat (value base digitVal done), false⟩ digits =
      ⟨Int64.ofNat (value base digitVal (done ++ digits)), false⟩ := by
  induction digits generalizing done with
  | nil =>
      rw [List.append_nil]
      rfl
  | cons c digits ih =>
      have regroup : done ++ c :: digits = done ++ [c] ++ digits := by simp
      rw [regroup] at fits ⊢
      have next := ih fits
      have soFar : value base digitVal (done ++ [c]) < 2 ^ 63 :=
        Nat.lt_of_le_of_lt (value_le_append (by omega)) fits
      rw [value_concat] at soFar
      rw [← next, addDigits, addDigits, List.foldl_cons, add_exact large small soFar,
        value_concat]

end Exact

section Forms

inductive Sign where
  | none
  | plus
  | minus
  deriving DecidableEq

def Sign.chars : Sign → List UInt8
  | .none => []
  | .plus => [0x2B]
  | .minus => [0x2D]

/-- A base, what is skipped for it in front of a text, and the base that the digits of the
text are then taken to. A zero that selects the base 8 is one of the digits. -/
inductive Selects : ℕ → List UInt8 → ℕ → List UInt8 → Prop where
  | hex (text : List UInt8) : Selects 0 [0x30, 0x78] 16 text
  | octal {text : List UInt8} (zero : [0x30] <+: text) (notHex : ¬[0x30, 0x78] <+: text) :
      Selects 0 [] 8 text
  | decimal {text : List UInt8} (noZero : ¬[0x30] <+: text) : Selects 0 [] 10 text
  | sixteen (text : List UInt8) : Selects 16 [0x30, 0x78] 16 text
  | sixteenPlain {text : List UInt8} (notHex : ¬[0x30, 0x78] <+: text) : Selects 16 [] 16 text
  | other {base : ℕ} (text : List UInt8) (large : 2 ≤ base) (small : base ≤ 36)
      (notSixteen : base ≠ 16) : Selects base [] base text

/-- A string that is a number: spaces, a sign, what selects the base, and at least one digit,
with something behind that is no digit. -/
structure NumberText (base : ℕ) where
  spaces : List UInt8
  sign : Sign
  lead : List UInt8
  radix : ℕ
  digits : List UInt8
  rest : List UInt8
  areSpaces : ∀ c ∈ spaces, formatIsSpace c = true
  selects : Selects base lead radix (digits ++ rest)
  someDigits : digits ≠ []
  areDigits : ∀ c ∈ digits, isDigitOf radix c = true
  maximal : ∀ c ∈ rest.head?, isDigitOf radix c = false
  noZero : 0 ∉ spaces ++ (sign.chars ++ (lead ++ (digits ++ rest)))

namespace NumberText

variable {base : ℕ}

def str (number : NumberText base) : CString :=
  ⟨_, number.noZero⟩

def magnitude (number : NumberText base) : ℕ :=
  value number.radix digitVal number.digits

def value (number : NumberText base) : ℤ :=
  if number.sign = .minus then -number.magnitude else number.magnitude

end NumberText

variable {base radix : ℕ} {lead text digits rest : List UInt8} {c : UInt8}

theorem plain_of_digitNumber (c : UInt8) : (digitNumber c).isSome = true →
    formatIsSpace c = false ∧ isSign c = false := by
  revert c
  apply Bytes.forall_byte
  decide +kernel

/-- A digit is no space and no sign. -/
theorem plain_of_digit (isDigit : isDigitOf base c = true) :
    formatIsSpace c = false ∧ isSign c = false := by
  apply plain_of_digitNumber
  rw [isDigitOf] at isDigit
  cases number : digitNumber c with
  | none =>
      rw [number] at isDigit
      cases isDigit
  | some d => rfl

theorem Selects.bounds (selects : Selects base lead radix text) :
    base ≤ 36 ∧ 1 < radix ∧ radix ≤ 36 := by
  cases selects with
  | hex | octal | decimal | sixteen | sixteenPlain => decide
  | other text large small notSixteen => exact ⟨small, large, small⟩

theorem zero_of_hex (hex : [0x30, 0x78] <+: text) : [0x30] <+: text :=
  List.IsPrefix.trans ⟨[0x78], rfl⟩ hex

theorem Selects.effectiveBase_eq (selects : Selects base lead radix text) :
    effectiveBase base (lead ++ text) = radix := by
  cases selects with
  | hex => simp [effectiveBase]
  | octal zero notHex => simp only [effectiveBase, List.nil_append, if_true, if_neg notHex, if_pos zero]
  | decimal noZero =>
      simp only [effectiveBase, List.nil_append, if_true, if_neg (mt zero_of_hex noZero),
        if_neg noZero]
  | sixteen => rfl
  | sixteenPlain notHex => rfl
  | other text large small notSixteen =>
      rw [effectiveBase, if_neg (by omega)]

/-- The digits that are left have the value of all of them. -/
theorem Selects.afterBase_eq (selects : Selects base lead radix (digits ++ rest))
    (someDigits : digits ≠ []) :
    ∃ skipped more, digits = skipped ++ more ∧ Numeral.value radix digitVal skipped = 0 ∧
      afterBase base (lead ++ (digits ++ rest)) = more ++ rest := by
  generalize isText : digits ++ rest = text at selects
  cases selects with
  | hex =>
      subst isText
      exact ⟨[], digits, rfl, rfl, by simp [afterBase]⟩
  | octal zero notHex =>
      subst isText
      cases digits with
      | nil => exact absurd rfl someDigits
      | cons c more =>
          have isZero : c = 0x30 := by simpa [eq_comm] using zero
          subst isZero
          refine ⟨[0x30], more, rfl, rfl, ?_⟩
          rw [afterBase, if_neg fun both => notHex both.2, if_pos ⟨rfl, zero⟩]
          rfl
  | decimal noZero =>
      subst isText
      refine ⟨[], digits, rfl, rfl, ?_⟩
      rw [afterBase, if_neg fun both => noZero (zero_of_hex both.2), if_neg fun both => noZero both.2]
      rfl
  | sixteen =>
      subst isText
      exact ⟨[], digits, rfl, rfl, by simp [afterBase]⟩
  | sixteenPlain notHex =>
      subst isText
      refine ⟨[], digits, rfl, rfl, ?_⟩
      rw [afterBase, if_neg fun both => notHex both.2, if_neg (by simp)]
      rfl
  | other text large small notSixteen =>
      subst isText
      refine ⟨[], digits, rfl, rfl, ?_⟩
      rw [afterBase, if_neg (by omega), if_neg (by omega)]
      rfl

theorem Selects.lead_cases (selects : Selects base lead radix text) :
    lead = [] ∨ lead = [0x30, 0x78] := by
  cases selects with
  | hex | sixteen => exact Or.inr rfl
  | octal | decimal | sixteenPlain | other => exact Or.inl rfl

/-- A number starts with a character that is no space and no sign. -/
theorem NumberText.start (number : NumberText base) :
    ∃ c tail, number.lead ++ (number.digits ++ number.rest) = c :: tail ∧
      formatIsSpace c = false ∧ isSign c = false := by
  rcases number.selects.lead_cases with noLead | hex
  · rw [noLead]
    cases start : number.digits with
    | nil => exact absurd start number.someDigits
    | cons c more =>
        have isDigit := number.areDigits c (by rw [start]; exact List.mem_cons_self ..)
        exact ⟨c, _, rfl, plain_of_digit isDigit⟩
  · rw [hex]
    exact ⟨0x30, _, rfl, rfl, rfl⟩

theorem NumberText.afterSign_eq (number : NumberText base) :
    afterSign number.str.chars = number.lead ++ (number.digits ++ number.rest) ∧
      isNegative number.str.chars = decide (number.sign = .minus) := by
  have behindSpaces : number.str.chars.dropWhile formatIsSpace =
      (number.sign.chars ++ (number.lead ++ (number.digits ++ number.rest))).dropWhile
        formatIsSpace := List.dropWhile_append_of_pos number.areSpaces
  rcases number.start with ⟨c, tail, isStart, noSpace, noSign⟩
  rw [afterSign, isNegative, behindSpaces, isStart]
  cases number.sign with
  | none =>
      have noMinus : c ≠ 0x2D := by
        rintro rfl
        cases noSign
      simp [Sign.chars, noSpace, noSign, noMinus]
  | plus =>
      have plain : formatIsSpace 0x2B = false ∧ isSign 0x2B = true := ⟨rfl, rfl⟩
      simp [Sign.chars, plain]
  | minus =>
      have plain : formatIsSpace 0x2D = false ∧ isSign 0x2D = true := ⟨rfl, rfl⟩
      simp [Sign.chars, plain]

theorem takeWhile_digits (areDigits : ∀ c ∈ digits, isDigitOf radix c = true)
    (maximal : ∀ c ∈ rest.head?, isDigitOf radix c = false) :
    (digits ++ rest).takeWhile (isDigitOf radix) = digits ∧
      (digits ++ rest).dropWhile (isDigitOf radix) = rest := by
  rw [List.takeWhile_append_of_pos areDigits, List.dropWhile_append_of_pos areDigits]
  cases rest with
  | nil => simp
  | cons c rest =>
      have ends := maximal c rfl
      simp [ends]

theorem signedResult_exact {n : ℕ} {cur : List UInt8} (negative : Bool) (fits : n < 2 ^ 63) :
    (signedResult negative ⟨Int64.ofNat n, false⟩ cur).result.toInt =
        (if negative then -(n : ℤ) else n) ∧
      (signedResult negative ⟨Int64.ofNat n, false⟩ cur).overflow = false ∧
      (signedResult negative ⟨Int64.ofNat n, false⟩ cur).ptrEnd = cur := by
  have exact_ := Int64.toInt_ofNat_of_lt fits
  cases negative with
  | false => exact ⟨exact_, rfl, rfl⟩
  | true =>
      have opposite : (-Int64.ofNat n).toInt = -(n : ℤ) :=
        Int64.toInt_neg_ofNat_of_le (Nat.le_of_lt fits)
      refine ⟨opposite, ?_, rfl⟩
      simp [signedResult, opposite, exact_]

end Forms

/-- The value law: a number is read exactly, up to the first character behind its digits. -/
theorem strtoul_value {base : ℕ} (number : NumberText base) (fits : number.magnitude < 2 ^ 63) :
    ∃ out, strtoul number.str (Int32.ofNat base) = .ok out ∧
      out.result.toInt = number.value ∧ out.overflow = false ∧ out.ptrEnd = number.rest ++ [0] := by
  rcases number.selects.bounds with ⟨small, large, radixSmall⟩
  rcases number.selects.afterBase_eq number.someDigits with ⟨skipped, more, split, noValue, left⟩
  rcases number.afterSign_eq with ⟨text, negative⟩
  have moreDigits : ∀ c ∈ more, isDigitOf number.radix c = true := by
    intro c inMore
    apply number.areDigits
    rw [split]
    exact List.mem_append_right _ inMore
  rcases takeWhile_digits moreDigits number.maximal with ⟨taken, dropped⟩
  have inSkipped : Numeral.value number.radix digitVal (skipped ++ more) < 2 ^ 63 := by
    rw [← split]
    exact fits
  have sum := addDigits_exact large radixSmall inSkipped
  rw [noValue, ← split] at sum
  change addDigits number.radix ⟨0, false⟩ more = _ at sum
  have returns := @strtoul_eq base number.str small
  simp only [text, number.selects.effectiveBase_eq, left, taken, dropped, negative, sum] at returns
  rcases @signedResult_exact _ (number.rest ++ [0]) (decide (number.sign = .minus)) fits with
    ⟨result, overflow, ptrEnd⟩
  refine ⟨_, returns, ?_, overflow, ptrEnd⟩
  refine result.trans ?_
  simp only [NumberText.value, decide_eq_true_eq]

/-- ` -0x1f,` to the base that it selects. -/
theorem strtoul_value_hex :
    ∃ out, strtoul ⟨[0x20, 0x2D, 0x30, 0x78, 0x31, 0x66, 0x2C], by decide⟩ 0 = .ok out ∧
      out.result.toInt = -31 ∧ out.overflow = false ∧ out.ptrEnd = [0x2C, 0] := by
  let number : NumberText 0 :=
    { spaces := [0x20]
      sign := .minus
      lead := [0x30, 0x78]
      radix := 16
      digits := [0x31, 0x66]
      rest := [0x2C]
      areSpaces := by simp [formatIsSpace]
      selects := .hex _
      someDigits := by simp
      areDigits := by simp [isDigitOf, digitNumber]
      maximal := by simp [isDigitOf, digitNumber]
      noZero := by decide }
  have fits : number.magnitude < 2 ^ 63 := by decide
  exact strtoul_value number fits

section Failure

variable {base : ℕ} {text chars : List UInt8}

/-- The text starts with a digit to the base that it selects. -/
def BeginsWithDigit (base : ℕ) (text : List UInt8) : Prop :=
  ∃ c ∈ text.head?, isDigitOf (effectiveBase base text) c = true

/-- The text is `0x`, with no hexadecimal digit behind it, where this selects the base. -/
def BareHex (base : ℕ) (text : List UInt8) : Prop :=
  (base = 0 ∨ base = 16) ∧ ∃ rest, text = 0x30 :: 0x78 :: rest ∧
    ∀ c ∈ rest.head?, isDigitOf 16 c = false

/-- `0`, or 2 to 36. -/
def StrtoulBase : Type :=
  { base : ℕ // base = 0 ∨ 2 ≤ base ∧ base ≤ 36 }

/-- The end is where the string starts just when there is no number, and of `0x` without a
digit just the zero is taken. -/
def Detectable (base : ℕ) (str : CString) : Prop :=
  ∃ out, strtoul str (Int32.ofNat base) = .ok out ∧
    (out.ptrEnd = str.chars ++ [0] ↔ ¬BeginsWithDigit base (afterSign str.chars)) ∧
    ∀ rest, base = 0 ∨ base = 16 → afterSign str.chars = 0x30 :: 0x78 :: rest →
      (∀ c ∈ rest.head?, isDigitOf 16 c = false) →
      out.ptrEnd = 0x78 :: rest ++ [0] ∧ out.result = 0

theorem length_afterSign_le (chars : List UInt8) : (afterSign chars).length ≤ chars.length := by
  have fewer := List.length_dropWhile_le formatIsSpace chars
  rw [afterSign]
  split
  · exact Nat.zero_le _
  · rename_i c rest isText
    rw [isText, List.length_cons] at fewer
    split
    · omega
    · rw [List.length_cons]
      exact fewer

theorem effectiveBase_pos (base : ℕ) (text : List UInt8) : 0 < effectiveBase base text := by
  have chosen := effectiveBase_cases base text
  omega

/-- A zero is a digit to every base. -/
theorem begins_of_zero (zero : [0x30] <+: text) : BeginsWithDigit base text := by
  rcases zero with ⟨rest, rfl⟩
  have isNumber : digitNumber 0x30 = some 0 := rfl
  refine ⟨0x30, rfl, ?_⟩
  rw [isDigitOf, isNumber]
  exact decide_eq_true (effectiveBase_pos _ _)

/-- Something is skipped for the base only when the text starts with a zero. -/
theorem afterBase_cases (base : ℕ) (text : List UInt8) :
    afterBase base text = text ∨
      [0x30] <+: text ∧ (afterBase base text).length < text.length := by
  rw [afterBase]
  split
  · rename_i hex
    have zero := zero_of_hex hex.2
    have short := hex.2.length_le
    refine Or.inr ⟨zero, ?_⟩
    rw [List.length_drop]
    change 2 ≤ text.length at short
    omega
  · split
    · rename_i zero
      have short := zero.2.length_le
      refine Or.inr ⟨zero.2, ?_⟩
      rw [List.length_drop]
      change 1 ≤ text.length at short
      omega
    · exact Or.inl rfl

theorem length_dropWhile_lt {p : UInt8 → Bool} {c : UInt8} (first : c ∈ text.head?)
    (dropped : p c = true) : (text.dropWhile p).length < text.length := by
  cases text with
  | nil => cases first
  | cons d tail =>
      cases first
      rw [List.dropWhile_cons, if_pos dropped]
      exact Nat.lt_succ_of_le (List.length_dropWhile_le p tail)

theorem dropWhile_of_head {p : UInt8 → Bool} (kept : ∀ c ∈ text.head?, p c = false) :
    text.dropWhile p = text := by
  cases text with
  | nil => rfl
  | cons c tail =>
      have stays := kept c rfl
      rw [List.dropWhile_cons, if_neg (by simp [stays])]

theorem read_of_begins (begins : BeginsWithDigit base text) :
    ((afterBase base text).dropWhile (isDigitOf (effectiveBase base text))).length <
      text.length := by
  rcases afterBase_cases base text with same | ⟨-, shorter⟩
  · rcases begins with ⟨c, first, isDigit⟩
    rw [same]
    exact length_dropWhile_lt first isDigit
  · exact Nat.lt_of_le_of_lt (List.length_dropWhile_le _ _) shorter

theorem read_of_not_begins (noDigit : ¬BeginsWithDigit base text) :
    (afterBase base text).dropWhile (isDigitOf (effectiveBase base text)) = text := by
  rcases afterBase_cases base text with same | ⟨zero, -⟩
  · rw [same]
    apply dropWhile_of_head
    intro c first
    rw [← Bool.not_eq_true]
    intro isDigit
    exact noDigit ⟨c, first, isDigit⟩
  · exact absurd (begins_of_zero zero) noDigit

/-- Of `0x` without a digit both characters are taken. -/
theorem read_of_bareHex {rest : List UInt8} (selects : base = 0 ∨ base = 16)
    (noDigit : ∀ c ∈ rest.head?, isDigitOf 16 c = false) :
    (afterBase base (0x30 :: 0x78 :: rest)).dropWhile
      (isDigitOf (effectiveBase base (0x30 :: 0x78 :: rest))) = rest := by
  have left : afterBase base (0x30 :: 0x78 :: rest) = rest := if_pos ⟨selects, rest, rfl⟩
  have sixteen : effectiveBase base (0x30 :: 0x78 :: rest) = 16 := by
    rcases selects with rfl | rfl
    · simp [effectiveBase]
    · rfl
  rw [left, sixteen]
  exact dropWhile_of_head noDigit

end Failure

/-- A missing number can be told from a zero just when there is nothing to skip in front of
it, and no `0x`. -/
theorem strtoul_detectable_iff (base : StrtoulBase) (str : CString) :
    Detectable base.1 str ↔
      ¬BareHex base.1 (afterSign str.chars) ∧
        (BeginsWithDigit base.1 (afterSign str.chars) ∨ afterSign str.chars = str.chars) := by
  rcases base with ⟨base, valid⟩
  have returns := @strtoul_eq base str (by omega)
  have fewer := length_afterSign_le str.chars
  simp only at returns
  simp only [Detectable]
  generalize afterSign str.chars = text at returns fewer ⊢
  have ptrEnd : ∀ negative acc cur, (signedResult negative acc cur).ptrEnd = cur := by
    intro negative acc cur
    cases negative with
    | true => rfl
    | false => rfl
  constructor
  · rintro ⟨out, isOut, atStart, bareHex⟩
    rw [returns] at isOut
    cases isOut
    rw [ptrEnd] at atStart bareHex
    rw [List.append_left_inj] at atStart
    constructor
    · rintro ⟨selects, rest, rfl, noDigit⟩
      have taken := (bareHex rest selects rfl noDigit).1
      rw [read_of_bareHex selects noDigit] at taken
      have lengths := congrArg List.length taken
      simp at lengths
    · by_cases begins : BeginsWithDigit base text
      · exact Or.inl begins
      · right
        rw [← atStart.mpr begins]
        exact (read_of_not_begins begins).symm
  · rintro ⟨noHex, number⟩
    refine ⟨_, returns, ?_, ?_⟩
    · rw [ptrEnd, List.append_left_inj]
      by_cases begins : BeginsWithDigit base text
      · have shorter := read_of_begins begins
        refine iff_of_false ?_ (not_not_intro begins)
        intro same
        rw [same] at shorter
        omega
      · refine iff_of_true ?_ begins
        rw [read_of_not_begins begins]
        exact number.resolve_left begins
    · intro rest selects isText noDigit
      exact absurd ⟨selects, rest, isText, noDigit⟩ noHex

/-- Two spaces are taken for a number. -/
theorem strtoul_not_detectable :
    ¬Detectable 10 ⟨[0x20, 0x20, 0x61, 0x62, 0x63], by decide⟩ := by
  rintro ⟨out, isOut, atStart, -⟩
  have noDigit : ¬BeginsWithDigit 10 [0x61, 0x62, 0x63] := by
    rintro ⟨c, first, isDigit⟩
    cases first
    cases isDigit
  cases isOut
  cases atStart.mpr noDigit

end Osserver
