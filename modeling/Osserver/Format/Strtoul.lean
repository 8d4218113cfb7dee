import Osserver.Format.Basic
import Osserver.Lib.Numeral

/-!
# Reading a number

The model of `strtoul` in `generic/std/format.c`. A pointer into the string is what is left
of it, with the zero at its end. Sums and products wrap; whether one of them did is kept
beside the result.
-/

namespace Osserver

open Numeral

/-- `while (format_is_space(*cur)) ++cur`. -/
def skipSpaces : List UInt8 → Except Fault (List UInt8)
  | [] => .error .outOfString
  | c :: cur => if formatIsSpace c then skipSpaces cur else .ok (c :: cur)

/-- Whether there is a minus, which is skipped as a plus is. -/
def parseSign : List UInt8 → Except Fault (Bool × List UInt8)
  | [] => .error .outOfString
  | c :: cur =>
      if c = 0x2D then .ok (true, cur)
      else if c = 0x2B then .ok (false, cur)
      else .ok (false, c :: cur)

/-- What `base` becomes, and what is skipped for it. -/
def parseBase (base : Int32) : List UInt8 → Except Fault (Int32 × List UInt8)
  | [] => .error .outOfString
  | c :: cur =>
      if base = 0 then
        if c = 0x30 then
          match cur with
          | [] => .error .outOfString
          | x :: next => if x = 0x78 then .ok (16, next) else .ok (8, x :: next)
        else .ok (10, c :: cur)
      else if base = 16 then
        if c = 0x30 then
          match cur with
          | [] => .error .outOfString
          | x :: next => if x = 0x78 then .ok (base, next) else .ok (base, c :: x :: next)
        else .ok (base, c :: cur)
      else .ok (base, c :: cur)

/-- `currentVal`, for a character that does not end the loop at once. -/
def currentVal (currentChar : UInt8) : Option Int64 :=
  if 0x30 ≤ currentChar ∧ currentChar ≤ 0x39 then
    some (currentChar.toInt8.toInt64 - 0x30)
  else if 0x61 ≤ currentChar ∧ currentChar ≤ 0x7A then
    some (currentChar.toInt8.toInt64 - 0x61 + 10)
  else if 0x41 ≤ currentChar ∧ currentChar ≤ 0x5A then
    some (currentChar.toInt8.toInt64 - 0x41 + 10)
  else none

/-- The result so far, and whether a product or a sum did not fit. -/
structure Accumulated where
  result : Int64
  overflow : Bool

/-- `result *= base; result += currentVal`. -/
def Accumulated.add (acc : Accumulated) (base val : Int64) : Accumulated :=
  let product := acc.result * base
  let sum := product + val
  ⟨sum, acc.overflow || decide (product.toInt ≠ acc.result.toInt * base.toInt) ||
    decide (sum.toInt ≠ product.toInt + val.toInt)⟩

def digitLoop (base : Int32) : List UInt8 → Accumulated → Except Fault (Accumulated × List UInt8)
  | [], _ => .error .outOfString
  | c :: cur, acc =>
      match currentVal c with
      | none => .ok (acc, c :: cur)
      | some val =>
          if val ≥ base.toInt64 then .ok (acc, c :: cur)
          else digitLoop base cur (acc.add base.toInt64 val)

/-- The result of `strtoul`, what `*ptr_end` is set to, and whether a step did not fit. -/
structure Parsed where
  result : Int64
  ptrEnd : List UInt8
  overflow : Bool

def strtoul (str : CString) (base : Int32) : Except Fault Parsed := do
  let cur ← skipSpaces (str.chars ++ [0])
  let (isNegative, cur) ← parseSign cur
  let (base, cur) ← parseBase base cur
  let (acc, cur) ← digitLoop base cur ⟨0, false⟩
  if isNegative then
    let result := -acc.result
    return ⟨result, cur, acc.overflow || decide (result.toInt ≠ -acc.result.toInt)⟩
  else
    return ⟨acc.result, cur, acc.overflow⟩

section Spec

/-! What `strtoul` reads, told of the characters before the zero. -/

/-- The value of a digit: letters of either case count from ten. -/
def digitNumber (c : UInt8) : Option ℕ :=
  if 0x30 ≤ c ∧ c ≤ 0x39 then some (c.toNat - 0x30)
  else if 0x61 ≤ c ∧ c ≤ 0x7A then some (c.toNat - 0x61 + 10)
  else if 0x41 ≤ c ∧ c ≤ 0x5A then some (c.toNat - 0x41 + 10)
  else none

/-- The character is a digit to the base. -/
def isDigitOf (base : ℕ) (c : UInt8) : Bool :=
  (digitNumber c).any (· < base)

def digitVal (c : UInt8) : ℕ :=
  (digitNumber c).getD 0

def isSign (c : UInt8) : Bool :=
  c = 0x2D || c = 0x2B

/-- What is behind the spaces and the sign. -/
def afterSign (chars : List UInt8) : List UInt8 :=
  match chars.dropWhile formatIsSpace with
  | [] => []
  | c :: rest => if isSign c then rest else c :: rest

/-- The base that the text selects: 16 by `0x`, 8 by a zero, and 10 else. -/
def effectiveBase (base : ℕ) (text : List UInt8) : ℕ :=
  if base = 0 then
    if [0x30, 0x78] <+: text then 16 else if [0x30] <+: text then 8 else 10
  else base

/-- What is behind the characters that are skipped for the base. -/
def afterBase (base : ℕ) (text : List UInt8) : List UInt8 :=
  if (base = 0 ∨ base = 16) ∧ [0x30, 0x78] <+: text then text.drop 2
  else if base = 0 ∧ [0x30] <+: text then text.drop 1
  else text

def isNegative (chars : List UInt8) : Bool :=
  (chars.dropWhile formatIsSpace).head? = some 0x2D

/-- All digits added to what was read before. -/
def addDigits (base : ℕ) (acc : Accumulated) (digits : List UInt8) : Accumulated :=
  digits.foldl (fun acc c => acc.add (Int64.ofNat base) (Int64.ofNat (digitVal c))) acc

/-- The end of `strtoul`. -/
def signedResult (negative : Bool) (acc : Accumulated) (cur : List UInt8) : Parsed :=
  if negative then
    ⟨-acc.result, cur,
      acc.overflow || decide ((-acc.result).toInt ≠ -acc.result.toInt)⟩
  else ⟨acc.result, cur, acc.overflow⟩

variable {base : ℕ} {text : List UInt8} {acc : Accumulated}

theorem skipSpaces_eq (text : List UInt8) :
    skipSpaces (text ++ [0]) = .ok (text.dropWhile formatIsSpace ++ [0]) := by
  induction text with
  | nil => rfl
  | cons c text ih =>
      rw [List.cons_append, skipSpaces, List.dropWhile_cons]
      by_cases space : formatIsSpace c = true
      · rw [if_pos space, if_pos space, ih]
      · rw [if_neg space, if_neg space]
        rfl

theorem parseSign_eq (text : List UInt8) :
    parseSign (text ++ [0]) = .ok (decide (text.head? = some 0x2D),
      (match text with
        | [] => []
        | c :: rest => if isSign c then rest else c :: rest) ++ [0]) := by
  cases text with
  | nil => rfl
  | cons c rest =>
      rw [List.cons_append, parseSign]
      by_cases minus : c = 0x2D
      · subst minus
        rfl
      by_cases plus : c = 0x2B
      · subst plus
        rfl
      rw [if_neg minus, if_neg plus]
      simp [isSign, minus, plus]

theorem ofNat_eq_iff {n : ℕ} (small : base ≤ 36) (alsoSmall : n ≤ 36) :
    Int32.ofNat base = Int32.ofNat n ↔ base = n := by
  rw [← Int32.toInt_inj, Int32.toInt_ofNat_of_lt (by omega), Int32.toInt_ofNat_of_lt (by omega),
    Int.ofNat_inj]

theorem parseBase_eq (small : base ≤ 36) (text : List UInt8) :
    parseBase (Int32.ofNat base) (text ++ [0]) =
      .ok (Int32.ofNat (effectiveBase base text), afterBase base text ++ [0]) := by
  have isZero : Int32.ofNat base = 0 ↔ base = 0 := ofNat_eq_iff small (Nat.zero_le 36)
  have isSixteen : Int32.ofNat base = 16 ↔ base = 16 :=
    @ofNat_eq_iff base 16 small (by omega)
  by_cases selects : base = 0 ∨ base = 16
  · rcases selects with rfl | rfl
    -- Either base looks at the same two characters.
    all_goals
      rcases text with _ | ⟨c, _ | ⟨x, rest⟩⟩
      · rfl
      · by_cases isDigit : c = 0x30
        · subst isDigit
          rfl
        · simp [parseBase, effectiveBase, afterBase, isDigit, Ne.symm isDigit]
      · by_cases isDigit : c = 0x30
        · subst isDigit
          by_cases hex : x = 0x78
          · subst hex
            simp [parseBase, effectiveBase, afterBase]
          · simp [parseBase, effectiveBase, afterBase, hex, Ne.symm hex]
        · simp [parseBase, effectiveBase, afterBase, isDigit, Ne.symm isDigit]
  · rcases not_or.mp selects with ⟨zero, sixteen⟩
    have notZero := mt isZero.mp zero
    have notSixteen := mt isSixteen.mp sixteen
    cases text with
    | nil => simp [parseBase, effectiveBase, afterBase, zero, sixteen, notZero, notSixteen]
    | cons c rest =>
        simp [parseBase, effectiveBase, afterBase, zero, sixteen, notZero, notSixteen]

theorem currentVal_eq (c : UInt8) : currentVal c = (digitNumber c).map Int64.ofNat := by
  revert c
  apply Bytes.forall_byte
  decide +kernel

theorem digitNumber_all_lt (c : UInt8) : (digitNumber c).all (· < 36) = true := by
  revert c
  apply Bytes.forall_byte
  decide +kernel

theorem digitNumber_lt {c : UInt8} {d : ℕ} (isNumber : digitNumber c = some d) : d < 36 := by
  have all := digitNumber_all_lt c
  rw [isNumber] at all
  simpa using all

theorem notBelow_iff {d : ℕ} (small : base ≤ 36) (alsoSmall : d < 36) :
    Int64.ofNat d ≥ (Int32.ofNat base).toInt64 ↔ base ≤ d := by
  rw [ge_iff_le, Int64.le_iff_toInt_le, Int32.toInt_toInt64, Int32.toInt_ofNat_of_lt (by omega),
    Int64.toInt_ofNat_of_lt (by omega)]
  omega

theorem toInt64_ofNat (small : base ≤ 36) : (Int32.ofNat base).toInt64 = Int64.ofNat base := by
  rw [← Int64.toInt_inj, Int32.toInt_toInt64, Int32.toInt_ofNat_of_lt (by omega),
    Int64.toInt_ofNat_of_lt (by omega)]

theorem digitLoop_eq (small : base ≤ 36) (text : List UInt8) (acc : Accumulated) :
    digitLoop (Int32.ofNat base) (text ++ [0]) acc =
      .ok (addDigits base acc (text.takeWhile (isDigitOf base)),
        text.dropWhile (isDigitOf base) ++ [0]) := by
  induction text generalizing acc with
  | nil => rfl
  | cons c text ih =>
      rw [List.cons_append, digitLoop, currentVal_eq, List.takeWhile_cons, List.dropWhile_cons,
        isDigitOf]
      cases number : digitNumber c with
      | none => rfl
      | some d =>
          have notBelow := notBelow_iff small (digitNumber_lt number)
          by_cases below : d < base
          · simp only [Option.map_some, Option.any_some, decide_eq_true below, if_true]
            rw [if_neg (mt notBelow.mp (by omega)), ih, toInt64_ofNat small]
            simp only [addDigits, List.foldl_cons, digitVal, number, Option.getD_some]
          · simp only [Option.map_some, Option.any_some, decide_eq_false below]
            rw [if_pos (notBelow.mpr (by omega))]
            rfl

/-- The base is as given, or one that the text selects. -/
theorem effectiveBase_cases (base : ℕ) (text : List UInt8) :
    base ≠ 0 ∧ effectiveBase base text = base ∨
      effectiveBase base text = 16 ∨ effectiveBase base text = 8 ∨
        effectiveBase base text = 10 := by
  rw [effectiveBase]
  split
  · right
    split
    · exact Or.inl rfl
    · split
      · exact Or.inr (Or.inl rfl)
      · exact Or.inr (Or.inr rfl)
  · rename_i given
    exact Or.inl ⟨given, rfl⟩

theorem effectiveBase_le (small : base ≤ 36) (text : List UInt8) :
    effectiveBase base text ≤ 36 := by
  have chosen := effectiveBase_cases base text
  omega

/-- `strtoul` skips spaces, a sign and what selects the base, and takes the digits that come
then. -/
theorem strtoul_eq (str : CString) (small : base ≤ 36) :
    let text := afterSign str.chars
    let digits := afterBase base text
    strtoul str (Int32.ofNat base) =
      .ok (signedResult (isNegative str.chars)
        (addDigits (effectiveBase base text) ⟨0, false⟩
          (digits.takeWhile (isDigitOf (effectiveBase base text))))
        (digits.dropWhile (isDigitOf (effectiveBase base text)) ++ [0])) := by
  intro text digits
  have sign := parseSign_eq (str.chars.dropWhile formatIsSpace)
  have parsedBase := parseBase_eq small text
  have loop := digitLoop_eq (effectiveBase_le small text) digits ⟨0, false⟩
  change _ = Except.ok (_, text ++ [0]) at sign
  simp only [strtoul, skipSpaces_eq, bind, Except.bind, sign, parsedBase]
  rw [loop, isNegative]
  cases decide ((str.chars.dropWhile formatIsSpace).head? = some 0x2D) with
  | true => rfl
  | false => rfl

end Spec

end Osserver
