import Osserver.Format.Rendering

/-!
# Conversions as they are spelled

A conversion is spelled with an optional flag, an optional width, an optional `ll` and the
character of its type. It emits one text wherever it stands in a format.
-/

namespace Osserver

open Loop Numeral

inductive PadFlag where
  | zero
  | left
  deriving DecidableEq

/-- A flag and a width. Without a flag the width does not start with a zero, which would be
one. -/
structure Field where
  flag : Option PadFlag
  digits : List UInt8
  areDigits : ∀ c ∈ digits, formatIsDigit c = true
  noZero : flag = none → digits.head? ≠ some 0x30

def PadFlag.char : PadFlag → UInt8
  | .zero => 0x30
  | .left => 0x2D

def PadFlag.bits : PadFlag → UInt8
  | .zero => padZero
  | .left => padLeft

namespace Field

/-- The field of a conversion without flag and width. -/
def bare : Field :=
  ⟨none, [], by simp, by simp⟩

def chars (field : Field) : List UInt8 :=
  (field.flag.map PadFlag.char).toList ++ field.digits

/-- The width that is spelled, however large it is. -/
def width (field : Field) : Option ℕ :=
  if field.digits = [] then none
  else some (value 10 (fun c => c.toNat - 0x30) field.digits)

def flags (field : Field) : UInt8 :=
  (field.flag.map PadFlag.bits).getD 0

/-- The width as it is read. -/
def intWidth (field : Field) : Int32 :=
  (field.width.map Int32.ofNat).getD (-1)

end Field

def longChars (isLongLong : Bool) : List UInt8 :=
  if isLongLong then [0x6C, 0x6C] else []

/-- The spelling of a conversion behind its `%`. -/
def spelled (field : Field) (isLongLong : Bool) (type : UInt8) : List UInt8 :=
  field.chars ++ longChars isLongLong ++ [type]

/-- The conversion puts out the text, wherever it stands in a format. -/
def Emits (args : VaList) (i : ℕ) (conversion : List UInt8) (words : ℕ) (text : List UInt8) :
    Prop :=
  ∀ format fmt, ∃ fmt',
    formatPass args ⟨0x25 :: (conversion ++ format), i, fmt⟩ =
      .again ⟨format, i + words, fmt'⟩ ∧
    fmt'.sink = fmt.sink.putAll text

section Parsing

variable {c type : UInt8} {digits format : List UInt8} {field : Field} {isLongLong : Bool}

theorem digitStep : ∀ d : Fin 10,
    (UInt8.ofNat (0x30 + d)).toInt8.toInt32 - 0x30 = Int32.ofNat d := by
  decide

theorem widthStep_eq (w : ℕ) (digit : formatIsDigit c = true) :
    Int32.ofNat w * 10 + c.toInt8.toInt32 - 0x30 = Int32.ofNat (w * 10 + (c.toNat - 0x30)) := by
  rcases formatIsDigit_iff.mp digit with ⟨low, high⟩
  have step := digitStep ⟨c.toNat - 0x30, by omega⟩
  simp only [Nat.add_sub_cancel' low, UInt8.ofNat_toNat] at step
  rw [Int32.sub_eq_add_neg, Int32.add_assoc, ← Int32.sub_eq_add_neg, step, Int32.ofNat_add,
    Int32.ofNat_mul]
  rfl

theorem widthLoop_eq (w : List UInt8) (areDigits : ∀ c ∈ digits, formatIsDigit c = true)
    (ends : formatIsDigit c = false) :
    widthLoop (Int32.ofNat (value 10 (fun c => c.toNat - 0x30) w)) (digits ++ c :: format) =
      .ok (Int32.ofNat (value 10 (fun c => c.toNat - 0x30) (w ++ digits)), c :: format) := by
  induction digits generalizing w with
  | nil =>
      rw [List.nil_append, List.append_nil, widthLoop, if_neg (by simp [ends])]
  | cons digit digits ih =>
      have isDigit := areDigits digit (List.mem_cons_self ..)
      have rest := ih (w ++ [digit]) fun c inDigits => areDigits c (List.mem_cons_of_mem _ inDigits)
      rw [value_concat, List.append_assoc, List.singleton_append] at rest
      rw [List.cons_append, widthLoop, if_pos isDigit, widthStep_eq _ isDigit, rest]

theorem parseWidth_eq (ends : formatIsDigit c = false) :
    parseWidth (field.digits ++ c :: format) = .ok (field.intWidth, c :: format) := by
  rcases field with ⟨flag, _ | ⟨digit, digits⟩, areDigits, noZero⟩
  · change parseWidth (c :: format) = _
    rw [parseWidth, if_neg (by simp [ends])]
    rfl
  · have isDigit := areDigits digit (List.mem_cons_self ..)
    change parseWidth (digit :: (digits ++ c :: format)) = _
    rw [parseWidth, if_pos isDigit]
    exact widthLoop_eq [] areDigits ends

theorem parseFlags_eq (ends : formatIsDigit c = false) (noMinus : c ≠ 0x2D) :
    parseFlags (field.chars ++ c :: format) = .ok (field.flags, field.digits ++ c :: format) := by
  rcases field with ⟨_ | flag, digits, areDigits, noZero⟩
  · have start : ∃ d rest, digits ++ c :: format = d :: rest ∧ d ≠ 0x2D ∧ d ≠ 0x30 := by
      cases digits with
      | nil =>
          refine ⟨c, format, rfl, noMinus, ?_⟩
          rintro rfl
          cases ends
      | cons d digits =>
          refine ⟨d, digits ++ c :: format, rfl, ?_, ?_⟩
          · rintro rfl
            cases areDigits 0x2D (List.mem_cons_self ..)
          · rintro rfl
            exact noZero rfl rfl
    rcases start with ⟨d, rest, isStart, noMinus, noFlag⟩
    change parseFlags (digits ++ c :: format) = .ok (0, digits ++ c :: format)
    rw [isStart, parseFlags, if_neg noMinus, if_neg noFlag]
  · cases flag with
    | zero => rfl
    | left => rfl

theorem parseLong_eq (noLong : type ≠ 0x6C) :
    parseLong (longChars isLongLong ++ type :: format) = .ok (isLongLong, type :: format) := by
  cases isLongLong with
  | true => rfl
  | false => exact if_neg noLong

theorem parseDirective_eq (noDigit : formatIsDigit type = false) (noMinus : type ≠ 0x2D)
    (noLong : type ≠ 0x6C) :
    parseDirective (spelled field isLongLong type ++ format) =
      .ok (⟨field.flags, field.intWidth, isLongLong, type⟩, format) := by
  have parsedLong := @parseLong_eq type format isLongLong noLong
  have start : ∃ c rest, longChars isLongLong ++ type :: format = c :: rest ∧
      formatIsDigit c = false ∧ c ≠ 0x2D := by
    cases isLongLong with
    | true => exact ⟨0x6C, _, rfl, by decide, by decide⟩
    | false => exact ⟨type, _, rfl, noDigit, noMinus⟩
  rcases start with ⟨c, rest, isStart, ends, cNoMinus⟩
  have split : spelled field isLongLong type ++ format = field.chars ++ c :: rest := by
    rw [← isStart, spelled]
    simp
  rw [isStart] at parsedLong
  rw [split, parseDirective, parseFlags_eq ends cNoMinus]
  simp only [bind, Except.bind, parseWidth_eq ends, parsedLong]

end Parsing

section Emits

variable {type : UInt8} {field : Field} {isLongLong : Bool} {args : VaList} {i words : ℕ}
  {conversion : Conversion} {spelling text other : List UInt8}

/-- The characters of the types stand for nothing else in a conversion. -/
theorem conversionOf_plain (known : conversionOf type = some conversion) :
    formatIsDigit type = false ∧ type ≠ 0x2D ∧ type ≠ 0x6C := by
  have isType : type = 0x25 ∨ type = 0x63 ∨ type = 0x73 ∨ type = 0x64 ∨ type = 0x75 ∨
      type = 0x78 ∨ type = 0x58 ∨ type = 0x70 := by
    rw [conversionOf] at known
    grind
  rcases isType with rfl | rfl | rfl | rfl | rfl | rfl | rfl | rfl
  all_goals exact ⟨rfl, by simp, by simp⟩

/-- What is read of a spelled conversion. -/
def Field.directive (field : Field) (isLongLong : Bool) (type : UInt8) : Directive :=
  ⟨field.flags, field.intWidth, isLongLong, type⟩

theorem emits_conversionText (known : conversionOf type = some conversion)
    (printable : ∀ num ∈ decimalArg args i (field.directive isLongLong type) conversion,
      DigitsFit num) :
    Emits args i (spelled field isLongLong type)
      (conversion.words (field.directive isLongLong type))
      (conversionText args i (field.directive isLongLong type) conversion) := by
  rcases conversionOf_plain known with ⟨noDigit, noMinus, noLong⟩
  intro format fmt
  exact formatPass_again (parseDirective_eq noDigit noMinus noLong) known printable

theorem not_emits (known : conversionOf type = some conversion)
    (notPrintable : ¬∀ num ∈ decimalArg args i (field.directive isLongLong type) conversion,
      DigitsFit num) :
    ¬Emits args i (spelled field isLongLong type) words text := by
  rcases conversionOf_plain known with ⟨noDigit, noMinus, noLong⟩
  intro emits
  rcases emits [] ⟨.fresh (fun _ => 0) 0 0, 0, 0⟩ with ⟨fmt', pass, -⟩
  rw [formatPass_error (parseDirective_eq noDigit noMinus noLong) known notPrintable] at pass
  cases pass

theorem Emits.unique (emits : Emits args i spelling words text)
    (alsoEmits : Emits args i spelling words other) : text = other := by
  rcases emits [] ⟨.fresh (fun _ => 0) 0 0, 0, 0⟩ with ⟨fmt', pass, emitted⟩
  rcases alsoEmits [] ⟨.fresh (fun _ => 0) 0 0, 0, 0⟩ with ⟨fmt'', pass', emitted'⟩
  rw [pass] at pass'
  cases pass'
  have passed := congrArg Sink.passed (emitted.symm.trans emitted')
  rw [Sink.putAll_passed, Sink.putAll_passed] at passed
  exact List.append_cancel_left passed

end Emits

end Osserver
