import Osserver.Format.Field

/-!
# Scanned input

The model of `vsscanf` in `generic/std/format.c`. The pointer into the input is a position
in it, since it is stepped back too. The pointers that are stored through lead to neither
string.
-/

namespace Osserver

open Loop Numeral

/-- `str[position]`. -/
def readChar (str : CString) (position : ℕ) : Except Fault UInt8 :=
  match str.byte position with
  | none => .error .outOfString
  | some c => .ok c

/-- What a loop over the input comes to. -/
def inputLoop {Result : Type} : Option (Except Fault Result) → Except Fault Result
  | none => .error .endlessLoop
  | some outcome => outcome

def spacePass (str : CString) (position : ℕ) : Pass ℕ (Except Fault ℕ) :=
  match readChar str position with
  | .error fault => .done (.error fault)
  | .ok c => if formatIsSpace c then .again (position + 1) else .done (.ok position)

/-- `while (format_is_space(*str)) ++str`. A pass that goes on takes a character before the
zero. -/
def skipInputSpaces (str : CString) (position : ℕ) : Except Fault ℕ :=
  inputLoop (run (spacePass str) (strlen str + 1) position)

/-- The number so far, the character that was read last, and the position behind it. -/
structure DigitState where
  position : ℕ
  c : UInt8
  n : Int32

def digitPass (str : CString) (s : DigitState) : Pass DigitState (Except Fault DigitState) :=
  if formatIsDigit s.c then
    match readChar str s.position with
    | .error fault => .done (.error fault)
    | .ok c => .again ⟨s.position + 1, c, s.n * 10 + s.c.toInt8.toInt32 - 0x30⟩
  else .done (.ok s)

/-- `while (format_is_digit(c))`. -/
def readDigits (str : CString) (s : DigitState) : Except Fault DigitState :=
  inputLoop (run (digitPass str) (strlen str + 1) s)

/-- `sign`, and what is read when the digits start. -/
def readSign (str : CString) (c : UInt8) (position : ℕ) : Except Fault (Int32 × DigitState) :=
  if c = 0x2D then (readChar str position).map fun c => (-1, ⟨position + 1, c, 0⟩)
  else .ok (1, ⟨position, c, 0⟩)

/-- The case `'d'` up to the store: `n`, and what `str` is then. At the end of the input
there is none. -/
def readNumber (str : CString) (position : ℕ) : Except Fault (Option (Int32 × ℕ)) := do
  let c ← readChar str position
  if c = 0 then return none
  else
    let (sign, start) ← readSign str c (position + 1)
    let digits ← readDigits str start
    return some (digits.n * sign, digits.position - 1)

/-- What `vsscanf` is at when it comes to the start of its loop: what is left of the format,
the position in the input, how many arguments have been taken, and `count`. The stores are
the pointers with the numbers stored through them, the first one in front. -/
structure ScanState where
  format : List UInt8
  position : ℕ
  taken : ℕ
  count : Int32
  stores : List (UInt32 × Int32)

structure Scanned where
  stores : List (UInt32 × Int32)
  result : Int32
  deriving DecidableEq

/-- `match_failure`, which is also behind the loop. -/
def matchFailure (s : ScanState) : Scanned :=
  ⟨s.stores, s.count⟩

/-- `end_of_input`. -/
def endOfInput (s : ScanState) : Scanned :=
  ⟨s.stores, if s.count ≠ 0 then s.count else -1⟩

/-- `match_literal`, where `format` is left behind the literal. -/
def matchLiteral (str : CString) (c : UInt8) (format : List UInt8) (s : ScanState) :
    Pass ScanState (Except Fault Scanned) :=
  match readChar str s.position with
  | .error fault => .done (.error fault)
  | .ok d =>
      if d = 0 then .done (.ok (endOfInput s))
      else if d ≠ c then .done (.ok (matchFailure s))
      else .again { s with format := format, position := s.position + 1 }

/-- The case `'d'`. -/
def scanNumber (str : CString) (args : VaList) (format : List UInt8) (s : ScanState) :
    Pass ScanState (Except Fault Scanned) :=
  match readNumber str s.position with
  | .error fault => .done (.error fault)
  | .ok none => .done (.ok (endOfInput s))
  | .ok (some (n, position)) =>
      .again
        { format := format
          position := position
          taken := s.taken + 1
          count := s.count + 1
          stores := s.stores ++ [(args.word s.taken, n)] }

/-- One pass of the loop. -/
def scanPass (str : CString) (args : VaList) (s : ScanState) :
    Pass ScanState (Except Fault Scanned) :=
  match s.format with
  | [] => .done (.error .outOfString)
  | c :: format =>
      if c = 0 then .done (.ok (matchFailure s))
      else if formatIsSpace c then
        match skipInputSpaces str s.position with
        | .error fault => .done (.error fault)
        | .ok position => .again { s with format := format, position := position }
      else if c ≠ 0x25 then matchLiteral str c format s
      else
        match format with
        | [] => .done (.error .outOfString)
        | type :: format =>
            if type = 0x25 then matchLiteral str type format s
            else if type = 0x64 then scanNumber str args format s
            else .done (.ok ⟨s.stores, -1⟩)

/-- `vsscanf`. A pass takes at least one character of the format. -/
def vsscanf (str fmt : CString) (args : VaList) : Except Fault Scanned :=
  inputLoop (run (scanPass str args) (strlen fmt + 1) ⟨fmt.chars ++ [0], 0, 0, 0, []⟩)

section Input

/-! What is read, told of the text that is left of the input before its zero. -/

/-- The text is left of the string at the position. -/
structure LeftAt (str : CString) (position : ℕ) (text : List UInt8) : Prop where
  inside : position ≤ strlen str
  left : str.chars.drop position = text

def hasMinus (text : List UInt8) : Bool :=
  text.head? = some 0x2D

def behindMinus (text : List UInt8) : List UInt8 :=
  if hasMinus text then text.tail else text

/-- The value of digits, as far as an `int` holds it. -/
def scannedDigits (digits : List UInt8) : Int32 :=
  Int32.ofNat (value 10 (fun c => c.toNat - 0x30) digits)

/-- The number that a text starts with: there may be a minus, and there may be no digit. -/
def numberOf (text : List UInt8) : Int32 :=
  let n := scannedDigits ((behindMinus text).takeWhile formatIsDigit)
  if hasMinus text then -n else n

def behindNumber (text : List UInt8) : List UInt8 :=
  (behindMinus text).dropWhile formatIsDigit

variable {str : CString} {position fuel : ℕ} {text : List UInt8} {c : UInt8}

theorem leftAt_start (str : CString) : LeftAt str 0 str.chars :=
  ⟨Nat.zero_le _, rfl⟩

theorem LeftAt.length_le (here : LeftAt str position text) : text.length ≤ strlen str := by
  rw [← here.left, List.length_drop]
  exact Nat.sub_le _ _

theorem LeftAt.ne_zero (here : LeftAt str position (c :: text)) : c ≠ 0 := by
  rintro rfl
  apply str.noZero
  apply List.mem_of_mem_drop
  rw [here.left]
  exact List.mem_cons_self ..

theorem LeftAt.next (here : LeftAt str position (c :: text)) : LeftAt str (position + 1) text := by
  have lengths := congrArg List.length here.left
  rw [List.length_drop, List.length_cons] at lengths
  refine ⟨?_, ?_⟩
  · rw [strlen]
    omega
  · rw [← List.tail_drop, here.left, List.tail_cons]

/-- At the end of the text, the zero is read. -/
theorem LeftAt.readChar_eq (here : LeftAt str position text) :
    readChar str position = .ok (text.head?.getD 0) := by
  rw [← here.left, List.head?_drop, readChar]
  rcases Nat.lt_or_eq_of_le here.inside with before | atEnd
  · rw [CString.byte_of_lt before, List.getD_eq_getElem?_getD]
  · rw [CString.byte, atEnd, strlen, List.getElem?_concat_length,
      List.getElem?_eq_none (Nat.le_refl _)]
    rfl

theorem run_spacePass (here : LeftAt str position text) (enough : text.length < fuel) :
    ∃ behind, run (spacePass str) fuel position = some (.ok behind) ∧
      LeftAt str behind (text.dropWhile formatIsSpace) := by
  induction text generalizing position fuel with
  | nil =>
      rcases fuel with _ | fuel
      · omega
      refine ⟨position, run_done ?_, here⟩
      rw [spacePass, here.readChar_eq]
      rfl
  | cons c text ih =>
      rcases fuel with _ | fuel
      · omega
      rw [List.length_cons] at enough
      have read := here.readChar_eq
      rw [List.dropWhile_cons]
      by_cases space : formatIsSpace c = true
      · have goesOn : spacePass str position = .again (position + 1) := by
          simp [spacePass, read, space]
        rw [if_pos space, run_again goesOn]
        exact ih here.next (by omega)
      · rw [if_neg space]
        refine ⟨position, run_done ?_, here⟩
        simp [spacePass, read, space]

theorem skipInputSpaces_eq (here : LeftAt str position text) :
    ∃ behind, skipInputSpaces str position = .ok behind ∧
      LeftAt str behind (text.dropWhile formatIsSpace) := by
  rcases run_spacePass here (Nat.lt_succ_of_le here.length_le) with ⟨behind, ends, left⟩
  refine ⟨behind, ?_, left⟩
  rw [skipInputSpaces, ends, inputLoop]

theorem scannedDigits_concat (digits : List UInt8) (digit : formatIsDigit c = true) :
    scannedDigits (digits ++ [c]) = scannedDigits digits * 10 + c.toInt8.toInt32 - 0x30 := by
  rw [scannedDigits, scannedDigits, widthStep_eq _ digit, value_concat]

/-- The loop has read one character more than it takes. -/
theorem run_digitPass (done : List UInt8) (here : LeftAt str position text)
    (enough : text.length < fuel) :
    ∃ behind c, LeftAt str behind (text.dropWhile formatIsDigit) ∧
      run (digitPass str) fuel ⟨position + 1, text.head?.getD 0, scannedDigits done⟩ =
        some (.ok ⟨behind + 1, c, scannedDigits (done ++ text.takeWhile formatIsDigit)⟩) := by
  induction text generalizing position fuel done with
  | nil =>
      rcases fuel with _ | fuel
      · omega
      refine ⟨position, 0, here, run_done ?_⟩
      rw [List.takeWhile_nil, List.append_nil]
      rfl
  | cons c text ih =>
      rcases fuel with _ | fuel
      · omega
      rw [List.length_cons] at enough
      rw [List.dropWhile_cons, List.takeWhile_cons]
      by_cases digit : formatIsDigit c = true
      · have goesOn : digitPass str ⟨position + 1, c, scannedDigits done⟩ =
            .again ⟨position + 2, text.head?.getD 0, scannedDigits (done ++ [c])⟩ := by
          simp only [digitPass, if_pos digit, here.next.readChar_eq, scannedDigits_concat done digit]
        have shorter : text.length < fuel := by omega
        rcases ih (done ++ [c]) here.next shorter with ⟨behind, last, left, ends⟩
        refine ⟨behind, last, ?_, ?_⟩
        · rw [if_pos digit]
          exact left
        · rw [if_pos digit]
          refine (run_again goesOn).trans ?_
          rw [ends, List.append_assoc, List.singleton_append]
      · refine ⟨position, c, ?_, run_done ?_⟩
        · rw [if_neg digit]
          exact here
        · rw [if_neg digit, List.append_nil]
          simp [digitPass, digit]

theorem readDigits_eq (here : LeftAt str position text) :
    ∃ behind c, LeftAt str behind (text.dropWhile formatIsDigit) ∧
      readDigits str ⟨position + 1, text.head?.getD 0, 0⟩ =
        .ok ⟨behind + 1, c, scannedDigits (text.takeWhile formatIsDigit)⟩ := by
  rcases run_digitPass [] here (Nat.lt_succ_of_le here.length_le) with ⟨behind, c, left, ends⟩
  refine ⟨behind, c, left, ?_⟩
  rw [readDigits]
  change run (digitPass str) _ ⟨position + 1, text.head?.getD 0, 0⟩ = _ at ends
  rw [ends, inputLoop, List.nil_append]

theorem mul_neg_one (n : Int32) : n * -1 = -n := by
  rw [Int32.mul_neg, Int32.mul_one]

theorem readNumber_nil (here : LeftAt str position []) : readNumber str position = .ok none := by
  simp only [readNumber, here.readChar_eq, bind, Except.bind]
  rfl

theorem readNumber_cons (here : LeftAt str position (c :: text)) :
    ∃ behind, readNumber str position = .ok (some (numberOf (c :: text), behind)) ∧
      LeftAt str behind (behindNumber (c :: text)) := by
  have read : readChar str position = .ok c := here.readChar_eq
  by_cases minus : c = 0x2D
  · rcases readDigits_eq here.next with ⟨behind, last, left, digits⟩
    refine ⟨behind, ?_, ?_⟩
    · simp only [readNumber, readSign, read, bind, Except.bind, if_neg here.ne_zero, if_pos minus,
        here.next.readChar_eq, Except.map, digits, mul_neg_one]
      simp [numberOf, behindMinus, hasMinus, minus, pure, Except.pure]
    · simpa [behindNumber, behindMinus, hasMinus, minus] using left
  · rcases readDigits_eq here with ⟨behind, last, left, digits⟩
    change readDigits str ⟨position + 1, c, 0⟩ = _ at digits
    refine ⟨behind, ?_, ?_⟩
    · simp only [readNumber, readSign, read, bind, Except.bind, if_neg here.ne_zero, if_neg minus,
        digits]
      simp [numberOf, behindMinus, hasMinus, minus, pure, Except.pure]
    · simpa [behindNumber, behindMinus, hasMinus, minus] using left

end Input

end Osserver
