import Osserver.Format.Decimal
import Osserver.Format.Scanning

/-!
# Scanning decimal numerals

`vsscanf` reads back the numeral of every `int`. A digit is added to ten times the number as
the code of its character, and the code of the character `0` is taken off again only
afterwards. So near the ends of the range the sum in between is no `int`.
-/

namespace Osserver

open Loop Numeral

/-- The intermediate results of `n * 10 + c - '0'`, from left to right and exact. -/
def digitSums (n : Int32) (c : UInt8) : List ℤ :=
  [n.toInt * 10, n.toInt * 10 + c.toInt8.toInt, n.toInt * 10 + c.toInt8.toInt - 0x30]

/-- The digit loop, with the intermediate results of its passes. -/
def digitPassSums (str : CString) (s : DigitState) :
    List ℤ × Pass DigitState (Except Fault DigitState) :=
  (if formatIsDigit s.c then digitSums s.n s.c else [], digitPass str s)

/-- The exact results of the operations that the case `'d'` does on numbers: those of the
digit loop, and the product with the sign. -/
def numberResults (str : CString) (position : ℕ) : List ℤ :=
  match readChar str position with
  | .error _ => []
  | .ok c =>
      if c = 0 then []
      else
        match readSign str c (position + 1) with
        | .error _ => []
        | .ok (sign, start) =>
            trace (digitPassSums str) (strlen str + 1) start ++
              match readDigits str start with
              | .error _ => []
              | .ok digits => [digits.n.toInt * sign.toInt]

def InIntRange (result : ℤ) : Prop :=
  -2 ^ 31 ≤ result ∧ result < 2 ^ 31

/-- Scanning the string with `%d` stores the number, counts it and stops behind its numeral,
and no result in between leaves the `int` range. -/
structure InvertsDecimal (str fmt : CString) (args : VaList) (n : Int32) : Prop where
  result : vsscanf str fmt args = .ok ⟨[(args.word 0, n)], 1⟩
  cursor : readNumber str 0 = .ok (some (n, (decimalNumeral n.toInt).length))
  inRange : ∀ result ∈ numberResults str 0, InIntRange result

section Results

variable {str : CString} {position fuel : ℕ} {text digits : List UInt8} {c : UInt8} {r : ℤ}

/-- The intermediate results for digits behind those that have been read. -/
def sumsFrom (done : List UInt8) : List UInt8 → List ℤ
  | [] => []
  | c :: digits => digitSums (scannedDigits done) c ++ sumsFrom (done ++ [c]) digits

theorem mem_sumsFrom {done : List UInt8} : r ∈ sumsFrom done digits ↔
    ∃ before c after, digits = before ++ c :: after ∧
      r ∈ digitSums (scannedDigits (done ++ before)) c := by
  induction digits generalizing done with
  | nil => simp [sumsFrom]
  | cons c digits ih =>
      rw [sumsFrom, List.mem_append, ih]
      constructor
      · rintro (now | ⟨before, d, after, rfl, later⟩)
        · exact ⟨[], c, digits, rfl, by simpa using now⟩
        · exact ⟨c :: before, d, after, rfl, by simpa using later⟩
      · rintro ⟨before, d, after, split, isSum⟩
        rcases before with _ | ⟨first, before⟩
        · cases split
          exact Or.inl (by simpa using isSum)
        · cases split
          exact Or.inr ⟨before, d, after, rfl, by simpa using isSum⟩

theorem trace_digitPassSums (done : List UInt8) (here : LeftAt str position text)
    (enough : text.length < fuel) :
    trace (digitPassSums str) fuel ⟨position + 1, text.head?.getD 0, scannedDigits done⟩ =
      sumsFrom done (text.takeWhile formatIsDigit) := by
  induction text generalizing position fuel done with
  | nil =>
      rcases fuel with _ | fuel
      · omega
      · rfl
  | cons c text ih =>
      rcases fuel with _ | fuel
      · omega
      rw [List.length_cons] at enough
      rw [List.takeWhile_cons]
      by_cases digit : formatIsDigit c = true
      · have goesOn : (digitPassSums str ⟨position + 1, c, scannedDigits done⟩).2 =
            .again ⟨position + 2, text.head?.getD 0, scannedDigits (done ++ [c])⟩ := by
          simp only [digitPassSums, digitPass, if_pos digit, here.next.readChar_eq,
            scannedDigits_concat done digit]
        have shorter : text.length < fuel := by omega
        have rest := ih (done ++ [c]) here.next shorter
        rw [if_pos digit, sumsFrom, ← rest]
        refine (trace_again goesOn).trans ?_
        simp [digitPassSums, digit]
      · rw [if_neg digit]
        simp [trace, digitPassSums, digitPass, digit, sumsFrom]

theorem numberResults_eq (here : LeftAt str position (c :: text)) :
    numberResults str position =
      sumsFrom [] ((behindMinus (c :: text)).takeWhile formatIsDigit) ++
        [(scannedDigits ((behindMinus (c :: text)).takeWhile formatIsDigit)).toInt *
          if hasMinus (c :: text) then -1 else 1] := by
  have read : readChar str position = .ok c := here.readChar_eq
  by_cases minus : c = 0x2D
  · rcases readDigits_eq here.next with ⟨behind, last, _, digits⟩
    have sums : trace (digitPassSums str) (strlen str + 1) ⟨position + 2, text.head?.getD 0, 0⟩ =
        sumsFrom [] (text.takeWhile formatIsDigit) :=
      trace_digitPassSums [] here.next (Nat.lt_succ_of_le here.next.length_le)
    have negative : (-1 : Int32).toInt = -1 := rfl
    simp only [numberResults, readSign, read, if_neg here.ne_zero, if_pos minus,
      here.next.readChar_eq, Except.map, digits, sums, negative]
    simp [behindMinus, hasMinus, minus]
  · rcases readDigits_eq here with ⟨behind, last, _, digits⟩
    have sums : trace (digitPassSums str) (strlen str + 1) ⟨position + 1, c, 0⟩ =
        sumsFrom [] ((c :: text).takeWhile formatIsDigit) :=
      trace_digitPassSums [] here (Nat.lt_succ_of_le here.length_le)
    have positive : (1 : Int32).toInt = 1 := rfl
    change readDigits str ⟨position + 1, c, 0⟩ = _ at digits
    simp only [numberResults, readSign, read, if_neg here.ne_zero, if_neg minus, digits, sums,
      positive]
    simp [behindMinus, hasMinus, minus]

end Results

section Numerals

variable {n : Int32} {rest before after : List UInt8} {c : UInt8} {m : ℕ}

theorem decimalChar_plain : ∀ d < 10, formatIsDigit (decimalChar d) = true ∧
    (decimalChar d).toInt8.toInt = 0x30 + d := by
  decide

theorem isDigit_of_mem_numeral (isChar : c ∈ numeral 10 decimalChar m) :
    formatIsDigit c = true ∧ c.toInt8.toInt = 0x30 + decimalDigit c := by
  rcases exists_of_mem_numeral (by omega) isChar with ⟨d, small, rfl⟩
  rw [decimalDigit_char d small]
  exact decimalChar_plain d small

theorem numeral_ne_nil (m : ℕ) : numeral 10 decimalChar m ≠ [] := by
  by_cases single : m < 10
  · rw [numeral_of_lt single]
    exact List.cons_ne_nil _ _
  · rw [numeral_of_le (by omega) (by omega)]
    exact List.append_ne_nil_of_right_ne_nil _ (List.cons_ne_nil _ _)

/-- A digit is no minus. -/
theorem hasMinus_numeral (m : ℕ) (rest : List UInt8) :
    hasMinus (numeral 10 decimalChar m ++ rest) = false := by
  cases isNumeral : numeral 10 decimalChar m with
  | nil => exact absurd isNumeral (numeral_ne_nil m)
  | cons c digits =>
      have member : c ∈ numeral 10 decimalChar m := by
        rw [isNumeral]
        exact List.mem_cons_self ..
      have digit := (isDigit_of_mem_numeral member).1
      have noMinus : c ≠ 0x2D := by
        rintro rfl
        cases digit
      simp [hasMinus, noMinus]

theorem hasMinus_decimalNumeral (n : ℤ) (rest : List UInt8) :
    hasMinus (decimalNumeral n ++ rest) = decide (n < 0) ∧
      behindMinus (decimalNumeral n ++ rest) = numeral 10 decimalChar n.natAbs ++ rest := by
  have plain := hasMinus_numeral n.natAbs rest
  by_cases negative : n < 0
  · simp [decimalNumeral, decimalSign, negative, hasMinus, behindMinus]
  · simp [decimalNumeral, decimalSign, negative, plain, behindMinus]

theorem takeWhile_numeral (ends : ∀ c ∈ rest.head?, formatIsDigit c = false) :
    (numeral 10 decimalChar m ++ rest).takeWhile formatIsDigit = numeral 10 decimalChar m ∧
      (numeral 10 decimalChar m ++ rest).dropWhile formatIsDigit = rest := by
  have areDigits : ∀ c ∈ numeral 10 decimalChar m, formatIsDigit c = true :=
    fun c isChar => (isDigit_of_mem_numeral isChar).1
  rw [List.takeWhile_append_of_pos areDigits, List.dropWhile_append_of_pos areDigits]
  cases rest with
  | nil => simp
  | cons c rest =>
      have noDigit := ends c rfl
      simp [noDigit]

theorem scannedDigits_numeral (m : ℕ) :
    scannedDigits (numeral 10 decimalChar m) = Int32.ofNat m :=
  congrArg Int32.ofNat (value_numeral (by omega) decimalDigit_char)

theorem numberOf_decimalNumeral (n : Int32) (ends : ∀ c ∈ rest.head?, formatIsDigit c = false) :
    numberOf (decimalNumeral n.toInt ++ rest) = n ∧
      behindNumber (decimalNumeral n.toInt ++ rest) = rest := by
  rcases hasMinus_decimalNumeral n.toInt rest with ⟨sign, behind⟩
  have spans := @takeWhile_numeral rest n.toInt.natAbs ends
  constructor
  · rw [numberOf, behind, spans.1, scannedDigits_numeral, sign]
    by_cases negative : n.toInt < 0
    · have opposite : (n.toInt.natAbs : ℤ) = -n.toInt := by omega
      simp only [negative, decide_true, if_true]
      rw [← Int32.ofInt_eq_ofNat, opposite, ← Int32.ofInt_neg, Int.neg_neg, Int32.ofInt_toInt]
    · have same : (n.toInt.natAbs : ℤ) = n.toInt := by omega
      simp only [negative, decide_false, Bool.false_eq_true, if_false]
      rw [← Int32.ofInt_eq_ofNat, same, Int32.ofInt_toInt]
  · rw [behindNumber, behind, spans.2]

/-- The sums for a digit of a numeral, in terms of the digits before. -/
theorem digitSums_numeral (split : numeral 10 decimalChar m = before ++ c :: after)
    (small : m ≤ 2 ^ 31) : ∃ v, v * 10 + decimalDigit c ≤ m ∧
      digitSums (scannedDigits before) c =
        [(v * 10 : ℤ), (v * 10 + (0x30 + decimalDigit c) : ℤ),
          (v * 10 + (0x30 + decimalDigit c) - 0x30 : ℤ)] ∧
      (after = [] → v * 10 + decimalDigit c = m) := by
  have isValue := @value_numeral _ 10 m decimalChar decimalDigit (by omega) decimalDigit_char
  have regroup : before ++ c :: after = (before ++ [c]) ++ after := by simp
  have bound := @value_le_append _ 10 decimalDigit (before ++ [c]) after (by omega)
  rw [← regroup, ← split, isValue, value_concat] at bound
  have code : c.toInt8.toInt = 0x30 + decimalDigit c := by
    apply (@isDigit_of_mem_numeral c m _).2
    rw [split]
    simp
  have fits : value 10 decimalDigit before < 2 ^ 31 := by omega
  have exact' : (scannedDigits before).toInt = (value 10 decimalDigit before : ℤ) :=
    Int32.toInt_ofNat_of_lt fits
  refine ⟨value 10 decimalDigit before, bound, by rw [digitSums, exact', code], ?_⟩
  rintro rfl
  rw [split, value_concat] at isValue
  exact isValue

/-- All sums for a numeral are numbers of the range exactly when the last one is before the
code of `0` is taken off. -/
theorem sums_inRange_iff (small : m ≤ 2 ^ 31) :
    (∀ r ∈ sumsFrom [] (numeral 10 decimalChar m), InIntRange r) ↔ m + 0x30 < 2 ^ 31 := by
  constructor
  · intro inRange
    rcases List.eq_nil_or_concat (numeral 10 decimalChar m) with none | ⟨before, c, split⟩
    · exact absurd none (numeral_ne_nil m)
    · rw [List.concat_eq_append] at split
      rcases digitSums_numeral split small with ⟨v, _, sums, last⟩
      have isSum : (v * 10 + (0x30 + decimalDigit c) : ℤ) ∈
          sumsFrom [] (numeral 10 decimalChar m) := by
        refine mem_sumsFrom.mpr ⟨before, c, [], split, ?_⟩
        rw [List.nil_append, sums]
        simp
      have bound := (inRange _ isSum).2
      have total := last rfl
      omega
  · intro below r isSum
    rcases mem_sumsFrom.mp isSum with ⟨before, c, after, split, isDigitSum⟩
    rcases digitSums_numeral split small with ⟨v, bound, sums, _⟩
    rw [List.nil_append, sums] at isDigitSum
    simp only [List.mem_cons, List.not_mem_nil, or_false] at isDigitSum
    rw [InIntRange]
    rcases isDigitSum with rfl | rfl | rfl
    · omega
    · omega
    · omega

end Numerals

section Scan

variable {str fmt : CString} {args : VaList} {n : Int32} {rest : List UInt8}

theorem natAbs_le (n : Int32) : n.toInt.natAbs ≤ 2 ^ 31 := by
  have low := n.le_toInt
  have high := n.toInt_lt
  omega

theorem decimalNumeral_ne_nil (n : ℤ) : decimalNumeral n ≠ [] :=
  List.append_ne_nil_of_right_ne_nil _ (numeral_ne_nil _)

theorem Takes.number_eq {text left : List UInt8} {now : List Int32}
    (takes : Takes .number text now left) : now = [numberOf text] := by
  cases takes
  rfl

/-- A scan with `%d` takes one number, when there is something to read. -/
theorem vsscanf_number (args : VaList) (isFormat : fmt.chars = [0x25, 0x64])
    (nonempty : str.chars ≠ []) :
    vsscanf str fmt args = .ok ⟨[(args.word 0, numberOf str.chars)], 1⟩ := by
  have short : strlen fmt < 2 ^ 32 := by
    rw [strlen, isFormat]
    decide
  rcases vsscanf_inside str fmt args short with ⟨⟨stores, result⟩, done, ahead, values, left,
    ending, returns, split, completes, stops, _, storesEq, resultEq⟩
  have directives : scanDirectives fmt.chars = [.number] := by
    rw [isFormat]
    rfl
  rw [directives] at split
  cases completes with
  | nil text =>
      rw [List.nil_append] at split
      subst split
      cases text : str.chars with
      | nil => exact absurd text nonempty
      | cons c text' =>
          rw [text] at stops
          cases stops
  | cons takes completes =>
      rw [List.cons_append, List.cons.injEq] at split
      rcases split with ⟨rfl, split⟩
      rcases List.nil_eq_append_iff.mp split with ⟨rfl, rfl⟩
      cases completes
      cases stops
      rw [takes.number_eq] at storesEq resultEq
      have one : result = 1 := Int32.toInt_inj.mp resultEq
      rw [returns, one]
      simp only at storesEq
      rw [storesEq]
      rfl

/-- The number is read up to the character behind its numeral. -/
theorem readNumber_decimalNumeral (isText : str.chars = decimalNumeral n.toInt ++ rest)
    (ends : ∀ c ∈ rest.head?, formatIsDigit c = false) :
    readNumber str 0 = .ok (some (n, (decimalNumeral n.toInt).length)) := by
  have spans := numberOf_decimalNumeral n ends
  rw [← isText] at spans
  have nonempty : str.chars ≠ [] := by
    rw [isText]
    exact List.append_ne_nil_of_left_ne_nil (decimalNumeral_ne_nil _) _
  rcases List.exists_cons_of_ne_nil nonempty with ⟨c, text, split⟩
  have start := leftAt_start str
  rw [split] at start spans
  rcases readNumber_cons start with ⟨behind, reads, here⟩
  rw [spans.1] at reads
  rw [spans.2] at here
  have position : behind = (decimalNumeral n.toInt).length := by
    have lengths := congrArg List.length here.left
    have inside := here.inside
    rw [strlen] at inside
    rw [List.length_drop] at lengths
    rw [isText, List.length_append] at inside lengths
    omega
  rw [reads, position]

theorem numberResults_inRange_iff (isText : str.chars = decimalNumeral n.toInt ++ rest)
    (ends : ∀ c ∈ rest.head?, formatIsDigit c = false) :
    (∀ r ∈ numberResults str 0, InIntRange r) ↔ n.toInt.natAbs + 0x30 < 2 ^ 31 := by
  have nonempty : str.chars ≠ [] := by
    rw [isText]
    exact List.append_ne_nil_of_left_ne_nil (decimalNumeral_ne_nil _) _
  rcases List.exists_cons_of_ne_nil nonempty with ⟨c, text, split⟩
  have start := leftAt_start str
  rw [split] at start
  have sums := sums_inRange_iff (natAbs_le n)
  have results := numberResults_eq start
  rw [← split, isText, (hasMinus_decimalNumeral n.toInt rest).2, (takeWhile_numeral ends).1,
    scannedDigits_numeral] at results
  rw [results]
  constructor
  · intro inRange
    exact sums.mp fun r isSum => inRange r (List.mem_append_left _ isSum)
  · intro below r member
    rcases List.mem_append.mp member with isSum | isProduct
    · exact sums.mpr below r isSum
    · have magnitude : (Int32.ofNat n.toInt.natAbs).toInt = n.toInt.natAbs :=
        Int32.toInt_ofNat_of_lt (by omega)
      rw [List.mem_singleton, magnitude] at isProduct
      rw [InIntRange, isProduct]
      split_ifs
      · omega
      · omega

end Scan

/-- `vsscanf` inverts the decimal notation of a number, with no result in between that is no
`int`, exactly when the code of `0` fits on top of the number's absolute value. -/
theorem vsscanf_inverts_iff {str fmt : CString} (args : VaList) {n : Int32} {rest : List UInt8}
    (isFormat : fmt.chars = [0x25, 0x64]) (isText : str.chars = decimalNumeral n.toInt ++ rest)
    (ends : ∀ c ∈ rest.head?, formatIsDigit c = false) :
    InvertsDecimal str fmt args n ↔ n.toInt.natAbs ≤ 2147483599 := by
  have inRange := numberResults_inRange_iff isText ends
  constructor
  · intro inverts
    have below := inRange.mp inverts.inRange
    omega
  · intro small
    refine ⟨?_, readNumber_decimalNumeral isText ends, inRange.mpr (by omega)⟩
    have nonempty : str.chars ≠ [] := by
      rw [isText]
      exact List.append_ne_nil_of_left_ne_nil (decimalNumeral_ne_nil _) _
    rw [vsscanf_number args isFormat nonempty, isText, (numberOf_decimalNumeral n ends).1]

/-- `-7` with a letter behind it. -/
theorem vsscanf_inverts_iff_letter :
    InvertsDecimal ⟨[0x2D, 0x37, 0x61], by decide⟩ ⟨[0x25, 0x64], by decide⟩
      ⟨fun i => UInt32.ofNat (0x1000 + 4 * i), fun _ => ⟨[], by decide⟩⟩ (-7) :=
  (@vsscanf_inverts_iff ⟨[0x2D, 0x37, 0x61], by decide⟩ ⟨[0x25, 0x64], by decide⟩
    ⟨fun i => UInt32.ofNat (0x1000 + 4 * i), fun _ => ⟨[], by decide⟩⟩ (-7) [0x61] rfl
      (by decide +kernel) (by rintro c ⟨⟩; rfl)).mpr (by decide)

/-- The highest number: the sum with the code of its last digit is 2147483695. -/
theorem vsscanf_highest_overflows :
    let str : CString := ⟨[0x32, 0x31, 0x34, 0x37, 0x34, 0x38, 0x33, 0x36, 0x34, 0x37], by decide⟩
    str.chars = decimalNumeral 2147483647 ∧ 2147483695 ∈ numberResults str 0 ∧
      ¬InvertsDecimal str ⟨[0x25, 0x64], by decide⟩
        ⟨fun i => UInt32.ofNat (0x1000 + 4 * i), fun _ => ⟨[], by decide⟩⟩ 2147483647 := by
  intro str
  have isResult : 2147483695 ∈ numberResults str 0 := by decide +kernel
  refine ⟨by decide +kernel, isResult, ?_⟩
  intro inverts
  have bound := (inverts.inRange _ isResult).2
  omega

end Osserver
