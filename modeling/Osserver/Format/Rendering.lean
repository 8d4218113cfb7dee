import Osserver.Format.Text

/-!
# A format and its text

A format is read as a list of pieces, up to its end or up to a conversion that
`vsnprintf` does not know. The pieces and the arguments make a text, unless a number
is among them whose digits do not fit. `vsnprintf` puts out this text: the buffer holds
what there is room for.
-/

namespace Osserver

open Loop

section Parsing

variable {c : UInt8} {format : List UInt8}

theorem zero_mem_of_ne (zero : 0 ∈ c :: format) (notZero : c ≠ 0) : 0 ∈ format :=
  List.mem_of_ne_of_mem (Ne.symm notZero) zero

theorem parseFlags_spec (zero : 0 ∈ format) :
    ∃ flags rest, parseFlags format = .ok (flags, rest) ∧ rest.length ≤ format.length ∧
      0 ∈ rest := by
  cases format with
  | nil => cases zero
  | cons c format =>
      rw [parseFlags]
      by_cases minus : c = 0x2D
      · rw [if_pos minus]
        refine ⟨_, _, rfl, Nat.le_succ _, zero_mem_of_ne zero ?_⟩
        rw [minus]
        decide
      · rw [if_neg minus]
        by_cases isZero : c = 0x30
        · rw [if_pos isZero]
          refine ⟨_, _, rfl, Nat.le_succ _, zero_mem_of_ne zero ?_⟩
          rw [isZero]
          decide
        · rw [if_neg isZero]
          exact ⟨_, _, rfl, Nat.le_refl _, zero⟩

theorem ne_zero_of_digit (digit : formatIsDigit c = true) : c ≠ 0 := by
  rintro rfl
  cases digit

theorem widthLoop_spec (width : Int32) (zero : 0 ∈ format) :
    ∃ width' rest, widthLoop width format = .ok (width', rest) ∧ rest.length ≤ format.length ∧
      0 ∈ rest := by
  induction format generalizing width with
  | nil => cases zero
  | cons c format ih =>
      rw [widthLoop]
      by_cases digit : formatIsDigit c = true
      · rw [if_pos digit]
        rcases ih (width * 10 + c.toInt8.toInt32 - 0x30)
          (zero_mem_of_ne zero (ne_zero_of_digit digit)) with ⟨width', rest, parsed, shorter, ahead⟩
        exact ⟨width', rest, parsed, Nat.le_succ_of_le shorter, ahead⟩
      · rw [if_neg digit]
        exact ⟨width, _, rfl, Nat.le_refl _, zero⟩

theorem parseWidth_spec (zero : 0 ∈ format) :
    ∃ width rest, parseWidth format = .ok (width, rest) ∧ rest.length ≤ format.length ∧
      0 ∈ rest := by
  cases format with
  | nil => cases zero
  | cons c format =>
      rw [parseWidth]
      by_cases digit : formatIsDigit c = true
      · rw [if_pos digit]
        exact widthLoop_spec 0 zero
      · rw [if_neg digit]
        exact ⟨-1, _, rfl, Nat.le_refl _, zero⟩

theorem parseLong_spec (zero : 0 ∈ format) :
    ∃ isLongLong rest, parseLong format = .ok (isLongLong, rest) ∧
      rest.length ≤ format.length ∧ 0 ∈ rest := by
  have notZero : (0x6C : UInt8) ≠ 0 := by decide
  cases format with
  | nil => cases zero
  | cons c format =>
      simp only [parseLong.eq_def]
      by_cases long : c = 0x6C
      · subst long
        have ahead := zero_mem_of_ne zero notZero
        rw [if_pos rfl]
        cases format with
        | nil => cases ahead
        | cons c format =>
            by_cases longLong : c = 0x6C
            · subst longLong
              refine ⟨true, format, if_pos rfl, ?_, zero_mem_of_ne ahead notZero⟩
              rw [List.length_cons, List.length_cons]
              omega
            · exact ⟨false, c :: format, if_neg longLong, Nat.le_succ _, ahead⟩
      · rw [if_neg long]
        exact ⟨false, _, rfl, Nat.le_refl _, zero⟩

/-- A conversion is read without a step behind the terminating zero. -/
theorem parseDirective_spec (zero : 0 ∈ format) :
    ∃ directive rest, parseDirective format = .ok (directive, rest) ∧
      rest.length < format.length ∧ (directive.type ≠ 0 → 0 ∈ rest) := by
  rcases parseFlags_spec zero with ⟨flags, format₁, parsedFlags, shorter₁, zero₁⟩
  rcases parseWidth_spec zero₁ with ⟨width, format₂, parsedWidth, shorter₂, zero₂⟩
  rcases parseLong_spec zero₂ with ⟨isLongLong, format₃, parsedLong, shorter₃, zero₃⟩
  cases format₃ with
  | nil => cases zero₃
  | cons type rest =>
      refine ⟨⟨flags, width, isLongLong, type⟩, rest, ?_, ?_, zero_mem_of_ne zero₃⟩
      · simp [parseDirective, parsedFlags, parsedWidth, parsedLong, bind, Except.bind]
      · rw [List.length_cons] at shorter₃
        omega

end Parsing

section Pieces

/-- A character of the format, or a conversion. -/
inductive Piece where
  | char (c : UInt8)
  | conversion (directive : Directive) (conversion : Conversion)

/-- The pieces of what is left of a format, and whether they go up to its end. There are at
most as many as characters. -/
def pieces : ℕ → List UInt8 → List Piece × Bool
  | 0, _ => ([], false)
  | _ + 1, [] => ([], false)
  | count + 1, c :: format =>
      if c = 0 then ([], true)
      else if c ≠ 0x25 then
        (.char c :: (pieces count format).1, (pieces count format).2)
      else
        match parseDirective format with
        | .error _ => ([], false)
        | .ok (directive, format) =>
            match conversionOf directive.type with
            | none => ([], false)
            | some conversion =>
                (.conversion directive conversion :: (pieces count format).1,
                  (pieces count format).2)

/-- The pieces of a format. -/
def formatPieces (format : CString) : List Piece :=
  (pieces (format.chars.length + 1) (format.chars ++ [0])).1

/-- The format contains no conversion that `vsnprintf` does not know. -/
def Supported (format : CString) : Prop :=
  (pieces (format.chars.length + 1) (format.chars ++ [0])).2 = true

/-- The number that a decimal conversion puts out behind its sign. -/
def decimalArg (args : VaList) (i : ℕ) (directive : Directive) : Conversion → Option UInt64
  | .signed =>
      let n := args.signedArg i directive.isLongLong
      some (if n < 0 then (-n).toUInt64 else n.toUInt64)
  | .unsigned => some (args.unsignedArg i directive.isLongLong)
  | _ => none

/-- How many words of the arguments a conversion takes. -/
def Conversion.words (directive : Directive) : Conversion → ℕ
  | .percent => 0
  | .char | .string | .pointer => 1
  | .signed | .unsigned | .hex => longWords directive.isLongLong

/-- The text of a conversion. -/
def conversionText (args : VaList) (i : ℕ) (directive : Directive) : Conversion → List UInt8
  | .percent => [0x25]
  | .char => [(args.word i).toUInt8]
  | .string =>
      let s := args.stringArg i
      fieldText directive.flags
        (if directive.width > 0 then directive.width - Int32.ofNat (strlen s) else directive.width)
        s.chars
  | .signed =>
      let n := args.signedArg i directive.isLongLong
      if n < 0 then
        0x2D :: numeralText directive.flags directive.width (decimalDigits (-n).toUInt64)
      else numeralText directive.flags directive.width (decimalDigits n.toUInt64)
  | .unsigned =>
      numeralText directive.flags directive.width
        (decimalDigits (args.unsignedArg i directive.isLongLong))
  | .hex =>
      numeralText directive.flags directive.width
        (hexText directive.type (args.unsignedArg i directive.isLongLong))
  | .pointer =>
      0x30 :: 0x78 :: numeralText directive.flags directive.width
        (hexText 0x78 (args.word i).toUInt64)

/-- The digits of every decimal conversion among the pieces fit. -/
def Printable (args : VaList) : List Piece → ℕ → Prop
  | [], _ => True
  | .char _ :: rest, i => Printable args rest i
  | .conversion directive conversion :: rest, i =>
      (∀ num ∈ decimalArg args i directive conversion, DigitsFit num) ∧
        Printable args rest (i + conversion.words directive)

/-- At most one number is put out by a conversion. -/
instance decidableDigitsFit (arg : Option UInt64) :
    Decidable (∀ num ∈ arg, DigitsFit num) :=
  match arg with
  | none => isTrue fun _ isArg => nomatch isArg
  | some num => decidable_of_iff (DigitsFit num) (by simp)

instance decidablePrintable (args : VaList) :
    (pieces : List Piece) → (i : ℕ) → Decidable (Printable args pieces i)
  | [], _ => isTrue trivial
  | .char _ :: rest, i => decidablePrintable args rest i
  | .conversion directive conversion :: rest, i =>
      have := decidablePrintable args rest (i + conversion.words directive)
      @instDecidableAnd _ _ (decidableDigitsFit (decimalArg args i directive conversion)) this

/-- The text of the pieces. -/
def piecesText (args : VaList) : List Piece → ℕ → List UInt8
  | [], _ => []
  | .char c :: rest, i => c :: piecesText args rest i
  | .conversion directive conversion :: rest, i =>
      conversionText args i directive conversion ++
        piecesText args rest (i + conversion.words directive)

/-- What `vsnprintf` leaves: at the end of the format it closes the text and returns its
length. -/
def ending (complete : Bool) (sink : Sink UInt8) : Formatted :=
  if complete then ⟨sink.close 0, Int32.ofNat sink.position⟩ else ⟨sink, -1⟩

/-- What comes of the pieces. -/
def rendered (args : VaList) (read : List Piece × Bool) (i : ℕ) (sink : Sink UInt8) :
    Except Fault Formatted :=
  if Printable args read.1 i then .ok (ending read.2 (sink.putAll (piecesText args read.1 i)))
  else .error .outOfBuffer

end Pieces

section Refinement

variable {args : VaList} {i : ℕ} {directive : Directive} {conversion : Conversion} {fmt : Fmt}

theorem convert_eq_ok (flags : fmt.flags = directive.flags) (width : fmt.width = directive.width)
    (printable : ∀ num ∈ decimalArg args i directive conversion, DigitsFit num) :
    ∃ fmt', convert args directive i fmt conversion =
        .ok (i + conversion.words directive, fmt') ∧
      fmt'.sink = fmt.sink.putAll (conversionText args i directive conversion) := by
  cases conversion with
  | percent => exact ⟨_, rfl, rfl⟩
  | char => exact ⟨_, rfl, rfl⟩
  | string =>
      refine ⟨_, rfl, ?_⟩
      rw [formatOutString_eq, conversionText, width]
      by_cases wide : directive.width > 0
      · simp only [if_pos wide, emit_sink, flags]
      · simp only [if_neg wide, emit_sink, flags, width]
  | signed =>
      by_cases negative : args.signedArg i directive.isLongLong < 0
      · have fits := printable _ rfl
        simp only [if_pos negative] at fits
        rcases @formatOutDec_eq_ok (formatOutChar fmt 0x2D) _ fits with ⟨rest, written⟩
        simp only [convert, if_pos negative, written, Except.map]
        refine ⟨_, rfl, ?_⟩
        rw [conversionText, if_pos negative, emit_sink, ← flags, ← width]
        rfl
      · have fits := printable _ rfl
        simp only [if_neg negative] at fits
        rcases @formatOutDec_eq_ok fmt _ fits with ⟨rest, written⟩
        simp only [convert, if_neg negative, written, Except.map]
        refine ⟨_, rfl, ?_⟩
        rw [conversionText, if_neg negative, emit_sink, ← flags, ← width]
  | unsigned =>
      rcases @formatOutDec_eq_ok fmt _ (printable _ rfl) with ⟨rest, written⟩
      simp only [convert, written, Except.map]
      refine ⟨_, rfl, ?_⟩
      rw [conversionText, emit_sink, ← flags, ← width]
  | hex =>
      rcases @formatOutHex_eq fmt (args.unsignedArg i directive.isLongLong) directive.type with
        ⟨rest, written⟩
      simp only [convert, written, Except.map]
      refine ⟨_, rfl, ?_⟩
      rw [conversionText, emit_sink, ← flags, ← width]
  | pointer =>
      rcases @formatOutHex_eq (formatOutChar (formatOutChar fmt 0x30) 0x78)
        (args.word i).toUInt64 0x78 with ⟨rest, written⟩
      simp only [convert, formatOutPointer, written, Except.map]
      refine ⟨_, rfl, ?_⟩
      rw [conversionText, emit_sink, ← flags, ← width]
      rfl

theorem convert_eq_error
    (notPrintable : ¬∀ num ∈ decimalArg args i directive conversion,
      DigitsFit num) :
    convert args directive i fmt conversion = .error .outOfBuffer := by
  cases conversion with
  | signed =>
      simp only [decimalArg, Option.mem_def, Option.some.injEq, forall_eq'] at notPrintable
      by_cases negative : args.signedArg i directive.isLongLong < 0
      · rw [if_pos negative] at notPrintable
        simp only [convert, if_pos negative, formatOutDec_eq_error notPrintable, Except.map]
      · rw [if_neg negative] at notPrintable
        simp only [convert, if_neg negative, formatOutDec_eq_error notPrintable, Except.map]
  | unsigned =>
      simp only [decimalArg, Option.mem_def, Option.some.injEq, forall_eq'] at notPrintable
      simp only [convert, formatOutDec_eq_error notPrintable, Except.map]
  | percent | char | string | hex | pointer =>
      exact absurd (fun num isArg => by cases isArg) notPrintable

theorem finish_eq : finish fmt = ending true fmt.sink := by
  rw [finish, ending, if_pos rfl, Sink.close_position]

theorem rendered_char {read : List Piece × Bool} {sink : Sink UInt8} {c : UInt8} :
    rendered args (.char c :: read.1, read.2) i sink = rendered args read i (sink.put c) := rfl

theorem rendered_conversion {read : List Piece × Bool} {sink : Sink UInt8}
    (printable : ∀ num ∈ decimalArg args i directive conversion, DigitsFit num) :
    rendered args (.conversion directive conversion :: read.1, read.2) i sink =
      rendered args read (i + conversion.words directive)
        (sink.putAll (conversionText args i directive conversion)) := by
  simp only [rendered, Printable, piecesText, Sink.putAll_append, and_iff_right printable]

theorem conversionOf_zero : conversionOf 0 = none := rfl

/-- A pass over a conversion whose digits fit. -/
theorem formatPass_again {format rest : List UInt8}
    (parsed : parseDirective format = .ok (directive, rest))
    (known : conversionOf directive.type = some conversion)
    (printable : ∀ num ∈ decimalArg args i directive conversion, DigitsFit num) :
    ∃ fmt', formatPass args ⟨0x25 :: format, i, fmt⟩ =
        .again ⟨rest, i + conversion.words directive, fmt'⟩ ∧
      fmt'.sink = fmt.sink.putAll (conversionText args i directive conversion) := by
  rcases @convert_eq_ok args i directive conversion
    { fmt with flags := directive.flags, width := directive.width } rfl rfl printable with
    ⟨fmt', converted, emitted⟩
  refine ⟨fmt', ?_, emitted⟩
  have isConversion : ¬(0x25 : UInt8) ≠ 0x25 := fun different => different rfl
  have notZero : (0x25 : UInt8) ≠ 0 := by decide
  simp only [formatPass, if_neg notZero, if_neg isConversion, parsed, known, converted]

theorem formatPass_error {format rest : List UInt8}
    (parsed : parseDirective format = .ok (directive, rest))
    (known : conversionOf directive.type = some conversion)
    (notPrintable : ¬∀ num ∈ decimalArg args i directive conversion,
      DigitsFit num) :
    formatPass args ⟨0x25 :: format, i, fmt⟩ = .done (.error .outOfBuffer) := by
  have isConversion : ¬(0x25 : UInt8) ≠ 0x25 := fun different => different rfl
  have notZero : (0x25 : UInt8) ≠ 0 := by decide
  simp only [formatPass, if_neg notZero, if_neg isConversion, parsed, known,
    convert_eq_error notPrintable]

/-- The loop does what the pieces of the format ask for. -/
theorem run_formatPass {s : Cursor} {count : ℕ} (zero : 0 ∈ s.format)
    (enough : s.format.length ≤ count) :
    run (formatPass args) count s =
      some (rendered args (pieces count s.format) s.taken s.fmt.sink) := by
  induction count generalizing s with
  | zero =>
      rw [List.eq_nil_of_length_eq_zero (Nat.le_zero.mp enough)] at zero
      cases zero
  | succ count ih =>
      rcases s with ⟨_ | ⟨c, format⟩, taken, fmt⟩
      · cases zero
      have fewer : format.length ≤ count := Nat.le_of_succ_le_succ enough
      by_cases isEnd : c = 0
      · have pass : formatPass args ⟨c :: format, taken, fmt⟩ = .done (.ok (finish fmt)) :=
          if_pos isEnd
        simp only [run_done pass, pieces, if_pos isEnd, finish_eq]
        rfl
      have ahead := zero_mem_of_ne zero isEnd
      by_cases isChar : c ≠ 0x25
      · have pass : formatPass args ⟨c :: format, taken, fmt⟩ =
            .again ⟨format, taken, formatOutChar fmt c⟩ := by
          simp only [formatPass, if_neg isEnd, if_pos isChar]
        rw [run_again pass, ih ahead fewer]
        simp only [pieces, if_neg isEnd, if_pos isChar, rendered_char]
        rfl
      rcases parseDirective_spec ahead with ⟨directive, rest, parsed, shorter, zeroAhead⟩
      cases known : conversionOf directive.type with
      | none =>
          have pass : formatPass args ⟨c :: format, taken, fmt⟩ = .done (.ok ⟨fmt.sink, -1⟩) := by
            simp only [formatPass, if_neg isEnd, if_neg isChar, parsed, known]
          simp only [run_done pass, pieces, if_neg isEnd, if_neg isChar, parsed, known]
          rfl
      | some conversion =>
          have notZero : directive.type ≠ 0 := by
            intro isZero
            rw [isZero, conversionOf_zero] at known
            cases known
          simp only [pieces, if_neg isEnd, if_neg isChar, parsed, known]
          rw [Classical.not_not.mp isChar]
          by_cases printable : ∀ num ∈ decimalArg args taken directive conversion,
              DigitsFit num
          · rcases @formatPass_again args taken directive conversion fmt _ _ parsed known printable
              with ⟨fmt', pass, emitted⟩
            rw [run_again pass, ih (zeroAhead notZero) (Nat.le_trans (Nat.le_of_lt shorter) fewer),
              rendered_conversion printable]
            simp only [emitted]
          · rw [run_done (formatPass_error parsed known printable), rendered,
              if_neg (fun all => printable all.1)]

theorem vsnprintf_eq (contents : ℕ → UInt8) (str size : UInt32) (format : CString)
    (args : VaList) :
    vsnprintf contents str size format args =
      rendered args (pieces (format.chars.length + 1) (format.chars ++ [0])) 0
        (openBuffer contents str size) := by
  rw [vsnprintf, run_formatPass (by simp) (by simp)]

end Refinement

end Osserver
