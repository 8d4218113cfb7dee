import Osserver.Format.Vsscanf

/-!
# Scanning by a format

A format is read as a list of directives. They are completed one after another, each with
what it takes from the front of the text, up to the end of the format or to one that stops
the scan. `vsscanf` returns from every scan, with a store for each number that it took.
-/

namespace Osserver

open Loop

inductive ScanDirective where
  | space
  | literal (c : UInt8)
  | number
  | unsupported
  deriving DecidableEq

def scanConversion (type : UInt8) : ScanDirective :=
  if type = 0x25 then .literal type else if type = 0x64 then .number else .unsupported

/-- The directives of a format. No conversion is behind a `%` at its end. -/
def scanDirectives : List UInt8 → List ScanDirective
  | [] => []
  | c :: format =>
      if formatIsSpace c then .space :: scanDirectives format
      else if c ≠ 0x25 then .literal c :: scanDirectives format
      else
        match format with
        | [] => [.unsupported]
        | type :: format => scanConversion type :: scanDirectives format

/-- A directive is completed: what it takes is read from the front of a text, as the numbers
that it stores, and the rest is left. -/
inductive Takes : ScanDirective → List UInt8 → List Int32 → List UInt8 → Prop where
  | space (text : List UInt8) : Takes .space text [] (text.dropWhile formatIsSpace)
  | literal (c : UInt8) (left : List UInt8) : Takes (.literal c) (c :: left) [] left
  | number (c : UInt8) (text : List UInt8) :
      Takes .number (c :: text) [numberOf (c :: text)] (behindNumber (c :: text))

/-- Directives are completed one after another. -/
inductive Completes : List ScanDirective → List UInt8 → List Int32 → List UInt8 → Prop where
  | nil (text : List UInt8) : Completes [] text [] text
  | cons {d : ScanDirective} {done : List ScanDirective} {text middle left : List UInt8}
      {now later : List Int32} (takes : Takes d text now middle)
      (completes : Completes done middle later left) :
      Completes (d :: done) text (now ++ later) left

inductive ScanEnding where
  | formatEnd
  | mismatch
  | inputEnd
  | unsupported
  deriving DecidableEq

/-- The first of the directives that are left is not completed, or none is left. -/
inductive Stops : List ScanDirective → List UInt8 → ScanEnding → Prop where
  | formatEnd (text : List UInt8) : Stops [] text .formatEnd
  | mismatch {c d : UInt8} (rest : List ScanDirective) (text : List UInt8) (different : d ≠ c) :
      Stops (.literal c :: rest) (d :: text) .mismatch
  | literalAtEnd (c : UInt8) (rest : List ScanDirective) : Stops (.literal c :: rest) [] .inputEnd
  | numberAtEnd (rest : List ScanDirective) : Stops (.number :: rest) [] .inputEnd
  | unsupported (rest : List ScanDirective) (text : List UInt8) :
      Stops (.unsupported :: rest) text .unsupported

/-- What is returned when that many numbers have been stored. -/
def ScanEnding.result (count : ℕ) : ScanEnding → ℤ
  | .formatEnd | .mismatch => count
  | .inputEnd => if count = 0 then -1 else count
  | .unsupported => -1

/-- The numbers are stored through the arguments in their order. -/
def storesOf (args : VaList) (values : List Int32) : List (UInt32 × Int32) :=
  values.mapIdx fun k n => (args.word k, n)

section Directives

variable {d : ScanDirective} {done rest : List ScanDirective} {format text left : List UInt8}
  {now values : List Int32} {ending : ScanEnding}

theorem takes_or_stops (d : ScanDirective) (rest : List ScanDirective) (text : List UInt8) :
    (∃ now left, Takes d text now left) ∨ ∃ ending, Stops (d :: rest) text ending := by
  cases d with
  | space => exact Or.inl ⟨_, _, .space text⟩
  | literal c =>
      rcases text with _ | ⟨d, text⟩
      · exact Or.inr ⟨_, .literalAtEnd c rest⟩
      · by_cases same : d = c
        · subst same
          exact Or.inl ⟨_, _, .literal d text⟩
        · exact Or.inr ⟨_, .mismatch rest text same⟩
  | number =>
      rcases text with _ | ⟨c, text⟩
      · exact Or.inr ⟨_, .numberAtEnd rest⟩
      · exact Or.inl ⟨_, _, .number c text⟩
  | unsupported => exact Or.inr ⟨_, .unsupported rest text⟩

/-- A number is stored for each `%d`, and for nothing else. -/
theorem Takes.length_eq (takes : Takes d text now left) : now.length = [d].count .number := by
  cases takes with
  | space => rfl
  | literal => rfl
  | number => rfl

theorem Completes.length_eq (completes : Completes done text values left) :
    values.length = done.count .number := by
  induction completes with
  | nil => rfl
  | @cons d done text middle left now later takes completes ih =>
      rw [List.length_append, takes.length_eq, ih, ← List.count_append, List.singleton_append]

theorem length_scanDirectives_le (format : List UInt8) :
    (scanDirectives format).length ≤ format.length := by
  fun_induction scanDirectives format with
  | case1 => exact Nat.le_refl 0
  | case2 c format space ih => exact Nat.succ_le_succ ih
  | case3 c format noSpace literal ih => exact Nat.succ_le_succ ih
  | case4 => exact Nat.le_refl 1
  | case5 c noSpace conversion type format ih =>
      simp only [List.length_cons]
      omega

theorem scanDirectives_cons_ne_nil (c : UInt8) (format : List UInt8) :
    scanDirectives (c :: format) ≠ [] := by
  rw [scanDirectives.eq_def]
  simp only
  split
  · exact List.cons_ne_nil _ _
  · split
    · exact List.cons_ne_nil _ _
    · cases format with
      | nil => exact List.cons_ne_nil _ _
      | cons type format => exact List.cons_ne_nil _ _

theorem eq_nil_of_scanDirectives (none : scanDirectives format = []) : format = [] := by
  cases format with
  | nil => rfl
  | cons c format => exact absurd none (scanDirectives_cons_ne_nil c format)

/-- A `%d` is two characters. -/
theorem count_scanDirectives_le (format : List UInt8) :
    2 * (scanDirectives format).count .number ≤ format.length := by
  fun_induction scanDirectives format with
  | case1 => exact Nat.le_refl 0
  | case2 c format space ih =>
      rw [List.count_cons_of_ne (by simp), List.length_cons]
      omega
  | case3 c format noSpace literal ih =>
      rw [List.count_cons_of_ne (by simp), List.length_cons]
      omega
  | case4 => exact Nat.zero_le _
  | case5 c noSpace conversion type format ih =>
      have atMost := @List.count_le_length _ _ ScanDirective.number [scanConversion type]
      rw [← List.singleton_append, List.count_append]
      simp only [List.length_cons, List.length_nil] at atMost ⊢
      omega

theorem storesOf_concat (args : VaList) (n : Int32) :
    storesOf args (values ++ [n]) = storesOf args values ++ [(args.word values.length, n)] := by
  rw [storesOf, List.mapIdx_concat]
  rfl

end Directives

section Passes

variable {str : CString} {args : VaList} {d : ScanDirective} {rest : List ScanDirective}
  {chars text left : List UInt8} {now values : List Int32} {ending : ScanEnding} {s : ScanState}

/-- What a pass does for a directive, with the format behind it. -/
def directivePass (str : CString) (args : VaList) (format : List UInt8) (s : ScanState) :
    ScanDirective → Pass ScanState (Except Fault Scanned)
  | .space =>
      match skipInputSpaces str s.position with
      | .error fault => .done (.error fault)
      | .ok position => .again { s with format := format, position := position }
  | .literal c => matchLiteral str c format s
  | .number => scanNumber str args format s
  | .unsupported => .done (.ok ⟨s.stores, -1⟩)

/-- A pass reads one directive of the format, and never steps behind its zero to read on. -/
theorem scanPass_eq (noZero : 0 ∉ chars) (directives : scanDirectives chars = d :: rest)
    (isFormat : s.format = chars ++ [0]) :
    ∃ behind, 0 ∉ behind ∧ scanDirectives behind = rest ∧
      scanPass str args s = directivePass str args (behind ++ [0]) s d := by
  rcases chars with _ | ⟨c, chars⟩
  · cases directives
  rcases List.ne_and_not_mem_of_not_mem_cons noZero with ⟨notZero, noneBehind⟩
  rw [scanDirectives.eq_def] at directives
  rw [scanPass, isFormat, List.cons_append]
  simp only [if_neg notZero.symm] at directives ⊢
  by_cases space : formatIsSpace c = true
  · rw [if_pos space] at directives ⊢
    cases directives
    exact ⟨chars, noneBehind, rfl, rfl⟩
  rw [if_neg space] at directives ⊢
  by_cases literal : c ≠ 0x25
  · rw [if_pos literal] at directives ⊢
    cases directives
    exact ⟨chars, noneBehind, rfl, rfl⟩
  rw [if_neg literal] at directives ⊢
  rcases chars with _ | ⟨type, chars⟩
  · cases directives
    exact ⟨[], noneBehind, rfl, rfl⟩
  cases directives
  refine ⟨chars, (List.ne_and_not_mem_of_not_mem_cons noneBehind).2, rfl, ?_⟩
  simp only [List.cons_append, scanConversion]
  split
  · rfl
  · split
    · rfl
    · rfl

/-- What `vsscanf` is at: directives and a text are left, and values have been stored. -/
structure ScanState.At (str : CString) (args : VaList) (rest : List ScanDirective)
    (text : List UInt8) (values : List Int32) (s : ScanState) : Prop where
  format : ∃ chars, 0 ∉ chars ∧ s.format = chars ++ [0] ∧ scanDirectives chars = rest
  here : LeftAt str s.position text
  taken : s.taken = values.length
  count : s.count = Int32.ofNat values.length
  stores : s.stores = storesOf args values

theorem scanPass_again (reached : s.At str args (d :: rest) text values)
    (takes : Takes d text now left) :
    ∃ s', scanPass str args s = .again s' ∧ s'.At str args rest left (values ++ now) := by
  rcases reached.format with ⟨chars, noZero, isFormat, directives⟩
  rcases @scanPass_eq str args d rest chars s noZero directives isFormat with
    ⟨behind, noneBehind, restDirectives, pass⟩
  rw [pass]
  have format : ∃ chars, 0 ∉ chars ∧ behind ++ [0] = chars ++ [0] ∧ scanDirectives chars = rest :=
    ⟨behind, noneBehind, rfl, restDirectives⟩
  cases takes with
  | space =>
      rcases skipInputSpaces_eq reached.here with ⟨position, skipped, here⟩
      simp only [directivePass, skipped, List.append_nil]
      exact ⟨_, rfl, format, here, reached.taken, reached.count, reached.stores⟩
  | literal c =>
      have read : readChar str s.position = .ok c := reached.here.readChar_eq
      simp only [directivePass, matchLiteral, read, if_neg reached.here.ne_zero, ne_eq,
        not_true_eq_false, if_false, List.append_nil]
      exact ⟨_, rfl, format, reached.here.next, reached.taken, reached.count, reached.stores⟩
  | number c =>
      rcases readNumber_cons reached.here with ⟨position, read, here⟩
      simp only [directivePass, scanNumber, read]
      refine ⟨_, rfl, format, here, ?_, ?_, ?_⟩
      · rw [List.length_append, reached.taken]
        rfl
      · rw [List.length_append, Int32.ofNat_add, reached.count]
        rfl
      · rw [storesOf_concat, reached.stores, reached.taken]

theorem matchFailure_result (reached : s.At str args rest text values)
    (room : values.length < 2 ^ 31) :
    (matchFailure s).result.toInt = values.length := by
  rw [matchFailure, reached.count, Int32.toInt_ofNat_of_lt room]

theorem endOfInput_result (reached : s.At str args rest text values)
    (room : values.length < 2 ^ 31) :
    (endOfInput s).result.toInt = ScanEnding.inputEnd.result values.length := by
  have count := Int32.toInt_ofNat_of_lt room
  rw [endOfInput, ScanEnding.result, reached.count]
  by_cases none : values.length = 0
  · rw [none]
    rfl
  · have some : Int32.ofNat values.length ≠ 0 := by
      intro isZero
      rw [isZero] at count
      exact none (Int.ofNat_inj.mp count.symm)
    rw [if_pos some, if_neg none, count]

theorem scanPass_done (reached : s.At str args rest text values) (stops : Stops rest text ending)
    (room : values.length < 2 ^ 31) :
    ∃ out, scanPass str args s = .done (.ok out) ∧ out.stores = storesOf args values ∧
      out.result.toInt = ending.result values.length := by
  rcases reached.format with ⟨chars, noZero, isFormat, directives⟩
  rcases rest with _ | ⟨d, rest⟩
  · cases stops
    refine ⟨matchFailure s, ?_, reached.stores, matchFailure_result reached room⟩
    rw [scanPass, isFormat, eq_nil_of_scanDirectives directives]
    rfl
  · rcases @scanPass_eq str args d rest chars s noZero directives isFormat with
      ⟨behind, -, -, pass⟩
    rw [pass]
    cases stops with
    | mismatch rest text different =>
        have read : readChar str s.position = .ok _ := reached.here.readChar_eq
        refine ⟨matchFailure s, ?_, reached.stores, matchFailure_result reached room⟩
        simp [directivePass, matchLiteral, read, reached.here.ne_zero, different]
    | literalAtEnd c =>
        have read : readChar str s.position = .ok 0 := reached.here.readChar_eq
        refine ⟨endOfInput s, ?_, reached.stores, endOfInput_result reached room⟩
        simp [directivePass, matchLiteral, read]
    | numberAtEnd =>
        refine ⟨endOfInput s, ?_, reached.stores, endOfInput_result reached room⟩
        simp [directivePass, scanNumber, readNumber_nil reached.here]
    | unsupported => exact ⟨_, rfl, reached.stores, rfl⟩

/-- The directives are completed one after another, each by one pass, until one stops the
loop. -/
theorem run_scanPass {fuel : ℕ} (reached : s.At str args rest text values)
    (room : values.length + rest.count .number < 2 ^ 31) (enough : rest.length < fuel) :
    ∃ out done ahead later left ending,
      run (scanPass str args) fuel s = some (.ok out) ∧ rest = done ++ ahead ∧
      Completes done text later left ∧ Stops ahead left ending ∧
      out.stores = storesOf args (values ++ later) ∧
      out.result.toInt = ending.result (values ++ later).length := by
  induction rest generalizing s text values fuel with
  | nil =>
      rcases fuel with _ | fuel
      · omega
      have room : values.length < 2 ^ 31 := by omega
      rcases scanPass_done reached (.formatEnd text) room with ⟨out, pass, stores, result⟩
      refine ⟨out, [], [], [], text, .formatEnd, run_done pass, rfl, .nil text, .formatEnd text, ?_⟩
      rw [List.append_nil]
      exact ⟨stores, result⟩
  | cons d rest ih =>
      rcases fuel with _ | fuel
      · omega
      rcases takes_or_stops d rest text with ⟨now, middle, takes⟩ | ⟨ending, stops⟩
      · rcases scanPass_again reached takes with ⟨s', pass, next⟩
        have length := takes.length_eq
        rw [← List.singleton_append, List.count_append] at room
        rw [List.length_cons] at enough
        rcases ih next (by rw [List.length_append]; omega) (Nat.lt_of_succ_lt_succ enough) with
          ⟨out, done, ahead, later, left, ending, ends, split, completes, stops, stores, result⟩
        refine ⟨out, d :: done, ahead, now ++ later, left, ending, (run_again pass).trans ends, ?_,
          .cons takes completes, stops, ?_⟩
        · rw [split, List.cons_append]
        · rw [← List.append_assoc]
          exact ⟨stores, result⟩
      · have room : values.length < 2 ^ 31 := by omega
        rcases scanPass_done reached stops room with ⟨out, pass, stores, result⟩
        refine ⟨out, [], d :: rest, [], text, ending, run_done pass, rfl, .nil text, stops, ?_⟩
        rw [List.append_nil]
        exact ⟨stores, result⟩

theorem at_start (str fmt : CString) (args : VaList) :
    (ScanState.mk (fmt.chars ++ [0]) 0 0 0 []).At str args (scanDirectives fmt.chars)
      str.chars [] :=
  ⟨⟨fmt.chars, fmt.noZero, rfl, rfl⟩, leftAt_start str, rfl, rfl, rfl⟩

end Passes

/-- `vsscanf` returns from every input and every format that an address space of 32 bits
holds, and reads neither behind its zero. It stores the numbers that it takes, one for each
`%d` that is completed, through one argument after another. -/
theorem vsscanf_inside (str fmt : CString) (args : VaList) (addressable : strlen fmt < 2 ^ 32) :
    ∃ out done ahead values left ending,
      vsscanf str fmt args = .ok out ∧ scanDirectives fmt.chars = done ++ ahead ∧
      Completes done str.chars values left ∧ Stops ahead left ending ∧
      values.length = done.count .number ∧ out.stores = storesOf args values ∧
      out.result.toInt = ending.result values.length := by
  have enough : (scanDirectives fmt.chars).length < strlen fmt + 1 :=
    Nat.lt_succ_of_le (length_scanDirectives_le fmt.chars)
  have few := count_scanDirectives_le fmt.chars
  have room : ([] : List Int32).length + (scanDirectives fmt.chars).count .number < 2 ^ 31 := by
    rw [List.length_nil]
    rw [strlen] at addressable
    omega
  rcases run_scanPass (at_start str fmt args) room enough with
    ⟨out, done, ahead, values, left, ending, ends, split, completes, stops, stores, result⟩
  refine ⟨out, done, ahead, values, left, ending, ?_, split, completes, stops,
    completes.length_eq, stores, result⟩
  rw [vsscanf, ends, inputLoop]

/-- `12 -3` by `%d %d%%` ends at the end of the input. -/
theorem vsscanf_inside_two_numbers :
    let str : CString := ⟨[0x31, 0x32, 0x20, 0x2D, 0x33], by decide⟩
    let fmt : CString := ⟨[0x25, 0x64, 0x20, 0x25, 0x64, 0x25, 0x25], by decide⟩
    let args : VaList := ⟨fun i => UInt32.ofNat (0x1000 + 4 * i), fun _ => str⟩
    vsscanf str fmt args = .ok ⟨[(0x1000, 12), (0x1004, -3)], 2⟩ ∧
      ∃ out done ahead values left ending,
        vsscanf str fmt args = .ok out ∧ scanDirectives fmt.chars = done ++ ahead ∧
        Completes done str.chars values left ∧ Stops ahead left ending ∧
        values.length = done.count .number ∧ out.stores = storesOf args values ∧
        out.result.toInt = ending.result values.length := by
  intro str fmt args
  have short : strlen fmt < 2 ^ 32 := by decide
  exact ⟨by decide +kernel, vsscanf_inside str fmt args short⟩

end Osserver
