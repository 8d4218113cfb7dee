import Osserver.Format.Scanning

/-!
# Matching numbers

A `%d` matches when there is a digit behind the optional minus, and it is a matching failure
when there is none. `vsscanf` completes it all the same, with the number 0. So it scans by
these rules exactly when no `%d` that it comes to lacks a digit.
-/

namespace Osserver

/-- There is a digit behind the optional minus. -/
def startsNumber (text : List UInt8) : Bool :=
  (behindMinus text).head?.any formatIsDigit

/-- Directives match one after another, each number with at least one digit. -/
inductive MatchesAll : List ScanDirective → List UInt8 → List Int32 → List UInt8 → Prop where
  | nil (text : List UInt8) : MatchesAll [] text [] text
  | cons {d : ScanDirective} {done : List ScanDirective} {text middle left : List UInt8}
      {now later : List Int32} (takes : Takes d text now middle)
      (digit : d = .number → startsNumber text = true)
      (rest : MatchesAll done middle later left) : MatchesAll (d :: done) text (now ++ later) left

/-- The first of the directives that are left does not match, or none is left. A number
without a digit is a matching failure. -/
inductive Fails : List ScanDirective → List UInt8 → ScanEnding → Prop where
  | stops {ahead : List ScanDirective} {text : List UInt8} {ending : ScanEnding}
      (stops : Stops ahead text ending) : Fails ahead text ending
  | noDigit (rest : List ScanDirective) (c : UInt8) (text : List UInt8)
      (none : startsNumber (c :: text) = false) : Fails (.number :: rest) (c :: text) .mismatch

/-- `vsscanf` has matched directives up to the first that does not match, has stored one number
for each `%d` among them and nothing else, and has returned accordingly. -/
def ScansMatches (str fmt : CString) (args : VaList) : Prop :=
  ∃ out done ahead values left ending,
    vsscanf str fmt args = .ok out ∧ scanDirectives fmt.chars = done ++ ahead ∧
    MatchesAll done str.chars values left ∧ Fails ahead left ending ∧
    values.length = done.count .number ∧ out.stores = storesOf args values ∧
    out.result.toInt = ending.result values.length

/-- Every number that a scan comes to, before the end of the text, has a digit. -/
def numbersHaveDigits : List ScanDirective → List UInt8 → Bool
  | [], _ => true
  | .space :: rest, text => numbersHaveDigits rest (text.dropWhile formatIsSpace)
  | .literal _ :: _, [] => true
  | .literal c :: rest, d :: text => if d = c then numbersHaveDigits rest text else true
  | .number :: _, [] => true
  | .number :: rest, c :: text =>
      startsNumber (c :: text) && numbersHaveDigits rest (behindNumber (c :: text))
  | .unsupported :: _, _ => true

section

variable {d : ScanDirective} {done ahead rest : List ScanDirective} {text left middle : List UInt8}
  {now values : List Int32} {ending : ScanEnding}

theorem numbersHaveDigits_takes (takes : Takes d text now middle) :
    numbersHaveDigits (d :: rest) text = true ↔
      (d = .number → startsNumber text = true) ∧ numbersHaveDigits rest middle = true := by
  cases takes with
  | space => simp [numbersHaveDigits]
  | literal c left => simp [numbersHaveDigits]
  | number c text => simp [numbersHaveDigits]

theorem numbersHaveDigits_stops (stops : Stops ahead text ending) :
    numbersHaveDigits ahead text = true := by
  cases stops with
  | formatEnd => rfl
  | mismatch rest text different => simp [numbersHaveDigits, different]
  | literalAtEnd => rfl
  | numberAtEnd => rfl
  | unsupported => rfl

theorem Takes.not_stops (takes : Takes d text now left) : ¬Stops (d :: rest) text ending := by
  intro stops
  cases takes with
  | space => cases stops
  | literal c =>
      cases stops with
      | mismatch rest text different => exact different rfl
  | number => cases stops

theorem Takes.unique {other : List Int32} (takes : Takes d text now left)
    (takesToo : Takes d text other middle) : other = now ∧ middle = left := by
  cases takes with
  | space =>
      cases takesToo
      exact ⟨rfl, rfl⟩
  | literal =>
      cases takesToo
      exact ⟨rfl, rfl⟩
  | number =>
      cases takesToo
      exact ⟨rfl, rfl⟩

/-- Where every number has a digit, what is completed matches. -/
theorem Completes.matchesAll (completes : Completes done text values left)
    (digits : numbersHaveDigits (done ++ ahead) text = true) : MatchesAll done text values left := by
  induction completes with
  | nil text => exact .nil text
  | @cons d done text middle left now later takes completes ih =>
      rw [List.cons_append, numbersHaveDigits_takes takes] at digits
      exact .cons takes digits.1 (ih digits.2)

/-- When a scan by the rules ends as `vsscanf` can end, every number had a digit. -/
theorem MatchesAll.everyDigit (matched : MatchesAll done text values left)
    (stops : Stops ahead left ending) : numbersHaveDigits (done ++ ahead) text = true := by
  induction matched with
  | nil text => exact numbersHaveDigits_stops stops
  | @cons d done text middle left now later takes digit rest ih =>
      rw [List.cons_append, numbersHaveDigits_takes takes]
      exact ⟨digit, ih stops⟩

/-- What is completed goes on behind a directive that takes something, where a scan by the
rules has ended. -/
theorem MatchesAll.length_lt {done' ahead' : List ScanDirective} {left' : List UInt8}
    {values' : List Int32} {n : Int32} (matched : MatchesAll done text values left)
    (takes : Takes .number left [n] middle)
    (completes : Completes done' text values' left') (stops : Stops ahead' left' ending)
    (same : done ++ .number :: rest = done' ++ ahead') : values.length < values'.length := by
  induction matched generalizing done' values' with
  | nil text =>
      rw [List.nil_append] at same
      cases completes with
      | nil text =>
          rw [List.nil_append] at same
          subst same
          exact absurd stops takes.not_stops
      | @cons d done' text middle left' now later takesToo completes =>
          rw [List.cons_append, List.cons.injEq] at same
          rcases same with ⟨rfl, _⟩
          rw [List.length_append, takesToo.length_eq]
          simp
  | @cons d done text middle left now later takesNow digit matched ih =>
      cases completes with
      | nil text =>
          rw [List.nil_append] at same
          subst same
          exact absurd stops takesNow.not_stops
      | @cons d' done' text middle' left' now' later' takesToo completes =>
          rw [List.cons_append, List.cons_append, List.cons.injEq] at same
          rcases same with ⟨rfl, same⟩
          rcases takesNow.unique takesToo with ⟨rfl, rfl⟩
          have shorter := ih takes completes same
          simp only [List.length_append]
          omega

end

theorem storesOf_length {args : VaList} {values others : List Int32}
    (same : storesOf args values = storesOf args others) : values.length = others.length := by
  have lengths := congrArg List.length same
  simpa [storesOf] using lengths

section

variable {str fmt : CString} {args : VaList}

/-- A number without a digit is completed by `vsscanf`, which then has stored more numbers than
the rules allow. -/
theorem ScansMatches.everyDigit (addressable : strlen fmt < 2 ^ 32)
    (scans : ScansMatches str fmt args) :
    numbersHaveDigits (scanDirectives fmt.chars) str.chars = true := by
  rcases scans with ⟨out, done, ahead, values, left, ending, returns, split, matched, fails, _,
    stores, _⟩
  cases fails with
  | stops stops =>
      rw [split]
      exact matched.everyDigit stops
  | noDigit rest c text none =>
      rcases vsscanf_inside str fmt args addressable with ⟨out', done', ahead', values', left',
        ending', returns', split', completes, stops, _, stores', _⟩
      rw [returns] at returns'
      cases returns'
      rw [split] at split'
      have more := matched.length_lt (.number c text) completes stops split'
      rw [stores] at stores'
      have same := storesOf_length stores'
      omega

theorem ScansMatches.of_everyDigit (addressable : strlen fmt < 2 ^ 32)
    (digits : numbersHaveDigits (scanDirectives fmt.chars) str.chars = true) :
    ScansMatches str fmt args := by
  rcases vsscanf_inside str fmt args addressable with ⟨out, done, ahead, values, left, ending,
    returns, split, completes, stops, counted, stores, result⟩
  rw [split] at digits
  exact ⟨out, done, ahead, values, left, ending, returns, split, completes.matchesAll digits,
    .stops stops, counted, stores, result⟩

end

/-- `vsscanf` scans by the rules exactly when every `%d` that the scan comes to, before the end
of the input, finds a digit behind the optional minus. -/
theorem vsscanf_matches_iff (str fmt : CString) (args : VaList) (addressable : strlen fmt < 2 ^ 32) :
    ScansMatches str fmt args ↔ numbersHaveDigits (scanDirectives fmt.chars) str.chars = true :=
  ⟨fun scans => scans.everyDigit addressable,
    fun digits => .of_everyDigit addressable digits⟩

/-- `-7` by `%d`. -/
theorem vsscanf_matches_iff_number :
    ScansMatches ⟨[0x2D, 0x37], by decide⟩ ⟨[0x25, 0x64], by decide⟩
      ⟨fun i => UInt32.ofNat (0x1000 + 4 * i), fun _ => ⟨[], by decide⟩⟩ :=
  (vsscanf_matches_iff ⟨[0x2D, 0x37], by decide⟩ ⟨[0x25, 0x64], by decide⟩ _ (by decide)).mpr
    (by decide)

/-- `ab` by `%d%d`: two zeros are stored and counted, and nothing has been read. -/
theorem vsscanf_no_digit :
    let str : CString := ⟨[0x61, 0x62], by decide⟩
    let fmt : CString := ⟨[0x25, 0x64, 0x25, 0x64], by decide⟩
    let args : VaList := ⟨fun i => UInt32.ofNat (0x1000 + 4 * i), fun _ => str⟩
    vsscanf str fmt args = .ok ⟨[(0x1000, 0), (0x1004, 0)], 2⟩ ∧ ¬ScansMatches str fmt args := by
  intro str fmt args
  refine ⟨by decide +kernel, ?_⟩
  intro scans
  have digits := scans.everyDigit (by decide)
  revert digits
  decide

end Osserver
