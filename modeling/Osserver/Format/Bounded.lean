import Osserver.Format.Rendering

/-!
# Bounded formatting is a first part of unbounded formatting

What `vsnprintf` puts out does not depend on the buffer, and the buffer holds the first part
of it that there is room for. That is so for a buffer that ends before the address space
does: `end` is computed as an address, and may wrap.
-/

namespace Osserver

section Rendered

variable {contents : ℕ → UInt8} {str size : UInt32} {format : CString} {args : VaList}
  {out : Formatted}

/-- The text of a format, up to its end or to a conversion that is not supported. -/
def formatText (format : CString) (args : VaList) : List UInt8 :=
  piecesText args (formatPieces format) 0

/-- The digits of every number that the format asks to put out in decimal fit into the buffer
of `format_out_dec`. -/
def DecimalsFit (format : CString) (args : VaList) : Prop :=
  Printable args (formatPieces format) 0

instance : Decidable (DecimalsFit format args) :=
  decidablePrintable args (formatPieces format) 0

instance : Decidable (Supported format) :=
  inferInstanceAs (Decidable (_ = true))

theorem vsnprintf_eq_error (tooMany : ¬DecimalsFit format args) :
    vsnprintf contents str size format args = .error .outOfBuffer := by
  rw [vsnprintf_eq]
  exact if_neg tooMany

/-- What the buffer holds before the text is closed. -/
def written (contents : ℕ → UInt8) (str size : UInt32) (format : CString) (args : VaList) :
    Sink UInt8 :=
  (openBuffer contents str size).putAll (formatText format args)

/-- How many characters there is room for. -/
def textRoom (str size : UInt32) : ℕ :=
  (fmtEnd str size).toNat - str.toNat

theorem written_holds :
    (written contents str size format args).Holds contents
      ((fmtEnd str size).toNat - str.toNat) (formatText format args) :=
  Sink.holds_putAll

theorem vsnprintf_eq_ok (fits : DecimalsFit format args) :
    vsnprintf contents str size format args =
      .ok (ending (Supported format) (written contents str size format args)) := by
  have complete : decide (Supported format) =
      (pieces (format.chars.length + 1) (format.chars ++ [0])).2 := Bool.decide_eq_true
  rw [vsnprintf_eq, complete]
  exact if_pos fits

theorem fits_of_eq_ok (returns : vsnprintf contents str size format args = .ok out) :
    DecimalsFit format args ∧
      out = ending (Supported format) (written contents str size format args) := by
  by_cases fits : DecimalsFit format args
  · rw [vsnprintf_eq_ok fits] at returns
    cases returns
    exact ⟨fits, rfl⟩
  · rw [vsnprintf_eq_error fits] at returns
    cases returns

theorem ending_passed (complete : Bool) :
    (ending complete (written contents str size format args)).sink.passed =
      formatText format args := by
  cases complete with
  | false => exact written_holds.passed_eq
  | true =>
      change ((written contents str size format args).close 0).passed = _
      rw [Sink.close_passed]
      exact written_holds.passed_eq

theorem written_position : (written contents str size format args).position =
    min (textRoom str size) (formatText format args).length := by
  rw [written_holds.position_eq, textRoom, Nat.min_comm]
  congr 1
  omega

theorem ending_result : (ending true (written contents str size format args)).result =
    Int32.ofNat (min (textRoom str size) (formatText format args).length) := by
  rw [← @written_position contents]
  rfl

/-- The first bytes of the buffer. -/
def Formatted.firstBytes (out : Formatted) (count : ℕ) : List UInt8 :=
  (List.range count).map out.sink.contents

end Rendered

section Places

variable {contents : ℕ → UInt8} {str size : UInt32} {format : CString} {args : VaList}

theorem written_closeStop : (written contents str size format args).closeStop =
    (fmtEnd str size + 1).toNat - str.toNat :=
  Sink.putAll_closeStop

theorem fmtEnd_succ_toNat (str size : UInt32) :
    (fmtEnd str size + 1).toNat = (str.toNat + size.toNat) % 2 ^ 32 := by
  rw [fmtEnd, UInt32.sub_add_cancel, UInt32.toNat_add]

theorem fmtEnd_toNat (str size : UInt32) :
    (fmtEnd str size).toNat = (str.toNat + size.toNat + (2 ^ 32 - 1)) % 2 ^ 32 := by
  have one : (1 : UInt32).toNat = 1 := rfl
  rw [fmtEnd, UInt32.toNat_sub, UInt32.toNat_add, one]
  omega

/-- A buffer that ends before the address space does. -/
theorem textRoom_of_inside (positive : 1 ≤ size.toNat)
    (inside : str.toNat + size.toNat ≤ 2 ^ 32) : textRoom str size = size.toNat - 1 := by
  have strBound := str.toNat_lt
  rw [textRoom, fmtEnd_toNat]
  omega

theorem textRoom_of_outside (outside : 2 ^ 32 < str.toNat + size.toNat) :
    textRoom str size = 0 := by
  have strBound := str.toNat_lt
  have sizeBound := size.toNat_lt
  rw [textRoom, fmtEnd_toNat]
  omega

/-- Nothing is stored outside the buffer, except for a buffer without bytes at the address 0. -/
theorem ending_stored (complete : Bool) (someByte : ¬(size.toNat = 0 ∧ str.toNat = 0)) :
    ∀ i ∈ (ending complete (written contents str size format args)).sink.stored,
      i < size.toNat := by
  have holds := @written_holds contents str size format args
  have closeStop := @written_closeStop contents str size format args
  have strBound := str.toNat_lt
  have sizeBound := size.toNat_lt
  rw [fmtEnd_toNat] at holds
  rw [fmtEnd_succ_toNat] at closeStop
  intro i isStored
  cases complete with
  | false =>
      have before := holds.stored_lt i isStored
      omega
  | true =>
      have before := holds.close_stored_lt i isStored
      rw [closeStop] at before
      omega

theorem ending_stored_zero (complete : Bool) (noBytes : size.toNat = 0) (zero : str.toNat = 0) :
    (ending complete (written contents str size format args)).sink.stored =
      List.range (min (formatText format args).length (2 ^ 32 - 1)) := by
  have holds := @written_holds contents str size format args
  have stored := holds.stored_eq
  have last : ((fmtEnd str size).toNat - str.toNat : ℤ).toNat = 2 ^ 32 - 1 := by
    rw [fmtEnd_toNat]
    omega
  rw [last] at stored
  cases complete with
  | false => exact stored
  | true =>
      have noPlace : (written contents str size format args).closeStop ≤
          (written contents str size format args).position := by
        rw [written_closeStop, fmtEnd_succ_toNat]
        omega
      change ((written contents str size format args).close 0).stored = _
      rw [Sink.close_of_le noPlace]
      exact stored

/-- A closed buffer holds the first part of the text and a zero behind it. -/
theorem ending_firstBytes (positive : 1 ≤ size.toNat)
    (inside : str.toNat + size.toNat < 2 ^ 32) :
    (ending true (written contents str size format args)).firstBytes
        (min (size.toNat - 1) (formatText format args).length) =
      (formatText format args).take (min (size.toNat - 1) (formatText format args).length) ∧
    (ending true (written contents str size format args)).sink.contents
      (min (size.toNat - 1) (formatText format args).length) = 0 := by
  have holds := @written_holds contents str size format args
  have position := @written_position contents str size format args
  rw [textRoom_of_inside positive (Nat.le_of_lt inside)] at position
  have place : ((written contents str size format args).position : ℤ) <
      (written contents str size format args).closeStop := by
    rw [position, written_closeStop, fmtEnd_succ_toNat, Nat.mod_eq_of_lt inside]
    omega
  rcases holds.close place with ⟨closed, front⟩
  rw [position] at closed front
  refine ⟨List.ext_getElem? fun i => ?_, closed⟩
  rw [Formatted.firstBytes, List.getElem?_map, List.getElem?_take]
  by_cases before : i < min (size.toNat - 1) (formatText format args).length
  · rw [if_pos before, List.getElem?_range before, Option.map_some]
    exact front i before
  · have behind :
        (List.range (min (size.toNat - 1) (formatText format args).length)).length ≤ i := by
      rw [List.length_range]
      exact Nat.le_of_not_lt before
    rw [if_neg before, List.getElem?_eq_none behind, Option.map_none]

/-- A buffer that ends with the address space, or behind it, is not closed. -/
theorem written_not_closed (outside : 2 ^ 32 ≤ str.toNat + size.toNat) :
    ending true (written contents str size format args) =
      ⟨written contents str size format args,
        Int32.ofNat (written contents str size format args).position⟩ := by
  have strBound := str.toNat_lt
  have sizeBound := size.toNat_lt
  have noPlace : (written contents str size format args).closeStop ≤
      (written contents str size format args).position := by
    rw [written_closeStop, fmtEnd_succ_toNat]
    omega
  rw [ending, if_pos rfl, Sink.close_of_le noPlace]

end Places

/-- A buffer of the given size holds the first part of the text that fits, and a zero. -/
structure Truncated (text : List UInt8) (size : UInt32) (out : Formatted) : Prop where
  front : out.firstBytes (min (size.toNat - 1) text.length) =
    text.take (min (size.toNat - 1) text.length)
  closed : out.sink.contents (min (size.toNat - 1) text.length) = 0
  result : out.result.toInt = (min (size.toNat - 1) text.length : ℕ)

/-- What is put out is one text for all buffers; nothing is stored outside the buffer; and when
the format is supported, the buffer holds the first part of the text, which is a first part of
what a larger buffer inside the address space holds. -/
def Bounded (format : CString) (args : VaList) (str size : UInt32) : Prop :=
  ∃ text : List UInt8,
    (∀ contents str' size', ∃ out, vsnprintf contents str' size' format args = .ok out ∧
      out.sink.passed = text) ∧
    ∀ contents out, vsnprintf contents str size format args = .ok out →
      (∀ i ∈ out.sink.stored, i < size.toNat) ∧
      (1 ≤ size.toNat → Supported format →
        Truncated text size out ∧
        ∀ str' size', size ≤ size' → str'.toNat + size'.toNat < 2 ^ 32 → ∀ contents' out',
          vsnprintf contents' str' size' format args = .ok out' →
          out.firstBytes (min (size.toNat - 1) text.length) <+:
            out'.firstBytes (min (size'.toNat - 1) text.length))

theorem toInt_ofNat_eq_iff {n : ℕ} (small : n < 2 ^ 32) :
    (Int32.ofNat n).toInt = n ↔ n < 2 ^ 31 := by
  constructor
  · intro same
    have bound := (Int32.ofNat n).toInt_lt
    omega
  · exact Int32.toInt_ofNat_of_lt

section Truncated

variable {contents : ℕ → UInt8} {str size : UInt32} {format : CString} {args : VaList}

theorem truncated_of_inside (positive : 1 ≤ size.toNat)
    (inside : str.toNat + size.toNat < 2 ^ 32)
    (counted : min (size.toNat - 1) (formatText format args).length < 2 ^ 31) :
    Truncated (formatText format args) size
      (ending true (written contents str size format args)) := by
  have sizeBound := size.toNat_lt
  rcases @ending_firstBytes contents str size format args positive inside with ⟨front, closed⟩
  refine ⟨front, closed, ?_⟩
  rw [ending_result, textRoom_of_inside positive (Nat.le_of_lt inside)]
  exact (toInt_ofNat_eq_iff (by omega)).mpr counted

/-- With a byte in it that is no zero, a buffer that is not closed shows it. -/
theorem inside_of_truncated (positive : 1 ≤ size.toNat)
    (truncated : Truncated (formatText format args) size
      (ending true (written (fun _ => 1) str size format args))) :
    str.toNat + size.toNat < 2 ^ 32 ∧
      min (size.toNat - 1) (formatText format args).length < 2 ^ 31 := by
  have sizeBound := size.toNat_lt
  have inside : str.toNat + size.toNat < 2 ^ 32 := by
    by_contra outside
    have closed := truncated.closed
    have position := @written_position (fun _ => 1) str size format args
    rw [written_not_closed (Nat.le_of_not_lt outside)] at closed
    have behind : (written (fun _ => 1) str size format args).position ≤
        min (size.toNat - 1) (formatText format args).length := by
      rw [position]
      by_cases last : str.toNat + size.toNat ≤ 2 ^ 32
      · rw [textRoom_of_inside positive last]
      · rw [textRoom_of_outside (by omega), Nat.zero_min]
        exact Nat.zero_le _
    have old := (@written_holds (fun _ => 1) str size format args).rest _ behind
    rw [closed] at old
    revert old
    decide
  refine ⟨inside, ?_⟩
  have result := truncated.result
  rw [ending_result, textRoom_of_inside positive (Nat.le_of_lt inside)] at result
  exact (toInt_ofNat_eq_iff (by omega)).mp result

end Truncated

/-- `vsnprintf` bounds its output just when the digits of its numbers fit, a buffer without
bytes is not at the address 0, or there is no text, and a buffer for a supported format ends
before the address space, and what is in it can be counted by an `int`. -/
theorem vsnprintf_bounded (format : CString) (args : VaList) (str size : UInt32) :
    Bounded format args str size ↔
      DecimalsFit format args ∧
        (size.toNat = 0 → str.toNat = 0 → formatText format args = []) ∧
        (1 ≤ size.toNat → Supported format →
          str.toNat + size.toNat < 2 ^ 32 ∧
            min (size.toNat - 1) (formatText format args).length < 2 ^ 31) := by
  constructor
  · rintro ⟨text, returns, bounded⟩
    rcases returns (fun _ => 1) str size with ⟨out, isOut, passed⟩
    rcases fits_of_eq_ok isOut with ⟨fits, isEnding⟩
    rw [isEnding, ending_passed] at passed
    subst passed
    rcases bounded _ out isOut with ⟨stored, truncated⟩
    refine ⟨fits, ?_, ?_⟩
    · intro noBytes zero
      rw [isEnding, ending_stored_zero _ noBytes zero, noBytes] at stored
      by_contra someText
      have first := List.length_pos_of_ne_nil someText
      exact Nat.not_lt_zero 0 (stored 0 (List.mem_range.mpr (by omega)))
    · intro positive supported
      rw [isEnding, decide_eq_true supported] at truncated
      exact inside_of_truncated positive (truncated positive supported).1
  · rintro ⟨fits, noText, inside⟩
    refine ⟨formatText format args, ?_, ?_⟩
    · intro contents str' size'
      exact ⟨_, vsnprintf_eq_ok fits, ending_passed _⟩
    · intro contents out isOut
      rcases fits_of_eq_ok isOut with ⟨-, rfl⟩
      constructor
      · by_cases nothing : size.toNat = 0 ∧ str.toNat = 0
        · rw [ending_stored_zero _ nothing.1 nothing.2, noText nothing.1 nothing.2]
          intro i isStored
          cases isStored
        · exact ending_stored _ nothing
      · intro positive supported
        rcases inside positive supported with ⟨ends, counted⟩
        rw [decide_eq_true supported]
        refine ⟨truncated_of_inside positive ends counted, ?_⟩
        intro str' size' larger ends' contents' out' isOut'
        rcases fits_of_eq_ok isOut' with ⟨-, rfl⟩
        rw [UInt32.le_iff_toNat_le] at larger
        rw [decide_eq_true supported,
          (@ending_firstBytes contents str size format args positive ends).1,
          (@ending_firstBytes contents' str' size' format args (by omega) ends').1]
        exact List.take_prefix_take_left (by omega)

/-- `vsnprintf(NULL, 0, "a")` stores at the address 0. -/
theorem vsnprintf_not_bounded :
    ¬Bounded ⟨[0x61], by decide⟩ ⟨fun _ => 0, fun _ => nullString⟩ 0 0 := by
  rintro ⟨text, -, bounded⟩
  have fits : DecimalsFit ⟨[0x61], by decide⟩ ⟨fun _ => 0, fun _ => nullString⟩ := by decide
  have stored := (bounded (fun _ => 0) _ (vsnprintf_eq_ok fits)).1
  rw [ending_stored_zero _ rfl rfl] at stored
  exact Nat.not_lt_zero 0 (stored 0 (by decide))

end Osserver
