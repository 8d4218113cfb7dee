import Mathlib.Data.Nat.Digits.Lemmas

/-!
# Numerals

The numeral of a number to a base, with the highest digit first, and the value of a list of
digits. A numeral has no leading zeros, so it is the shortest one with its value.
-/

namespace Numeral

universe u

variable {Char : Type u} {base n count : ℕ} {char : ℕ → Char} {digit : Char → ℕ}
  {text : List Char} {c : Char}

def numeral (base : ℕ) (char : ℕ → Char) (n : ℕ) : List Char :=
  if n = 0 then [char 0] else ((Nat.digits base n).map char).reverse

/-- The value of digits, the highest one first. -/
def value (base : ℕ) (digit : Char → ℕ) (text : List Char) : ℕ :=
  Nat.ofDigits base (text.map digit).reverse

theorem value_concat : value base digit (text ++ [c]) = value base digit text * base + digit c := by
  rw [value, value, List.map_append, List.reverse_append]
  simp [Nat.ofDigits_cons, Nat.mul_comm, Nat.add_comm]

theorem value_le_append {more : List Char} (positive : 0 < base) :
    value base digit text ≤ value base digit (text ++ more) := by
  induction more using List.reverseRecOn with
  | nil => rw [List.append_nil]
  | append_singleton more c ih =>
      rw [← List.append_assoc, value_concat]
      exact Nat.le_add_right_of_le (Nat.le_trans ih (Nat.le_mul_of_pos_right _ positive))

theorem numeral_of_lt (single : n < base) : numeral base char n = [char n] := by
  rw [numeral]
  by_cases isZero : n = 0
  · rw [if_pos isZero, isZero]
  · rw [if_neg isZero, Nat.digits_of_lt base n isZero single]
    rfl

theorem numeral_of_le (large : 1 < base) (more : base ≤ n) :
    numeral base char n = numeral base char (n / base) ++ [char (n % base)] := by
  have rest : n / base ≠ 0 := Nat.ne_of_gt (Nat.div_pos more (by omega))
  rw [numeral, if_neg (by omega), numeral, if_neg rest, Nat.digits_def' large (by omega),
    List.map_cons, List.reverse_cons]

/-- The recursion of a numeral: from all digits but the last to all. -/
theorem numeral_induction {motive : ℕ → Prop} (large : 1 < base)
    (single : ∀ n < base, motive n) (more : ∀ n, base ≤ n → motive (n / base) → motive n) :
    motive n := by
  induction n using Nat.strong_induction_on with
  | _ n ih =>
      by_cases isSingle : n < base
      · exact single n isSingle
      · exact more n (by omega) (ih _ (Nat.div_lt_self (by omega) large))

theorem value_numeral (large : 1 < base) (inverse : ∀ d < base, digit (char d) = d) :
    value base digit (numeral base char n) = n := by
  induction n using numeral_induction large with
  | single n single =>
      rw [numeral_of_lt single, value, List.map_singleton, List.reverse_singleton,
        Nat.ofDigits_singleton, inverse n single]
  | more n more ih =>
      rw [numeral_of_le large more, value_concat, ih, inverse _ (Nat.mod_lt _ (by omega)),
        Nat.div_add_mod']

theorem exists_of_mem_numeral (large : 1 < base) (isChar : c ∈ numeral base char n) :
    ∃ d < base, char d = c := by
  induction n using numeral_induction large with
  | single n single =>
      rw [numeral_of_lt single, List.mem_singleton] at isChar
      exact ⟨n, single, isChar.symm⟩
  | more n more ih =>
      rw [numeral_of_le large more] at isChar
      rcases List.mem_append.mp isChar with before | last
      · exact ih before
      · rw [List.mem_singleton] at last
        exact ⟨n % base, Nat.mod_lt _ (by omega), last.symm⟩

/-- A numeral does not begin with a zero, unless it is the one of zero. -/
theorem head?_numeral (large : 1 < base) (positive : 0 < n) :
    ∃ d, 0 < d ∧ d < base ∧ (numeral base char n).head? = some (char d) := by
  induction n using numeral_induction large with
  | single n single => exact ⟨n, positive, single, by rw [numeral_of_lt single]; rfl⟩
  | more n more ih =>
      rcases ih (Nat.div_pos more (by omega)) with ⟨d, notZero, isDigit, head⟩
      refine ⟨d, notZero, isDigit, ?_⟩
      rw [numeral_of_le large more, List.head?_append, head]
      rfl

theorem length_numeral_le (large : 1 < base) (fits : n < base ^ (count + 1)) :
    (numeral base char n).length ≤ count + 1 := by
  induction count generalizing n with
  | zero =>
      rw [numeral_of_lt (by simpa using fits)]
      exact Nat.le_refl 1
  | succ count ih =>
      by_cases single : n < base
      · rw [numeral_of_lt single]
        exact Nat.succ_pos _
      · rw [numeral_of_le large (by omega), List.length_append, List.length_singleton]
        rw [Nat.pow_succ, Nat.mul_comm] at fits
        exact Nat.succ_le_succ (ih (Nat.div_lt_of_lt_mul fits))

end Numeral
