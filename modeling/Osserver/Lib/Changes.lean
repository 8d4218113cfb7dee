import Mathlib.Data.Nat.Basic

/-!
# Values that change now and then

A value that is looked at moment after moment. When it changes at most once between two
moments, every moment between these splits the time into a part before and a part from
there on, and in one of the two parts the value does not change. So whoever looks at the
parts of the value one after another, and then does so again, has seen all of it in one
state at least once.
-/

namespace Changes

universe u

variable {Value : Type u} {value : ℕ → Value} {first middle last moment : ℕ}

/-- The value changes at most once from the first to the last moment. -/
def AtMostOnce (value : ℕ → Value) (first last : ℕ) : Prop :=
  ∀ m n, first ≤ m → m < last → first ≤ n → n < last →
    value m ≠ value (m + 1) → value n ≠ value (n + 1) → m = n

/-- The value is the same at all moments from the first to the last. -/
def Constant (value : ℕ → Value) (first last : ℕ) : Prop :=
  ∀ moment, first ≤ moment → moment ≤ last → value moment = value first

theorem constant_of_no_change
    (same : ∀ m, first ≤ m → m < last → value m = value (m + 1)) : Constant value first last := by
  intro moment later
  induction moment, later using Nat.le_induction with
  | base => exact fun _ => rfl
  | succ moment later ih =>
      intro inside
      rw [← same moment later (by omega)]
      exact ih (by omega)

/-- A change before the middle is the only one. -/
theorem AtMostOnce.constant_before_or_after (once : AtMostOnce value first last)
    (begins : first ≤ middle) (ends : middle ≤ last) :
    Constant value first middle ∨ Constant value middle last := by
  by_cases before : ∃ m, first ≤ m ∧ m < middle ∧ value m ≠ value (m + 1)
  · right
    rcases before with ⟨m, later, inside, changes⟩
    apply constant_of_no_change
    intro n behind earlier
    by_contra changesAgain
    have beforeLast := Nat.lt_of_lt_of_le inside ends
    have afterFirst := Nat.le_trans begins behind
    have same := once m n later beforeLast afterFirst earlier changes changesAgain
    omega
  · left
    apply constant_of_no_change
    intro m later inside
    by_contra changes
    exact before ⟨m, later, inside, changes⟩

end Changes
