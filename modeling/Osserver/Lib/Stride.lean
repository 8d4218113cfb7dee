import Osserver.Lib.Outcome
import Mathlib.Data.Nat.Basic
import Mathlib.Tactic.SplitIfs

/-!
# Do-while loops over an offset

The loop `do body(off); while ((off += stride) < size);` with a body that may
fail, may leave the loop early (`false`) or go on (`true`). The offset is a
machine word and wraps at `modulus`. Its runs are bounded by fuel; a run that
uses it up ends in the error `endless`.

For an offset that does not wrap the passes are numbered: pass `k` stands at
`k * stride`, and a loop that is not left early makes `passes stride size` of
them. `loop_effect` composes what single passes do, and `loop_complete` says
that a loop whose passes all go on ends.
-/

namespace Stride

universe u v

variable {State : Type u} {Error : Type v}

/-- The loop, from the offset `off` on. -/
def loop (endless : Error) (body : ℕ → State → Except Error (Bool × State))
    (stride modulus size : ℕ) : ℕ → ℕ → State → Except Error (Bool × State)
  | 0, _, _ => .error endless
  | fuel + 1, off, s =>
      match body off s with
      | .error error => .error error
      | .ok (false, s) => .ok (false, s)
      | .ok (true, s) =>
          if (off + stride) % modulus < size then
            loop endless body stride modulus size fuel ((off + stride) % modulus) s
          else .ok (true, s)

/-- How many passes a loop makes that is not left early: at least one. -/
def passes (stride size : ℕ) : ℕ :=
  max 1 ((size + stride - 1) / stride)

variable {endless : Error} {body : ℕ → State → Except Error (Bool × State)}
  {stride modulus size fuel off : ℕ} {s s' : State}

theorem loop_invariant {invariant : State → Prop} {result : Bool}
    (preserved : ∀ off s s' result, invariant s → body off s = .ok (result, s') → invariant s')
    (holds : invariant s)
    (returns : loop endless body stride modulus size fuel off s = .ok (result, s')) :
    invariant s' := by
  induction fuel generalizing off s with
  | zero => simp [loop] at returns
  | succ fuel ih =>
      simp only [loop] at returns
      split at returns
      · cases returns
      · rename_i pass
        cases returns
        exact preserved _ _ _ _ holds pass
      · rename_i middle pass
        have kept := preserved _ _ _ _ holds pass
        split_ifs at returns with more
        · exact ih kept returns
        · cases returns
          exact kept

/-- A relation between the states before and after each pass, which is transitive, is one
between the states before and after the loop. -/
theorem loop_leads {invariant : State → Prop} {Leads : State → State → Prop} {result : Bool}
    (refl : ∀ s, Leads s s) (trans : ∀ {s t u}, Leads s t → Leads t u → Leads s u)
    (pass : ∀ off s s' result, invariant s → body off s = .ok (result, s') →
      invariant s' ∧ Leads s s')
    (holds : invariant s)
    (returns : loop endless body stride modulus size fuel off s = .ok (result, s')) :
    invariant s' ∧ Leads s s' := by
  let reached : State → Prop := fun t => invariant t ∧ Leads s t
  have preserved : ∀ off t t' result, reached t → body off t = .ok (result, t') →
      reached t' := by
    intro off t t' result both returned
    have passed := pass off t t' result both.1 returned
    exact ⟨passed.1, trans both.2 passed.2⟩
  have kept := loop_invariant preserved ⟨holds, refl s⟩ returns
  exact kept

/-- A loop is simulated by another when its passes are, in the view of the states. What a
pass is simulated by may depend on the state in which the whole loop ends, to which the
pass leads. -/
theorem loop_simulates {Other : Type u} {body' : ℕ → Other → Except Error (Bool × Other)}
    {view : State → Other} {invariant : State → Prop} {Leads : State → State → Prop}
    {result : Bool} {final : State}
    (refl : ∀ s, Leads s s) (trans : ∀ {s t u}, Leads s t → Leads t u → Leads s u)
    (pass : ∀ off s s' result, invariant s → body off s = .ok (result, s') →
      invariant s' ∧ Leads s s')
    (simulates : ∀ off s s' result, invariant s → body off s = .ok (result, s') →
      Leads s' final → body' off (view s) = .ok (result, view s'))
    (holds : invariant s)
    (returns : loop endless body stride modulus size fuel off s = .ok (result, final)) :
    loop endless body' stride modulus size fuel off (view s) = .ok (result, view final) := by
  induction fuel generalizing off s with
  | zero => simp [loop] at returns
  | succ fuel ih =>
      simp only [loop] at returns ⊢
      split at returns
      · cases returns
      · rename_i middle leaves
        cases returns
        rw [simulates _ _ _ _ holds leaves (refl _)]
      · rename_i middle goesOn
        have passed := pass _ _ _ _ holds goesOn
        split_ifs at returns with more
        · have leads := loop_leads refl trans pass passed.1 returns
          rw [simulates _ _ _ _ holds goesOn leads.2]
          simp only [if_pos more]
          exact ih passed.1 returns
        · cases returns
          rw [simulates _ _ _ _ holds goesOn (refl _)]
          simp only [if_neg more]

/-- A loop is not left early when no pass leaves it from a state that the passes before it
have led to. -/
theorem loop_ne_false {ready : ℕ → State → Prop}
    (pass : ∀ off s s' result, ready off s → body off s = .ok (result, s') →
      result = true ∧ ready ((off + stride) % modulus) s')
    (isReady : ready off s) : loop endless body stride modulus size fuel off s ≠ .ok (false, s') := by
  induction fuel generalizing off s with
  | zero => simp [loop]
  | succ fuel ih =>
      intro returns
      simp only [loop] at returns
      split at returns
      · cases returns
      · rename_i leaves
        have goesOn := (pass _ _ _ _ isReady leaves).1
        cases goesOn
      · rename_i middle goesOn
        split_ifs at returns
        · exact ih (pass _ _ _ _ isReady goesOn).2 returns
        · cases returns

/-- A loop fails as its passes do, or for want of fuel. -/
theorem loop_avoids {excluded : Error → Prop} (allowed : ¬excluded endless)
    (pass : ∀ off s, Outcome.Avoids excluded (body off s)) :
    Outcome.Avoids excluded (loop endless body stride modulus size fuel off s) := by
  induction fuel generalizing off s with
  | zero => exact Outcome.avoids_error_iff.mpr allowed
  | succ fuel ih =>
      simp only [loop]
      split
      · rename_i fails
        exact (pass off s).passed fails
      · exact Outcome.avoids_ok _
      · split_ifs
        · exact ih
        · exact Outcome.avoids_ok _

theorem passes_pos (stride size : ℕ) : 1 ≤ passes stride size :=
  Nat.le_max_left _ _

theorem lt_passes_iff {k : ℕ} (positive : 0 < stride) (notFirst : 1 ≤ k) :
    k < passes stride size ↔ k * stride < size := by
  have rounded : k < (size + stride - 1) / stride ↔ (k + 1) * stride ≤ size + stride - 1 := by
    rw [← Nat.succ_le_iff, Nat.le_div_iff_mul_le positive]
  rw [Nat.succ_mul] at rounded
  simp only [passes]
  generalize (size + stride - 1) / stride = quotient at rounded ⊢
  omega

section Unwrapped

variable {k : ℕ}

theorem next_offset (positive : 0 < stride) (narrow : stride < modulus)
    (unwrapped : size + stride ≤ modulus) (inside : k < passes stride size) :
    (k * stride + stride) % modulus = (k + 1) * stride := by
  rw [Nat.succ_mul]
  apply Nat.mod_eq_of_lt
  rcases Nat.eq_zero_or_pos k with atStart | later
  · subst atStart
    omega
  · have below := (lt_passes_iff positive later).mp inside
    omega

theorem loop_effect {effect : ℕ → ℕ → State → State → Prop} (positive : 0 < stride)
    (narrow : stride < modulus) (unwrapped : size + stride ≤ modulus)
    (pass : ∀ k s s', k < passes stride size → body (k * stride) s = .ok (true, s') →
      effect k (k + 1) s s')
    (compose : ∀ {first middle last s t u}, first ≤ middle → middle ≤ last →
      effect first middle s t → effect middle last t u → effect first last s u)
    (inside : k < passes stride size)
    (returns : loop endless body stride modulus size fuel (k * stride) s = .ok (true, s')) :
    effect k (passes stride size) s s' := by
  induction fuel generalizing k s with
  | zero => simp [loop] at returns
  | succ fuel ih =>
      simp only [loop] at returns
      split at returns
      · cases returns
      · cases returns
      · rename_i middle first
        have done := pass k s middle inside first
        have offset := next_offset positive narrow unwrapped inside
        rw [offset] at returns
        split_ifs at returns with more
        · have next := (lt_passes_iff positive (Nat.le_add_left 1 k)).mpr more
          exact compose (Nat.le_succ k) (Nat.le_of_lt next) done (ih next returns)
        · have last : ¬k + 1 < passes stride size := by
            rw [lt_passes_iff positive (Nat.le_add_left 1 k)]
            exact more
          cases returns
          have atEnd : k + 1 = passes stride size := by omega
          rw [← atEnd]
          exact done

/-- When every pass goes on from what the passes before it have established, the
loop ends and has established as much for all its passes. -/
theorem loop_complete {ready : ℕ → State → Prop} (positive : 0 < stride) (narrow : stride < modulus)
    (unwrapped : size + stride ≤ modulus)
    (pass : ∀ k s, k < passes stride size → ready k s →
      ∃ s', body (k * stride) s = .ok (true, s') ∧ ready (k + 1) s')
    (inside : k < passes stride size) (enough : passes stride size ≤ k + fuel)
    (isReady : ready k s) :
    ∃ s', loop endless body stride modulus size fuel (k * stride) s = .ok (true, s') ∧
      ready (passes stride size) s' := by
  induction fuel generalizing k s with
  | zero => omega
  | succ fuel ih =>
      rcases pass k s inside isReady with ⟨middle, goesOn, nextReady⟩
      simp only [loop, goesOn, next_offset positive narrow unwrapped inside]
      split_ifs with more
      · have next := (lt_passes_iff positive (Nat.le_add_left 1 k)).mpr more
        exact ih next (by omega) nextReady
      · have last : ¬k + 1 < passes stride size := by
          rw [lt_passes_iff positive (Nat.le_add_left 1 k)]
          exact more
        have atEnd : k + 1 = passes stride size := by omega
        rw [← atEnd]
        exact ⟨middle, rfl, nextReady⟩

/-- A loop that fails without running out of fuel fails in one of its passes, in a
state that the passes before it have led to. -/
theorem loop_error {invariant : State → Prop} {error : Error} (positive : 0 < stride)
    (narrow : stride < modulus) (unwrapped : size + stride ≤ modulus)
    (preserved : ∀ k s s', invariant s → body (k * stride) s = .ok (true, s') → invariant s')
    (inside : k < passes stride size) (holds : invariant s)
    (fails : loop endless body stride modulus size fuel (k * stride) s = .error error) :
    error = endless ∨ ∃ stop < passes stride size, ∃ s, invariant s ∧
      body (stop * stride) s = .error error := by
  induction fuel generalizing k s with
  | zero =>
      left
      simpa [loop, eq_comm] using fails
  | succ fuel ih =>
      simp only [loop] at fails
      split at fails
      · rename_i pass
        cases fails
        exact Or.inr ⟨k, inside, s, holds, pass⟩
      · cases fails
      · rename_i middle pass
        rw [next_offset positive narrow unwrapped inside] at fails
        split_ifs at fails with more
        have next := (lt_passes_iff positive (Nat.le_add_left 1 k)).mpr more
        exact ih next (preserved k s middle holds pass) fails

end Unwrapped

section Until

variable {k stop : ℕ}

theorem offset_until (before : k < stop) (inRange : stop * stride < modulus) :
    (k * stride + stride) % modulus = (k + 1) * stride := by
  rw [Nat.succ_mul]
  apply Nat.mod_eq_of_lt
  have upTo : (k + 1) * stride ≤ stop * stride := Nat.mul_le_mul_right stride before
  rw [Nat.succ_mul] at upTo
  omega

theorem loop_fails {invariant : State → Prop} {error : Error} (positive : 0 < stride)
    (inRange : stop * stride < modulus) (inside : stop < passes stride size)
    (goesOn : ∀ k s, k < stop → invariant s →
      ∃ s', body (k * stride) s = .ok (true, s') ∧ invariant s')
    (fails : ∀ s, invariant s → body (stop * stride) s = .error error)
    (upTo : k ≤ stop) (enough : stop < k + fuel) (holds : invariant s) :
    loop endless body stride modulus size fuel (k * stride) s = .error error := by
  induction fuel generalizing k s with
  | zero => omega
  | succ fuel ih =>
      rcases Nat.eq_or_lt_of_le upTo with same | before
      · subst same
        simp only [loop, fails s holds]
      · rcases goesOn k s before holds with ⟨middle, pass, kept⟩
        have next : k + 1 < passes stride size := by omega
        have more := (lt_passes_iff positive (Nat.le_add_left 1 k)).mp next
        simp only [loop, pass, offset_until before inRange, if_pos more]
        exact ih before (by omega) kept

theorem loop_true {invariant : State → Prop} (positive : 0 < stride)
    (inRange : stop * stride < modulus) (inside : stop < passes stride size)
    (preserved : ∀ k s s', invariant s → body (k * stride) s = .ok (true, s') → invariant s')
    (upTo : k ≤ stop) (holds : invariant s)
    (returns : loop endless body stride modulus size fuel (k * stride) s = .ok (true, s')) :
    ∃ s s', invariant s ∧ body (stop * stride) s = .ok (true, s') := by
  induction fuel generalizing k s with
  | zero => simp [loop] at returns
  | succ fuel ih =>
      simp only [loop] at returns
      split at returns
      · cases returns
      · cases returns
      · rename_i middle pass
        rcases Nat.eq_or_lt_of_le upTo with same | before
        · subst same
          exact ⟨s, middle, holds, pass⟩
        · have next : k + 1 < passes stride size := by omega
          have more := (lt_passes_iff positive (Nat.le_add_left 1 k)).mp next
          rw [offset_until before inRange, if_pos more] at returns
          exact ih before (preserved k s middle holds pass) returns

end Until

end Stride
