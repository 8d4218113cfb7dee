import Mathlib.Data.Nat.Basic
import Mathlib.Data.List.Basic

/-!
# Loops by single passes

A loop is given by what one pass of it does: it goes on with another state, or it
ends the loop with a result. Nothing is said of how many passes there are, so a
loop may run for ever; `run` makes a bounded number of them.

A loop ends when a measure falls with every pass that goes on (`ends_of_measure`),
and it does not end once it comes to a state that it goes on with for ever
(`not_ends_of_cycle`).
-/

namespace Loop

universe u v w

/-- What one pass does: the loop goes on, or it is done. -/
inductive Pass (State : Type u) (Result : Type v) where
  | again (next : State)
  | done (result : Result)

variable {State : Type u} {Result : Type v}

/-- The loop, for at most the given number of passes. -/
def run (body : State → Pass State Result) : ℕ → State → Option Result
  | 0, _ => none
  | fuel + 1, s =>
      match body s with
      | .again next => run body fuel next
      | .done result => some result

/-- The state before the pass of the given number, if the loop comes to it. -/
def before (body : State → Pass State Result) : ℕ → State → Option State
  | 0, s => some s
  | count + 1, s =>
      match body s with
      | .again next => before body count next
      | .done _ => none

/-- What is listed beside the passes of a loop, for at most the given number of them. -/
def trace {Entry : Type w} (pass : State → List Entry × Pass State Result) :
    ℕ → State → List Entry
  | 0, _ => []
  | fuel + 1, s =>
      (pass s).1 ++
        match (pass s).2 with
        | .again next => trace pass fuel next
        | .done _ => []

def Ends (body : State → Pass State Result) (start : State) : Prop :=
  ∃ fuel result, run body fuel start = some result

/-- The loop comes to the state. -/
def Visits (body : State → Pass State Result) (start s : State) : Prop :=
  ∃ count, before body count start = some s

/-- The loop ends, and every pass that goes on moves to a higher position. -/
structure Advances (body : State → Pass State Result) (position : State → ℕ) (start : State) :
    Prop where
  ends : Ends body start
  forward : ∀ s s', Visits body start s → body s = .again s' → position s < position s'

variable {body : State → Pass State Result} {start s s' : State} {result : Result}
  {fuel count : ℕ}

theorem run_again (goesOn : body s = .again s') : run body (fuel + 1) s = run body fuel s' := by
  simp only [run, goesOn]

theorem run_done (done : body s = .done result) : run body (fuel + 1) s = some result := by
  simp only [run, done]

theorem trace_again {Entry : Type w} {pass : State → List Entry × Pass State Result}
    (goesOn : (pass s).2 = .again s') :
    trace pass (fuel + 1) s = (pass s).1 ++ trace pass fuel s' := by
  simp only [trace, goesOn]

theorem before_again (goesOn : body s = .again s') :
    before body (count + 1) s = before body count s' := by
  simp only [before, goesOn]

theorem before_succ (reached : before body count start = some s) (goesOn : body s = .again s') :
    before body (count + 1) start = some s' := by
  induction count generalizing start with
  | zero =>
      cases reached
      rw [before_again goesOn]
      rfl
  | succ count ih =>
      cases first : body start with
      | done result => simp [before, first] at reached
      | again next =>
          rw [before_again first] at reached ⊢
          exact ih reached

/-- A pass that is not the first one has a pass before it. -/
theorem exists_before_of_succ (reached : before body (count + 1) start = some s') :
    ∃ s, before body count start = some s ∧ body s = .again s' := by
  induction count generalizing start with
  | zero =>
      cases first : body start with
      | done result => simp [before, first] at reached
      | again next =>
          rw [before_again first] at reached
          cases reached
          exact ⟨start, rfl, first⟩
  | succ count ih =>
      cases first : body start with
      | done result => simp [before, first] at reached
      | again next =>
          rw [before_again first] at reached ⊢
          exact ih reached

theorem run_before (reached : before body count start = some s) :
    run body (count + fuel) start = run body fuel s := by
  induction count generalizing start with
  | zero =>
      cases reached
      rw [Nat.zero_add]
  | succ count ih =>
      cases first : body start with
      | done result => simp [before, first] at reached
      | again next =>
          rw [before_again first] at reached
          rw [Nat.add_right_comm, run_again first]
          exact ih reached

/-- The last pass of a loop that ends. -/
theorem exists_last (ends : run body fuel start = some result) :
    ∃ s, Visits body start s ∧ body s = .done result := by
  induction fuel generalizing start with
  | zero => cases ends
  | succ fuel ih =>
      cases first : body start with
      | done result' =>
          rw [run_done first] at ends
          cases ends
          exact ⟨start, ⟨0, rfl⟩, first⟩
      | again next =>
          rw [run_again first] at ends
          rcases ih ends with ⟨s, ⟨count, reached⟩, done⟩
          refine ⟨s, ⟨count + 1, ?_⟩, done⟩
          rw [before_again first]
          exact reached

theorem run_mono (ends : run body fuel start = some result) (more : fuel ≤ count) :
    run body count start = some result := by
  induction fuel generalizing start count with
  | zero => cases ends
  | succ fuel ih =>
      rcases count with _ | count
      · omega
      cases first : body start with
      | done result' =>
          rw [run_done first] at ends ⊢
          exact ends
      | again next =>
          rw [run_again first] at ends ⊢
          exact ih ends (by omega)

/-- A loop has one result, however many passes it is allowed. -/
theorem run_unique {other : Result} (ends : run body fuel start = some result)
    (alsoEnds : run body count start = some other) : result = other := by
  have more := run_mono ends (Nat.le_max_left fuel count)
  rw [run_mono alsoEnds (Nat.le_max_right fuel count)] at more
  exact (Option.some.inj more).symm

theorem Visits.refl : Visits body start start :=
  ⟨0, rfl⟩

theorem Visits.again (visits : Visits body start s) (goesOn : body s = .again s') :
    Visits body start s' := by
  rcases visits with ⟨count, reached⟩
  exact ⟨count + 1, before_succ reached goesOn⟩

/-- The invariant rule: what holds at the start and is kept by every pass that goes
on holds whenever the loop comes to a pass. -/
theorem Visits.invariant {invariant : State → Prop} (visits : Visits body start s)
    (initially : invariant start)
    (preserved : ∀ s s', invariant s → body s = .again s' → invariant s') : invariant s := by
  rcases visits with ⟨count, reached⟩
  induction count generalizing s with
  | zero =>
      cases reached
      exact initially
  | succ count ih =>
      rcases exists_before_of_succ reached with ⟨previous, reachedPrevious, goesOn⟩
      exact preserved previous s (ih reachedPrevious) goesOn

/-- A loop ends when some measure falls with every pass that goes on. -/
theorem ends_of_measure {invariant : State → Prop} (measure : State → ℕ) (holds : invariant s)
    (falls : ∀ s s', invariant s → body s = .again s' → invariant s' ∧ measure s' < measure s) :
    Ends body s := by
  induction size : measure s using Nat.strong_induction_on generalizing s with
  | _ size ih =>
      cases pass : body s with
      | done result => exact ⟨1, result, run_done pass⟩
      | again next =>
          rcases falls s next holds pass with ⟨kept, smaller⟩
          rcases ih (measure next) (by omega) kept rfl with ⟨fuel, result, returns⟩
          refine ⟨fuel + 1, result, ?_⟩
          rw [run_again pass]
          exact returns

/-- A loop that only goes on below a bound ends when it moves forward. -/
theorem advances_of_forward {position : State → ℕ} {bound : ℕ}
    (below : ∀ s s', body s = .again s' → position s < bound)
    (forward : ∀ s s', Visits body start s → body s = .again s' → position s < position s') :
    Advances body position start := by
  refine ⟨?_, forward⟩
  refine @ends_of_measure _ _ _ _ (Visits body start) (fun s => bound - position s) .refl ?_
  intro s s' visits goesOn
  have moved := forward s s' visits goesOn
  have inside := below s s' goesOn
  refine ⟨visits.again goesOn, ?_⟩
  omega

/-- A loop that comes to states it always goes on from does not end. -/
theorem not_ends_of_cycle {cycle : State → Prop} (visits : Visits body start s) (inCycle : cycle s)
    (goesOn : ∀ s, cycle s → ∃ s', body s = .again s' ∧ cycle s') : ¬Ends body start := by
  rintro ⟨fuel, result, returns⟩
  rcases visits with ⟨count, reached⟩
  have enough := run_mono returns (Nat.le_add_left fuel count)
  rw [run_before reached] at enough
  clear reached returns
  induction fuel generalizing s with
  | zero => cases enough
  | succ fuel ih =>
      rcases goesOn s inCycle with ⟨next, pass, stays⟩
      rw [run_again pass] at enough
      exact ih stays enough

/-- The invariant rule of a loop that counts from 0 to `count`. -/
theorem fold_invariant {invariant : ℕ → State → Prop} {pass : ℕ → State → State}
    (initially : invariant 0 s)
    (preserved : ∀ i < count, ∀ s, invariant i s → invariant (i + 1) (pass i s)) :
    invariant count (count.fold (fun i _ s => pass i s) s) := by
  induction count with
  | zero => exact initially
  | succ count ih =>
      rw [Nat.fold_succ]
      apply preserved count (Nat.lt_succ_self count)
      exact ih fun i inside => preserved i (Nat.lt_succ_of_lt inside)

section Visiting

variable {Item : Type u} {Entry Error : Type w}

/-- Visit the items of a list in turn, with what is listed beside each visit, and stop at
the first visit that fails. -/
def visitAll (visit : Item → State → List Entry × Except Error State) :
    List Item → State → List Entry × Except Error State
  | [], s => ([], .ok s)
  | item :: items, s =>
      match (visit item s).2 with
      | .error error => ((visit item s).1, .error error)
      | .ok next =>
          ((visit item s).1 ++ (visitAll visit items next).1, (visitAll visit items next).2)

variable {visit : Item → State → List Entry × Except Error State} {item : Item}
  {items : List Item} {error : Error} {next : State}

theorem visitAll_error (fails : (visit item s).2 = .error error) :
    visitAll visit (item :: items) s = ((visit item s).1, .error error) := by
  simp only [visitAll, fails]

theorem visitAll_ok (returns : (visit item s).2 = .ok next) :
    visitAll visit (item :: items) s =
      ((visit item s).1 ++ (visitAll visit items next).1, (visitAll visit items next).2) := by
  simp only [visitAll, returns]

/-- The first visit is listed, whatever it comes to. -/
theorem visitAll_head :
    (visit item s).1 <+: (visitAll visit (item :: items) s).1 := by
  cases outcome : (visit item s).2 with
  | error error =>
      simp [visitAll_error outcome]
  | ok next =>
      rw [visitAll_ok outcome]
      exact List.prefix_append _ _

/-- A loop whose pass `i` visits item `i`, and which is done behind the last one, visits
them all. -/
theorem run_visitAll {Walk : Type v}
    {pass : Walk → List Entry × Pass Walk (Except Error State)} {walk : ℕ → State → Walk}
    {invariant : State → Prop} {position : ℕ}
    (visits : ∀ i (inside : i < items.length) s, invariant s →
      (pass (walk (position + i) s)).1 = (visit items[i] s).1 ∧
      (∀ error, (visit items[i] s).2 = .error error →
        (pass (walk (position + i) s)).2 = .done (.error error)) ∧
      ∀ next, (visit items[i] s).2 = .ok next →
        (pass (walk (position + i) s)).2 = .again (walk (position + i + 1) next) ∧ invariant next)
    (ends : ∀ s, invariant s → pass (walk (position + items.length) s) = ([], .done (.ok s)))
    (holds : invariant s) (enough : items.length < fuel) :
    trace pass fuel (walk position s) = (visitAll visit items s).1 ∧
      run (fun walk => (pass walk).2) fuel (walk position s) =
        some (visitAll visit items s).2 := by
  induction items generalizing position fuel s with
  | nil =>
      rcases fuel with _ | fuel
      · omega
      · have done := ends s holds
        rw [List.length_nil, Nat.add_zero] at done
        simp [trace, run, visitAll, done]
  | cons item items ih =>
      rcases fuel with _ | fuel
      · omega
      have here := visits 0 (Nat.succ_pos _) s holds
      simp only [Nat.add_zero, List.getElem_cons_zero] at here
      rcases here with ⟨listed, fails, goesOn⟩
      cases outcome : (visit item s).2 with
      | error error =>
          rw [visitAll_error outcome]
          simp [trace, run, listed, fails error outcome]
      | ok next =>
          rcases goesOn next outcome with ⟨again, kept⟩
          rw [List.length_cons] at enough
          have rest := @ih next fuel (position + 1) ?_ ?_ kept (by omega)
          · rw [visitAll_ok outcome]
            simp only [trace, run, listed, again, rest.1, rest.2, and_self]
          · intro i inside s holds
            rw [Nat.add_assoc, Nat.add_comm 1 i]
            exact visits (i + 1) (Nat.succ_lt_succ inside) s holds
          · intro s holds
            rw [Nat.add_assoc, Nat.add_comm 1 items.length]
            exact ends s holds

end Visiting

end Loop
