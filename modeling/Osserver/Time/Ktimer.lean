import Osserver.Halt
import Osserver.Lib.Linked
import Osserver.Lib.Outcome

/-!
# The kernel timers

The model of `generic/sys/time/ktimer.c`. The tasks are objects that carry the link of
the list themselves. `ktimer_add_task` links a task behind the last one and leaves the
task's own link as it is; `ktimer_remove_task` takes the first task out, but behind the
first one it looks for a task that is linked to itself.

So the list holds the tasks that were added and not removed in those runs in which no task
but the first is removed, and no task is added again that still has a link.
-/

namespace Osserver

open Linked Loop Outcome Transition

variable {Task : Type}

/-- The variables of `ktimer.c` and the fields of the tasks. -/
structure Ktimer (Task : Type) where
  root : Option Task
  next : Task → Option Task
  interval : Task → UInt32
  counter : Task → UInt32

/-- One pass of the loop of `ktimer_add_task`. -/
def addPass (next : Task → Option Task) (i : Task) : Pass Task Task :=
  match next i with
  | some after => .again after
  | none => .done i

variable [DecidableEq Task]

/-- `ktimer_add_task`, for at most `fuel` passes of its loop. -/
def ktimerAddTask (fuel : ℕ) (s : Ktimer Task) (task : Task) : Except Halt (Ktimer Task) :=
  let s := { s with counter := Function.update s.counter task (s.interval task) }
  match s.root with
  | none => .ok { s with root := some task }
  | some first =>
      (loopResult (run (addPass s.next) fuel first)).map fun i =>
        { s with next := Function.update s.next i (some task) }

/-- One pass of the loop of `ktimer_remove_task`, in which `task` is a variable of its own
and no longer the task to remove. -/
def removePass (next : Task → Option Task) (task : Task) : Pass Task (Task → Option Task) :=
  match next task with
  | none => .done next
  | some after =>
      if after = task then .done (Function.update next task (next after)) else .again after

/-- `ktimer_remove_task`, for at most `fuel` passes of its loop. -/
def ktimerRemoveTask (fuel : ℕ) (s : Ktimer Task) (task : Task) : Except Halt (Ktimer Task) :=
  if s.root = some task then .ok { s with root := s.next task }
  else
    match s.root with
    | none => .error .nullPointer
    | some first =>
        (loopResult (run (removePass s.next) fuel first)).map fun next => { s with next := next }

/-- What `__ktimer_tick` does to the counter of one task, and whether it calls the task. The
functions of the tasks leave the list alone. -/
def tickTask (interval : Task → UInt32) (task : Task)
    (counters : (Task → UInt32) × List Task) : (Task → UInt32) × List Task :=
  let counter := Function.update counters.1 task (counters.1 task - 1)
  if counter task = 0 then
    (Function.update counter task (interval task), counters.2 ++ [task])
  else (counter, counters.2)

/-- One pass of the loop of `__ktimer_tick`. -/
def tickPass (s : Ktimer Task) (state : Task × (Task → UInt32) × List Task) :
    Pass (Task × (Task → UInt32) × List Task) ((Task → UInt32) × List Task) :=
  let counters := tickTask s.interval state.1 state.2
  match s.next state.1 with
  | some after => .again (after, counters)
  | none => .done counters

/-- `__ktimer_tick`, for at most `fuel` passes of its loop, with the tasks that are called. -/
def ktimerTick (fuel : ℕ) (s : Ktimer Task) : Except Halt (Ktimer Task × List Task) :=
  match s.root with
  | none => .ok (s, [])
  | some first =>
      (loopResult (run (tickPass s) fuel (first, s.counter, []))).map fun counters =>
        ({ s with counter := counters.1 }, counters.2)

/-- The calls into `ktimer.c`. -/
inductive KtimerCall (Task : Type) where
  | addTask (task : Task)
  | removeTask (task : Task)
  | tick

/-- The list, and beside it the tasks that have been added and not been removed since, in the
order of their latest addition. -/
structure KtimerRun (Task : Type) where
  ktimer : Ktimer Task
  tasks : List Task

namespace KtimerRun

def call (fuel : ℕ) (run : KtimerRun Task) : KtimerCall Task → Except Halt (KtimerRun Task)
  | .addTask task =>
      (ktimerAddTask fuel run.ktimer task).map fun after => ⟨after, run.tasks ++ [task]⟩
  | .removeTask task =>
      (ktimerRemoveTask fuel run.ktimer task).map fun after => ⟨after, run.tasks.erase task⟩
  | .tick => (ktimerTick fuel run.ktimer).map fun after => ⟨after.1, run.tasks⟩

/-- A task is added only while it is not registered. -/
def Permitted (run : KtimerRun Task) : KtimerCall Task → Prop
  | .addTask task => task ∉ run.tasks
  | .removeTask _ | .tick => True

/-- The list from `root` holds the tasks, and ends in a null pointer behind them. -/
def Listed (run : KtimerRun Task) : Prop :=
  Segment run.ktimer.next run.ktimer.root run.tasks none

/-- A task that is added has no link; a task that is removed is the first one, or it is not
registered while another is. -/
def Tidy (run : KtimerRun Task) : KtimerCall Task → Prop
  | .addTask task => run.ktimer.next task = none
  | .removeTask task => run.tasks.head? = some task ∨ task ∉ run.tasks ∧ run.tasks ≠ []
  | .tick => True

end KtimerRun

/-- The timers from the start on, with any tasks. -/
def ktimerSystem : System (KtimerRun Task) (KtimerCall Task) where
  Init run := run.ktimer.root = none ∧ run.tasks = []
  Step run call next := run.Permitted call ∧ ∃ fuel, run.call fuel call = .ok next

section Walks

variable {s : Ktimer Task} {tasks : List Task} {task : Task}

omit [DecidableEq Task] in
theorem Ktimer.root_eq_head (listed : Segment s.next s.root tasks none) :
    s.root = tasks.head? := by
  cases tasks with
  | nil => exact listed
  | cons first tasks => exact listed.1

theorem ktimerAddTask_listed (listed : Segment s.next s.root tasks none) :
    ∃ after, ktimerAddTask tasks.length s task = .ok after ∧
      ((task ∉ tasks → s.next task = none →
        Segment after.next after.root (tasks ++ [task]) none) ∧
      (task ∉ tasks → after.next task = s.next task)) := by
  cases isRoot : s.root with
  | none =>
      rw [isRoot] at listed
      have empty := listed.eq_nil
      subst empty
      simp only [ktimerAddTask, isRoot]
      exact ⟨_, rfl, fun _ unlinked => ⟨rfl, unlinked⟩, fun _ => rfl⟩
  | some first =>
      rw [isRoot] at listed
      rcases @Segment.run_walk _ _ Unit _ _ (addPass s.next) (fun i _ => i) (fun _ acc => acc)
        (fun i _ => i) first tasks () tasks.length listed
        (fun i _ after _ link => by simp only [addPass, link])
        (fun i _ _ link => by simp only [addPass, link]) (Nat.le_refl _) with
        ⟨before, last, split, walks⟩
      simp only [ktimerAddTask, isRoot, walks, loopResult, Except.map]
      refine ⟨_, rfl, ?_, ?_⟩
      · intro fresh unlinked
        subst split
        exact isRoot ▸ listed.append fresh unlinked
      · intro fresh
        apply Function.update_of_ne
        rintro rfl
        exact fresh (by simp [split])

/-- Behind the first task the walk finds nothing to take out. -/
theorem ktimerRemoveTask_walks {first : Task} (listed : Segment s.next (some first) tasks none) :
    run (removePass s.next) tasks.length first = some s.next := by
  have goesOn : ∀ i ∈ tasks, ∀ after, s.next i = some after →
      removePass s.next i = .again after := by
    intro i member after link
    have different : after ≠ i := by
      rintro rfl
      rcases List.mem_iff_append.mp member with ⟨before, rest, rfl⟩
      have behind := (segment_middle.mp listed).2
      rw [link] at behind
      have loop : Segment s.next (some after) [after] (some after) := ⟨rfl, link⟩
      exact loop.not_none_of_cycle (by simp) rest behind
    simp only [removePass, link, if_neg different]
  rcases @Segment.run_walk _ _ Unit _ _ (removePass s.next) (fun i _ => i) (fun _ acc => acc)
    (fun _ _ => s.next) first tasks () tasks.length listed
    (fun i member after _ link => goesOn i member after link)
    (fun i _ _ link => by simp only [removePass, link]) (Nat.le_refl _) with ⟨_, _, _, walks⟩
  exact walks

/-- A tick comes to every task once, in order, and leaves the list alone. -/
theorem ktimerTick_listed (listed : Segment s.next s.root tasks none) :
    ktimerTick tasks.length s =
      .ok ({ s with counter :=
          (tasks.foldl (fun counters task => tickTask s.interval task counters)
            (s.counter, [])).1 },
        (tasks.foldl (fun counters task => tickTask s.interval task counters)
          (s.counter, [])).2) := by
  cases isRoot : s.root with
  | none =>
      rw [isRoot] at listed
      have empty := listed.eq_nil
      subst empty
      simp only [ktimerTick, isRoot, List.foldl_nil]
      rw [← isRoot]
  | some first =>
      rw [isRoot] at listed
      rcases @Segment.run_walk _ _ _ _ _ (tickPass s) Prod.mk (tickTask s.interval)
        (tickTask s.interval) first tasks (s.counter, []) tasks.length listed
        (fun i _ after _ link => by simp only [tickPass, link])
        (fun i _ _ link => by simp only [tickPass, link]) (Nat.le_refl _) with
        ⟨before, last, split, walks⟩
      simp only [ktimerTick, isRoot, walks, loopResult, Except.map]
      rw [split, List.foldl_append]
      rfl

end Walks

section Calls

variable {run next other : KtimerRun Task} {task : Task} {call : KtimerCall Task}
  {fuel count : ℕ}

/-- A call with a loop in it has one outcome, however many passes are allowed. -/
theorem outcome_unique {State Result Outcome : Type} {body : State → Pass State Result}
    {first : State} {make : Result → Outcome} {left right : Outcome}
    (returns : (loopResult (Loop.run body fuel first)).map make = .ok left)
    (alsoReturns : (loopResult (Loop.run body count first)).map make = .ok right) :
    left = right := by
  rcases map_eq_ok.mp returns with ⟨result, walks, rfl⟩
  rcases map_eq_ok.mp alsoReturns with ⟨result', alsoWalks, rfl⟩
  rw [loopResult_eq_ok] at walks alsoWalks
  rw [run_unique walks alsoWalks]

theorem ktimerAddTask_unique {s left right : Ktimer Task}
    (returns : ktimerAddTask fuel s task = .ok left)
    (alsoReturns : ktimerAddTask count s task = .ok right) : left = right := by
  simp only [ktimerAddTask] at returns alsoReturns
  cases isRoot : s.root with
  | none =>
      simp only [isRoot] at returns alsoReturns
      cases returns
      cases alsoReturns
      rfl
  | some first =>
      simp only [isRoot] at returns alsoReturns
      exact outcome_unique returns alsoReturns

theorem ktimerRemoveTask_unique {s left right : Ktimer Task}
    (returns : ktimerRemoveTask fuel s task = .ok left)
    (alsoReturns : ktimerRemoveTask count s task = .ok right) : left = right := by
  rw [ktimerRemoveTask] at returns alsoReturns
  split_ifs at returns alsoReturns
  · cases returns
    cases alsoReturns
    rfl
  · cases isRoot : s.root with
    | none =>
        simp only [isRoot] at returns
        cases returns
    | some first =>
        simp only [isRoot] at returns alsoReturns
        exact outcome_unique returns alsoReturns

theorem ktimerTick_unique {s : Ktimer Task} {left right : Ktimer Task × List Task}
    (returns : ktimerTick fuel s = .ok left)
    (alsoReturns : ktimerTick count s = .ok right) : left = right := by
  rw [ktimerTick] at returns alsoReturns
  cases isRoot : s.root with
  | none =>
      simp only [isRoot] at returns alsoReturns
      cases returns
      cases alsoReturns
      rfl
  | some first =>
      simp only [isRoot] at returns alsoReturns
      exact outcome_unique returns alsoReturns

theorem KtimerRun.call_unique (returns : run.call fuel call = .ok next)
    (alsoReturns : run.call count call = .ok other) : next = other := by
  cases call with
  | addTask task =>
      rcases map_eq_ok.mp returns with ⟨left, adds, rfl⟩
      rcases map_eq_ok.mp alsoReturns with ⟨right, alsoAdds, rfl⟩
      rw [ktimerAddTask_unique adds alsoAdds]
  | removeTask task =>
      rcases map_eq_ok.mp returns with ⟨left, removes, rfl⟩
      rcases map_eq_ok.mp alsoReturns with ⟨right, alsoRemoves, rfl⟩
      rw [ktimerRemoveTask_unique removes alsoRemoves]
  | tick =>
      rcases map_eq_ok.mp returns with ⟨left, ticks, rfl⟩
      rcases map_eq_ok.mp alsoReturns with ⟨right, alsoTicks, rfl⟩
      rw [ktimerTick_unique ticks alsoTicks]

theorem KtimerRun.Listed.addTask_iff (listed : run.Listed) (fresh : task ∉ run.tasks) :
    (∃ fuel next, run.call fuel (.addTask task) = .ok next ∧ next.Listed) ↔
      run.ktimer.next task = none := by
  rcases @ktimerAddTask_listed _ _ _ _ task listed with ⟨after, returns, appended, link⟩
  constructor
  · rintro ⟨fuel, next, returnsNext, nextListed⟩
    rcases map_eq_ok.mp returnsNext with ⟨other, adds, rfl⟩
    cases ktimerAddTask_unique returns adds
    rw [← link fresh]
    exact (segment_middle.mp nextListed).2
  · intro unlinked
    refine ⟨run.tasks.length, ⟨after, run.tasks ++ [task]⟩, ?_, appended fresh unlinked⟩
    simp only [KtimerRun.call, returns, Except.map]

/-- A task that is not the first one stays where it is. -/
theorem ktimerRemoveTask_behind {s : Ktimer Task} {first : Task} {rest : List Task}
    (listed : Segment s.next s.root (first :: rest) none) (notFirst : first ≠ task) :
    ktimerRemoveTask (first :: rest).length s task = .ok s := by
  have isRoot : s.root = some first := listed.1
  have notRoot : s.root ≠ some task := by
    rw [isRoot]
    simpa using notFirst
  have walks := ktimerRemoveTask_walks (isRoot ▸ listed)
  rw [ktimerRemoveTask, if_neg notRoot]
  split
  · rename_i isNull
    rw [isRoot] at isNull
    cases isNull
  · rename_i other atRoot
    rw [isRoot] at atRoot
    cases atRoot
    rw [walks]
    rfl

/-- The first task is taken out; any other stays in the list, and on an empty list the walk
begins at the null pointer. -/
theorem KtimerRun.Listed.removeTask_iff (listed : run.Listed) :
    (∃ fuel next, run.call fuel (.removeTask task) = .ok next ∧ next.Listed) ↔
      run.Tidy (.removeTask task) := by
  have isHead := Ktimer.root_eq_head listed
  simp only [KtimerRun.call, KtimerRun.Tidy]
  cases tasks : run.tasks with
  | nil =>
      rw [tasks] at isHead
      simp [ktimerRemoveTask, isHead, Except.map]
  | cons first rest =>
      rw [KtimerRun.Listed, tasks] at listed
      by_cases isFirst : first = task
      · subst isFirst
        simp [ktimerRemoveTask, listed.1, Except.map, KtimerRun.Listed, listed.2]
      · have returns := ktimerRemoveTask_behind listed isFirst
        constructor
        · rintro ⟨fuel, next, removesNext, nextListed⟩
          rcases map_eq_ok.mp removesNext with ⟨after, removes, rfl⟩
          cases ktimerRemoveTask_unique returns removes
          right
          refine ⟨?_, by simp⟩
          intro registered
          have same := congrArg List.length (listed.unique nextListed)
          rw [List.length_erase_of_mem registered] at same
          simp at same
        · intro tidy
          have unregistered : task ∉ first :: rest := by
            rcases tidy with atHead | ⟨unregistered, _⟩
            · exact absurd (Option.some.inj atHead) isFirst
            · exact unregistered
          refine ⟨(first :: rest).length, ⟨run.ktimer, (first :: rest).erase task⟩, ?_, ?_⟩
          · rw [returns]
            rfl
          · rw [KtimerRun.Listed, List.erase_of_not_mem unregistered]
            exact listed

theorem KtimerRun.Listed.tick (listed : run.Listed) :
    ∃ next, run.call run.tasks.length .tick = .ok next ∧ next.Listed := by
  rw [KtimerRun.call, ktimerTick_listed listed]
  exact ⟨_, rfl, listed⟩

/-- A call keeps the list exactly when it is tidy. -/
theorem KtimerRun.Listed.call_iff (listed : run.Listed) (permitted : run.Permitted call) :
    (∃ fuel next, run.call fuel call = .ok next ∧ next.Listed) ↔ run.Tidy call := by
  cases call with
  | addTask task => exact listed.addTask_iff permitted
  | removeTask task => exact listed.removeTask_iff
  | tick =>
      rcases listed.tick with ⟨next, returns, nextListed⟩
      exact ⟨fun _ => trivial, fun _ => ⟨_, next, returns, nextListed⟩⟩

end Calls

/-- In a run in which only the first task is removed, and none is added that has a link, the
list holds the tasks that have been added and not been removed since, in the order of their
latest addition. The first call that is not of this kind does not return, or ruins the list. -/
theorem ktimer_tasks_listed {run : KtimerRun Task}
    (reached : ktimerSystem.ReachableWhen KtimerRun.Tidy run) :
    run.Listed ∧ run.tasks.Nodup ∧
      ∀ call, run.Permitted call →
        ((∃ fuel next, run.call fuel call = .ok next ∧ next.Listed) ↔ run.Tidy call) := by
  have listed : run.Listed := by
    apply System.ReachableWhen.invariant _ _ reached
    · rintro run ⟨noRoot, noTasks⟩
      rw [KtimerRun.Listed, noRoot, noTasks]
      rfl
    · rintro run call next listed tidy ⟨permitted, fuel, returns⟩
      rcases (listed.call_iff permitted).mpr tidy with ⟨count, other, alsoReturns, otherListed⟩
      rw [KtimerRun.call_unique returns alsoReturns]
      exact otherListed
  exact ⟨listed, listed.nodup, fun call permitted => listed.call_iff permitted⟩

/-- Timers with tasks that have no links yet. -/
def Ktimer.fresh : Ktimer ℕ where
  root := none
  next := fun _ => none
  interval := fun _ => 5
  counter := fun _ => 0

/-- Two tasks are added, the first one is removed, and a third one is added. -/
theorem ktimer_tasks_listed_removed :
    ∃ run : KtimerRun ℕ, ktimerSystem.Reachable run ∧ run.tasks = [1, 2] ∧
      run.ktimer.root = some 1 ∧ run.Listed := by
  have fresh : ktimerSystem.ReachableWhen KtimerRun.Tidy ⟨Ktimer.fresh, []⟩ := .init ⟨rfl, rfl⟩
  have zero := fresh.step_by (.addTask 0) rfl ⟨by simp [KtimerRun.Permitted], 1, rfl⟩
  have one := zero.step_by (.addTask 1) rfl ⟨by simp [KtimerRun.Permitted], 1, rfl⟩
  have ticked := one.step_by .tick trivial ⟨trivial, 2, rfl⟩
  have removed := ticked.step_by (.removeTask 0) (Or.inl rfl) ⟨trivial, 1, rfl⟩
  have two := removed.step_by (.addTask 2) rfl ⟨by simp [KtimerRun.Permitted], 1, rfl⟩
  exact ⟨_, two.reachable, rfl, rfl, (ktimer_tasks_listed two).1⟩

/-- A tick that comes to tasks which are all linked to each other never ends. -/
theorem ktimerTick_endless {s : Ktimer Task} {first : Task} {inside : Task → Prop}
    (isRoot : s.root = some first) (starts : inside first)
    (linked : ∀ task, inside task → ∃ after, s.next task = some after ∧ inside after)
    (fuel : ℕ) : ktimerTick fuel s = .error .endlessLoop := by
  have never : ¬Ends (tickPass s) (first, s.counter, []) := by
    apply @not_ends_of_cycle _ _ _ _ _ (fun state => inside state.1) .refl starts
    rintro ⟨task, counters⟩ atTask
    rcases linked task atTask with ⟨after, link, stays⟩
    refine ⟨(after, tickTask s.interval task counters), ?_, stays⟩
    simp only [tickPass, link]
  cases walks : Loop.run (tickPass s) fuel (first, s.counter, []) with
  | some counters => exact absurd ⟨fuel, counters, walks⟩ never
  | none =>
      simp only [ktimerTick, isRoot, walks]
      rfl

/-- A task behind the first one is not removed; a task that is added again with its old link
closes the list to a ring, on which a tick never ends; and on an empty list a task that is not
registered cannot be removed. -/
theorem ktimer_tasks_not_listed :
    (∃ run, steps (KtimerRun.call 3) ⟨Ktimer.fresh, []⟩
        [.addTask 0, .addTask 1, .removeTask 1] = .ok run ∧
      run.tasks = [0] ∧ run.ktimer.next 0 = some 1 ∧ ¬run.Listed) ∧
    (∃ run, steps (KtimerRun.call 3) ⟨Ktimer.fresh, []⟩
        [.addTask 0, .addTask 1, .removeTask 0, .addTask 0] = .ok run ∧
      run.tasks = [1, 0] ∧ ∀ fuel, ktimerTick fuel run.ktimer = .error .endlessLoop) ∧
    ∀ fuel, ktimerRemoveTask fuel Ktimer.fresh 0 = .error .nullPointer := by
  refine ⟨⟨_, rfl, rfl, rfl, ?_⟩, ⟨_, rfl, rfl, ?_⟩, fun _ => rfl⟩
  · rintro ⟨_, atEnd⟩
    cases atEnd
  · apply @ktimerTick_endless _ _ _ 1 (fun task => task < 2) rfl (by omega)
    rintro (_ | _ | task) inside
    · exact ⟨1, rfl, by omega⟩
    · exact ⟨0, rfl, by omega⟩
    · omega

end Osserver
