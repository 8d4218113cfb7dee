import Osserver.Time.Ktimer
import Mathlib.Data.Nat.ModEq
import Mathlib.Tactic.SplitIfs

/-!
# When the tasks are called

A task that is added with no link is called at every tick, counted from its addition, that
is a multiple of its interval, whatever the intervals of the other tasks are. The tasks
that are called in one tick are called in the order of the list.
-/

namespace Osserver

open Linked Loop Outcome Transition

variable {Task : Type} [DecidableEq Task]

/-- What happens to the timers: a task is added, or there is a tick. -/
inductive KtimerEvent (Task : Type) where
  | addTask (task : Task)
  | tick

/-- The timers with their history: the tasks that each tick has called, and the number of
ticks before the addition of a task. -/
structure KtimerLog (Task : Type) extends KtimerRun Task where
  ticks : List (List Task)
  added : Task → ℕ

namespace KtimerLog

def event (fuel : ℕ) (log : KtimerLog Task) : KtimerEvent Task → Except Halt (KtimerLog Task)
  | .addTask task =>
      (ktimerAddTask fuel log.ktimer task).map fun after =>
        { ktimer := after
          tasks := log.tasks ++ [task]
          ticks := log.ticks
          added := Function.update log.added task log.ticks.length }
  | .tick =>
      (ktimerTick fuel log.ktimer).map fun after =>
        { ktimer := after.1
          tasks := log.tasks
          ticks := log.ticks ++ [after.2]
          added := log.added }

/-- A task is added while it is not registered, with no link and an interval. -/
def Permitted (log : KtimerLog Task) : KtimerEvent Task → Prop
  | .addTask task =>
      task ∉ log.tasks ∧ log.ktimer.next task = none ∧ 1 ≤ log.ktimer.interval task
  | .tick => True

/-- How many ticks there have been since the task was added. -/
def age (log : KtimerLog Task) (task : Task) : ℕ :=
  log.ticks.length - log.added task

/-- The task is called in the tick of the given number. -/
def due (log : KtimerLog Task) (number : ℕ) (task : Task) : Bool :=
  log.added task ≤ number ∧
    (log.ktimer.interval task).toNat ∣ number + 1 - log.added task

end KtimerLog

/-- The timers from a list on in which all tasks have just been added. -/
def firingSystem : System (KtimerLog Task) (KtimerEvent Task) where
  Init log :=
    log.Listed ∧ log.ticks = [] ∧
      ∀ task ∈ log.tasks, log.added task = 0 ∧ 1 ≤ log.ktimer.interval task ∧
        log.ktimer.counter task = log.ktimer.interval task
  Step log event next := log.Permitted event ∧ ∃ fuel, log.event fuel event = .ok next

section Tick

variable {interval counter : Task → UInt32} {tasks fired : List Task}

/-- The counter of a task behind a tick that comes to it. -/
def countedDown (interval counter : Task → UInt32) (task : Task) : UInt32 :=
  if counter task - 1 = 0 then interval task else counter task - 1

/-- A tick counts each task down once, and calls those that come to zero. -/
theorem foldl_tickTask (nodup : tasks.Nodup) :
    tasks.foldl (fun counters task => tickTask interval task counters) (counter, fired) =
      (fun task => if task ∈ tasks then countedDown interval counter task else counter task,
        fired ++ tasks.filter fun task => counter task - 1 = 0) := by
  induction tasks generalizing counter fired with
  | nil => simp
  | cons first rest ih =>
      rcases List.nodup_cons.mp nodup with ⟨fresh, nodup⟩
      have atFirst : tickTask interval first (counter, fired) =
          (Function.update counter first (countedDown interval counter first),
            if counter first - 1 = 0 then fired ++ [first] else fired) := by
        simp only [tickTask, countedDown, Function.update_self]
        split_ifs
        · rw [Function.update_idem]
        · rfl
      rw [List.foldl_cons, atFirst, ih nodup]
      have others : ∀ task ∈ rest, Function.update counter first
          (countedDown interval counter first) task = counter task := by
        intro task member
        apply Function.update_of_ne
        rintro rfl
        exact fresh member
      congr 1
      · funext task
        by_cases member : task ∈ rest
        · have same : countedDown interval (Function.update counter first
              (countedDown interval counter first)) task = countedDown interval counter task := by
            rw [countedDown, others task member, countedDown]
          simp [member, same]
        · by_cases isFirst : task = first
          · simp [isFirst, fresh]
          · simp [member, isFirst]
      · have same : (rest.filter fun task => Function.update counter first
            (countedDown interval counter first) task - 1 = 0) =
              rest.filter fun task => counter task - 1 = 0 := by
          apply List.filter_congr
          intro task member
          rw [others task member]
        rw [same, List.filter_cons]
        by_cases due : counter first - 1 = 0
        · simp [due]
        · simp [due]

end Tick

/-- A counter that starts at the interval comes to zero with the next multiple of it. -/
theorem succ_mod_eq {age interval : ℕ} (positive : 1 ≤ interval) :
    (interval - age % interval = 1 ↔ interval ∣ age + 1) ∧
      (¬interval ∣ age + 1 → (age + 1) % interval = age % interval + 1) := by
  have inside := Nat.mod_lt age positive
  have sum := Nat.add_mod age 1 interval
  by_cases one : interval = 1
  · subst one
    simp [Nat.mod_one]
  · rw [Nat.mod_eq_of_lt (show 1 < interval by omega)] at sum
    by_cases last : age % interval + 1 = interval
    · rw [last, Nat.mod_self] at sum
      have divides : interval ∣ age + 1 := Nat.dvd_of_mod_eq_zero sum
      exact ⟨⟨fun _ => divides, fun _ => by omega⟩, fun not => absurd divides not⟩
    · rw [Nat.mod_eq_of_lt (show age % interval + 1 < interval by omega)] at sum
      have notDivides : ¬interval ∣ age + 1 := by
        intro divides
        rw [Nat.mod_eq_zero_of_dvd divides] at sum
        omega
      exact ⟨⟨fun zero => by omega, fun divides => absurd divides notDivides⟩, fun _ => sum⟩

/-- What holds of the timers: each counter says how long ago its task was called, and the ticks
have called what was due in them. -/
structure KtimerLog.Exact (log : KtimerLog Task) : Prop where
  listed : log.Listed
  positive : ∀ task ∈ log.tasks, 1 ≤ (log.ktimer.interval task).toNat
  added : ∀ task ∈ log.tasks, log.added task ≤ log.ticks.length
  counter : ∀ task ∈ log.tasks, (log.ktimer.counter task).toNat =
    (log.ktimer.interval task).toNat - log.age task % (log.ktimer.interval task).toNat
  called : ∀ number (inside : number < log.ticks.length),
    log.ticks[number] = log.tasks.filter (log.due number)
  count : ∀ task ∈ log.tasks, ((log.ticks.drop (log.added task)).flatten).count task =
    log.age task / (log.ktimer.interval task).toNat

section Events

variable {log next : KtimerLog Task} {task : Task} {fuel : ℕ}

theorem ktimerAddTask_counter {s after : Ktimer Task}
    (returns : ktimerAddTask fuel s task = .ok after) :
    after.counter = Function.update s.counter task (s.interval task) ∧
      after.interval = s.interval := by
  rw [ktimerAddTask] at returns
  cases isRoot : s.root with
  | none =>
      simp only [isRoot] at returns
      cases returns
      exact ⟨rfl, rfl⟩
  | some first =>
      simp only [isRoot] at returns
      rcases map_eq_ok.mp returns with ⟨last, _, rfl⟩
      exact ⟨rfl, rfl⟩

theorem KtimerLog.exact_of_init (starts : firingSystem.Init log) : log.Exact := by
  rcases starts with ⟨listed, noTicks, tasks⟩
  refine ⟨listed, ?_, ?_, ?_, ?_, ?_⟩
  · intro task member
    exact (tasks task member).2.1
  · intro task member
    rw [(tasks task member).1]
    exact Nat.zero_le _
  · intro task member
    rw [(tasks task member).2.2, KtimerLog.age, noTicks]
    simp
  · intro number inside
    rw [noTicks] at inside
    cases inside
  · intro task member
    rw [KtimerLog.age, noTicks]
    simp

theorem KtimerLog.Exact.addTask (exact : log.Exact) (permitted : log.Permitted (.addTask task))
    (returns : log.event fuel (.addTask task) = .ok next) : next.Exact := by
  rcases map_eq_ok.mp returns with ⟨after, adds, rfl⟩
  rcases permitted with ⟨fresh, unlinked, positive⟩
  rcases ktimerAddTask_counter adds with ⟨counter, interval⟩
  rcases @ktimerAddTask_listed _ _ _ _ task exact.listed with ⟨other, alsoAdds, appended, _⟩
  cases ktimerAddTask_unique adds alsoAdds
  have keepsCounter : ∀ other ∈ log.tasks, after.counter other = log.ktimer.counter other := by
    intro other member
    rw [counter]
    apply Function.update_of_ne
    rintro rfl
    exact fresh member
  have keepsAdded : ∀ other ∈ log.tasks,
      Function.update log.added task log.ticks.length other = log.added other := by
    intro other member
    apply Function.update_of_ne
    rintro rfl
    exact fresh member
  refine ⟨appended fresh unlinked, ?_, ?_, ?_, ?_, ?_⟩
  · intro other member
    simp only [interval]
    rcases List.mem_append.mp member with old | new
    · exact exact.positive other old
    · rw [List.mem_singleton.mp new]
      exact positive
  · intro other member
    rcases List.mem_append.mp member with old | new
    · simp only [keepsAdded other old]
      exact exact.added other old
    · simp [List.mem_singleton.mp new]
  · intro other member
    rcases List.mem_append.mp member with old | new
    · simp only [KtimerLog.age, keepsAdded other old, keepsCounter other old, interval]
      exact exact.counter other old
    · simp [KtimerLog.age, List.mem_singleton.mp new, counter, interval]
  · intro number inside
    have notYet : ¬log.ticks.length ≤ number := Nat.not_le.mpr inside
    simp only [exact.called number inside, List.filter_append, List.filter_cons, List.filter_nil,
      KtimerLog.due, Function.update_self, notYet, false_and, decide_false, Bool.false_eq_true,
      if_false, List.append_nil]
    apply List.filter_congr
    intro other member
    simp only [KtimerLog.due, keepsAdded other member, interval]
  · intro other member
    rcases List.mem_append.mp member with old | new
    · simp only [KtimerLog.age, keepsAdded other old, interval]
      exact exact.count other old
    · simp [KtimerLog.age, List.mem_singleton.mp new]

theorem counter_pred_iff {counter : UInt32} : counter - 1 = 0 ↔ counter.toNat = 1 := by
  have back : counter - 1 + 1 = counter := UInt32.sub_add_cancel _ _
  constructor
  · intro zero
    rw [← back, zero]
    rfl
  · intro one
    rw [UInt32.toNat_inj.mp (show _ = (1 : UInt32).toNat from one)]
    rfl

/-- The next tick brings the counter to zero when it makes the age a multiple of the interval. -/
theorem KtimerLog.Exact.zero_iff (exact : log.Exact) (member : task ∈ log.tasks) :
    log.ktimer.counter task - 1 = 0 ↔ (log.ktimer.interval task).toNat ∣ log.age task + 1 := by
  rw [counter_pred_iff, exact.counter task member]
  exact (succ_mod_eq (exact.positive task member)).1

theorem KtimerLog.Exact.due_iff (exact : log.Exact) (member : task ∈ log.tasks) :
    log.ktimer.counter task - 1 = 0 ↔ log.due log.ticks.length task = true := by
  have added := exact.added task member
  rw [exact.zero_iff member, KtimerLog.due, KtimerLog.age, ← Nat.sub_add_comm added]
  simp [added]

/-- The next tick counts the task down as its age says. -/
theorem KtimerLog.Exact.countedDown_toNat (exact : log.Exact) (member : task ∈ log.tasks) :
    (countedDown log.ktimer.interval log.ktimer.counter task).toNat =
      (log.ktimer.interval task).toNat -
        (log.age task + 1) % (log.ktimer.interval task).toNat := by
  have counter := exact.counter task member
  have positive := exact.positive task member
  have inside := Nat.mod_lt (log.age task) positive
  have zeroIff := exact.zero_iff member
  rw [countedDown]
  by_cases zero : log.ktimer.counter task - 1 = 0
  · rw [if_pos zero, Nat.mod_eq_zero_of_dvd (zeroIff.mp zero), Nat.sub_zero]
  · have next := (succ_mod_eq positive).2 fun divides => zero (zeroIff.mpr divides)
    rw [if_neg zero, next, UInt32.toNat_sub_of_le, counter]
    · exact Nat.sub_sub _ _ 1
    · rw [UInt32.le_iff_toNat_le, counter]
      change 1 ≤ _
      omega

/-- The next tick calls the task once when it makes the age a multiple of the interval. -/
theorem KtimerLog.Exact.count_zero (exact : log.Exact) (member : task ∈ log.tasks) :
    (log.tasks.filter fun task => log.ktimer.counter task - 1 = 0).count task =
      if (log.ktimer.interval task).toNat ∣ log.age task + 1 then 1 else 0 := by
  by_cases divides : (log.ktimer.interval task).toNat ∣ log.age task + 1
  · have zero := (exact.zero_iff member).mpr divides
    rw [if_pos divides, List.count_filter (by simp [zero])]
    exact List.count_eq_one_of_mem exact.listed.nodup member
  · rw [if_neg divides]
    apply List.count_eq_zero_of_not_mem
    intro isCalled
    have zero := (List.mem_filter.mp isCalled).2
    exact divides ((exact.zero_iff member).mp (of_decide_eq_true zero))

theorem KtimerLog.Exact.tick (exact : log.Exact) (returns : log.event fuel .tick = .ok next) :
    next.Exact := by
  rcases map_eq_ok.mp returns with ⟨after, ticks, rfl⟩
  cases ktimerTick_unique ticks (ktimerTick_listed exact.listed)
  rw [foldl_tickTask exact.listed.nodup, List.nil_append]
  have older : ∀ (called : List Task), ∀ task ∈ log.tasks,
      (log.ticks ++ [called]).length - log.added task = log.age task + 1 := by
    intro called task member
    have added := exact.added task member
    rw [List.length_append, List.length_singleton, KtimerLog.age]
    omega
  refine ⟨exact.listed, exact.positive, ?_, ?_, ?_, ?_⟩
  · intro task member
    rw [List.length_append]
    exact Nat.le_add_right_of_le (exact.added task member)
  · intro task member
    rw [KtimerLog.age, older _ task member]
    simp only [if_pos member]
    exact exact.countedDown_toNat member
  · intro number inside
    rw [List.length_append, List.length_singleton] at inside
    by_cases old : number < log.ticks.length
    · rw [List.getElem_append_left old]
      exact exact.called number old
    · have last : number = log.ticks.length := by omega
      subst last
      rw [List.getElem_concat_length rfl]
      apply List.filter_congr
      intro task member
      rw [Bool.eq_iff_iff, decide_eq_true_eq]
      exact exact.due_iff member
  · intro task member
    rw [KtimerLog.age, older _ task member, List.drop_append_of_le_length (exact.added task member),
      List.flatten_append, List.count_append, exact.count task member, Nat.succ_div,
      List.flatten_singleton, exact.count_zero member]

theorem KtimerLog.exact_of_reachable (reached : firingSystem.Reachable log) : log.Exact := by
  apply System.Reachable.invariant _ _ reached
  · intro log starts
    exact KtimerLog.exact_of_init starts
  · rintro log event next exact ⟨permitted, fuel, returns⟩
    cases event with
    | addTask task => exact exact.addTask permitted returns
    | tick => exact exact.tick returns

theorem KtimerLog.Exact.returns (exact : log.Exact) (event : KtimerEvent Task) :
    ∃ fuel next, log.event fuel event = .ok next := by
  cases event with
  | addTask task =>
      rcases @ktimerAddTask_listed _ _ _ _ task exact.listed with ⟨after, adds, _⟩
      refine ⟨log.tasks.length, ?_⟩
      rw [KtimerLog.event, adds]
      exact ⟨_, rfl⟩
  | tick =>
      refine ⟨log.tasks.length, ?_⟩
      rw [KtimerLog.event, ktimerTick_listed exact.listed]
      exact ⟨_, rfl⟩

end Events

/-- Whatever tasks are added between the ticks, each tick calls the tasks whose time since their
addition is a multiple of their interval, in the order of the list. So a task has been called
once for each whole interval, and its counter is between one and the interval. -/
theorem ktimer_fires {log : KtimerLog Task} (reached : firingSystem.Reachable log) :
    (∀ number (inside : number < log.ticks.length),
      log.ticks[number] = log.tasks.filter fun task =>
        log.added task ≤ number ∧
          (log.ktimer.interval task).toNat ∣ number + 1 - log.added task) ∧
    (∀ task ∈ log.tasks,
      ((log.ticks.drop (log.added task)).flatten).count task =
        (log.ticks.length - log.added task) / (log.ktimer.interval task).toNat ∧
      1 ≤ log.ktimer.counter task ∧ log.ktimer.counter task ≤ log.ktimer.interval task) ∧
    log.tasks.Nodup ∧ ∀ event, ∃ fuel next, log.event fuel event = .ok next := by
  have exact := KtimerLog.exact_of_reachable reached
  refine ⟨exact.called, ?_, exact.listed.nodup, exact.returns⟩
  intro task member
  have counter := exact.counter task member
  have inside := Nat.mod_lt (log.age task) (exact.positive task member)
  refine ⟨exact.count task member, ?_, ?_⟩
  · rw [UInt32.le_iff_toNat_le, counter]
    change 1 ≤ _
    omega
  · rw [UInt32.le_iff_toNat_le, counter]
    exact Nat.sub_le _ _

/-- Timers on which nothing has happened. -/
def KtimerLog.fresh : KtimerLog ℕ where
  ktimer := Ktimer.fresh
  tasks := []
  ticks := []
  added _ := 0

/-- A second task joins after a tick, and each of the two is called at its fifth tick. -/
theorem ktimer_fires_joining :
    ∃ log : KtimerLog ℕ, log.tasks = [0, 1] ∧ log.added 1 = 1 ∧
      log.ticks = [[], [], [], [], [0], [1]] ∧
      (∀ number (inside : number < log.ticks.length),
        log.ticks[number] = log.tasks.filter fun task =>
          log.added task ≤ number ∧
            (log.ktimer.interval task).toNat ∣ number + 1 - log.added task) ∧
      ∀ task ∈ log.tasks,
        ((log.ticks.drop (log.added task)).flatten).count task =
          (log.ticks.length - log.added task) / (log.ktimer.interval task).toNat ∧
        1 ≤ log.ktimer.counter task ∧ log.ktimer.counter task ≤ log.ktimer.interval task := by
  have fresh : firingSystem.Reachable KtimerLog.fresh :=
    .init ⟨rfl, rfl, List.forall_mem_nil _⟩
  have one := fresh.step_by (.addTask 0) ⟨⟨List.not_mem_nil, rfl, by decide⟩, 1, rfl⟩
  have ticked := one.step_by .tick ⟨trivial, 1, rfl⟩
  have two := ticked.step_by (.addTask 1) ⟨⟨by simp [KtimerLog.fresh], rfl, by decide⟩, 1, rfl⟩
  have second := two.step_by .tick ⟨trivial, 2, rfl⟩
  have third := second.step_by .tick ⟨trivial, 2, rfl⟩
  have fourth := third.step_by .tick ⟨trivial, 2, rfl⟩
  have fifth := fourth.step_by .tick ⟨trivial, 2, rfl⟩
  have sixth := fifth.step_by .tick ⟨trivial, 2, rfl⟩
  exact ⟨_, rfl, rfl, rfl, (ktimer_fires sixth).1, (ktimer_fires sixth).2.1⟩

end Osserver
