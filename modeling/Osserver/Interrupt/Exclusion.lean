import Osserver.Interrupt.Basic

/-!
# One context in the heap

The lock tests a variable, executes `cli` and then stores to the variable, and an
interrupt may come in between; and in a handler, or between `sti` and the store
that follows it, the variable differs from the interrupt flag. `Cpu.Coherent`
says how far they can differ, and that only contexts at harmless points are
interrupted. From this it follows that one context at most uses the heap.
-/

namespace Osserver

open Transition

namespace Point

/-- The context is between the end of its `kmem_liballoc_lock` and the `sti` of its
`kmem_liballoc_unlock`, or the return of it when it executes no `sti`. -/
def critical : Point → Bool
  | .held => true
  | .enableSetup unlocks | .enableTest unlocks | .enableSti unlocks => unlocks
  | .enableStore unlocks didSti => unlocks && !didSti
  | _ => false

/-- The context can be here while the interrupt flag is set. -/
def interruptible : Point → Bool
  | .outside | .disableTest | .disableCli => true
  | .enableSetup unlocks | .enableTest unlocks => !unlocks
  | .enableStore unlocks didSti => didSti || !unlocks
  | _ => false

/-- The context has executed `sti` and has not stored to the variable yet. -/
def window : Point → Bool
  | .enableStore _ didSti => didSti
  | _ => false

/-- `idt_int_enable` has found that the descriptors are set up. -/
def enabling : Point → Bool
  | .enableTest _ | .enableSti _ | .enableStore _ _ => true
  | _ => false

theorem not_critical_of_interruptible {point : Point} (canRun : point.interruptible = true) :
    point.critical = false := by
  cases point with
  | disableStore | held | enableSti => cases canRun
  | outside | disableTest | disableCli => rfl
  | enableSetup unlocks | enableTest unlocks =>
      cases unlocks
      · rfl
      · cases canRun
  | enableStore unlocks didSti =>
      cases unlocks
      · rfl
      · cases didSti
        · cases canRun
        · rfl

end Point

namespace Cpu

/-- The variable while the interrupt flag is set. -/
def Open (point : Point) (enabled : Bool) : Prop :=
  point.interruptible = true ∧ (enabled = true ∨ point.window = true)

/-- The variable while the interrupt flag is clear. The handler that has come last
finds the variable false only in the window of the context below it. -/
def Closed (point : Point) (enabled : Bool) (interrupted : List InterruptFrame) : Prop :=
  match point with
  | .outside | .disableTest =>
      match interrupted with
      | [] => enabled = false
      | frame :: _ => enabled = true ∨ frame.point.window = true
  | .disableCli | .disableStore => True
  | .held | .enableSetup _ | .enableTest _ | .enableSti _ => enabled = false
  | .enableStore _ _ => False

/-- The invariant of all contexts, over any run. -/
structure Coherent (s : Cpu) : Prop where
  setup : s.idtSetup = false →
    s.interruptFlag = false ∧ s.interrupted = [] ∧ s.point.enabling = false
  opened : s.interruptFlag = true → Open s.point s.idtInterruptsEnabled
  closed : s.interruptFlag = false → Closed s.point s.idtInterruptsEnabled s.interrupted
  suspended : ∀ frame ∈ s.interrupted,
    frame.interruptFlag = true ∧ frame.point.interruptible = true

namespace Coherent

variable {s s' : Cpu}

theorem init : Coherent ⟨⟨false, false, false⟩, .outside, []⟩ := by
  refine ⟨fun _ => ⟨rfl, rfl, rfl⟩, ?_, fun _ => rfl, ?_⟩
  · intro set
    cases set
  · intro frame member
    cases member

theorem setup_of_flag (coherent : Coherent s) (set : s.interruptFlag = true) :
    s.idtSetup = true := by
  cases isSetup : s.idtSetup with
  | true => rfl
  | false =>
      rw [(coherent.setup isSetup).1] at set
      cases set

theorem setup_of_enabling (coherent : Coherent s) (enabling : s.point.enabling = true) :
    s.idtSetup = true := by
  cases isSetup : s.idtSetup with
  | true => rfl
  | false =>
      rw [(coherent.setup isSetup).2.2] at enabling
      cases enabling

/-- The context that runs with the interrupt flag set is at a point where it can. -/
theorem enabled_of_flag (coherent : Coherent s) (set : s.interruptFlag = true)
    (notWindow : s.point.window = false) : s.idtInterruptsEnabled = true := by
  rcases (coherent.opened set).2 with enabled | window
  · exact enabled
  · rw [notWindow] at window
    cases window

theorem of_open (isSetup : s.idtSetup = true) (set : s.interruptFlag = true)
    (opened : Open s.point s.idtInterruptsEnabled)
    (suspended : ∀ frame ∈ s.interrupted,
      frame.interruptFlag = true ∧ frame.point.interruptible = true) : Coherent s := by
  refine ⟨?_, fun _ => opened, ?_, suspended⟩
  · intro notSetup
    rw [isSetup] at notSetup
    cases notSetup
  · intro clear
    rw [set] at clear
    cases clear

theorem of_closed (clear : s.interruptFlag = false)
    (setup : s.idtSetup = false → s.interrupted = [] ∧ s.point.enabling = false)
    (closed : Closed s.point s.idtInterruptsEnabled s.interrupted)
    (suspended : ∀ frame ∈ s.interrupted,
      frame.interruptFlag = true ∧ frame.point.interruptible = true) : Coherent s := by
  refine ⟨fun notSetup => ⟨clear, setup notSetup⟩, ?_, fun _ => closed, suspended⟩
  intro set
  rw [clear] at set
  cases set

theorem next (coherent : Coherent s) (steps : s.next = some s') : Coherent s' := by
  rcases s with ⟨⟨flag, enabled, setup⟩, point, interrupted⟩
  have setupOfFlag := coherent.setup_of_flag
  have setupOfEnabling := coherent.setup_of_enabling
  have enabledOfFlag := coherent.enabled_of_flag
  rcases coherent with ⟨notSetup, opened, closed, suspended⟩
  cases point with
  | outside => cases steps
  | held => cases steps
  | disableTest =>
      cases steps
      cases flag with
      | true =>
          -- This is not the window, so the variable is true when the flag is set.
          cases enabledOfFlag rfl rfl
          exact of_open (setupOfFlag rfl) rfl ⟨rfl, Or.inl rfl⟩ suspended
      | false =>
          apply of_closed rfl
          · intro isNotSetup
            refine ⟨(notSetup isNotSetup).2.1, ?_⟩
            cases enabled <;> rfl
          · cases enabled <;> trivial
          · exact suspended
  | disableCli =>
      cases steps
      exact of_closed rfl (fun isNotSetup => ⟨(notSetup isNotSetup).2.1, rfl⟩) trivial suspended
  | disableStore =>
      cases steps
      cases flag with
      | true => cases (opened rfl).1
      | false =>
          exact of_closed rfl (fun isNotSetup => ⟨(notSetup isNotSetup).2.1, rfl⟩) rfl suspended
  | enableSetup unlocks =>
      cases steps
      cases setup with
      | true => exact ⟨nofun, opened, closed, suspended⟩
      | false =>
          -- Nothing has been enabled: the context is the mainline, and it returns.
          rcases notSetup rfl with ⟨clear, isMainline, _⟩
          cases clear
          cases isMainline
          exact of_closed rfl (fun _ => ⟨rfl, rfl⟩) (closed rfl) suspended
  | enableTest unlocks =>
      cases steps
      cases setupOfEnabling rfl
      cases enabled with
      | true =>
          cases flag with
          | true => exact of_open rfl rfl ⟨(opened rfl).1, Or.inl rfl⟩ suspended
          | false => cases closed rfl
      | false =>
          cases flag with
          | true => cases enabledOfFlag rfl rfl
          | false => exact of_closed rfl nofun rfl suspended
  | enableSti unlocks =>
      cases steps
      cases setupOfEnabling rfl
      exact of_open rfl rfl ⟨rfl, Or.inr rfl⟩ suspended
  | enableStore unlocks didSti =>
      cases steps
      cases setupOfEnabling rfl
      cases flag with
      | true => exact of_open rfl rfl ⟨rfl, Or.inl rfl⟩ suspended
      | false => exact (closed rfl).elim

/-- An interrupt finds the running context where it may be interrupted, and its
handler finds the variable false only in the window of that context. -/
theorem irq (coherent : Coherent s) (steps : s.step .irq = some s') : Coherent s' := by
  rcases step_irq steps with ⟨set, rfl⟩
  have opened := coherent.opened set
  apply of_closed rfl
  · intro notSetup
    have clear := (coherent.setup notSetup).1
    rw [set] at clear
    cases clear
  · exact opened.2
  · intro frame member
    rcases List.mem_cons.mp member with rfl | member
    · exact ⟨set, opened.1⟩
    · exact coherent.suspended frame member

/-- A handler that returns leaves the variable as the context below it needs it. -/
theorem iret (coherent : Coherent s) (steps : s.step .iret = some s') : Coherent s' := by
  rcases s with ⟨⟨flag, enabled, setup⟩, point, _⟩
  rcases step_iret steps with ⟨frame, interrupted, rfl, rfl, rfl⟩
  have suspended := coherent.suspended frame List.mem_cons_self
  have isSetup : setup = true := by
    cases setup with
    | true => rfl
    | false => cases (coherent.setup rfl).2.1
  have enabledOrWindow : enabled = true ∨ frame.point.window = true := by
    cases flag with
    | true => exact Or.inl (coherent.enabled_of_flag rfl rfl)
    | false => exact coherent.closed rfl
  apply of_open isSetup suspended.1 ⟨suspended.2, enabledOrWindow⟩
  intro other member
  exact coherent.suspended other (List.mem_cons_of_mem frame member)

theorem step (coherent : Coherent s) {event : CpuEvent} (steps : s.step event = some s') :
    Coherent s' := by
  rcases s with ⟨⟨flag, enabled, setup⟩, point, interrupted⟩
  cases event with
  | next => exact coherent.next steps
  | irq => exact coherent.irq steps
  | iret => exact coherent.iret steps
  | lock =>
      rcases step_lock steps with ⟨rfl, rfl⟩
      exact ⟨coherent.setup, coherent.opened, coherent.closed, coherent.suspended⟩
  | unlock =>
      rcases step_unlock steps with ⟨rfl, rfl⟩
      refine ⟨coherent.setup, ?_, coherent.closed, coherent.suspended⟩
      intro set
      cases (coherent.opened set).1
  | intEnable =>
      rcases step_intEnable steps with ⟨rfl, rfl, rfl⟩
      exact ⟨coherent.setup, coherent.opened, coherent.closed, coherent.suspended⟩
  | idtInit =>
      rcases step_idtInit steps with ⟨rfl, rfl, rfl⟩
      exact ⟨nofun, coherent.opened, coherent.closed, coherent.suspended⟩

theorem of_reachable (reached : cpuSystem.Reachable s) : Coherent s := by
  apply System.Reachable.invariant _ _ reached
  · rintro state rfl
    exact init
  · intro state event next' coherent steps
    exact coherent.step steps

end Coherent

/-- What the running context and those it has interrupted do next. -/
def points (s : Cpu) : List Point :=
  s.point :: s.interrupted.map InterruptFrame.point

theorem Coherent.suspended_not_critical {s : Cpu} (coherent : Coherent s) :
    (s.interrupted.map InterruptFrame.point).countP Point.critical = 0 := by
  rw [List.countP_eq_zero]
  intro point member
  rcases List.mem_map.mp member with ⟨frame, isFrame, rfl⟩
  rw [Point.not_critical_of_interruptible (coherent.suspended frame isFrame).2]
  exact Bool.false_ne_true

end Cpu

/-- In every reachable state at most one context uses the heap, and the interrupt
flag is clear while one does. -/
theorem heap_exclusive {s : Cpu} (reached : cpuSystem.Reachable s) :
    s.points.countP Point.critical ≤ 1 ∧
      (∀ point ∈ s.points, point.critical = true → s.interruptFlag = false) := by
  have coherent := Cpu.Coherent.of_reachable reached
  have below := coherent.suspended_not_critical
  constructor
  · rw [Cpu.points, List.countP_cons, below]
    split_ifs <;> decide
  · intro point member critical
    rcases List.mem_cons.mp member with rfl | isSuspended
    · cases isFlag : s.interruptFlag with
      | false => rfl
      | true =>
          rw [Point.not_critical_of_interruptible (coherent.opened isFlag).1] at critical
          cases critical
    · rw [List.countP_eq_zero] at below
      exact absurd critical (below point isSuspended)

/-- The mainline has been interrupted between `sti` and the store that follows it, and
the handler holds the lock. -/
theorem heap_exclusive_window :
    ∃ s : Cpu, s.points = [.held, .enableStore true true] ∧
      s.points.countP Point.critical ≤ 1 ∧
        (∀ point ∈ s.points, point.critical = true → s.interruptFlag = false) :=
  ⟨⟨⟨false, false, true⟩, .held, [⟨.enableStore true true, true⟩]⟩, rfl,
    heap_exclusive (Cpu.reachable_run (System.Reachable.init rfl)
      (show Cpu.run _ [.idtInit, .lock, .next, .next, .unlock, .next, .next, .next, .irq, .lock,
        .next, .next] = _ from rfl))⟩

end Osserver
