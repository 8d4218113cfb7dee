import Osserver.Interrupt.Exclusion

/-!
# The interrupt flag behind a heap call

`kmem_liballoc_unlock` turns interrupts on whenever the descriptors are set up,
whether or not `kmem_liballoc_lock` has turned them off: the flag behind a heap
call is `idt_setup`. A call restores the flag exactly when that is what the flag
was, so not between `idt_init` and the call of `idt_int_enable` in
`kernel_main`, and not in a handler that has not made a heap call before.
-/

namespace Osserver

open Transition

namespace Cpu

/-- The context above `frames` has not returned from its heap call: it runs
somewhere in it, or has been interrupted. -/
def InCall (frames : List InterruptFrame) (s : Cpu) : Prop :=
  frames <:+ s.interrupted ∧ (s.interrupted = frames → s.point ≠ .outside)

/-- A heap call of the running context, from before `kmem_liballoc_lock` to behind
`kmem_liballoc_unlock`, with the handlers that interrupt it. -/
def HeapCall (s s' : Cpu) : Prop :=
  ∃ first last, s.step .lock = some first ∧
    cpuSystem.Path (InCall s.interrupted) first last ∧
      last.step .next = some s' ∧ s'.point = .outside ∧ s'.interrupted = s.interrupted

/-- A heap call restores the interrupt flag. -/
def Restorable (s : Cpu) : Prop :=
  s.idtSetup = false ∨ s.interruptFlag = true

/-- Heap calls are made only where they restore the interrupt flag. -/
def CallsRestore (s : Cpu) (event : CpuEvent) : Prop :=
  event = .lock → s.Restorable

theorem InCall.of_point {frames : List InterruptFrame} {s : Cpu} (sameFrames : s.interrupted = frames)
    (inside : s.point ≠ .outside) : InCall frames s := by
  refine ⟨?_, fun _ => inside⟩
  cases sameFrames
  exact List.suffix_refl s.interrupted

section Steps

variable {s s' : Cpu} {frames : List InterruptFrame} {event : CpuEvent}

/-- Only `idt_init`, in the mainline, changes `idt_setup`. -/
theorem step_setup (steps : s.step event = some s') :
    s'.idtSetup = s.idtSetup ∨ (s.point = .outside ∧ s.interrupted = []) := by
  cases event with
  | next => exact Or.inl (next_frame steps).1
  | idtInit =>
      rcases step_idtInit steps with ⟨outside, isMainline, _⟩
      exact Or.inr ⟨outside, isMainline⟩
  | lock =>
      rcases step_lock steps with ⟨_, rfl⟩
      exact Or.inl rfl
  | unlock =>
      rcases step_unlock steps with ⟨_, rfl⟩
      exact Or.inl rfl
  | intEnable =>
      rcases step_intEnable steps with ⟨_, _, rfl⟩
      exact Or.inl rfl
  | irq =>
      rcases step_irq steps with ⟨_, rfl⟩
      exact Or.inl rfl
  | iret =>
      rcases step_iret steps with ⟨_, _, _, _, rfl⟩
      exact Or.inl rfl

theorem path_setup (path : cpuSystem.Path (InCall frames) s s') : s'.idtSetup = s.idtSetup := by
  apply @System.Path.invariant _ _ _ _ _ _ (fun state => state.idtSetup = s.idtSetup) path rfl
  intro state event next' same inCall steps
  rcases step_setup steps with kept | ⟨outside, isMainline⟩
  · rw [kept]
    exact same
  · rcases inCall with ⟨below, inside⟩
    rw [isMainline, List.suffix_nil] at below
    rw [below] at inside
    exact absurd outside (inside isMainline)

/-- Whoever returns from `idt_int_enable` finds the interrupt flag as `idt_setup` is. -/
theorem Coherent.flag_of_return (coherent : Coherent s) (steps : s.next = some s')
    (returned : s'.point = .outside) : s'.interruptFlag = s'.idtSetup := by
  rcases s with ⟨⟨flag, enabled, setup⟩, point, interrupted⟩
  cases point with
  | outside | held => cases steps
  | disableCli | disableStore | enableSti =>
      cases steps
      cases returned
  | disableTest | enableTest =>
      cases steps
      cases enabled
      · cases returned
      · cases returned
  | enableSetup unlocks =>
      cases steps
      cases setup with
      | true => cases returned
      | false => exact (coherent.setup rfl).1
  | enableStore unlocks didSti =>
      cases steps
      have isSetup := coherent.setup_of_enabling rfl
      cases flag with
      | true => exact isSetup.symm
      | false => exact (coherent.closed rfl).elim

end Steps

theorem HeapCall.flag {s s' : Cpu} (reached : cpuSystem.Reachable s) (call : HeapCall s s') :
    s'.interruptFlag = s.idtSetup := by
  rcases call with ⟨first, last, locks, path, unlocks, returned, _⟩
  have reachedFirst : cpuSystem.Reachable first := reached.step locks
  have coherent := Coherent.of_reachable (path.reachable reachedFirst)
  rcases step_lock locks with ⟨_, rfl⟩
  rw [coherent.flag_of_return unlocks returned, (next_frame unlocks).1, path_setup path]

theorem HeapCall.restores_iff {s s' : Cpu} (reached : cpuSystem.Reachable s)
    (call : HeapCall s s') : s'.interruptFlag = s.interruptFlag ↔ s.Restorable := by
  rw [call.flag reached, Restorable]
  have coherent := Coherent.of_reachable reached
  cases isSetup : s.idtSetup with
  | false =>
      rw [(coherent.setup isSetup).1]
      exact iff_of_true rfl (Or.inl rfl)
  | true =>
      constructor
      · intro restored
        exact Or.inr restored.symm
      · rintro (notSetup | set)
        · cases notSetup
        · exact set.symm

section Undisturbed

variable {frames : List InterruptFrame}

theorem path_next {s t u : Cpu} (path : cpuSystem.Path (InCall frames) s t)
    (steps : t.next = some u) (sameFrames : u.interrupted = frames) (inside : u.point ≠ .outside) :
    cpuSystem.Path (InCall frames) s u :=
  path.step (show cpuSystem.Step t .next u from steps) (.of_point sameFrames inside)

/-- The steps of `kmem_liballoc_lock`, when nothing comes between, do what
`idt_int_disable` does. -/
theorem path_lock {s : Cpu} {flags : InterruptFlags}
    (path : cpuSystem.Path (InCall frames) s ⟨flags, .disableTest, frames⟩) :
    cpuSystem.Path (InCall frames) s ⟨kmemLiballocLock flags, .held, frames⟩ := by
  rcases flags with ⟨flag, enabled, setup⟩
  cases enabled with
  | true =>
      have tested : cpuSystem.Path (InCall frames) s ⟨⟨flag, true, setup⟩, .disableCli, frames⟩ :=
        path_next path rfl rfl nofun
      have disabled : cpuSystem.Path (InCall frames) s
          ⟨⟨false, true, setup⟩, .disableStore, frames⟩ := path_next tested rfl rfl nofun
      exact path_next disabled rfl rfl nofun
  | false =>
      have tested : cpuSystem.Path (InCall frames) s
          ⟨⟨flag, false, setup⟩, .disableStore, frames⟩ := path_next path rfl rfl nofun
      exact path_next tested rfl rfl nofun

/-- The steps of `kmem_liballoc_unlock`, when nothing comes between, do what
`idt_int_enable` does. -/
theorem path_unlock {s : Cpu} {flags : InterruptFlags}
    (path : cpuSystem.Path (InCall frames) s ⟨flags, .enableSetup true, frames⟩) :
    ∃ last, cpuSystem.Path (InCall frames) s last ∧
      last.next = some ⟨kmemLiballocUnlock flags, .outside, frames⟩ := by
  rcases flags with ⟨flag, enabled, setup⟩
  cases setup with
  | false => exact ⟨_, path, rfl⟩
  | true =>
      have isSetup : cpuSystem.Path (InCall frames) s
          ⟨⟨flag, enabled, true⟩, .enableTest true, frames⟩ := path_next path rfl rfl nofun
      cases enabled with
      | true =>
          have tested : cpuSystem.Path (InCall frames) s
              ⟨⟨flag, true, true⟩, .enableStore true false, frames⟩ :=
            path_next isSetup rfl rfl nofun
          exact ⟨_, tested, rfl⟩
      | false =>
          have tested : cpuSystem.Path (InCall frames) s
              ⟨⟨flag, false, true⟩, .enableSti true, frames⟩ := path_next isSetup rfl rfl nofun
          have didSti : cpuSystem.Path (InCall frames) s
              ⟨⟨true, false, true⟩, .enableStore true true, frames⟩ :=
            path_next tested rfl rfl nofun
          exact ⟨_, didSti, rfl⟩

theorem heapCall_undisturbed (flags : InterruptFlags) :
    HeapCall ⟨flags, .outside, frames⟩
      ⟨kmemLiballocUnlock (kmemLiballocLock flags), .outside, frames⟩ := by
  have begins : cpuSystem.Path (InCall frames) ⟨flags, .disableTest, frames⟩
      ⟨flags, .disableTest, frames⟩ := .refl (.of_point rfl nofun)
  have unlocks : cpuSystem.Path (InCall frames) ⟨flags, .disableTest, frames⟩
      ⟨kmemLiballocLock flags, .enableSetup true, frames⟩ :=
    (path_lock begins).step (show cpuSystem.Step _ .unlock _ from rfl) (.of_point rfl nofun)
  rcases path_unlock unlocks with ⟨last, path, returns⟩
  exact ⟨_, last, rfl, path, returns, rfl, rfl⟩

end Undisturbed

section Runs

variable {s s' : Cpu} {event : CpuEvent}

/-- There is at most one handler, and it makes no heap call and is not interrupted. -/
def HandlerQuiet (s : Cpu) : Prop :=
  s.interrupted = [] ∨
    ∃ frame, s.interrupted = [frame] ∧ s.interruptFlag = false ∧ s.point = .outside

theorem HandlerQuiet.step (coherent : Coherent s) (quiet : HandlerQuiet s)
    (permitted : CallsRestore s event) (steps : s.step event = some s') : HandlerQuiet s' := by
  rcases quiet with isMainline | ⟨frame, isHandler, clear, outside⟩
  · cases event with
    | irq =>
        rcases step_irq steps with ⟨_, rfl⟩
        exact Or.inr ⟨_, by rw [isMainline], rfl, rfl⟩
    | iret =>
        rcases step_iret steps with ⟨frame, interrupted, isHandler, _⟩
        rw [isMainline] at isHandler
        cases isHandler
    | next => exact Or.inl ((next_frame steps).2.trans isMainline)
    | lock =>
        rcases step_lock steps with ⟨_, rfl⟩
        exact Or.inl isMainline
    | unlock =>
        rcases step_unlock steps with ⟨_, rfl⟩
        exact Or.inl isMainline
    | intEnable =>
        rcases step_intEnable steps with ⟨_, _, rfl⟩
        exact Or.inl isMainline
    | idtInit =>
        rcases step_idtInit steps with ⟨_, _, rfl⟩
        exact Or.inl isMainline
  · cases event with
    | lock =>
        -- Behind `idt_init` and with the flag clear, no heap call is permitted.
        rcases permitted rfl with notSetup | set
        · rw [(coherent.setup notSetup).2.1] at isHandler
          cases isHandler
        · rw [clear] at set
          cases set
    | iret =>
        rcases step_iret steps with ⟨_, _, isInterrupted, _, rfl⟩
        rw [isHandler] at isInterrupted
        cases isInterrupted
        exact Or.inl rfl
    | next =>
        simp only [Cpu.step, Cpu.next, outside] at steps
        cases steps
    | unlock | intEnable | idtInit | irq => simp [Cpu.step, outside, isHandler, clear] at steps

/-- In a run whose heap calls restore the interrupt flag, a handler runs with
interrupts off until its `iret`. -/
theorem handlerQuiet_of_reachable (reached : cpuSystem.ReachableWhen CallsRestore s) :
    HandlerQuiet s := by
  induction reached with
  | init starts =>
      cases starts
      exact Or.inl rfl
  | step before permitted steps quiet =>
      exact quiet.step (Coherent.of_reachable before.reachable) permitted steps

/-- Interrupts are off, and once the descriptors are set up no heap call is made. -/
structure Off (s : Cpu) : Prop where
  clear : s.interruptFlag = false
  isMainline : s.interrupted = []
  outside : s.idtSetup = true → s.point = .outside

/-- A step of a function does not turn interrupts on before the descriptors are set up. -/
theorem next_flag_of_not_setup (coherent : Coherent s) (notSetup : s.idtSetup = false)
    (steps : s.next = some s') : s'.interruptFlag = false := by
  rcases s with ⟨⟨flag, enabled, setup⟩, point, interrupted⟩
  rcases coherent.setup notSetup with ⟨clear, _, notEnabling⟩
  cases clear
  cases point with
  | outside | held => cases steps
  | disableTest | disableCli | disableStore | enableSetup | enableTest | enableStore =>
      cases steps
      rfl
  | enableSti => cases notEnabling

theorem Off.step (coherent : Coherent s) (off : Off s) (permitted : CallsRestore s event)
    (notEnable : event ≠ .intEnable) (steps : s.step event = some s') : Off s' := by
  rcases off with ⟨clear, isMainline, outside⟩
  cases event with
  | intEnable => exact absurd rfl notEnable
  | irq =>
      rcases step_irq steps with ⟨set, _⟩
      rw [clear] at set
      cases set
  | iret =>
      rcases step_iret steps with ⟨_, _, isHandler, _⟩
      rw [isMainline] at isHandler
      cases isHandler
  | idtInit =>
      rcases step_idtInit steps with ⟨atPoint, _, rfl⟩
      exact ⟨clear, isMainline, fun _ => atPoint⟩
  | lock =>
      rcases step_lock steps with ⟨_, rfl⟩
      refine ⟨clear, isMainline, ?_⟩
      intro isSetup
      -- No heap call is permitted here once the descriptors are set up.
      rcases permitted rfl with notSetup | set
      · rw [notSetup] at isSetup
        cases isSetup
      · rw [clear] at set
        cases set
  | unlock =>
      rcases step_unlock steps with ⟨held, rfl⟩
      refine ⟨clear, isMainline, ?_⟩
      intro isSetup
      rw [outside isSetup] at held
      cases held
  | next =>
      have frame := next_frame steps
      cases isSetup : s.idtSetup with
      | true =>
          simp only [Cpu.step, Cpu.next, outside isSetup] at steps
          cases steps
      | false =>
          refine ⟨next_flag_of_not_setup coherent isSetup steps, frame.2.trans isMainline, ?_⟩
          rw [frame.1, isSetup]
          rintro ⟨⟩

/-- In a run whose heap calls restore the interrupt flag, interrupts are off until
the mainline calls `idt_int_enable` itself. -/
theorem off_of_reachable (reached : cpuSystem.ReachableWhen
    (fun s event => CallsRestore s event ∧ event ≠ .intEnable) s) : Off s := by
  induction reached with
  | init starts =>
      cases starts
      exact ⟨rfl, rfl, nofun⟩
  | step before permitted steps off =>
      exact off.step (Coherent.of_reachable before.reachable) permitted.1 permitted.2 steps

end Runs

end Cpu

open Cpu

/-- A heap call restores the interrupt flag exactly when the descriptors are not set
up or the flag is set. In a run whose heap calls are all of this kind, handlers run
with interrupts off, and so does the kernel until it enables them itself. -/
theorem heap_call_restores_iff {s : Cpu} (reached : cpuSystem.Reachable s) :
    (∀ s', HeapCall s s' → (s'.interruptFlag = s.interruptFlag ↔ s.Restorable)) ∧
    (cpuSystem.ReachableWhen CallsRestore s → s.interrupted ≠ [] → s.interruptFlag = false) ∧
    (cpuSystem.ReachableWhen (fun s event => CallsRestore s event ∧ event ≠ .intEnable) s →
      s.interruptFlag = false) := by
  refine ⟨fun s' call => call.restores_iff reached, ?_, ?_⟩
  · intro restoring inHandler
    rcases handlerQuiet_of_reachable restoring with isMainline | ⟨frame, _, clear, _⟩
    · exact absurd isMainline inHandler
    · exact clear
  · intro restoring
    exact (off_of_reachable restoring).clear

/-- After `idt_int_enable` in `kernel_main`, a heap call of the mainline restores the flag. -/
theorem heap_call_restores_iff_mainline :
    ∃ s s' : Cpu, s.interruptFlag = true ∧ HeapCall s s' ∧ s'.interruptFlag = s.interruptFlag := by
  have reached : cpuSystem.Reachable ⟨⟨true, true, true⟩, .outside, []⟩ :=
    reachable_run (System.Reachable.init rfl)
      (show Cpu.run _ [.idtInit, .intEnable, .next, .next, .next, .next] = _ from rfl)
  have call := @heapCall_undisturbed [] ⟨true, true, true⟩
  exact ⟨_, _, rfl, call, ((heap_call_restores_iff reached).1 _ call).mpr (Or.inr rfl)⟩

/-- The first `klog` behind `idt_init` turns interrupts on, and so does one in a
handler that has interrupted the mainline. -/
theorem heap_call_enables :
    (∃ s s' : Cpu, cpuSystem.Reachable s ∧ s.interrupted = [] ∧ s.interruptFlag = false ∧
      HeapCall s s' ∧ s'.interruptFlag = true) ∧
    (∃ s s' : Cpu, cpuSystem.Reachable s ∧ s.interrupted ≠ [] ∧ s.interruptFlag = false ∧
      HeapCall s s' ∧ s'.interruptFlag = true) := by
  have setup : cpuSystem.Reachable ⟨⟨false, false, true⟩, .outside, []⟩ :=
    reachable_run (System.Reachable.init rfl) (show Cpu.run _ [.idtInit] = _ from rfl)
  have handler : cpuSystem.Reachable
      ⟨⟨false, true, true⟩, .outside, [⟨.outside, true⟩]⟩ :=
    reachable_run setup
      (show Cpu.run _ [.intEnable, .next, .next, .next, .next, .irq] = _ from rfl)
  exact ⟨⟨_, _, setup, rfl, rfl, heapCall_undisturbed _, rfl⟩,
    ⟨_, _, handler, nofun, rfl, heapCall_undisturbed _, rfl⟩⟩

end Osserver
