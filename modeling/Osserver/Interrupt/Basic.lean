import Osserver.Lib.Transition
import Mathlib.Data.List.Basic
import Mathlib.Tactic.SplitIfs

/-!
# Interrupts and the lock of the heap

The model of `idt_int_disable` and `idt_int_enable` of `i386/pc/idt.c`, which
`kmem_liballoc_lock` and `kmem_liballoc_unlock` consist of, and of the contexts
that run them: the mainline, and the handlers that have interrupted it and each
other. An interrupt may come between any two primitive steps while the interrupt
flag is set. The handlers are entered through interrupt gates, which save the
flag and clear it, and they end with `iret`, which restores it.

Between the steps of these two functions a context does other things: what it
does with the heap while it holds the lock, and everything outside.
-/

namespace Osserver

open Transition

/-- The interrupt flag of the processor, and the variables of `idt.c`. -/
structure InterruptFlags where
  interruptFlag : Bool
  idtInterruptsEnabled : Bool
  idtSetup : Bool
  deriving DecidableEq

/-- `idt_int_disable`, when nothing comes between. -/
def idtIntDisable (s : InterruptFlags) : InterruptFlags :=
  { s with
    interruptFlag := if s.idtInterruptsEnabled then false else s.interruptFlag
    idtInterruptsEnabled := false }

/-- `idt_int_enable`, when nothing comes between. -/
def idtIntEnable (s : InterruptFlags) : InterruptFlags :=
  if !s.idtSetup then s
  else
    { s with
      interruptFlag := if !s.idtInterruptsEnabled then true else s.interruptFlag
      idtInterruptsEnabled := true }

def kmemLiballocLock (s : InterruptFlags) : InterruptFlags :=
  idtIntDisable s

def kmemLiballocUnlock (s : InterruptFlags) : InterruptFlags :=
  idtIntEnable s

/-- What a context does next. The points of `idt_int_enable` say whether it is
called by `kmem_liballoc_unlock`, and the last one whether `sti` has been executed. -/
inductive Point where
  | outside
  | disableTest
  | disableCli
  | disableStore
  | held
  | enableSetup (unlocks : Bool)
  | enableTest (unlocks : Bool)
  | enableSti (unlocks : Bool)
  | enableStore (unlocks didSti : Bool)
  deriving DecidableEq

/-- An interrupted context: what it does next, and its saved interrupt flag. -/
structure InterruptFrame where
  point : Point
  interruptFlag : Bool
  deriving DecidableEq

/-- The processor, with the running context and those it has interrupted, the
mainline last. -/
structure Cpu extends InterruptFlags where
  point : Point
  interrupted : List InterruptFrame
  deriving DecidableEq

/-- What happens next. -/
inductive CpuEvent where
  | lock
  | unlock
  | intEnable
  | idtInit
  | next
  | irq
  | iret
  deriving DecidableEq

/-- The next step of `idt_int_disable` or `idt_int_enable`. -/
def Cpu.next (s : Cpu) : Option Cpu :=
  match s.point with
  | .outside => none
  | .disableTest =>
      some { s with point := if s.idtInterruptsEnabled then .disableCli else .disableStore }
  | .disableCli => some { s with interruptFlag := false, point := .disableStore }
  | .disableStore => some { s with idtInterruptsEnabled := false, point := .held }
  | .held => none
  | .enableSetup unlocks =>
      some { s with point := if !s.idtSetup then .outside else .enableTest unlocks }
  | .enableTest unlocks =>
      some { s with
        point := if !s.idtInterruptsEnabled then .enableSti unlocks
          else .enableStore unlocks false }
  | .enableSti unlocks => some { s with interruptFlag := true, point := .enableStore unlocks true }
  | .enableStore _ _ => some { s with idtInterruptsEnabled := true, point := .outside }

/-- What an event does to the processor, if it can happen. Only the mainline comes
to `idt_init` and to the call of `idt_int_enable` in `kernel_main`. -/
def Cpu.step (s : Cpu) : CpuEvent → Option Cpu
  | .lock => if s.point = .outside then some { s with point := .disableTest } else none
  | .unlock => if s.point = .held then some { s with point := .enableSetup true } else none
  | .intEnable =>
      if s.point = .outside ∧ s.interrupted = [] then some { s with point := .enableSetup false }
      else none
  | .idtInit =>
      if s.point = .outside ∧ s.interrupted = [] then some { s with idtSetup := true } else none
  | .next => s.next
  | .irq =>
      if s.interruptFlag then
        some { s with
          interruptFlag := false
          point := .outside
          interrupted := ⟨s.point, s.interruptFlag⟩ :: s.interrupted }
      else none
  | .iret =>
      match s.interrupted with
      | [] => none
      | frame :: interrupted =>
          if s.point = .outside then
            some { s with
              interruptFlag := frame.interruptFlag
              point := frame.point
              interrupted := interrupted }
          else none

section Steps

variable {s s' : Cpu}

theorem Cpu.step_lock (steps : s.step .lock = some s') :
    s.point = .outside ∧ s' = { s with point := .disableTest } := by
  simp only [Cpu.step] at steps
  split_ifs at steps with outside
  cases steps
  exact ⟨outside, rfl⟩

theorem Cpu.step_unlock (steps : s.step .unlock = some s') :
    s.point = .held ∧ s' = { s with point := .enableSetup true } := by
  simp only [Cpu.step] at steps
  split_ifs at steps with held
  cases steps
  exact ⟨held, rfl⟩

theorem Cpu.step_intEnable (steps : s.step .intEnable = some s') :
    s.point = .outside ∧ s.interrupted = [] ∧ s' = { s with point := .enableSetup false } := by
  simp only [Cpu.step] at steps
  split_ifs at steps with inMainline
  cases steps
  exact ⟨inMainline.1, inMainline.2, rfl⟩

theorem Cpu.step_idtInit (steps : s.step .idtInit = some s') :
    s.point = .outside ∧ s.interrupted = [] ∧ s' = { s with idtSetup := true } := by
  simp only [Cpu.step] at steps
  split_ifs at steps with inMainline
  cases steps
  exact ⟨inMainline.1, inMainline.2, rfl⟩

theorem Cpu.step_irq (steps : s.step .irq = some s') :
    s.interruptFlag = true ∧
      s' = { s with
        interruptFlag := false
        point := .outside
        interrupted := ⟨s.point, s.interruptFlag⟩ :: s.interrupted } := by
  simp only [Cpu.step] at steps
  split_ifs at steps with set
  cases steps
  exact ⟨set, rfl⟩

theorem Cpu.step_iret (steps : s.step .iret = some s') :
    ∃ frame interrupted, s.interrupted = frame :: interrupted ∧ s.point = .outside ∧
      s' = { s with
        interruptFlag := frame.interruptFlag
        point := frame.point
        interrupted := interrupted } := by
  simp only [Cpu.step] at steps
  split at steps
  · cases steps
  · rename_i frame interrupted isInterrupted
    split_ifs at steps with outside
    cases steps
    exact ⟨frame, interrupted, isInterrupted, outside, rfl⟩

/-- The steps of the two functions change neither the descriptors nor other contexts. -/
theorem Cpu.next_frame (steps : s.next = some s') :
    s'.idtSetup = s.idtSetup ∧ s'.interrupted = s.interrupted := by
  rcases s with ⟨⟨flag, enabled, setup⟩, point, interrupted⟩
  cases point with
  | outside | held => cases steps
  | disableTest | disableCli | disableStore | enableSetup | enableTest | enableSti | enableStore =>
      cases steps
      exact ⟨rfl, rfl⟩

end Steps

/-- One event after the other. -/
def Cpu.run : Cpu → List CpuEvent → Option Cpu
  | s, [] => some s
  | s, event :: events =>
      match s.step event with
      | none => none
      | some s' => s'.run events

/-- The processor from boot on: interrupts are off, and nothing is set up. -/
def cpuSystem : System Cpu CpuEvent where
  Init s := s = ⟨⟨false, false, false⟩, .outside, []⟩
  Step s event s' := s.step event = some s'

theorem Cpu.reachable_run {s s' : Cpu} {events : List CpuEvent} (reached : cpuSystem.Reachable s)
    (runs : s.run events = some s') : cpuSystem.Reachable s' := by
  induction events generalizing s with
  | nil =>
      cases runs
      exact reached
  | cons event events ih =>
      simp only [Cpu.run] at runs
      split at runs
      · cases runs
      · rename_i steps
        exact ih (reached.step steps) runs

end Osserver
