import Osserver.Ps2.Waits
import Osserver.Lib.Transition
import Mathlib.Tactic.SplitIfs

/-!
# How long the waits take

The waits of the two ports go on beside each other, and ticks of the timer come between any
two looks at a timeout. The timer lowers the timeout of the first port by five when it is
not zero, and by five more when the timeout of the second is not zero; that one is lowered
nowhere. So as long as no tick comes while the timeout of the second port is not zero, the
timeouts count down as they should and a wait has at most four ticks; the first tick that
does come then miscounts. Every wait of the driver is one of these waits, and those for the
first port end while the timeout of the second is zero.
-/

namespace Osserver

open Loop Outcome Transition

/-- The functions that wait. -/
inductive Ps2Call where
  | sendCommand
  | sendDataCommand
  | sendData
  | getResponse
  deriving DecidableEq

/-- What the function waits for the end of. -/
def Ps2Call.busy : Ps2Call → UInt8 → Bool
  | .sendCommand | .sendDataCommand | .sendData => inputFull
  | .getResponse => outputEmpty

/-- The timeouts when the wait of the function begins. -/
def Ps2Call.timeouts (call : Ps2Call) (port : Ps2Port) (timeouts : Ps2Port → UInt32) :
    Ps2Port → UInt32 :=
  match call with
  | .sendCommand | .sendDataCommand | .getResponse => Function.update timeouts port portTimeout
  | .sendData => timeouts

/-- A function in its loop, and how many ticks have come since it is there. -/
structure Ps2Waiting where
  call : Ps2Call
  ticks : ℕ
  deriving DecidableEq

/-- The timeouts, and what waits at each port. -/
structure Ps2Waits where
  timeouts : Ps2Port → UInt32
  waiting : Ps2Port → Option Ps2Waiting

/-- What happens: a tick of the timer; the call of a function; and in the loop of a function the
status register is read and the timeout looked at. -/
inductive Ps2WaitEvent where
  | tick
  | call (port : Ps2Port) (call : Ps2Call)
  | look (port : Ps2Port) (status : UInt8)

namespace Ps2Waits

/-- The functions are called one after another for each port. -/
def step (s : Ps2Waits) : Ps2WaitEvent → Option Ps2Waits
  | .tick =>
      some
        { timeouts := controllerTimeoutTimer s.timeouts
          waiting := fun port =>
            (s.waiting port).map fun waiting => { waiting with ticks := waiting.ticks + 1 } }
  | .call port call =>
      match s.waiting port with
      | some _ => none
      | none =>
          some
            { timeouts := call.timeouts port s.timeouts
              waiting := Function.update s.waiting port (some ⟨call, 0⟩) }
  | .look port status =>
      match s.waiting port with
      | none => none
      | some waiting =>
          if waiting.call.busy status ∧ s.timeouts port > 0 then some s
          else some { s with waiting := Function.update s.waiting port none }

/-- Every timeout that is not zero is lowered by five in a tick. -/
def CountsDown (s : Ps2Waits) (event : Ps2WaitEvent) (next : Ps2Waits) : Prop :=
  event = .tick → ∀ port,
    next.timeouts port = if s.timeouts port = 0 then 0 else s.timeouts port - 5

/-- No tick comes while the timeout of the second port is not zero. -/
def Quiet (s : Ps2Waits) (event : Ps2WaitEvent) : Prop :=
  event = .tick → s.timeouts .second = 0

/-- The timeouts are multiples of five up to twenty, and five less for each tick that a wait
has had. -/
structure Bounded (s : Ps2Waits) : Prop where
  fives : ∀ port, (s.timeouts port).toNat % 5 = 0
  most : ∀ port, (s.timeouts port).toNat ≤ 20
  waits : ∀ port waiting, s.waiting port = some waiting →
    (s.timeouts port).toNat ≤ 20 - 5 * waiting.ticks

end Ps2Waits

/-- The waits from the start on, when none has begun. -/
def ps2WaitSystem : System Ps2Waits Ps2WaitEvent where
  Init s := (∀ port, s.timeouts port = 0) ∧ ∀ port, s.waiting port = none
  Step s event next := s.step event = some next

section Steps

variable {s next : Ps2Waits} {event : Ps2WaitEvent} {port : Ps2Port} {timeouts : Ps2Port → UInt32}

theorem timer_second : controllerTimeoutTimer timeouts .second = timeouts .second := by
  rw [controllerTimeoutTimer]
  split_ifs
  · rfl
  · rfl
  · rfl
  · rfl

/-- The timer counts down as it should when the timeout of the second port is zero. -/
theorem timer_quiet (quiet : timeouts .second = 0) (port : Ps2Port) :
    controllerTimeoutTimer timeouts port =
      if timeouts port = 0 then 0 else timeouts port - 5 := by
  cases port with
  | second => rw [timer_second, quiet, if_pos rfl]
  | first =>
      have notSecond : ¬timeouts .second > 0 := by
        rw [quiet]
        decide
      by_cases zero : timeouts .first = 0
      · simp [controllerTimeoutTimer, quiet, zero]
      · have positive : timeouts .first > 0 := UInt32.pos_iff_ne_zero.mpr zero
        simp [controllerTimeoutTimer, quiet, zero, positive]

/-- Only when it is zero is it right that it stays. -/
theorem countsDown_iff (returns : s.step event = some next) :
    s.CountsDown event next ↔ s.Quiet event := by
  constructor
  · rintro counts rfl
    cases returns
    have second := counts rfl .second
    simp only [timer_second] at second
    split_ifs at second with zero
    · exact zero
    · have differ := congrArg UInt32.toNat second
      have five : (5 : UInt32).toNat = 5 := rfl
      have small := (s.timeouts .second).toNat_lt
      rw [UInt32.toNat_sub, five] at differ
      omega
  · rintro quiet rfl
    cases returns
    exact timer_quiet (quiet rfl)

theorem lowered_toNat {timeout : UInt32} (fives : timeout.toNat % 5 = 0) :
    (if timeout = 0 then 0 else timeout - 5).toNat = timeout.toNat - 5 := by
  by_cases zero : timeout = 0
  · rw [if_pos zero, zero]
    rfl
  · have five : (5 : UInt32).toNat = 5 := rfl
    have notZero : timeout.toNat ≠ 0 := fun same => zero (UInt32.toNat_inj.mp same)
    rw [if_neg zero, UInt32.toNat_sub_of_le, five]
    rw [UInt32.le_iff_toNat_le, five]
    omega

/-- The call of a function changes the timeout of its port, and sets it to the whole. -/
theorem call_timeouts {call : Ps2Call} {other : Ps2Port} :
    call.timeouts port timeouts other = timeouts other ∨
      other = port ∧ call.timeouts port timeouts other = portTimeout := by
  by_cases here : other = port
  · subst here
    cases call with
    | sendCommand => exact Or.inr ⟨rfl, Function.update_self ..⟩
    | sendDataCommand => exact Or.inr ⟨rfl, Function.update_self ..⟩
    | sendData => exact Or.inl rfl
    | getResponse => exact Or.inr ⟨rfl, Function.update_self ..⟩
  · left
    cases call with
    | sendCommand => exact Function.update_of_ne here ..
    | sendDataCommand => exact Function.update_of_ne here ..
    | sendData => rfl
    | getResponse => exact Function.update_of_ne here ..

namespace Ps2Waits.Bounded

theorem init (starts : ps2WaitSystem.Init s) : s.Bounded := by
  rcases starts with ⟨zeros, noWaits⟩
  refine ⟨?_, ?_, ?_⟩
  · intro port
    rw [zeros]
    rfl
  · intro port
    rw [zeros]
    exact Nat.zero_le _
  · intro port waiting isWaiting
    rw [noWaits] at isWaiting
    cases isWaiting

theorem tick (bounded : s.Bounded) (quiet : s.timeouts .second = 0)
    (returns : s.step .tick = some next) : next.Bounded := by
  cases returns
  have lowered : ∀ port, (controllerTimeoutTimer s.timeouts port).toNat =
      (s.timeouts port).toNat - 5 := by
    intro port
    rw [timer_quiet quiet, lowered_toNat (bounded.fives port)]
  refine ⟨?_, ?_, ?_⟩
  · intro port
    have fives := bounded.fives port
    simp only [lowered]
    omega
  · intro port
    have most := bounded.most port
    simp only [lowered]
    omega
  · intro port waiting isWaiting
    rcases Option.map_eq_some_iff.mp isWaiting with ⟨before, wasWaiting, rfl⟩
    have waits := bounded.waits port before wasWaiting
    simp only [lowered]
    omega

theorem call {call : Ps2Call} (bounded : s.Bounded)
    (returns : s.step (.call port call) = some next) : next.Bounded := by
  simp only [Ps2Waits.step] at returns
  split at returns
  · cases returns
  cases returns
  have twenty : portTimeout.toNat = 20 := rfl
  have most : ∀ other, (call.timeouts port s.timeouts other).toNat ≤ 20 := by
    intro other
    rcases @call_timeouts port s.timeouts call other with same | ⟨_, started⟩
    · rw [same]
      exact bounded.most other
    · rw [started, twenty]
  refine ⟨?_, most, ?_⟩
  · intro other
    rcases @call_timeouts port s.timeouts call other with same | ⟨_, started⟩
    · simp only [same]
      exact bounded.fives other
    · simp only [started, twenty]
  · intro other waiting isWaiting
    by_cases here : other = port
    · subst here
      simp only [Function.update_self] at isWaiting
      cases isWaiting
      exact most other
    · rcases @call_timeouts port s.timeouts call other with same | ⟨isPort, _⟩
      · simp only [Function.update_of_ne here] at isWaiting
        simp only [same]
        exact bounded.waits other waiting isWaiting
      · exact absurd isPort here

theorem look {status : UInt8} (bounded : s.Bounded)
    (returns : s.step (.look port status) = some next) : next.Bounded := by
  simp only [Ps2Waits.step] at returns
  split at returns
  · cases returns
  split_ifs at returns
  · cases returns
    exact bounded
  · cases returns
    refine ⟨bounded.fives, bounded.most, ?_⟩
    intro other waiting isWaiting
    by_cases here : other = port
    · subst here
      simp only [Function.update_self] at isWaiting
      cases isWaiting
    · simp only [Function.update_of_ne here] at isWaiting
      exact bounded.waits other waiting isWaiting

theorem step (bounded : s.Bounded) (quiet : s.Quiet event) (returns : s.step event = some next) :
    next.Bounded := by
  cases event with
  | tick => exact bounded.tick (quiet rfl) returns
  | call port call => exact bounded.call returns
  | look port status => exact bounded.look returns

end Ps2Waits.Bounded

/-- A wait that has had four ticks ends when the timeout is looked at. -/
theorem look_ends {waiting : Ps2Waiting} (bounded : s.Bounded)
    (isWaiting : s.waiting port = some waiting) (ticks : 4 ≤ waiting.ticks) (status : UInt8) :
    s.step (.look port status) =
      some { s with waiting := Function.update s.waiting port none } := by
  have waits := bounded.waits port waiting isWaiting
  have past : ¬s.timeouts port > 0 := by
    intro positive
    have notZero := UInt32.lt_iff_toNat_lt.mp positive
    have zero : (0 : UInt32).toNat = 0 := rfl
    omega
  simp only [Ps2Waits.step, isWaiting, past, and_false, if_false]

end Steps

namespace Ps2Waits

/-- The functions that wait. -/
def calls (s : Ps2Waits) (port : Ps2Port) : Option Ps2Call :=
  (s.waiting port).map Ps2Waiting.call

/-- The waits come from the one state to the other. -/
abbrev LeadsTo (s next : Ps2Waits) : Prop :=
  ps2WaitSystem.Path (fun _ => True) s next

/-- The waits come to the timeouts, and nothing waits at the port there. -/
def ComesTo (s : Ps2Waits) (port : Ps2Port) (timeouts : Ps2Port → UInt32) : Prop :=
  ∃ next, s.LeadsTo next ∧ next.timeouts = timeouts ∧ next.waiting port = none

end Ps2Waits

section Loops

variable {readings : Ps2Readings} {fuel : ℕ} {s after : Ps2Driver} {port : Ps2Port}
  {start w : Ps2Waits} {call : Ps2Call} {sent : Bool} {output : Ps2Write}

theorem ticks_path (path : start.LeadsTo w) (count : ℕ) :
    ∃ next, start.LeadsTo next ∧ next.timeouts = controllerTimeoutTimer^[count] w.timeouts ∧
      next.calls = w.calls := by
  induction count with
  | zero => exact ⟨w, path, rfl, rfl⟩
  | succ count ih =>
      rcases ih with ⟨ticked, leads, sameTimeouts, sameCalls⟩
      have ticks : ps2WaitSystem.Step ticked .tick _ := rfl
      refine ⟨_, leads.step ticks trivial, ?_, ?_⟩
      · rw [Function.iterate_succ_apply', ← sameTimeouts]
      · rw [← sameCalls]
        funext port
        simp only [Ps2Waits.calls, Option.map_map]
        rfl

/-- The passes of a loop are looks, with the ticks that come in between. -/
theorem loop_path {inLoop : ℕ → Ps2Reading} {first : ℕ} {timeouts : Ps2Port → UInt32}
    (path : start.LeadsTo w) (waits : w.calls port = some call)
    (ends : run (waitPass inLoop call.busy port) fuel (first, w.timeouts) = some timeouts) :
    start.ComesTo port timeouts := by
  induction fuel generalizing first w with
  | zero => cases ends
  | succ fuel ih =>
      rcases ticks_path path (inLoop first).ticks with ⟨ticked, leads, sameTimeouts, sameCalls⟩
      have stillWaits : ticked.calls port = some call := by
        rw [sameCalls, waits]
      rcases Option.map_eq_some_iff.mp stillWaits with ⟨waiting, isWaiting, isCall⟩
      by_cases goesOn : call.busy (inLoop first).status ∧ ticked.timeouts port > 0
      · have again : waitPass inLoop call.busy port (first, w.timeouts) =
            .again (first + 1, ticked.timeouts) := by
          simp only [waitPass, ← sameTimeouts]
          rw [if_pos goesOn]
        have looks : ps2WaitSystem.Step ticked (.look port (inLoop first).status) ticked := by
          simp only [ps2WaitSystem, Ps2Waits.step, isWaiting, isCall]
          rw [if_pos goesOn]
        rw [run_again again] at ends
        exact ih (leads.step looks trivial) stillWaits ends
      · have done : waitPass inLoop call.busy port (first, w.timeouts) =
            .done ticked.timeouts := by
          simp only [waitPass, ← sameTimeouts]
          rw [if_neg goesOn]
        have looks : ps2WaitSystem.Step ticked (.look port (inLoop first).status)
            { ticked with waiting := Function.update ticked.waiting port none } := by
          simp only [ps2WaitSystem, Ps2Waits.step, isWaiting, isCall]
          rw [if_neg goesOn]
        rw [run_done done] at ends
        cases ends
        exact ⟨_, leads.step looks trivial, rfl, Function.update_self ..⟩

/-- A wait of the driver is one of the waits. -/
theorem wait_path {reading : Ps2Reading} (idle : w.waiting port = none)
    (begins : s.timeouts = call.timeouts port w.timeouts)
    (returns : s.wait readings fuel call.busy port = .ok (reading, after)) :
    w.ComesTo port after.timeouts := by
  rcases map_eq_ok.mp returns with ⟨timeouts, loops, result⟩
  cases result
  have calls : ps2WaitSystem.Step w (.call port call)
      { timeouts := s.timeouts
        waiting := Function.update w.waiting port (some ⟨call, 0⟩) } := by
    simp only [ps2WaitSystem, Ps2Waits.step, idle, begins]
  have waits : ({ timeouts := s.timeouts
                  waiting := Function.update w.waiting port (some ⟨call, 0⟩) } : Ps2Waits).calls
      port = some call := by
    simp only [Ps2Waits.calls, Function.update_self, Option.map_some]
  rcases loop_path (.step (.refl trivial) calls trivial) waits (loopResult_eq_ok.mp loops) with
    ⟨left, leads, sameTimeouts, isIdle⟩
  rcases ticks_path leads (readings.behind s.controller.waits).ticks with
    ⟨ticked, leadsOn, tickedTimeouts, sameCalls⟩
  refine ⟨ticked, leadsOn, ?_, ?_⟩
  · rw [tickedTimeouts, sameTimeouts]
  · have noCalls : ticked.calls port = none := by
      rw [sameCalls, Ps2Waits.calls, isIdle, Option.map_none]
    exact Option.map_eq_none_iff.mp noCalls

theorem write_path (busy : call.busy = inputFull) (idle : w.waiting port = none)
    (begins : s.timeouts = call.timeouts port w.timeouts)
    (returns : s.write readings fuel port output = .ok (sent, after)) :
    w.ComesTo port after.timeouts := by
  rcases bind_eq_ok.mp returns with ⟨⟨reading, waited⟩, waits, rest⟩
  have comes : w.ComesTo port waited.timeouts := by
    rw [← busy] at waits
    exact wait_path idle begins waits
  dsimp only at rest
  split_ifs at rest
  · cases rest
    exact comes
  · cases rest
    exact comes

theorem sendCommand_path {command : UInt8} (idle : w.waiting port = none)
    (same : w.timeouts = s.timeouts)
    (returns : s.sendCommand readings fuel command port = .ok (sent, after)) :
    w.ComesTo port after.timeouts := by
  refine @write_path _ _ _ _ port w .sendCommand _ _ rfl idle ?_ returns
  rw [same]
  rfl

theorem sendDataCommand_path {command data : UInt8} (idle : w.waiting port = none)
    (same : w.timeouts = s.timeouts)
    (returns : s.sendDataCommand readings fuel command data port = .ok (sent, after)) :
    w.ComesTo port after.timeouts := by
  refine @write_path _ _ _ _ port w .sendDataCommand _ _ rfl idle ?_ returns
  rw [same]
  rfl

theorem sendData_path {data : UInt8} (idle : w.waiting port = none)
    (same : w.timeouts = s.timeouts)
    (returns : s.sendData readings fuel data port = .ok (sent, after)) :
    w.ComesTo port after.timeouts :=
  @write_path _ _ _ _ port w .sendData _ _ rfl idle same.symm returns

theorem getResponse_path {value : UInt8} (idle : w.waiting port = none)
    (same : w.timeouts = s.timeouts)
    (returns : s.getResponse readings fuel port = .ok (value, after)) :
    w.ComesTo port after.timeouts := by
  rcases bind_eq_ok.mp returns with ⟨⟨reading, waited⟩, waits, rest⟩
  have comes : w.ComesTo port waited.timeouts := by
    refine @wait_path _ _ _ _ port w .getResponse _ idle ?_ waits
    rw [same]
    rfl
  dsimp only at rest
  split_ifs at rest
  · cases rest
    exact comes
  · cases rest
    exact comes

end Loops

section Ends

variable {readings : Ps2Readings} {fuel : ℕ} {s : Ps2Driver} {timeouts : Ps2Port → UInt32}
  {busy : UInt8 → Bool}

/-- The timeout of the first port may run: it is a multiple of five up to twenty, and that of the
second port is zero. -/
def FirstRuns (timeouts : Ps2Port → UInt32) : Prop :=
  timeouts .second = 0 ∧ (timeouts .first).toNat % 5 = 0 ∧ (timeouts .first).toNat ≤ 20

/-- How many ticks come in the passes of a wait, from the first of them on. -/
def ticksIn (inLoop : ℕ → Ps2Reading) (first : ℕ) : ℕ → ℕ
  | 0 => 0
  | passes + 1 => (inLoop first).ticks + ticksIn inLoop (first + 1) passes

/-- Four ticks come in the passes of each wait. -/
def Ps2Readings.Ticking (readings : Ps2Readings) (passes : ℕ) : Prop :=
  ∀ wait, 4 ≤ ticksIn (readings.inLoop wait) 0 passes

theorem firstRuns_ticks (runs : FirstRuns timeouts) (count : ℕ) :
    FirstRuns (controllerTimeoutTimer^[count] timeouts) ∧
      (controllerTimeoutTimer^[count] timeouts .first).toNat =
        (timeouts .first).toNat - 5 * count := by
  induction count with
  | zero => exact ⟨runs, rfl⟩
  | succ count ih =>
      rcases ih with ⟨⟨quiet, fives, most⟩, lowered⟩
      rw [Function.iterate_succ_apply']
      have ticked : (controllerTimeoutTimer (controllerTimeoutTimer^[count] timeouts)
          .first).toNat = (timeouts .first).toNat - 5 * (count + 1) := by
        rw [timer_quiet quiet, lowered_toNat fives]
        omega
      refine ⟨⟨timer_second.trans quiet, ?_, ?_⟩, ticked⟩
      · rw [ticked]
        omega
      · rw [ticked]
        omega

theorem passes_pos {inLoop : ℕ → Ps2Reading} {first : ℕ} (ticks : 0 < ticksIn inLoop first fuel) :
    0 < fuel := by
  cases fuel with
  | zero => cases ticks
  | succ fuel => exact Nat.succ_pos fuel

/-- The loop for the first port ends when ticks enough come in its passes. -/
theorem loop_ends {inLoop : ℕ → Ps2Reading} {first : ℕ} (runs : FirstRuns timeouts)
    (passes : 0 < fuel) (enough : (timeouts .first).toNat ≤ 5 * ticksIn inLoop first fuel) :
    ∃ left, run (waitPass inLoop busy .first) fuel (first, timeouts) = some left ∧
      FirstRuns left := by
  induction fuel generalizing first timeouts with
  | zero => cases passes
  | succ fuel ih =>
      rcases firstRuns_ticks runs (inLoop first).ticks with ⟨stillRuns, lowered⟩
      rw [ticksIn] at enough
      by_cases goesOn : busy (inLoop first).status ∧
          controllerTimeoutTimer^[(inLoop first).ticks] timeouts .first > 0
      · have again : waitPass inLoop busy .first (first, timeouts) =
            .again (first + 1, controllerTimeoutTimer^[(inLoop first).ticks] timeouts) := by
          simp only [waitPass]
          rw [if_pos goesOn]
        have positive := UInt32.lt_iff_toNat_lt.mp goesOn.2
        have zero : (0 : UInt32).toNat = 0 := rfl
        rw [run_again again]
        apply ih stillRuns
        · -- With no pass left no tick is left either, and the timeout would be zero.
          apply @passes_pos fuel inLoop (first + 1)
          omega
        · omega
      · have done : waitPass inLoop busy .first (first, timeouts) =
            .done (controllerTimeoutTimer^[(inLoop first).ticks] timeouts) := by
          simp only [waitPass]
          rw [if_neg goesOn]
        exact ⟨_, run_done done, stillRuns⟩

theorem wait_ends (ticking : readings.Ticking fuel) (runs : FirstRuns s.timeouts) :
    ∃ reading after, s.wait readings fuel busy .first = .ok (reading, after) ∧
      FirstRuns after.timeouts := by
  have enough := ticking s.controller.waits
  have passes : 0 < fuel := passes_pos (Nat.lt_of_lt_of_le (by decide) enough)
  have inTime : (s.timeouts .first).toNat ≤
      5 * ticksIn (readings.inLoop s.controller.waits) 0 fuel := by
    have most := runs.2.2
    omega
  rcases @loop_ends fuel s.timeouts busy _ 0 runs passes inTime with ⟨left, loops, stillRuns⟩
  refine ⟨_, _, map_eq_ok.mpr ⟨left, loopResult_eq_ok.mpr loops, rfl⟩, ?_⟩
  exact (firstRuns_ticks stillRuns _).1

theorem startTimeout_runs (quiet : s.timeouts .second = 0) :
    FirstRuns (s.startTimeout .first).timeouts := by
  have twenty : ((s.startTimeout .first).timeouts .first).toNat = 20 := rfl
  refine ⟨quiet, ?_, ?_⟩
  · rw [twenty]
  · rw [twenty]

theorem write_ends {output : Ps2Write} (ticking : readings.Ticking fuel)
    (runs : FirstRuns s.timeouts) :
    ∃ sent after, s.write readings fuel .first output = .ok (sent, after) ∧
      FirstRuns after.timeouts := by
  rcases @wait_ends readings fuel s inputFull ticking runs with ⟨reading, waited, waits, left⟩
  cases full : inputFull reading.status with
  | true =>
      refine ⟨false, waited, bind_eq_ok.mpr ⟨_, waits, ?_⟩, left⟩
      simp only [full, if_true]
      rfl
  | false =>
      let written := { waited.controller with writes := waited.controller.writes ++ [output] }
      refine ⟨true, { waited with controller := written }, bind_eq_ok.mpr ⟨_, waits, ?_⟩, left⟩
      simp only [full, Bool.false_eq_true, if_false]
      rfl

theorem getResponse_ends (ticking : readings.Ticking fuel) (quiet : s.timeouts .second = 0) :
    ∃ value after, s.getResponse readings fuel .first = .ok (value, after) ∧
      FirstRuns after.timeouts := by
  rcases @wait_ends readings fuel _ outputEmpty ticking (startTimeout_runs quiet) with
    ⟨reading, waited, waits, left⟩
  cases empty : outputEmpty reading.status with
  | true =>
      refine ⟨0xFF, waited, bind_eq_ok.mpr ⟨_, waits, ?_⟩, left⟩
      simp only [empty, if_true]
      rfl
  | false =>
      refine ⟨reading.data, waited, bind_eq_ok.mpr ⟨_, waits, ?_⟩, left⟩
      simp only [empty, Bool.false_eq_true, if_false]
      rfl

/-- When four ticks come in each wait and the timeout of the second port is zero, the driver does
not wait for ever. -/
theorem firstPortTranslation_ends {enable : Bool} (ticking : readings.Ticking fuel)
    (quiet : s.timeouts .second = 0) :
    ∃ after, s.firstPortTranslation readings fuel enable = .ok after := by
  have asks : ∀ output, ∃ sent asked,
      (s.startTimeout .first).write readings fuel .first output = .ok (sent, asked) ∧
        FirstRuns asked.timeouts :=
    fun _ => write_ends ticking (startTimeout_runs quiet)
  rcases asks (.command 0x20) with ⟨_, asked, asks, askedRuns⟩
  rcases getResponse_ends ticking askedRuns.1 with ⟨config, answered, answers, answeredRuns⟩
  rcases @write_ends _ _ _ (.dataCommand 0x60 (if enable then config ||| 64 else config &&& ~~~64))
    ticking (startTimeout_runs answeredRuns.1) with ⟨_, written, writes, _⟩
  exact ⟨written, bind_eq_ok.mpr ⟨_, asks, bind_eq_ok.mpr ⟨_, answers,
    bind_eq_ok.mpr ⟨_, writes, rfl⟩⟩⟩⟩

end Ends

/-- In a run in which no tick comes while the timeout of the second port is not zero, the timeouts
are between 0 and 20, and a wait that has had four ticks is over when the status register is
read the next time, whatever that says. The timer lowers each timeout that is not zero by five
in every such tick, and in no other. -/
theorem waits_bounded {s : Ps2Waits} (reached : ps2WaitSystem.ReachableWhen Ps2Waits.Quiet s) :
    (∀ port, s.timeouts port ≤ portTimeout) ∧
    (∀ port waiting, s.waiting port = some waiting → 4 ≤ waiting.ticks → ∀ status,
      ∃ next, s.step (.look port status) = some next ∧ next.waiting port = none) ∧
    ∀ event next, s.step event = some next → (s.CountsDown event next ↔ s.Quiet event) := by
  have bounded : s.Bounded := by
    apply System.ReachableWhen.invariant _ _ reached
    · intro s starts
      exact Ps2Waits.Bounded.init starts
    · intro s event next bounded quiet returns
      exact bounded.step quiet returns
  refine ⟨?_, ?_, fun event next returns => countsDown_iff returns⟩
  · intro port
    rw [UInt32.le_iff_toNat_le]
    exact bounded.most port
  · intro port waiting isWaiting ticks status
    refine ⟨_, look_ends bounded isWaiting ticks status, ?_⟩
    exact Function.update_self ..

/-- The waits before anything has happened. -/
def Ps2Waits.start : Ps2Waits where
  timeouts _ := 0
  waiting _ := none

theorem Ps2Waits.start_init : ps2WaitSystem.Init Ps2Waits.start :=
  ⟨fun _ => rfl, fun _ => rfl⟩

/-- A wait for an answer that does not come. -/
theorem waits_bounded_four_ticks :
    ∃ s, ps2WaitSystem.ReachableWhen Ps2Waits.Quiet s ∧
      s.waiting .first = some ⟨.getResponse, 4⟩ ∧
      ∃ next, s.step (.look .first 0) = some next ∧ next.waiting .first = none := by
  have ticks : ∀ n, ∃ s, ps2WaitSystem.ReachableWhen Ps2Waits.Quiet s ∧
      s.waiting .first = some ⟨.getResponse, n⟩ ∧ s.timeouts .second = 0 := by
    intro n
    induction n with
    | zero =>
        have starts : ps2WaitSystem.ReachableWhen Ps2Waits.Quiet Ps2Waits.start :=
          .init Ps2Waits.start_init
        exact ⟨_, starts.step_by (.call .first .getResponse) nofun rfl, rfl, rfl⟩
    | succ n ih =>
        rcases ih with ⟨s, reached, isWaiting, quiet⟩
        refine ⟨_, reached.step_by .tick (fun _ => quiet) rfl, ?_, timer_second.trans quiet⟩
        simp only [isWaiting, Option.map_some]
  rcases ticks 4 with ⟨s, reached, isWaiting, _⟩
  exact ⟨s, reached, isWaiting,
    (waits_bounded reached).2.1 .first _ isWaiting (Nat.le_refl _) 0⟩

/-- Once the second port has been used, the first tick takes the timeout of the first port below
zero; and a wait for the second port never ends by its timeout. -/
theorem waits_not_bounded :
    (∃ s, ps2WaitSystem.Reachable s ∧ s.timeouts .first = 4294967291) ∧
    ∀ ticks, ∃ s, ps2WaitSystem.Reachable s ∧
      s.waiting .second = some ⟨.sendCommand, ticks⟩ ∧
      ∀ status, inputFull status = true → s.step (.look .second status) = some s := by
  have starts : ps2WaitSystem.Reachable Ps2Waits.start := .init Ps2Waits.start_init
  have calls := starts.step_by (.call .second .sendCommand) rfl
  constructor
  · have left := calls.step_by (.look .second 0) rfl
    exact ⟨_, left.step_by .tick rfl, rfl⟩
  · intro ticks
    have waits : ∃ s, ps2WaitSystem.Reachable s ∧
        s.waiting .second = some ⟨.sendCommand, ticks⟩ ∧ s.timeouts .second = portTimeout := by
      induction ticks with
      | zero => exact ⟨_, calls, rfl, rfl⟩
      | succ ticks ih =>
          rcases ih with ⟨s, reached, isWaiting, started⟩
          refine ⟨_, reached.step_by .tick rfl, ?_, timer_second.trans started⟩
          simp only [isWaiting, Option.map_some]
    rcases waits with ⟨s, reached, isWaiting, started⟩
    refine ⟨s, reached, isWaiting, ?_⟩
    intro status full
    have goesOn : Ps2Call.sendCommand.busy status = true ∧ s.timeouts .second > 0 :=
      ⟨full, by rw [started]; decide⟩
    simp only [Ps2Waits.step, isWaiting, goesOn, and_self, if_true]

end Osserver
