import Osserver.Lib.Transition
import Osserver.Ps2.Refinement

/-!
# The timeout of an identification

While a device identifies itself its timeout runs. The timeout is started with the
identification, but it is stopped nowhere except where it is over: a device that is reset
or given up meanwhile leaves a timeout behind, and when that is over the device is made
ready. In runs in which nothing comes between, a timeout runs only for a device that
identifies itself.
-/

namespace Osserver

open Outcome Transition

/-- The manager from boot on, with or without a second port. -/
def ps2System (chip : Ps2Chip) : System Ps2Manager Ps2Event :=
  system (fun s => ∃ hasSecondPort, s = Ps2Manager.boot hasSecondPort) (Ps2Manager.step chip)

namespace Ps2PortState

/-- The timeout runs only for a device that identifies itself. -/
def Justified (state : Ps2PortState) : Prop :=
  0 ≤ state.timeout → state.device.state = .identifyInProgress

/-- For a device that identifies itself the timeout runs, and will come to zero. -/
def Timed (state : Ps2PortState) : Prop :=
  state.device.state = .identifyInProgress →
    0 ≤ state.timeout ∧ state.timeout % timerInterval = 0

/-- The event neither resets nor gives up a device that identifies itself. -/
def Undisturbed (state : Ps2PortState) (port : Ps2Port) (event : Ps2Event) : Prop :=
  state.device.state = .identifyInProgress →
    match event with
    | .irq devId cmd => devId = port → cmd ≠ responseOk ∧ cmd ≠ responseError
    | .sendPortCheck => ¬(state.checked ∧ expired state.time state.device.lastEcho)
    | .timeoutTimer | .pitTick => True

/-- None of the events, one after the other, disturbs the device. -/
def UndisturbedBy (state : Ps2PortState) (port : Ps2Port) : List Ps2Event → Prop
  | [] => True
  | event :: events =>
      state.Undisturbed port event ∧ (state.step port event).UndisturbedBy port events

end Ps2PortState

/-- The timeouts run only for devices that identify themselves. -/
def Ps2Manager.TimeoutsJustified (s : Ps2Manager) : Prop :=
  ∀ port, 0 ≤ s.timeouts port → (s.devices port).state = .identifyInProgress

/-- The event neither resets nor gives up a device that identifies itself. -/
def Ps2Manager.Undisturbed (s : Ps2Manager) (event : Ps2Event) : Prop :=
  ∀ port, (s.port port).Undisturbed port event

section Port

variable {state : Ps2PortState} {port : Ps2Port} {event : Ps2Event} {cmd : UInt8}

/-- A byte starts the identification, or it leaves the timeout alone and ends an
identification when it says that the device has been reset. -/
theorem receive_timeout :
    state.device.state = .scanDisabled ∧ (state.receive cmd).timeout = maxTimeout ∧
        (state.receive cmd).device.state = .identifyInProgress ∨
      (state.receive cmd).timeout = state.timeout ∧
        ((state.receive cmd).device.state = .identifyInProgress ↔
          state.device.state = .identifyInProgress ∧ cmd ≠ responseOk ∧ cmd ≠ responseError) := by
  rw [Ps2PortState.receive]
  dsimp only
  split_ifs with attaches echo resend ok error ack connected disabled identifying room
  · right
    simp [attaches.1]
  · right
    simp [echo, responseEcho, responseOk, responseError]
  · right
    simp [resend, responseResend, responseOk, responseError]
  · right
    simp [ok]
  · right
    simp [error]
  · right
    simp [connected]
  · left
    exact ⟨disabled, rfl, rfl⟩
  · right
    simp [ok, error]
  · right
    simp [ok, error, identifying, Device.push]
  · right
    simp [ok, error]
  · right
    simp [ok, error]

/-- What a check does to a device that identifies itself. -/
theorem check_timeout :
    state.check.timeout = state.timeout ∧
      (state.check.device.state = .identifyInProgress ↔
        state.device.state = .identifyInProgress ∧
          ¬(state.checked ∧ expired state.time state.device.lastEcho)) := by
  rw [Ps2PortState.check]
  split_ifs with givesUp
  · simp [givesUp]
  · simp [givesUp]

theorem identified_state (dev : Device) : dev.identified.state = .ready := by
  cases known : deviceOfId dev.buffer with
  | some type => rw [identified_of_some known]
  | none => rw [identified_of_none known]

theorem timed_step (timed : state.Timed) : (state.step port event).Timed := by
  cases event with
  | irq devId cmd =>
      by_cases same : devId = port
      · simp only [Ps2PortState.step, if_pos same]
        rcases @receive_timeout state cmd with ⟨_, starts, _⟩ | ⟨keeps, identifies⟩
        · intro _
          rw [starts]
          decide
        · intro identifying
          rw [keeps]
          exact timed (identifies.mp identifying).1
      · simp only [Ps2PortState.step, if_neg same]
        exact timed
  | timeoutTimer =>
      simp only [Ps2PortState.step, Ps2PortState.tick]
      split_ifs with running atZero
      · intro identifying
        have left := timed identifying
        simp only [timerInterval] at left ⊢
        omega
      · intro identifying
        simp only [identified_state] at identifying
        cases identifying
      · exact timed
  | sendPortCheck =>
      intro identifying
      have checked := @check_timeout state
      rw [Ps2PortState.step] at identifying ⊢
      rw [checked.1]
      exact timed (checked.2.mp identifying).1
  | pitTick => exact timed

/-- An event keeps the timeout justified exactly when it does not disturb an
identification. -/
theorem justified_step_iff (justified : state.Justified) (timed : state.Timed) :
    (state.step port event).Justified ↔ state.Undisturbed port event := by
  cases event with
  | irq devId cmd =>
      by_cases same : devId = port
      · simp only [Ps2PortState.step, if_pos same, Ps2PortState.Undisturbed]
        rcases @receive_timeout state cmd with ⟨disabled, starts, begins⟩ | ⟨keeps, identifies⟩
        · constructor
          · intro _ identifying
            rw [disabled] at identifying
            cases identifying
          · intro _ _
            exact begins
        · rw [Ps2PortState.Justified, keeps, identifies]
          constructor
          · intro stays identifying _
            exact (stays (timed identifying).1).2
          · intro undisturbed left
            exact ⟨justified left, undisturbed (justified left) same⟩
      · simp only [Ps2PortState.step, if_neg same, Ps2PortState.Undisturbed]
        simp [same, justified]
  | timeoutTimer =>
      simp only [Ps2PortState.Undisturbed, implies_true, iff_true, Ps2PortState.step,
        Ps2PortState.tick]
      split_ifs with running atZero
      · intro left
        exact justified (Int.le_of_lt running)
      · intro left
        simp at left
      · exact justified
  | sendPortCheck =>
      have checked := @check_timeout state
      rw [Ps2PortState.step, Ps2PortState.Justified, checked.1, checked.2]
      constructor
      · intro stays identifying
        exact (stays (timed identifying).1).2
      · intro undisturbed left
        exact ⟨justified left, undisturbed (justified left)⟩
  | pitTick =>
      simp only [Ps2PortState.Undisturbed, implies_true, iff_true]
      exact justified

end Port

section Run

variable {chip : Ps2Chip} {s next : Ps2Manager} {event : Ps2Event} {port : Ps2Port}

theorem timed_of_reachable {allowed : Ps2Manager → Ps2Event → Prop}
    (reached : (ps2System chip).ReachableWhen allowed s) (port : Ps2Port) :
    (s.port port).Timed := by
  apply System.ReachableWhen.invariant _ _ reached
  · rintro s ⟨_, rfl⟩ identifying
    cases identifying
  · intro s event next timed _ returns
    rw [step_port returns]
    exact timed_step timed

theorem timeoutsJustified_step_iff (justified : s.TimeoutsJustified)
    (timed : ∀ port, (s.port port).Timed) (returns : s.step chip event = .ok next) :
    next.TimeoutsJustified ↔ s.Undisturbed event := by
  have atPort : ∀ port, (next.port port).Justified ↔ (s.port port).Undisturbed port event := by
    intro port
    rw [step_port returns]
    exact justified_step_iff (justified port) (timed port)
  exact forall_congr' atPort

/-- A run none of whose events disturbs a port is one of those that meet the condition. -/
theorem reachable_run {after : Ps2Manager} {events : List Ps2Event}
    (reached : (ps2System chip).ReachableWhen Ps2Manager.Undisturbed s)
    (undisturbed : ∀ port, (s.port port).UndisturbedBy port events)
    (returns : s.run chip events = .ok after) :
    (ps2System chip).ReachableWhen Ps2Manager.Undisturbed after := by
  induction events generalizing s with
  | nil =>
      cases returns
      exact reached
  | cons event events ih =>
      rcases bind_eq_ok.mp returns with ⟨next, first, rest⟩
      apply ih (reached.step (fun port => (undisturbed port).1) first) _ rest
      intro port
      rw [step_port first]
      exact (undisturbed port).2

/-- The timer makes no device ready but one whose timeout is over. -/
theorem timer_ready (returns : s.step chip .timeoutTimer = .ok next)
    (changes : (next.devices port).state ≠ (s.devices port).state) : s.timeouts port = 0 := by
  by_contra running
  apply changes
  have ticked : next.port port = (s.port port).tick := step_port returns
  have sameTimeout : ¬(s.port port).timeout = 0 := running
  have sameDevice : (s.port port).tick.device = (s.port port).device := by
    rw [Ps2PortState.tick, if_neg sameTimeout]
    split_ifs
    · rfl
    · rfl
  rw [← ticked] at sameDevice
  exact congrArg Device.state sameDevice

end Run

/-- In a run in which nothing resets or gives up a device that identifies itself, a timeout
runs only for such a device, and the timer changes no other. The first event that resets
or gives up one leaves a timeout behind. -/
theorem timeouts_justified {chip : Ps2Chip} {s : Ps2Manager}
    (reached : (ps2System chip).ReachableWhen Ps2Manager.Undisturbed s) :
    s.TimeoutsJustified ∧
      (∀ next port, s.step chip .timeoutTimer = .ok next →
        (next.devices port).state ≠ (s.devices port).state →
          (s.devices port).state = .identifyInProgress) ∧
      ∀ event next, s.step chip event = .ok next →
        (next.TimeoutsJustified ↔ s.Undisturbed event) := by
  have timed := timed_of_reachable reached
  have justified : s.TimeoutsJustified := by
    have both : s.TimeoutsJustified ∧ ∀ port, (s.port port).Timed := by
      apply System.ReachableWhen.invariant _ _ reached
      · rintro s ⟨_, rfl⟩
        constructor
        · intro _ left
          simp [Ps2Manager.boot] at left
        · intro _ identifying
          cases identifying
      · rintro s event next ⟨justified, timed⟩ undisturbed returns
        constructor
        · exact (timeoutsJustified_step_iff justified timed returns).mpr undisturbed
        · intro port
          rw [step_port returns]
          exact timed_step (timed port)
    exact both.1
  refine ⟨justified, ?_, ?_⟩
  · intro next port returns changes
    apply justified port
    exact Int.le_of_eq (timer_ready returns changes).symm
  · intro event next returns
    exact timeoutsJustified_step_iff justified timed returns

/-- A keyboard identifies itself: it has answered with one byte and a quarter of its time is
over. -/
theorem timeouts_justified_keyboard :
    ∃ s, (Ps2Manager.boot true).run readyChip [.irq .first responseOk, .irq .first responseAck,
        .irq .first responseAck, .irq .first 0xAB, .timeoutTimer] = .ok s ∧
      (s.devices .first).state = .identifyInProgress ∧ s.timeouts .first = 15 ∧
      s.TimeoutsJustified := by
  rcases @run_returns readyChip (Ps2Manager.boot true) [.irq .first responseOk,
    .irq .first responseAck, .irq .first responseAck, .irq .first 0xAB, .timeoutTimer]
    readyChip_responsive with ⟨s, returns⟩
  have atEnd := @run_port readyChip _ s _ .first returns
  have undisturbed : ∀ port, ((Ps2Manager.boot true).port port).UndisturbedBy port
      [.irq .first responseOk, .irq .first responseAck, .irq .first responseAck,
        .irq .first 0xAB, .timeoutTimer] := by
    intro port
    cases port with
    | first =>
        refine ⟨?_, ?_, ?_, ?_, ?_, trivial⟩
        · intro identifying
          cases identifying
        · intro identifying
          cases identifying
        · intro identifying
          cases identifying
        · intro _ _
          exact ⟨by decide, by decide⟩
        · intro _
          exact trivial
    | second =>
        refine ⟨?_, ?_, ?_, ?_, ?_, trivial⟩
        all_goals
          intro identifying
          cases identifying
  have reached := reachable_run (.init ⟨true, rfl⟩) undisturbed returns
  exact ⟨s, returns, congrArg (fun state => state.device.state) atEnd,
    congrArg Ps2PortState.timeout atEnd, (timeouts_justified reached).1⟩

/-- A device that passes its self test again while it identifies itself is made ready when the
timeout is over, before it has acknowledged anything. -/
theorem timeouts_not_justified_reset :
    ∃ s after,
      (Ps2Manager.boot true).run readyChip [.irq .first responseOk, .irq .first responseAck,
        .irq .first responseAck, .irq .first responseOk] = .ok s ∧
      (s.devices .first).state = .connected ∧ s.timeouts .first = 20 ∧
      ¬s.TimeoutsJustified ∧
      s.run readyChip (List.replicate 5 .timeoutTimer) = .ok after ∧
      (after.devices .first).state = .ready := by
  rcases @run_returns readyChip (Ps2Manager.boot true) [.irq .first responseOk,
    .irq .first responseAck, .irq .first responseAck, .irq .first responseOk]
    readyChip_responsive with ⟨s, resets⟩
  rcases @run_returns readyChip s (List.replicate 5 .timeoutTimer) readyChip_responsive with
    ⟨after, ticks⟩
  have atReset := @run_port readyChip _ s _ .first resets
  have atEnd := @run_port readyChip _ after _ .first ticks
  rw [atReset] at atEnd
  have connected : (s.devices .first).state = .connected :=
    congrArg (fun state => state.device.state) atReset
  have pending : s.timeouts .first = 20 := congrArg Ps2PortState.timeout atReset
  refine ⟨s, after, resets, connected, pending, ?_, ticks, ?_⟩
  · intro justified
    have identifying := justified .first (by rw [pending]; decide)
    rw [connected] at identifying
    cases identifying
  · exact congrArg (fun state => state.device.state) atEnd

end Osserver
