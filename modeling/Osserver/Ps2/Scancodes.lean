import Osserver.Ps2.Refinement

/-!
# Scancodes and protocol bytes

A keyboard that is set up sends scancodes over the wire on which it also answers
commands. Of the codes of scancode set 1 exactly one is an answer too: the release of the
left shift key is 0xAA, which says that the device has passed its self test. The manager
takes it as the answer, and the keyboard is no longer ready.
-/

namespace Osserver

open Outcome

/-- A make code of `dev/keyboard.h`, or its break code. -/
def IsScancode (cmd : UInt8) : Prop :=
  ∃ make : UInt8, 0x01 ≤ make ∧ make ≤ 0x58 ∧ (cmd = make ∨ cmd = make ||| 0x80)

/-- The device is a keyboard that has been set up. -/
def Device.IsKeyboard (dev : Device) : Prop :=
  dev.state = .ready ∧ dev.type = .keyboard ∧ dev.supported = true

/-- The byte that an event brings from the device at the port. -/
def Ps2Event.byteFrom (port : Ps2Port) : Ps2Event → Option UInt8
  | .irq devId cmd => if devId = port then some cmd else none
  | .timeoutTimer | .sendPortCheck | .pitTick => none

/-- The bytes from the port that the driver of the keyboard was passed. -/
def Ps2Manager.handledFrom (s : Ps2Manager) (port : Ps2Port) : List UInt8 :=
  s.handled.filterMap fun passed => if passed.1 = port then some passed.2 else none

/-- Every byte has been passed to the driver of the keyboard, in order, nothing has been
sent to the device, and it is ready. -/
structure PassesScancodes (s after : Ps2Manager) (port : Ps2Port) (bytes : List UInt8) :
    Prop where
  handled : after.handledFrom port = s.handledFrom port ++ bytes
  silent : after.portBytes port = s.portBytes port
  ready : (after.devices port).state = .ready

theorem toNat_or_high {make : UInt8} (low : make ≤ 0x58) :
    (make ||| 0x80).toNat = make.toNat + 128 := by
  have small : make.toNat < 2 ^ 7 := by
    have bound := UInt8.le_iff_toNat_le.mp low
    simp at bound
    omega
  rw [UInt8.toNat_or, Nat.or_comm]
  have sum := Nat.two_pow_add_eq_or_of_lt small 1
  simp at sum
  simp [← sum]
  omega

theorem IsScancode.toNat_le {cmd : UInt8} (scancode : IsScancode cmd) : cmd.toNat ≤ 0xD8 := by
  rcases scancode with ⟨make, _, low, rfl | rfl⟩
  · have bound := UInt8.le_iff_toNat_le.mp low
    simp at bound
    omega
  · have bound := UInt8.le_iff_toNat_le.mp low
    simp at bound
    rw [toNat_or_high low]
    omega

/-- The only scancode that is an answer is the release of the left shift key. -/
theorem IsScancode.payload {cmd : UInt8} (scancode : IsScancode cmd) (other : cmd ≠ responseOk) :
    ¬IsResponse cmd := by
  have bound := scancode.toNat_le
  rintro (same | same | same | same | same)
  · rw [same] at bound
    simp [responseEcho] at bound
  · rw [same] at bound
    simp [responseResend] at bound
  · exact other same
  · rw [same] at bound
    simp [responseError] at bound
  · rw [same] at bound
    simp [responseAck] at bound

section Run

variable {chip : Ps2Chip} {s after : Ps2Manager} {port : Ps2Port} {event : Ps2Event}
  {events : List Ps2Event}

theorem handledFrom_append {passed : List (Ps2Port × UInt8)}
    (handled : after.handled = s.handled ++ passed) :
    after.handledFrom port = s.handledFrom port ++
      passed.filterMap fun one => if one.1 = port then some one.2 else none := by
  rw [Ps2Manager.handledFrom, handled, List.filterMap_append]
  rfl

/-- What an event passes to the driver of the keyboard. -/
theorem step_handledFrom (returns : s.step chip event = .ok after) :
    after.handledFrom port = s.handledFrom port ++
      match event.byteFrom port with
      | some cmd => (s.port port).passes cmd
      | none => [] := by
  cases event with
  | irq devId cmd =>
      rw [handledFrom_append (handleIrq_answers returns).2, Ps2Event.byteFrom]
      by_cases same : devId = port
      · rw [← same, if_pos rfl]
        simp [List.filterMap_map]
      · rw [if_neg same]
        simp [List.filterMap_map, same]
  | timeoutTimer =>
      have keeps := (timeoutTimer_effect returns).2
      simp [Ps2Manager.handledFrom, keeps, Ps2Event.byteFrom]
  | sendPortCheck =>
      rcases sendPortCheck_effect returns with ⟨_, _, keeps, _, _⟩
      simp [Ps2Manager.handledFrom, keeps, Ps2Event.byteFrom]
  | pitTick =>
      cases returns
      simp [Ps2Manager.handledFrom, Ps2Event.byteFrom]

/-- The events of the run bring scancodes from the port, and none of them is a port check, nor
the timer while an identification is pending. -/
structure OnlyScancodes (s : Ps2Manager) (port : Ps2Port) (events : List Ps2Event) : Prop where
  scancodes : ∀ cmd ∈ events.filterMap (Ps2Event.byteFrom port), IsScancode cmd
  noCheck : Ps2Event.sendPortCheck ∉ events
  timer : Ps2Event.timeoutTimer ∈ events → s.timeouts port < 0

/-- A byte that is no answer is passed on by a keyboard, and changes it no more. -/
theorem receive_payload {state : Ps2PortState} {cmd : UInt8} (keyboard : state.device.IsKeyboard)
    (payload : ¬IsResponse cmd) :
    state.receive cmd = { state with connected := true } ∧ state.answers cmd = [] ∧
      state.passes cmd = [cmd] := by
  have attached : state.device.state ≠ .notConnected := by simp [keyboard.1]
  have identified : state.device.state ≠ .identifyInProgress := by simp [keyboard.1]
  have others := payload
  simp only [IsResponse, not_or] at others
  refine ⟨?_, ?_, ?_⟩
  · simp [Ps2PortState.receive, attached, identified, others]
  · simp [Ps2PortState.answers, attached, others]
  · simp [Ps2PortState.passes, payload, keyboard.1, keyboard.2.1, keyboard.2.2]

/-- The release of the left shift key, from any state. -/
theorem receive_responseOk {state : Ps2PortState} :
    (state.receive responseOk).device.state = .connected ∧
      (state.receive responseOk).timeout = state.timeout := by
  simp [Ps2PortState.receive, responseOk, responseEcho, responseResend]

/-- The timer does nothing to a port without a pending identification. -/
theorem tick_idle {state : Ps2PortState} (idle : state.timeout < 0) :
    state.tick = state ∧ state.tickBytes = [] := by
  have notRunning : ¬state.timeout > 0 := by omega
  have notOver : ¬state.timeout = 0 := by omega
  constructor
  · rw [Ps2PortState.tick, if_neg notRunning, if_neg notOver]
  · rw [Ps2PortState.tickBytes, if_neg (fun both => notOver both.1)]

/-- The events that scancodes come between, for the machine of the port. -/
theorem step_quiet {state : Ps2PortState} {asked : Bool} (keyboard : state.device.IsKeyboard)
    (noCheck : event ≠ .sendPortCheck) (timer : event = .timeoutTimer → state.timeout < 0)
    (payload : ∀ cmd, event.byteFrom port = some cmd → ¬IsResponse cmd) :
    (state.step port event).device = state.device ∧
      (state.step port event).timeout = state.timeout ∧ state.bytes port asked event = [] := by
  cases event with
  | irq devId cmd =>
      by_cases same : devId = port
      · have received := receive_payload keyboard (payload cmd (by simp [Ps2Event.byteFrom, same]))
        simp [Ps2PortState.step, Ps2PortState.bytes, same, received.1, received.2.1]
      · simp [Ps2PortState.step, Ps2PortState.bytes, same]
  | timeoutTimer =>
      have idle := tick_idle (timer rfl)
      simp [Ps2PortState.step, Ps2PortState.bytes, idle.1, idle.2]
  | sendPortCheck => exact absurd rfl noCheck
  | pitTick => exact ⟨rfl, rfl, rfl⟩

/-- One event of such a run, while the keyboard is ready. -/
theorem keyboard_step (keyboard : (s.devices port).IsKeyboard)
    (noCheck : event ≠ .sendPortCheck) (timer : event = .timeoutTimer → s.timeouts port < 0)
    (payload : ∀ cmd, event.byteFrom port = some cmd → ¬IsResponse cmd)
    (returns : s.step chip event = .ok after) :
    after.devices port = s.devices port ∧ after.timeouts port = s.timeouts port ∧
      after.handledFrom port = s.handledFrom port ++ (event.byteFrom port).toList ∧
      after.portBytes port = s.portBytes port := by
  have sameDevice : (s.port port).device.IsKeyboard := keyboard
  rcases @step_quiet port event (s.port port) (s.port .first).check.connected sameDevice noCheck
    timer payload with ⟨device, timeout, silent⟩
  rcases step_effect returns with ⟨bytes, effect, part, _⟩
  have atPort := congrFun effect.ports port
  refine ⟨?_, ?_, ?_, ?_⟩
  · rw [← atPort] at device
    exact device
  · rw [← atPort] at timeout
    exact timeout
  · rw [step_handledFrom returns]
    cases brings : event.byteFrom port with
    | none => rfl
    | some cmd => simp [(receive_payload sameDevice (payload cmd brings)).2.2]
  · have nothing := part port
    rw [silent, List.sublist_nil] at nothing
    rw [effect.wire, nothing, List.append_nil]

theorem OnlyScancodes.head (only : OnlyScancodes s port (event :: events)) :
    event ≠ .sendPortCheck ∧ (event = .timeoutTimer → s.timeouts port < 0) ∧
      ∀ cmd, event.byteFrom port = some cmd → cmd ≠ responseOk → ¬IsResponse cmd := by
  refine ⟨?_, ?_, ?_⟩
  · rintro rfl
    exact only.noCheck List.mem_cons_self
  · rintro rfl
    exact only.timer List.mem_cons_self
  · intro cmd brings
    apply IsScancode.payload
    apply only.scancodes
    simp [brings]

theorem OnlyScancodes.of_cons {next : Ps2Manager} (only : OnlyScancodes s port (event :: events))
    (timeout : next.timeouts port = s.timeouts port) : OnlyScancodes next port events := by
  refine ⟨?_, ?_, ?_⟩
  · intro cmd member
    apply only.scancodes
    rw [List.filterMap_cons]
    split
    · exact member
    · exact List.mem_cons_of_mem _ member
  · exact fun member => only.noCheck (List.mem_cons_of_mem _ member)
  · intro member
    rw [timeout]
    exact only.timer (List.mem_cons_of_mem _ member)

/-- Scancodes other than the release of the left shift key all reach the driver. -/
theorem keyboard_run (keyboard : (s.devices port).IsKeyboard)
    (only : OnlyScancodes s port events)
    (noAnswer : responseOk ∉ events.filterMap (Ps2Event.byteFrom port))
    (returns : s.run chip events = .ok after) :
    PassesScancodes s after port (events.filterMap (Ps2Event.byteFrom port)) := by
  induction events generalizing s with
  | nil =>
      cases returns
      exact ⟨by simp, rfl, keyboard.1⟩
  | cons event events ih =>
      rcases steps_cons_eq_ok.mp returns with ⟨next, first, rest⟩
      rcases only.head with ⟨noCheck, timer, others⟩
      have payload : ∀ cmd, event.byteFrom port = some cmd → ¬IsResponse cmd := by
        intro cmd brings
        apply others cmd brings
        rintro rfl
        exact noAnswer (by simp [brings])
      rcases keyboard_step keyboard noCheck timer payload first with
        ⟨device, timeout, handled, silent⟩
      have noAnswerRest : responseOk ∉ events.filterMap (Ps2Event.byteFrom port) := by
        intro member
        apply noAnswer
        rw [List.filterMap_cons]
        split
        · exact member
        · exact List.mem_cons_of_mem _ member
      rw [← device] at keyboard
      have passes := ih keyboard (only.of_cons timeout) noAnswerRest rest
      refine ⟨?_, ?_, passes.ready⟩
      · rw [passes.handled, handled, List.append_assoc, List.filterMap_cons]
        cases event.byteFrom port with
        | none => rfl
        | some cmd => rfl
      · rw [passes.silent, silent]

/-- No scancode takes a device that counts as newly connected out of that state. -/
theorem connected_step (connected : (s.devices port).state = .connected)
    (only : OnlyScancodes s port (event :: events)) (returns : s.step chip event = .ok after) :
    (after.devices port).state = .connected ∧ after.timeouts port = s.timeouts port := by
  have atPort := @step_port chip s after event port returns
  suffices stays : ((s.port port).step port event).device.state = .connected ∧
      ((s.port port).step port event).timeout = (s.port port).timeout by
    rw [← atPort] at stays
    exact stays
  have sameState : (s.port port).device.state = .connected := connected
  cases event with
  | irq devId cmd =>
      by_cases same : devId = port
      · have scancode : IsScancode cmd := by
          apply only.scancodes
          simp [Ps2Event.byteFrom, same]
        simp only [Ps2PortState.step, if_pos same]
        by_cases answer : cmd = responseOk
        · rw [answer]
          exact receive_responseOk
        · have others := scancode.payload answer
          simp only [IsResponse, not_or] at others
          simp [Ps2PortState.receive, sameState, others]
      · simp [Ps2PortState.step, same, sameState]
  | timeoutTimer =>
      have idle : (s.port port).tick = s.port port :=
        (tick_idle (only.timer List.mem_cons_self)).1
      simp [Ps2PortState.step, idle, sameState]
  | sendPortCheck => exact absurd List.mem_cons_self only.noCheck
  | pitTick => exact ⟨sameState, rfl⟩

theorem connected_run (connected : (s.devices port).state = .connected)
    (only : OnlyScancodes s port events) (returns : s.run chip events = .ok after) :
    (after.devices port).state = .connected := by
  induction events generalizing s with
  | nil =>
      cases returns
      exact connected
  | cons event events ih =>
      rcases steps_cons_eq_ok.mp returns with ⟨next, first, rest⟩
      rcases connected_step connected only first with ⟨stays, timeout⟩
      exact ih stays (only.of_cons timeout) rest

/-- The release of the left shift key ends it. -/
theorem keyboard_run_ends (keyboard : (s.devices port).IsKeyboard)
    (only : OnlyScancodes s port events)
    (answers : responseOk ∈ events.filterMap (Ps2Event.byteFrom port))
    (returns : s.run chip events = .ok after) : (after.devices port).state = .connected := by
  induction events generalizing s with
  | nil => cases answers
  | cons event events ih =>
      rcases steps_cons_eq_ok.mp returns with ⟨next, first, rest⟩
      by_cases isAnswer : event.byteFrom port = some responseOk
      · have received : next.port port = (s.port port).receive responseOk := by
          rw [step_port first]
          cases event with
          | irq devId cmd =>
              simp only [Ps2Event.byteFrom] at isAnswer
              split_ifs at isAnswer with same
              cases isAnswer
              simp [Ps2PortState.step, same]
          | timeoutTimer => cases isAnswer
          | sendPortCheck => cases isAnswer
          | pitTick => cases isAnswer
        have becomes := @receive_responseOk (s.port port)
        rw [← received] at becomes
        exact connected_run becomes.1 (only.of_cons becomes.2) rest
      · rcases only.head with ⟨noCheck, timer, others⟩
        have payload : ∀ cmd, event.byteFrom port = some cmd → ¬IsResponse cmd := by
          intro cmd brings
          apply others cmd brings
          rintro rfl
          exact isAnswer brings
        rcases keyboard_step keyboard noCheck timer payload first with ⟨device, timeout, _, _⟩
        rw [← device] at keyboard
        apply ih keyboard (only.of_cons timeout) _ rest
        rw [List.filterMap_cons] at answers
        cases brings : event.byteFrom port with
        | none => simpa [brings] using answers
        | some cmd =>
            simp only [brings, List.mem_cons] at answers
            rcases answers with same | later
            · rw [same] at isAnswer
              exact absurd brings isAnswer
            · exact later

/-- `handle_irq` comes back with a byte that a keyboard passes on, whatever the chip does. -/
theorem handleIrq_payload_returns {cmd : UInt8} (keyboard : (s.devices port).IsKeyboard)
    (payload : ¬IsResponse cmd) : ∃ after, handleIrq chip s port cmd = .ok after := by
  have sameDevice : (s.setPortConnected port true).devices port = s.devices port := rfl
  simp only [IsResponse, not_or] at payload
  refine ⟨routeToDeviceDriver (s.setPortConnected port true) port cmd, ?_⟩
  simp [handleIrq, sameDevice, keyboard.1, keyboard.2.2, payload]

theorem keyboard_run_returns (keyboard : (s.devices port).IsKeyboard)
    (irqs : ∀ event ∈ events, ∃ cmd, event = .irq port cmd ∧ ¬IsResponse cmd) :
    ∃ after, s.run chip events = .ok after := by
  induction events generalizing s with
  | nil => exact ⟨s, rfl⟩
  | cons event events ih =>
      rcases irqs event List.mem_cons_self with ⟨cmd, rfl, payload⟩
      rcases @handleIrq_payload_returns chip s port cmd keyboard payload with ⟨next, first⟩
      have received : next.port port = (s.port port).receive cmd := by
        rw [@step_port chip s next (.irq port cmd) port first]
        simp [Ps2PortState.step]
      have passed := @receive_payload (s.port port) cmd keyboard payload
      rw [passed.1] at received
      have same : next.devices port = s.devices port := congrArg Ps2PortState.device received
      rw [← same] at keyboard
      rcases ih keyboard (fun event later => irqs event (List.mem_cons_of_mem _ later)) with
        ⟨after, rest⟩
      exact ⟨after, (steps_cons first).trans rest⟩

end Run

/-- A keyboard that is set up keeps passing its scancodes on exactly while the left shift
key is not released. This is so for the bytes of the keyboard on their own, and for runs
in which interrupts at the other port, ticks of the clock, and the timer while no
identification is pending, come between. -/
theorem scancodes_pass_iff {chip : Ps2Chip} {s : Ps2Manager} {port : Ps2Port}
    {events : List Ps2Event} (keyboard : (s.devices port).IsKeyboard)
    (only : OnlyScancodes s port events) :
    ((∀ event ∈ events, ∃ cmd, event = .irq port cmd) →
      ((∃ after, s.run chip events = .ok after ∧
          PassesScancodes s after port (events.filterMap (Ps2Event.byteFrom port))) ↔
        responseOk ∉ events.filterMap (Ps2Event.byteFrom port))) ∧
    ∀ after, s.run chip events = .ok after →
      (PassesScancodes s after port (events.filterMap (Ps2Event.byteFrom port)) ↔
        responseOk ∉ events.filterMap (Ps2Event.byteFrom port)) := by
  have passesIff : ∀ after, s.run chip events = .ok after →
      (PassesScancodes s after port (events.filterMap (Ps2Event.byteFrom port)) ↔
        responseOk ∉ events.filterMap (Ps2Event.byteFrom port)) := by
    intro after returns
    constructor
    · intro passes answers
      have connected := keyboard_run_ends keyboard only answers returns
      rw [passes.ready] at connected
      cases connected
    · intro noAnswer
      exact keyboard_run keyboard only noAnswer returns
  refine ⟨?_, passesIff⟩
  intro irqs
  constructor
  · rintro ⟨after, returns, passes⟩
    exact (passesIff after returns).mp passes
  · intro noAnswer
    have payload : ∀ event ∈ events, ∃ cmd, event = .irq port cmd ∧ ¬IsResponse cmd := by
      intro event member
      rcases irqs event member with ⟨cmd, rfl⟩
      have brings : cmd ∈ events.filterMap (Ps2Event.byteFrom port) := by
        rw [List.mem_filterMap]
        exact ⟨_, member, by simp [Ps2Event.byteFrom]⟩
      refine ⟨cmd, rfl, (only.scancodes cmd brings).payload ?_⟩
      rintro rfl
      exact noAnswer brings
    rcases @keyboard_run_returns chip s port events keyboard payload with ⟨after, returns⟩
    exact ⟨after, returns, (passesIff after returns).mpr noAnswer⟩

/-- The A key is pressed and released. -/
theorem scancodes_pass_iff_key :
    ∃ after, keyboardsReady.run readyChip [.irq .first 0x1E, .irq .first 0x9E] = .ok after ∧
      PassesScancodes keyboardsReady after .first [0x1E, 0x9E] := by
  have only : OnlyScancodes keyboardsReady .first [.irq .first 0x1E, .irq .first 0x9E] := by
    refine ⟨?_, by simp, by simp⟩
    intro cmd member
    simp only [List.filterMap_cons, List.filterMap_nil, Ps2Event.byteFrom, if_true, List.mem_cons,
      List.not_mem_nil, or_false] at member
    rcases member with rfl | rfl
    · exact ⟨0x1E, by decide⟩
    · exact ⟨0x1E, by decide⟩
  apply ((scancodes_pass_iff ⟨rfl, rfl, rfl⟩ only).1 (by simp)).mpr
  decide

/-- The release of the left shift key makes a keyboard on the first port count as newly
connected, and it is told not to send any more. -/
theorem scancodes_left_shift_release :
    ∃ s after, (Ps2Manager.boot true).run readyChip [.irq .first 0x1C] = .ok s ∧
      (s.devices .first).IsKeyboard ∧ IsScancode 0xAA ∧
      s.run readyChip [.irq .first 0xAA] = .ok after ∧
      (after.devices .first).state = .connected ∧
      after.portBytes .first = s.portBytes .first ++ [commandDisableScanning] ∧
      ¬PassesScancodes s after .first [0xAA] := by
  refine ⟨_, _, rfl, ⟨rfl, rfl, rfl⟩, ⟨0x2A, by decide⟩, rfl, rfl, rfl, ?_⟩
  intro passes
  have ready := passes.ready
  cases ready

end Osserver
