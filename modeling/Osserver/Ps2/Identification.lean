import Osserver.Lib.Bytes
import Osserver.Ps2.Refinement

/-!
# Identification of a device, and what is left over from before

A device that has passed its self test is told to stop, then to identify itself, and what
it answers is taken as its identification when the time for it is over. The buffer for the
answer is never emptied, and what is known of the device is not forgotten. So what the
manager makes of an answer depends on the answers before.
-/

namespace Osserver

open Outcome Bytes

/-- The device passes its self test, acknowledges two commands and answers, and then the timer
goes off until the time is over. -/
def handshake (port : Ps2Port) (reply : List UInt8) : List Ps2Event :=
  [.irq port responseOk, .irq port responseAck, .irq port responseAck] ++
    reply.map (Ps2Event.irq port) ++ List.replicate 5 .timeoutTimer

/-- What the manager thinks of the device. -/
def Device.identity (dev : Device) : DeviceState × DeviceType × Bool :=
  (dev.state, dev.type, dev.supported)

/-- The bytes that an identification looks at: first what is left over. -/
def Device.seen (dev : Device) (reply : List UInt8) : List UInt8 :=
  (dev.buffer ++ reply).take maxBufferSize

/-- The device with the bytes of a reply in its buffer, as long as there is room. -/
def Device.stored (dev : Device) (reply : List UInt8) : Device :=
  { dev with
    buffer := dev.seen reply
    fits := List.length_take_le _ _ }

/-- Nothing is left over that shows behind a handshake with the reply: no byte, and what is
known of the device only where the reply says what it is. -/
def Device.NoTrace (dev : Device) (reply : List UInt8) : Prop :=
  dev.buffer = [] ∧
    (deviceOfId reply = none →
      dev.type = .unknown ∧ (dev.supported = false ∨ reply.length = 1))

section Machine

variable {state : Ps2PortState} {port : Ps2Port} {reply : List UInt8}

/-- The self test and the two acknowledgements start the identification. -/
theorem receive_start (state : Ps2PortState) :
    ((state.receive responseOk).receive responseAck).receive responseAck =
      { state with
        device := { state.device with state := .identifyInProgress }
        connected := true
        timeout := maxTimeout } := by
  simp [Ps2PortState.receive, responseOk, responseAck, responseEcho, responseResend,
    responseError]

theorem stored_nil (dev : Device) : dev.stored [] = dev := by
  simp only [Device.stored, Device.seen, List.append_nil, List.take_of_length_le dev.fits]

theorem stored_stored (dev : Device) (bytes more : List UInt8) :
    (dev.stored bytes).stored more = dev.stored (bytes ++ more) := by
  simp only [Device.stored, Device.seen, take_take_append, List.append_assoc]

theorem receive_stored {byte : UInt8} (identifying : state.device.state = .identifyInProgress)
    (connected : state.connected = true) (payload : ¬IsResponse byte) :
    state.receive byte = { state with device := state.device.stored [byte] } := by
  simp only [IsResponse, not_or] at payload
  by_cases room : state.device.buffer.length < maxBufferSize
  · have short : (state.device.buffer ++ [byte]).length ≤ maxBufferSize := by
      rw [List.length_append]
      exact room
    simp only [Device.stored, Device.seen, List.take_of_length_le short]
    simp [Ps2PortState.receive, identifying, payload, room, ← connected, Device.push]
  · have full : maxBufferSize ≤ state.device.buffer.length := Nat.not_lt.mp room
    have keeps : state.device.stored [byte] = state.device := by
      simp only [Device.stored, Device.seen, List.take_append_of_le_length full,
        List.take_of_length_le state.device.fits]
    rw [keeps]
    simp [Ps2PortState.receive, identifying, payload, room, ← connected]

/-- The bytes of the answer go into the buffer. -/
theorem receive_reply (identifying : state.device.state = .identifyInProgress)
    (connected : state.connected = true) (payload : ∀ byte ∈ reply, ¬IsResponse byte) :
    reply.foldl Ps2PortState.receive state =
      { state with device := state.device.stored reply } := by
  induction reply generalizing state with
  | nil => rw [List.foldl_nil, stored_nil]
  | cons byte reply ih =>
      have first := receive_stored identifying connected (payload byte List.mem_cons_self)
      have payloadRest : ∀ byte ∈ reply, ¬IsResponse byte :=
        fun byte member => payload byte (List.mem_cons_of_mem _ member)
      have rest := @ih { state with device := state.device.stored [byte] } identifying connected
        payloadRest
      rw [List.foldl_cons, first, rest, stored_stored]
      rfl

/-- At the fifth time that the timer goes off the time is over. -/
theorem tick_five (running : state.timeout = maxTimeout) :
    state.tick.tick.tick.tick.tick =
      { state with device := state.device.identified, timeout := -1 } := by
  simp [Ps2PortState.tick, running, maxTimeout, timerInterval]

/-- What a handshake makes of the port. -/
theorem handshake_port (payload : ∀ byte ∈ reply, ¬IsResponse byte) :
    (handshake port reply).foldl (fun state event => state.step port event) state =
      { state with
        device := ({ state.device with state := .identifyInProgress }.stored reply).identified
        connected := true
        timeout := -1 } := by
  have fives : ∀ state : Ps2PortState,
      (List.replicate 5 Ps2Event.timeoutTimer).foldl (fun state event => state.step port event)
        state = state.tick.tick.tick.tick.tick := fun _ => rfl
  have receives : ∀ state : Ps2PortState,
      (reply.map (Ps2Event.irq port)).foldl (fun state event => state.step port event) state =
        reply.foldl Ps2PortState.receive state := by
    intro state
    simp only [List.foldl_map, Ps2PortState.step, if_true]
  have starts : ∀ state : Ps2PortState,
      [Ps2Event.irq port responseOk, .irq port responseAck, .irq port responseAck].foldl
        (fun state event => state.step port event) state =
          ((state.receive responseOk).receive responseAck).receive responseAck := by
    intro state
    simp only [List.foldl_cons, List.foldl_nil, Ps2PortState.step, if_true]
  rw [handshake, List.foldl_append, List.foldl_append, starts, receives, fives, receive_start,
    receive_reply rfl rfl payload, tick_five rfl]

/-- What is made of an identification, by what the device was before. -/
theorem identified_identity (dev : Device) :
    dev.identified.identity =
      match deviceOfId dev.buffer with
      | some type => (.ready, type, true)
      | none => (.ready, dev.type, if dev.buffer.length = 1 then false else dev.supported) := by
  cases known : deviceOfId dev.buffer with
  | some type => rw [identified_of_some known, Device.identity]
  | none => rw [identified_of_none known, Device.identity]

theorem identified_buffer (dev : Device) : dev.identified.buffer = dev.buffer := by
  cases known : deviceOfId dev.buffer with
  | some type => rw [identified_of_some known]
  | none => rw [identified_of_none known]

/-- A short reply is all that is seen just when nothing is left over. -/
theorem seen_eq_iff {dev : Device} (short : reply.length ≤ 2) :
    dev.seen reply = reply ↔ dev.buffer = [] := by
  constructor
  · intro same
    have lengths := congrArg List.length same
    have room : maxBufferSize = 4 := rfl
    rw [Device.seen, List.length_take, List.length_append] at lengths
    exact List.eq_nil_of_length_eq_zero (by omega)
  · intro empty
    rw [Device.seen, empty, List.nil_append, List.take_of_length_le]
    exact Nat.le_trans short (by decide)

/-- Behind a handshake that saw the reply alone a device and a fresh one are thought to be the
same exactly when the reply is known, or nothing was known of the device. -/
theorem identity_eq_iff {dev : Device} (short : reply.length ≤ 2) (empty : dev.buffer = []) :
    ({ dev with state := .identifyInProgress }.stored reply).identified.identity =
        ({ Device.boot with state := .identifyInProgress }.stored reply).identified.identity ↔
      (deviceOfId reply = none →
        dev.type = .unknown ∧ (dev.supported = false ∨ reply.length = 1)) := by
  have seen : ({ dev with state := .identifyInProgress }.stored reply).buffer = reply :=
    (seen_eq_iff short).mpr empty
  have seenFresh :
      ({ Device.boot with state := .identifyInProgress }.stored reply).buffer = reply :=
    (seen_eq_iff short).mpr rfl
  rw [identified_identity, identified_identity, seen, seenFresh]
  cases deviceOfId reply with
  | some type => simp
  | none =>
      by_cases single : reply.length = 1
      · simp [Device.stored, Device.boot, single]
      · simp [Device.stored, Device.boot, single]

end Machine

theorem handshake_run {chip : Ps2Chip} {s after : Ps2Manager} {port : Ps2Port}
    {reply : List UInt8} (payload : ∀ byte ∈ reply, ¬IsResponse byte)
    (returns : s.run chip (handshake port reply) = .ok after) :
    after.devices port =
        ({ s.devices port with state := .identifyInProgress }.stored reply).identified ∧
      after.timeouts port = -1 := by
  have ran := @run_port chip s after _ port returns
  rw [handshake_port payload] at ran
  exact ⟨congrArg Ps2PortState.device ran, congrArg Ps2PortState.timeout ran⟩

/-- A handshake with a device at the port makes of it what the same handshake makes of one that
is as it was at boot, and the identification looks at the reply alone, exactly when nothing
that is left over from before shows. What it looks at is what is left over and then the
reply. -/
theorem handshake_identity_iff {chip freshChip : Ps2Chip} {s after fresh : Ps2Manager}
    {port : Ps2Port} {reply : List UInt8} {hasSecondPort : Bool} (short : reply.length ≤ 2)
    (payload : ∀ byte ∈ reply, ¬IsResponse byte)
    (returns : s.run chip (handshake port reply) = .ok after)
    (freshReturns : (Ps2Manager.boot hasSecondPort).run freshChip (handshake port reply) =
      .ok fresh) :
    ((after.devices port).identity = (fresh.devices port).identity ∧
        (after.devices port).buffer = reply ↔ (s.devices port).NoTrace reply) ∧
      (after.devices port).buffer = (s.devices port).seen reply := by
  rw [(handshake_run payload returns).1, (handshake_run payload freshReturns).1]
  refine ⟨?_, identified_buffer _⟩
  have looksAt : ({ s.devices port with state := .identifyInProgress }.stored
      reply).identified.buffer = reply ↔ (s.devices port).buffer = [] := by
    rw [identified_buffer]
    exact seen_eq_iff short
  rw [Device.NoTrace, and_comm, looksAt]
  exact and_congr_right (identity_eq_iff short)

/-- A keyboard that did not answer its identification is identified once more, and answers. -/
theorem handshake_identity_iff_second :
    ∃ s after fresh, (Ps2Manager.boot true).run readyChip (handshake .first []) = .ok s ∧
      (s.devices .first).identity = (.ready, .keyboard, true) ∧
      s.run readyChip (handshake .first [0xAB, 0x41]) = .ok after ∧
      (Ps2Manager.boot true).run readyChip (handshake .first [0xAB, 0x41]) = .ok fresh ∧
      (after.devices .first).identity = (fresh.devices .first).identity ∧
        (after.devices .first).buffer = [0xAB, 0x41] := by
  have keyboard : ∀ byte ∈ [(0xAB : UInt8), 0x41], ¬IsResponse byte :=
    List.forall_mem_cons.mpr ⟨by decide, List.forall_mem_singleton.mpr (by decide)⟩
  rcases @run_returns readyChip (Ps2Manager.boot true) (handshake .first [])
    readyChip_responsive with ⟨s, first⟩
  rcases @run_returns readyChip s (handshake .first [0xAB, 0x41]) readyChip_responsive with
    ⟨after, second⟩
  rcases @run_returns readyChip (Ps2Manager.boot true) (handshake .first [0xAB, 0x41])
    readyChip_responsive with ⟨fresh, only⟩
  have silent := (handshake_run (List.forall_mem_nil _) first).1
  have noTrace : (s.devices .first).NoTrace [0xAB, 0x41] := by
    rw [silent]
    exact ⟨rfl, fun unknown => by cases unknown⟩
  have same := (handshake_identity_iff (by decide) keyboard second only).1.mpr noTrace
  refine ⟨s, after, fresh, first, ?_, second, only, same⟩
  rw [silent]
  rfl

/-- A mouse is replaced by a keyboard. The manager goes on taking it for a mouse. -/
theorem handshake_keyboard_behind_mouse :
    ∃ s after fresh,
      (Ps2Manager.boot true).run readyChip (handshake .first [0x00]) = .ok s ∧
      s.timeouts .first = -1 ∧
      s.run readyChip (handshake .first [0xAB, 0x41]) = .ok after ∧
      (Ps2Manager.boot true).run readyChip (handshake .first [0xAB, 0x41]) = .ok fresh ∧
      (after.devices .first).identity = (.ready, .mouse, true) ∧
      (fresh.devices .first).identity = (.ready, .keyboard, true) ∧
      (after.devices .first).identity ≠ (fresh.devices .first).identity := by
  have mouse : ∀ byte ∈ [(0x00 : UInt8)], ¬IsResponse byte :=
    List.forall_mem_singleton.mpr (by decide)
  have keyboard : ∀ byte ∈ [(0xAB : UInt8), 0x41], ¬IsResponse byte :=
    List.forall_mem_cons.mpr ⟨by decide, List.forall_mem_singleton.mpr (by decide)⟩
  rcases @run_returns readyChip (Ps2Manager.boot true) (handshake .first [0x00])
    readyChip_responsive with ⟨s, first⟩
  rcases @run_returns readyChip s (handshake .first [0xAB, 0x41]) readyChip_responsive with
    ⟨after, second⟩
  rcases @run_returns readyChip (Ps2Manager.boot true) (handshake .first [0xAB, 0x41])
    readyChip_responsive with ⟨fresh, only⟩
  have madeMouse := handshake_run mouse first
  have isMouse : (after.devices .first).identity = (.ready, .mouse, true) := by
    rw [(handshake_run keyboard second).1, madeMouse.1]
    rfl
  have isKeyboard : (fresh.devices .first).identity = (.ready, .keyboard, true) := by
    rw [(handshake_run keyboard only).1]
    rfl
  refine ⟨s, after, fresh, first, madeMouse.2, second, only, isMouse, isKeyboard, ?_⟩
  rw [isMouse, isKeyboard]
  decide

end Osserver
