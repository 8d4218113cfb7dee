import Osserver.Ps2.Manager

/-!
# One port of the PS/2 manager

What the manager keeps for a port changes as if there were no other port: this file gives
the state machine of one port on its own, and proves that the manager, on every event that
it comes back from, does to each port what that machine does. The bytes that go to the
device are those of the machine too, as far as the chip takes them, except for one: the
port check asks about the first port before it sends to either.
-/

namespace Osserver

open Outcome

/-- What there is for one port: its device, the time left for the identification, whether
it is connected, whether the port check looks at it, and the clock. -/
structure Ps2PortState where
  device : Device
  timeout : ℤ
  connected : Bool
  checked : Bool
  time : ℕ

def Ps2Manager.port (s : Ps2Manager) (port : Ps2Port) : Ps2PortState where
  device := s.devices port
  timeout := s.timeouts port
  connected := s.controller.isPortConnected port
  checked := match port with
    | .first => true
    | .second => s.controller.hasSecondPort
  time := s.time

/-- The byte is an answer of the protocol. -/
def IsResponse (cmd : UInt8) : Prop :=
  cmd = responseEcho ∨ cmd = responseResend ∨ cmd = responseOk ∨ cmd = responseError ∨
    cmd = responseAck

instance (cmd : UInt8) : Decidable (IsResponse cmd) :=
  inferInstanceAs (Decidable (_ ∨ _))

/-- The devices that the manager knows, by what they answer to the identification. -/
def deviceOfId : List UInt8 → Option DeviceType
  | [] => some .keyboard
  | [only] =>
      if only = 0x00 then some .mouse
      else if only = 0x03 then some .mouseWithScroll
      else if only = 0x04 then some .mouseWith5Keys
      else none
  | [first, second] =>
      if first = 0xAB ∧ (second = 0x41 ∨ second = 0xC1 ∨ second = 0x83) then some .keyboard
      else none
  | _ => none

/-- A device that has been identified. -/
def Device.identified (dev : Device) : Device :=
  match deviceOfId dev.buffer with
  | some type => { dev with state := .ready, type := type, supported := true }
  | none =>
      { dev with
        state := .ready
        supported := if dev.buffer.length = 1 then false else dev.supported }

theorem identified_of_some {dev : Device} {type : DeviceType}
    (known : deviceOfId dev.buffer = some type) :
    dev.identified = { dev with state := .ready, type := type, supported := true } := by
  rw [Device.identified]
  split
  · simp_all
  · simp_all

theorem identified_of_none {dev : Device} (unknown : deviceOfId dev.buffer = none) :
    dev.identified =
      { dev with
        state := .ready
        supported := if dev.buffer.length = 1 then false else dev.supported } := by
  rw [Device.identified]
  split
  · simp_all
  · rfl

/-- What the identification of a device sends to it. -/
def Device.identifyBytes (dev : Device) : List UInt8 :=
  if deviceOfId dev.buffer = some .keyboard then keyboardSetupBytes else []

/-- The port with a device on it. -/
def Ps2PortState.withDevice (s : Ps2PortState) (dev : Device) : Ps2PortState :=
  { s with device := dev }

namespace Ps2PortState

/-- A byte comes from the device. -/
def receive (s : Ps2PortState) (cmd : UInt8) : Ps2PortState :=
  let s := { s with connected := true }
  let dev := s.device
  if dev.state = .notConnected ∧ ¬(cmd = responseOk ∨ cmd = responseError) then
    { s with device := { dev with state := .ready, supported := true, type := .keyboard } }
  else if cmd = responseEcho then { s with device := { dev with lastEcho := s.time } }
  else if cmd = responseResend then s
  else if cmd = responseOk then { s with device := { dev with state := .connected } }
  else if cmd = responseError then { s with device := { dev with state := .errored } }
  else if cmd = responseAck then
    if dev.state = .connected then { s with device := { dev with state := .scanDisabled } }
    else if dev.state = .scanDisabled then
      { s with device := { dev with state := .identifyInProgress }, timeout := maxTimeout }
    else s
  else if dev.state = .identifyInProgress then
    if room : dev.buffer.length < maxBufferSize then { s with device := dev.push cmd room } else s
  else s

/-- What is sent back to the device. -/
def answers (s : Ps2PortState) (cmd : UInt8) : List UInt8 :=
  if s.device.state = .notConnected ∧ ¬(cmd = responseOk ∨ cmd = responseError) then
    keyboardSetupBytes
  else if cmd = responseEcho then []
  else if cmd = responseResend then s.device.item.toList
  else if cmd = responseOk then [commandDisableScanning]
  else if cmd = responseError then [commandReset]
  else if cmd = responseAck then
    if s.device.state = .connected then [commandIdentify] else []
  else []

/-- What is passed to the driver of the keyboard. -/
def passes (s : Ps2PortState) (cmd : UInt8) : List UInt8 :=
  if s.device.state = .notConnected ∧ ¬(cmd = responseOk ∨ cmd = responseError) then [cmd]
  else if IsResponse cmd then []
  else if s.device.state = .ready ∧ s.device.supported ∧ s.device.type = .keyboard then [cmd]
  else []

/-- The timer of the manager goes off. -/
def tick (s : Ps2PortState) : Ps2PortState :=
  if s.timeout > 0 then { s with timeout := s.timeout - timerInterval }
  else if s.timeout = 0 then { s with device := s.device.identified, timeout := -1 }
  else s

def tickBytes (s : Ps2PortState) : List UInt8 :=
  if s.timeout = 0 ∧ s.connected then s.device.identifyBytes else []

/-- The port check gives up the device when it has not answered for too long. -/
def check (s : Ps2PortState) : Ps2PortState :=
  if s.checked ∧ expired s.time s.device.lastEcho then
    { s with
      device := { s.device with type := .unknown, state := .notConnected, item := none }
      connected := false }
  else s

/-- What the port check sends, by whether the port that is asked about is connected. -/
def checkBytes (s : Ps2PortState) (asked : Bool) : List UInt8 :=
  if s.checked ∧ s.check.connected then [if asked then commandEcho else commandReset] else []

/-- What an event does to the port. -/
def step (s : Ps2PortState) (port : Ps2Port) : Ps2Event → Ps2PortState
  | .irq devId cmd => if devId = port then s.receive cmd else s
  | .timeoutTimer => s.tick
  | .sendPortCheck => s.check
  | .pitTick => { s with time := (s.time + 1) % 2 ^ 64 }

/-- What an event sends to the device, by whether the first port is connected. -/
def bytes (s : Ps2PortState) (port : Ps2Port) (asked : Bool) : Ps2Event → List UInt8
  | .irq devId cmd => if devId = port then s.answers cmd else []
  | .timeoutTimer => s.tickBytes
  | .sendPortCheck => s.checkBytes asked
  | .pitTick => []

end Ps2PortState

/-- The bytes that the device at the port has got. -/
def Ps2Manager.portBytes (s : Ps2Manager) (port : Ps2Port) : List UInt8 :=
  s.controller.portBytes port

/-- The ports are as `ports` says, and their devices have got the `bytes`. -/
structure Ps2Manager.Effect (s after : Ps2Manager) (ports : Ps2Port → Ps2PortState)
    (bytes : Ps2Port → List UInt8) : Prop where
  ports : after.port = ports
  hasSecondPort : after.controller.hasSecondPort = s.controller.hasSecondPort
  wire : ∀ port, after.portBytes port = s.portBytes port ++ bytes port

/-- One port changes. -/
def Ps2Manager.Acts (s after : Ps2Manager) (devId : Ps2Port) (state : Ps2PortState)
    (bytes : List UInt8) : Prop :=
  s.Effect after (Function.update s.port devId state) (onlyAt devId bytes)

section Acts

variable {chip : Ps2Chip} {s middle after : Ps2Manager} {devId port : Ps2Port}
  {state next : Ps2PortState} {bytes more : List UInt8} {cmd data : UInt8}

namespace Ps2Manager.Acts

theorem self (acts : s.Acts after devId state bytes) : after.port devId = state := by
  rw [acts.ports]
  apply Function.update_self

theorem other (acts : s.Acts after devId state bytes) (different : port ≠ devId) :
    after.port port = s.port port := by
  rw [acts.ports]
  apply Function.update_of_ne
  exact different

theorem trans (first : s.Acts middle devId state bytes)
    (second : middle.Acts after devId next more) : s.Acts after devId next (bytes ++ more) := by
  refine ⟨?_, ?_, ?_⟩
  · rw [second.ports, first.ports]
    simp
  · rw [second.hasSecondPort, first.hasSecondPort]
  · intro port
    rw [second.wire, first.wire, List.append_assoc]
    by_cases same : port = devId
    · simp [onlyAt, same]
    · simp [onlyAt, same]

end Ps2Manager.Acts

/-- The variables of one port are written, and nothing else. -/
theorem acts_of_frame (devices : ∀ port, port ≠ devId → after.devices port = s.devices port)
    (timeouts : ∀ port, port ≠ devId → after.timeouts port = s.timeouts port)
    (time : after.time = s.time)
    (connected : ∀ port, port ≠ devId →
      after.controller.isPortConnected port = s.controller.isPortConnected port)
    (hasSecondPort : after.controller.hasSecondPort = s.controller.hasSecondPort)
    (wire : ∀ port, after.portBytes port = s.portBytes port ++ onlyAt devId bytes port) :
    s.Acts after devId (after.port devId) bytes := by
  refine ⟨?_, hasSecondPort, wire⟩
  funext port
  by_cases same : port = devId
  · rw [same, Function.update_self]
  · rw [Function.update_of_ne same]
    simp only [Ps2Manager.port, devices port same, timeouts port same, connected port same, time,
      hasSecondPort]

theorem acts_refl : s.Acts s devId (s.port devId) [] := by
  apply acts_of_frame
  · exact fun _ _ => rfl
  · exact fun _ _ => rfl
  · rfl
  · exact fun _ _ => rfl
  · rfl
  · simp [onlyAt]

theorem acts_setDevice (dev : Device) :
    s.Acts (s.setDevice devId dev) devId { s.port devId with device := dev } [] := by
  have acts : s.Acts (s.setDevice devId dev) devId ((s.setDevice devId dev).port devId) [] := by
    apply acts_of_frame
    · intro port different
      exact Function.update_of_ne different _ _
    · exact fun _ _ => rfl
    · rfl
    · exact fun _ _ => rfl
    · rfl
    · simp [onlyAt, Ps2Manager.portBytes, Ps2Manager.setDevice]
  convert acts using 1
  simp [Ps2Manager.port, Ps2Manager.setDevice]

theorem acts_setTimeout (timeout : ℤ) :
    s.Acts (s.setTimeout devId timeout) devId { s.port devId with timeout := timeout } [] := by
  have acts :
      s.Acts (s.setTimeout devId timeout) devId ((s.setTimeout devId timeout).port devId) [] := by
    apply acts_of_frame
    · exact fun _ _ => rfl
    · intro port different
      exact Function.update_of_ne different _ _
    · rfl
    · exact fun _ _ => rfl
    · rfl
    · simp [onlyAt, Ps2Manager.portBytes, Ps2Manager.setTimeout]
  convert acts using 1
  simp [Ps2Manager.port, Ps2Manager.setTimeout]

theorem acts_setPortConnected (is : Bool) :
    s.Acts (s.setPortConnected devId is) devId { s.port devId with connected := is } [] := by
  have acts : s.Acts (s.setPortConnected devId is) devId
      ((s.setPortConnected devId is).port devId) [] := by
    apply acts_of_frame
    · exact fun _ _ => rfl
    · exact fun _ _ => rfl
    · rfl
    · intro port different
      exact setPortConnected_of_ne different
    · exact setPortConnected_hasSecondPort
    · simp [onlyAt, Ps2Manager.portBytes, Ps2Manager.setPortConnected]
  convert acts using 1
  simp [Ps2Manager.port, Ps2Manager.setPortConnected]

/-- The variables of the manager stay, and the controller sends. -/
theorem acts_of_sends {controller : Ps2Controller}
    (sends : s.controller.Sends controller (onlyAt devId bytes)) :
    s.Acts { s with controller := controller } devId (s.port devId) bytes := by
  have acts : s.Acts { s with controller := controller } devId
      (Ps2Manager.port { s with controller := controller } devId) bytes := by
    apply acts_of_frame
    · exact fun _ _ => rfl
    · exact fun _ _ => rfl
    · rfl
    · exact fun port _ => sends.connected port
    · exact sends.hasSecondPort
    · exact sends.wire
  convert acts using 1
  simp only [Ps2Manager.port, sends.connected, sends.hasSecondPort]

end Acts

end Osserver
