import Osserver.Ps2.Controller
import Mathlib.Algebra.Group.Nat.Defs
import Mathlib.Data.Int.Notation
import Mathlib.Tactic.SplitIfs

/-!
# The PS/2 device manager

The model of `generic/sys/ps2/manager.c`, with the set-up of a keyboard from `keyboard.c`
and the clock from `pit.c`. The manager is driven by four kinds of events: an interrupt
with a byte from the device at a port, its own timer, the port check, and a tick of the
clock. The bytes that reach `__ps2_keyboard_handle_byte` stay in a list.
-/

namespace Osserver

open Outcome

/-- The answers of a device, and the commands to it. -/
def responseOk : UInt8 := 0xAA
def responseError : UInt8 := 0xFC
def responseAck : UInt8 := 0xFA
def responseResend : UInt8 := 0xFE
def responseEcho : UInt8 := 0xEE
def commandDisableScanning : UInt8 := 0xF5
def commandIdentify : UInt8 := 0xF2
def commandEcho : UInt8 := 0xEE
def commandReset : UInt8 := 0xFF

/-- `PS2_DEVICE_MAX_PING`. -/
def maxPing : ℕ := 3000

/-- `PS2_DEVICE_MAX_BUFFER_SIZE`. -/
def maxBufferSize : ℕ := 4

/-- `PS2_MAX_TIMEOUT` and `PS2_INTERVAL`. -/
def maxTimeout : ℤ := 20
def timerInterval : ℤ := 5

/-- `device_state`. -/
inductive DeviceState where
  | notConnected
  | errored
  | connected
  | scanDisabled
  | identifyInProgress
  | ready
  deriving DecidableEq, Repr

/-- `device_type`. -/
inductive DeviceType where
  | unknown
  | keyboard
  | mouse
  | mouseWithScroll
  | mouseWith5Keys
  deriving DecidableEq, Repr

/-- `device`. The item is the command it holds, and the buffer the `buffer_size` bytes
that are in use. -/
structure Device where
  item : Option UInt8
  state : DeviceState
  type : DeviceType
  lastEcho : ℕ
  buffer : List UInt8
  supported : Bool
  fits : buffer.length ≤ maxBufferSize

/-- The variables of `manager.c`, the controller, the clock of `pit.c`, and the bytes that
the keyboard driver was passed. -/
structure Ps2Manager where
  devices : Ps2Port → Device
  timeouts : Ps2Port → ℤ
  controller : Ps2Controller
  time : ℕ
  handled : List (Ps2Port × UInt8)

/-- A device as the initialiser of `devices` has it. -/
def Device.boot : Device where
  item := none
  state := .notConnected
  type := .unknown
  lastEcho := 0
  buffer := []
  supported := false
  fits := Nat.zero_le _

/-- The manager behind `ps2_controller_init`, which may have found a second port. -/
def Ps2Manager.boot (hasSecondPort : Bool) : Ps2Manager where
  devices _ := Device.boot
  timeouts _ := -1
  controller :=
    { hasSecondPort := hasSecondPort
      firstPortConnected := false
      secondPortConnected := false
      waits := 0
      writes := [] }
  time := 0
  handled := []

/-- The manager with a keyboard at each port that is set up. -/
def keyboardsReady : Ps2Manager :=
  { Ps2Manager.boot true with
    devices := fun _ =>
      { Device.boot with state := .ready, type := .keyboard, supported := true } }

def Ps2Manager.setDevice (s : Ps2Manager) (devId : Ps2Port) (dev : Device) : Ps2Manager :=
  { s with devices := Function.update s.devices devId dev }

def Ps2Manager.setTimeout (s : Ps2Manager) (devId : Ps2Port) (timeout : ℤ) : Ps2Manager :=
  { s with timeouts := Function.update s.timeouts devId timeout }

def Ps2Manager.setPortConnected (s : Ps2Manager) (devId : Ps2Port) (is : Bool) : Ps2Manager :=
  { s with controller := s.controller.setPortConnected devId is }

@[simp]
theorem Ps2Manager.setPortConnected_devices {s : Ps2Manager} {devId : Ps2Port} {is : Bool} :
    (s.setPortConnected devId is).devices = s.devices := rfl

@[simp]
theorem Ps2Manager.setPortConnected_time {s : Ps2Manager} {devId : Ps2Port} {is : Bool} :
    (s.setPortConnected devId is).time = s.time := rfl

@[simp]
theorem Ps2Manager.setPortConnected_handled {s : Ps2Manager} {devId : Ps2Port} {is : Bool} :
    (s.setPortConnected devId is).handled = s.handled := rfl

/-- `dev->buffer[dev->buffer_size] = byte; dev->buffer_size++`. -/
def Device.push (dev : Device) (byte : UInt8) (room : dev.buffer.length < maxBufferSize) :
    Device :=
  { dev with
    buffer := dev.buffer ++ [byte]
    fits := by
      rw [List.length_append]
      exact room }

/-- The bytes that `__ps2_keyboard_setup` sends. -/
def keyboardSetupBytes : List UInt8 :=
  [0xF0, 1, 0xF3, 0x1b, 0xED, 0, 0xF4]

/-- `ok &= ps2_controller_send(devId, data)` for one byte after another. -/
def sendEach (chip : Ps2Chip) (devId : Ps2Port) :
    Bool → Ps2Controller → List UInt8 → Except Halt (Bool × Ps2Controller)
  | ok, s, [] => .ok (ok, s)
  | ok, s, data :: rest => do
      let (sent, s) ← controllerSend chip s devId data
      sendEach chip devId (ok && sent) s rest

def ps2KeyboardSetup (chip : Ps2Chip) (s : Ps2Manager) (devId : Ps2Port) (scancode2 : Bool) :
    Except Halt Ps2Manager := do
  let controller ←
    (if scancode2 then firstPortTranslation chip s.controller true else .ok s.controller)
  let (ok, controller) ← sendEach chip devId true controller keyboardSetupBytes
  if !ok then .error (.kpanic "asd") else .ok { s with controller := controller }

def ps2KeyboardHandleByte (s : Ps2Manager) (devId : Ps2Port) (byte : UInt8) : Ps2Manager :=
  { s with handled := s.handled ++ [(devId, byte)] }

/-- A call of `ps2_controller_send` whose result is not looked at. -/
def Ps2Manager.send (chip : Ps2Chip) (s : Ps2Manager) (devId : Ps2Port) (data : UInt8) :
    Except Halt Ps2Manager := do
  let (_, controller) ← controllerSend chip s.controller devId data
  return { s with controller := controller }

/-- `init_device` before its last line. -/
def identifyDevice (chip : Ps2Chip) (s : Ps2Manager) (devId : Ps2Port) (id : List UInt8) :
    Except Halt Ps2Manager :=
  match id with
  | [] =>
      let s := s.setDevice devId { s.devices devId with supported := true, type := .keyboard }
      ps2KeyboardSetup chip s devId false
  | [only] =>
      let dev := { s.devices devId with supported := true }
      if only = 0x00 then .ok (s.setDevice devId { dev with type := .mouse })
      else if only = 0x03 then .ok (s.setDevice devId { dev with type := .mouseWithScroll })
      else if only = 0x04 then .ok (s.setDevice devId { dev with type := .mouseWith5Keys })
      else .ok (s.setDevice devId { dev with supported := false })
  | [first, second] =>
      if first = 0xAB then
        let keyboard :=
          s.setDevice devId { s.devices devId with supported := true, type := .keyboard }
        if second = 0x41 ∨ second = 0xC1 then ps2KeyboardSetup chip keyboard devId false
        else if second = 0x83 then ps2KeyboardSetup chip keyboard devId true
        else .ok s
      else .ok s
  | _ => .ok s

def initDevice (chip : Ps2Chip) (s : Ps2Manager) (devId : Ps2Port) (id : List UInt8) :
    Except Halt Ps2Manager := do
  let s ← identifyDevice chip s devId id
  return s.setDevice devId { s.devices devId with state := .ready }

def routeToDeviceDriver (s : Ps2Manager) (devId : Ps2Port) (byte : UInt8) : Ps2Manager :=
  if (s.devices devId).type = .keyboard then ps2KeyboardHandleByte s devId byte else s

/-- What `timeout_timer` does for one port. -/
def timeoutTimerPort (chip : Ps2Chip) (s : Ps2Manager) (devId : Ps2Port) :
    Except Halt Ps2Manager :=
  if s.timeouts devId > 0 then .ok (s.setTimeout devId (s.timeouts devId - timerInterval))
  else if s.timeouts devId = 0 then do
    let s ← initDevice chip s devId (s.devices devId).buffer
    return s.setTimeout devId (-1)
  else .ok s

def timeoutTimer (chip : Ps2Chip) (s : Ps2Manager) : Except Halt Ps2Manager := do
  let s ← timeoutTimerPort chip s .first
  timeoutTimerPort chip s .second

/-- `handle_irq`, with the byte that `ps2_controller_read` returns. -/
def handleIrq (chip : Ps2Chip) (s : Ps2Manager) (devId : Ps2Port) (cmd : UInt8) :
    Except Halt Ps2Manager :=
  let s := s.setPortConnected devId true
  let dev := s.devices devId
  if dev.state = .notConnected ∧ ¬(cmd = responseOk ∨ cmd = responseError) then do
    let s := s.setDevice devId { dev with state := .ready, supported := true, type := .keyboard }
    let s ← ps2KeyboardSetup chip s devId true
    return ps2KeyboardHandleByte s devId cmd
  else if cmd = responseEcho then .ok (s.setDevice devId { dev with lastEcho := s.time })
  else if cmd = responseResend then
    match dev.item with
    | some command => s.send chip devId command
    | none => .ok s
  else if cmd = responseOk then
    (s.setDevice devId { dev with state := .connected }).send chip devId commandDisableScanning
  else if cmd = responseError then
    (s.setDevice devId { dev with state := .errored }).send chip devId commandReset
  else if cmd = responseAck then
    if dev.state = .connected then
      (s.setDevice devId { dev with state := .scanDisabled }).send chip devId commandIdentify
    else if dev.state = .scanDisabled then
      .ok ((s.setDevice devId { dev with state := .identifyInProgress }).setTimeout devId maxTimeout)
    else .ok s
  else if dev.state = .identifyInProgress then
    if room : dev.buffer.length < maxBufferSize then .ok (s.setDevice devId (dev.push cmd room))
    else .ok s
  else if dev.state = .ready ∧ dev.supported then .ok (routeToDeviceDriver s devId cmd)
  else .ok s

/-- `(time - last_echo) > PS2_DEVICE_MAX_PING`, with unsigned 64-bit numbers. -/
def expired (time lastEcho : ℕ) : Prop :=
  (time + 2 ^ 64 - lastEcho) % 2 ^ 64 > maxPing

instance (time lastEcho : ℕ) : Decidable (expired time lastEcho) :=
  inferInstanceAs (Decidable (_ > _))

/-- The first half of the port check, for one port: the device that has not answered for
too long is given up. -/
def checkPing (s : Ps2Manager) (devId : Ps2Port) : Ps2Manager :=
  if expired s.time (s.devices devId).lastEcho then
    (s.setDevice devId
      { s.devices devId with type := .unknown, state := .notConnected, item := none }
    ).setPortConnected devId false
  else s

/-- The second half, for one port: what is sent depends on the port that is asked about. -/
def probe (chip : Ps2Chip) (s : Ps2Manager) (asked port : Ps2Port) : Except Halt Ps2Manager :=
  if s.controller.isPortConnected asked then s.send chip port commandEcho
  else s.send chip port commandReset

def sendPortCheck (chip : Ps2Chip) (s : Ps2Manager) : Except Halt Ps2Manager := do
  let s := checkPing s .first
  let s := if s.controller.hasSecondPort then checkPing s .second else s
  let s ← probe chip s .first .first
  -- It is the first port again that is asked about.
  if s.controller.hasSecondPort then probe chip s .first .second else return s

/-- What drives the manager. -/
inductive Ps2Event where
  | irq (devId : Ps2Port) (cmd : UInt8)
  | timeoutTimer
  | sendPortCheck
  | pitTick
  deriving DecidableEq

def Ps2Manager.step (chip : Ps2Chip) (s : Ps2Manager) : Ps2Event → Except Halt Ps2Manager
  | .irq devId cmd => handleIrq chip s devId cmd
  | .timeoutTimer => timeoutTimer chip s
  | .sendPortCheck => sendPortCheck chip s
  | .pitTick => .ok { s with time := (s.time + 1) % 2 ^ 64 }

/-- The manager under a sequence of events. -/
def Ps2Manager.run (chip : Ps2Chip) : Ps2Manager → List Ps2Event → Except Halt Ps2Manager :=
  steps (Ps2Manager.step chip)

end Osserver
