import Osserver.Ps2.Controller
import Osserver.Lib.Loop
import Mathlib.Logic.Function.Iterate

/-!
# The waits of the PS/2 controller

The functions of `controller.c` that write to the chip or read from it first wait for it:
they read the status register again and again, until the bit is right or the timeout of the
port is zero. Behind the loop they read the register once more, and that reading decides.
The timeouts are counted down by `timeout_timer`, which comes in between.

The model of the controller leaves it to the chip how each wait comes out. Here the loops
are run on what the driver reads, and what they come to is what that model says for a chip
that is like the readings behind the loops.
-/

namespace Osserver

open Loop Outcome

/-- One reading of the status register: how many ticks of the timer come from the reading
before until the timeout is looked at, what the register says, and what the data register
holds when it is read next. -/
structure Ps2Reading where
  ticks : ℕ
  status : UInt8
  data : UInt8

/-- The readings of one wait after another: those in its loop, and the one behind it. -/
structure Ps2Readings where
  inLoop : ℕ → ℕ → Ps2Reading
  behind : ℕ → Ps2Reading

/-- `PS2_PORT_TIMEOUT`. -/
def portTimeout : UInt32 := 20

/-- `timeout_timer` of `controller.c`. It looks at both timeouts, and lowers the first. -/
def controllerTimeoutTimer (timeouts : Ps2Port → UInt32) : Ps2Port → UInt32 :=
  let timeouts :=
    if timeouts .first > 0 then Function.update timeouts .first (timeouts .first - 5)
    else timeouts
  if timeouts .second > 0 then Function.update timeouts .first (timeouts .first - 5)
  else timeouts

/-- `PS2_CONTROLLER_STATUS_INPUT_FULL_BIT` is set. -/
def inputFull (status : UInt8) : Bool :=
  status &&& 2 = 2

/-- `PS2_CONTROLLER_STATUS_OUTPUT_READY_BIT` is not set. -/
def outputEmpty (status : UInt8) : Bool :=
  status &&& 1 ≠ 1

/-- The variables of `controller.c` with the timeouts. -/
structure Ps2Driver where
  controller : Ps2Controller
  timeouts : Ps2Port → UInt32

/-- One pass of a wait, at the reading of the given number. -/
def waitPass (readings : ℕ → Ps2Reading) (busy : UInt8 → Bool) (port : Ps2Port)
    (state : ℕ × (Ps2Port → UInt32)) :
    Pass (ℕ × (Ps2Port → UInt32)) (Ps2Port → UInt32) :=
  let reading := readings state.1
  let timeouts := controllerTimeoutTimer^[reading.ticks] state.2
  if busy reading.status ∧ timeouts port > 0 then .again (state.1 + 1, timeouts)
  else .done timeouts

namespace Ps2Driver

/-- A wait and the reading behind it, for at most `fuel` passes of the loop. -/
def wait (readings : Ps2Readings) (fuel : ℕ) (s : Ps2Driver) (busy : UInt8 → Bool)
    (port : Ps2Port) : Except Halt (Ps2Reading × Ps2Driver) :=
  let loop := waitPass (readings.inLoop s.controller.waits) busy port
  (loopResult (run loop fuel (0, s.timeouts))).map fun timeouts =>
    let reading := readings.behind s.controller.waits
    (reading,
      { controller := { s.controller with waits := s.controller.waits + 1 }
        timeouts := controllerTimeoutTimer^[reading.ticks] timeouts })

/-- `ps2_controller_timeouts[port] = PS2_PORT_TIMEOUT`. -/
def startTimeout (s : Ps2Driver) (port : Ps2Port) : Ps2Driver :=
  { s with timeouts := Function.update s.timeouts port portTimeout }

/-- What the writing functions have in common. -/
def write (readings : Ps2Readings) (fuel : ℕ) (s : Ps2Driver) (port : Ps2Port)
    (output : Ps2Write) : Except Halt (Bool × Ps2Driver) := do
  let (reading, s) ← s.wait readings fuel inputFull port
  if inputFull reading.status then return (false, s)
  else
    let controller := { s.controller with writes := s.controller.writes ++ [output] }
    return (true, { s with controller := controller })

/-- `send_command`. -/
def sendCommand (readings : Ps2Readings) (fuel : ℕ) (s : Ps2Driver) (command : UInt8)
    (port : Ps2Port) : Except Halt (Bool × Ps2Driver) :=
  (s.startTimeout port).write readings fuel port (.command command)

/-- `send_data_command`. -/
def sendDataCommand (readings : Ps2Readings) (fuel : ℕ) (s : Ps2Driver) (command data : UInt8)
    (port : Ps2Port) : Except Halt (Bool × Ps2Driver) :=
  (s.startTimeout port).write readings fuel port (.dataCommand command data)

/-- `send_data`, which goes on with the timeout that there is. -/
def sendData (readings : Ps2Readings) (fuel : ℕ) (s : Ps2Driver) (data : UInt8)
    (port : Ps2Port) : Except Halt (Bool × Ps2Driver) :=
  s.write readings fuel port (.data data)

/-- `get_response`. -/
def getResponse (readings : Ps2Readings) (fuel : ℕ) (s : Ps2Driver) (port : Ps2Port) :
    Except Halt (UInt8 × Ps2Driver) := do
  let (reading, s) ← (s.startTimeout port).wait readings fuel outputEmpty port
  if outputEmpty reading.status then return (0xFF, s) else return (reading.data, s)

/-- `ps2_controller_first_port_translation`. -/
def firstPortTranslation (readings : Ps2Readings) (fuel : ℕ) (s : Ps2Driver) (enable : Bool) :
    Except Halt Ps2Driver := do
  let (_, s) ← s.sendCommand readings fuel 0x20 .first
  let (config, s) ← s.getResponse readings fuel .first
  let config := if enable then config ||| 64 else config &&& ~~~64
  let (_, s) ← s.sendDataCommand readings fuel 0x60 config .first
  return s

/-- `ps2_controller_send`. -/
def controllerSend (readings : Ps2Readings) (fuel : ℕ) (s : Ps2Driver) (port : Ps2Port)
    (data : UInt8) : Except Halt (Bool × Ps2Driver) :=
  if !s.controller.isPortConnected port then .ok (true, s)
  else
    match port with
    | .first => s.sendData readings fuel data port
    | .second => s.sendDataCommand readings fuel sendToSecondPort data port

end Ps2Driver

/-- The chip that the readings behind the loops show. -/
def Ps2Readings.chip (readings : Ps2Readings) : Ps2Chip where
  input wait := if inputFull (readings.behind wait).status then .full else .empty
  output wait :=
    if outputEmpty (readings.behind wait).status then .empty
    else .byte (readings.behind wait).data

section Refinement

variable {readings : Ps2Readings} {fuel : ℕ} {s after : Ps2Driver} {port : Ps2Port}
  {busy : UInt8 → Bool} {reading : Ps2Reading} {sent : Bool} {output : Ps2Write}

theorem wait_eq_ok (returns : s.wait readings fuel busy port = .ok (reading, after)) :
    reading = readings.behind s.controller.waits ∧
      after.controller = { s.controller with waits := s.controller.waits + 1 } := by
  rcases map_eq_ok.mp returns with ⟨timeouts, _, result⟩
  cases result
  exact ⟨rfl, rfl⟩

/-- A write comes to what it comes to with the chip that the readings show. -/
theorem write_refines (returns : s.write readings fuel port output = .ok (sent, after)) :
    s.controller.write readings.chip output = .ok (sent, after.controller) := by
  rcases bind_eq_ok.mp returns with ⟨⟨reading, waited⟩, waits, rest⟩
  rcases wait_eq_ok waits with ⟨rfl, sameController⟩
  cases full : inputFull (readings.behind s.controller.waits).status with
  | true =>
      simp only [full, if_true] at rest
      cases rest
      simp only [Ps2Controller.write, Ps2Readings.chip, full, if_true, sameController]
  | false =>
      simp only [full, Bool.false_eq_true, if_false] at rest
      cases rest
      simp only [Ps2Controller.write, Ps2Readings.chip, full, Bool.false_eq_true, if_false,
        sameController]

theorem sendCommand_refines {command : UInt8}
    (returns : s.sendCommand readings fuel command port = .ok (sent, after)) :
    sendCommand readings.chip s.controller command = .ok (sent, after.controller) :=
  @write_refines readings fuel (s.startTimeout port) _ _ _ _ returns

theorem sendDataCommand_refines {command data : UInt8}
    (returns : s.sendDataCommand readings fuel command data port = .ok (sent, after)) :
    sendDataCommand readings.chip s.controller command data = .ok (sent, after.controller) :=
  @write_refines readings fuel (s.startTimeout port) _ _ _ _ returns

theorem getResponse_refines {value : UInt8}
    (returns : s.getResponse readings fuel port = .ok (value, after)) :
    getResponse readings.chip s.controller = .ok (value, after.controller) := by
  rcases bind_eq_ok.mp returns with ⟨⟨reading, waited⟩, waits, rest⟩
  rcases wait_eq_ok waits with ⟨rfl, sameController⟩
  have sameStart : (s.startTimeout port).controller = s.controller := rfl
  rw [sameStart] at sameController rest
  cases empty : outputEmpty (readings.behind s.controller.waits).status with
  | true =>
      simp only [empty, if_true] at rest
      cases rest
      simp only [getResponse, Ps2Readings.chip, empty, if_true, sameController]
  | false =>
      simp only [empty, Bool.false_eq_true, if_false] at rest
      cases rest
      simp only [getResponse, Ps2Readings.chip, empty, Bool.false_eq_true, if_false,
        sameController]

theorem controllerSend_refines {data : UInt8}
    (returns : s.controllerSend readings fuel port data = .ok (sent, after)) :
    controllerSend readings.chip s.controller port data = .ok (sent, after.controller) := by
  rw [controllerSend_eq]
  rw [Ps2Driver.controllerSend.eq_def] at returns
  cases connected : s.controller.isPortConnected port with
  | false =>
      simp only [connected, Bool.not_false, if_true] at returns
      cases returns
      rfl
  | true =>
      simp only [connected, Bool.not_true, Bool.false_eq_true, if_false] at returns
      rw [if_pos rfl]
      cases port with
      | first => exact write_refines returns
      | second => exact sendDataCommand_refines returns

theorem firstPortTranslation_refines {enable : Bool}
    (returns : s.firstPortTranslation readings fuel enable = .ok after) :
    firstPortTranslation readings.chip s.controller enable = .ok after.controller := by
  simp only [Ps2Driver.firstPortTranslation, bind_eq_ok, Prod.exists, pure, Except.pure,
    Except.ok.injEq] at returns
  rcases returns with ⟨_, asked, asks, config, answered, answers, _, written, writes, rfl⟩
  simp only [firstPortTranslation, bind_eq_ok, Prod.exists, pure, Except.pure, Except.ok.injEq]
  exact ⟨_, _, sendCommand_refines asks, _, _, getResponse_refines answers, _, _,
    sendDataCommand_refines writes, rfl⟩

end Refinement

end Osserver
