import Osserver.Halt
import Osserver.Lib.Outcome
import Mathlib.Logic.Function.Basic

/-!
# The PS/2 controller

The model of what `generic/sys/ps2/controller.c` does for its callers: it writes commands
and data to the registers of the chip, and remembers which ports a device is connected
to. A write waits for the input buffer of the chip, and a read of the configuration for
its output buffer; how each wait ends is left to the chip. What is written stays in a
list, and the bytes that a device at a port gets are read off that list.
-/

namespace Osserver

open Outcome

/-- `ps2_port`. -/
inductive Ps2Port where
  | first
  | second
  deriving DecidableEq, Repr

/-- How a wait for the input buffer ends: it becomes empty; it is still full when the time
is over; or neither happens and the loop goes on. -/
inductive InputWait where
  | empty
  | full
  | forever
  deriving DecidableEq

/-- How a wait for the output buffer ends: a byte is there; it is still empty when the
time is over; or the loop goes on. -/
inductive OutputWait where
  | byte (value : UInt8)
  | empty
  | forever
  deriving DecidableEq

/-- The chip, as the waits of the driver come out one after another. -/
structure Ps2Chip where
  input : ℕ → InputWait
  output : ℕ → OutputWait

/-- The controller is always ready to accept data. -/
def Ps2Chip.AlwaysReady (chip : Ps2Chip) : Prop :=
  ∀ wait, chip.input wait = .empty

/-- It is from the given wait on. -/
def Ps2Chip.ReadyFrom (chip : Ps2Chip) (wait : ℕ) : Prop :=
  ∀ later, wait ≤ later → chip.input later = .empty

/-- It is always, and it also answers or stays silent in time. -/
def Ps2Chip.Responsive (chip : Ps2Chip) : Prop :=
  chip.AlwaysReady ∧ ∀ wait, chip.output wait ≠ .forever

/-- A chip that takes every byte, and gives a configuration of zeros. -/
def readyChip : Ps2Chip where
  input _ := .empty
  output _ := .byte 0

theorem readyChip_responsive : readyChip.Responsive :=
  ⟨fun _ => rfl, fun _ => nofun⟩

/-- What is written to the registers: a command to 0x64, a command to 0x64 and then a byte
to 0x60, or a byte to 0x60. -/
inductive Ps2Write where
  | command (command : UInt8)
  | dataCommand (command data : UInt8)
  | data (data : UInt8)
  deriving DecidableEq

/-- The variables of `controller.c`, how many waits there have been and what has been
written. -/
structure Ps2Controller where
  hasSecondPort : Bool
  firstPortConnected : Bool
  secondPortConnected : Bool
  waits : ℕ
  writes : List Ps2Write
  deriving DecidableEq

/-- `PS2_CONTROLLER_SEND_TO_2_PORT`. -/
def sendToSecondPort : UInt8 := 0xD4

/-- What the writing functions have in common. -/
def Ps2Controller.write (chip : Ps2Chip) (s : Ps2Controller) (output : Ps2Write) :
    Except Halt (Bool × Ps2Controller) :=
  match chip.input s.waits with
  | .empty => .ok (true, { s with waits := s.waits + 1, writes := s.writes ++ [output] })
  | .full => .ok (false, { s with waits := s.waits + 1 })
  | .forever => .error .endlessLoop

def sendCommand (chip : Ps2Chip) (s : Ps2Controller) (command : UInt8) :
    Except Halt (Bool × Ps2Controller) :=
  s.write chip (.command command)

def sendDataCommand (chip : Ps2Chip) (s : Ps2Controller) (command data : UInt8) :
    Except Halt (Bool × Ps2Controller) :=
  s.write chip (.dataCommand command data)

def sendData (chip : Ps2Chip) (s : Ps2Controller) (data : UInt8) :
    Except Halt (Bool × Ps2Controller) :=
  s.write chip (.data data)

/-- `get_response`, with -1 as a byte when none comes. -/
def getResponse (chip : Ps2Chip) (s : Ps2Controller) : Except Halt (UInt8 × Ps2Controller) :=
  match chip.output s.waits with
  | .byte value => .ok (value, { s with waits := s.waits + 1 })
  | .empty => .ok (0xFF, { s with waits := s.waits + 1 })
  | .forever => .error .endlessLoop

def firstPortTranslation (chip : Ps2Chip) (s : Ps2Controller) (enable : Bool) :
    Except Halt Ps2Controller := do
  let (_, s) ← sendCommand chip s 0x20
  let (config, s) ← getResponse chip s
  let config := if enable then config ||| 64 else config &&& ~~~64
  let (_, s) ← sendDataCommand chip s 0x60 config
  return s

def Ps2Controller.isPortConnected (s : Ps2Controller) : Ps2Port → Bool
  | .first => s.firstPortConnected
  | .second => s.secondPortConnected

def Ps2Controller.setPortConnected (s : Ps2Controller) (port : Ps2Port) (is : Bool) :
    Ps2Controller :=
  match port with
  | .first => { s with firstPortConnected := is }
  | .second => { s with secondPortConnected := is }

/-- `ps2_controller_send`: a byte for a port that is not connected counts as sent. -/
def controllerSend (chip : Ps2Chip) (s : Ps2Controller) (port : Ps2Port) (data : UInt8) :
    Except Halt (Bool × Ps2Controller) :=
  if (port = .first ∧ !s.firstPortConnected) ∨ (port = .second ∧ !s.secondPortConnected) then
    .ok (true, s)
  else
    match port with
    | .first => sendData chip s data
    | .second => sendDataCommand chip s sendToSecondPort data

/-- The byte that the device at the port gets from a write. -/
def Ps2Write.deviceByte (port : Ps2Port) : Ps2Write → Option UInt8
  | .command _ => none
  | .dataCommand sendTo byte =>
      if port = .second ∧ sendTo = sendToSecondPort then some byte else none
  | .data byte => if port = .first then some byte else none

/-- The bytes that the device at the port has got. -/
def Ps2Controller.portBytes (s : Ps2Controller) (port : Ps2Port) : List UInt8 :=
  s.writes.filterMap (Ps2Write.deviceByte port)

/-- What a byte for the device at a port is written as. -/
def Ps2Port.wireWrite (data : UInt8) : Ps2Port → Ps2Write
  | .first => .data data
  | .second => .dataCommand sendToSecondPort data

/-- Nothing but the waits and the bytes on the wires differs, and the device at each port
has got the bytes that are given for it. -/
structure Ps2Controller.Sends (s after : Ps2Controller) (bytes : Ps2Port → List UInt8) : Prop where
  hasSecondPort : after.hasSecondPort = s.hasSecondPort
  connected : ∀ port, after.isPortConnected port = s.isPortConnected port
  wire : ∀ port, after.portBytes port = s.portBytes port ++ bytes port

/-- The bytes of one port alone. -/
def onlyAt (port : Ps2Port) (bytes : List UInt8) : Ps2Port → List UInt8 :=
  fun other => if other = port then bytes else []

section Send

variable {chip : Ps2Chip} {s middle after : Ps2Controller} {port other : Ps2Port} {data : UInt8}
  {sent : Bool} {bytes more : Ps2Port → List UInt8}

@[simp]
theorem setPortConnected_self {is : Bool} :
    (s.setPortConnected port is).isPortConnected port = is := by
  cases port with
  | first => rfl
  | second => rfl

theorem setPortConnected_of_ne {is : Bool} (different : other ≠ port) :
    (s.setPortConnected port is).isPortConnected other = s.isPortConnected other := by
  cases port with
  | first =>
      cases other with
      | first => exact absurd rfl different
      | second => rfl
  | second =>
      cases other with
      | first => rfl
      | second => exact absurd rfl different

@[simp]
theorem setPortConnected_hasSecondPort {is : Bool} :
    (s.setPortConnected port is).hasSecondPort = s.hasSecondPort := by
  cases port with
  | first => rfl
  | second => rfl

@[simp]
theorem setPortConnected_portBytes {is : Bool} :
    (s.setPortConnected port is).portBytes other = s.portBytes other := by
  cases port with
  | first => rfl
  | second => rfl

@[simp]
theorem setPortConnected_waits {is : Bool} :
    (s.setPortConnected port is).waits = s.waits := by
  cases port with
  | first => rfl
  | second => rfl

namespace Ps2Controller.Sends

theorem refl : s.Sends s (fun _ => []) := by
  refine ⟨rfl, fun _ => rfl, ?_⟩
  intro port
  simp

theorem trans (first : s.Sends middle bytes) (second : middle.Sends after more) :
    s.Sends after (fun port => bytes port ++ more port) := by
  refine ⟨?_, ?_, ?_⟩
  · rw [second.hasSecondPort, first.hasSecondPort]
  · intro port
    rw [second.connected, first.connected]
  · intro port
    rw [second.wire, first.wire, List.append_assoc]

theorem congr (sends : s.Sends after bytes) (same : ∀ port, bytes port = more port) :
    s.Sends after more := by
  refine ⟨sends.hasSecondPort, sends.connected, ?_⟩
  intro port
  rw [sends.wire, same]

end Ps2Controller.Sends

/-- To wait sends nothing. -/
theorem sends_of_waits (waits : ℕ) : s.Sends { s with waits := waits } (fun _ => []) := by
  refine ⟨rfl, ?_, ?_⟩
  · intro port
    cases port with
    | first => rfl
    | second => rfl
  · intro port
    simp [Ps2Controller.portBytes]

/-- A write puts the byte it has for a device on the wire when the chip is ready. -/
theorem write_sends {output : Ps2Write} (returns : s.write chip output = .ok (sent, after)) :
    s.Sends after (fun port => if sent then (output.deviceByte port).toList else []) ∧
      (sent = true ↔ chip.input s.waits = .empty) := by
  rw [Ps2Controller.write] at returns
  split at returns
  case h_1 ready =>
    cases returns
    refine ⟨⟨rfl, ?_, ?_⟩, by simp [ready]⟩
    · intro port
      cases port with
      | first => rfl
      | second => rfl
    · intro port
      simp only [Ps2Controller.portBytes, List.filterMap_append, if_true]
      cases given : output.deviceByte port with
      | none => simp [given]
      | some data => simp [given]
  case h_2 ready =>
    cases returns
    exact ⟨sends_of_waits _, by simp [ready]⟩
  case h_3 => cases returns

theorem getResponse_sends {value : UInt8} (returns : getResponse chip s = .ok (value, after)) :
    s.Sends after (fun _ => []) := by
  have keeps : after = { s with waits := s.waits + 1 } := by
    rw [getResponse] at returns
    split at returns
    · cases returns
      rfl
    · cases returns
      rfl
    · cases returns
  rw [keeps]
  exact sends_of_waits _

/-- The configuration is no byte for a device. -/
theorem firstPortTranslation_sends {enable : Bool}
    (returns : firstPortTranslation chip s enable = .ok after) :
    s.Sends after (fun _ => []) := by
  simp only [firstPortTranslation, bind_eq_ok, Prod.exists, pure, Except.pure, Except.ok.injEq]
    at returns
  rcases returns with ⟨_, afterCommand, command, config, afterResponse, response, _, _, write, rfl⟩
  have first := (write_sends command).1
  have second := getResponse_sends response
  have third := (write_sends write).1
  apply ((first.trans second).trans third).congr
  intro port
  simp [Ps2Write.deviceByte, sendToSecondPort]

theorem deviceByte_wireWrite :
    (port.wireWrite data).deviceByte other = if other = port then some data else none := by
  cases port with
  | first => rfl
  | second => simp [Ps2Port.wireWrite, Ps2Write.deviceByte]

/-- A byte is written for a port that is connected. -/
theorem controllerSend_eq : controllerSend chip s port data =
    if s.isPortConnected port then s.write chip (port.wireWrite data) else .ok (true, s) := by
  cases port with
  | first =>
      cases connected : s.firstPortConnected with
      | false => simp [controllerSend, Ps2Controller.isPortConnected, connected]
      | true => simp [controllerSend, Ps2Controller.isPortConnected, connected, Ps2Port.wireWrite,
          sendData]
  | second =>
      cases connected : s.secondPortConnected with
      | false => simp [controllerSend, Ps2Controller.isPortConnected, connected]
      | true => simp [controllerSend, Ps2Controller.isPortConnected, connected, Ps2Port.wireWrite,
          sendDataCommand]

/-- A byte is sent to a device that is connected, when the chip is ready. -/
theorem controllerSend_sends (returns : controllerSend chip s port data = .ok (sent, after)) :
    s.Sends after (onlyAt port
        (if s.isPortConnected port = true ∧ chip.input s.waits = .empty then [data] else [])) ∧
      (sent = true ↔ (s.isPortConnected port = true → chip.input s.waits = .empty)) := by
  rw [controllerSend_eq] at returns
  by_cases connected : s.isPortConnected port = true
  · rw [if_pos connected] at returns
    rcases write_sends returns with ⟨sends, ready⟩
    simp only [connected, true_and, forall_const]
    refine ⟨sends.congr ?_, ready⟩
    intro other
    rw [deviceByte_wireWrite, onlyAt]
    by_cases here : other = port
    · simp [here, ready]
    · simp [here]
  · rw [if_neg connected] at returns
    cases returns
    constructor
    · apply Ps2Controller.Sends.refl.congr
      intro other
      simp [onlyAt, connected]
    · simp [connected]

/-- A chip that is ready takes what is written to it. -/
theorem write_returns (output : Ps2Write) (ready : chip.input s.waits = .empty) :
    ∃ after, s.write chip output = .ok (true, after) := by
  rw [Ps2Controller.write, ready]
  exact ⟨_, rfl⟩

theorem firstPortTranslation_returns {enable : Bool} (responsive : chip.Responsive) :
    ∃ after, firstPortTranslation chip s enable = .ok after := by
  rcases @write_returns chip s (.command 0x20) (responsive.1 _) with ⟨asked, asks⟩
  have answers : ∃ config answered, getResponse chip asked = .ok (config, answered) := by
    cases response : chip.output asked.waits with
    | byte value => exact ⟨value, _, by rw [getResponse, response]⟩
    | empty => exact ⟨0xFF, _, by rw [getResponse, response]⟩
    | forever => exact absurd response (responsive.2 _)
  rcases answers with ⟨config, answered, answers⟩
  rcases @write_returns chip answered
      (.dataCommand 0x60 (if enable then config ||| 64 else config &&& ~~~64)) (responsive.1 _) with
    ⟨after, writes⟩
  refine ⟨after, ?_⟩
  simp only [firstPortTranslation, bind_eq_ok]
  exact ⟨_, asks, _, answers, _, writes, rfl⟩

theorem controllerSend_returns (ready : chip.input s.waits = .empty) :
    ∃ after, controllerSend chip s port data = .ok (true, after) := by
  rw [controllerSend_eq]
  by_cases connected : s.isPortConnected port = true
  · rw [if_pos connected]
    exact write_returns _ ready
  · rw [if_neg connected]
    exact ⟨s, rfl⟩

theorem write_waits {output : Ps2Write} (returns : s.write chip output = .ok (sent, after)) :
    after.waits = s.waits + 1 := by
  rw [Ps2Controller.write] at returns
  split at returns
  · cases returns
    rfl
  · cases returns
    rfl
  · cases returns

/-- Only a byte for a port that is connected is waited for. -/
theorem controllerSend_waits (returns : controllerSend chip s port data = .ok (sent, after)) :
    after.waits = s.waits + if s.isPortConnected port then 1 else 0 := by
  rw [controllerSend_eq] at returns
  by_cases connected : s.isPortConnected port = true
  · rw [if_pos connected] at returns ⊢
    exact write_waits returns
  · rw [if_neg connected] at returns ⊢
    cases returns
    rfl

end Send

end Osserver
