import Osserver.Ps2.Refinement

/-!
# What the port check sends

The port check asks a device that is connected for an echo, and is meant to reset one that
is not. But the controller sends nothing to a port that is not connected, and reports
success; and for the second port the check asks about the first one again. So each port
that there is gets its command exactly when both are connected and stay so.
-/

namespace Osserver

open Outcome

/-- There is such a port. -/
def Ps2Manager.HasPort (s : Ps2Manager) (port : Ps2Port) : Prop :=
  port = .second → s.controller.hasSecondPort = true

/-- The device at the port got one command: an echo when the port is connected, and a reset
when it is not. -/
def Ps2Manager.Probed (s after : Ps2Manager) (port : Ps2Port) : Prop :=
  after.portBytes port = s.portBytes port ++
    [if after.controller.isPortConnected port then commandEcho else commandReset]

section Check

variable {chip : Ps2Chip} {s after : Ps2Manager} {port : Ps2Port} {state : Ps2PortState}

theorem Ps2Manager.hasPort_iff : s.HasPort port ↔ (s.port port).checked = true := by
  cases port with
  | first => simp [Ps2Manager.HasPort, Ps2Manager.port]
  | second => simp [Ps2Manager.HasPort, Ps2Manager.port]

/-- A port stays connected in the check when its device has answered of late. -/
theorem check_connected_iff (checked : state.checked = true) :
    state.check.connected = true ↔
      state.connected = true ∧ ¬expired state.time state.device.lastEcho := by
  rw [Ps2PortState.check]
  by_cases late : expired state.time state.device.lastEcho
  · rw [if_pos ⟨checked, late⟩]
    simp [late]
  · rw [if_neg fun both => late both.2]
    simp [late]

/-- What the check sends to a port when the chip takes it. -/
theorem sendPortCheck_portBytes (ready : chip.ReadyFrom s.controller.waits)
    (returns : sendPortCheck chip s = .ok after) (hasPort : s.HasPort port) :
    after.portBytes port = s.portBytes port ++
        (if (s.port port).check.connected then
          [if (s.port .first).check.connected then commandEcho else commandReset] else []) ∧
      after.controller.isPortConnected port = (s.port port).check.connected := by
  rcases sendPortCheck_effect returns with ⟨bytes, effect, _, toFirst, toSecond⟩
  have connected : (after.port port).connected = (s.port port).check.connected := by
    rw [effect.ports]
  refine ⟨?_, connected⟩
  rw [effect.wire]
  cases port with
  | first =>
      rw [toFirst]
      cases (s.port .first).check.connected with
      | true => simp [ready _ (Nat.le_refl _)]
      | false => simp
  | second =>
      have checked : (s.port .second).checked = true := Ps2Manager.hasPort_iff.mp hasPort
      rw [toSecond, checked, ready _ (Nat.le_add_right _ _)]
      simp

/-- A port gets its command when it is still connected, and the first port is too. -/
theorem probed_iff (ready : chip.ReadyFrom s.controller.waits)
    (returns : sendPortCheck chip s = .ok after) (hasPort : s.HasPort port) :
    s.Probed after port ↔
      (s.port port).check.connected = true ∧ (s.port .first).check.connected = true := by
  rcases sendPortCheck_portBytes ready returns hasPort with ⟨bytes, connected⟩
  rw [Ps2Manager.Probed, bytes, connected, List.append_cancel_left_eq]
  cases (s.port port).check.connected with
  | true =>
      cases (s.port .first).check.connected with
      | true => simp
      | false => simp [commandEcho, commandReset]
  | false => simp

end Check

/-- When the chip takes what is written from now on, the check sends each port its command
exactly when every port is connected and none is given up. -/
theorem sendPortCheck_probes_iff {chip : Ps2Chip} {s : Ps2Manager}
    (ready : chip.ReadyFrom s.controller.waits) :
    (∃ after, sendPortCheck chip s = .ok after ∧ ∀ port, s.HasPort port → s.Probed after port) ↔
      ∀ port, s.HasPort port → s.controller.isPortConnected port = true ∧
        ¬expired s.time (s.devices port).lastEcho := by
  have stays : ∀ port, s.HasPort port → ((s.port port).check.connected = true ↔
      s.controller.isPortConnected port = true ∧ ¬expired s.time (s.devices port).lastEcho) :=
    fun port hasPort => check_connected_iff (Ps2Manager.hasPort_iff.mp hasPort)
  have hasFirst : s.HasPort .first := nofun
  constructor
  · rintro ⟨after, returns, probed⟩ port hasPort
    exact (stays port hasPort).mp ((probed_iff ready returns hasPort).mp (probed port hasPort)).1
  · intro connected
    rcases sendPortCheck_returns ready with ⟨after, returns⟩
    refine ⟨after, returns, ?_⟩
    intro port hasPort
    apply (probed_iff ready returns hasPort).mpr
    exact ⟨(stays port hasPort).mpr (connected port hasPort),
      (stays .first hasFirst).mpr (connected .first hasFirst)⟩

/-- A keyboard at each port, of which bytes have come. -/
theorem sendPortCheck_probes_iff_keyboards :
    ∃ s, (Ps2Manager.boot true).run readyChip [.irq .first 0x1C, .irq .second 0x1C] = .ok s ∧
      ∃ after, sendPortCheck readyChip s = .ok after ∧
        ∀ port, s.HasPort port → s.Probed after port := by
  rcases @run_returns readyChip (Ps2Manager.boot true) [.irq .first 0x1C, .irq .second 0x1C]
    readyChip_responsive with ⟨s, returns⟩
  refine ⟨s, returns, ?_⟩
  apply (sendPortCheck_probes_iff fun wait _ => readyChip_responsive.1 wait).mpr
  intro port _
  have atPort := @run_port readyChip _ s _ port returns
  have connected : s.controller.isPortConnected port = true := by
    apply (congrArg Ps2PortState.connected atPort).trans
    cases port with
    | first => rfl
    | second => rfl
  have time : s.time = 0 := by
    apply (congrArg Ps2PortState.time atPort).trans
    cases port with
    | first => rfl
    | second => rfl
  have lastEcho : (s.devices port).lastEcho = 0 := by
    apply (congrArg (fun state => state.device.lastEcho) atPort).trans
    cases port with
    | first => rfl
    | second => rfl
  refine ⟨connected, ?_⟩
  rw [time, lastEcho]
  decide

/-- With nothing connected, as at the first check of all, no device is asked to reset. -/
theorem sendPortCheck_not_probed :
    (∃ after, sendPortCheck readyChip (Ps2Manager.boot true) = .ok after ∧
      after.portBytes .first = [] ∧ after.portBytes .second = []) ∧
    ¬∃ after, sendPortCheck readyChip (Ps2Manager.boot true) = .ok after ∧
      ∀ port, (Ps2Manager.boot true).HasPort port → (Ps2Manager.boot true).Probed after port := by
  refine ⟨⟨_, rfl, rfl, rfl⟩, ?_⟩
  rintro ⟨after, returns, probed⟩
  have resets := probed .first nofun
  cases returns
  cases resets

end Osserver
