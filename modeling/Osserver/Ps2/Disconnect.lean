import Osserver.Ps2.Timeouts
import Mathlib.Tactic.NormNum

/-!
# Devices that are given up

The port check gives up a device that has not answered an echo for three seconds. It goes
by a stamp that only the answers to an echo renew. A device that is attached late finds
an old stamp, and is given up by the first check, which has asked it for nothing yet.

What the manager has sent and received is kept beside it here, as far as one needs it to
say when giving up a device is justified.
-/

namespace Osserver

open Outcome Transition

/-- The manager, how long it has been running, and for each port: whether an echo has been
asked for since the device last was not connected; when the last answer came; and whether
there has been no port check since the device was not connected. -/
structure Ps2History where
  manager : Ps2Manager
  elapsed : ℕ
  echoSent : Ps2Port → Bool
  lastResponse : Ps2Port → Option ℕ
  fresh : Ps2Port → Bool

/-- The device is connected by the event. -/
def leaves (s after : Ps2Manager) (port : Ps2Port) : Bool :=
  (s.devices port).state = .notConnected ∧ (after.devices port).state ≠ .notConnected

/-- An event, with what it adds to the history. -/
def Ps2History.step (chip : Ps2Chip) (h : Ps2History) (event : Ps2Event) :
    Except Halt Ps2History := do
  let manager ← h.manager.step chip event
  return {
    manager := manager
    elapsed := if event = .pitTick then h.elapsed + 1 else h.elapsed
    echoSent := fun port =>
      commandEcho ∈ (manager.portBytes port).drop (h.manager.portBytes port).length ∨
        h.echoSent port ∧ !leaves h.manager manager port
    lastResponse := fun port =>
      if event = .irq port responseEcho then some h.elapsed else h.lastResponse port
    fresh := fun port =>
      event ≠ .sendPortCheck ∧ (leaves h.manager manager port ∨ h.fresh port) }

/-- The history from boot on. -/
def ps2HistorySystem (chip : Ps2Chip) : System Ps2History Ps2Event :=
  system (fun h => ∃ hasSecondPort, h =
    { manager := Ps2Manager.boot hasSecondPort
      elapsed := 0
      echoSent := fun _ => false
      lastResponse := fun _ => none
      fresh := fun _ => false }) (Ps2History.step chip)

/-- The device has been asked for an echo since it was connected, and has not answered
within the time it has. -/
def Ps2History.MayGiveUp (h : Ps2History) (port : Ps2Port) : Prop :=
  h.echoSent port = true ∧ ∀ received, h.lastResponse port = some received →
    h.elapsed - received > maxPing

/-- The port check finds the stamp of the device young enough, and asks it for an echo: the
port is connected, the first port too, and the chip takes the byte. -/
def Ps2Manager.Attends (chip : Ps2Chip) (s : Ps2Manager) (port : Ps2Port) : Prop :=
  ¬expired s.time (s.devices port).lastEcho ∧ (s.port port).connected = true ∧
    match port with
    | .first => chip.input s.controller.waits = .empty
    | .second =>
        (s.port .first).check.connected = true ∧
          chip.input (s.controller.waits + 1) = .empty

/-- A device that is not connected does not begin with an echo, and the first port check
behind that attends to the device. -/
def Ps2History.Attended (chip : Ps2Chip) (h : Ps2History) : Ps2Event → Prop
  | .irq port cmd => cmd = responseEcho → (h.manager.devices port).state ≠ .notConnected
  | .sendPortCheck => ∀ port, (h.manager.devices port).state ≠ .notConnected →
      (h.manager.port port).checked = true → h.fresh port = true → h.manager.Attends chip port
  | .timeoutTimer | .pitTick => True

section Machine

variable {state : Ps2PortState} {port : Ps2Port} {event : Ps2Event} {cmd : UInt8}

/-- A byte leaves the clock and the queued command alone, and the stamp too when it is no
answer to an echo. -/
theorem receive_frame :
    (state.receive cmd).time = state.time ∧
      (state.receive cmd).device.item = state.device.item ∧
      (cmd ≠ responseEcho → (state.receive cmd).device.lastEcho = state.device.lastEcho) := by
  rw [Ps2PortState.receive]
  dsimp only
  split_ifs with attaches echo
  · exact ⟨rfl, rfl, fun _ => rfl⟩
  · exact ⟨rfl, rfl, fun other => absurd echo other⟩
  all_goals exact ⟨rfl, rfl, fun _ => rfl⟩

/-- The answer to an echo renews the stamp, when it does not connect the device. -/
theorem receive_echo (attached : state.device.state ≠ .notConnected) :
    (state.receive responseEcho).device.lastEcho = state.time := by
  simp [Ps2PortState.receive, attached]

theorem identified_lastEcho (dev : Device) : dev.identified.lastEcho = dev.lastEcho := by
  cases known : deviceOfId dev.buffer with
  | some type => rw [identified_of_some known]
  | none => rw [identified_of_none known]

theorem step_lastEcho (other : event ≠ .irq port responseEcho) :
    (state.step port event).device.lastEcho = state.device.lastEcho := by
  cases event with
  | irq devId cmd =>
      by_cases same : devId = port
      · rw [Ps2PortState.step, if_pos same]
        apply receive_frame.2.2
        rintro rfl
        rw [same] at other
        exact other rfl
      · rw [Ps2PortState.step, if_neg same]
  | timeoutTimer =>
      rw [Ps2PortState.step, Ps2PortState.tick]
      split_ifs
      · rfl
      · exact identified_lastEcho _
      · rfl
  | sendPortCheck =>
      rw [Ps2PortState.step, Ps2PortState.check]
      split_ifs
      · rfl
      · rfl
  | pitTick => rfl

/-- A device that is still connected behind the port check has not been given up. -/
theorem check_kept (kept : state.check.device.state ≠ .notConnected) :
    state.device.state ≠ .notConnected := by
  rw [Ps2PortState.check] at kept
  split_ifs at kept
  · exact absurd rfl kept
  · exact kept

theorem check_gone (was : state.device.state ≠ .notConnected)
    (gone : state.check.device.state = .notConnected) :
    state.checked = true ∧ expired state.time state.device.lastEcho := by
  by_contra young
  rw [Ps2PortState.check, if_neg young] at gone
  exact was gone

theorem check_connected (young : ¬expired state.time state.device.lastEcho) :
    state.check.connected = state.connected := by
  rw [Ps2PortState.check, if_neg fun both => young both.2]

theorem step_item (empty : state.device.item = none) :
    (state.step port event).device.item = none := by
  cases event with
  | irq devId cmd =>
      rw [Ps2PortState.step]
      split_ifs
      · exact receive_frame.2.1.trans empty
      · exact empty
  | timeoutTimer =>
      rw [Ps2PortState.step, Ps2PortState.tick]
      split_ifs
      · exact empty
      · cases known : deviceOfId state.device.buffer with
        | some type =>
            rw [identified_of_some known]
            exact empty
        | none =>
            rw [identified_of_none known]
            exact empty
      · exact empty
  | sendPortCheck =>
      rw [Ps2PortState.step, Ps2PortState.check]
      split_ifs
      · rfl
      · exact empty
  | pitTick => exact empty

/-- Nothing but the port check asks a device for an echo. -/
theorem echo_notMem_bytes {asked : Bool} (empty : state.device.item = none)
    (noCheck : event ≠ .sendPortCheck) : commandEcho ∉ state.bytes port asked event := by
  have setup : commandEcho ∉ keyboardSetupBytes := by decide
  cases event with
  | irq devId cmd =>
      rw [Ps2PortState.bytes]
      split_ifs
      · rw [Ps2PortState.answers, empty]
        split_ifs
        · exact setup
        · simp
        · simp
        · decide
        · decide
        · decide
        · simp
        · simp
      · simp
  | timeoutTimer =>
      rw [Ps2PortState.bytes, Ps2PortState.tickBytes, Device.identifyBytes]
      split_ifs
      · exact setup
      · simp
      · simp
  | sendPortCheck => exact absurd rfl noCheck
  | pitTick => simp [Ps2PortState.bytes]

theorem step_time :
    (state.step port event).time =
      if event = .pitTick then (state.time + 1) % 2 ^ 64 else state.time := by
  cases event with
  | irq devId cmd =>
      rw [if_neg (by simp), Ps2PortState.step]
      split_ifs
      · exact receive_frame.1
      · rfl
  | timeoutTimer =>
      rw [if_neg (by simp), Ps2PortState.step, Ps2PortState.tick]
      split_ifs
      all_goals rfl
  | sendPortCheck =>
      rw [if_neg (by simp), Ps2PortState.step, Ps2PortState.check]
      split_ifs
      all_goals rfl
  | pitTick => rw [if_pos rfl, Ps2PortState.step]

end Machine

/-- What a history keeps in a run in which devices are attended to: the clock of the manager is
the time since boot; a device that is connected has been asked for an echo, or there has
been no port check since; and the last answer is what the stamp says. -/
structure Ps2History.Kept (h : Ps2History) : Prop where
  clock : h.manager.time = h.elapsed % 2 ^ 64
  probed : ∀ port, (h.manager.devices port).state ≠ .notConnected →
    (h.manager.port port).checked = true → h.fresh port = true ∨ h.echoSent port = true
  stamped : ∀ port received, h.lastResponse port = some received →
    (h.manager.devices port).lastEcho = received % 2 ^ 64 ∧ received ≤ h.elapsed

section Run

variable {chip : Ps2Chip} {h next : Ps2History} {event : Ps2Event} {port : Ps2Port}

theorem history_step_eq_ok : h.step chip event = .ok next ↔
    ∃ manager, h.manager.step chip event = .ok manager ∧ next =
      { manager := manager
        elapsed := if event = .pitTick then h.elapsed + 1 else h.elapsed
        echoSent := fun port =>
          commandEcho ∈ (manager.portBytes port).drop (h.manager.portBytes port).length ∨
            h.echoSent port ∧ !leaves h.manager manager port
        lastResponse := fun port =>
          if event = .irq port responseEcho then some h.elapsed else h.lastResponse port
        fresh := fun port =>
          event ≠ .sendPortCheck ∧ (leaves h.manager manager port ∨ h.fresh port) } := by
  rw [Ps2History.step, bind_eq_ok]
  constructor
  · rintro ⟨manager, returns, result⟩
    cases result
    exact ⟨manager, returns, rfl⟩
  · rintro ⟨manager, returns, rfl⟩
    exact ⟨manager, returns, rfl⟩

/-- The bytes that a step sends to a port. -/
theorem drop_portBytes {s after : Ps2Manager} {ports : Ps2Port → Ps2PortState}
    {bytes : Ps2Port → List UInt8} (effect : s.Effect after ports bytes) :
    (after.portBytes port).drop (s.portBytes port).length = bytes port := by
  rw [effect.wire, List.drop_left]

/-- A check that attends to a device asks it for an echo. -/
theorem echo_of_attends {s after : Ps2Manager} (checked : (s.port port).checked = true)
    (attends : s.Attends chip port) (returns : s.step chip .sendPortCheck = .ok after) :
    commandEcho ∈ (after.portBytes port).drop (s.portBytes port).length := by
  rcases sendPortCheck_effect returns with ⟨bytes, effect, _, toFirst, toSecond⟩
  rw [drop_portBytes effect]
  rcases attends with ⟨young, connected, reached⟩
  have stays : (s.port port).check.connected = true := by
    rw [check_connected young]
    exact connected
  cases port with
  | first =>
      rw [toFirst, if_pos ⟨stays, reached⟩]
      exact List.mem_singleton_self _
  | second =>
      rw [toSecond, reached.1, if_pos rfl, if_pos ⟨checked, stays, reached.2⟩, if_pos rfl]
      exact List.mem_singleton_self _

theorem Ps2History.Kept.init {hasSecondPort : Bool} :
    Ps2History.Kept
      { manager := Ps2Manager.boot hasSecondPort
        elapsed := 0
        echoSent := fun _ => false
        lastResponse := fun _ => none
        fresh := fun _ => false } := by
  refine ⟨rfl, ?_, ?_⟩
  · intro _ connected
    exact absurd rfl connected
  · intro _ _ answered
    cases answered

namespace Ps2History.Kept

theorem clock_step (kept : h.Kept) (returns : h.step chip event = .ok next) :
    next.manager.time = next.elapsed % 2 ^ 64 := by
  rcases history_step_eq_ok.mp returns with ⟨manager, steps, rfl⟩
  have time := congrArg Ps2PortState.time (@step_port chip h.manager manager event .first steps)
  rw [step_time] at time
  have sameTime : (h.manager.port .first).time = h.elapsed % 2 ^ 64 := kept.clock
  rw [sameTime] at time
  by_cases ticks : event = .pitTick
  · rw [if_pos ticks, Nat.mod_add_mod] at time
    simp only [if_pos ticks]
    exact time
  · rw [if_neg ticks] at time
    simp only [if_neg ticks]
    exact time

theorem probed_step (kept : h.Kept) (attended : h.Attended chip event)
    (returns : h.step chip event = .ok next)
    (connected : (next.manager.devices port).state ≠ .notConnected)
    (checked : (h.manager.port port).checked = true) :
    next.fresh port = true ∨ next.echoSent port = true := by
  rcases history_step_eq_ok.mp returns with ⟨manager, steps, rfl⟩
  by_cases was : (h.manager.devices port).state = .notConnected
  · -- Whatever connects a device, it is not the port check.
    left
    have leaving : leaves h.manager manager port = true := by
      simp only [leaves, decide_eq_true_eq]
      exact ⟨was, connected⟩
    have noCheck : event ≠ .sendPortCheck := by
      rintro rfl
      have atPort : manager.port port = (h.manager.port port).check := step_port steps
      have kept : (h.manager.port port).check.device.state ≠ .notConnected := by
        rw [← atPort]
        exact connected
      exact check_kept kept was
    simp [leaving, noCheck]
  · have staying : leaves h.manager manager port = false := by simp [leaves, was]
    rcases kept.probed port was checked with fresh | echoed
    · by_cases check : event = .sendPortCheck
      · right
        rw [check] at attended steps
        have echo := echo_of_attends checked (attended port was checked fresh) steps
        simp [echo]
      · left
        simp [check, fresh]
    · right
      simp [staying, echoed]

theorem stamped_step (kept : h.Kept) (attended : h.Attended chip event)
    (returns : h.step chip event = .ok next) {received : ℕ}
    (answered : next.lastResponse port = some received) :
    (next.manager.devices port).lastEcho = received % 2 ^ 64 ∧ received ≤ next.elapsed := by
  rcases history_step_eq_ok.mp returns with ⟨manager, steps, rfl⟩
  have atPort : manager.port port = (h.manager.port port).step port event := step_port steps
  have stamp : (manager.devices port).lastEcho =
      ((h.manager.port port).step port event).device.lastEcho :=
    congrArg (fun state => state.device.lastEcho) atPort
  by_cases answers : event = .irq port responseEcho
  · simp only [if_pos answers, Option.some.injEq] at answered
    rw [answers] at attended
    rw [answers, Ps2PortState.step, if_pos rfl, receive_echo (attended rfl)] at stamp
    have sameTime : (h.manager.port port).time = h.elapsed % 2 ^ 64 := kept.clock
    rw [sameTime, answered] at stamp
    refine ⟨stamp, ?_⟩
    simp [answers, answered]
  · simp only [if_neg answers] at answered
    rw [step_lastEcho answers] at stamp
    rcases kept.stamped port received answered with ⟨stamped, before⟩
    refine ⟨stamp.trans stamped, ?_⟩
    dsimp only
    split_ifs
    · exact Nat.le_succ_of_le before
    · exact before

end Ps2History.Kept

theorem step_checked {s after : Ps2Manager} (returns : s.step chip event = .ok after) :
    (after.port port).checked = (s.port port).checked := by
  rcases step_effect returns with ⟨_, effect, _, _⟩
  cases port with
  | first => rfl
  | second => exact effect.hasSecondPort

theorem Ps2History.Kept.step (kept : h.Kept) (attended : h.Attended chip event)
    (returns : h.step chip event = .ok next) : next.Kept := by
  refine ⟨kept.clock_step returns, ?_, ?_⟩
  · intro port connected checked
    apply kept.probed_step attended returns connected
    rcases history_step_eq_ok.mp returns with ⟨manager, steps, rfl⟩
    rw [← step_checked steps]
    exact checked
  · intro port received answered
    exact kept.stamped_step attended returns answered

theorem Ps2History.kept_of_reachable
    (reached : (ps2HistorySystem chip).ReachableWhen (Ps2History.Attended chip) h) : h.Kept := by
  apply System.ReachableWhen.invariant _ _ reached
  · rintro h ⟨_, rfl⟩
    exact Kept.init
  · intro h event next kept attended returns
    exact kept.step attended returns

/-- The clock has gone further than the stamp allows only when it has been that long. -/
theorem silent_of_expired {elapsed received : ℕ} (before : received ≤ elapsed)
    (old : expired (elapsed % 2 ^ 64) (received % 2 ^ 64)) : elapsed - received > maxPing := by
  rw [expired] at old
  rw [maxPing] at old ⊢
  omega

/-- A device that there has been no port check for has not been asked for an echo. -/
structure Ps2History.Unasked (h : Ps2History) : Prop where
  item : ∀ port, (h.manager.devices port).item = none
  silent : ∀ port, h.fresh port = true → h.echoSent port = false

theorem Ps2History.Unasked.step (unasked : h.Unasked) (returns : h.step chip event = .ok next) :
    next.Unasked := by
  rcases history_step_eq_ok.mp returns with ⟨manager, steps, rfl⟩
  constructor
  · intro port
    have atPort : manager.port port = (h.manager.port port).step port event := step_port steps
    have sameItem : (manager.devices port).item =
        ((h.manager.port port).step port event).device.item :=
      congrArg (fun state => state.device.item) atPort
    rw [sameItem]
    exact step_item (unasked.item port)
  · intro port fresh
    simp only [decide_eq_true_eq] at fresh
    rcases fresh with ⟨noCheck, new⟩
    rcases step_effect steps with ⟨bytes, effect, part, _⟩
    have noEcho : commandEcho ∉ bytes port := by
      intro member
      exact echo_notMem_bytes (unasked.item port) noCheck ((part port).subset member)
    simp only [drop_portBytes effect, decide_eq_false_iff_not, not_or]
    refine ⟨noEcho, ?_⟩
    rcases new with leaving | fresh
    · simp [leaving]
    · simp [unasked.silent port fresh]

theorem Ps2History.unasked_of_reachable {allowed : Ps2History → Ps2Event → Prop}
    (reached : (ps2HistorySystem chip).ReachableWhen allowed h) : h.Unasked := by
  apply System.ReachableWhen.invariant _ _ reached
  · rintro h ⟨_, rfl⟩
    exact ⟨fun _ => rfl, fun _ _ => rfl⟩
  · intro h event next unasked _ returns
    exact unasked.step returns

/-- A device that the port check gives up has been asked for an echo. -/
theorem Ps2History.Kept.mayGiveUp (kept : h.Kept) (attended : h.Attended chip .sendPortCheck)
    (returns : h.step chip .sendPortCheck = .ok next)
    (was : (h.manager.devices port).state ≠ .notConnected)
    (gone : (next.manager.devices port).state = .notConnected) : h.MayGiveUp port := by
  rcases history_step_eq_ok.mp returns with ⟨manager, steps, rfl⟩
  have atPort : manager.port port = (h.manager.port port).check := step_port steps
  have goneAtPort : (h.manager.port port).check.device.state = .notConnected := by
    rw [← atPort]
    exact gone
  rcases check_gone was goneAtPort with ⟨checked, old⟩
  constructor
  · rcases kept.probed port was checked with fresh | echoed
    · exact absurd old (attended port was checked fresh).1
    · exact echoed
  · intro received answered
    rcases kept.stamped port received answered with ⟨stamped, before⟩
    apply silent_of_expired before
    rw [← stamped, ← kept.clock]
    exact old

/-- A device whose first port check finds an old stamp is given up, and has not been asked. -/
theorem Ps2History.Unasked.givenUp (unasked : h.Unasked)
    (returns : h.step chip .sendPortCheck = .ok next) (fresh : h.fresh port = true)
    (checked : (h.manager.port port).checked = true)
    (old : expired h.manager.time (h.manager.devices port).lastEcho) :
    (next.manager.devices port).state = .notConnected ∧ ¬h.MayGiveUp port := by
  rcases history_step_eq_ok.mp returns with ⟨manager, steps, rfl⟩
  have atPort : manager.port port = (h.manager.port port).check := step_port steps
  have stateAtPort : (manager.devices port).state = (h.manager.port port).check.device.state :=
    congrArg (fun state => state.device.state) atPort
  constructor
  · rw [stateAtPort, Ps2PortState.check, if_pos ⟨checked, old⟩]
  · intro mayGiveUp
    have asked := mayGiveUp.1
    rw [unasked.silent port fresh] at asked
    exact Bool.false_ne_true asked

/-- Nothing but the clock goes on for some time. -/
theorem wait_reachable
    (reached : (ps2HistorySystem chip).ReachableWhen (Ps2History.Attended chip) h) (ticks : ℕ) :
    ∃ later, (ps2HistorySystem chip).ReachableWhen (Ps2History.Attended chip) later ∧
      later.manager.devices = h.manager.devices ∧
      later.manager.controller = h.manager.controller ∧ later.fresh = h.fresh ∧
      later.elapsed = h.elapsed + ticks := by
  induction ticks with
  | zero => exact ⟨h, reached, rfl, rfl, rfl, rfl⟩
  | succ ticks ih =>
      rcases ih with ⟨later, laterReached, devices, controller, fresh, elapsed⟩
      have attended : later.Attended chip .pitTick := trivial
      have steps : later.manager.step chip .pitTick =
          .ok { later.manager with time := (later.manager.time + 1) % 2 ^ 64 } := by
        rw [Ps2Manager.step]
      refine ⟨_, laterReached.step attended (history_step_eq_ok.mpr ⟨_, steps, rfl⟩), devices,
        controller, ?_, ?_⟩
      · rw [← fresh]
        funext port
        simp [leaves]
      · simp only [if_true, elapsed]
        rfl

/-- A keyboard is connected to the first port. -/
theorem connect_reachable
    (reached : (ps2HistorySystem readyChip).ReachableWhen (Ps2History.Attended readyChip) h)
    (was : (h.manager.devices .first).state = .notConnected) :
    ∃ later, (ps2HistorySystem readyChip).ReachableWhen (Ps2History.Attended readyChip) later ∧
      later.manager.port .first =
        { h.manager.port .first with
          connected := true
          device := { h.manager.devices .first with
            state := .ready, supported := true, type := .keyboard } } ∧
      later.manager.port .second = h.manager.port .second ∧ later.fresh .first = true ∧
      later.elapsed = h.elapsed := by
  rcases @step_returns readyChip h.manager (.irq .first 0x1C) readyChip_responsive with
    ⟨manager, steps⟩
  have attended : h.Attended readyChip (.irq .first 0x1C) := by
    intro echo
    cases echo
  have atSecond : manager.port .second = h.manager.port .second := step_port steps
  have attaches : (h.manager.port .first).device.state = .notConnected ∧
      ¬((0x1C : UInt8) = responseOk ∨ (0x1C : UInt8) = responseError) := ⟨was, by decide⟩
  have atFirst : manager.port .first =
      { h.manager.port .first with
        connected := true
        device := { h.manager.devices .first with
          state := .ready, supported := true, type := .keyboard } } := by
    rw [step_port steps, Ps2PortState.step, if_pos rfl, Ps2PortState.receive]
    exact if_pos attaches
  refine ⟨_, reached.step attended (history_step_eq_ok.mpr ⟨_, steps, rfl⟩), atFirst, atSecond,
    ?_, rfl⟩
  have ready : (manager.devices .first).state = .ready :=
    congrArg (fun state => state.device.state) atFirst
  simp [leaves, was, ready]

end Run

/-- In a run in which devices are attended to, the port check gives up a device only when it has
asked it for an echo and has had no answer within the time. A check that finds the stamp
of a device too old, and is the first since the device was connected, gives it up without
having asked for anything. -/
theorem disconnects_justified {chip : Ps2Chip} {h next : Ps2History} {port : Ps2Port}
    (reached : (ps2HistorySystem chip).ReachableWhen (Ps2History.Attended chip) h)
    (returns : h.step chip .sendPortCheck = .ok next) :
    (h.Attended chip .sendPortCheck → (h.manager.devices port).state ≠ .notConnected →
        (next.manager.devices port).state = .notConnected → h.MayGiveUp port) ∧
      (h.fresh port = true → (h.manager.port port).checked = true →
        expired h.manager.time (h.manager.devices port).lastEcho →
          (next.manager.devices port).state = .notConnected ∧ ¬h.MayGiveUp port) := by
  constructor
  · intro attended was gone
    exact (Ps2History.kept_of_reachable reached).mayGiveUp attended returns was gone
  · intro fresh checked old
    exact (Ps2History.unasked_of_reachable reached).givenUp returns fresh checked old

/-- A keyboard is connected at once, asked for an echo, and does not answer. -/
theorem disconnects_justified_silent :
    ∃ h next, (ps2HistorySystem readyChip).Reachable h ∧
      h.step readyChip .sendPortCheck = .ok next ∧
      (h.manager.devices .first).state = .ready ∧
      (next.manager.devices .first).state = .notConnected ∧ h.MayGiveUp .first := by
  have starts : (ps2HistorySystem readyChip).ReachableWhen (Ps2History.Attended readyChip) _ :=
    .init ⟨true, rfl⟩
  rcases connect_reachable starts rfl with ⟨h, reached, atFirst, atSecond, _, elapsed⟩
  have young : ¬expired h.manager.time (h.manager.devices .first).lastEcho := by
    have stamp : (h.manager.devices .first).lastEcho = 0 :=
      congrArg (fun state => state.device.lastEcho) atFirst
    rw [stamp, (Ps2History.kept_of_reachable reached).clock, elapsed, expired, maxPing]
    norm_num
  have attended : h.Attended readyChip .sendPortCheck := by
    intro port connected _ _
    cases port with
    | first => exact ⟨young, congrArg Ps2PortState.connected atFirst, rfl⟩
    | second => exact absurd (congrArg (fun state => state.device.state) atSecond) connected
  rcases @step_returns readyChip h.manager .sendPortCheck readyChip_responsive with
    ⟨checked, checks⟩
  have keeps : checked.port .first = h.manager.port .first := by
    rw [step_port checks, Ps2PortState.step, Ps2PortState.check, if_neg (fun both => young both.2)]
  rcases wait_reachable (reached.step attended (history_step_eq_ok.mpr ⟨_, checks, rfl⟩)) 3001 with
    ⟨waited, waitedReached, devices, _, fresh, waitedElapsed⟩
  have sameDevice : waited.manager.devices .first = h.manager.devices .first := by
    rw [devices]
    exact congrArg Ps2PortState.device keeps
  have ready : (waited.manager.devices .first).state = .ready := by
    rw [sameDevice]
    exact congrArg (fun state => state.device.state) atFirst
  have old : expired waited.manager.time (waited.manager.devices .first).lastEcho := by
    have stamp : (h.manager.devices .first).lastEcho = 0 :=
      congrArg (fun state => state.device.lastEcho) atFirst
    rw [sameDevice, stamp, (Ps2History.kept_of_reachable waitedReached).clock, waitedElapsed,
      expired, maxPing]
    simp [elapsed]
  have attendedAgain : waited.Attended readyChip .sendPortCheck := by
    intro port _ _ isFresh
    rw [fresh] at isFresh
    simp at isFresh
  rcases @step_returns readyChip waited.manager .sendPortCheck readyChip_responsive with
    ⟨manager, steps⟩
  have returns := history_step_eq_ok.mpr ⟨manager, steps, rfl⟩
  have gone : (manager.devices .first).state = .notConnected := by
    have atEnd : manager.port .first = (waited.manager.port .first).check := step_port steps
    rw [Ps2PortState.check, if_pos ⟨rfl, old⟩] at atEnd
    exact congrArg (fun state => state.device.state) atEnd
  have notGone : (waited.manager.devices .first).state ≠ .notConnected := by simp [ready]
  exact ⟨waited, _, waitedReached.reachable, returns, ready, gone,
    (disconnects_justified waitedReached returns).1 attendedAgain notGone gone⟩

/-- A keyboard is connected when the machine has been running for three seconds. The next port
check gives it up, and has never asked it for an echo. -/
theorem disconnects_not_justified :
    ∃ h next, (ps2HistorySystem readyChip).Reachable h ∧
      h.step readyChip .sendPortCheck = .ok next ∧
      (h.manager.devices .first).state = .ready ∧
      (next.manager.devices .first).state = .notConnected ∧ ¬h.MayGiveUp .first := by
  have starts : (ps2HistorySystem readyChip).ReachableWhen (Ps2History.Attended readyChip) _ :=
    .init ⟨true, rfl⟩
  rcases wait_reachable starts 3001 with ⟨waited, waitedReached, devices, _, _, elapsed⟩
  rcases connect_reachable waitedReached (by rw [devices]; rfl) with
    ⟨h, reached, atFirst, _, fresh, sameElapsed⟩
  rcases @step_returns readyChip h.manager .sendPortCheck readyChip_responsive with
    ⟨manager, steps⟩
  have ready : (h.manager.devices .first).state = .ready :=
    congrArg (fun state => state.device.state) atFirst
  have stamp : (h.manager.devices .first).lastEcho = 0 := by
    have same : (h.manager.devices .first).lastEcho = (waited.manager.devices .first).lastEcho :=
      congrArg (fun state => state.device.lastEcho) atFirst
    rw [same, devices]
    rfl
  have old : expired h.manager.time (h.manager.devices .first).lastEcho := by
    rw [stamp, (Ps2History.kept_of_reachable reached).clock, sameElapsed, elapsed, expired, maxPing]
    norm_num
  have returns := history_step_eq_ok.mpr ⟨manager, steps, rfl⟩
  have givenUp := (Ps2History.unasked_of_reachable reached).givenUp returns fresh rfl old
  exact ⟨h, _, reached.reachable, returns, ready, givenUp⟩

end Osserver
