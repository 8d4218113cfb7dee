import Osserver.Ps2.Refinement

/-!
# Independence of the two ports

What the manager keeps for a port, and what it sends to the device there, should depend on
the bytes from that device, on the timer and the port checks, and on nothing else. For
what it keeps this is so. For what it sends it is so at the first port; what the port
check sends to the second port depends on whether the first is connected.
-/

namespace Osserver

open Outcome

/-- The event is no byte from the other port. -/
def Ps2Event.concerns (port : Ps2Port) : Ps2Event → Bool
  | .irq devId _ => devId = port
  | .timeoutTimer | .sendPortCheck | .pitTick => true

/-- The event is a port check that sends a byte to the device. -/
def Ps2PortState.probed (state : Ps2PortState) (event : Ps2Event) : Bool :=
  event = .sendPortCheck ∧ state.checked ∧ state.check.connected

/-- Whether the first port is connected, at the port checks of the run that send a byte to
the device at the port, once these have given up what they give up. -/
def Ps2Manager.asked (chip : Ps2Chip) (port : Ps2Port) : Ps2Manager → List Ps2Event → List Bool
  | _, [] => []
  | s, event :: events =>
      (if (s.port port).probed event then [(s.port .first).check.connected] else []) ++
        match s.step chip event with
        | .error _ => []
        | .ok next => asked chip port next events

namespace Ps2PortState

/-- Whether the first port is connected at these checks, from the events alone: the machine of
the port and that of the first port go through them side by side. -/
def asks (port : Ps2Port) : Ps2PortState → Ps2PortState → List Ps2Event → List Bool
  | _, _, [] => []
  | state, first, event :: events =>
      (if state.probed event then [first.check.connected] else []) ++
        asks port (state.step port event) (first.step .first event) events

/-- What is sent to the device of a port on its own, by whether the first port is
connected at the checks that send something. -/
def sent (port : Ps2Port) : Ps2PortState → List Ps2Event → List Bool → List UInt8
  | _, [], _ => []
  | state, event :: events, asked =>
      if state.probed event then
        match asked with
        | [] => []
        | isConnected :: rest =>
            (if isConnected then commandEcho else commandReset) ::
              sent port (state.step port event) events rest
      else state.bytes port true event ++ sent port (state.step port event) events asked

/-- How many checks send something. -/
def probes (port : Ps2Port) : Ps2PortState → List Ps2Event → ℕ
  | _, [] => 0
  | state, event :: events =>
      (if state.probed event then 1 else 0) + probes port (state.step port event) events

end Ps2PortState

section Machine

variable {state : Ps2PortState} {port : Ps2Port} {event : Ps2Event} {events : List Ps2Event}
  {asked : Bool}

theorem step_unconcerned (other : event.concerns port = false) : state.step port event = state := by
  cases event with
  | irq devId cmd =>
      have different : devId ≠ port := by simpa [Ps2Event.concerns] using other
      simp [Ps2PortState.step, different]
  | timeoutTimer => cases other
  | sendPortCheck => cases other
  | pitTick => cases other

theorem bytes_unconcerned (other : event.concerns port = false) :
    state.bytes port asked event = [] := by
  cases event with
  | irq devId cmd =>
      have different : devId ≠ port := by simpa [Ps2Event.concerns] using other
      simp [Ps2PortState.bytes, different]
  | timeoutTimer => cases other
  | sendPortCheck => cases other
  | pitTick => cases other

theorem not_probed_unconcerned (other : event.concerns port = false) :
    state.probed event = false := by
  cases event with
  | irq devId cmd => simp [Ps2PortState.probed]
  | timeoutTimer => cases other
  | sendPortCheck => cases other
  | pitTick => cases other

/-- Only a check that sends something looks at the first port. -/
theorem bytes_of_not_probed (notProbed : state.probed event = false) :
    state.bytes port asked event = state.bytes port true event := by
  cases event with
  | irq devId cmd => rfl
  | timeoutTimer => rfl
  | sendPortCheck =>
      have silent : ¬(state.checked = true ∧ state.check.connected = true) := by
        simpa [Ps2PortState.probed] using notProbed
      simp only [Ps2PortState.bytes, Ps2PortState.checkBytes, if_neg silent]
  | pitTick => rfl

theorem bytes_of_probed (isProbed : state.probed event = true) :
    state.bytes port asked event = [if asked then commandEcho else commandReset] := by
  simp only [Ps2PortState.probed, decide_eq_true_eq] at isProbed
  rcases isProbed with ⟨rfl, sends⟩
  simp only [Ps2PortState.bytes, Ps2PortState.checkBytes, if_pos sends]

theorem sent_of_not_probed {askedList : List Bool} (notProbed : state.probed event = false) :
    state.sent port (event :: events) askedList =
      state.bytes port true event ++ (state.step port event).sent port events askedList := by
  cases askedList with
  | nil => simp [Ps2PortState.sent, notProbed]
  | cons asked rest => simp [Ps2PortState.sent, notProbed]

theorem sent_of_probed {rest : List Bool} (isProbed : state.probed event = true) :
    state.sent port (event :: events) (asked :: rest) =
      (if asked then commandEcho else commandReset) ::
        (state.step port event).sent port events rest := by
  simp [Ps2PortState.sent, isProbed]

theorem sent_filter (askedList : List Bool) :
    state.sent port (events.filter (Ps2Event.concerns port)) askedList =
      state.sent port events askedList := by
  induction events generalizing state askedList with
  | nil => rfl
  | cons event events ih =>
      cases concerned : event.concerns port with
      | true =>
          rw [List.filter_cons_of_pos concerned]
          simp only [Ps2PortState.sent, ih]
      | false =>
          rw [List.filter_cons_of_neg (by simp [concerned]), ih,
            sent_of_not_probed (not_probed_unconcerned concerned), step_unconcerned concerned,
            bytes_unconcerned concerned, List.nil_append]

theorem probes_filter :
    state.probes port (events.filter (Ps2Event.concerns port)) = state.probes port events := by
  induction events generalizing state with
  | nil => rfl
  | cons event events ih =>
      cases concerned : event.concerns port with
      | true =>
          rw [List.filter_cons_of_pos concerned]
          simp only [Ps2PortState.probes, ih]
      | false =>
          rw [List.filter_cons_of_neg (by simp [concerned]), ih, Ps2PortState.probes,
            not_probed_unconcerned concerned, step_unconcerned concerned]
          simp

/-- What is sent differs when what the checks see of the first port differs. -/
theorem sent_eq_iff {first second : List Bool} (fits : first.length = state.probes port events)
    (fitsSecond : second.length = state.probes port events) :
    state.sent port events first = state.sent port events second ↔ first = second := by
  induction events generalizing state first second with
  | nil =>
      have noneFirst : first = [] := List.length_eq_zero_iff.mp fits
      have noneSecond : second = [] := List.length_eq_zero_iff.mp fitsSecond
      simp [noneFirst, noneSecond]
  | cons event events ih =>
      cases isProbed : state.probed event with
      | true =>
          rw [Ps2PortState.probes, isProbed, if_pos rfl] at fits fitsSecond
          rcases first with _ | ⟨connected, first⟩
          · simp at fits
            omega
          rcases second with _ | ⟨connectedSecond, second⟩
          · simp at fitsSecond
            omega
          rw [List.length_cons, Nat.add_comm] at fits fitsSecond
          have rest := ih (Nat.add_left_cancel fits) (Nat.add_left_cancel fitsSecond)
          rw [sent_of_probed isProbed, sent_of_probed isProbed, List.cons.injEq, List.cons.injEq,
            rest]
          have differ : (if connected then commandEcho else commandReset) =
              (if connectedSecond then commandEcho else commandReset) ↔
                connected = connectedSecond := by
            cases connected with
            | true =>
                cases connectedSecond with
                | true => simp
                | false => simp [commandEcho, commandReset]
            | false =>
                cases connectedSecond with
                | true => simp [commandEcho, commandReset]
                | false => simp
          rw [differ]
      | false =>
          rw [Ps2PortState.probes, isProbed] at fits fitsSecond
          simp only [Bool.false_eq_true, if_false, Nat.zero_add] at fits fitsSecond
          rw [sent_of_not_probed isProbed, sent_of_not_probed isProbed, List.append_cancel_left_eq]
          exact ih fits fitsSecond

end Machine

section Run

variable {chip : Ps2Chip} {s next after : Ps2Manager} {port : Ps2Port} {event : Ps2Event}
  {events : List Ps2Event}

theorem asked_cons (returns : s.step chip event = .ok next) :
    s.asked chip port (event :: events) =
      (if (s.port port).probed event then [(s.port .first).check.connected] else []) ++
        next.asked chip port events := by
  rw [Ps2Manager.asked, returns]

/-- What the checks see is decided by where the run starts and by its events. -/
theorem asked_eq (returns : s.run chip events = .ok after) :
    s.asked chip port events = (s.port port).asks port (s.port .first) events := by
  induction events generalizing s with
  | nil => rfl
  | cons event events ih =>
      rcases steps_cons_eq_ok.mp returns with ⟨next, first, rest⟩
      rw [asked_cons first, ih rest, step_port first, step_port first, Ps2PortState.asks]

/-- The checks of a run see the first port once for each byte they send. -/
theorem asked_length (returns : s.run chip events = .ok after) :
    (s.asked chip port events).length = (s.port port).probes port events := by
  induction events generalizing s with
  | nil => rfl
  | cons event events ih =>
      rcases steps_cons_eq_ok.mp returns with ⟨next, first, rest⟩
      rw [asked_cons first, List.length_append, ih rest, step_port first, Ps2PortState.probes]
      cases (s.port port).probed event with
      | true => rfl
      | false => rfl

/-- The check that sends something to the first port sees it connected. -/
theorem asked_first : ∀ connected ∈ s.asked chip .first events, connected = true := by
  induction events generalizing s with
  | nil => simp [Ps2Manager.asked]
  | cons event events ih =>
      intro connected member
      rw [Ps2Manager.asked, List.mem_append] at member
      rcases member with now | later
      · cases isProbed : (s.port .first).probed event with
        | true =>
            rw [isProbed, if_pos rfl, List.mem_singleton] at now
            rw [now]
            simp only [Ps2PortState.probed, decide_eq_true_eq] at isProbed
            exact isProbed.2.2
        | false =>
            rw [isProbed] at now
            simp at now
      · cases returns : s.step chip event with
        | error error =>
            rw [returns] at later
            cases later
        | ok next =>
            rw [returns] at later
            exact ih connected later

theorem run_sent (ready : chip.AlwaysReady) (returns : s.run chip events = .ok after) :
    after.portBytes port =
      s.portBytes port ++ (s.port port).sent port events (s.asked chip port events) := by
  induction events generalizing s with
  | nil =>
      cases returns
      simp [Ps2PortState.sent]
  | cons event events ih =>
      rcases steps_cons_eq_ok.mp returns with ⟨next, first, rest⟩
      rcases step_effect first with ⟨bytes, effect, _, known⟩
      rw [ih rest, effect.wire, known ready, step_port first, asked_cons first, List.append_assoc]
      cases isProbed : (s.port port).probed event with
      | true =>
          rw [if_pos rfl, List.singleton_append, sent_of_probed isProbed,
            bytes_of_probed isProbed]
          rfl
      | false =>
          rw [bytes_of_not_probed isProbed, if_neg Bool.false_ne_true, List.nil_append,
            sent_of_not_probed isProbed]

end Run

/-- Two runs that agree on what concerns a port keep the same for it. They send the same to
it when it is the first, and otherwise exactly when the checks that send something see
the first port connected in both runs or in neither. -/
theorem ports_independent_iff {leftChip rightChip : Ps2Chip}
    {left right leftAfter rightAfter : Ps2Manager} {port : Ps2Port}
    {leftEvents rightEvents : List Ps2Event} (leftReady : leftChip.AlwaysReady)
    (rightReady : rightChip.AlwaysReady) (same : left.port port = right.port port)
    (sameBytes : left.portBytes port = right.portBytes port)
    (agree : leftEvents.filter (Ps2Event.concerns port) =
      rightEvents.filter (Ps2Event.concerns port))
    (leftReturns : left.run leftChip leftEvents = .ok leftAfter)
    (rightReturns : right.run rightChip rightEvents = .ok rightAfter) :
    leftAfter.port port = rightAfter.port port ∧
      (leftAfter.portBytes port = rightAfter.portBytes port ↔
        port = .first ∨
          left.asked leftChip port leftEvents = right.asked rightChip port rightEvents) := by
  have quiet : ∀ (state : Ps2PortState) (event : Ps2Event), event.concerns port = false →
      state.step port event = state := fun _ _ => step_unconcerned
  constructor
  · rw [run_port leftReturns, run_port rightReturns, ← foldl_filter quiet, agree, same,
      foldl_filter quiet]
  · have leftLength := @asked_length leftChip left leftAfter port leftEvents leftReturns
    have rightLength := @asked_length rightChip right rightAfter port rightEvents rightReturns
    rw [← probes_filter] at leftLength rightLength
    rw [agree, same] at leftLength
    have bytesIff : leftAfter.portBytes port = rightAfter.portBytes port ↔
        left.asked leftChip port leftEvents = right.asked rightChip port rightEvents := by
      rw [run_sent leftReady leftReturns, run_sent rightReady rightReturns, sameBytes,
        List.append_cancel_left_eq, ← sent_filter, agree, same, ← @sent_filter _ _ rightEvents]
      exact sent_eq_iff leftLength rightLength
    rw [bytesIff]
    constructor
    · exact Or.inr
    · rintro (rfl | asked)
      · rw [List.eq_replicate_of_mem asked_first, leftLength,
          List.eq_replicate_of_mem (@asked_first rightChip right rightEvents), rightLength]
      · exact asked

/-- A keyboard at the first port, whatever comes from the second. -/
theorem ports_independent_iff_first :
    ∃ left right,
      (Ps2Manager.boot true).run readyChip [.irq .first 0x1C, .sendPortCheck] = .ok left ∧
      (Ps2Manager.boot true).run readyChip [.irq .second 0xAA, .irq .first 0x1C, .sendPortCheck] =
        .ok right ∧
      left.port .first = right.port .first ∧ left.portBytes .first = right.portBytes .first := by
  rcases @run_returns readyChip (Ps2Manager.boot true) [.irq .first 0x1C, .sendPortCheck]
    readyChip_responsive with ⟨left, leftReturns⟩
  rcases @run_returns readyChip (Ps2Manager.boot true)
    [.irq .second 0xAA, .irq .first 0x1C, .sendPortCheck] readyChip_responsive with
    ⟨right, rightReturns⟩
  have agree : [Ps2Event.irq .first 0x1C, .sendPortCheck].filter (Ps2Event.concerns .first) =
      [Ps2Event.irq .second 0xAA, .irq .first 0x1C, .sendPortCheck].filter
        (Ps2Event.concerns .first) := by decide
  have independent := ports_independent_iff readyChip_responsive.1 readyChip_responsive.1 rfl rfl
    agree leftReturns rightReturns
  exact ⟨left, right, leftReturns, rightReturns, independent.1, independent.2.mpr (Or.inl rfl)⟩

/-- A keyboard at the second port is asked for an echo when there is a keyboard at the first
port too, and reset when there is none. -/
theorem ports_not_independent :
    ∃ alone both,
      (Ps2Manager.boot true).run readyChip [.irq .second 0x1C, .sendPortCheck] = .ok alone ∧
      (Ps2Manager.boot true).run readyChip [.irq .first 0x1C, .irq .second 0x1C, .sendPortCheck] =
        .ok both ∧
      [Ps2Event.irq .second 0x1C, .sendPortCheck].filter (Ps2Event.concerns .second) =
        [Ps2Event.irq .first 0x1C, .irq .second 0x1C, .sendPortCheck].filter
          (Ps2Event.concerns .second) ∧
      alone.portBytes .second = keyboardSetupBytes ++ [commandReset] ∧
      both.portBytes .second = keyboardSetupBytes ++ [commandEcho] ∧
      alone.portBytes .second ≠ both.portBytes .second := by
  rcases @run_returns readyChip (Ps2Manager.boot true) [.irq .second 0x1C, .sendPortCheck]
    readyChip_responsive with ⟨alone, aloneReturns⟩
  rcases @run_returns readyChip (Ps2Manager.boot true)
    [.irq .first 0x1C, .irq .second 0x1C, .sendPortCheck] readyChip_responsive with
    ⟨both, bothReturn⟩
  have resets : alone.portBytes .second = keyboardSetupBytes ++ [commandReset] := by
    rw [run_sent readyChip_responsive.1 aloneReturns]
    decide +kernel
  have echoes : both.portBytes .second = keyboardSetupBytes ++ [commandEcho] := by
    rw [run_sent readyChip_responsive.1 bothReturn]
    decide +kernel
  refine ⟨alone, both, aloneReturns, bothReturn, by decide, resets, echoes, ?_⟩
  rw [resets, echoes]
  decide

end Osserver
