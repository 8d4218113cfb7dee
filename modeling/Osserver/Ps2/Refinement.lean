import Osserver.Ps2.Port

/-!
# The manager refines the machine of one port

Each function of the manager does to a port what the machine of one port says. What the
functions send is known as far as the chip is ready.
-/

namespace Osserver

open Outcome

section Send

variable {chip : Ps2Chip} {s middle after : Ps2Manager} {devId : Ps2Port}
  {state next : Ps2PortState} {bytes more : List UInt8} {data : UInt8}

/-- One port changes, and its device gets those of the bytes that the chip takes. -/
def Ps2Manager.Answers (chip : Ps2Chip) (s after : Ps2Manager) (devId : Ps2Port)
    (state : Ps2PortState) (bytes : List UInt8) : Prop :=
  ∃ sent, s.Acts after devId state sent ∧ sent.Sublist bytes ∧ (chip.AlwaysReady → sent = bytes)

theorem Ps2Manager.Acts.answers (acts : s.Acts after devId state bytes) :
    s.Answers chip after devId state bytes :=
  ⟨bytes, acts, List.Sublist.refl _, fun _ => rfl⟩

theorem Ps2Manager.Answers.trans (first : s.Answers chip middle devId state bytes)
    (second : middle.Answers chip after devId next more) :
    s.Answers chip after devId next (bytes ++ more) := by
  rcases first with ⟨sentFirst, actsFirst, partFirst, knownFirst⟩
  rcases second with ⟨sentSecond, actsSecond, partSecond, knownSecond⟩
  refine ⟨sentFirst ++ sentSecond, actsFirst.trans actsSecond, partFirst.append partSecond, ?_⟩
  intro ready
  rw [knownFirst ready, knownSecond ready]

/-- A byte goes out when the port is connected and the chip ready. -/
theorem send_acts (returns : s.send chip devId data = .ok after) :
    s.Acts after devId (s.port devId)
      (if s.controller.isPortConnected devId = true ∧ chip.input s.controller.waits = .empty then
        [data] else []) := by
  simp only [Ps2Manager.send, bind_eq_ok, Prod.exists, pure, Except.pure, Except.ok.injEq]
    at returns
  rcases returns with ⟨sent, controller, returns, rfl⟩
  exact acts_of_sends (controllerSend_sends returns).1

theorem send_answers (returns : s.send chip devId data = .ok after) :
    s.Answers chip after devId (s.port devId)
      (if (s.port devId).connected then [data] else []) := by
  have sameConnected : (s.port devId).connected = s.controller.isPortConnected devId := rfl
  refine ⟨_, send_acts returns, ?_, ?_⟩
  · by_cases sends : s.controller.isPortConnected devId = true ∧
        chip.input s.controller.waits = .empty
    · rw [if_pos sends, sameConnected, if_pos sends.1]
    · rw [if_neg sends]
      exact List.nil_sublist _
  · intro ready
    simp only [ready s.controller.waits, and_true, sameConnected]

theorem sendEach_sends {ok sent : Bool} {controller final : Ps2Controller} {list : List UInt8}
    (returns : sendEach chip devId ok controller list = .ok (sent, final)) :
    ∃ bytes, controller.Sends final (onlyAt devId bytes) ∧
      bytes.Sublist (if controller.isPortConnected devId then list else []) ∧
      (chip.AlwaysReady →
        bytes = if controller.isPortConnected devId then list else []) := by
  induction list generalizing ok controller with
  | nil =>
      simp only [sendEach, Except.ok.injEq, Prod.mk.injEq] at returns
      rw [← returns.2]
      refine ⟨[], Ps2Controller.Sends.refl.congr ?_, by simp⟩
      simp [onlyAt]
  | cons data list ih =>
      simp only [sendEach, bind_eq_ok, Prod.exists] at returns
      rcases returns with ⟨_, middle, first, rest⟩
      have sendsFirst := (controllerSend_sends first).1
      rcases ih rest with ⟨bytes, sendsRest, part, known⟩
      rw [sendsFirst.connected] at part known
      refine ⟨(if controller.isPortConnected devId = true ∧ chip.input controller.waits = .empty
        then [data] else []) ++ bytes, (sendsFirst.trans sendsRest).congr ?_, ?_, ?_⟩
      · intro port
        by_cases same : port = devId
        · simp only [onlyAt, same, if_true]
        · simp [onlyAt, same]
      · by_cases connected : controller.isPortConnected devId = true
        · rw [if_pos connected] at part ⊢
          by_cases isReady : chip.input controller.waits = .empty
          · rw [if_pos ⟨connected, isReady⟩]
            exact part.cons_cons data
          · rw [if_neg (fun both => isReady both.2)]
            exact part.cons data
        · rw [if_neg connected] at part ⊢
          rw [if_neg (fun both => connected both.1)]
          exact part
      · intro ready
        rw [known ready]
        by_cases connected : controller.isPortConnected devId = true
        · simp [connected, ready controller.waits]
        · simp [connected]

theorem ps2KeyboardSetup_answers {scancode2 : Bool}
    (returns : ps2KeyboardSetup chip s devId scancode2 = .ok after) :
    s.Answers chip after devId (s.port devId)
        (if (s.port devId).connected then keyboardSetupBytes else []) ∧
      after.handled = s.handled := by
  simp only [ps2KeyboardSetup, bind_eq_ok, Prod.exists] at returns
  rcases returns with ⟨translated, translates, ok, controller, sends, returns⟩
  have first : s.controller.Sends translated (fun _ => []) := by
    cases scancode2 with
    | true => exact firstPortTranslation_sends translates
    | false =>
        cases translates
        exact Ps2Controller.Sends.refl
  rcases sendEach_sends sends with ⟨bytes, second, part, known⟩
  rw [first.connected] at part known
  have both : s.controller.Sends controller (onlyAt devId bytes) := by
    apply (first.trans second).congr
    simp
  have result : after = { s with controller := controller } := by
    cases ok with
    | true => exact (Except.ok.inj returns).symm
    | false => cases returns
  rw [result]
  exact ⟨⟨bytes, acts_of_sends both, part, known⟩, rfl⟩

end Send

section Identify

variable {chip : Ps2Chip} {s after : Ps2Manager} {devId : Ps2Port}

/-- A keyboard is set up, with the device as it has just been written. -/
theorem keyboard_answers {dev : Device} {scancode2 : Bool}
    (returns : ps2KeyboardSetup chip (s.setDevice devId dev) devId scancode2 = .ok after) :
    s.Answers chip after devId ((s.port devId).withDevice dev)
        (if (s.port devId).connected then keyboardSetupBytes else []) ∧
      after.handled = s.handled := by
  have written := @acts_setDevice s devId dev
  rcases ps2KeyboardSetup_answers returns with ⟨sets, handled⟩
  rw [written.self] at sets
  exact ⟨written.answers.trans sets, handled⟩

/-- What `init_device` has done before its last line: the type is found, and a keyboard is
set up. -/
def Ps2Manager.Identifies (chip : Ps2Chip) (s after : Ps2Manager) (devId : Ps2Port) : Prop :=
  ∃ dev, { dev with state := .ready } = (s.devices devId).identified ∧
    s.Answers chip after devId ((s.port devId).withDevice dev)
      (if (s.port devId).connected then (s.devices devId).identifyBytes else []) ∧
    after.handled = s.handled

theorem identifies_keyboard {scancode2 : Bool}
    (known : deviceOfId (s.devices devId).buffer = some .keyboard)
    (returns : ps2KeyboardSetup chip
      (s.setDevice devId { s.devices devId with supported := true, type := .keyboard }) devId
        scancode2 = .ok after) : s.Identifies chip after devId := by
  have setupBytes : (s.devices devId).identifyBytes = keyboardSetupBytes := if_pos known
  refine ⟨{ s.devices devId with supported := true, type := .keyboard },
    (identified_of_some known).symm, ?_⟩
  rw [setupBytes]
  exact keyboard_answers returns

theorem identifies_of_set {dev : Device}
    (notKeyboard : deviceOfId (s.devices devId).buffer ≠ some .keyboard)
    (identified : { dev with state := .ready } = (s.devices devId).identified) :
    s.Identifies chip (s.setDevice devId dev) devId := by
  have noBytes : (s.devices devId).identifyBytes = [] := if_neg notKeyboard
  refine ⟨dev, identified, ?_, rfl⟩
  rw [noBytes, ite_self]
  exact (acts_setDevice dev).answers

theorem identifies_mouse {type : DeviceType}
    (known : deviceOfId (s.devices devId).buffer = some type) (isMouse : type ≠ .keyboard) :
    s.Identifies chip
      (s.setDevice devId { s.devices devId with supported := true, type := type }) devId := by
  apply identifies_of_set
  · rw [known]
    simpa using isMouse
  · exact (identified_of_some known).symm

/-- A device that answers with one byte which is not known is not supported. -/
theorem identifies_unsupported (unknown : deviceOfId (s.devices devId).buffer = none)
    (single : (s.devices devId).buffer.length = 1) :
    s.Identifies chip (s.setDevice devId { s.devices devId with supported := false }) devId := by
  apply identifies_of_set
  · simp [unknown]
  · rw [identified_of_none unknown, if_pos single]

/-- After any other answer the device stays what it was. -/
theorem identifies_unknown (unknown : deviceOfId (s.devices devId).buffer = none)
    (other : (s.devices devId).buffer.length ≠ 1) : s.Identifies chip s devId := by
  have noBytes : (s.devices devId).identifyBytes = [] := if_neg (by simp [unknown])
  refine ⟨s.devices devId, ?_, ?_, rfl⟩
  · rw [identified_of_none unknown, if_neg other]
  · rw [noBytes, ite_self]
    exact acts_refl.answers

theorem identifyDevice_identifies {id : List UInt8} (inUse : (s.devices devId).buffer = id)
    (returns : identifyDevice chip s devId id = .ok after) : s.Identifies chip after devId := by
  rcases id with _ | ⟨first, _ | ⟨second, _ | ⟨third, rest⟩⟩⟩
  · exact identifies_keyboard (by rw [inUse]; rfl) returns
  · simp only [identifyDevice] at returns
    split_ifs at returns with zero three four
    · cases returns
      exact identifies_mouse (by simp [inUse, deviceOfId, zero]) (by decide)
    · cases returns
      exact identifies_mouse (by simp [inUse, deviceOfId, three]) (by decide)
    · cases returns
      exact identifies_mouse (by simp [inUse, deviceOfId, four]) (by decide)
    · cases returns
      apply identifies_unsupported
      · simp [inUse, deviceOfId, zero, three, four]
      · rw [inUse, List.length_singleton]
  · have pair : (s.devices devId).buffer.length ≠ 1 := by simp [inUse]
    simp only [identifyDevice] at returns
    split_ifs at returns with prefixed short long
    · apply identifies_keyboard _ returns
      rcases short with short | short
      · simp [inUse, deviceOfId, prefixed, short]
      · simp [inUse, deviceOfId, prefixed, short]
    · apply identifies_keyboard _ returns
      simp [inUse, deviceOfId, prefixed, long]
    · cases returns
      simp only [not_or] at short
      exact identifies_unknown (by simp [inUse, deviceOfId, short, long]) pair
    · cases returns
      exact identifies_unknown (by simp [inUse, deviceOfId, prefixed]) pair
  · cases returns
    exact identifies_unknown (by rw [inUse]; rfl) (by simp [inUse])

theorem initDevice_answers
    (returns : initDevice chip s devId (s.devices devId).buffer = .ok after) :
    s.Answers chip after devId ((s.port devId).withDevice (s.devices devId).identified)
        (if (s.port devId).connected then (s.devices devId).identifyBytes else []) ∧
      after.handled = s.handled := by
  simp only [initDevice, bind_eq_ok, pure, Except.pure, Except.ok.injEq] at returns
  rcases returns with ⟨middle, identifies, rfl⟩
  rcases identifyDevice_identifies rfl identifies with ⟨dev, identified, answers, handled⟩
  refine ⟨?_, handled⟩
  have atPort : middle.port devId = (s.port devId).withDevice dev := by
    rcases answers with ⟨_, acts, _⟩
    exact acts.self
  have sameDevice : middle.devices devId = dev := congrArg Ps2PortState.device atPort
  have written := @acts_setDevice middle devId (s.devices devId).identified
  rw [atPort] at written
  have both := answers.trans written.answers
  rw [List.append_nil] at both
  rw [sameDevice, identified]
  exact both

theorem timeoutTimerPort_answers (returns : timeoutTimerPort chip s devId = .ok after) :
    s.Answers chip after devId (s.port devId).tick (s.port devId).tickBytes ∧
      after.handled = s.handled := by
  have sameTimeout : (s.port devId).timeout = s.timeouts devId := rfl
  rw [timeoutTimerPort] at returns
  simp only [Ps2PortState.tick, Ps2PortState.tickBytes, sameTimeout]
  split_ifs at returns with running atZero
  · cases returns
    have notOver : ¬s.timeouts devId = 0 := by omega
    rw [if_pos running, if_neg (fun both => notOver both.1)]
    exact ⟨(acts_setTimeout _).answers, rfl⟩
  · simp only [bind_eq_ok, pure, Except.pure, Except.ok.injEq] at returns
    rcases returns with ⟨middle, identifies, rfl⟩
    rcases initDevice_answers identifies with ⟨answers, handled⟩
    have atPort : middle.port devId =
        (s.port devId).withDevice (s.devices devId).identified := by
      rcases answers with ⟨_, acts, _, _⟩
      exact acts.self
    have written := @acts_setTimeout middle devId (-1)
    rw [atPort] at written
    have both := answers.trans written.answers
    rw [List.append_nil] at both
    rw [if_neg running, if_pos atZero]
    refine ⟨?_, handled⟩
    simp only [atZero, true_and]
    exact both
  · cases returns
    rw [if_neg running, if_neg atZero, if_neg (fun both => atZero both.1)]
    exact ⟨acts_refl.answers, rfl⟩

end Identify

section Irq

variable {chip : Ps2Chip} {s after : Ps2Manager} {devId port : Ps2Port} {cmd : UInt8}

theorem send_handled {data : UInt8} (returns : s.send chip devId data = .ok after) :
    after.handled = s.handled := by
  simp only [Ps2Manager.send, bind_eq_ok, Prod.exists, pure, Except.pure, Except.ok.injEq]
    at returns
  rcases returns with ⟨_, _, _, rfl⟩
  rfl

/-- Behind the mark that the port is connected the device is written. -/
theorem Ps2Manager.Acts.write {start : Ps2Manager}
    (marked : s.Acts start devId { s.port devId with connected := true } []) (dev : Device) :
    s.Acts (start.setDevice devId dev) devId
      { s.port devId with connected := true, device := dev } [] := by
  have written := @acts_setDevice start devId dev
  rw [marked.self] at written
  exact marked.trans written

theorem Ps2Manager.Acts.send {middle : Ps2Manager} {state : Ps2PortState} {data : UInt8}
    (acts : s.Acts middle devId state []) (connected : state.connected = true)
    (returns : middle.send chip devId data = .ok after) :
    s.Answers chip after devId state [data] := by
  have sends := send_answers returns
  rw [acts.self, connected, if_pos rfl] at sends
  exact acts.answers.trans sends

/-- A byte for the driver of the keyboard changes no port. -/
theorem Ps2Manager.Answers.handleByte {middle : Ps2Manager} {state : Ps2PortState}
    {bytes : List UInt8} (answers : s.Answers chip middle devId state bytes) :
    s.Answers chip (ps2KeyboardHandleByte middle port cmd) devId state bytes := by
  rcases answers with ⟨sent, acts, part, known⟩
  exact ⟨sent, ⟨acts.ports, acts.hasSecondPort, acts.wire⟩, part, known⟩

/-- Behind the mark that the port is connected, and whatever else is written, a byte is sent:
the driver of the keyboard sees nothing of it. -/
theorem send_keeps {middle : Ps2Manager} {state : Ps2PortState} {data : UInt8}
    (acts : s.Acts middle devId state []) (handled : middle.handled = s.handled)
    (connected : state.connected = true) (returns : middle.send chip devId data = .ok after) :
    s.Answers chip after devId state [data] ∧ after.handled = s.handled :=
  ⟨acts.send connected returns, (send_handled returns).trans handled⟩

/-- The first byte of a device that is attached to the port sets it up as a keyboard. -/
theorem handleIrq_attaches
    (attaches : (s.devices devId).state = .notConnected ∧
      ¬(cmd = responseOk ∨ cmd = responseError))
    (returns : handleIrq chip s devId cmd = .ok after) :
    s.Answers chip after devId ((s.port devId).receive cmd) ((s.port devId).answers cmd) ∧
      after.handled = s.handled ++ ((s.port devId).passes cmd).map (Prod.mk devId) := by
  have marked := @acts_setPortConnected s devId true
  have sameDevice : (s.port devId).device = s.devices devId := rfl
  simp only [handleIrq] at returns
  rw [Ps2Manager.setPortConnected_devices, if_pos attaches] at returns
  simp only [bind_eq_ok, pure, Except.pure, Except.ok.injEq] at returns
  rcases returns with ⟨middle, setsUp, rfl⟩
  rcases keyboard_answers setsUp with ⟨answers, handled⟩
  rw [marked.self] at answers
  simp only [Ps2PortState.receive, Ps2PortState.answers, Ps2PortState.passes, sameDevice,
    if_pos attaches]
  refine ⟨(marked.answers.trans answers).handleByte, ?_⟩
  simp only [ps2KeyboardHandleByte, handled, Ps2Manager.setPortConnected_handled]
  rfl

/-- An answer of the protocol is answered, and not passed on. -/
theorem handleIrq_response
    (attached : ¬((s.devices devId).state = .notConnected ∧
      ¬(cmd = responseOk ∨ cmd = responseError)))
    (response : IsResponse cmd) (returns : handleIrq chip s devId cmd = .ok after) :
    s.Answers chip after devId ((s.port devId).receive cmd) ((s.port devId).answers cmd) ∧
      after.handled = s.handled := by
  have marked := @acts_setPortConnected s devId true
  have sameDevice : (s.port devId).device = s.devices devId := rfl
  simp only [handleIrq] at returns
  rw [Ps2Manager.setPortConnected_devices, Ps2Manager.setPortConnected_time,
    if_neg attached] at returns
  simp only [Ps2PortState.receive, Ps2PortState.answers, sameDevice, if_neg attached]
  by_cases echo : cmd = responseEcho
  · simp only [if_pos echo] at returns ⊢
    cases returns
    exact ⟨(marked.write _).answers, rfl⟩
  by_cases resend : cmd = responseResend
  · simp only [if_neg echo, if_pos resend] at returns ⊢
    cases queued : (s.devices devId).item with
    | some command =>
        rw [queued] at returns
        exact send_keeps marked rfl rfl returns
    | none =>
        rw [queued] at returns
        cases returns
        exact ⟨marked.answers, rfl⟩
  by_cases ok : cmd = responseOk
  · simp only [if_neg echo, if_neg resend, if_pos ok] at returns ⊢
    exact send_keeps (marked.write _) rfl rfl returns
  by_cases error : cmd = responseError
  · simp only [if_neg echo, if_neg resend, if_neg ok, if_pos error] at returns ⊢
    exact send_keeps (marked.write _) rfl rfl returns
  have ack : cmd = responseAck := by
    rcases response with isEcho | isResend | isOk | isError | isAck
    · exact absurd isEcho echo
    · exact absurd isResend resend
    · exact absurd isOk ok
    · exact absurd isError error
    · exact isAck
  simp only [if_neg echo, if_neg resend, if_neg ok, if_neg error, if_pos ack] at returns ⊢
  split_ifs at returns ⊢ with connected disabled
  · exact send_keeps (marked.write _) rfl rfl returns
  · cases returns
    have written := marked.write { s.devices devId with state := .identifyInProgress }
    have timed := @acts_setTimeout ((s.setPortConnected devId true).setDevice devId
      { s.devices devId with state := .identifyInProgress }) devId maxTimeout
    rw [written.self] at timed
    exact ⟨(written.trans timed).answers, rfl⟩
  · cases returns
    exact ⟨marked.answers, rfl⟩

/-- Any other byte is kept for the identification, passed on or dropped. -/
theorem handleIrq_payload
    (attached : ¬((s.devices devId).state = .notConnected ∧
      ¬(cmd = responseOk ∨ cmd = responseError)))
    (payload : ¬IsResponse cmd) (returns : handleIrq chip s devId cmd = .ok after) :
    s.Answers chip after devId ((s.port devId).receive cmd) ((s.port devId).answers cmd) ∧
      after.handled = s.handled ++ ((s.port devId).passes cmd).map (Prod.mk devId) := by
  have marked := @acts_setPortConnected s devId true
  have sameDevice : (s.port devId).device = s.devices devId := rfl
  have others := payload
  simp only [IsResponse, not_or] at others
  rcases others with ⟨echo, resend, ok, error, ack⟩
  simp only [handleIrq] at returns
  rw [Ps2Manager.setPortConnected_devices, if_neg attached, if_neg echo, if_neg resend, if_neg ok,
    if_neg error, if_neg ack] at returns
  simp only [Ps2PortState.receive, Ps2PortState.answers, Ps2PortState.passes, sameDevice,
    if_neg attached, if_neg echo, if_neg resend, if_neg ok, if_neg error, if_neg ack,
    if_neg payload]
  split_ifs at returns with identifying room isReady
  · have notReady : (s.devices devId).state ≠ .ready := by simp [identifying]
    cases returns
    simp only [if_pos identifying, dif_pos room, notReady, false_and, if_false]
    refine ⟨(marked.write _).answers, ?_⟩
    simp [Ps2Manager.setDevice]
  · have notReady : (s.devices devId).state ≠ .ready := by simp [identifying]
    cases returns
    simp only [if_pos identifying, dif_neg room, notReady, false_and, if_false]
    refine ⟨marked.answers, ?_⟩
    simp
  · cases returns
    rw [if_neg identifying, routeToDeviceDriver, Ps2Manager.setPortConnected_devices]
    simp only [isReady.1, isReady.2, true_and]
    by_cases keyboard : (s.devices devId).type = .keyboard
    · rw [if_pos keyboard, if_pos keyboard]
      refine ⟨marked.answers.handleByte, ?_⟩
      simp [ps2KeyboardHandleByte]
    · rw [if_neg keyboard, if_neg keyboard]
      refine ⟨marked.answers, ?_⟩
      simp
  · have notPassed : ¬((s.devices devId).state = .ready ∧ (s.devices devId).supported = true ∧
        (s.devices devId).type = .keyboard) := fun all => isReady ⟨all.1, all.2.1⟩
    cases returns
    simp only [if_neg identifying, if_neg notPassed]
    refine ⟨marked.answers, ?_⟩
    simp

/-- What an interrupt does to the port, and what it passes on. -/
theorem handleIrq_answers (returns : handleIrq chip s devId cmd = .ok after) :
    s.Answers chip after devId ((s.port devId).receive cmd) ((s.port devId).answers cmd) ∧
      after.handled = s.handled ++ ((s.port devId).passes cmd).map (Prod.mk devId) := by
  by_cases attaches : (s.devices devId).state = .notConnected ∧
      ¬(cmd = responseOk ∨ cmd = responseError)
  · exact handleIrq_attaches attaches returns
  by_cases response : IsResponse cmd
  · have passesNone : (s.port devId).passes cmd = [] := by
      rw [Ps2PortState.passes]
      exact (if_neg attaches).trans (if_pos response)
    rcases handleIrq_response attaches response returns with ⟨answers, handled⟩
    refine ⟨answers, ?_⟩
    rw [passesNone, List.map_nil, List.append_nil]
    exact handled
  · exact handleIrq_payload attaches response returns

end Irq

section Effect

variable {chip : Ps2Chip} {s middle after : Ps2Manager} {ports more : Ps2Port → Ps2PortState}
  {bytes moreBytes : Ps2Port → List UInt8} {devId : Ps2Port} {state : Ps2PortState}

namespace Ps2Manager.Effect

theorem refl : s.Effect s s.port (fun _ => []) :=
  ⟨rfl, rfl, fun _ => (List.append_nil _).symm⟩

theorem trans (first : s.Effect middle ports bytes) (second : middle.Effect after more moreBytes) :
    s.Effect after more (fun port => bytes port ++ moreBytes port) := by
  refine ⟨second.ports, ?_, ?_⟩
  · rw [second.hasSecondPort, first.hasSecondPort]
  · intro port
    rw [second.wire, first.wire, List.append_assoc]

theorem congr (effect : s.Effect after ports bytes) (same : ∀ port, ports port = more port)
    (sameBytes : ∀ port, bytes port = moreBytes port) : s.Effect after more moreBytes := by
  refine ⟨?_, effect.hasSecondPort, ?_⟩
  · funext port
    rw [effect.ports, same]
  · intro port
    rw [effect.wire, sameBytes]

end Ps2Manager.Effect

/-- The first port is written, and behind it the second. -/
theorem effect_of_acts {first second : Ps2PortState} {bytesFirst bytesSecond : List UInt8}
    (actsFirst : s.Acts middle .first first bytesFirst)
    (actsSecond : middle.Acts after .second second bytesSecond) :
    s.Effect after (fun port => match port with | .first => first | .second => second)
      (fun port => match port with | .first => bytesFirst | .second => bytesSecond) := by
  apply (Ps2Manager.Effect.trans actsFirst actsSecond).congr
  · intro port
    cases port with
    | first =>
        rw [Function.update_of_ne (by simp)]
        exact actsFirst.self
    | second => exact Function.update_self ..
  · intro port
    cases port with
    | first => simp [onlyAt]
    | second => simp [onlyAt]

theorem timeoutTimer_effect (returns : timeoutTimer chip s = .ok after) :
    (∃ bytes, s.Effect after (fun port => (s.port port).tick) bytes ∧
      (∀ port, (bytes port).Sublist (s.port port).tickBytes) ∧
      (chip.AlwaysReady → ∀ port, bytes port = (s.port port).tickBytes)) ∧
      after.handled = s.handled := by
  simp only [timeoutTimer, bind_eq_ok] at returns
  rcases returns with ⟨middle, first, second⟩
  rcases timeoutTimerPort_answers first with
    ⟨⟨sentFirst, actsFirst, partFirst, knownFirst⟩, handledFirst⟩
  rcases timeoutTimerPort_answers second with
    ⟨⟨sentSecond, actsSecond, partSecond, knownSecond⟩, handledSecond⟩
  have kept : middle.port .second = s.port .second := actsFirst.other (by simp)
  rw [kept] at actsSecond partSecond knownSecond
  refine ⟨⟨_, (effect_of_acts actsFirst actsSecond).congr ?_ (fun _ => rfl), ?_, ?_⟩, ?_⟩
  · intro port
    cases port with
    | first => rfl
    | second => rfl
  · intro port
    cases port with
    | first => exact partFirst
    | second => exact partSecond
  · intro ready port
    cases port with
    | first => exact knownFirst ready
    | second => exact knownSecond ready
  · rw [handledSecond, handledFirst]

/-- The device of a port that is looked at is given up when it is silent for too long. -/
theorem checkPing_acts (checked : (s.port devId).checked = true) :
    s.Acts (checkPing s devId) devId (s.port devId).check [] := by
  rw [checkPing, Ps2PortState.check]
  by_cases late : expired s.time (s.devices devId).lastEcho
  · have gives : (s.port devId).checked = true ∧
        expired (s.port devId).time (s.port devId).device.lastEcho := ⟨checked, late⟩
    rw [if_pos late, if_pos gives]
    have written := @acts_setDevice s devId
      { s.devices devId with type := .unknown, state := .notConnected, item := none }
    have marked := @acts_setPortConnected (s.setDevice devId
      { s.devices devId with type := .unknown, state := .notConnected, item := none }) devId false
    rw [written.self] at marked
    exact written.trans marked
  · have keeps : ¬((s.port devId).checked = true ∧
        expired (s.port devId).time (s.port devId).device.lastEcho) := fun both => late both.2
    rw [if_neg late, if_neg keeps]
    exact acts_refl

theorem checkPing_second :
    s.Acts (if s.controller.hasSecondPort then checkPing s .second else s) .second
      (s.port .second).check [] := by
  cases isChecked : s.controller.hasSecondPort with
  | true =>
      rw [if_pos rfl]
      exact checkPing_acts isChecked
  | false =>
      rw [if_neg Bool.false_ne_true]
      have keeps : ¬((s.port .second).checked = true ∧
          expired (s.port .second).time (s.port .second).device.lastEcho) := by
        intro both
        have checked : s.controller.hasSecondPort = true := both.1
        rw [isChecked] at checked
        exact Bool.false_ne_true checked
      rw [Ps2PortState.check, if_neg keeps]
      exact acts_refl

theorem send_waits {data : UInt8} (returns : s.send chip devId data = .ok after) :
    after.controller.waits = s.controller.waits + if (s.port devId).connected then 1 else 0 := by
  simp only [Ps2Manager.send, bind_eq_ok, Prod.exists, pure, Except.pure, Except.ok.injEq]
    at returns
  rcases returns with ⟨_, controller, sends, rfl⟩
  exact controllerSend_waits sends

theorem probe_acts {asked port : Ps2Port} (returns : probe chip s asked port = .ok after) :
    s.Acts after port (s.port port)
        (if (s.port port).connected = true ∧ chip.input s.controller.waits = .empty then
          [if (s.port asked).connected then commandEcho else commandReset]
        else []) ∧
      after.handled = s.handled ∧
      after.controller.waits = s.controller.waits + if (s.port port).connected then 1 else 0 := by
  have asks : (s.port asked).connected = s.controller.isPortConnected asked := rfl
  rw [probe] at returns
  cases isConnected : s.controller.isPortConnected asked with
  | true =>
      rw [isConnected] at asks
      simp only [isConnected, if_true] at returns
      rw [asks]
      exact ⟨send_acts returns, send_handled returns, send_waits returns⟩
  | false =>
      rw [isConnected] at asks
      simp only [isConnected, Bool.false_eq_true, if_false] at returns
      rw [asks]
      exact ⟨send_acts returns, send_handled returns, send_waits returns⟩

/-- Giving up a device is no matter for the driver of the keyboard, nor for the chip. -/
theorem checkPing_keeps : (checkPing s devId).handled = s.handled ∧
    (checkPing s devId).controller.waits = s.controller.waits := by
  rw [checkPing]
  split_ifs
  · exact ⟨rfl, setPortConnected_waits⟩
  · exact ⟨rfl, rfl⟩

/-- The first half of the port check. -/
theorem checkPings_effect {first checked : Ps2Manager} (isFirst : checkPing s .first = first)
    (isChecked :
      (if first.controller.hasSecondPort then checkPing first .second else first) = checked) :
    s.Effect checked (fun port => (s.port port).check) (fun _ => []) ∧
      checked.handled = s.handled ∧ checked.controller.waits = s.controller.waits := by
  have actsFirst := @checkPing_acts s .first rfl
  have keepsFirst := @checkPing_keeps s .first
  rw [isFirst] at actsFirst keepsFirst
  have actsSecond := @checkPing_second first
  rw [actsFirst.other (by simp), isChecked] at actsSecond
  have keepsSecond : checked.handled = first.handled ∧
      checked.controller.waits = first.controller.waits := by
    rw [← isChecked]
    split_ifs
    · exact checkPing_keeps
    · exact ⟨rfl, rfl⟩
  refine ⟨(effect_of_acts actsFirst actsSecond).congr ?_ ?_, ?_, ?_⟩
  · intro port
    cases port with
    | first => rfl
    | second => rfl
  · intro port
    cases port with
    | first => rfl
    | second => rfl
  · rw [keepsSecond.1, keepsFirst.1]
  · rw [keepsSecond.2, keepsFirst.2]

/-- The last line of the port check: the second port gets what the first port is asked. -/
theorem probeSecond_acts
    (returns : (if s.controller.hasSecondPort then probe chip s .first .second else return s) =
      .ok after) :
    s.Acts after .second (s.port .second)
        (if (s.port .second).checked = true ∧ (s.port .second).connected = true ∧
            chip.input s.controller.waits = .empty then
          [if (s.port .first).connected then commandEcho else commandReset]
        else []) ∧
      after.handled = s.handled := by
  have sameChecked : s.controller.hasSecondPort = (s.port .second).checked := rfl
  rw [sameChecked] at returns
  cases isChecked : (s.port .second).checked with
  | true =>
      rw [isChecked, if_pos rfl] at returns
      rcases probe_acts returns with ⟨sends, handled, _⟩
      simp only [true_and]
      exact ⟨sends, handled⟩
  | false =>
      simp only [isChecked, Bool.false_eq_true, if_false, pure, Except.pure] at returns
      cases returns
      simp only [Bool.false_eq_true, false_and, if_false, and_true]
      exact acts_refl

theorem Ps2PortState.check_checked {state : Ps2PortState} :
    state.check.checked = state.checked := by
  rw [Ps2PortState.check]
  split_ifs
  · rfl
  · rfl

/-- The port check on a port, and what it sends there. Whether the first port is still
connected is what decides what both get. -/
theorem sendPortCheck_effect (returns : sendPortCheck chip s = .ok after) :
    ∃ bytes, s.Effect after (fun port => (s.port port).check) bytes ∧
      after.handled = s.handled ∧
      bytes .first =
        (if (s.port .first).check.connected = true ∧ chip.input s.controller.waits = .empty then
          [commandEcho] else []) ∧
      bytes .second =
        (if (s.port .second).checked = true ∧ (s.port .second).check.connected = true ∧
            chip.input (s.controller.waits + if (s.port .first).check.connected then 1 else 0) =
              .empty then
          [if (s.port .first).check.connected then commandEcho else commandReset]
        else []) := by
  simp only [sendPortCheck, bind_eq_ok] at returns
  generalize isFirst : checkPing s .first = first at returns
  generalize isChecked : (if first.controller.hasSecondPort then checkPing first .second else
    first) = checked at returns
  rcases returns with ⟨probed, probesFirst, probesSecond⟩
  rcases checkPings_effect isFirst isChecked with ⟨pings, pingsHandled, pingsWaits⟩
  have atPort : ∀ port, checked.port port = (s.port port).check := congrFun pings.ports
  rcases probe_acts probesFirst with ⟨sendsFirst, handledFirst, waitsFirst⟩
  rw [atPort, pingsWaits] at sendsFirst waitsFirst
  have probedFirst : probed.port .first = (s.port .first).check := sendsFirst.self
  have probedSecond : probed.port .second = (s.port .second).check := by
    rw [sendsFirst.other (by simp), atPort]
  rcases probeSecond_acts probesSecond with ⟨sendsSecond, handledSecond⟩
  rw [probedFirst, probedSecond, Ps2PortState.check_checked, waitsFirst] at sendsSecond
  refine ⟨_, (pings.trans (effect_of_acts sendsFirst sendsSecond)).congr ?_ (fun _ => rfl),
    ?_, ?_, ?_⟩
  · intro port
    cases port with
    | first => rfl
    | second => rfl
  · rw [handledSecond, handledFirst, pingsHandled]
  · cases isConnected : (s.port .first).check.connected with
    | true => simp
    | false => simp
  · rfl

/-- A byte that the chip may refuse is all that is sent or nothing. -/
theorem sublist_of_accepted {accepted : Prop} [Decidable accepted] {sends : Prop}
    [Decidable sends] {data : UInt8} (asked : accepted → sends) :
    (if accepted then [data] else []).Sublist (if sends then [data] else []) := by
  by_cases isAccepted : accepted
  · rw [if_pos isAccepted, if_pos (asked isAccepted)]
  · rw [if_neg isAccepted]
    exact List.nil_sublist _

/-- Every event does to each port what it does to the machine of the port, and sends to it
what the machine says, as far as the chip takes it. -/
theorem step_effect {event : Ps2Event} (returns : s.step chip event = .ok after) :
    ∃ bytes, s.Effect after (fun port => (s.port port).step port event) bytes ∧
      (∀ port, (bytes port).Sublist
        ((s.port port).bytes port (s.port .first).check.connected event)) ∧
      (chip.AlwaysReady → ∀ port,
        bytes port = (s.port port).bytes port (s.port .first).check.connected event) := by
  cases event with
  | irq devId cmd =>
      rcases (handleIrq_answers returns).1 with ⟨sent, acts, part, known⟩
      refine ⟨_, acts.congr ?_ (fun _ => rfl), ?_, ?_⟩
      · intro port
        by_cases same : devId = port
        · simp [Ps2PortState.step, same]
        · simp [Ps2PortState.step, same, Function.update_of_ne (Ne.symm same)]
      · intro port
        by_cases same : devId = port
        · rw [← same]
          simpa [Ps2PortState.bytes, onlyAt] using part
        · simp [Ps2PortState.bytes, onlyAt, same, Ne.symm same]
      · intro ready port
        by_cases same : devId = port
        · rw [← same]
          simp [Ps2PortState.bytes, onlyAt, known ready]
        · simp [Ps2PortState.bytes, onlyAt, same, Ne.symm same]
  | timeoutTimer => exact (timeoutTimer_effect returns).1
  | sendPortCheck =>
      rcases sendPortCheck_effect returns with ⟨bytes, effect, _, toFirst, toSecond⟩
      have checked : (s.port .first).checked = true := rfl
      have asksFirst : (s.port .first).checkBytes (s.port .first).check.connected =
          if (s.port .first).check.connected = true then [commandEcho] else [] := by
        simp only [Ps2PortState.checkBytes, checked, true_and]
        cases (s.port .first).check.connected with
        | true => rfl
        | false => rfl
      refine ⟨bytes, effect, ?_, ?_⟩
      · intro port
        cases port with
        | first =>
            rw [toFirst, Ps2PortState.bytes, asksFirst]
            exact sublist_of_accepted And.left
        | second =>
            rw [toSecond, Ps2PortState.bytes, Ps2PortState.checkBytes]
            exact sublist_of_accepted fun all => ⟨all.1, all.2.1⟩
      · intro ready port
        cases port with
        | first =>
            rw [toFirst, Ps2PortState.bytes, asksFirst]
            simp only [ready s.controller.waits, and_true]
        | second =>
            rw [toSecond, Ps2PortState.bytes, Ps2PortState.checkBytes]
            simp only [ready _, and_true]
  | pitTick =>
      cases returns
      refine ⟨_, ⟨rfl, rfl, fun _ => (List.append_nil _).symm⟩, ?_, fun _ _ => rfl⟩
      exact fun _ => List.Sublist.refl _

theorem step_port {event : Ps2Event} {port : Ps2Port} (returns : s.step chip event = .ok after) :
    after.port port = (s.port port).step port event := by
  rcases step_effect returns with ⟨_, effect, _, _⟩
  exact congrFun effect.ports port

/-- A run does to a port what it does to the machine of the port. -/
theorem run_port {events : List Ps2Event} {port : Ps2Port}
    (returns : s.run chip events = .ok after) :
    after.port port =
      events.foldl (fun state event => state.step port event) (s.port port) := by
  apply steps_refines _ returns
  intro s event next returns
  exact step_port returns

end Effect

section Returns

variable {chip : Ps2Chip} {s : Ps2Manager} {devId : Ps2Port}

theorem sendEach_returns {controller : Ps2Controller} (list : List UInt8)
    (ready : chip.AlwaysReady) :
    ∃ after, sendEach chip devId true controller list = .ok (true, after) := by
  induction list generalizing controller with
  | nil => exact ⟨controller, rfl⟩
  | cons data list ih =>
      rcases @controllerSend_returns chip controller devId data (ready _) with ⟨middle, sends⟩
      rcases @ih middle with ⟨after, rest⟩
      refine ⟨after, ?_⟩
      simp only [sendEach, bind_eq_ok]
      exact ⟨_, sends, rest⟩

theorem send_returns {data : UInt8} (ready : chip.input s.controller.waits = .empty) :
    ∃ after, s.send chip devId data = .ok after := by
  rcases @controllerSend_returns chip s.controller devId data ready with ⟨controller, sends⟩
  refine ⟨{ s with controller := controller }, ?_⟩
  simp only [Ps2Manager.send, bind_eq_ok]
  exact ⟨_, sends, rfl⟩

theorem ps2KeyboardSetup_returns {scancode2 : Bool} (responsive : chip.Responsive) :
    ∃ after, ps2KeyboardSetup chip s devId scancode2 = .ok after := by
  have translates : ∃ controller,
      (if scancode2 then firstPortTranslation chip s.controller true else .ok s.controller) =
        .ok controller := by
    cases scancode2 with
    | true => exact firstPortTranslation_returns responsive
    | false => exact ⟨s.controller, rfl⟩
  rcases translates with ⟨translated, translates⟩
  rcases @sendEach_returns chip devId translated keyboardSetupBytes responsive.1 with
    ⟨controller, sends⟩
  refine ⟨{ s with controller := controller }, ?_⟩
  simp only [ps2KeyboardSetup, bind_eq_ok]
  exact ⟨_, translates, _, sends, rfl⟩

theorem initDevice_returns {id : List UInt8} (responsive : chip.Responsive) :
    ∃ after, initDevice chip s devId id = .ok after := by
  have identifies : ∃ middle, identifyDevice chip s devId id = .ok middle := by
    rw [identifyDevice.eq_def]
    split
    · exact ps2KeyboardSetup_returns responsive
    · dsimp only
      split_ifs
      · exact ⟨_, rfl⟩
      · exact ⟨_, rfl⟩
      · exact ⟨_, rfl⟩
      · exact ⟨_, rfl⟩
    · split_ifs
      · exact ps2KeyboardSetup_returns responsive
      · exact ps2KeyboardSetup_returns responsive
      · exact ⟨_, rfl⟩
      · exact ⟨_, rfl⟩
    · exact ⟨_, rfl⟩
  rcases identifies with ⟨middle, identifies⟩
  refine ⟨middle.setDevice devId { middle.devices devId with state := .ready }, ?_⟩
  simp only [initDevice, bind_eq_ok]
  exact ⟨middle, identifies, rfl⟩

theorem timeoutTimerPort_returns (responsive : chip.Responsive) :
    ∃ after, timeoutTimerPort chip s devId = .ok after := by
  rw [timeoutTimerPort]
  split_ifs
  · exact ⟨_, rfl⟩
  · rcases @initDevice_returns chip s devId (s.devices devId).buffer responsive with
      ⟨middle, identifies⟩
    refine ⟨middle.setTimeout devId (-1), ?_⟩
    rw [bind_eq_ok]
    exact ⟨middle, identifies, rfl⟩
  · exact ⟨_, rfl⟩

theorem handleIrq_returns {cmd : UInt8} (responsive : chip.Responsive) :
    ∃ after, handleIrq chip s devId cmd = .ok after := by
  simp only [handleIrq]
  split_ifs
  · rcases @ps2KeyboardSetup_returns chip _ devId true responsive with ⟨middle, setsUp⟩
    refine ⟨ps2KeyboardHandleByte middle devId cmd, ?_⟩
    rw [bind_eq_ok]
    exact ⟨middle, setsUp, rfl⟩
  · exact ⟨_, rfl⟩
  · split
    · exact send_returns (responsive.1 _)
    · exact ⟨_, rfl⟩
  · exact send_returns (responsive.1 _)
  · exact send_returns (responsive.1 _)
  · exact send_returns (responsive.1 _)
  · exact ⟨_, rfl⟩
  · exact ⟨_, rfl⟩
  · exact ⟨_, rfl⟩
  · exact ⟨_, rfl⟩
  · exact ⟨_, rfl⟩
  · exact ⟨_, rfl⟩

theorem probe_returns {asked port : Ps2Port} (ready : chip.input s.controller.waits = .empty) :
    ∃ after, probe chip s asked port = .ok after := by
  rw [probe]
  split_ifs
  · exact send_returns ready
  · exact send_returns ready

theorem sendPortCheck_returns (ready : chip.ReadyFrom s.controller.waits) :
    ∃ after, sendPortCheck chip s = .ok after := by
  rw [sendPortCheck]
  generalize isFirst : checkPing s .first = first
  generalize isChecked : (if first.controller.hasSecondPort then checkPing first .second else
    first) = checked
  have sameWaits := (checkPings_effect isFirst isChecked).2.2
  rcases @probe_returns chip checked .first .first (ready _ (Nat.le_of_eq sameWaits.symm)) with
    ⟨probed, probesFirst⟩
  have laterWaits := (probe_acts probesFirst).2.2
  have rest : ∃ after, (if probed.controller.hasSecondPort then
      probe chip probed .first .second else pure probed) = .ok after := by
    split_ifs
    · exact probe_returns (ready _ (by omega))
    · exact ⟨probed, rfl⟩
  rcases rest with ⟨after, probesSecond⟩
  refine ⟨after, ?_⟩
  rw [bind_eq_ok]
  exact ⟨probed, probesFirst, probesSecond⟩

/-- With a chip that is ready and answers, the manager comes back from every event. -/
theorem step_returns {event : Ps2Event} (responsive : chip.Responsive) :
    ∃ after, s.step chip event = .ok after := by
  cases event with
  | irq devId cmd => exact handleIrq_returns responsive
  | timeoutTimer =>
      rcases @timeoutTimerPort_returns chip s .first responsive with ⟨middle, first⟩
      rcases @timeoutTimerPort_returns chip middle .second responsive with ⟨after, second⟩
      refine ⟨after, ?_⟩
      simp only [Ps2Manager.step, timeoutTimer, bind_eq_ok]
      exact ⟨middle, first, second⟩
  | sendPortCheck =>
      apply sendPortCheck_returns
      intro wait _
      exact responsive.1 wait
  | pitTick => exact ⟨_, rfl⟩

theorem run_returns {events : List Ps2Event} (responsive : chip.Responsive) :
    ∃ after, s.run chip events = .ok after := by
  induction events generalizing s with
  | nil => exact ⟨s, rfl⟩
  | cons event events ih =>
      rcases @step_returns chip s event responsive with ⟨next, first⟩
      rcases @ih next with ⟨after, rest⟩
      exact ⟨after, (steps_cons first).trans rest⟩

end Returns

end Osserver
