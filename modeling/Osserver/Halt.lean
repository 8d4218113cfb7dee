import Mathlib.Init

/-!
# Calls that never return

A call into the kernel either returns, or stops the machine for good. The ways
of stopping are values here, so that a model function is total and a statement
can say which of them it excludes.
-/

namespace Osserver

/-- Why a call never returns: `kpanic` logs the message and hangs the processor;
an access goes through a null pointer or to a page that no table maps; a loop
comes round to a state it has been in. -/
inductive Halt where
  | kpanic (message : String)
  | nullPointer
  | pageFault
  | endlessLoop
  deriving DecidableEq, Repr

/-- What a loop comes to, when the passes that it is allowed are enough. -/
def loopResult {Result : Type} : Option Result → Except Halt Result
  | none => .error .endlessLoop
  | some result => .ok result

theorem loopResult_eq_ok {Result : Type} {outcome : Option Result} {result : Result} :
    loopResult outcome = .ok result ↔ outcome = some result := by
  cases outcome with
  | none => simp [loopResult]
  | some other => simp [loopResult]

end Osserver
