import Osserver.Lib.Transition
import Mathlib.Data.List.Basic

/-!
# A store of blocks

What an allocator is for, without an address space: blocks are handed out under names
that nobody has, each with as many bytes as were asked for; the bytes of a block are
written by whoever holds it and by no one else; and a block that is given back is gone.
A request may be refused.
-/

namespace BlockStore

open Transition

/-- The blocks that are handed out, each with its bytes. -/
abbrev Store (Address Byte : Type) :=
  Address → Option (List Byte)

inductive Event (Address Byte : Type) where
  | allocate (size : ℕ)
  | clear (size : ℕ)
  | resize (block : Address) (size : ℕ)
  | release (block : Address)
  | write (block : Address) (offset : ℕ) (byte : Byte)
  | idle

variable {Address Byte : Type} [DecidableEq Address]

/-- What an event does to the store. A block that is resized gets a new name and keeps
what there is room for. -/
inductive Step (blank : Byte) :
    Store Address Byte → Event Address Byte → Store Address Byte → Prop where
  | refused {store : Store Address Byte} {size : ℕ} : Step blank store (.allocate size) store
  | allocated {store : Store Address Byte} {size : ℕ} {block : Address} {bytes : List Byte}
      (fresh : store block = none) (sized : bytes.length = size) :
      Step blank store (.allocate size) (Function.update store block (some bytes))
  | notCleared {store : Store Address Byte} : Step blank store (.clear 0) store
  | cleared {store : Store Address Byte} {size : ℕ} {block : Address}
      (fresh : store block = none) :
      Step blank store (.clear size)
        (Function.update store block (some (List.replicate size blank)))
  | resized {store : Store Address Byte} {size : ℕ} {block target : Address}
      {old bytes : List Byte} (held : store block = some old) (fresh : store target = none)
      (sized : bytes.length = size)
      (kept : bytes.take (min old.length size) = old.take (min old.length size)) :
      Step blank store (.resize block size)
        (Function.update (Function.update store block none) target (some bytes))
  | notResized {store : Store Address Byte} {size : ℕ} {block : Address}
      (empty : store block = some []) :
      Step blank store (.resize block size) (Function.update store block none)
  | released {store : Store Address Byte} {block : Address} {bytes : List Byte}
      (held : store block = some bytes) :
      Step blank store (.release block) (Function.update store block none)
  | written {store : Store Address Byte} {block : Address} {bytes : List Byte} {offset : ℕ}
      {byte : Byte} (held : store block = some bytes) (inside : offset < bytes.length) :
      Step blank store (.write block offset byte)
        (Function.update store block (some (bytes.set offset byte)))
  | idle {store : Store Address Byte} : Step blank store .idle store

/-- The store, with no block handed out at first. -/
def system (blank : Byte) : System (Store Address Byte) (Event Address Byte) where
  Init store := store = fun _ => none
  Step := Step blank

/-- The event is not about a certain block that someone holds. -/
def Event.LeavesAlone (address : Address) : Event Address Byte → Prop
  | resize block _ => block ≠ address
  | release block => block ≠ address
  | write block _ _ => block ≠ address
  | _ => True

/-- A block stays as it is as long as nothing happens to it. -/
theorem Step.kept {blank : Byte} {store after : Store Address Byte} {event : Event Address Byte}
    {address : Address} {bytes : List Byte} (step : Step blank store event after)
    (held : store address = some bytes) (quiet : event.LeavesAlone address) :
    after address = some bytes := by
  have notFresh : ∀ block, store block = none → address ≠ block := by
    rintro block fresh rfl
    rw [held] at fresh
    cases fresh
  cases step with
  | refused => exact held
  | allocated fresh _ => rw [Function.update_of_ne (notFresh _ fresh), held]
  | notCleared => exact held
  | cleared fresh => rw [Function.update_of_ne (notFresh _ fresh), held]
  | resized _ fresh _ _ =>
      rw [Function.update_of_ne (notFresh _ fresh), Function.update_of_ne (Ne.symm quiet), held]
  | notResized _ => rw [Function.update_of_ne (Ne.symm quiet), held]
  | released _ => rw [Function.update_of_ne (Ne.symm quiet), held]
  | written _ _ => rw [Function.update_of_ne (Ne.symm quiet), held]
  | idle => exact held

end BlockStore
