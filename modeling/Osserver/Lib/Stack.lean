import Osserver.Lib.Words

/-!
# Stacks of words in memory

A stack of 32-bit words that grows down in a memory of bytes. What is pushed lies at the
pointer and is popped again, and a push leaves everything from the old pointer on alone.
`Stack.At` says that some words lie at an address, one after the other: it is what the
code that pushed them relies on while other code runs below.
-/

open Bytes

/-- A stack: the address of its top, and the memory that it lies in. -/
structure Stack where
  pointer : BitVec 32
  memory : ℕ → UInt8

namespace Stack

def push (stack : Stack) (value : BitVec 32) : Stack :=
  { pointer := stack.pointer - 4#32
    memory := store32 stack.memory (stack.pointer - 4#32).toNat value.toNat }

/-- The word on top. -/
def top (stack : Stack) : BitVec 32 :=
  BitVec.ofNat 32 (load32 stack.memory stack.pointer.toNat)

/-- The stack without its upper words. -/
def drop (stack : Stack) (words : ℕ) : Stack :=
  { stack with pointer := stack.pointer + BitVec.ofNat 32 (4 * words) }

/-- A word of the stack, counted from the top. -/
def word (stack : Stack) (index : ℕ) : BitVec 32 :=
  (stack.drop index).top

/-- Words lie in memory from an address on. -/
def At (memory : ℕ → UInt8) : ℕ → List (BitVec 32) → Prop
  | _, [] => True
  | address, word :: words =>
      load32 memory address = word.toNat ∧ At memory (address + 4) words

/-- Words lie on top of the stack. -/
def Has (stack : Stack) (words : List (BitVec 32)) : Prop :=
  At stack.memory stack.pointer.toNat words

variable {stack : Stack} {memory other : ℕ → UInt8} {address : ℕ} {first value : BitVec 32}
  {words more : List (BitVec 32)}

@[simp]
theorem drop_memory (stack : Stack) (count : ℕ) : (stack.drop count).memory = stack.memory :=
  rfl

theorem pointer_push (room : 4 ≤ stack.pointer.toNat) (value : BitVec 32) :
    (stack.push value).pointer.toNat = stack.pointer.toNat - 4 := by
  have below := stack.pointer.isLt
  simp only [push, BitVec.toNat_sub, BitVec.toNat_ofNat]
  omega

theorem pointer_drop {count : ℕ} (inside : stack.pointer.toNat + 4 * count < 2 ^ 32) :
    (stack.drop count).pointer.toNat = stack.pointer.toNat + 4 * count := by
  simp only [drop, BitVec.toNat_add, BitVec.toNat_ofNat]
  omega

theorem push_above (room : 4 ≤ stack.pointer.toNat) (value : BitVec 32) {place : ℕ}
    (above : stack.pointer.toNat ≤ place) :
    (stack.push value).memory place = stack.memory place := by
  have pointer := pointer_push room value
  have below := stack.pointer.isLt
  simp only [push] at pointer ⊢
  rw [pointer]
  apply store32_outside <;> omega

/-- The words at an address depend on the bytes that they lie in only. -/
theorem At.congr (lies : At memory address words) (fits : address + 4 * words.length ≤ 2 ^ 32)
    (agree : ∀ place, address ≤ place → place < address + 4 * words.length →
      other place = memory place) : At other address words := by
  induction words generalizing address with
  | nil => trivial
  | cons word words ih =>
      rw [List.length_cons] at fits agree
      refine ⟨?_, ?_⟩
      · have same : load32 other address = load32 memory address := by
          apply load32_congr (by omega)
          intro place above below
          exact agree place above (by omega)
        rw [same]
        exact lies.1
      · apply ih lies.2 (by omega)
        intro place above below
        exact agree place (by omega) (by omega)

theorem At.append : At memory address (words ++ more) ↔
    At memory address words ∧ At memory (address + 4 * words.length) more := by
  induction words generalizing address with
  | nil => simp [At]
  | cons word words ih =>
      have place : address + 4 + 4 * words.length = address + 4 * (words.length + 1) := by omega
      simp only [List.cons_append, At, ih, List.length_cons, place, and_assoc]

theorem Has.push (has : stack.Has words) (room : 4 ≤ stack.pointer.toNat)
    (fits : stack.pointer.toNat + 4 * words.length ≤ 2 ^ 32) (value : BitVec 32) :
    (stack.push value).Has (value :: words) := by
  have pointer := pointer_push room value
  have next : stack.pointer.toNat - 4 + 4 = stack.pointer.toNat := by omega
  have small := value.isLt
  rw [Has, pointer]
  refine ⟨?_, ?_⟩
  · have stored : (stack.push value).memory =
        store32 stack.memory (stack.pointer.toNat - 4) value.toNat := by
      rw [← pointer]
      rfl
    rw [stored, load32_store32 (by omega), Nat.mod_eq_of_lt small]
  · rw [next]
    apply At.congr has fits
    intro place above _
    exact push_above room value above

theorem Has.top (has : stack.Has (first :: words)) : stack.top = first := by
  rw [Stack.top, has.1]
  simp

theorem Has.drop (has : stack.Has (words ++ more))
    (inside : stack.pointer.toNat + 4 * words.length < 2 ^ 32) :
    (stack.drop words.length).Has more := by
  rw [Has, pointer_drop inside]
  exact (At.append.mp has).2

theorem Has.word (has : stack.Has (words ++ value :: more))
    (inside : stack.pointer.toNat + 4 * words.length < 2 ^ 32) :
    stack.word words.length = value :=
  (has.drop inside).top

theorem has_nil (stack : Stack) : stack.Has [] :=
  trivial

/-- Push words one after the other. -/
def pushAll (stack : Stack) : List (BitVec 32) → Stack
  | [] => stack
  | word :: words => (stack.push word).pushAll words

theorem pointer_pushAll (room : 4 * words.length ≤ stack.pointer.toNat) :
    (stack.pushAll words).pointer.toNat = stack.pointer.toNat - 4 * words.length := by
  induction words generalizing stack with
  | nil => rfl
  | cons word words ih =>
      rw [List.length_cons] at room ⊢
      have pointer := @pointer_push stack (by omega) word
      rw [pushAll, ih (by omega), pointer]
      omega

theorem pushAll_above (room : 4 * words.length ≤ stack.pointer.toNat) {place : ℕ}
    (above : stack.pointer.toNat ≤ place) :
    (stack.pushAll words).memory place = stack.memory place := by
  induction words generalizing stack with
  | nil => rfl
  | cons word words ih =>
      rw [List.length_cons] at room
      have pointer := @pointer_push stack (by omega) word
      rw [pushAll, ih (by omega) (by omega)]
      exact push_above (by omega) word above

theorem Has.pushAll (has : stack.Has more) (room : 4 * words.length ≤ stack.pointer.toNat)
    (fits : stack.pointer.toNat + 4 * more.length ≤ 2 ^ 32) :
    (stack.pushAll words).Has (words.reverse ++ more) := by
  induction words generalizing stack more with
  | nil => exact has
  | cons word words ih =>
      rw [List.length_cons] at room
      have pointer := @pointer_push stack (by omega) word
      have pushed := has.push (by omega) fits word
      rw [Stack.pushAll, List.reverse_cons, List.append_assoc]
      apply ih pushed (by omega)
      rw [List.length_cons]
      omega

/-- Two stacks with one pointer and the same bytes from there up to a bound. -/
structure Same (bound : ℕ) (stack after : Stack) : Prop where
  pointer : after.pointer = stack.pointer
  memory : ∀ place, stack.pointer.toNat ≤ place → place < bound →
    after.memory place = stack.memory place

theorem Has.same {bound : ℕ} {after : Stack} (has : stack.Has words) (same : Same bound stack after)
    (inside : stack.pointer.toNat + 4 * words.length ≤ bound) (fits : bound ≤ 2 ^ 32) :
    after.Has words := by
  rw [Has, same.pointer]
  apply At.congr has (by omega)
  intro place above below
  exact same.memory place above (by omega)

end Stack
