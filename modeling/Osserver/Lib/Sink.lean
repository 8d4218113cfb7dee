import Mathlib.Data.List.Basic
import Mathlib.Data.List.Induction
import Mathlib.Data.Int.Basic
import Mathlib.Logic.Function.Basic

/-!
# Bounded output

Items are put one after another into a buffer that has room for some of them; what comes
when there is no room is dropped. What ends up in the buffer is then a first part of all
that was put, and a smaller buffer holds a first part of what a larger one holds.
-/

universe u

/-- A buffer, the place of the next item, the place that no item may come to, and the one that
the item that ends the output may not come to. The items that were put are kept beside it,
those that were dropped too, and so are the places stored to. -/
structure Sink (Item : Type u) where
  contents : ℕ → Item
  position : ℕ
  stop : ℤ
  closeStop : ℤ
  passed : List Item
  stored : List ℕ

namespace Sink

variable {Item : Type u}

def fresh (contents : ℕ → Item) (stop closeStop : ℤ) : Sink Item :=
  ⟨contents, 0, stop, closeStop, [], []⟩

/-- Put an item, if there is room. -/
def put (sink : Sink Item) (item : Item) : Sink Item :=
  if (sink.position : ℤ) < sink.stop then
    { sink with
      contents := Function.update sink.contents sink.position item
      position := sink.position + 1
      passed := sink.passed ++ [item]
      stored := sink.stored ++ [sink.position] }
  else
    { sink with passed := sink.passed ++ [item] }

def putAll (sink : Sink Item) (items : List Item) : Sink Item :=
  items.foldl put sink

/-- Store the item that ends the output, if there is room for it. -/
def close (sink : Sink Item) (item : Item) : Sink Item :=
  if (sink.position : ℤ) < sink.closeStop then
    { sink with
      contents := Function.update sink.contents sink.position item
      stored := sink.stored ++ [sink.position] }
  else
    sink

variable {sink : Sink Item} {item : Item} {items more : List Item} {contents : ℕ → Item}
  {stop closeStop : ℤ}

@[simp]
theorem putAll_nil : sink.putAll [] = sink := rfl

@[simp]
theorem putAll_cons : sink.putAll (item :: items) = (sink.put item).putAll items := rfl

@[simp]
theorem putAll_append : sink.putAll (items ++ more) = (sink.putAll items).putAll more :=
  List.foldl_append

@[simp]
theorem put_passed : (sink.put item).passed = sink.passed ++ [item] := by
  rw [put]
  split
  · rfl
  · rfl

@[simp]
theorem putAll_passed : (sink.putAll items).passed = sink.passed ++ items := by
  induction items generalizing sink with
  | nil => simp
  | cons item items ih => simp [ih]

@[simp]
theorem put_closeStop : (sink.put item).closeStop = sink.closeStop := by
  rw [put]
  split
  · rfl
  · rfl

@[simp]
theorem putAll_closeStop : (sink.putAll items).closeStop = sink.closeStop := by
  induction items generalizing sink with
  | nil => rfl
  | cons item items ih => simp [ih]

/-- What is in the sink after the items were put into an empty one. -/
structure Holds (sink : Sink Item) (contents : ℕ → Item) (stop : ℤ) (items : List Item) :
    Prop where
  stop_eq : sink.stop = stop
  position_eq : sink.position = min items.length stop.toNat
  passed_eq : sink.passed = items
  stored_eq : sink.stored = List.range (min items.length stop.toNat)
  front : ∀ i < sink.position, some (sink.contents i) = items[i]?
  rest : ∀ i, sink.position ≤ i → sink.contents i = contents i

theorem holds_fresh : (fresh contents stop closeStop).Holds contents stop [] := by
  refine ⟨rfl, ?_, rfl, ?_, ?_, ?_⟩
  · exact (Nat.zero_min _).symm
  · rw [List.length_nil, Nat.zero_min]
    rfl
  · intro i inside
    exact absurd inside (Nat.not_lt_zero i)
  · intro i _
    rfl

theorem Holds.put (holds : sink.Holds contents stop items) :
    (sink.put item).Holds contents stop (items ++ [item]) := by
  have position := holds.position_eq
  rw [Sink.put, holds.stop_eq]
  by_cases room : (sink.position : ℤ) < stop
  · have all : sink.position = items.length := by omega
    have next : min (items ++ [item]).length stop.toNat = sink.position + 1 := by
      rw [List.length_append, List.length_singleton]
      omega
    rw [if_pos room]
    refine ⟨rfl, next.symm, ?_, ?_, ?_, ?_⟩
    · rw [holds.passed_eq]
    · rw [holds.stored_eq, next, List.range_succ, position]
    · intro i inside
      change i < sink.position + 1 at inside
      change some (Function.update sink.contents sink.position item i) = _
      by_cases last : i = sink.position
      · rw [last, Function.update_self, all, List.getElem?_concat_length]
      · have earlier : i < sink.position := by omega
        rw [Function.update_of_ne last, List.getElem?_append_left (by omega)]
        exact holds.front i earlier
    · intro i behind
      change sink.position + 1 ≤ i at behind
      change Function.update sink.contents sink.position item i = _
      rw [Function.update_of_ne (by omega)]
      exact holds.rest i (by omega)
  · have next : min (items ++ [item]).length stop.toNat = min items.length stop.toNat := by
      rw [List.length_append, List.length_singleton]
      omega
    rw [if_neg room]
    refine ⟨rfl, position.trans next.symm, ?_, ?_, ?_, holds.rest⟩
    · rw [holds.passed_eq]
    · rw [holds.stored_eq, next]
    · intro i inside
      change i < sink.position at inside
      rw [List.getElem?_append_left (by omega)]
      exact holds.front i inside

/-- The buffer holds a first part of what was put. -/
theorem holds_putAll :
    ((fresh contents stop closeStop).putAll items).Holds contents stop items := by
  induction items using List.reverseRecOn with
  | nil => exact holds_fresh
  | append_singleton items item ih =>
      rw [putAll_append]
      exact ih.put

/-- The places stored to are those before the next one. -/
theorem Holds.mem_stored_iff (holds : sink.Holds contents stop items) {i : ℕ} :
    i ∈ sink.stored ↔ i < sink.position := by
  rw [holds.stored_eq, holds.position_eq, List.mem_range]

theorem mem_close_stored {i : ℕ} (stored : i ∈ sink.stored) : i ∈ (sink.close item).stored := by
  rw [close]
  split
  · exact List.mem_append_left _ stored
  · exact stored

theorem Holds.stored_lt (holds : sink.Holds contents stop items) :
    ∀ i ∈ sink.stored, (i : ℤ) < stop := by
  intro i isStored
  rw [holds.stored_eq, List.mem_range] at isStored
  omega

/-- Closing leaves what was put, and stores right behind it. -/
theorem Holds.close (holds : sink.Holds contents stop items)
    (room : (sink.position : ℤ) < sink.closeStop) :
    (sink.close item).contents sink.position = item ∧
      ∀ i < sink.position, some ((sink.close item).contents i) = items[i]? := by
  rw [Sink.close, if_pos room]
  refine ⟨Function.update_self _ _ _, ?_⟩
  intro i inside
  change some (Function.update sink.contents sink.position item i) = _
  rw [Function.update_of_ne (Nat.ne_of_lt inside)]
  exact holds.front i inside

/-- There may be no place to close. -/
theorem close_of_le (noRoom : sink.closeStop ≤ sink.position) : sink.close item = sink :=
  if_neg (Int.not_lt.mpr noRoom)

theorem Holds.close_stored_lt (holds : sink.Holds contents stop items) :
    ∀ i ∈ (sink.close item).stored, (i : ℤ) < max stop sink.closeStop := by
  intro i isStored
  rw [Sink.close] at isStored
  split at isStored
  · rename_i room
    rcases List.mem_append.mp isStored with before | last
    · have inside := holds.stored_lt i before
      omega
    · rw [List.mem_singleton.mp last]
      omega
  · have inside := holds.stored_lt i isStored
    omega

@[simp]
theorem close_position : (sink.close item).position = sink.position := by
  rw [close]
  split
  · rfl
  · rfl

@[simp]
theorem close_passed : (sink.close item).passed = sink.passed := by
  rw [close]
  split
  · rfl
  · rfl

end Sink
