import Mathlib.Data.List.Basic

/-!
# The most recent items

A window of a fixed size on a list that grows at its end: it holds the last items. When it
is full, the oldest item leaves it before the next one comes in.
-/

namespace Recent

universe u

variable {Item : Type u} {size : ℕ} {items : List Item} {item : Item}

/-- The last items, at most `size` of them. -/
def recent (size : ℕ) (items : List Item) : List Item :=
  items.drop (items.length - size)

theorem recent_nil (size : ℕ) : recent size ([] : List Item) = [] :=
  List.drop_nil

theorem length_recent : (recent size items).length = min items.length size := by
  rw [recent, List.length_drop]
  omega

theorem recent_append_of_full (full : (recent size items).length = size) (positive : 0 < size) :
    recent size (items ++ [item]) = (recent size items).tail ++ [item] := by
  rw [length_recent] at full
  have enough : size ≤ items.length := by omega
  have shorter : (items ++ [item]).length - size = items.length - size + 1 := by
    rw [List.length_append, List.length_singleton]
    omega
  rw [recent, recent, shorter, List.tail_drop, List.drop_append_of_le_length (by omega)]

theorem recent_append_of_room (room : (recent size items).length < size) :
    recent size (items ++ [item]) = recent size items ++ [item] := by
  rw [length_recent] at room
  have all : items.length - size = 0 := by omega
  have stillAll : (items ++ [item]).length - size = 0 := by
    rw [List.length_append, List.length_singleton]
    omega
  rw [recent, recent, all, stillAll, List.drop_zero, List.drop_zero]

theorem getElem?_recent (row : ℕ) :
    (recent size items)[row]? = items[items.length - min items.length size + row]? := by
  rw [recent, List.getElem?_drop]
  congr 1
  omega

end Recent
