import Mathlib.Data.List.Basic
import Mathlib.Data.List.Nodup
import Mathlib.Tactic.Tauto

/-!
# Doubly linked lists in a heap

A heap of cells with two link fields is a pair of functions `next` and `prev`.
`Doubly next prev left cells right` says that `cells` are linked both ways, in
order: the first one points back to `left` and the last one on to `right`, which
are null pointers, sentinels or the cells around a part of a list.

Programs edit such a list at one place: a cell goes in between two neighbours,
or comes out from between them. Each edit writes a link of either neighbour,
unless there is none, so the rules here say what the links of the cells of the
list have become and nothing about the links of other cells.
-/

namespace Linked

universe u

variable {Cell : Type u} {next prev next' prev' : Cell → Cell} {left right : Cell}
  {xs ys : List Cell} {cell : Cell}

/-- `cells` are linked both ways, between `left` and `right`. -/
def Doubly (next prev : Cell → Cell) : Cell → List Cell → Cell → Prop
  | _, [], _ => True
  | left, cell :: cells, right =>
      prev cell = left ∧ next cell = cells.headD right ∧ Doubly next prev cell cells right

theorem doubly_nil : Doubly next prev left [] right :=
  trivial

theorem doubly_single :
    Doubly next prev left [cell] right ↔ prev cell = left ∧ next cell = right := by
  simp [Doubly]

theorem headD_append (xs ys : List Cell) (right : Cell) :
    (xs ++ ys).headD right = xs.headD (ys.headD right) := by
  cases xs <;> rfl

theorem headD_eq_or_mem (xs : List Cell) (right : Cell) :
    xs = [] ∧ xs.headD right = right ∨ xs.headD right ∈ xs := by
  cases xs <;> simp

theorem getLastD_eq_or_mem (xs : List Cell) (left : Cell) :
    xs = [] ∧ xs.getLastD left = left ∨ xs.getLastD left ∈ xs := by
  rcases xs.eq_nil_or_concat with rfl | ⟨front, last, rfl⟩ <;> simp

/-- A list falls apart at any place into two lists, each of which ends at the other. -/
theorem doubly_append : Doubly next prev left (xs ++ ys) right ↔
    Doubly next prev left xs (ys.headD right) ∧ Doubly next prev (xs.getLastD left) ys right := by
  induction xs generalizing left with
  | nil => simp [Doubly]
  | cons first xs ih =>
      rw [List.cons_append, Doubly, Doubly, ih, headD_append, List.getLastD_cons]
      tauto

theorem Doubly.congr (linked : Doubly next prev left xs right)
    (sameNext : ∀ a ∈ xs, next' a = next a) (samePrev : ∀ a ∈ xs, prev' a = prev a) :
    Doubly next' prev' left xs right := by
  induction xs generalizing left with
  | nil => exact doubly_nil
  | cons first xs ih =>
      rcases linked with ⟨atLeft, atNext, rest⟩
      refine ⟨?_, ?_, ?_⟩
      · rw [samePrev first (by simp), atLeft]
      · rw [sameNext first (by simp), atNext]
      · exact ih rest (fun a member => sameNext a (by simp [member]))
          (fun a member => samePrev a (by simp [member]))

theorem Doubly.next_middle (linked : Doubly next prev left (xs ++ cell :: ys) right) :
    next cell = ys.headD right :=
  (doubly_append.mp linked).2.2.1

theorem Doubly.prev_middle (linked : Doubly next prev left (xs ++ cell :: ys) right) :
    prev cell = xs.getLastD left :=
  (doubly_append.mp linked).2.1

variable [DecidableEq Cell]

theorem Doubly.retarget_right {other : Cell} (linked : Doubly next prev left xs right)
    (nodup : xs.Nodup) (outside : left ∉ xs)
    (nexts : ∀ a ∈ xs, next' a = if a = xs.getLastD left then other else next a)
    (prevs : ∀ a ∈ xs, prev' a = prev a) : Doubly next' prev' left xs other := by
  induction xs generalizing left with
  | nil => exact doubly_nil
  | cons first xs ih =>
      rcases linked with ⟨atLeft, atNext, rest⟩
      rcases List.nodup_cons.mp nodup with ⟨notAgain, restNodup⟩
      refine ⟨?_, ?_, ?_⟩
      · rw [prevs first (by simp), atLeft]
      · rw [nexts first (by simp), List.getLastD_cons]
        rcases getLastD_eq_or_mem xs first with ⟨rfl, _⟩ | member
        · simp
        · have later : first ≠ xs.getLastD first := by
            intro same
            rw [← same] at member
            exact notAgain member
          rw [if_neg later, atNext]
          cases xs with
          | nil => simp at member
          | cons second xs => rfl
      · apply ih rest restNodup notAgain
        · intro a member
          rw [nexts a (by simp [member]), List.getLastD_cons]
        · intro a member
          exact prevs a (by simp [member])

/-- The first cell of a list is made to point back to another place. -/
theorem Doubly.retarget_left {other : Cell} (linked : Doubly next prev left xs right)
    (nodup : xs.Nodup) (nexts : ∀ a ∈ xs, next' a = next a)
    (prevs : ∀ a ∈ xs, prev' a = if a = xs.headD right then other else prev a) :
    Doubly next' prev' other xs right := by
  cases xs with
  | nil => exact doubly_nil
  | cons first xs =>
      rcases linked with ⟨_, atNext, rest⟩
      rcases List.nodup_cons.mp nodup with ⟨notAgain, _⟩
      refine ⟨?_, ?_, ?_⟩
      · rw [prevs first (by simp), List.headD_cons, if_pos rfl]
      · rw [nexts first (by simp), atNext]
      · apply rest.congr
        · intro a member
          exact nexts a (by simp [member])
        · intro a member
          have different : a ≠ first := fun same => notAgain (same ▸ member)
          rw [prevs a (by simp [member]), List.headD_cons, if_neg different]

theorem Doubly.insert (linked : Doubly next prev left (xs ++ ys) right)
    (nodup : (xs ++ cell :: ys).Nodup) (outsideLeft : left ∉ xs ++ ys)
    (outsideRight : right ∉ xs ++ ys)
    (nexts : ∀ a ∈ xs ++ cell :: ys, next' a =
      if a = cell then ys.headD right else if a = xs.getLastD left then cell else next a)
    (prevs : ∀ a ∈ xs ++ cell :: ys, prev' a =
      if a = cell then xs.getLastD left else if a = ys.headD right then cell else prev a) :
    Doubly next' prev' left (xs ++ cell :: ys) right := by
  rcases doubly_append.mp linked with ⟨before, after⟩
  rcases List.nodup_append.mp nodup with ⟨xsNodup, cellNodup, apart⟩
  rcases List.nodup_cons.mp cellNodup with ⟨notAfter, ysNodup⟩
  have notBefore : cell ∉ xs := fun member => apart cell member cell (by simp) rfl
  simp only [List.mem_append, not_or] at outsideLeft outsideRight
  refine doubly_append.mpr ⟨?_, ?_, ?_, ?_⟩
  · refine before.retarget_right xsNodup outsideLeft.1 ?_ ?_
    · intro a member
      have different : a ≠ cell := fun same => notBefore (same ▸ member)
      rw [nexts a (by simp [member]), if_neg different, List.headD_cons]
    · intro a member
      have different : a ≠ cell := fun same => notBefore (same ▸ member)
      have notHead : a ≠ ys.headD right := by
        rcases headD_eq_or_mem ys right with ⟨_, isRight⟩ | inside
        · rw [isRight]
          exact fun same => outsideRight.1 (same ▸ member)
        · exact apart a member _ (List.mem_cons_of_mem _ inside)
      rw [prevs a (by simp [member]), if_neg different, if_neg notHead]
  · rw [prevs cell (by simp), if_pos rfl]
  · rw [nexts cell (by simp), if_pos rfl]
  · refine after.retarget_left ysNodup ?_ ?_
    · intro a member
      have different : a ≠ cell := fun same => notAfter (same ▸ member)
      have notLast : a ≠ xs.getLastD left := by
        rcases getLastD_eq_or_mem xs left with ⟨_, isLeft⟩ | inside
        · rw [isLeft]
          exact fun same => outsideLeft.2 (same ▸ member)
        · exact (apart _ inside a (List.mem_cons_of_mem _ member)).symm
      rw [nexts a (by simp [member]), if_neg different, if_neg notLast]
    · intro a member
      have different : a ≠ cell := fun same => notAfter (same ▸ member)
      rw [prevs a (by simp [member]), if_neg different]

theorem Doubly.remove (linked : Doubly next prev left (xs ++ cell :: ys) right)
    (nodup : (xs ++ cell :: ys).Nodup) (outsideLeft : left ∉ xs ++ ys)
    (outsideRight : right ∉ xs ++ ys)
    (nexts : ∀ a ∈ xs ++ ys, next' a = if a = prev cell then next cell else next a)
    (prevs : ∀ a ∈ xs ++ ys, prev' a = if a = next cell then prev cell else prev a) :
    Doubly next' prev' left (xs ++ ys) right := by
  rcases doubly_append.mp linked with ⟨before, atLast, atHead, after⟩
  rcases List.nodup_append.mp nodup with ⟨xsNodup, cellNodup, apart⟩
  rcases List.nodup_cons.mp cellNodup with ⟨_, ysNodup⟩
  simp only [List.mem_append, not_or] at outsideLeft outsideRight
  rw [atLast, atHead] at nexts prevs
  refine doubly_append.mpr ⟨?_, ?_⟩
  · refine before.retarget_right xsNodup outsideLeft.1 ?_ ?_
    · intro a member
      exact nexts a (by simp [member])
    · intro a member
      have notHead : a ≠ ys.headD right := by
        rcases headD_eq_or_mem ys right with ⟨_, isRight⟩ | inside
        · rw [isRight]
          exact fun same => outsideRight.1 (same ▸ member)
        · exact apart a member _ (List.mem_cons_of_mem _ inside)
      rw [prevs a (by simp [member]), if_neg notHead]
  · refine after.retarget_left ysNodup ?_ ?_
    · intro a member
      have notLast : a ≠ xs.getLastD left := by
        rcases getLastD_eq_or_mem xs left with ⟨_, isLeft⟩ | inside
        · rw [isLeft]
          exact fun same => outsideLeft.2 (same ▸ member)
        · exact (apart _ inside a (List.mem_cons_of_mem _ member)).symm
      rw [nexts a (by simp [member]), if_neg notLast]
    · intro a member
      exact prevs a (by simp [member])

end Linked
