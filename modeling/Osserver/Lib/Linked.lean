import Osserver.Lib.Loop
import Mathlib.Data.List.Nodup
import Mathlib.Logic.Function.Basic

/-!
# Singly linked lists in a heap

A heap of cells with one link field is a function `next : Cell → Option Cell`;
a pointer is an `Option Cell`, with `none` for the null pointer. `Segment next
source cells target` says that following the links from the pointer `source`
visits exactly `cells`, in order, and then holds the pointer `target`. A list
proper is a segment that ends in the null pointer.

The edits a program makes to such a list (unlinking a cell, linking one in)
change single links, so every rule here is about `Function.update` of `next`
at one cell.
-/

namespace Linked

universe u v

variable {Cell : Type u} {next : Cell → Option Cell}

/-- Following `next` from `source` visits `cells` and then holds `target`. -/
def Segment (next : Cell → Option Cell) : Option Cell → List Cell → Option Cell → Prop
  | source, [], target => source = target
  | source, cell :: cells, target => source = some cell ∧ Segment next (next cell) cells target

@[simp]
theorem segment_nil {source target : Option Cell} :
    Segment next source [] target ↔ source = target :=
  Iff.rfl

@[simp]
theorem segment_cons {source target : Option Cell} {cell : Cell} {cells : List Cell} :
    Segment next source (cell :: cells) target ↔
      source = some cell ∧ Segment next (next cell) cells target :=
  Iff.rfl

theorem Segment.eq_nil {cells : List Cell} {target : Option Cell}
    (segment : Segment next none cells target) : cells = [] := by
  cases cells with
  | nil => rfl
  | cons cell cells => simp at segment

theorem segment_middle {source target : Option Cell} {before after : List Cell} {cell : Cell} :
    Segment next source (before ++ cell :: after) target ↔
      Segment next source before (some cell) ∧ Segment next (next cell) after target := by
  induction before generalizing source with
  | nil => simp
  | cons first before ih => simp [ih, and_assoc]

theorem Segment.congr {other : Cell → Option Cell} {source target : Option Cell}
    {cells : List Cell} (agree : ∀ cell ∈ cells, other cell = next cell)
    (segment : Segment next source cells target) : Segment other source cells target := by
  induction cells generalizing source with
  | nil => exact segment
  | cons cell cells ih =>
      rcases segment with ⟨atCell, rest⟩
      refine ⟨atCell, ?_⟩
      rw [agree cell (by simp)]
      exact ih (fun later laterMem => agree later (by simp [laterMem])) rest

theorem Segment.unique {source : Option Cell} {left right : List Cell}
    (leftSegment : Segment next source left none) (rightSegment : Segment next source right none) :
    left = right := by
  induction left generalizing source right with
  | nil =>
      rw [segment_nil] at leftSegment
      subst leftSegment
      cases right with
      | nil => rfl
      | cons cell right => simp at rightSegment
  | cons cell left ih =>
      rcases leftSegment with ⟨rfl, leftRest⟩
      cases right with
      | nil => simp at rightSegment
      | cons other right =>
          rcases rightSegment with ⟨atOther, rightRest⟩
          have same : cell = other := by simpa using atOther
          subst same
          rw [ih leftRest rightRest]

/-- A list proper visits no cell twice: the rest of the list after the two
visits would be the same list with two lengths. -/
theorem Segment.nodup {source : Option Cell} {cells : List Cell}
    (segment : Segment next source cells none) : cells.Nodup := by
  induction cells generalizing source with
  | nil => exact List.nodup_nil
  | cons cell cells ih =>
      refine List.nodup_cons.mpr ⟨?_, ih segment.2⟩
      intro again
      rcases List.mem_iff_append.mp again with ⟨before, after, rfl⟩
      have rest := segment.2
      have tail := (segment_middle.mp rest).2
      have same := congrArg List.length (rest.unique tail)
      simp at same
      omega

theorem Segment.continues {source target : Option Cell} {cells all : List Cell}
    (segment : Segment next source cells target) (whole : Segment next source all none) :
    ∃ rest, all = cells ++ rest ∧ Segment next target rest none := by
  induction cells generalizing source all with
  | nil =>
      rw [segment_nil] at segment
      subst segment
      exact ⟨all, rfl, whole⟩
  | cons cell cells ih =>
      rcases segment with ⟨rfl, behind⟩
      cases all with
      | nil => simp at whole
      | cons first all =>
          have same : cell = first := by simpa using whole.1
          subst same
          rcases ih behind whole.2 with ⟨rest, rfl, tail⟩
          exact ⟨rest, rfl, tail⟩

theorem Segment.not_none_of_cycle {source : Option Cell} {cells : List Cell}
    (cycle : Segment next source cells source) (nonempty : cells ≠ []) (all : List Cell) :
    ¬Segment next source all none := by
  intro whole
  rcases cycle.continues whole with ⟨rest, same, tail⟩
  have equal := tail.unique whole
  subst equal
  have lengths := congrArg List.length same
  rw [List.length_append] at lengths
  exact nonempty (List.eq_nil_of_length_eq_zero (by omega))

/-- A pointer reaches a cell when following links from it comes to the cell. -/
def Reaches (next : Cell → Option Cell) (source : Option Cell) (cell : Cell) : Prop :=
  ∃ before, Segment next source before (some cell)

theorem Reaches.tail {source : Option Cell} {cell : Cell} (reaches : Reaches next source cell)
    {after : Cell} (link : next cell = some after) : Reaches next source after := by
  rcases reaches with ⟨before, segment⟩
  exact ⟨before ++ [cell], segment_middle.mpr ⟨segment, by simpa using link⟩⟩

theorem Segment.reaches_iff {source : Option Cell} {cells : List Cell}
    (segment : Segment next source cells none) (cell : Cell) :
    Reaches next source cell ↔ cell ∈ cells := by
  constructor
  · rintro ⟨before, reaches⟩
    induction before generalizing source cells with
    | nil =>
        rw [segment_nil] at reaches
        subst reaches
        cases cells with
        | nil => simp at segment
        | cons first cells =>
            have same : cell = first := by simpa using segment.1
            subst same
            simp
    | cons first before ih =>
        rcases reaches with ⟨rfl, rest⟩
        cases cells with
        | nil => simp at segment
        | cons other cells =>
            have same : first = other := by simpa using segment.1
            subst same
            exact List.mem_cons_of_mem _ (ih segment.2 rest)
  · intro member
    rcases List.mem_iff_append.mp member with ⟨before, after, rfl⟩
    exact ⟨before, (segment_middle.mp segment).1⟩

theorem Reaches.closed {source : Option Cell} {cell : Cell} (reaches : Reaches next source cell)
    {inside : Cell → Prop} (first : ∀ cell, source = some cell → inside cell)
    (passed : ∀ cell after, inside cell → next cell = some after → inside after) :
    inside cell := by
  rcases reaches with ⟨before, segment⟩
  induction before generalizing source with
  | nil => exact first cell segment
  | cons head before ih =>
      rcases segment with ⟨atHead, rest⟩
      exact ih (fun after link => passed head after (first head atHead) link) rest

/-- A loop that follows the links of a list, and does `step` at each cell that has a
successor, is done at the last cell. -/
theorem Segment.run_walk {Acc State : Type u} {Result : Type v}
    {body : State → Loop.Pass State Result} {enter : Cell → Acc → State}
    {step : Cell → Acc → Acc} {finish : Cell → Acc → Result} {first : Cell} {cells : List Cell}
    {acc : Acc} {fuel : ℕ} (segment : Segment next (some first) cells none)
    (goesOn : ∀ cell ∈ cells, ∀ after acc, next cell = some after →
      body (enter cell acc) = .again (enter after (step cell acc)))
    (ends : ∀ cell ∈ cells, ∀ acc, next cell = none →
      body (enter cell acc) = .done (finish cell acc))
    (enough : cells.length ≤ fuel) :
    ∃ before last, cells = before ++ [last] ∧ Loop.run body fuel (enter first acc) =
      some (finish last (before.foldl (fun acc cell => step cell acc) acc)) := by
  induction cells generalizing first acc fuel with
  | nil => simp at segment
  | cons cell cells ih =>
      rcases segment with ⟨atCell, rest⟩
      have same : first = cell := by simpa using atCell
      subst same
      rcases fuel with _ | fuel
      · simp at enough
      cases link : next first with
      | none =>
          rw [link] at rest
          have empty : cells = [] := by
            cases cells with
            | nil => rfl
            | cons other cells => simp at rest
          subst empty
          exact ⟨[], first, rfl, Loop.run_done (ends first (by simp) acc link)⟩
      | some after =>
          rw [link] at rest
          have again := goesOn first (by simp) after acc link
          rcases @ih after (step first acc) fuel rest
              (fun cell member => goesOn cell (List.mem_cons_of_mem _ member))
              (fun cell member => ends cell (List.mem_cons_of_mem _ member))
              (Nat.le_of_succ_le_succ enough) with ⟨before, last, split, returns⟩
          refine ⟨first :: before, last, ?_, ?_⟩
          · rw [split, List.cons_append]
          · rw [Loop.run_again again, returns, List.foldl_cons]

variable [DecidableEq Cell]

theorem Segment.update_of_notMem {source target : Option Cell} {cells : List Cell} {cell : Cell}
    (segment : Segment next source cells target) (pointer : Option Cell) (outside : cell ∉ cells) :
    Segment (Function.update next cell pointer) source cells target := by
  apply segment.congr
  intro other otherMem
  have different : other ≠ cell := fun same => outside (same ▸ otherMem)
  simp [different]

/-- Redirecting the link of one cell splices in whatever segment starts at the new pointer. -/
theorem Segment.redirect {source pointer target oldTarget : Option Cell}
    {before after oldAfter : List Cell} {cell : Cell}
    (segment : Segment next source (before ++ cell :: oldAfter) oldTarget)
    (notBefore : cell ∉ before) (notAfter : cell ∉ after)
    (spliced : Segment next pointer after target) :
    Segment (Function.update next cell pointer) source (before ++ cell :: after) target := by
  have split := segment_middle.mp segment
  refine segment_middle.mpr ⟨split.1.update_of_notMem pointer notBefore, ?_⟩
  simpa using spliced.update_of_notMem pointer notAfter

/-- A cell that is linked behind the last one of a list makes the list longer when nothing
is linked behind the cell itself. -/
theorem Segment.append {source : Option Cell} {before : List Cell} {last cell : Cell}
    (segment : Segment next source (before ++ [last]) none) (fresh : cell ∉ before ++ [last])
    (unlinked : next cell = none) :
    Segment (Function.update next last (some cell)) source (before ++ [last] ++ [cell]) none := by
  have nodup := segment.nodup
  have notBefore : last ∉ before := by
    intro member
    exact (List.nodup_append.mp nodup).2.2 last member last (by simp) rfl
  have notLast : last ∉ [cell] := by
    intro member
    rw [List.mem_singleton] at member
    subst member
    exact fresh (by simp)
  have spliced : Segment next (some cell) [cell] none := ⟨rfl, unlinked⟩
  rw [List.append_assoc]
  exact segment.redirect notBefore notLast spliced

end Linked
