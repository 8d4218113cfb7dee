import Mathlib.Data.List.Count
import Mathlib.Data.List.Pairwise
import Mathlib.Tactic.SplitIfs

/-!
# Tilings of an address range

A span is a half-open range of addresses. A list of spans tiles a whole span
when every address of the whole lies in exactly one of them and no other
address lies in any. Counting the spans that cover an address makes the order
of the list irrelevant, and turns cutting one span in two, or joining two
neighbours, into an equality of counts.
-/

namespace Tiling

/-- The addresses from `start` on, `length` of them. -/
structure Span where
  start : ℕ
  length : ℕ

namespace Span

def Covers (span : Span) (address : ℕ) : Prop :=
  span.start ≤ address ∧ address < span.start + span.length

instance (span : Span) (address : ℕ) : Decidable (span.Covers address) :=
  inferInstanceAs (Decidable (_ ∧ _))

end Span

def cover (spans : List Span) (address : ℕ) : ℕ :=
  spans.countP (fun span => decide (span.Covers address))

@[simp]
theorem cover_nil (address : ℕ) : cover [] address = 0 :=
  rfl

@[simp]
theorem cover_cons (span : Span) (spans : List Span) (address : ℕ) :
    cover (span :: spans) address = cover spans address + if span.Covers address then 1 else 0 := by
  simp [cover, List.countP_cons]

@[simp]
theorem cover_append (left right : List Span) (address : ℕ) :
    cover (left ++ right) address = cover left address + cover right address := by
  simp [cover]

theorem cover_perm {left right : List Span} (perm : left.Perm right) (address : ℕ) :
    cover left address = cover right address :=
  perm.countP_eq _

theorem cover_split (start first second address : ℕ) :
    (if (⟨start, first + second⟩ : Span).Covers address then 1 else 0) =
      (if (⟨start, first⟩ : Span).Covers address then 1 else 0) +
        if (⟨start + first, second⟩ : Span).Covers address then 1 else 0 := by
  have inFirst : (⟨start, first⟩ : Span).Covers address ↔
      (⟨start, first + second⟩ : Span).Covers address ∧ address < start + first := by
    simp only [Span.Covers]
    omega
  have inSecond : (⟨start + first, second⟩ : Span).Covers address ↔
      (⟨start, first + second⟩ : Span).Covers address ∧ ¬address < start + first := by
    simp only [Span.Covers]
    omega
  by_cases inside : (⟨start, first + second⟩ : Span).Covers address
  · by_cases below : address < start + first <;> simp [inFirst, inSecond, inside, below]
  · simp [inFirst, inSecond, inside]

theorem cover_pos {spans : List Span} {span : Span} {address : ℕ} (member : span ∈ spans)
    (covers : span.Covers address) : 0 < cover spans address := by
  simp only [cover]
  exact List.countP_pos_iff.mpr ⟨span, member, by simpa using covers⟩

/-- The spans in `parts` cover each address of `whole` once and nothing else. -/
def Tiles (whole : Span) (parts : List Span) : Prop :=
  ∀ address, cover parts address = if whole.Covers address then 1 else 0

namespace Tiles

variable {whole : Span} {parts : List Span}

theorem of_cover_eq {other : List Span} (tiles : Tiles whole parts)
    (same : ∀ address, cover other address = cover parts address) : Tiles whole other :=
  fun address => (same address).trans (tiles address)

theorem perm {other : List Span} (tiles : Tiles whole parts) (perm : other.Perm parts) :
    Tiles whole other :=
  tiles.of_cover_eq (cover_perm perm)

theorem single (whole : Span) : Tiles whole [whole] := by
  intro address
  simp

theorem exists_part (tiles : Tiles whole parts) {address : ℕ} (inside : whole.Covers address) :
    ∃ part ∈ parts, part.Covers address := by
  have count := tiles address
  rw [if_pos inside] at count
  have positive : 0 < cover parts address := by omega
  simpa [cover] using List.countP_pos_iff.mp positive

theorem inside (tiles : Tiles whole parts) {part : Span} (member : part ∈ parts) {address : ℕ}
    (covers : part.Covers address) : whole.Covers address := by
  by_contra outside
  have count := tiles address
  rw [if_neg outside] at count
  have positive := cover_pos member covers
  omega

theorem bounds (tiles : Tiles whole parts) {part : Span} (member : part ∈ parts)
    (nonempty : 0 < part.length) :
    whole.start ≤ part.start ∧ part.start + part.length ≤ whole.start + whole.length := by
  have first : whole.Covers part.start := by
    apply tiles.inside member
    simp only [Span.Covers]
    omega
  have last : whole.Covers (part.start + part.length - 1) := by
    apply tiles.inside member
    simp only [Span.Covers]
    omega
  simp only [Span.Covers] at first last
  omega

theorem pairwise_disjoint (tiles : Tiles whole parts) :
    parts.Pairwise (fun left right => ∀ address, ¬(left.Covers address ∧ right.Covers address)) := by
  have atMost : ∀ address, cover parts address ≤ 1 := by
    intro address
    rw [tiles address]
    split_ifs <;> omega
  clear tiles
  induction parts with
  | nil => exact List.Pairwise.nil
  | cons part parts ih =>
      refine List.Pairwise.cons ?_ (ih ?_)
      · rintro other member address ⟨coversPart, coversOther⟩
        have count := atMost address
        rw [cover_cons, if_pos coversPart] at count
        have positive := cover_pos member coversOther
        omega
      · intro address
        have count := atMost address
        rw [cover_cons] at count
        omega

end Tiles

end Tiling
