import Osserver.Mem.Liballoc
import Mathlib.Data.Nat.Log

/-!
# Boundary tags in memory

What a write to a field of one tag does to the fields of the others. The tags in
play are a list of addresses with 32 bytes each that do not overlap; within such a
list the fields of the tags can be treated as variables of their own, and every
byte outside stays as it is. Then the arithmetic of the heap: differences that do
not wrap, and the exponent that `kmem_getexp` computes.
-/

namespace Osserver

open Bytes

section Arithmetic

variable {left right size word : ℕ} {value : ℤ}

theorem add32_of_lt (fits : left + right < 2 ^ 32) : add32 left right = left + right :=
  Nat.mod_eq_of_lt fits

theorem sub32_of_le (atMost : right ≤ left) (fits : left < 2 ^ 32) :
    sub32 left right = left - right := by
  rw [sub32]
  omega

theorem word32_lt (value : ℤ) : word32 value < 2 ^ 32 := by
  rw [word32]
  omega

theorem int32_word32 (low : -2 ^ 31 ≤ value) (high : value < 2 ^ 31) :
    int32 (word32 value) = value := by
  rw [int32, word32]
  split <;> omega

theorem int32_pos_iff (fits : word < 2 ^ 32) : int32 word > 0 ↔ 0 < word ∧ word < 2 ^ 31 := by
  rw [int32]
  split <;> omega

/-- The exponent of the list that `kmem_malloc` and `kmem_free` use for a section with
`size` bytes behind its tag. -/
def binOf (size : ℕ) : ℤ :=
  max 8 (Nat.log 2 size)

theorem kmemGetexpLoop_eq {fuel shift : ℕ} (whole : shift + 1 + fuel = 32) (small : size < 2 ^ 32)
    (reached : 2 ^ shift ≤ size) : kmemGetexpLoop size fuel (shift + 1) = Nat.log 2 size + 1 := by
  induction fuel generalizing shift with
  | zero =>
      have last : shift + 1 = 32 := by omega
      rw [kmemGetexpLoop, Nat.log_eq_of_pow_le_of_lt_pow reached (last ▸ small)]
  | succ fuel ih =>
      have before : shift + 1 < 32 := by omega
      rw [kmemGetexpLoop, if_pos before]
      split
      · rename_i above
        rw [Nat.log_eq_of_pow_le_of_lt_pow reached above]
      · rename_i notAbove
        exact ih (by omega) (Nat.not_lt.mp notAbove)

theorem kmemGetexp_eq (small : size < 2 ^ 32) :
    kmemGetexp size = if size < 2 ^ 8 then -1 else (Nat.log 2 size : ℤ) := by
  rw [kmemGetexp]
  split
  · rfl
  · rename_i notSmall
    have reached : 2 ^ 7 ≤ size := by omega
    rw [kmemGetexpLoop_eq rfl small reached]
    omega

theorem log_lt_eight (below : size < 2 ^ 8) : Nat.log 2 size < 8 :=
  Nat.log_lt_of_lt_pow' (by decide) below

theorem eight_le_log (notBelow : ¬size < 2 ^ 8) : 8 ≤ Nat.log 2 size :=
  Nat.le_log_of_pow_le (by decide) (Nat.not_lt.mp notBelow)

theorem atLeastMinexp_kmemGetexp (small : size < 2 ^ 32) :
    atLeastMinexp (kmemGetexp size) = binOf size := by
  rw [kmemGetexp_eq small, binOf, atLeastMinexp]
  by_cases below : size < 2 ^ 8
  · have low := log_lt_eight below
    rw [if_pos below]
    split <;> omega
  · have high := eight_le_log below
    rw [if_neg below]
    split <;> omega

theorem eight_le_binOf (size : ℕ) : 8 ≤ binOf size :=
  le_max_left _ _

theorem binOf_lt (small : size < 2 ^ 32) : binOf size < 32 := by
  have log : Nat.log 2 size < 32 := Nat.log_lt_of_lt_pow' (by decide) small
  rw [binOf]
  omega

theorem kmemPages_spec (usage : ℕ) :
    16 ≤ kmemPages usage ∧ usage ≤ kmemPages usage * 4096 := by
  simp only [kmemPages]
  split <;> split <;> omega

theorem kmemPages_whole {pages : ℕ} (enough : 16 ≤ pages) : kmemPages (pages * 4096) = pages := by
  simp only [kmemPages]
  split <;> split <;> omega

end Arithmetic

/-- `cells` are tags that lie in the memory side by side. -/
structure Roomy (cells : List ℕ) : Prop where
  positive : ∀ a ∈ cells, 0 < a
  fits : ∀ a ∈ cells, a + 32 ≤ 2 ^ 32
  apart : ∀ a ∈ cells, ∀ b ∈ cells, a = b ∨ a + 32 ≤ b ∨ b + 32 ≤ a

theorem Roomy.subset {cells more : List ℕ} (roomy : Roomy more) (subset : cells ⊆ more) :
    Roomy cells where
  positive := fun a member => roomy.positive a (subset member)
  fits := fun a member => roomy.fits a (subset member)
  apart := fun a member b member' => roomy.apart a (subset member) b (subset member')

namespace Liballoc

/-- Only bytes of the tags in `cells` differ. -/
def Touches (cells : List ℕ) (s s' : Liballoc) : Prop :=
  ∀ address, (∀ a ∈ cells, address < a ∨ a + 32 ≤ address) → s'.memory address = s.memory address

theorem Touches.refl (cells : List ℕ) (s : Liballoc) : Touches cells s s :=
  fun _ _ => rfl

theorem Touches.trans {cells : List ℕ} {s s' s'' : Liballoc} (first : Touches cells s s')
    (second : Touches cells s' s'') : Touches cells s s'' :=
  fun address outside => (second address outside).trans (first address outside)

theorem Touches.mono {cells more : List ℕ} {s s' : Liballoc} (touches : Touches cells s s')
    (subset : cells ⊆ more) : Touches more s s' :=
  fun address outside => touches address (fun a member => outside a (subset member))

theorem Touches.rebase {cells : List ℕ} {s s' s'' : Liballoc} (touches : Touches cells s s')
    (same : s.memory = s''.memory) : Touches cells s'' s' :=
  fun address outside => (touches address outside).trans (congrFun same address)

theorem offset_le (field : TagField) : field.offset + 4 ≤ 32 := by
  cases field <;> decide

theorem offset_apart {field other : TagField} (different : field ≠ other) :
    field.offset + 4 ≤ other.offset ∨ other.offset + 4 ≤ field.offset := by
  cases field <;> cases other <;> first | exact absurd rfl different | decide

theorem get_lt (s : Liballoc) (tag : ℕ) (field : TagField) : s.get tag field < 2 ^ 32 :=
  load32_lt _ _

/-- What is behind a write to a field: the field, and every other one as it was. -/
theorem get_set {cells : List ℕ} (roomy : Roomy cells) {a b : ℕ} (aMem : a ∈ cells)
    (bMem : b ∈ cells) (s : Liballoc) (field other : TagField) (value : ℕ) :
    (s.set a field value).get b other =
      if b = a ∧ other = field then value % 2 ^ 32 else s.get b other := by
  have aFits := roomy.fits a aMem
  have bFits := roomy.fits b bMem
  have inside := offset_le field
  have otherInside := offset_le other
  rw [get, set]
  split
  · rename_i same
    rcases same with ⟨rfl, rfl⟩
    exact load32_store32 (by omega)
  · rename_i different
    apply load32_store32_apart (by omega) (by omega)
    rcases roomy.apart a aMem b bMem with rfl | below | above
    · have fieldNe : field ≠ other := fun same => different ⟨rfl, same.symm⟩
      have apart := offset_apart fieldNe
      omega
    · omega
    · omega

theorem touches_set {cells : List ℕ} (roomy : Roomy cells) {a : ℕ} (aMem : a ∈ cells)
    (s : Liballoc) (field : TagField) (value : ℕ) : Touches cells s (s.set a field value) := by
  intro address outside
  have fits := roomy.fits a aMem
  have inside := offset_le field
  have away := outside a aMem
  exact store32_outside (by omega) (by omega)

/-- The fields of a tag whose bytes have stayed are what they were. -/
theorem get_congr {s s' : Liballoc} {tag : ℕ} (fits : tag + 32 ≤ 2 ^ 32)
    (agree : ∀ address, tag ≤ address → address < tag + 32 →
      s'.memory address = s.memory address) (field : TagField) :
    s'.get tag field = s.get tag field := by
  have inside := offset_le field
  apply load32_congr (by omega)
  intro place above below
  exact agree place (by omega) (by omega)

end Liballoc

end Osserver
