import Osserver.Mem.BoundaryTag

/-!
# What the helpers of the heap do to the tags

One lemma for each way in which `kmem_liballoc.c` edits its tags: a tag is taken
out of its list, a tag is put in front of a list, two neighbours become one tag,
and a new tag is carved out behind another one. Each lemma tells every field of
every tag after the edit, and that no byte outside the tags is written.

The proofs go through the writes one by one. `Edited cells s s' tags` says that
the fields of the tags in `cells` have become `tags` on the way from `s` to `s'`;
there is one rule for a write, and one for a write that is guarded by a test for
`NULL`.
-/

namespace Osserver

open Liballoc

section Edited

/-- Between the two states nothing is written but tags in `cells` and the heads of the
lists. -/
structure TagsOnly (cells : List ℕ) (s s' : Liballoc) : Prop where
  statics : s' = { s with memory := s'.memory, kmemLFreePages := s'.kmemLFreePages }
  touches : Touches cells s s'

/-- The fields of the tags in `cells` have become `tags`, and nothing else is written. -/
structure Edited (cells : List ℕ) (s s' : Liballoc) (tags : ℕ → TagField → ℕ) : Prop
    extends TagsOnly cells s s' where
  reads : ∀ c ∈ cells, ∀ field, s'.get c field = tags c field

variable {cells : List ℕ} {s s' : Liballoc} {tags tags' : ℕ → TagField → ℕ} {a pointer : ℕ}
  {value word : ℕ}

namespace TagsOnly

variable {s'' : Liballoc}

theorem refl (cells : List ℕ) (s : Liballoc) : TagsOnly cells s s :=
  ⟨rfl, Touches.refl cells s⟩

theorem trans (first : TagsOnly cells s s') (second : TagsOnly cells s' s'') :
    TagsOnly cells s s'' := by
  refine ⟨?_, first.touches.trans second.touches⟩
  rw [second.statics, first.statics]

theorem mono {more : List ℕ} (changes : TagsOnly cells s s') (subset : cells ⊆ more) :
    TagsOnly more s s' :=
  ⟨changes.statics, changes.touches.mono subset⟩

theorem kmem (changes : TagsOnly cells s s') : s'.kmem = s.kmem := by
  rw [changes.statics]

theorem completePages (changes : TagsOnly cells s s') :
    s'.kmemLCompletePages = s.kmemLCompletePages := by
  rw [changes.statics]

theorem initialized (changes : TagsOnly cells s s') : s'.kmemLInitialized = s.kmemLInitialized := by
  rw [changes.statics]

theorem flags (changes : TagsOnly cells s s') : s'.flags = s.flags := by
  rw [changes.statics]

end TagsOnly

/-- Between the two states nothing is written but tags in `cells` and the two arrays of the
heap. -/
structure HeapOnly (cells : List ℕ) (s s' : Liballoc) : Prop where
  kmem : s'.kmem = s.kmem
  flags : s'.flags = s.flags
  initialized : s'.kmemLInitialized = s.kmemLInitialized
  touches : Touches cells s s'

theorem TagsOnly.heapOnly (changes : TagsOnly cells s s') : HeapOnly cells s s' :=
  ⟨changes.kmem, changes.flags, changes.initialized, changes.touches⟩

theorem HeapOnly.trans {s'' : Liballoc} (first : HeapOnly cells s s')
    (second : HeapOnly cells s' s'') : HeapOnly cells s s'' :=
  ⟨second.kmem.trans first.kmem, second.flags.trans first.flags,
    second.initialized.trans first.initialized, first.touches.trans second.touches⟩

theorem HeapOnly.mono {more : List ℕ} (changes : HeapOnly cells s s') (subset : cells ⊆ more) :
    HeapOnly more s s' :=
  ⟨changes.kmem, changes.flags, changes.initialized, changes.touches.mono subset⟩

theorem HeapOnly.addCompletePages (changes : HeapOnly cells s s') (index change : ℤ) :
    HeapOnly cells s (s'.addCompletePages index change) :=
  ⟨changes.kmem, changes.flags, changes.initialized, changes.touches⟩

/-- Behind `kmem_liballoc_unlock` only the interrupt flags are others. -/
theorem HeapOnly.unlock (changes : HeapOnly cells s s') :
    s'.unlock.kmem = s.kmem ∧ s'.unlock.flags = kmemLiballocUnlock s.flags ∧
      Touches cells s s'.unlock :=
  ⟨changes.kmem, congrArg kmemLiballocUnlock changes.flags, changes.touches⟩

theorem Edited.refl (cells : List ℕ) (s : Liballoc) : Edited cells s s s.get :=
  ⟨TagsOnly.refl cells s, fun _ _ _ => rfl⟩

theorem Edited.congr (edited : Edited cells s s' tags)
    (same : ∀ c ∈ cells, ∀ field, tags c field = tags' c field) : Edited cells s s' tags' :=
  ⟨edited.toTagsOnly,
    fun c member field => (edited.reads c member field).trans (same c member field)⟩

theorem Edited.setFreePages (edited : Edited cells s s' tags) (index : ℤ) (head : ℕ) :
    Edited cells s (s'.setFreePages index head) tags := by
  refine ⟨⟨?_, edited.touches⟩, edited.reads⟩
  rw [Liballoc.setFreePages, edited.statics]

theorem Edited.setRead (edited : Edited cells s s' tags) (roomy : Roomy cells) (aMem : a ∈ cells)
    (field : TagField) (valueIs : word = value) (small : value < 2 ^ 32) :
    Edited cells s (s'.set a field word)
      (fun c other => if c = a ∧ other = field then value else tags c other) := by
  rw [valueIs]
  refine ⟨⟨?_, ?_⟩, ?_⟩
  · rw [Liballoc.set, edited.statics]
  · exact edited.touches.trans (touches_set roomy aMem s' field value)
  · intro c cMem other
    rw [get_set roomy aMem cMem, Nat.mod_eq_of_lt small, edited.reads c cMem other]

theorem Edited.set (edited : Edited cells s s' tags) (roomy : Roomy cells) (aMem : a ∈ cells)
    (field : TagField) (value : ℕ) (small : value < 2 ^ 32) :
    Edited cells s (s'.set a field value)
      (fun c other => if c = a ∧ other = field then value else tags c other) :=
  edited.setRead roomy aMem field rfl small

/-- A write of one value that has been read, through a pointer that has been read and is
tested for `NULL`. -/
theorem Edited.setUnlessNull (edited : Edited cells s s' tags) (roomy : Roomy cells)
    (field : TagField) (pointerIs : pointer = a) (valueIs : word = value)
    (aMem : a = 0 ∨ a ∈ cells) (small : value < 2 ^ 32) :
    Edited cells s (if pointer ≠ 0 then s'.set pointer field word else s')
      (fun c other => if c = a ∧ other = field then value else tags c other) := by
  subst pointerIs valueIs
  rcases aMem with rfl | aMem
  · rw [if_neg (by simp)]
    apply edited.congr
    intro c cMem other
    have notNull : c ≠ 0 := Nat.ne_of_gt (roomy.positive c cMem)
    simp [notNull]
  · rw [if_pos (Nat.ne_of_gt (roomy.positive _ aMem))]
    exact edited.set roomy aMem field _ small

end Edited

section Helpers

variable {cells : List ℕ} {s : Liballoc} {tag left right : ℕ}

/-- The tags when one is out of its list. -/
def removedTags (s : Liballoc) (tag : ℕ) : ℕ → TagField → ℕ
  | c, .next =>
      if c = tag then 0 else if c = s.get tag .prev then s.get tag .next else s.get c .next
  | c, .prev =>
      if c = tag then 0 else if c = s.get tag .next then s.get tag .prev else s.get c .prev
  | c, .index => if c = tag then word32 (-1) else s.get c .index
  | c, field => s.get c field

theorem kmemRemoveTag_edited (roomy : Roomy cells) (tagMem : tag ∈ cells)
    (prevMem : s.get tag .prev = 0 ∨ s.get tag .prev ∈ cells)
    (nextMem : s.get tag .next = 0 ∨ s.get tag .next ∈ cells) :
    Edited cells s (kmemRemoveTag s tag) (removedTags s tag) := by
  have start : Edited cells s
      (if s.kmemLFreePages (s.index tag) = tag then
        s.setFreePages (s.index tag) (s.get tag .next) else s) s.get := by
    split
    · exact (Edited.refl cells s).setFreePages _ _
    · exact Edited.refl cells s
  have first := start.setUnlessNull roomy .next (start.reads tag tagMem .prev)
    (start.reads tag tagMem .next) prevMem (s.get_lt tag .next)
  have nexts := first.reads tag tagMem .next
  have prevs := first.reads tag tagMem .prev
  simp only [reduceCtorEq, and_false, and_true, if_false] at nexts prevs
  rw [ite_self] at nexts
  have second := first.setUnlessNull roomy .prev nexts prevs nextMem (s.get_lt tag .prev)
  have third := second.set roomy tagMem .next 0 (by decide)
  have fourth := third.set roomy tagMem .prev 0 (by decide)
  have fifth := fourth.set roomy tagMem .index (word32 (-1)) (word32_lt (-1))
  refine fifth.congr ?_
  intro c cMem field
  cases field <;> simp [removedTags]

theorem kmemRemoveTag_heads : (kmemRemoveTag s tag).kmemLFreePages =
    if s.kmemLFreePages (s.index tag) = tag then
      Function.update s.kmemLFreePages (s.index tag) (s.get tag .next)
    else s.kmemLFreePages := by
  simp only [kmemRemoveTag]
  split_ifs <;> rfl

/-- The tags when one is in front of the list that `head` was the head of. -/
def insertedTags (s : Liballoc) (tag : ℕ) (index : ℤ) (head : ℕ) : ℕ → TagField → ℕ
  | c, .next => if c = tag ∧ head ≠ 0 then head else s.get c .next
  | c, .prev => if c = head then tag else s.get c .prev
  | c, .index => if c = tag then word32 index else s.get c .index
  | c, field => s.get c field

theorem kmemRealIndex_of_nonneg {index : ℤ} (nonneg : 0 ≤ index) :
    kmemRealIndex s tag index = index :=
  if_neg (by omega)

theorem kmemInsertTag_edited (roomy : Roomy cells) (tagMem : tag ∈ cells) {index : ℤ}
    (nonneg : 0 ≤ index)
    (headMem : s.kmemLFreePages index = 0 ∨ s.kmemLFreePages index ∈ cells) :
    Edited cells s (kmemInsertTag s tag index)
      (insertedTags s tag index (s.kmemLFreePages index)) := by
  have start := (Edited.refl cells s).set roomy tagMem .index (word32 index) (word32_lt index)
  have tagFits := roomy.fits tag tagMem
  simp only [kmemInsertTag, kmemRealIndex_of_nonneg nonneg]
  by_cases empty : s.kmemLFreePages index = 0
  · have unwritten : (s.setIndex tag index).kmemLFreePages index = 0 := empty
    simp only [unwritten, ne_eq, not_true_eq_false, if_false]
    refine (start.setFreePages index tag).congr ?_
    intro c cMem field
    have notNull : c ≠ 0 := Nat.ne_of_gt (roomy.positive c cMem)
    cases field <;> simp [insertedTags, empty, notNull]
  · have headIn := headMem.resolve_left empty
    have headFits := roomy.fits _ headIn
    have unwritten : (s.setIndex tag index).kmemLFreePages index = s.kmemLFreePages index := rfl
    simp only [unwritten, ne_eq, empty, not_false_eq_true, if_true]
    have first := start.set roomy headIn .prev tag (by omega)
    have second := first.set roomy tagMem .next (s.kmemLFreePages index)
      (by omega)
    refine (second.setFreePages index tag).congr ?_
    intro c cMem field
    cases field <;> simp [insertedTags, empty]

theorem kmemInsertTag_heads {index : ℤ} (nonneg : 0 ≤ index) :
    (kmemInsertTag s tag index).kmemLFreePages = Function.update s.kmemLFreePages index tag := by
  simp only [kmemInsertTag, kmemRealIndex_of_nonneg nonneg]
  split_ifs <;> rfl

/-- An index that is left to `kmem_insert_tag` comes from the size of the tag. -/
theorem kmemInsertTag_unindexed {length : ℕ} (realSize : s.get tag .realSize = length)
    (room : 32 ≤ length) :
    kmemInsertTag s tag (-1) = kmemInsertTag s tag (binOf (length - 32)) := by
  have small := s.get_lt tag .realSize
  rw [realSize] at small
  have index := atLeastMinexp_kmemGetexp (show length - 32 < 2 ^ 32 by omega)
  have nonneg := eight_le_binOf (length - 32)
  have own : kmemRealIndex s tag (-1) = binOf (length - 32) := by
    rw [kmemRealIndex, if_pos (by decide), realSize, sub32_of_le room small, index]
  simp only [kmemInsertTag, own, kmemRealIndex_of_nonneg (show 0 ≤ binOf (length - 32) by omega)]

/-- What `kmem_melt_left` and `kmem_absorb_right` have in common: the tag on the right
becomes a part of the one on the left. -/
def kmemJoin (s : Liballoc) (left right : ℕ) : Liballoc :=
  let s := s.set left .realSize (add32 (s.get left .realSize) (s.get right .realSize))
  let s := s.set left .splitRight (s.get right .splitRight)
  if s.get right .splitRight ≠ 0 then s.set (s.get right .splitRight) .splitLeft left else s

theorem kmemMeltLeft_eq :
    kmemMeltLeft s tag = (s.get tag .splitLeft, kmemJoin s (s.get tag .splitLeft) tag) :=
  rfl

theorem kmemAbsorbRight_eq : kmemAbsorbRight s tag =
    kmemJoin (kmemRemoveTag s (s.get tag .splitRight)) tag (s.get tag .splitRight) :=
  rfl

/-- The tags when the one on the right is a part of the one on the left. -/
def joinedTags (s : Liballoc) (left right : ℕ) : ℕ → TagField → ℕ
  | c, .realSize =>
      if c = left then add32 (s.get left .realSize) (s.get right .realSize)
      else s.get c .realSize
  | c, .splitRight => if c = left then s.get right .splitRight else s.get c .splitRight
  | c, .splitLeft => if c = s.get right .splitRight then left else s.get c .splitLeft
  | c, field => s.get c field

theorem kmemJoin_edited (roomy : Roomy cells) (leftMem : left ∈ cells) (rightMem : right ∈ cells)
    (behindMem : s.get right .splitRight = 0 ∨ s.get right .splitRight ∈ cells) :
    Edited cells s (kmemJoin s left right) (joinedTags s left right) := by
  have leftFits := roomy.fits left leftMem
  have first := (Edited.refl cells s).set roomy leftMem .realSize
    (add32 (s.get left .realSize) (s.get right .realSize)) (Nat.mod_lt _ (by decide))
  have behind := first.reads right rightMem .splitRight
  simp only [reduceCtorEq, and_false, if_false] at behind
  have second := first.setRead roomy leftMem .splitRight behind
    (s.get_lt right .splitRight)
  have again := second.reads right rightMem .splitRight
  simp only [reduceCtorEq, and_false, and_true, if_false] at again
  rw [ite_self] at again
  have third := second.setUnlessNull roomy .splitLeft again (Eq.refl left) behindMem
    (by omega)
  refine third.congr ?_
  intro c cMem field
  cases field <;> simp [joinedTags]

theorem kmemJoin_heads : (kmemJoin s left right).kmemLFreePages = s.kmemLFreePages := by
  simp only [kmemJoin]
  split_ifs <;> rfl

/-- `kmem_split_tag` up to its call of `kmem_insert_tag`: the last `remainder` bytes of a
section get a tag of their own. -/
def kmemCarve (s : Liballoc) (tag newTag remainder : ℕ) : Liballoc :=
  let s := s.set newTag .magic liballocMagic
  let s := s.set newTag .realSize remainder
  let s := s.set newTag .next 0
  let s := s.set newTag .prev 0
  let s := s.set newTag .splitLeft tag
  let s := s.set newTag .splitRight (s.get tag .splitRight)
  let s :=
    if s.get newTag .splitRight ≠ 0 then s.set (s.get newTag .splitRight) .splitLeft newTag
    else s
  let s := s.set tag .splitRight newTag
  s.set tag .realSize (sub32 (s.get tag .realSize) (s.get newTag .realSize))

theorem kmemSplitTag_eq : kmemSplitTag s tag =
    kmemInsertTag
      (kmemCarve s tag (add32 (add32 tag 32) (s.get tag .size))
        (sub32 (sub32 (s.get tag .realSize) 32) (s.get tag .size)))
      (add32 (add32 tag 32) (s.get tag .size)) (-1) :=
  rfl

/-- The tags when a new one is carved out behind another one. Its size and its index are
not written. -/
def carvedTags (s : Liballoc) (tag newTag remainder : ℕ) : ℕ → TagField → ℕ
  | c, .magic => if c = newTag then liballocMagic else s.get c .magic
  | c, .realSize =>
      if c = newTag then remainder
      else if c = tag then sub32 (s.get tag .realSize) remainder else s.get c .realSize
  | c, .splitLeft =>
      if c = s.get tag .splitRight then newTag
      else if c = newTag then tag else s.get c .splitLeft
  | c, .splitRight =>
      if c = tag then newTag
      else if c = newTag then s.get tag .splitRight else s.get c .splitRight
  | c, .next => if c = newTag then 0 else s.get c .next
  | c, .prev => if c = newTag then 0 else s.get c .prev
  | c, field => s.get c field

theorem kmemCarve_edited (roomy : Roomy cells) (tagMem : tag ∈ cells) {newTag remainder : ℕ}
    (newMem : newTag ∈ cells) (different : newTag ≠ tag) (small : remainder < 2 ^ 32)
    (behindMem : s.get tag .splitRight = 0 ∨ s.get tag .splitRight ∈ cells) :
    Edited cells s (kmemCarve s tag newTag remainder) (carvedTags s tag newTag remainder) := by
  have tagFits := roomy.fits tag tagMem
  have newFits := roomy.fits newTag newMem
  have first := (Edited.refl cells s).set roomy newMem .magic liballocMagic
    (by decide)
  have second := first.set roomy newMem .realSize remainder small
  have third := second.set roomy newMem .next 0 (by decide)
  have fourth := third.set roomy newMem .prev 0 (by decide)
  have fifth := fourth.set roomy newMem .splitLeft tag (by omega)
  have behind := fifth.reads tag tagMem .splitRight
  simp only [reduceCtorEq, and_false, if_false] at behind
  have sixth := fifth.setRead roomy newMem .splitRight behind
    (s.get_lt tag .splitRight)
  have again := sixth.reads newTag newMem .splitRight
  simp only [and_true, if_true] at again
  have seventh := sixth.setUnlessNull roomy .splitLeft again (Eq.refl newTag) behindMem
    (by omega)
  have eighth := seventh.set roomy tagMem .splitRight newTag (by omega)
  have whole := eighth.reads tag tagMem .realSize
  have part := eighth.reads newTag newMem .realSize
  simp only [reduceCtorEq, and_false, and_true, if_false, different.symm, if_true] at whole part
  have ninth := eighth.setRead roomy tagMem .realSize
    (congrArg₂ sub32 whole part) (Nat.mod_lt _ (by decide))
  refine ninth.congr ?_
  intro c cMem field
  by_cases isTag : c = tag
  · subst isTag
    cases field <;> simp [carvedTags, different.symm]
  · cases field <;> simp [carvedTags, isTag]

theorem kmemCarve_heads {newTag remainder : ℕ} :
    (kmemCarve s tag newTag remainder).kmemLFreePages = s.kmemLFreePages := by
  simp only [kmemCarve]
  split_ifs <;> rfl

/-- The fields that `kmem_allocate_new_tag` writes. -/
def newTag (size realSize : ℕ) : TagField → ℕ
  | .magic => liballocMagic
  | .size => size
  | .realSize => realSize
  | .index => word32 (-1)
  | _ => 0

theorem kmemWriteNewTag_edited (roomy : Roomy cells) (tagMem : tag ∈ cells) {size realSize : ℕ}
    (small : size < 2 ^ 32) (realSmall : realSize < 2 ^ 32) :
    Edited cells s (kmemWriteNewTag s tag size realSize)
      (fun c field => if c = tag then newTag size realSize field else s.get c field) := by
  have first := (Edited.refl cells s).set roomy tagMem .magic liballocMagic
    (by decide)
  have second := first.set roomy tagMem .size size small
  have third := second.set roomy tagMem .realSize realSize realSmall
  have fourth := third.set roomy tagMem .index (word32 (-1)) (word32_lt (-1))
  have fifth := fourth.set roomy tagMem .next 0 (by decide)
  have sixth := fifth.set roomy tagMem .prev 0 (by decide)
  have seventh := sixth.set roomy tagMem .splitLeft 0 (by decide)
  have eighth := seventh.set roomy tagMem .splitRight 0 (by decide)
  refine eighth.congr ?_
  intro c cMem field
  cases field <;> simp [newTag]

end Helpers

end Osserver
