import Osserver.Lib.Tiling
import Mathlib.Data.List.Perm.Basic
import Mathlib.Order.Basic

/-!
# Free lists of blocks

What a page allocator does, without descriptors: it keeps a list of free
blocks, cuts an allocation off the first block that is large enough, and on a
release either joins the block with its neighbours in the list or puts it
between them. `Take` and `Release` are these two moves on plain lists of
blocks, and `Owned` is what they preserve: the free blocks and the blocks in
the hands of callers tile the region.

`Coalesced` is the property that makes first fit complete: no two free blocks
touch, so every run of free pages lies inside one block. `Sorted` is the order
by address that lets a release find its neighbours.
-/

namespace Osserver

open Tiling

/-- A run of `pages` pages of 4096 bytes from `ptr`. -/
structure Block where
  ptr : ℕ
  pages : ℕ
  deriving DecidableEq

namespace Block

/-- The address behind the block. -/
def stop (block : Block) : ℕ :=
  block.ptr + block.pages * 4096

def span (block : Block) : Span :=
  ⟨block.ptr, block.pages * 4096⟩

/-- The pages of the block, each by its first address. -/
def pageSet (block : Block) : Set ℕ :=
  {page | ∃ k < block.pages, page = block.ptr + k * 4096}

theorem span_covers {block : Block} {address : ℕ} :
    block.span.Covers address ↔ block.ptr ≤ address ∧ address < block.stop :=
  Iff.rfl

theorem cover_join (left right : Block) (touches : left.stop = right.ptr) (address : ℕ) :
    cover [(⟨left.ptr, left.pages + right.pages⟩ : Block).span] address =
      cover [left.span, right.span] address := by
  have cut := cover_split left.ptr (left.pages * 4096) (right.pages * 4096) address
  rw [show left.ptr + left.pages * 4096 = right.ptr from touches] at cut
  simp only [cover_cons, cover_nil, span, Nat.add_mul]
  omega

theorem joined_stop {left right : Block} {address : ℕ} (touches : left.stop = right.ptr)
    (stops : right.stop = address) :
    (⟨left.ptr, left.pages + right.pages⟩ : Block).stop = address := by
  rw [stop] at *
  rw [← stops, ← touches]
  simp only [Nat.add_mul, Nat.add_assoc]

/-- One of the blocks lies wholly below the other. -/
def Apart (left right : Block) : Prop :=
  left.stop ≤ right.ptr ∨ right.stop ≤ left.ptr

/-- Neither block ends where the other begins. -/
def Clear (left right : Block) : Prop :=
  left.stop ≠ right.ptr ∧ right.stop ≠ left.ptr

theorem Clear.symm {left right : Block} (clear : left.Clear right) : right.Clear left :=
  ⟨clear.2, clear.1⟩

theorem ptr_le_stop (block : Block) : block.ptr ≤ block.stop := by
  simp [stop]

theorem ptr_lt_stop {block : Block} (positive : 0 < block.pages) : block.ptr < block.stop := by
  rw [stop]
  omega

theorem Apart.symm {left right : Block} (apart : left.Apart right) : right.Apart left :=
  Or.symm apart

theorem Apart.not_covers {left right : Block} (apart : left.Apart right) {address : ℕ}
    (inRight : right.span.Covers address) : ¬left.span.Covers address := by
  intro inLeft
  rw [span_covers] at inLeft inRight
  rcases apart with below | below <;> omega

theorem Apart.stop_ne {left right : Block} (apart : left.Apart right)
    (leftPositive : 0 < left.pages) (rightPositive : 0 < right.pages) : left.stop ≠ right.stop := by
  rw [Apart, stop, stop] at apart
  rw [stop, stop]
  omega

theorem Apart.ptr_ne {left right : Block} (apart : left.Apart right)
    (leftPositive : 0 < left.pages) (rightPositive : 0 < right.pages) : left.ptr ≠ right.ptr := by
  rw [Apart, stop, stop] at apart
  omega

theorem not_covers_join {left right : Block} {pages address : ℕ}
    (touches : left.stop = right.ptr) (narrowed : pages ≤ left.pages + right.pages)
    (notLeft : ¬left.span.Covers address) (notRight : ¬right.span.Covers address) :
    ¬(⟨left.ptr, pages⟩ : Block).span.Covers address := by
  intro covers
  rw [span_covers, stop] at covers notLeft notRight
  rw [stop] at touches
  have cut : address < left.ptr + left.pages * 4096 ∨ left.ptr + left.pages * 4096 ≤ address :=
    Nat.lt_or_ge _ _
  rcases cut with below | behind
  · exact notLeft ⟨covers.1, below⟩
  · apply notRight
    rw [← touches]
    refine ⟨behind, ?_⟩
    have stops := covers.2
    simp only at stops
    omega

theorem covers_ptr {block : Block} (positive : 0 < block.pages) :
    block.span.Covers block.ptr :=
  ⟨Nat.le_refl _, ptr_lt_stop positive⟩

end Block

/-- The free list before and after `pages` pages are taken, and the block taken. -/
inductive Take (pages : ℕ) : List Block → Block → List Block → Prop where
  | whole {before after : List Block} {ptr : ℕ} :
      Take pages (before ++ ⟨ptr, pages⟩ :: after) ⟨ptr, pages⟩ (before ++ after)
  | front {before after : List Block} {ptr size : ℕ} (larger : pages < size) :
      Take pages (before ++ ⟨ptr, size⟩ :: after) ⟨ptr, pages⟩
        (before ++ ⟨ptr + pages * 4096, size - pages⟩ :: after)

/-- What becomes of the free list `before ++ prev :: after` when a block is
released behind `prev`. Only the first entry of the list may lie above the block. -/
inductive Release (block : Block) (before : List Block) (prev : Block) :
    List Block → List Block → Prop where
  | joinPrev {after : List Block} (touches : prev.stop = block.ptr)
      (apart : ∀ following ∈ after.head?, block.stop ≠ following.ptr) :
      Release block before prev after
        (before ++ ⟨prev.ptr, prev.pages + block.pages⟩ :: after)
  | joinBoth {after : List Block} {following : Block} (touches : prev.stop = block.ptr)
      (touched : block.stop = following.ptr) :
      Release block before prev (following :: after)
        (before ++ ⟨prev.ptr, prev.pages + block.pages + following.pages⟩ :: after)
  | insert {after : List Block} (passed : before = [] ∨ prev.ptr < block.ptr)
      (above : ∀ following ∈ after.head?, block.ptr ≤ following.ptr)
      (apartPrev : prev.stop ≠ block.ptr)
      (apart : ∀ following ∈ after.head?, block.stop ≠ following.ptr) :
      Release block before prev after (before ++ prev :: block :: after)

/-- The free blocks and the blocks handed out tile the region of 8192 pages from `base`. -/
structure Owned (base : ℕ) (free outstanding : List Block) : Prop where
  positive : ∀ block ∈ free ++ outstanding, 0 < block.pages
  aligned : ∀ block ∈ free ++ outstanding, ∃ page, block.ptr = base + page * 4096
  tiles : Tiles (⟨base, 8192⟩ : Block).span ((free ++ outstanding).map Block.span)

namespace Owned

variable {base : ℕ} {free outstanding : List Block}

theorem initial (base : ℕ) : Owned base [⟨base, 8192⟩] [] where
  positive := by simp
  aligned := by
    intro block member
    refine ⟨0, ?_⟩
    simp at member
    simp [member]
  tiles := by simpa using Tiles.single _

theorem bounds (owned : Owned base free outstanding) {block : Block}
    (member : block ∈ free ++ outstanding) :
    base ≤ block.ptr ∧ block.stop ≤ base + 8192 * 4096 := by
  have positive := owned.positive block member
  have nonempty : 0 < block.span.length := by
    simp only [Block.span]
    omega
  exact owned.tiles.bounds (List.mem_map_of_mem member) nonempty

theorem take {pages : ℕ} {block : Block} {rest : List Block}
    (owned : Owned base free outstanding) (positive : 0 < pages) (taken : Take pages free block rest) :
    Owned base rest (block :: outstanding) := by
  cases taken with
  | @whole before after ptr =>
      have perm : (before ++ after ++ ⟨ptr, pages⟩ :: outstanding).Perm
          (before ++ ⟨ptr, pages⟩ :: after ++ outstanding) := by
        grind
      refine ⟨?_, ?_, ?_⟩
      · intro other member
        exact owned.positive other (perm.mem_iff.mp member)
      · intro other member
        exact owned.aligned other (perm.mem_iff.mp member)
      · exact owned.tiles.perm (perm.map Block.span)
  | @front before after ptr size larger =>
      have original : (⟨ptr, size⟩ : Block) ∈ before ++ ⟨ptr, size⟩ :: after ++ outstanding := by
        simp
      rcases owned.aligned _ original with ⟨page, atPage⟩
      simp only at atPage
      refine ⟨?_, ?_, ?_⟩
      · intro other member
        simp only [List.mem_append, List.mem_cons] at member
        rcases member with (member | rfl | member) | rfl | member
        · exact owned.positive other (by simp [member])
        · simp only
          omega
        · exact owned.positive other (by simp [member])
        · exact positive
        · exact owned.positive other (by simp [member])
      · intro other member
        simp only [List.mem_append, List.mem_cons] at member
        rcases member with (member | rfl | member) | rfl | member
        · exact owned.aligned other (by simp [member])
        · exact ⟨page + pages, by simp only; omega⟩
        · exact owned.aligned other (by simp [member])
        · exact ⟨page, atPage⟩
        · exact owned.aligned other (by simp [member])
      · apply owned.tiles.of_cover_eq
        intro address
        have join := Block.cover_join ⟨ptr, pages⟩ ⟨ptr + pages * 4096, size - pages⟩ rfl
          address
        have sizes : pages + (size - pages) = size := by omega
        simp only [sizes, cover_cons, cover_nil] at join
        simp only [List.map_append, List.map_cons, cover_append, cover_cons]
        omega

theorem perm {other : List Block} (owned : Owned base free outstanding)
    (perm : other.Perm outstanding) : Owned base free other := by
  have whole : (free ++ other).Perm (free ++ outstanding) := perm.append_left free
  refine ⟨?_, ?_, ?_⟩
  · intro block member
    exact owned.positive block (whole.mem_iff.mp member)
  · intro block member
    exact owned.aligned block (whole.mem_iff.mp member)
  · exact owned.tiles.perm (whole.map Block.span)

/-- What a release makes of the free list covers what was free and the block,
and consists of blocks that start where old ones did and are no smaller. -/
theorem of_release {block prev : Block} {before after rest : List Block}
    (released : Release block before prev after rest) :
    (∀ address, cover (rest.map Block.span) address =
      cover ((block :: (before ++ prev :: after)).map Block.span) address) ∧
    ∀ new ∈ rest, ∃ old ∈ block :: (before ++ prev :: after),
      new.ptr = old.ptr ∧ old.pages ≤ new.pages := by
  cases released with
  | joinPrev touches apart =>
      constructor
      · intro address
        have join := Block.cover_join prev block touches address
        simp only [cover_cons, cover_nil] at join
        simp only [List.map_append, List.map_cons, cover_append, cover_cons]
        omega
      · intro new member
        simp only [List.mem_append, List.mem_cons] at member
        rcases member with member | rfl | member
        · exact ⟨new, by simp [member], rfl, Nat.le_refl _⟩
        · exact ⟨prev, by simp, rfl, by simp⟩
        · exact ⟨new, by simp [member], rfl, Nat.le_refl _⟩
  | @joinBoth after following touches touched =>
      constructor
      · intro address
        have joinPrev := Block.cover_join prev block touches address
        have joinBoth := Block.cover_join ⟨prev.ptr, prev.pages + block.pages⟩ following
          (Block.joined_stop touches touched) address
        simp only [cover_cons, cover_nil] at joinPrev joinBoth
        simp only [List.map_append, List.map_cons, cover_append, cover_cons]
        omega
      · intro new member
        simp only [List.mem_append, List.mem_cons] at member
        rcases member with member | rfl | member
        · exact ⟨new, by simp [member], rfl, Nat.le_refl _⟩
        · refine ⟨prev, by simp, rfl, ?_⟩
          simp only
          omega
        · exact ⟨new, by simp [member], rfl, Nat.le_refl _⟩
  | insert passed above apartPrev apart =>
      constructor
      · intro address
        simp only [List.map_append, List.map_cons, cover_append, cover_cons]
        omega
      · intro new member
        refine ⟨new, ?_, rfl, Nat.le_refl _⟩
        simp only [List.mem_append, List.mem_cons] at member ⊢
        tauto

theorem release {block prev : Block} {before after rest : List Block}
    (owned : Owned base (before ++ prev :: after) outstanding) (held : block ∈ outstanding)
    (released : Release block before prev after rest) :
    Owned base rest (outstanding.erase block) := by
  have atHead := owned.perm (List.perm_cons_erase held).symm
  rcases of_release released with ⟨sameCover, grown⟩
  have member : ∀ old ∈ block :: (before ++ prev :: after),
      old ∈ (before ++ prev :: after) ++ block :: outstanding.erase block := by
    intro old oldMem
    simp only [List.mem_append, List.mem_cons] at oldMem ⊢
    tauto
  refine ⟨?_, ?_, ?_⟩
  · intro new newMem
    rcases List.mem_append.mp newMem with inRest | stillOut
    · rcases grown new inRest with ⟨old, oldMem, _, larger⟩
      have positive := atHead.positive old (member old oldMem)
      omega
    · exact atHead.positive new (by simp [stillOut])
  · intro new newMem
    rcases List.mem_append.mp newMem with inRest | stillOut
    · rcases grown new inRest with ⟨old, oldMem, samePtr, _⟩
      rcases atHead.aligned old (member old oldMem) with ⟨page, atPage⟩
      exact ⟨page, samePtr.trans atPage⟩
    · exact atHead.aligned new (by simp [stillOut])
  · apply atHead.tiles.of_cover_eq
    intro address
    have same := sameCover address
    simp only [List.map_append, List.map_cons, cover_append, cover_cons] at same ⊢
    omega

theorem pairwise_apart (owned : Owned base free outstanding) :
    (free ++ outstanding).Pairwise Block.Apart := by
  have pairwise := List.pairwise_map.mp owned.tiles.pairwise_disjoint
  apply pairwise.imp_of_mem
  intro left right leftMem rightMem disjoint
  have atLeft := disjoint left.ptr
  have atRight := disjoint right.ptr
  have leftPositive := owned.positive left leftMem
  have rightPositive := owned.positive right rightMem
  simp only [Block.span_covers, Block.stop, Block.Apart] at *
  omega

theorem sides (owned : Owned base free outstanding) {entry block : Block} (inFree : entry ∈ free)
    (held : block ∈ outstanding) : entry.Apart block :=
  (List.pairwise_append.mp owned.pairwise_apart).2.2 entry inFree block held

theorem page_mem (owned : Owned base free outstanding) {block : Block}
    (member : block ∈ free ++ outstanding) {page : ℕ}
    (covers : block.span.Covers (base + page * 4096)) :
    base + page * 4096 ∈ block.pageSet := by
  rcases owned.aligned block member with ⟨first, atFirst⟩
  rw [Block.span_covers, Block.stop] at covers
  refine ⟨page - first, ?_, ?_⟩ <;> omega

theorem covers_of_page_mem {block : Block} {page : ℕ} (member : page ∈ block.pageSet) :
    block.span.Covers page := by
  rcases member with ⟨k, inside, rfl⟩
  rw [Block.span_covers, Block.stop]
  omega

theorem exists_page (owned : Owned base free outstanding) {page : ℕ} (inside : page < 8192) :
    ∃ block ∈ free ++ outstanding, base + page * 4096 ∈ block.pageSet := by
  have inRegion : (⟨base, 8192⟩ : Block).span.Covers (base + page * 4096) := by
    simp only [Block.span_covers, Block.stop]
    omega
  rcases owned.tiles.exists_part inRegion with ⟨span, spanMem, covers⟩
  rcases List.mem_map.mp spanMem with ⟨block, blockMem, rfl⟩
  exact ⟨block, blockMem, owned.page_mem blockMem covers⟩

end Owned

/-- No two of the blocks touch. -/
def Coalesced (blocks : List Block) : Prop :=
  blocks.Pairwise Block.Clear

namespace Coalesced

variable {before after : List Block} {prev block : Block}

theorem insert (coalesced : Coalesced (before ++ after))
    (clear : ∀ other ∈ before ++ after, other.Clear block) :
    Coalesced (before ++ block :: after) := by
  have symmetric : ∀ {left right : Block}, left.Clear right → right.Clear left :=
    fun clear => clear.symm
  have moved : (before ++ block :: after).Perm (block :: (before ++ after)) := List.perm_middle
  refine (moved.pairwise_iff symmetric).mpr (List.pairwise_cons.mpr ⟨?_, coalesced⟩)
  intro other member
  exact (clear other member).symm

theorem replace (between : List Block)
    (coalesced : Coalesced (before ++ prev :: (between ++ after)))
    (clear : ∀ other ∈ before ++ after, other.Clear block) :
    Coalesced (before ++ block :: after) := by
  have fewer : List.Sublist (before ++ after) (before ++ prev :: (between ++ after)) := by
    apply List.Sublist.append_left
    apply List.Sublist.cons
    apply List.sublist_append_right
  exact insert (coalesced.sublist fewer) clear

theorem clear_of_split (coalesced : Coalesced (before ++ prev :: after)) :
    ∀ other ∈ before ++ after, other.Clear prev := by
  rcases List.pairwise_append.mp coalesced with ⟨_, behind, cross⟩
  intro other member
  rcases List.mem_append.mp member with inBefore | inAfter
  · exact cross other inBefore prev (by simp)
  · exact ((List.pairwise_cons.mp behind).1 other inAfter).symm

theorem take {pages : ℕ} {free rest : List Block} (coalesced : Coalesced free)
    (apart : free.Pairwise Block.Apart) (positive : 0 < pages)
    (taken : Take pages free block rest) : Coalesced rest := by
  cases taken with
  | whole =>
      exact coalesced.sublist ((List.sublist_cons_self _ _).append_left _)
  | @front before after ptr size larger =>
      apply coalesced.replace []
      intro other member
      have wasClear := coalesced.clear_of_split other member
      have wasApart : other.Apart ⟨ptr, size⟩ := by
        rcases List.pairwise_append.mp apart with ⟨_, behind, cross⟩
        rcases List.mem_append.mp member with inBefore | inAfter
        · exact cross other inBefore _ (by simp)
        · exact ((List.pairwise_cons.mp behind).1 other inAfter).symm
      simp only [Block.Clear, Block.Apart, Block.stop] at *
      omega

theorem release {rest : List Block} (coalesced : Coalesced (before ++ prev :: after))
    (onlyPrev : ∀ entry ∈ before ++ prev :: after, entry.stop = block.ptr → entry = prev)
    (onlyFollowing : ∀ entry ∈ before ++ prev :: after,
      block.stop = entry.ptr → entry ∈ after.head?)
    (released : Release block before prev after rest) : Coalesced rest := by
  have prevClear := coalesced.clear_of_split
  cases released with
  | joinPrev touches apart =>
      apply coalesced.replace []
      intro other member
      have stops := Block.joined_stop touches rfl
      refine ⟨(prevClear other member).1, ?_⟩
      rw [stops]
      intro touched
      have isOther : other ∈ before ++ prev :: after := by
        simp only [List.mem_append, List.mem_cons] at member ⊢
        tauto
      exact apart other (onlyFollowing other isOther touched) touched
  | @joinBoth after following touches touched =>
      apply coalesced.replace [following]
      intro other member
      have stops := Block.joined_stop (Block.joined_stop touches touched) rfl
      have regrouped : Coalesced ((before ++ [prev]) ++ following :: after) := by
        simpa using coalesced
      have behind : other ∈ before ++ following :: after := by
        simp only [List.mem_append, List.mem_cons] at member ⊢
        tauto
      have around : other ∈ (before ++ [prev]) ++ after := by
        simp only [List.mem_append] at member ⊢
        tauto
      refine ⟨(prevClear other behind).1, ?_⟩
      rw [stops]
      exact (regrouped.clear_of_split other around).2
  | insert passed above apartPrev apart =>
      have regrouped : Coalesced ((before ++ [prev]) ++ block :: after) := by
        apply insert
        · simpa using coalesced
        · intro other member
          have isOther : other ∈ before ++ prev :: after := by simpa using member
          constructor
          · intro touches
            have same := onlyPrev other isOther touches
            subst same
            exact apartPrev touches
          · intro touched
            exact apart other (onlyFollowing other isOther touched) touched
      simpa using regrouped

theorem clear (coalesced : Coalesced before) {left right : Block} (leftMem : left ∈ before)
    (rightMem : right ∈ before) (different : left ≠ right) : left.Clear right := by
  have symmetric : Std.Symm Block.Clear := ⟨fun _ _ clear => clear.symm⟩
  exact coalesced.forall leftMem rightMem different

/-- A release that leaves the list coalesced was of a block that touches no entries but
the two it is put between. -/
theorem neighbours_of_release {rest : List Block} (coalesced : Coalesced rest)
    (released : Release block before prev after rest)
    (positive : ∀ entry ∈ block :: (before ++ prev :: after), 0 < entry.pages)
    (apart : ∀ entry ∈ before ++ prev :: after, entry.Apart block)
    (entriesApart : ∀ entry ∈ before ++ prev :: after, ∀ other ∈ before ++ prev :: after,
      entry ≠ other → entry.Apart other) :
    ∀ entry ∈ before ++ prev :: after, (entry.stop = block.ptr → entry = prev) ∧
      (block.stop = entry.ptr → entry ∈ after.head?) := by
  have blockPositive := positive block (by simp)
  have entryPositive : ∀ entry ∈ before ++ prev :: after, 0 < entry.pages :=
    fun entry member => positive entry (List.mem_cons_of_mem block member)
  have prevMem : prev ∈ before ++ prev :: after := by simp
  have onlyPrev : prev.stop = block.ptr → ∀ entry ∈ before ++ prev :: after,
      entry.stop = block.ptr → entry = prev := by
    intro touches entry member touchesToo
    by_contra different
    have entryApart := entriesApart entry member prev prevMem different
    exact entryApart.stop_ne (entryPositive entry member) (entryPositive prev prevMem)
      (touchesToo.trans touches.symm)
  cases released with
  | joinPrev touches notBehind =>
      intro entry member
      refine ⟨onlyPrev touches entry member, ?_⟩
      intro touched
      have joinedStop : (⟨prev.ptr, prev.pages + block.pages⟩ : Block).stop = entry.ptr :=
        Block.joined_stop touches touched
      have joinedPositive : 0 < (⟨prev.ptr, prev.pages + block.pages⟩ : Block).pages :=
        Nat.add_pos_right _ blockPositive
      have notPrev : entry ≠ prev := by
        rintro rfl
        have below := Nat.lt_of_le_of_lt entry.ptr_le_stop (touches ▸ Block.ptr_lt_stop blockPositive)
        exact Nat.lt_irrefl _ (touched ▸ below)
      have notJoined : (⟨prev.ptr, prev.pages + block.pages⟩ : Block) ≠ entry := by
        intro same
        have below := Block.ptr_lt_stop joinedPositive
        rw [joinedStop, same] at below
        exact Nat.lt_irrefl _ below
      have entryMem : entry ∈ before ++ ⟨prev.ptr, prev.pages + block.pages⟩ :: after := by
        rcases List.mem_append.mp member with inBefore | behindBefore
        · exact List.mem_append_left _ inBefore
        · rcases List.mem_cons.mp behindBefore with isPrev | inAfter
          · exact absurd isPrev notPrev
          · exact List.mem_append_right _ (List.mem_cons_of_mem _ inAfter)
      have clear := coalesced.clear (by simp) entryMem notJoined
      exact absurd joinedStop clear.1
  | @joinBoth behind following touches touched =>
      intro entry member
      refine ⟨onlyPrev touches entry member, ?_⟩
      intro touchedToo
      have followingMem : following ∈ before ++ prev :: following :: behind := by simp
      have same : entry = following := by
        by_contra different
        have entryApart := entriesApart entry member following followingMem different
        exact entryApart.ptr_ne (entryPositive entry member)
          (entryPositive following followingMem) (touchedToo.symm.trans touched)
      rw [same]
      rfl
  | insert passed above apartPrev notBehind =>
      intro entry member
      have different : entry ≠ block := by
        rintro rfl
        exact (apart entry member).ptr_ne blockPositive blockPositive rfl
      have entryMem : entry ∈ before ++ prev :: block :: after := by
        simp only [List.mem_append, List.mem_cons] at member ⊢
        tauto
      have clear := coalesced.clear entryMem (by simp) different
      exact ⟨fun touches => absurd touches clear.1, fun touched => absurd touched clear.2⟩

end Coalesced

/-- The blocks are sorted by address. -/
def Sorted (blocks : List Block) : Prop :=
  blocks.Pairwise (fun left right => left.ptr < right.ptr)

namespace Sorted

variable {before after : List Block} {prev block : Block}

theorem insert (sorted : Sorted (before ++ after)) (below : ∀ other ∈ before, other.ptr < block.ptr)
    (above : ∀ other ∈ after, block.ptr < other.ptr) : Sorted (before ++ block :: after) := by
  rcases List.pairwise_append.mp sorted with ⟨beforeSorted, afterSorted, cross⟩
  refine List.pairwise_append.mpr ⟨beforeSorted, List.pairwise_cons.mpr ⟨above, afterSorted⟩, ?_⟩
  intro other inBefore following member
  rcases List.mem_cons.mp member with same | inAfter
  · subst same
    exact below other inBefore
  · exact cross other inBefore following inAfter

theorem above_of_head (sorted : Sorted after) {address : ℕ}
    (aboveHead : ∀ following ∈ after.head?, address < following.ptr) :
    ∀ following ∈ after, address < following.ptr := by
  cases after with
  | nil => simp
  | cons first after =>
      have beforeFirst : address < first.ptr := aboveHead first rfl
      intro following member
      rcases List.mem_cons.mp member with same | inAfter
      · subst same
        exact beforeFirst
      · have later := List.rel_of_pairwise_cons sorted inAfter
        omega

theorem replace (between : List Block) (sorted : Sorted (before ++ prev :: (between ++ after)))
    (samePtr : block.ptr = prev.ptr) : Sorted (before ++ block :: after) := by
  rcases List.pairwise_append.mp sorted with ⟨beforeSorted, behind, cross⟩
  rcases List.pairwise_cons.mp behind with ⟨prevBelow, restSorted⟩
  have afterSorted := (List.pairwise_append.mp restSorted).2.1
  apply insert
  · refine List.pairwise_append.mpr ⟨beforeSorted, afterSorted, ?_⟩
    intro other inBefore following inAfter
    exact cross other inBefore following (by simp [inAfter])
  · intro other inBefore
    rw [samePtr]
    exact cross other inBefore prev (by simp)
  · intro other inAfter
    rw [samePtr]
    exact prevBelow other (by simp [inAfter])

theorem take {pages : ℕ} {free rest : List Block} (sorted : Sorted free)
    (apart : free.Pairwise Block.Apart) (taken : Take pages free block rest) : Sorted rest := by
  cases taken with
  | whole =>
      exact sorted.sublist ((List.sublist_cons_self _ _).append_left _)
  | @front before after ptr size larger =>
      rcases List.pairwise_append.mp sorted with ⟨_, behind, cross⟩
      rcases List.pairwise_append.mp apart with ⟨_, behindApart, _⟩
      apply insert
      · exact sorted.sublist ((List.sublist_cons_self _ _).append_left _)
      · intro other inBefore
        have lower := cross other inBefore _ (List.mem_cons_self ..)
        simp only at lower ⊢
        omega
      · intro other inAfter
        have higher := (List.pairwise_cons.mp behind).1 other inAfter
        have clear := (List.pairwise_cons.mp behindApart).1 other inAfter
        have := Block.ptr_le_stop other
        simp only [Block.Apart, Block.stop] at *
        omega

theorem release {rest : List Block} (sorted : Sorted (before ++ prev :: after))
    (lower : prev.ptr < block.ptr) (notAt : ∀ following ∈ after, block.ptr ≠ following.ptr)
    (released : Release block before prev after rest) : Sorted rest := by
  cases released with
  | joinPrev touches apart =>
      exact sorted.replace [] rfl
  | @joinBoth after following touches touched =>
      exact sorted.replace [following] rfl
  | insert passed above apartPrev apart =>
      rcases List.pairwise_append.mp sorted with ⟨_, behind, cross⟩
      have afterSorted : Sorted after := (List.pairwise_cons.mp behind).2
      have regrouped : Sorted ((before ++ [prev]) ++ block :: after) := by
        apply insert
        · simpa using sorted
        · intro other member
          rcases List.mem_append.mp member with inBefore | isPrev
          · have belowPrev := cross other inBefore prev (by simp)
            omega
          · have same := List.mem_singleton.mp isPrev
            subst same
            exact lower
        · apply afterSorted.above_of_head
          intro following atHead
          have notBelow := above following atHead
          have different := notAt following (List.mem_of_mem_head? atHead)
          omega
      simpa using regrouped

theorem take_tail {pages : ℕ} {free rest : List Block} (sorted : Sorted free.tail)
    (apart : free.Pairwise Block.Apart) (taken : Take pages free block rest) :
    Sorted rest.tail := by
  cases taken with
  | @whole before after ptr =>
      cases before with
      | nil => exact List.Pairwise.sublist (List.tail_sublist after) sorted
      | cons first before => exact sorted.take (List.Pairwise.tail apart) Take.whole
  | @front before after ptr size larger =>
      cases before with
      | nil => exact sorted
      | cons first before => exact sorted.take (List.Pairwise.tail apart) (Take.front larger)

theorem release_tail {rest : List Block} (sorted : Sorted (before ++ prev :: after).tail)
    (notAt : ∀ following ∈ after, block.ptr ≠ following.ptr)
    (lower : before = [] ∨ prev.ptr < block.ptr)
    (released : Release block before prev after rest) : Sorted rest.tail := by
  cases before with
  | nil =>
      cases released with
      | joinPrev touches apart => exact sorted
      | @joinBoth after following touches touched =>
          have behind : Sorted (following :: after) := sorted
          exact behind.tail
      | insert passed above apartPrev apart =>
          have afterSorted : Sorted ([] ++ after) := sorted
          have inserted : Sorted ([] ++ block :: after) := by
            apply insert afterSorted
            · simp
            · apply afterSorted.above_of_head
              intro following atHead
              have notBelow := above following atHead
              have different := notAt following (List.mem_of_mem_head? atHead)
              omega
          exact inserted
  | cons first before =>
      have isLower : prev.ptr < block.ptr := by
        rcases lower with absurdity | isLower
        · simp at absurdity
        · exact isLower
      cases released with
      | joinPrev touches apart =>
          exact sorted.release isLower notAt (.joinPrev touches apart)
      | joinBoth touches touched =>
          exact sorted.release isLower notAt (.joinBoth touches touched)
      | insert passed above apartPrev apart =>
          exact sorted.release isLower notAt (.insert (Or.inr isLower) above apartPrev apart)

end Sorted

/-- When no two free blocks touch, every run of free pages lies inside one block.
The block of the first page of the run cannot stop inside the run: the page at
its end would belong to a block that touches it. -/
theorem Owned.exists_fit {base first pages : ℕ} {free outstanding : List Block}
    (owned : Owned base free outstanding) (coalesced : Coalesced free) (positive : 0 < pages)
    (inside : first + pages ≤ 8192)
    (unused : ∀ page, first ≤ page → page < first + pages → ∀ block ∈ outstanding,
      base + page * 4096 ∉ block.pageSet) :
    ∃ block ∈ free, pages ≤ block.pages := by
  have inFree : ∀ page, first ≤ page → page < first + pages →
      ∃ block ∈ free, base + page * 4096 ∈ block.pageSet := by
    intro page above below
    have pageInside : page < 8192 := by omega
    rcases owned.exists_page pageInside with ⟨block, member, hasPage⟩
    rcases List.mem_append.mp member with inFree | handedOut
    · exact ⟨block, inFree, hasPage⟩
    · exact absurd hasPage (unused page above below block handedOut)
  rcases inFree first (Nat.le_refl _) (by omega) with ⟨block, member, hasFirst⟩
  refine ⟨block, member, ?_⟩
  by_contra tooSmall
  rcases owned.aligned block (by simp [member]) with ⟨start, atStart⟩
  rcases hasFirst with ⟨offset, offsetInside, atFirst⟩
  rcases inFree (start + block.pages) (by omega) (by omega) with ⟨other, otherMem, hasEnd⟩
  have coversEnd := Owned.covers_of_page_mem hasEnd
  have blockPositive := owned.positive block (by simp [member])
  have different : block ≠ other := by
    rintro rfl
    simp only [Block.span_covers, Block.stop] at coversEnd
    omega
  have freeApart := (List.pairwise_append.mp owned.pairwise_apart).1
  have symmetric : Std.Symm Block.Apart := ⟨fun _ _ apart => Or.symm apart⟩
  have apart := freeApart.forall member otherMem different
  have clearSymmetric : Std.Symm Block.Clear := ⟨fun _ _ clear => clear.symm⟩
  have clear := coalesced.forall member otherMem different
  simp only [Block.span_covers, Block.Apart, Block.Clear, Block.stop] at coversEnd apart clear
  omega

end Osserver
