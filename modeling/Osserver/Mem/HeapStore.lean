import Osserver.Lib.BlockStore
import Osserver.Mem.HeapRun

/-!
# The heap is a store of blocks

The state of a run is viewed as the blocks that callers hold and the bytes in them. In
this view every call does what a store of blocks does: what is in a block changes only
when its holder writes into it, and what a new block is named nobody else's is.
-/

namespace Osserver

open Liballoc Transition Bytes BlockStore

/-- The bytes of the blocks in a list, by their addresses. -/
def storeOf (heap : Liballoc) (held : List HeldBlock) : Store ℕ UInt8 :=
  fun ptr => (held.find? (fun block => block.ptr = ptr)).map
    (fun block => heap.bytes block.ptr block.size)

/-- What the callers see of the heap. -/
def HeapRun.store (run : HeapRun) : Store ℕ UInt8 :=
  storeOf run.heap run.held

section Store

variable {heap heap' : Liballoc} {held : List HeldBlock} {block : HeldBlock} {ptr size : ℕ}

theorem storeOf_congr (same : ∀ block ∈ held,
    heap'.bytes block.ptr block.size = heap.bytes block.ptr block.size) :
    storeOf heap' held = storeOf heap held := by
  funext ptr
  apply Option.map_congr
  intro block found
  exact same block (List.mem_of_find?_eq_some found)

theorem storeOf_cons : storeOf heap (⟨ptr, size⟩ :: held) =
    Function.update (storeOf heap held) ptr (some (heap.bytes ptr size)) := by
  funext other
  by_cases same : other = ptr
  · subst same
    simp [storeOf]
  · have different : ptr ≠ other := Ne.symm same
    simp [storeOf, same, different]

theorem storeOf_filter : storeOf heap (held.filter (fun block => block.ptr ≠ ptr)) =
    Function.update (storeOf heap held) ptr none := by
  funext other
  rw [storeOf, List.find?_filter]
  by_cases same : other = ptr
  · subst same
    simp
  · have isOther : ∀ block : HeldBlock,
        (block.ptr ≠ ptr ∧ block.ptr = other) ↔ block.ptr = other := by
      intro block
      refine ⟨And.right, ?_⟩
      rintro rfl
      exact ⟨same, rfl⟩
    rw [Function.update_of_ne same]
    simp only [decide_eq_true_eq, isOther]
    rfl

theorem storeOf_eq_none (absent : ∀ block ∈ held, block.ptr ≠ ptr) :
    storeOf heap held ptr = none := by
  have notFound : held.find? (fun block => block.ptr = ptr) = none := by
    simpa using absent
  rw [storeOf, notFound]
  rfl

theorem storeOf_mem (member : block ∈ held)
    (unique : ∀ other ∈ held, other.ptr = block.ptr → other = block) :
    storeOf heap held block.ptr = some (heap.bytes block.ptr block.size) := by
  cases found : held.find? (fun other => other.ptr = block.ptr) with
  | none =>
      have missing := List.find?_eq_none.mp found block member
      simp at missing
  | some other =>
      have atOther : other.ptr = block.ptr := by simpa using List.find?_some found
      have same := unique other (List.mem_of_find?_eq_some found) atOther
      rw [storeOf, found, same]
      rfl

end Store

namespace HeapRun

variable {run : HeapRun} {layout after : Layout} {heap : Liballoc} {ptr size p : ℕ}

theorem Mapped.unique (mapped : run.Mapped layout) {block other : HeldBlock}
    (member : block ∈ run.held) (otherMem : other ∈ run.held) (same : other.ptr = block.ptr) :
    other = block := by
  have holds := (mapped.holds block.ptr block.size).mpr member
  have otherHolds := (mapped.holds other.ptr other.size).mpr otherMem
  rw [same] at otherHolds
  have sizes := mapped.heapAt.holds_unique holds otherHolds
  rcases block with ⟨ptr, size⟩
  rcases other with ⟨otherPtr, otherSize⟩
  simp only at same sizes
  rw [same, sizes]

theorem Mapped.store_mem (mapped : run.Mapped layout) {block : HeldBlock}
    (member : block ∈ run.held) :
    run.store block.ptr = some (run.heap.bytes block.ptr block.size) :=
  storeOf_mem member fun _ otherMem same => mapped.unique member otherMem same

theorem Mapped.store_fresh (mapped : run.Mapped layout)
    (fresh : ∀ bytes, ¬layout.Holds ptr bytes) : run.store ptr = none := by
  apply storeOf_eq_none
  rintro block member rfl
  exact fresh block.size ((mapped.holds block.ptr block.size).mpr member)

/-- The store stays when what callers hold keeps its bytes. -/
theorem Mapped.store_keeps (mapped : run.Mapped layout)
    (keeps : layout.Keeps run.tables run.heap heap) :
    storeOf heap run.held = run.store :=
  storeOf_congr fun block member =>
    keeps.held block.ptr block.size ((mapped.holds block.ptr block.size).mpr member)

theorem Mapped.store_gain (mapped : run.Mapped layout) (notNull : ptr ≠ 0)
    (keeps : layout.Keeps run.tables run.heap heap) : (run.gain heap ptr size).store =
      Function.update run.store ptr (some (heap.bytes ptr size)) := by
  rw [HeapRun.store, HeapRun.gain]
  simp only [if_neg notNull]
  rw [storeOf_cons, mapped.store_keeps keeps]

theorem Mapped.store_lose (mapped : run.Mapped layout)
    (keeps : layout.Keeps run.tables run.heap heap) :
    storeOf heap (run.lose ptr).held = Function.update run.store ptr none := by
  rw [HeapRun.lose]
  simp only
  rw [storeOf_filter, mapped.store_keeps keeps]

theorem keeps_of_memory (layout : Layout) (tables : List Block) {s s' : Liballoc}
    (same : s'.memory = s.memory) : layout.Keeps tables s s' :=
  ⟨fun _ _ _ => Liballoc.bytes_congr fun _ _ => congrFun same _, fun _ _ => congrFun same _⟩

end HeapRun

/-- The event of giving back a pointer, which may be `NULL`. -/
def releaseEvent (ptr : ℕ) : Event ℕ UInt8 :=
  if ptr = 0 then .idle else .release ptr

section Calls

variable {run : HeapRun} {layout : Layout} {heap : Liballoc} {ptr size p count : ℕ}

/-- What a call has done: there is a map of the heap again, the store has made the step,
and the memory outside the heap is as it was. -/
structure HeapRun.Becomes (run : HeapRun) (event : Event ℕ UInt8) (after : HeapRun) : Prop where
  mapped : ∃ layout, after.Mapped layout
  stepped : BlockStore.Step 0 run.store event after.store
  foreign : ∀ address, Foreign run.tables address →
    after.heap.memory address = run.heap.memory address

namespace HeapRun.Mapped

theorem kmalloc (mapped : run.Mapped layout) (small : size + 32 < 2 ^ 32)
    (returns : kmemMalloc run.heap size = .ok (ptr, heap)) :
    run.Becomes (.allocate size) (run.gain heap ptr size) := by
  rcases mapped.heapAt.malloc_returns small returns with
    ⟨rfl, heapAfter, memory⟩ | ⟨after, heapAfter, gives, keeps⟩
  · refine ⟨⟨layout, mapped.gain_null heapAfter⟩, ?_, fun _ _ => congrFun memory _⟩
    have same : (run.gain heap 0 size).store = run.store :=
      mapped.store_keeps (keeps_of_memory layout run.tables memory)
    rw [same]
    exact .refused
  · refine ⟨⟨after, mapped.gain heapAfter gives⟩, ?_, keeps.foreign⟩
    rw [mapped.store_gain gives.notNull keeps]
    exact .allocated (mapped.store_fresh gives.fresh) (Liballoc.bytes_length _ _ _)

theorem kcalloc (mapped : run.Mapped layout) (small : count * size % 2 ^ 32 + 32 < 2 ^ 32)
    (returns : kmemCalloc run.heap count size = .ok (ptr, heap)) :
    run.Becomes (.clear (count * size % 2 ^ 32)) (run.gain heap ptr (count * size % 2 ^ 32)) := by
  rcases mapped.heapAt.calloc_returns small returns with
    ⟨rfl, none, heapAfter, memory⟩ | ⟨after, heapAfter, gives, keeps, zeros⟩
  · refine ⟨⟨layout, mapped.gain_null heapAfter⟩, ?_, fun _ _ => congrFun memory _⟩
    have same : (run.gain heap 0 (count * size % 2 ^ 32)).store = run.store :=
      mapped.store_keeps (keeps_of_memory layout run.tables memory)
    rw [same, none]
    exact .notCleared
  · refine ⟨⟨after, mapped.gain heapAfter gives⟩, ?_, keeps.foreign⟩
    rw [mapped.store_gain gives.notNull keeps, zeros]
    exact .cleared (mapped.store_fresh gives.fresh)

/-- The state behind a call that gives back the block at `ptr`. -/
theorem free (mapped : run.Mapped layout) {block : HeldBlock} (held : block ∈ run.held)
    (atPtr : block.ptr = ptr) (safe : FreeSafe run.heap ptr)
    (returns : kmemFree run.heap ptr = .ok heap) :
    (∃ after, { run.lose ptr with heap := heap }.Mapped after) ∧
      ({ run.lose ptr with heap := heap } : HeapRun).store =
        Function.update run.store ptr none ∧
      ∀ address, Foreign run.tables address → heap.memory address = run.heap.memory address := by
  have holds := (mapped.holds block.ptr block.size).mpr held
  rw [atPtr] at holds
  rcases mapped.heapAt.free_returns holds safe returns with ⟨after, heapAfter, takes, keeps⟩
  exact ⟨⟨after, mapped.lose heapAfter takes⟩, mapped.store_lose keeps, keeps.foreign⟩

theorem kfree (mapped : run.Mapped layout) (own : ptr = 0 ∨ ∃ block ∈ run.held, block.ptr = ptr)
    (safe : FreeSafe run.heap ptr) (returns : kmemFree run.heap ptr = .ok heap) :
    run.Becomes (releaseEvent ptr) { run.lose ptr with heap := heap } := by
  by_cases null : ptr = 0
  · subst null
    rw [kmemFree, if_pos rfl] at returns
    cases returns
    rw [mapped.lose_null, releaseEvent, if_pos rfl]
    exact ⟨⟨layout, mapped⟩, .idle, fun _ _ => rfl⟩
  · rcases own.resolve_left null with ⟨block, held, atPtr⟩
    have freed := mapped.free held atPtr safe returns
    have before := mapped.store_mem held
    rw [atPtr] at before
    refine ⟨freed.1, ?_, freed.2.2⟩
    rw [freed.2.1, releaseEvent, if_neg null]
    exact .released before

/-- `krealloc` of a block: a new block is filled from it before it is given back. -/
theorem move (mapped : run.Mapped layout) {block : HeldBlock} (held : block ∈ run.held)
    {moved : ℕ × Liballoc} (small : size + 32 < 2 ^ 32) (positive : size ≠ 0)
    (moves : kmemReallocMove run.heap block.ptr size = .ok moved)
    (safe : FreeSafe moved.2 block.ptr) (returns : kmemFree moved.2 block.ptr = .ok heap) :
    run.Becomes (.resize block.ptr size) ((run.lose block.ptr).gain heap moved.1 size) := by
  have before := mapped.store_mem held
  have holds := (mapped.holds block.ptr block.size).mpr held
  rcases moved with ⟨ptr, middle⟩
  rcases mapped.heapAt.move_returns holds small moves with
    ⟨rfl, nothing, heapAfter, memory⟩ | ⟨after, heapAfter, gives, keeps, copied⟩
  · have still : (run.gain middle 0 0).Mapped layout := mapped.gain_null heapAfter
    have freed := still.free held rfl safe returns
    have same : (run.gain middle 0 0).store = run.store :=
      mapped.store_keeps (keeps_of_memory layout run.tables memory)
    have empty : run.heap.bytes block.ptr block.size = [] := by
      rw [show block.size = 0 by omega]
      rfl
    rw [empty] at before
    rw [same] at freed
    refine ⟨freed.1, ?_, fun _ foreign => (freed.2.2 _ foreign).trans (congrFun memory _)⟩
    have final : ((run.lose block.ptr).gain heap 0 size).store =
        Function.update run.store block.ptr none := freed.2.1
    rw [final]
    exact .notResized before
  · have new : (run.gain middle ptr size).Mapped after := mapped.gain heapAfter gives
    have stillHeld : block ∈ (run.gain middle ptr size).held :=
      (mem_gain gives.notNull).mpr (Or.inr held)
    have freed := new.free stillHeld rfl safe returns
    have different : ptr ≠ block.ptr := by
      rintro rfl
      exact gives.fresh block.size holds
    have same : { (run.gain middle ptr size).lose block.ptr with heap := heap } =
        (run.lose block.ptr).gain heap ptr size := by
      simp [HeapRun.gain, HeapRun.lose, gives.notNull, different]
    rw [same, mapped.store_gain gives.notNull keeps, Function.update_comm different] at freed
    refine ⟨freed.1, ?_, fun address foreign =>
      (freed.2.2 address foreign).trans (keeps.foreign address foreign)⟩
    rw [freed.2.1]
    refine .resized before (mapped.store_fresh gives.fresh) (Liballoc.bytes_length _ _ _) ?_
    rw [Liballoc.bytes_length, Liballoc.bytes_take (by omega), Liballoc.bytes_take (by omega)]
    exact copied

theorem krealloc (mapped : run.Mapped layout) (own : p = 0 ∨ ∃ block ∈ run.held, block.ptr = p)
    (safe : HeapCallSafe run (.krealloc p size))
    (returns : kmemRealloc run.heap p size = .ok (ptr, heap)) :
    run.Becomes (if size = 0 then releaseEvent p else if p = 0 then .allocate size
      else .resize p size) ((run.lose p).gain heap ptr size) := by
  rcases safe with ⟨small, safe⟩
  by_cases nothing : size = 0
  · rw [if_pos nothing] at safe
    rw [kmemRealloc, if_pos nothing] at returns
    rw [if_pos nothing]
    cases freed : kmemFree run.heap p with
    | error halt => simp [freed] at returns
    | ok behind =>
        rw [freed] at returns
        cases returns
        exact mapped.kfree own safe freed
  · rw [if_neg nothing] at safe
    rw [if_neg nothing]
    by_cases null : p = 0
    · subst null
      rw [kmemRealloc, if_neg nothing, if_pos rfl] at returns
      rw [if_pos rfl, mapped.lose_null]
      exact mapped.kmalloc small returns
    · rcases own.resolve_left null with ⟨block, held, rfl⟩
      rw [if_neg null]
      rw [kmemRealloc_eq nothing null] at returns
      cases moves : kmemReallocMove run.heap block.ptr size with
      | error halt => simp [moves, Except.bind] at returns
      | ok moved =>
          rw [moves] at returns
          cases freed : kmemFree moved.2 block.ptr with
          | error halt => simp [Except.bind, freed, Except.map] at returns
          | ok behind =>
              simp only [Except.bind, freed, Except.map, Except.ok.injEq, Prod.mk.injEq] at returns
              rcases returns with ⟨rfl, rfl⟩
              exact mapped.move held small nothing moves (safe moved moves) freed

end HeapRun.Mapped

end Calls

section Others

variable {run : HeapRun} {layout : Layout} {s : Liballoc} {ptr size address : ℕ} {byte : UInt8}

theorem HeapRun.bytes_setByte (fits : address < 2 ^ 32) :
    (run.setByte address byte).heap.bytes ptr size =
      if ptr ≤ address ∧ address < ptr + size then
        (run.heap.bytes ptr size).set (address - ptr) byte
      else run.heap.bytes ptr size := by
  split
  · rename_i inside
    apply List.ext_getElem
    · simp [Liballoc.bytes]
    · intro offset _ below
      simp only [List.getElem_set, Liballoc.bytes, HeapRun.setByte, List.getElem_map,
        List.getElem_range]
      by_cases same : address - ptr = offset
      · have atByte : ptr + offset = address := by omega
        rw [if_pos same, atByte, store8_self fits]
      · rw [if_neg same, store8_of_ne fits (by omega)]
  · rename_i outside
    apply Liballoc.bytes_congr
    intro offset inside
    exact store8_of_ne fits (by omega) byte

/-- Where callers and the paging code may write there are no tags. -/
theorem HeapRun.Mapped.write_apart (mapped : run.Mapped layout) (may : run.MayWrite address)
    {tag : ℕ} (tagMem : tag ∈ cellsOf layout.regions) : address < tag ∨ tag + 32 ≤ address := by
  rcases may with ⟨block, held, above, below⟩ | foreign
  · have holds := (mapped.holds block.ptr block.size).mpr held
    have apart := mapped.heapAt.payload_apart holds tagMem
    omega
  · exact mapped.heapAt.tag_foreign foreign tagMem

/-- What a write looks like from outside: its place in the block that it is in. -/
def HeapRun.writeEvent (run : HeapRun) (address : ℕ) (byte : UInt8) : Event ℕ UInt8 :=
  match run.held.find? (fun block =>
    block.ptr ≤ address ∧ address < block.ptr + block.size) with
  | some block => .write block.ptr (address - block.ptr) byte
  | none => .idle

theorem HeapRun.Mapped.write (mapped : run.Mapped layout) (fits : address < 2 ^ 32)
    (may : run.MayWrite address) (byte : UInt8) :
    (∃ after, (run.setByte address byte).Mapped after) ∧ BlockStore.Step 0 run.store
      (run.writeEvent address byte) (run.setByte address byte).store := by
  have heapAfter : HeapAt { run.heap with memory := store8 run.heap.memory address byte } layout
      run.tables := by
    apply mapped.heapAt.write
    intro tag member place above below
    have apart := mapped.write_apart may member
    exact store8_of_ne fits (by omega) byte
  refine ⟨⟨layout, heapAfter, mapped.holds, mapped.nodup⟩, ?_⟩
  rw [HeapRun.writeEvent]
  cases found : run.held.find? (fun block =>
      block.ptr ≤ address ∧ address < block.ptr + block.size) with
  | none =>
      have outside := List.find?_eq_none.mp found
      have same : (run.setByte address byte).store = run.store := by
        apply storeOf_congr
        intro block member
        have notIn := outside block member
        simp only [decide_eq_true_eq] at notIn
        rw [HeapRun.bytes_setByte fits, if_neg notIn]
      rw [same]
      exact .idle
  | some block =>
      have held := List.mem_of_find?_eq_some found
      have inside : block.ptr ≤ address ∧ address < block.ptr + block.size := by
        simpa using List.find?_some found
      have holds := (mapped.holds block.ptr block.size).mpr held
      have before := mapped.store_mem held
      have same : (run.setByte address byte).store = Function.update run.store block.ptr
          (some ((run.heap.bytes block.ptr block.size).set (address - block.ptr) byte)) := by
        funext other
        by_cases atBlock : other = block.ptr
        · have stillHeld : block ∈ (run.setByte address byte).held := held
          have only : ∀ next ∈ (run.setByte address byte).held, next.ptr = block.ptr →
              next = block := fun _ nextMem => mapped.unique held nextMem
          rw [atBlock, Function.update_self, HeapRun.store, storeOf_mem stillHeld only,
            HeapRun.bytes_setByte fits, if_pos inside]
        · rw [Function.update_of_ne atBlock]
          apply Option.map_congr
          intro next isNext
          have nextHeld := List.mem_of_find?_eq_some isNext
          have atNext : next.ptr = other := by simpa using List.find?_some isNext
          have nextHolds := (mapped.holds next.ptr next.size).mpr nextHeld
          have apart := mapped.heapAt.holds_apart holds nextHolds (by omega)
          rw [HeapRun.bytes_setByte fits, if_neg (by omega)]
      rw [same]
      refine .written before ?_
      rw [Liballoc.bytes_length]
      omega

/-- The paging code gets a page, or gets none. -/
theorem HeapRun.Mapped.tablePage (mapped : run.Mapped layout) {kmem : Kmem}
    (returns : kmemLiballocAlloc run.heap.kmem 1 = .ok (some ptr, kmem)) :
    run.Becomes .idle
      { run with heap := run.heap.setKmem kmem, tables := ⟨ptr, 1⟩ :: run.tables } := by
  have heapAt := mapped.heapAt
  have backed := (heapAt.backed.alloc (by decide) returns).perm List.perm_middle
  exact ⟨⟨layout, ⟨heapAt.shape.of_same (fun _ _ _ => rfl) rfl, heapAt.sound, heapAt.counted,
    heapAt.atMost, backed, heapAt.empty⟩, mapped.holds, mapped.nodup⟩, .idle, fun _ _ => rfl⟩

theorem HeapRun.Mapped.noTablePage (mapped : run.Mapped layout) {kmem : Kmem}
    (returns : kmemLiballocAlloc run.heap.kmem 1 = .ok (none, kmem)) :
    run.Becomes .idle { run with heap := run.heap.setKmem kmem } := by
  have heapAt := mapped.heapAt
  rcases heapAt.backed.tiled with ⟨entries, chain, _⟩
  rcases kmemLiballocAlloc_outcome 1 chain with ⟨result, after, equation, outcome⟩
  rw [returns] at equation
  cases equation
  cases outcome
  exact ⟨⟨layout, mapped⟩, .idle, fun _ _ => rfl⟩

end Others

/-- What a call looks like from outside. -/
def HeapRun.event (run : HeapRun) : HeapCall → Event ℕ UInt8
  | .kmalloc size => .allocate size
  | .kcalloc count size => .clear (count * size % 2 ^ 32)
  | .krealloc p size =>
      if size = 0 then releaseEvent p else if p = 0 then .allocate size else .resize p size
  | .kfree ptr => releaseEvent ptr
  | .tablePage => .idle
  | .write address byte => run.writeEvent address byte

/-- One step of the system: the heap has a map again, and the store has made the step. -/
theorem HeapRun.Mapped.step {run after : HeapRun} {layout : Layout} {call : HeapCall}
    (mapped : run.Mapped layout) (safe : HeapCallSafe run call) (step : HeapStep run call after) :
    (∃ layout, after.Mapped layout) ∧ BlockStore.Step 0 run.store (run.event call) after.store ∧
      ∀ address, Foreign run.tables address → (∀ byte, call ≠ .write address byte) →
        after.heap.memory address = run.heap.memory address := by
  have of_becomes : run.Becomes (run.event call) after → (∃ layout, after.Mapped layout) ∧
      BlockStore.Step 0 run.store (run.event call) after.store ∧
        ∀ address, Foreign run.tables address → (∀ byte, call ≠ .write address byte) →
          after.heap.memory address = run.heap.memory address :=
    fun becomes =>
      ⟨becomes.mapped, becomes.stepped, fun address foreign _ => becomes.foreign address foreign⟩
  cases step with
  | kmalloc returns => exact of_becomes (mapped.kmalloc safe returns)
  | kcalloc returns => exact of_becomes (mapped.kcalloc safe returns)
  | krealloc own returns => exact of_becomes (mapped.krealloc own safe returns)
  | kfree own returns => exact of_becomes (mapped.kfree own safe returns)
  | tablePage returns => exact of_becomes (mapped.tablePage returns)
  | noTablePage returns => exact of_becomes (mapped.noTablePage returns)
  | @write address byte fits may =>
      have written := mapped.write fits may byte
      refine ⟨written.1, written.2, ?_⟩
      intro address _ notWritten
      apply store8_of_ne fits
      rintro rfl
      exact notWritten _ rfl

/-- At first there is nothing in the heap. -/
theorem heapSystem_init {run : HeapRun} (starts : heapSystem.Init run) :
    run.Mapped ⟨[], fun _ => .pending, fun _ => []⟩ := by
  rcases starts with ⟨memory, flags, rfl⟩
  have backed : Backed (memoryKernelInit Kmem.bss kernelHeap) [] :=
    ⟨[], List.Perm.refl _, .init rfl⟩
  refine ⟨⟨⟨⟨?_, ?_, List.Pairwise.nil⟩, ?_, ?_, ?_, ?_, fun _ => Linked.doubly_nil, fun _ => rfl,
    fun _ => List.nodup_nil, ?_⟩, ?_, fun _ => rfl, fun _ => Nat.zero_le _, backed, fun _ => rfl⟩,
    ?_, List.nodup_nil⟩
  all_goals simp [cellsOf, chunksOf, Layout.Holds, HoldsIn]

/-- In every run the heap has a map that shows what its callers hold. -/
theorem heap_mapped {run : HeapRun} (reached : heapSystem.ReachableWhen HeapCallSafe run) :
    ∃ layout, run.Mapped layout := by
  apply System.ReachableWhen.invariant _ _ reached
  · intro run starts
    exact ⟨_, heapSystem_init starts⟩
  · intro run call after mapped safe step
    rcases mapped with ⟨layout, mapped⟩
    exact (mapped.step safe step).1

theorem heap_starts_empty {run : HeapRun} (starts : heapSystem.Init run) :
    (BlockStore.system 0).Init run.store := by
  rcases starts with ⟨memory, flags, rfl⟩
  rfl

/-- A call in a run is an event of the store that the callers see. -/
theorem heap_step_event {run after : HeapRun} {call : HeapCall}
    (reached : heapSystem.ReachableWhen HeapCallSafe run) (safe : HeapCallSafe run call)
    (step : HeapStep run call after) :
    BlockStore.Step 0 run.store (run.event call) after.store := by
  rcases heap_mapped reached with ⟨layout, mapped⟩
  exact (mapped.step safe step).2.1

/-- What is foreign to the heap changes only when it is written to. -/
theorem heap_step_foreign {run after : HeapRun} {call : HeapCall}
    (reached : heapSystem.ReachableWhen HeapCallSafe run) (safe : HeapCallSafe run call)
    (step : HeapStep run call after) :
    ∀ address, Foreign run.tables address → (∀ byte, call ≠ .write address byte) →
      after.heap.memory address = run.heap.memory address := by
  rcases heap_mapped reached with ⟨layout, mapped⟩
  exact (mapped.step safe step).2.2

end Osserver
