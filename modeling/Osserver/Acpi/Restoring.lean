import Osserver.Acpi.Init
import Osserver.Acpi.Search
import Osserver.Acpi.TablePaths
import Osserver.Paging.Bracket

/-!
# What `acpi_init` leaves mapped

Each function that maps a window unmaps it with the same address and size on every path on
which it returns, except the searches, whose window `acpi_init` unmaps. So what returns has
restored the page tables: for a table, for the loop over all tables, for a root table and
for `acpi_init`.
-/

namespace Osserver

open Loop Bytes Outcome

section Panics

variable {alloc : ℕ → Option ℕ} {s t : Paging} {phys virt size : ℕ} {message : String}

theorem mapOrPanic_eq_ok :
    mapOrPanic alloc s phys virt size message = .ok t ↔
      pagingMap alloc s phys virt size 0 = .ok (true, t) := by
  rw [mapOrPanic]
  split
  · simp [*]
  · simp [*]
  · simp [*]

theorem unmapOrPanic_eq_ok :
    unmapOrPanic s virt size message = .ok t ↔ pagingUnmap s virt size = .ok (true, t) := by
  rw [unmapOrPanic]
  split
  · simp [*]
  · simp [*]
  · simp [*]

theorem acpiMapHeader_eq (address : ℕ) :
    acpiMapHeader alloc s address =
      mapOrPanic alloc s address rsdtWindow 4096 "Cannot map ACPI rsdt" := rfl

theorem acpiMapTable_eq (address len : ℕ) :
    acpiMapTable alloc s address len = (do
      let unmapped ← unmapOrPanic s rsdtWindow 4096 "Cannot unmap ACPI rsdt"
      mapOrPanic alloc unmapped address rsdtWindow len "Cannot map again ACPI rsdt") := by
  rw [acpiMapTable, unmapOrPanic]
  cases pagingUnmap s rsdtWindow 4096 with
  | error halt => rfl
  | ok outcome =>
      rcases outcome with ⟨_ | _, unmapped⟩
      · rfl
      · rfl

theorem acpiUnmapTable_eq (len : ℕ) :
    acpiUnmapTable s len = unmapOrPanic s rsdtWindow len "Cannot unmap again ACPI rsdt" := rfl

/-- What `acpi_parse_rsdt` does with a table whose header is mapped, step by step. -/
theorem acpiParseMapped_eq (c : AcpiContext) (address : ℕ) (state : TableState) :
    (acpiParseMapped c address state).2 = (do
      let len ← fetch (readFrom state.paging state.acpi.devices c.ram (windowAt address)) 4 4
      let table ← acpiMapTable c.alloc state.paging address len
      let parsed ← parseAt c (windowAt address) { state with paging := table }
      let paging ← acpiUnmapTable parsed.paging len
      return { parsed with paging := paging }) := by
  simp only [acpiParseMapped, bind, Except.bind]
  cases fetch (readFrom state.paging state.acpi.devices c.ram (windowAt address)) 4 4 with
  | error halt => rfl
  | ok len =>
      simp only
      cases acpiMapTable c.alloc state.paging address len with
      | error halt => rfl
      | ok table =>
          simp only
          cases parseAt c (windowAt address) { state with paging := table } with
          | error halt => rfl
          | ok parsed =>
              simp only
              cases acpiUnmapTable parsed.paging len with
              | error halt => rfl
              | ok paging => rfl

theorem rsdtVisit_eq (c : AcpiContext) (address : ℕ) (state : TableState) :
    (rsdtVisit c address state).2 = (do
      let header ← acpiMapHeader c.alloc state.paging address
      (acpiParseMapped c address { state with paging := header }).2) := by
  simp only [rsdtVisit, bind, Except.bind]
  cases acpiMapHeader c.alloc state.paging address with
  | error halt => rfl
  | ok header => rfl

end Panics

section Visits

variable {bootPages : ℕ} {c : AcpiContext} {address : ℕ} {state next : TableState}

theorem rsdtVisit_restored (heapPages : HeapPages c.alloc)
    (consistent : Consistent bootPages state.paging)
    (returns : (rsdtVisit c address state).2 = .ok next) :
    Restored c.alloc state.paging next.paging := by
  rw [rsdtVisit_eq] at returns
  rcases bind_eq_ok.mp returns with ⟨header, mapsHeader, returns⟩
  rw [acpiParseMapped_eq] at returns
  rcases bind_eq_ok.mp returns with ⟨len, fetches, returns⟩
  rcases bind_eq_ok.mp returns with ⟨table, mapsTable, returns⟩
  rcases bind_eq_ok.mp returns with ⟨parsed, parses, returns⟩
  rcases bind_eq_ok.mp returns with ⟨paging, unmaps, returns⟩
  cases returns
  rcases acpiMapTable_maps mapsTable with ⟨unmapped, unmapsHeader, maps⟩
  rw [acpiUnmapTable_eq, parseAt_paging parses] at unmaps
  have below : rsdtWindow < 0xC0400000 := by decide
  have first := Restored.bracket heapPages consistent below (by omega)
    (acpiMapHeader_maps mapsHeader) (.refl header) unmapsHeader
  have second := Restored.bracket heapPages (first.consistent _ consistent) below (fetch_lt fetches)
    maps (.refl table) (unmapOrPanic_eq_ok.mp unmaps)
  exact first.trans second

theorem xsdtVisit_restored (returns : (xsdtVisit c address state).2 = .ok next) :
    Restored c.alloc state.paging next.paging := by
  rw [parseAt_paging returns]
  exact .refl _

end Visits

section Walk

variable {c : AcpiContext} {visit : ℕ → TableState → List TableEvent × Except Halt TableState}
  {width stop root : ℕ} {walk : TableWalk} {state final : TableState}

/-- A pass of the loop over the tables fails to read the entry, or visits its table, or is at
the end. -/
theorem tablesPass_cases :
    (∃ halt, fetch (readFrom walk.state.paging walk.state.acpi.devices c.ram walk.start) 0 width =
        .error halt ∧ (tablesPass c visit width stop walk).2 = .done (.error halt)) ∨
      (∃ address halt, (visit address walk.state).2 = .error halt ∧
        (tablesPass c visit width stop walk).2 = .done (.error halt)) ∨
      (∃ address next, (visit address walk.state).2 = .ok next ∧
        (tablesPass c visit width stop walk).2 = .again ⟨(walk.start + width) % 2 ^ 32, next⟩) ∨
      (tablesPass c visit width stop walk).2 = .done (.ok walk.state) := by
  rw [tablesPass]
  split_ifs
  · cases fetches : fetch (readFrom walk.state.paging walk.state.acpi.devices c.ram walk.start) 0
        width with
    | error halt => exact Or.inl ⟨halt, rfl, rfl⟩
    | ok address =>
        right
        cases visits : (visit address walk.state).2 with
        | error halt =>
            refine Or.inl ⟨address, halt, visits, ?_⟩
            simp only [visits]
        | ok next =>
            refine Or.inr (Or.inl ⟨address, next, visits, ?_⟩)
            simp only [visits]
  · exact Or.inr (Or.inr (Or.inr rfl))

/-- What every visit of a table keeps holds at every pass of the loop. -/
theorem tablesPass_invariant {invariant : TableState → Prop}
    (preserved : ∀ address s s', invariant s → (visit address s).2 = .ok s' → invariant s')
    {start : TableWalk} (holds : invariant start.state)
    (visits : Visits (fun walk => (tablesPass c visit width stop walk).2) start walk) :
    invariant walk.state := by
  apply @Visits.invariant _ _ _ _ _ (fun walk => invariant walk.state) visits holds
  intro walk walk' holds goesOn
  rcases @tablesPass_cases c visit width stop walk with ⟨halt, _, pass⟩ | ⟨_, halt, _, pass⟩ |
    ⟨address, next, visited, pass⟩ | pass
  · rw [pass] at goesOn
    cases goesOn
  · rw [pass] at goesOn
    cases goesOn
  · rw [pass] at goesOn
    cases goesOn
    exact preserved address _ _ holds visited
  · rw [pass] at goesOn
    cases goesOn

/-- The loop ends with its last pass, unless the length of the root table is not read or the
passes do not end. -/
theorem parseRoot_cases :
    (∃ halt, fetch (readFrom state.paging state.acpi.devices c.ram root) 4 4 = .error halt ∧
        (parseRoot c visit width root state).2 = .error halt) ∨
      (parseRoot c visit width root state).2 = .error .endlessLoop ∨
      ∃ stop start walk,
        Visits (fun walk => (tablesPass c visit width stop walk).2) ⟨start, state⟩ walk ∧
          (tablesPass c visit width stop walk).2 = .done (parseRoot c visit width root state).2 := by
  rw [parseRoot]
  cases fetches : fetch (readFrom state.paging state.acpi.devices c.ram root) 4 4 with
  | error halt => exact Or.inl ⟨halt, rfl, rfl⟩
  | ok length =>
      right
      cases ends : run (fun walk => (tablesPass c visit width ((root + length) % 2 ^ 32) walk).2)
          (2 ^ 30 + 1) ⟨(root + 36) % 2 ^ 32, state⟩ with
      | none =>
          left
          simp only [ends, Option.getD_none]
      | some result =>
          right
          rcases exists_last ends with ⟨walk, visits, done⟩
          refine ⟨_, _, walk, visits, ?_⟩
          simp only [ends, Option.getD_some]
          exact done

/-- What every visit of a table keeps is kept by the loop. -/
theorem parseRoot_invariant {invariant : TableState → Prop}
    (preserved : ∀ address s s', invariant s → (visit address s).2 = .ok s' → invariant s')
    (holds : invariant state) (returns : (parseRoot c visit width root state).2 = .ok final) :
    invariant final := by
  rcases @parseRoot_cases c visit width root state with ⟨halt, _, fails⟩ | fails |
    ⟨stop, start, walk, visits, done⟩
  · rw [fails] at returns
    cases returns
  · rw [fails] at returns
    cases returns
  · rw [returns] at done
    rcases @tablesPass_cases c visit width stop walk with ⟨halt, _, pass⟩ | ⟨_, halt, _, pass⟩ |
      ⟨address, next, _, pass⟩ | pass
    · rw [pass] at done
      cases done
    · rw [pass] at done
      cases done
    · rw [pass] at done
      cases done
    · rw [pass] at done
      cases done
      exact tablesPass_invariant preserved holds visits

end Walk

section Root

variable {bootPages : ℕ} {c : AcpiContext} {root : ℕ} {s s' : Paging} {acpi acpi' : Acpi}
  {final : TableState}

theorem acpiParseRsdt_restored (heapPages : HeapPages c.alloc)
    (consistent : Consistent bootPages s) (returns : (acpiParseRsdt c root s acpi).2 = .ok final) :
    Restored c.alloc s final.paging := by
  refine @parseRoot_invariant _ _ _ _ _ _ (fun state => Restored c.alloc s state.paging) ?_
    (.refl s) returns
  intro address state next restored visited
  exact restored.trans
    (rsdtVisit_restored heapPages (restored.consistent _ consistent) visited)

theorem acpiParseXsdt_restored (returns : (acpiParseXsdt c root s acpi).2 = .ok final) :
    Restored c.alloc s final.paging := by
  refine @parseRoot_invariant _ _ _ _ _ _ (fun state => Restored c.alloc s state.paging) ?_
    (.refl s) returns
  intro address state next restored visited
  exact restored.trans (xsdtVisit_restored visited)

theorem acpiParseRootTable_restored {panics : RootPanics} {address : ℕ}
    {parse : ℕ → Paging → Acpi → List TableEvent × Except Halt TableState}
    (heapPages : HeapPages c.alloc) (consistent : Consistent bootPages s)
    (restores : ∀ root s acpi final, Consistent bootPages s →
      (parse root s acpi).2 = .ok final → Restored c.alloc s final.paging)
    (returns : acpiParseRootTable c panics parse address s acpi = .ok (s', acpi')) :
    Restored c.alloc s s' := by
  rw [acpiParseRootTable] at returns
  rcases bind_eq_ok.mp returns with ⟨header, mapsHeader, returns⟩
  rcases bind_eq_ok.mp returns with ⟨length, fetches, returns⟩
  rcases bind_eq_ok.mp returns with ⟨unmapped, unmapsHeader, returns⟩
  rcases bind_eq_ok.mp returns with ⟨table, mapsTable, returns⟩
  rcases bind_eq_ok.mp returns with ⟨parsed, parses, returns⟩
  rcases bind_eq_ok.mp returns with ⟨u, unmapsTable, returns⟩
  cases returns
  rw [mapOrPanic_eq_ok] at mapsHeader mapsTable
  rw [unmapOrPanic_eq_ok] at unmapsHeader unmapsTable
  have below : rootWindow < 0xC0400000 := by decide
  have first := Restored.bracket heapPages consistent below (by omega) mapsHeader (.refl header)
    unmapsHeader
  have unmappedConsistent := first.consistent _ consistent
  have tableConsistent := unmappedConsistent.step (.map heapPages mapsTable)
  have second := Restored.bracket heapPages unmappedConsistent below (fetch_lt fetches) mapsTable
    (restores _ _ _ _ tableConsistent parses) unmapsTable
  exact first.trans second

theorem acpiParseRsdp_restored {ptr : ℕ} {result : Bool} (heapPages : HeapPages c.alloc)
    (consistent : Consistent bootPages s)
    (returns : acpiParseRsdp c ptr s acpi = .ok (result, s', acpi')) :
    Restored c.alloc s s' := by
  have rsdt : ∀ root s acpi final, Consistent bootPages s →
      (acpiParseRsdt c root s acpi).2 = .ok final → Restored c.alloc s final.paging :=
    fun _ _ _ _ consistent parses => acpiParseRsdt_restored heapPages consistent parses
  have xsdt : ∀ root s acpi final, Consistent bootPages s →
      (acpiParseXsdt c root s acpi).2 = .ok final → Restored c.alloc s final.paging :=
    fun _ _ _ _ _ parses => acpiParseXsdt_restored parses
  rw [acpiParseRsdp] at returns
  rcases bind_eq_ok.mp returns with ⟨sum, _, returns⟩
  split_ifs at returns
  · cases returns
    exact .refl s
  · rcases bind_eq_ok.mp returns with ⟨⟨u, acpiAfter⟩, parses, returns⟩
    cases returns
    rw [acpiParseVersion] at parses
    rcases bind_eq_ok.mp parses with ⟨revision, _, parses⟩
    split_ifs at parses
    · rcases bind_eq_ok.mp parses with ⟨rsdtAddr, _, parses⟩
      exact acpiParseRootTable_restored heapPages consistent rsdt parses
    · rcases bind_eq_ok.mp parses with ⟨rsdtAddr, _, parses⟩
      rcases bind_eq_ok.mp parses with ⟨xsdtAddr, _, parses⟩
      split_ifs at parses
      · exact acpiParseRootTable_restored heapPages consistent xsdt parses
      · exact acpiParseRootTable_restored heapPages consistent rsdt parses

/-- A search that finds the root pointer leaves its window mapped; one that does not has
unmapped it. -/
theorem searchRsdp_cases {mapPanic unmapPanic : String} {phys size base count ptr : ℕ}
    {alloc : ℕ → Option ℕ} {ram : ℕ → UInt8}
    (returns : searchRsdp mapPanic unmapPanic phys size base count alloc ram s = .ok (ptr, s')) :
    ∃ mapped, pagingMap alloc s phys pagingDevmapStart size 0 = .ok (true, mapped) ∧
      ((∃ offset < count * 16, ptr = pagingDevmapStart + base + offset ∧ s' = mapped) ∨
        (ptr = 0 ∧ pagingUnmap mapped pagingDevmapStart size = .ok (true, s'))) := by
  rw [searchRsdp] at returns
  rcases bind_eq_ok.mp returns with ⟨mapped, maps, returns⟩
  rcases bind_eq_ok.mp returns with ⟨found, searches, returns⟩
  refine ⟨mapped, mapOrPanic_eq_ok.mp maps, ?_⟩
  cases found with
  | some offset =>
      cases returns
      rcases searchRsdpLoop_some searches with ⟨k, inside, atPlace, _⟩
      exact Or.inl ⟨offset, by omega, rfl, rfl⟩
  | none =>
      rcases bind_eq_ok.mp returns with ⟨unmapped, unmaps, returns⟩
      cases returns
      exact Or.inr ⟨rfl, unmapOrPanic_eq_ok.mp unmaps⟩

theorem pagingDevmapStart_low : pagingDevmapStart < 0xC0400000 := by
  decide

/-- What follows a search that has found the root pointer closes its window. -/
theorem searchRsdp_restored {mapPanic unmapPanic : String} {phys size base count ptr : ℕ}
    {ram : ℕ → UInt8} {t u : Paging} (heapPages : HeapPages c.alloc)
    (consistent : Consistent bootPages s) (word : size < 2 ^ 32)
    (searches : searchRsdp mapPanic unmapPanic phys size base count c.alloc ram s = .ok (ptr, t))
    (found : ptr ≠ 0) {result : Bool} (parses : acpiParseRsdp c ptr t acpi = .ok (result, u, acpi'))
    (unmaps : pagingUnmap u pagingDevmapStart size = .ok (true, s')) : Restored c.alloc s s' := by
  rcases searchRsdp_cases searches with ⟨mapped, maps, ⟨offset, _, _, rfl⟩ | ⟨isNull, _⟩⟩
  · have mappedConsistent := consistent.step (.map heapPages maps)
    exact Restored.bracket heapPages consistent pagingDevmapStart_low word maps
      (acpiParseRsdp_restored heapPages mappedConsistent parses) unmaps
  · exact absurd isNull found

/-- A search that has not found the root pointer has closed its window. -/
theorem searchRsdp_null_restored {mapPanic unmapPanic : String} {phys size base count : ℕ}
    {alloc : ℕ → Option ℕ} {ram : ℕ → UInt8} (heapPages : HeapPages alloc)
    (consistent : Consistent bootPages s) (word : size < 2 ^ 32)
    (searches : searchRsdp mapPanic unmapPanic phys size base count alloc ram s = .ok (0, s')) :
    Restored alloc s s' := by
  rcases searchRsdp_cases searches with ⟨mapped, maps, ⟨offset, _, isNull, _⟩ | ⟨_, unmaps⟩⟩
  · rw [pagingDevmapStart] at isNull
    omega
  · exact Restored.bracket heapPages consistent pagingDevmapStart_low word maps (.refl mapped)
      unmaps

/-- When `acpi_init` returns, it has restored the page tables. -/
theorem acpiInit_restored (heapPages : HeapPages c.alloc) (consistent : Consistent bootPages s)
    (returns : acpiInit c s acpi = .ok (s', acpi')) : Restored c.alloc s s' := by
  rw [acpiInit, searchRsdpBios_eq] at returns
  rcases bind_eq_ok.mp returns with ⟨⟨ptr, t⟩, bios, returns⟩
  simp only at returns
  split_ifs at returns with isNull
  · subst isNull
    have unfound := searchRsdp_null_restored heapPages consistent (by omega) bios
    rcases bind_eq_ok.mp returns with ⟨⟨ptr, u⟩, ebda, returns⟩
    simp only at returns
    split_ifs at returns with isNull
    rcases bind_eq_ok.mp returns with ⟨⟨result, v, acpiAfter⟩, parses, returns⟩
    rcases bind_eq_ok.mp returns with ⟨w, unmaps, returns⟩
    cases returns
    exact unfound.trans (searchRsdp_restored heapPages (unfound.consistent _ consistent)
      (by omega) ebda isNull parses (unmapOrPanic_eq_ok.mp unmaps))
  · rcases bind_eq_ok.mp returns with ⟨⟨result, v, acpiAfter⟩, parses, returns⟩
    rcases bind_eq_ok.mp returns with ⟨w, unmaps, returns⟩
    cases returns
    exact searchRsdp_restored heapPages consistent (by omega) bios isNull parses
      (unmapOrPanic_eq_ok.mp unmaps)

end Root

end Osserver
