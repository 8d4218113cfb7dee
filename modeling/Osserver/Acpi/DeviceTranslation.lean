import Osserver.Acpi.Tables
import Osserver.Paging.Safety

/-!
# Where the pages for devices lead to

What the processor finds behind the addresses that a sequence of calls of
`kernel_map_device_map` returns. Each call has an entry of `dev_page` for itself, and
the entry leads to the page of the device; the address that is returned is the first
one of the page.
-/

namespace Osserver

/-- `kdevmap_index` and `dev_page` as the kernel starts with them. -/
def DeviceMap.boot : DeviceMap where
  kdevmapIndex := 0
  devPage := fun _ => 0

/-- A sequence of calls of `kernel_map_device_map`, with the addresses they return. -/
def kernelMapDeviceMaps (s : DeviceMap) : List ℕ → Except Halt (List ℕ × DeviceMap)
  | [] => .ok ([], s)
  | ptr :: ptrs =>
      match kernelMapDeviceMap s ptr with
      | .error halt => .error halt
      | .ok (address, s) =>
          match kernelMapDeviceMaps s ptrs with
          | .error halt => .error halt
          | .ok (addresses, s) => .ok (address :: addresses, s)

/-- After each of the calls every address returned so far leads to what its call has asked
for, and no two of them lie on one page. -/
def DevicesResolve (s : Paging) (ptrs : List ℕ) : Prop :=
  ∀ count ≤ ptrs.length, ∃ (addresses : List ℕ) (devices : DeviceMap),
    kernelMapDeviceMaps .boot (ptrs.take count) = .ok (addresses, devices) ∧
      addresses.length = count ∧ (addresses.map (· / 4096)).Nodup ∧
      ∀ (i ptr : ℕ), (ptrs.take count)[i]? = some ptr →
        ∃ address, addresses[i]? = some address ∧ translate s devices address = some ptr

/-- A sequence of calls that has room hands out the next entries in order, and leaves the
entries handed out before alone. -/
theorem kernelMapDeviceMaps_ok {s : DeviceMap} {ptrs : List ℕ}
    (room : s.kdevmapIndex + ptrs.length ≤ 1024) :
    ∃ devices, kernelMapDeviceMaps s ptrs =
        .ok ((List.range' s.kdevmapIndex ptrs.length).map deviceAddress, devices) ∧
      (∀ i ptr, ptrs[i]? = some ptr →
        devices.devPage (s.kdevmapIndex + i) = frame ptr ||| 3) ∧
      ∀ index < s.kdevmapIndex, devices.devPage index = s.devPage index := by
  induction ptrs generalizing s with
  | nil => exact ⟨s, rfl, by simp, fun _ _ => rfl⟩
  | cons ptr ptrs ih =>
      rw [List.length_cons] at room
      let next : DeviceMap :=
        ⟨s.kdevmapIndex + 1, Function.update s.devPage s.kdevmapIndex (frame ptr ||| 3)⟩
      have call : kernelMapDeviceMap s ptr = .ok (deviceAddress s.kdevmapIndex, next) :=
        if_neg (by omega)
      have nextIndex : next.kdevmapIndex = s.kdevmapIndex + 1 := rfl
      rcases @ih next (by omega) with ⟨devices, calls, entered, kept⟩
      rw [nextIndex] at calls entered kept
      refine ⟨devices, ?_, ?_, ?_⟩
      · simp only [kernelMapDeviceMaps, call, calls, List.length_cons, List.range'_succ,
          List.map_cons]
      · intro i other isAt
        rcases i with _ | i
        · have same : ptr = other := by simpa using isAt
          rw [← same, Nat.add_zero, kept _ (Nat.lt_succ_self _)]
          exact Function.update_self ..
        · have word := entered i other (by simpa using isAt)
          rw [← word]
          congr 1
          omega
      · intro index below
        rw [kept index (Nat.lt_succ_of_lt below)]
        exact Function.update_of_ne (Nat.ne_of_lt below) ..

/-- An address of an entry of `dev_page` leads to the first byte of the entry's page. -/
theorem translate_deviceAddress {bootPages index ptr : ℕ} {s : Paging} {devices : DeviceMap}
    (consistent : Consistent bootPages s) (aligned : bootPages % 4096 = 0) (inside : index < 1024)
    (word : devices.devPage index = frame ptr ||| 3) :
    translate s devices (deviceAddress index) = some (frame ptr) := by
  have slot : pdindex (deviceAddress index) = 778 := by
    rw [pdindex, deviceAddress]
    omega
  have entry : ptindex (deviceAddress index) = index := by
    rw [ptindex, deviceAddress]
    omega
  have first : deviceAddress index % 4096 = 0 := by
    rw [deviceAddress]
    omega
  have dirWord : s.pagingDir 778 = bootPages + 32768 + 3 := by
    rw [(consistent.kernelSlots 778 (by omega)).1]
    simp [bootPageDirectory]
  have present : (frame ptr ||| 3) % 2 = 1 := by
    have odd : (frame ptr ||| 3) % 2 ^ 1 = frame ptr % 2 ^ 1 ||| 3 % 2 ^ 1 := Nat.or_mod_two_pow
    have even : frame ptr % 2 = 0 := by
      rw [frame]
      omega
    have bits : (frame ptr ||| 3) % 2 = frame ptr % 2 ||| 1 := odd
    rw [bits, even]
    rfl
  have samePage : frame (frame ptr) = frame ptr := by
    simp only [frame]
    omega
  have notUser : ¬778 < 768 := by omega
  have isPresent : ¬(bootPages + 32768 + 3) % 2 = 0 := by omega
  have notLarge : ¬(bootPages + 32768 + 3) / 128 % 2 = 1 := by omega
  rw [translate, slot, if_neg notUser, dirWord, if_neg isPresent, if_neg notLarge, if_pos rfl,
    entry, word, pageOf, if_pos present, frame_or_small _ (by omega), samePage, first, Nat.add_zero]

theorem deviceAddress_page (index : ℕ) : deviceAddress index / 4096 = 0xC2800 + index := by
  rw [deviceAddress]
  omega

/-- The mappings of a sequence of calls resolve exactly when every device is asked for by an
address on a page. -/
theorem devicesResolve_iff {bootPages : ℕ} {s : Paging} {ptrs : List ℕ}
    (consistent : Consistent bootPages s) (aligned : bootPages % 4096 = 0)
    (short : ptrs.length ≤ 1024) :
    DevicesResolve s ptrs ↔ ∀ ptr ∈ ptrs, ptr % 4096 = 0 := by
  have calls : ∀ count ≤ ptrs.length, ∃ devices,
      kernelMapDeviceMaps .boot (ptrs.take count) =
        .ok ((List.range' 0 count).map deviceAddress, devices) ∧
      ∀ i ptr, (ptrs.take count)[i]? = some ptr →
        ((List.range' 0 count).map deviceAddress)[i]? = some (deviceAddress i) ∧
          translate s devices (deviceAddress i) = some (frame ptr) := by
    intro count upTo
    have length : (ptrs.take count).length = count := List.length_take_of_le upTo
    have room : DeviceMap.boot.kdevmapIndex + (ptrs.take count).length ≤ 1024 := by
      have first : DeviceMap.boot.kdevmapIndex = 0 := rfl
      omega
    rcases kernelMapDeviceMaps_ok room with ⟨devices, returns, entered, _⟩
    rw [length] at returns
    refine ⟨devices, returns, ?_⟩
    intro i ptr isAt
    rcases List.getElem?_eq_some_iff.mp isAt with ⟨inside, _⟩
    rw [length] at inside
    have word := entered i ptr isAt
    simp only [DeviceMap.boot, Nat.zero_add] at word
    refine ⟨by simp [inside], translate_deviceAddress consistent aligned (by omega) word⟩
  constructor
  · intro resolve ptr member
    rcases List.mem_iff_getElem?.mp member with ⟨i, isAt⟩
    rcases resolve ptrs.length (Nat.le_refl _) with ⟨addresses, devices, returns, _, _, leads⟩
    rcases calls ptrs.length (Nat.le_refl _) with ⟨_, returnsToo, leadsToo⟩
    rw [returns] at returnsToo
    cases returnsToo
    rw [List.take_length] at leads leadsToo
    rcases leads i ptr isAt with ⟨address, atAddress, toPtr⟩
    have page := leadsToo i ptr isAt
    rw [page.1] at atAddress
    cases atAddress
    rw [page.2, Option.some.injEq, frame] at toPtr
    omega
  · intro pages count upTo
    rcases calls count upTo with ⟨devices, returns, leads⟩
    refine ⟨_, devices, returns, by simp, ?_, ?_⟩
    · rw [List.map_map]
      refine List.Nodup.map ?_ List.nodup_range'
      intro index other same
      simp only [Function.comp_apply, deviceAddress_page] at same
      omega
    · intro i ptr isAt
      have onPage := pages ptr (List.mem_of_mem_take (List.mem_of_getElem? isAt))
      have samePtr : frame ptr = ptr := by
        rw [frame]
        omega
      rw [← samePtr]
      exact ⟨_, leads i ptr isAt⟩

/-- The usual addresses of the local APIC and of the first IOAPIC. -/
theorem devicesResolve_iff_apics :
    DevicesResolve (kernelPremainPaging 0x200000 0x100000 (fun _ => 0) (fun _ _ => 0))
      [0xFEE00000, 0xFEC00000] :=
  (devicesResolve_iff Consistent.init (by omega) (by decide)).mpr (by decide)

/-- An IOAPIC 1 KiB behind another one: the address that is returned leads to the other. -/
theorem devicesResolve_not_inside_page :
    ∃ devices, kernelMapDeviceMaps .boot [0xFEC00400] = .ok ([0xC2800000], devices) ∧
      translate (kernelPremainPaging 0x200000 0x100000 (fun _ => 0) (fun _ _ => 0)) devices
        0xC2800000 = some 0xFEC00000 ∧
      ¬DevicesResolve (kernelPremainPaging 0x200000 0x100000 (fun _ => 0) (fun _ _ => 0))
        [0xFEC00400] := by
  have boot := @Consistent.init 0x200000 0x100000 (fun _ => 0) (fun _ _ => 0)
  have room : DeviceMap.boot.kdevmapIndex + [0xFEC00400].length ≤ 1024 := by decide
  rcases kernelMapDeviceMaps_ok room with ⟨devices, returns, entered, _⟩
  have page : translate (kernelPremainPaging 0x200000 0x100000 (fun _ => 0) (fun _ _ => 0)) devices
      0xC2800000 = some 0xFEC00000 :=
    translate_deviceAddress boot (by omega) (by decide) (entered 0 0xFEC00400 rfl)
  refine ⟨devices, returns, page, ?_⟩
  intro resolve
  rcases resolve 1 (Nat.le_refl 1) with ⟨addresses, others, returnsToo, _, _, leads⟩
  have same : kernelMapDeviceMaps .boot [0xFEC00400] = .ok (addresses, others) := returnsToo
  rw [returns] at same
  cases same
  rcases leads 0 0xFEC00400 rfl with ⟨address, atAddress, toPtr⟩
  cases atAddress
  have first : translate (kernelPremainPaging 0x200000 0x100000 (fun _ => 0) (fun _ _ => 0)) devices
      (deviceAddress DeviceMap.boot.kdevmapIndex) = some 0xFEC00000 := page
  rw [first] at toPtr
  cases toPtr

end Osserver
