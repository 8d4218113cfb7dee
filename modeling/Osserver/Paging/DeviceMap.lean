import Osserver.Paging.Basic

/-!
# Pages for devices

The model of `kernel_map_device_map` of `i386/pc/kernel.c`, which enters the page of
a device register into `dev_page`, the table that `bootstrap.asm` installs at
0xC2800000. The entries are handed out in order and never given back.
-/

namespace Osserver

/-- `kdevmap_index`, and the words of `dev_page`. -/
structure DeviceMap where
  kdevmapIndex : ℕ
  devPage : ℕ → ℕ

/-- The virtual address that an entry of `dev_page` maps. -/
def deviceAddress (index : ℕ) : ℕ :=
  0xC2800000 + index * 4096

/-- `kernel_map_device_map`. -/
def kernelMapDeviceMap (s : DeviceMap) (ptr : ℕ) : Except Halt (ℕ × DeviceMap) :=
  if s.kdevmapIndex ≥ 1024 then .error (.kpanic "Cannot reserve device page: devmap full")
  else
    .ok (deviceAddress s.kdevmapIndex,
      { kdevmapIndex := s.kdevmapIndex + 1
        devPage := Function.update s.devPage s.kdevmapIndex (frame ptr ||| 3) })

/-- The address is the one of an entry that has been handed out for the page of `ptr`. -/
def DeviceMap.Maps (s : DeviceMap) (address ptr : ℕ) : Prop :=
  ∃ index < s.kdevmapIndex, address = deviceAddress index ∧ s.devPage index = frame ptr ||| 3

theorem kernelMapDeviceMap_room {s : DeviceMap} (ptr : ℕ) (room : s.kdevmapIndex < 1024) :
    ∃ s', kernelMapDeviceMap s ptr = .ok (deviceAddress s.kdevmapIndex, s') ∧
      s'.kdevmapIndex = s.kdevmapIndex + 1 ∧ s'.Maps (deviceAddress s.kdevmapIndex) ptr ∧
        ∀ address other, s.Maps address other → s'.Maps address other := by
  refine ⟨_, if_neg (Nat.not_le.mpr room), rfl, ?_, ?_⟩
  · exact ⟨s.kdevmapIndex, Nat.lt_succ_self _, rfl, Function.update_self ..⟩
  · rintro address other ⟨index, handedOut, isAddress, word⟩
    refine ⟨index, Nat.lt_succ_of_lt handedOut, isAddress, ?_⟩
    rw [← word]
    exact Function.update_of_ne (Nat.ne_of_lt handedOut) ..

theorem kernelMapDeviceMap_full {s : DeviceMap} (ptr : ℕ) (full : 1024 ≤ s.kdevmapIndex) :
    kernelMapDeviceMap s ptr = .error (.kpanic "Cannot reserve device page: devmap full") :=
  if_pos full

end Osserver
