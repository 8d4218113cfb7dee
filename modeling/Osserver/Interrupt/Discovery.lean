import Osserver.Acpi.MadtRecords
import Osserver.Interrupt.Routing
import Osserver.Paging.Effect

/-!
# From the bytes of the MADT to the handlers

`acpi_parse_apic`, `ioapic_init` and `idt_init` in the order of `kernel.c`. The MADT is
walked twice: for the IOAPICs when it is copied, and for the overrides in the copy. Both
walks have to see the same records, so that the pins that `idt_init` sets are those that
the table gives to the lines.
-/

namespace Osserver

open Loop Bytes

theorem overrideWidth_le (type : UInt8) : overrideWidth type ≤ recordWidth type := by
  rw [overrideWidth]
  split_ifs with isOverride
  · rw [isOverride]
    decide
  · exact recordWidth_ge type

/-- A record as `acpi_remap_irq` reads it. -/
def MadtRecord.saved : MadtRecord → SavedRecord :=
  ApicRecord.restrict overrideWidth_le

section Parse

variable {s : Acpi} {copy start stop fuel : ℕ} {madt : ℕ → UInt8} {records : List MadtRecord}

/-- The copy stays where it is, and IOAPICs are found at the starts of pages. -/
structure Acpi.Steady (s : Acpi) (copy : ℕ) : Prop where
  pointer : s.acpiMadtStruct = some copy
  aligned : ∀ i < s.ioapicSize, s.ioapicAddrs i % 4096 = 0

theorem Acpi.Steady.localApic (steady : s.Steady copy) (start : ℕ) :
    (parseLocalApic start s).2.Steady copy := by
  rw [parseLocalApic]
  split_ifs
  · exact ⟨steady.pointer, steady.aligned⟩
  · exact steady

theorem Acpi.Steady.ioApic {s' : Acpi} (steady : s.Steady copy)
    (records : (parseIoApic start s).2 = .ok s') : s'.Steady copy := by
  rw [parseIoApic] at records
  cases maps : kernelMapDeviceMap s.devices (ioApicAddress s.memory start) with
  | error halt =>
      rw [maps] at records
      cases records
  | ok mapped =>
      rcases mapped with ⟨address, devices⟩
      have atPage : address % 4096 = 0 := by
        rw [kernelMapDeviceMap] at maps
        split_ifs at maps
        cases maps
        rw [deviceAddress]
        omega
      rw [maps] at records
      cases records
      refine ⟨steady.pointer, ?_⟩
      intro i listed
      have upTo : i < s.ioapicSize + 1 := Nat.lt_of_lt_of_le listed (Nat.mod_le _ _)
      simp only [Function.update_apply]
      split_ifs with last
      · exact atPage
      · apply steady.aligned
        omega

theorem Acpi.Steady.pass {walk next : ApicWalk} (steady : walk.acpi.Steady copy)
    (goesOn : acpiParseApicBody stop walk = .again next) : next.acpi.Steady copy := by
  simp only [acpiParseApicBody, acpiParseApicPass] at goesOn
  split_ifs at goesOn
  · cases goesOn
    exact steady.localApic walk.start
  · cases goesOn
    exact steady
  · split at goesOn
    · cases goesOn
    · rename_i recorded
      cases goesOn
      exact steady.ioApic recorded
  · cases goesOn
    exact steady

theorem Acpi.Steady.walk {s' : Acpi} (steady : s.Steady copy)
    (returns : run (acpiParseApicBody stop) fuel ⟨start, s⟩ = some (.ok s')) :
    s'.Steady copy := by
  rcases exists_last returns with ⟨walk, visits, done⟩
  have atLast : walk.acpi.Steady copy := by
    apply visits.invariant (steady : (ApicWalk.mk start s).acpi.Steady copy)
    intro walk next holds goesOn
    exact holds.pass goesOn
  simp only [acpiParseApicBody, acpiParseApicPass] at done
  split_ifs at done
  · split at done
    · rename_i fails
      cases done
    · cases done
  · cases done
    exact atLast

end Parse

/-- The chips as the kernel finds them: an address of an entry of `dev_page` leads to the chip
on the page of the entry. -/
def DeviceMap.chips (devices : DeviceMap) (hardware : ℕ → Ioapic) (address : ℕ) : Ioapic :=
  hardware (frame (devices.devPage ((address - deviceAddress 0) / 4096)))

theorem DeviceMap.Maps.chips {devices : DeviceMap} {address ioapic : ℕ}
    (maps : devices.Maps address ioapic) (page : ioapic % 4096 = 0) (hardware : ℕ → Ioapic) :
    devices.chips hardware address = hardware ioapic := by
  rcases maps with ⟨index, _, isAddress, word⟩
  have isEntry : (deviceAddress index - deviceAddress 0) / 4096 = index := by
    simp only [deviceAddress]
    omega
  have isPage : frame ioapic = ioapic := by
    rw [frame]
    omega
  rw [DeviceMap.chips, isAddress, isEntry, word, frame_or_small _ (by omega), isPage,
    isPage]

end Osserver
