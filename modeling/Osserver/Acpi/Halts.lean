import Osserver.Acpi.Tables
import Osserver.Lib.Outcome

/-!
# What stops the search and the parsing

Reading stops at a byte whose page is not mapped. Beyond that the parsing of a table stops
when `kmalloc` has no memory, when `dev_page` is full, or when the walk over the records
does not end.
-/

namespace Osserver

open Loop Bytes Outcome

section Reads

variable {excluded : Halt → Prop} {s : Paging} {devices : DeviceMap} {ram : ℕ → UInt8}

theorem readFrom_avoids (fault : ¬excluded .pageFault) (virt i : ℕ) :
    Avoids excluded (readFrom s devices ram virt i) := by
  rw [readFrom, readVirtual]
  split
  · exact avoids_error_iff.mpr fault
  · exact avoids_ok _

theorem readByte_avoids (fault : ¬excluded .pageFault) (virt : ℕ) :
    Avoids excluded (readByte s ram virt) := by
  rw [readByte]
  split_ifs
  · exact avoids_error_iff.mpr fault
  · split
    · exact avoids_error_iff.mpr fault
    · split_ifs
      · exact avoids_ok _
      · exact avoids_error_iff.mpr fault

variable {read : ℕ → Except Halt UInt8}

theorem memcmpLoop_avoids (reads : ∀ i, Avoids excluded (read i)) (s2 : ℕ → UInt8)
    (count i : ℕ) : Avoids excluded (memcmpLoop read s2 count i) := by
  induction count generalizing i with
  | zero => exact avoids_ok _
  | succ count ih =>
      rw [memcmpLoop]
      split
      · rename_i fails
        exact (reads i).passed fails
      · split_ifs
        · exact avoids_ok _
        · exact ih (i + 1)

theorem checkRsdpLoop_avoids (reads : ∀ i, Avoids excluded (read i)) (count i : ℕ) (sum : UInt8) :
    Avoids excluded (checkRsdpLoop read count i sum) := by
  induction count generalizing i sum with
  | zero => exact avoids_ok _
  | succ count ih =>
      rw [checkRsdpLoop]
      split
      · rename_i fails
        exact (reads i).passed fails
      · exact ih _ _

theorem searchRsdpLoop_avoids (reads : ∀ i, Avoids excluded (read i)) (count offset : ℕ) :
    Avoids excluded (searchRsdpLoop read count offset) := by
  have shifted : ∀ offset i, Avoids excluded (read (offset + i)) := fun offset i => reads _
  induction count generalizing offset with
  | zero => exact avoids_ok _
  | succ count ih =>
      rw [searchRsdpLoop]
      split
      · rename_i fails
        exact (memcmpLoop_avoids (shifted offset) _ _ _).passed fails
      · split_ifs
        · split
          · rename_i fails
            exact (checkRsdpLoop_avoids (shifted offset) _ _ _).passed fails
          · split_ifs
            · exact ih _
            · exact avoids_ok _
        · exact ih _

end Reads

section Tables

variable {excluded : Halt → Prop} {header : ℕ → Except Halt UInt8} {s : Acpi}

theorem kernelMapDeviceMap_avoids
    (full : ¬excluded (.kpanic "Cannot reserve device page: devmap full")) (devices : DeviceMap)
    (ptr : ℕ) : Avoids excluded (kernelMapDeviceMap devices ptr) := by
  rw [kernelMapDeviceMap]
  split_ifs
  · exact avoids_error_iff.mpr full
  · exact avoids_ok _

theorem acpiParseFadt_avoids (reads : ∀ i, Avoids excluded (header i)) :
    Avoids excluded (acpiParseFadt header s) := by
  rw [acpiParseFadt]
  split_ifs
  · split
    · rename_i fails
      exact (fetch_avoids reads).passed fails
    · exact avoids_ok _
  · split
    · rename_i fails
      exact (fetch_avoids reads).passed fails
    · split
      · rename_i fails
        exact (fetch_avoids reads).passed fails
      · exact avoids_ok _

/-- The loop over the records fails only where a register page cannot be entered. -/
theorem acpiParseApicLoop_avoids
    (full : ¬excluded (.kpanic "Cannot reserve device page: devmap full"))
    (endless : ¬excluded .endlessLoop) (fuel madt : ℕ) :
    Avoids excluded (acpiParseApicLoop fuel madt s) := by
  rw [acpiParseApicLoop]
  cases ends : run (acpiParseApicBody (endOfRecords s.memory madt)) fuel ⟨firstRecord madt, s⟩ with
  | none => exact avoids_error_iff.mpr endless
  | some result =>
      rcases exists_last ends with ⟨walk, _, done⟩
      rw [Option.getD_some]
      simp only [acpiParseApicBody, acpiParseApicPass] at done
      split_ifs at done
      · split at done
        · rename_i halt fails
          cases done
          rw [parseIoApic] at fails
          split at fails
          · rename_i mapFails
            cases fails
            exact (kernelMapDeviceMap_avoids full _ _).passed mapFails
          · cases fails
        · cases done
      · cases done
        exact avoids_ok _

theorem memcpy_avoids (null : ¬excluded .nullPointer) (reads : ∀ i, Avoids excluded (header i))
    (dest : Option ℕ) (len : ℕ) (memory : ℕ → UInt8) :
    Avoids excluded (memcpy dest header len memory) := by
  cases dest with
  | none =>
      rw [memcpy]
      split_ifs
      · exact avoids_ok _
      · exact avoids_error_iff.mpr null
  | some dest => exact store_avoids reads

theorem acpiParseApic_avoids (null : ¬excluded .nullPointer)
    (full : ¬excluded (.kpanic "Cannot reserve device page: devmap full"))
    (endless : ¬excluded .endlessLoop) (reads : ∀ i, Avoids excluded (header i)) (fuel : ℕ)
    (copy : Option ℕ) : Avoids excluded (acpiParseApic fuel copy header s) := by
  rw [acpiParseApic]
  split
  · rename_i fails
    exact (fetch_avoids reads).passed fails
  · split
    · rename_i fails
      exact (memcpy_avoids null reads _ _ _).passed fails
    · split
      · rename_i fails
        exact (fetch_avoids reads).passed fails
      · split
        · rename_i fails
          exact (kernelMapDeviceMap_avoids full _ _).passed fails
        · split
          · exact avoids_error_iff.mpr null
          · exact acpiParseApicLoop_avoids full endless _ _

theorem acpiParseDt_avoids (null : ¬excluded .nullPointer)
    (full : ¬excluded (.kpanic "Cannot reserve device page: devmap full"))
    (endless : ¬excluded .endlessLoop) (reads : ∀ i, Avoids excluded (header i)) (fuel : ℕ)
    (copy : Option ℕ) : Avoids excluded (acpiParseDt fuel copy header s) := by
  rw [acpiParseDt]
  split
  · rename_i fails
    exact (fetch_avoids reads).passed fails
  · split_ifs
    · exact acpiParseFadt_avoids reads
    · exact acpiParseApic_avoids null full endless reads _ _
    · exact avoids_ok _

end Tables

end Osserver
