import Osserver.Acpi.MadtWalk
import Mathlib.Data.List.GetD

/-!
# The records of a MADT

A record is its type, its length and the bytes behind them. What a walk reads of it
reaches as far as the fields of its type, so the records are taken over the width
that a type has for the walk; the records of one walk are records of every walk that
reads less.
-/

namespace Osserver

open Bytes

/-- A record of a MADT: its type, and the bytes behind its type and length. It is as long as
the fields of its type. -/
structure ApicRecord (width : UInt8 → ℕ) where
  type : UInt8
  body : List UInt8
  narrow : body.length + 2 < 256
  long : width type ≤ body.length + 2

section Records

variable {width smaller : UInt8 → ℕ}

namespace ApicRecord

def length (record : ApicRecord width) : ℕ :=
  record.body.length + 2

/-- The record as it lies in memory. -/
def bytes (record : ApicRecord width) : List UInt8 :=
  record.type :: UInt8.ofNat record.length :: record.body

/-- The byte at an offset of the record. -/
def byte (record : ApicRecord width) (offset : ℕ) : UInt8 :=
  record.bytes.getD offset 0

/-- The record as a walk takes it that reads less. -/
def restrict (reads : ∀ type, smaller type ≤ width type) (record : ApicRecord width) :
    ApicRecord smaller where
  type := record.type
  body := record.body
  narrow := record.narrow
  long := Nat.le_trans (reads record.type) record.long

theorem length_bytes (record : ApicRecord width) : record.bytes.length = record.length := rfl

end ApicRecord

/-- The records back to back. -/
def recordBytes (records : List (ApicRecord width)) : List UInt8 :=
  records.flatMap ApicRecord.bytes

theorem recordBytes_cons (record : ApicRecord width) (records : List (ApicRecord width)) :
    recordBytes (record :: records) = record.bytes ++ recordBytes records :=
  List.flatMap_cons

theorem length_recordBytes_cons (record : ApicRecord width) (records : List (ApicRecord width)) :
    (recordBytes (record :: records)).length = record.length + (recordBytes records).length := by
  rw [recordBytes_cons, List.length_append, record.length_bytes]

variable {memory : ℕ → UInt8} {start : ℕ} {record : ApicRecord width}
  {records : List (ApicRecord width)}

/-- The bytes of a record lie at `start`. -/
def HoldsRecord (memory : ℕ → UInt8) (start : ℕ) (record : ApicRecord width) : Prop :=
  ∀ offset < record.length, load8 memory (start + offset) = record.byte offset

theorem HoldsRecord.type (holds : HoldsRecord memory start record) :
    apicHeaderType memory start = record.type := by
  apply holds 0
  exact Nat.succ_pos _

theorem HoldsRecord.next (holds : HoldsRecord memory start record)
    (inside : start + record.length < 2 ^ 32) :
    nextRecord memory start = start + record.length := by
  have atLength := holds 1 (Nat.le_add_left 2 _)
  have length : apicHeaderLength memory start = record.length := by
    rw [apicHeaderLength, atLength]
    exact UInt8.toNat_ofNat_of_lt' record.narrow
  rw [nextRecord, length]
  exact Nat.mod_eq_of_lt inside

/-- A field of four bytes is read from the record's own. -/
theorem HoldsRecord.load32 (holds : HoldsRecord memory start record) {offset : ℕ}
    (inside : offset + 4 ≤ record.length) :
    Bytes.load32 memory (start + offset) = Bytes.word record.byte offset 4 := by
  rw [Bytes.load32, ← Bytes.word_shift]
  apply Bytes.word_congr
  intro i inField
  apply holds
  omega

/-- The bytes of the records lie back to back from `start`. -/
def HoldsRecords (memory : ℕ → UInt8) (start : ℕ) (records : List (ApicRecord width)) : Prop :=
  ∀ i (inside : i < (recordBytes records).length),
    load8 memory (start + i) = (recordBytes records)[i]

theorem HoldsRecords.head (holds : HoldsRecords memory start (record :: records)) :
    HoldsRecord memory start record := by
  have length := length_recordBytes_cons record records
  intro offset inside
  rw [holds offset (by omega), ApicRecord.byte]
  simp only [recordBytes_cons]
  rw [List.getElem_append_left inside]
  exact (List.getD_eq_getElem _ _ inside).symm

theorem HoldsRecords.tail (holds : HoldsRecords memory start (record :: records)) :
    HoldsRecords memory (start + record.length) records := by
  have length := length_recordBytes_cons record records
  intro i inside
  rw [Nat.add_assoc, holds (record.length + i) (by omega)]
  simp only [recordBytes_cons]
  rw [List.getElem_append_right (Nat.le_add_right record.length i)]
  congr 1
  apply Nat.add_sub_cancel_left

end Records

end Osserver
