import Osserver.Ps2.Waits
import Osserver.Lib.Bytes

/-!
# The configuration byte

To switch the translation of the first port the driver reads the configuration byte, changes
bit 6 of it and writes it back. It looks at the result of none of the three steps. When no
byte has come in time it goes on with 0xFF, and when a byte from a device is there already it
goes on with that; so the other bits are kept exactly when the byte it has got agrees with
the configuration there, or nothing is written.
-/

namespace Osserver

open Outcome

/-- The configuration byte of the chip behind a write. -/
def Ps2Write.configure (config : UInt8) : Ps2Write → UInt8
  | .dataCommand sendTo byte => if sendTo = 0x60 then byte else config
  | .command _ | .data _ => config

/-- The configuration byte behind all writes. -/
def Ps2Controller.configuration (initial : UInt8) (s : Ps2Controller) : UInt8 :=
  s.writes.foldl Ps2Write.configure initial

/-- The byte is the same, or it differs in bit 6 at most, and that is as wanted. -/
def TranslationOnly (enable : Bool) (config after : UInt8) : Prop :=
  after = config ∨ after &&& ~~~64 = config &&& ~~~64 ∧ (after &&& 64 ≠ 0 ↔ enable = true)

instance (enable : Bool) (config after : UInt8) : Decidable (TranslationOnly enable config after) :=
  inferInstanceAs (Decidable (_ ∨ _))

/-- The byte that `get_response` makes of the reading behind its loop. -/
def Ps2Reading.answer (reading : Ps2Reading) : UInt8 :=
  if outputEmpty reading.status then 0xFF else reading.data

/-- The byte with bit 6 as wanted. -/
def withTranslation (enable : Bool) (config : UInt8) : UInt8 :=
  if enable then config ||| 64 else config &&& ~~~64

theorem withTranslation_bits {enable : Bool} (config : UInt8) :
    withTranslation enable config &&& ~~~64 = config &&& ~~~64 ∧
      (withTranslation enable config &&& 64 ≠ 0 ↔ enable = true) := by
  revert config
  apply Bytes.forall_byte
  cases enable with
  | false => decide +kernel
  | true => decide +kernel

theorem translationOnly_iff {enable : Bool} {config answer : UInt8} :
    TranslationOnly enable config (withTranslation enable answer) ↔
      answer &&& ~~~64 = config &&& ~~~64 := by
  rcases @withTranslation_bits enable answer with ⟨others, bit⟩
  constructor
  · rintro (same | ⟨agrees, _⟩)
    · rw [← others, same]
    · rw [← others, agrees]
  · intro agrees
    exact Or.inr ⟨others.trans agrees, bit⟩

section Writes

variable {chip : Ps2Chip} {s after : Ps2Controller} {output : Ps2Write} {sent enable : Bool}

theorem write_writes (returns : s.write chip output = .ok (sent, after)) :
    after.writes = s.writes ++ if chip.input s.waits = .empty then [output] else [] := by
  rw [Ps2Controller.write] at returns
  split at returns
  case h_1 ready =>
    cases returns
    rw [if_pos ready]
  case h_2 full =>
    cases returns
    rw [if_neg (by simp [full]), List.append_nil]
  case h_3 => cases returns

end Writes

section Readings

variable {readings : Ps2Readings} {fuel : ℕ} {s after : Ps2Driver} {enable : Bool}
  {initial : UInt8}

theorem chip_input_iff {wait : ℕ} : readings.chip.input wait = .empty ↔
    inputFull (readings.behind wait).status = false := by
  simp [Ps2Readings.chip]

theorem getResponse_readings {c answered : Ps2Controller} {value : UInt8}
    (returns : getResponse readings.chip c = .ok (value, answered)) :
    value = (readings.behind c.waits).answer ∧ answered = { c with waits := c.waits + 1 } := by
  simp only [getResponse, Ps2Readings.chip] at returns
  cases empty : outputEmpty (readings.behind c.waits).status with
  | true =>
      simp only [empty, if_true] at returns
      cases returns
      simp [Ps2Reading.answer, empty]
  | false =>
      simp only [empty, Bool.false_eq_true, if_false] at returns
      cases returns
      simp [Ps2Reading.answer, empty]

theorem firstPortTranslation_configuration
    (returns : s.firstPortTranslation readings fuel enable = .ok after) :
    after.controller.configuration initial =
      if inputFull (readings.behind (s.controller.waits + 2)).status then
        s.controller.configuration initial
      else withTranslation enable (readings.behind (s.controller.waits + 1)).answer := by
  have steps := firstPortTranslation_refines returns
  simp only [firstPortTranslation, bind_eq_ok, Prod.exists, pure, Except.pure, Except.ok.injEq]
    at steps
  rcases steps with ⟨_, asked, asks, config, answered, answers, _, written, writes, same⟩
  have askedWaits := write_waits asks
  have askedWrites := write_writes asks
  rcases getResponse_readings answers with ⟨isConfig, isAnswered⟩
  have writtenWrites := write_writes writes
  have answeredWaits : answered.waits = s.controller.waits + 2 := by
    rw [isAnswered, askedWaits]
  have answeredWrites : answered.writes = asked.writes := by
    rw [isAnswered]
  -- The command that asks for the configuration leaves it as it is.
  have asksOnly : asked.writes.foldl Ps2Write.configure initial =
      s.controller.writes.foldl Ps2Write.configure initial := by
    rw [askedWrites, List.foldl_append]
    split_ifs
    · rfl
    · rfl
  rw [answeredWrites, answeredWaits] at writtenWrites
  rw [askedWaits] at isConfig
  rw [Ps2Controller.configuration, ← same, writtenWrites, List.foldl_append, asksOnly]
  cases full : inputFull (readings.behind (s.controller.waits + 2)).status with
  | true =>
      rw [if_neg (by simp [chip_input_iff, full])]
      rfl
  | false =>
      rw [if_pos (chip_input_iff.mpr full), isConfig]
      rfl

end Readings

/-- The configuration is changed in bit 6 at most, and to what is wanted there, exactly when the
input buffer is full at the reading behind the last wait, or the byte that is there at the one
behind the second wait, or 0xFF when there is none, agrees with the configuration in the other
bits. -/
theorem firstPortTranslation_only_iff {readings : Ps2Readings} {fuel : ℕ} {s after : Ps2Driver}
    {enable : Bool} {initial : UInt8}
    (returns : s.firstPortTranslation readings fuel enable = .ok after) :
    TranslationOnly enable (s.controller.configuration initial)
        (after.controller.configuration initial) ↔
      inputFull (readings.behind (s.controller.waits + 2)).status = true ∨
        (readings.behind (s.controller.waits + 1)).answer &&& ~~~64 =
          s.controller.configuration initial &&& ~~~64 := by
  rw [firstPortTranslation_configuration returns]
  cases inputFull (readings.behind (s.controller.waits + 2)).status with
  | true => simp [TranslationOnly]
  | false =>
      simp only [Bool.false_eq_true, if_false, false_or]
      exact translationOnly_iff

/-- The driver before it has written anything. -/
def Ps2Driver.boot : Ps2Driver where
  controller := (Ps2Controller.mk true false false 0 [])
  timeouts _ := 0

/-- The input buffer is empty at every reading, and the output buffer gets the byte. -/
def answeringReadings (byte : UInt8) : Ps2Readings where
  inLoop _ _ := ⟨0, 1, byte⟩
  behind _ := ⟨0, 1, byte⟩

/-- The input buffer is empty at every reading, and nothing comes into the output buffer. -/
def silentReadings : Ps2Readings where
  inLoop _ _ := ⟨1, 0, 0⟩
  behind _ := ⟨0, 0, 0⟩

theorem firstPortTranslation_only_iff_answered :
    ∃ after, Ps2Driver.boot.firstPortTranslation (answeringReadings 0x03) 1 true = .ok after ∧
      TranslationOnly true 0x03 (after.controller.configuration 0x03) :=
  ⟨_, rfl, (@firstPortTranslation_only_iff (answeringReadings 0x03) 1 Ps2Driver.boot _ true 0x03
    rfl).mpr (Or.inr (by decide))⟩

/-- When no byte comes in time all bits of the configuration are set, and a byte of a device that
is there already becomes the configuration. -/
theorem firstPortTranslation_not_only :
    (∃ after, Ps2Driver.boot.firstPortTranslation silentReadings 5 true = .ok after ∧
      after.controller.configuration 0x03 = 0xFF ∧
      ¬TranslationOnly true 0x03 (after.controller.configuration 0x03)) ∧
    ∃ after, Ps2Driver.boot.firstPortTranslation (answeringReadings 0x1C) 1 true = .ok after ∧
      after.controller.configuration 0x03 = 0x5C ∧
      ¬TranslationOnly true 0x03 (after.controller.configuration 0x03) := by
  constructor
  · exact ⟨_, rfl, rfl, by decide⟩
  · exact ⟨_, rfl, rfl, by decide⟩

end Osserver
