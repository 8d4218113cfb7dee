import Osserver.Halt
import Osserver.Lib.Changes
import Osserver.Lib.Loop
import Osserver.Lib.Outcome

/-!
# The real-time clock

The model of `_rtc_read` in `sys/rtc.c`. The registers of the clock change on their own, so
what a register holds depends on the reading: `registers n` is what they hold at reading
number `n`. The function reads the time, register after register, until it has read the
same twice in a row; then it converts what it has read.

When the time changes at most once during the last two passes, what the loop ends with is
one time that the clock has held, and no mixture of two.
-/

namespace Osserver

open Changes Loop Outcome

/-- `_rtc_update_in_progress_flag`. -/
def rtcUpdateInProgressFlag (registers : ℕ → UInt8 → UInt8) (reading : ℕ) : Bool :=
  registers reading 0x0A &&& 0x80 ≠ 0

/-- One pass of `while (_rtc_update_in_progress_flag())`. -/
def updatePass (registers : ℕ → UInt8 → UInt8) (reading : ℕ) : Pass ℕ ℕ :=
  if rtcUpdateInProgressFlag registers reading then .again (reading + 1) else .done (reading + 1)

/-- `_second` to `_year` and `century`, as `_rtc_read` fills them. -/
structure RtcRaw where
  second : UInt8
  minute : UInt8
  hour : UInt8
  day : UInt8
  month : UInt8
  year : UInt32
  century : UInt8
  deriving DecidableEq

/-- The variables of `rtc.c`. -/
structure Rtc where
  second : UInt8
  minute : UInt8
  hour : UInt8
  day : UInt8
  month : UInt8
  year : UInt32
  update : Bool
  deriving DecidableEq

/-- The calls of `_rtc_get_register` in one pass, beginning with the given reading. -/
def readRegisters (registers : ℕ → UInt8 → UInt8) (centuryRegister : UInt8) (reading : ℕ) :
    RtcRaw where
  second := registers reading 0x00
  minute := registers (reading + 1) 0x02
  hour := registers (reading + 2) 0x04
  day := registers (reading + 3) 0x07
  month := registers (reading + 4) 0x08
  year := (registers (reading + 5) 0x09).toUInt32
  century := if centuryRegister ≠ 0 then registers (reading + 6) centuryRegister else 0

/-- How many registers a pass reads. -/
def passLength (centuryRegister : UInt8) : ℕ :=
  if centuryRegister ≠ 0 then 7 else 6

/-- What a pass has read, and the reading it began with. -/
structure RtcPass where
  start : ℕ
  raw : RtcRaw

/-- Wait for the end of an update and read the registers. -/
def rtcPass (registers : ℕ → UInt8 → UInt8) (centuryRegister : UInt8) (fuel reading : ℕ) :
    Except Halt RtcPass :=
  (loopResult (run (updatePass registers) fuel reading)).map fun start =>
    ⟨start, readRegisters registers centuryRegister start⟩

/-- One pass of the loop, which is done with the last two passes. -/
def rtcLoopPass (registers : ℕ → UInt8 → UInt8) (centuryRegister : UInt8) (fuel : ℕ)
    (last : RtcPass) : Pass RtcPass (Except Halt (RtcPass × RtcPass)) :=
  match rtcPass registers centuryRegister fuel (last.start + passLength centuryRegister) with
  | .error halt => .done (.error halt)
  | .ok now => if last.raw ≠ now.raw then .again now else .done (.ok (last, now))

/-- `_rtc_read` up to the end of its loop, for at most `fuel` passes of each loop. -/
def rtcLoop (registers : ℕ → UInt8 → UInt8) (centuryRegister : UInt8) (fuel reading : ℕ) :
    Except Halt (RtcPass × RtcPass) := do
  let first ← rtcPass registers centuryRegister fuel reading
  let outcome ← loopResult (run (rtcLoopPass registers centuryRegister fuel) fuel first)
  outcome

/-- The digits of a byte in BCD. -/
def bcdToBinary (value : UInt8) : UInt8 :=
  (value &&& 0x0F) + value / 16 * 10

/-- The hour keeps the bit for the afternoon. -/
def bcdHourToBinary (hour : UInt8) : UInt8 :=
  ((hour &&& 0x0F) + (hour &&& 0x70) / 16 * 10) ||| (hour &&& 0x80)

/-- `Convert BCD to binary values if necessary`. -/
def RtcRaw.toBinary (raw : RtcRaw) (centuryRegister registerB : UInt8) : RtcRaw :=
  if registerB &&& 0x04 = 0 then
    { second := bcdToBinary raw.second
      minute := bcdToBinary raw.minute
      hour := bcdHourToBinary raw.hour
      day := bcdToBinary raw.day
      month := bcdToBinary raw.month
      year := (raw.year &&& 0x0F) + raw.year / 16 * 10
      century := if centuryRegister ≠ 0 then bcdToBinary raw.century else raw.century }
  else raw

/-- `Convert 12 hour clock to 24 hour clock if necessary`. -/
def hourTo24 (hour registerB : UInt8) : UInt8 :=
  if registerB &&& 0x02 = 0 ∧ hour &&& 0x80 ≠ 0 then ((hour &&& 0x7F) + 12) % 24 else hour

/-- `CURRENT_YEAR`. -/
def currentYear : UInt32 := 2018

/-- `Calculate the full (4-digit) year`. -/
def fullYear (year : UInt32) (centuryRegister century : UInt8) : UInt32 :=
  if centuryRegister ≠ 0 then year + century.toUInt32 * 100
  else
    let year := year + currentYear / 100 * 100
    if year < currentYear then year + 100 else year

/-- `_rtc_read` behind its loop. -/
def RtcRaw.convert (raw : RtcRaw) (centuryRegister registerB : UInt8) : Rtc :=
  let raw := raw.toBinary centuryRegister registerB
  { second := raw.second
    minute := raw.minute
    hour := hourTo24 raw.hour registerB
    day := raw.day
    month := raw.month
    year := fullYear raw.year centuryRegister raw.century
    update := false }

/-- `_rtc_read`, for at most `fuel` passes of each loop. -/
def rtcRead (registers : ℕ → UInt8 → UInt8) (centuryRegister : UInt8) (fuel reading : ℕ) :
    Except Halt Rtc := do
  let (_, now) ← rtcLoop registers centuryRegister fuel reading
  let registerB := registers (now.start + passLength centuryRegister) 0x0B
  return now.raw.convert centuryRegister registerB

/-- The time that the clock holds at a reading, with the century when there is a register
for it. -/
def timeAt (registers : ℕ → UInt8 → UInt8) (centuryRegister : UInt8) (reading : ℕ) : RtcRaw where
  second := registers reading 0x00
  minute := registers reading 0x02
  hour := registers reading 0x04
  day := registers reading 0x07
  month := registers reading 0x08
  year := (registers reading 0x09).toUInt32
  century := if centuryRegister ≠ 0 then registers reading centuryRegister else 0

section Reading

variable {registers : ℕ → UInt8 → UInt8} {centuryRegister : UInt8} {fuel reading : ℕ}

theorem six_le_passLength : 6 ≤ passLength centuryRegister := by
  rw [passLength]
  split_ifs
  · omega
  · omega

/-- A pass during which the time does not change reads the time. -/
theorem readRegisters_eq_timeAt (constant : Constant (timeAt registers centuryRegister) reading
      (reading + passLength centuryRegister - 1)) :
    readRegisters registers centuryRegister reading = timeAt registers centuryRegister reading := by
  have length : 6 ≤ passLength centuryRegister := six_le_passLength
  have minute := congrArg RtcRaw.minute (constant (reading + 1) (by omega) (by omega))
  have hour := congrArg RtcRaw.hour (constant (reading + 2) (by omega) (by omega))
  have day := congrArg RtcRaw.day (constant (reading + 3) (by omega) (by omega))
  have month := congrArg RtcRaw.month (constant (reading + 4) (by omega) (by omega))
  have year := congrArg RtcRaw.year (constant (reading + 5) (by omega) (by omega))
  have century : (readRegisters registers centuryRegister reading).century =
      (timeAt registers centuryRegister reading).century := by
    by_cases hasRegister : centuryRegister ≠ 0
    · have bound : passLength centuryRegister = 7 := if_pos hasRegister
      have same := congrArg RtcRaw.century (constant (reading + 6) (by omega) (by omega))
      simpa only [timeAt, readRegisters, if_pos hasRegister] using same
    · simp only [timeAt, readRegisters, if_neg hasRegister]
  exact RtcRaw.mk.injEq .. ▸ ⟨rfl, minute, hour, day, month, year, century⟩

/-- A wait for the end of an update reads at least once. -/
theorem update_reads {start : ℕ} (returns : run (updatePass registers) fuel reading = some start) :
    reading < start := by
  rcases exists_last returns with ⟨last, visits, done⟩
  have later : reading ≤ last := by
    apply visits.invariant (Nat.le_refl reading)
    intro s next later goesOn
    rw [updatePass] at goesOn
    split_ifs at goesOn
    cases goesOn
    omega
  rw [updatePass] at done
  split_ifs at done
  cases done
  omega

theorem rtcPass_eq_ok {pass : RtcPass}
    (returns : rtcPass registers centuryRegister fuel reading = .ok pass) :
    reading < pass.start ∧ pass.raw = readRegisters registers centuryRegister pass.start := by
  rcases map_eq_ok.mp returns with ⟨start, waits, rfl⟩
  exact ⟨update_reads (loopResult_eq_ok.mp waits), rfl⟩

/-- The loop ends with two passes, one behind the other, that have read the same. -/
theorem rtcLoop_eq_ok {previous last : RtcPass}
    (returns : rtcLoop registers centuryRegister fuel reading = .ok (previous, last)) :
    previous.start + passLength centuryRegister < last.start ∧ previous.raw = last.raw ∧
      previous.raw = readRegisters registers centuryRegister previous.start ∧
      last.raw = readRegisters registers centuryRegister last.start := by
  rcases bind_eq_ok.mp returns with ⟨first, reads, rest⟩
  rcases bind_eq_ok.mp rest with ⟨outcome, loops, isOk⟩
  rw [loopResult_eq_ok] at loops
  rcases exists_last loops with ⟨before, visits, done⟩
  have isRead : before.raw = readRegisters registers centuryRegister before.start := by
    apply visits.invariant (rtcPass_eq_ok reads).2
    intro s next _ goesOn
    rw [rtcLoopPass] at goesOn
    split at goesOn
    · cases goesOn
    · rename_i now passes
      split_ifs at goesOn
      cases goesOn
      exact (rtcPass_eq_ok passes).2
  rw [rtcLoopPass] at done
  split at done
  · cases done
    cases isOk
  · rename_i now passes
    split_ifs at done with differ
    cases done
    cases isOk
    rcases rtcPass_eq_ok passes with ⟨behind, isReadAgain⟩
    exact ⟨behind, of_not_not differ, isRead, isReadAgain⟩

end Reading

/-- When the time changes at most once from the first reading of the last pass but one to the
last reading of the last pass, the loop ends with the time that the clock held at some
reading in between, and this is what the function converts. -/
theorem rtcLoop_snapshot {registers : ℕ → UInt8 → UInt8} {centuryRegister : UInt8}
    {fuel reading : ℕ} {previous last : RtcPass}
    (returns : rtcLoop registers centuryRegister fuel reading = .ok (previous, last))
    (once : AtMostOnce (timeAt registers centuryRegister) previous.start
      (last.start + passLength centuryRegister - 1)) :
    ∃ moment, previous.start ≤ moment ∧ moment ≤ last.start ∧
      last.raw = timeAt registers centuryRegister moment ∧
      ∃ registerB, rtcRead registers centuryRegister fuel reading =
        .ok ((timeAt registers centuryRegister moment).convert centuryRegister registerB) := by
  have converts : rtcRead registers centuryRegister fuel reading =
      .ok (last.raw.convert centuryRegister
        (registers (last.start + passLength centuryRegister) 0x0B)) := by
    rw [rtcRead, returns]
    rfl
  rcases rtcLoop_eq_ok returns with ⟨behind, same, previousRead, lastRead⟩
  have length : 6 ≤ passLength centuryRegister := six_le_passLength
  rcases once.constant_before_or_after (show previous.start ≤ last.start by omega)
    (show last.start ≤ last.start + passLength centuryRegister - 1 by omega) with before | after
  · -- The previous pass was over before the change.
    have whole : last.raw = timeAt registers centuryRegister previous.start := by
      rw [← same, previousRead]
      apply readRegisters_eq_timeAt
      intro moment later inside
      exact before moment later (by omega)
    exact ⟨previous.start, Nat.le_refl _, by omega, whole, _, whole ▸ converts⟩
  · -- The last pass began behind it.
    have whole : last.raw = timeAt registers centuryRegister last.start := by
      rw [lastRead]
      exact readRegisters_eq_timeAt after
    exact ⟨last.start, by omega, Nat.le_refl _, whole, _, whole ▸ converts⟩

/-- A clock whose seconds go on between the two readings of the minutes. -/
def tickingRegisters (reading : ℕ) (register : UInt8) : UInt8 :=
  if register = 0x00 then (if reading ≤ 8 then 0x58 else 0x59)
  else if register = 0x0A then 0
  else 0x01

theorem rtcLoop_snapshot_ticking :
    ∃ moment, 1 ≤ moment ∧ moment ≤ 8 ∧
      (⟨0x58, 1, 1, 1, 1, 1, 0⟩ : RtcRaw) = timeAt tickingRegisters 0 moment ∧
      ∃ registerB, rtcRead tickingRegisters 0 2 0 =
        .ok ((timeAt tickingRegisters 0 moment).convert 0 registerB) := by
  have once : AtMostOnce (timeAt tickingRegisters 0) 1 13 := by
    have only : ∀ m, timeAt tickingRegisters 0 m ≠ timeAt tickingRegisters 0 (m + 1) → m = 8 := by
      intro m changes
      by_contra different
      apply changes
      have same : m ≤ 8 ↔ m + 1 ≤ 8 := by omega
      simp only [timeAt, tickingRegisters, same]
    intro m n _ _ _ _ changes changesAgain
    rw [only m changes, only n changesAgain]
  exact @rtcLoop_snapshot tickingRegisters 0 2 0 ⟨1, _⟩ ⟨8, _⟩ rfl once

end Osserver
