import Osserver.Time.Rtc

/-!
# The time as the clock encodes it

The clock holds a time in one of four forms: in BCD or binary, with the hours from 0 to 23
or with the hours from 1 to 12 and a bit for the afternoon. Register B says which. What
`_rtc_read` makes of it is the time again, but for the two hours that a clock with twelve
hours writes as 12: midnight becomes noon, and noon midnight.
-/

namespace Osserver

open Loop Outcome

/-- The leap years. -/
def isLeapYear (year : ℕ) : Bool :=
  year % 4 = 0 && (year % 100 ≠ 0 || year % 400 = 0)

def daysInMonth (year month : ℕ) : ℕ :=
  if month = 2 then (if isLeapYear year then 29 else 28)
  else if month = 4 ∨ month = 6 ∨ month = 9 ∨ month = 11 then 30
  else 31

/-- A date and a time of the day. -/
structure CalendarTime where
  year : ℕ
  month : ℕ
  day : ℕ
  hour : ℕ
  minute : ℕ
  second : ℕ
  month_range : 1 ≤ month ∧ month ≤ 12
  day_range : 1 ≤ day ∧ day ≤ daysInMonth year month
  hour_lt : hour < 24
  minute_lt : minute < 60
  second_lt : second < 60

/-- A number below a hundred, in the form that register B says. -/
def encodeNumber (registerB : UInt8) (n : ℕ) : UInt8 :=
  if registerB &&& 0x04 = 0 then UInt8.ofNat (n / 10 * 16 + n % 10) else UInt8.ofNat n

/-- The hour on a clock with twelve hours, on which midnight and noon are 12. -/
def hourOf12 (hour : ℕ) : ℕ :=
  if hour % 12 = 0 then 12 else hour % 12

/-- The hour, in the form that register B says. -/
def encodeHour (registerB : UInt8) (hour : ℕ) : UInt8 :=
  if registerB &&& 0x02 = 0 then
    encodeNumber registerB (hourOf12 hour) ||| (if 12 ≤ hour then 0x80 else 0)
  else encodeNumber registerB hour

/-- The registers hold the time and register B, and there is always a reading to come at which
no update is in progress. -/
structure HoldsTime (registers : ℕ → UInt8 → UInt8) (time : CalendarTime) (registerB : UInt8) :
    Prop where
  second : ∀ reading, registers reading 0x00 = encodeNumber registerB time.second
  minute : ∀ reading, registers reading 0x02 = encodeNumber registerB time.minute
  hour : ∀ reading, registers reading 0x04 = encodeHour registerB time.hour
  day : ∀ reading, registers reading 0x07 = encodeNumber registerB time.day
  month : ∀ reading, registers reading 0x08 = encodeNumber registerB time.month
  year : ∀ reading, registers reading 0x09 = encodeNumber registerB (time.year % 100)
  registerB : ∀ reading, registers reading 0x0B = registerB
  updated : ∀ reading, ∃ later, reading ≤ later ∧ rtcUpdateInProgressFlag registers later = false

/-- The variables hold the time. -/
structure Rtc.Shows (rtc : Rtc) (time : CalendarTime) : Prop where
  second : rtc.second.toNat = time.second
  minute : rtc.minute.toNat = time.minute
  hour : rtc.hour.toNat = time.hour
  day : rtc.day.toNat = time.day
  month : rtc.month.toNat = time.month
  year : rtc.year.toNat = time.year

/-- What `_rtc_read` reads of the time. -/
def CalendarTime.raw (time : CalendarTime) (registerB : UInt8) : RtcRaw where
  second := encodeNumber registerB time.second
  minute := encodeNumber registerB time.minute
  hour := encodeHour registerB time.hour
  day := encodeNumber registerB time.day
  month := encodeNumber registerB time.month
  year := (encodeNumber registerB (time.year % 100)).toUInt32
  century := 0

section Decoding

variable {registerB : UInt8} {time : CalendarTime} {n : ℕ}

theorem bcd_number : ∀ n : Fin 100,
    (bcdToBinary (UInt8.ofNat (n / 10 * 16 + n % 10))).toNat = n := by
  decide +kernel

theorem bcd_year : ∀ n : Fin 100,
    ((UInt8.ofNat (n / 10 * 16 + n % 10)).toUInt32 &&& 0x0F) +
      (UInt8.ofNat (n / 10 * 16 + n % 10)).toUInt32 / 16 * 10 = UInt32.ofNat n := by
  decide +kernel

theorem binary_year : ∀ n : Fin 100, (UInt8.ofNat n).toUInt32 = UInt32.ofNat n := by
  decide +kernel

/-- The two digits of a year stand for the one from 2018 on. -/
theorem fullYear_ofNat : ∀ n : Fin 100,
    (fullYear (UInt32.ofNat n) 0 0).toNat = if n.val < 18 then 2100 + n.val else 2000 + n.val := by
  decide +kernel

theorem bcd_hour24 : ∀ h : Fin 24,
    (bcdHourToBinary (UInt8.ofNat (h / 10 * 16 + h % 10))).toNat = h := by
  decide +kernel

theorem bcd_hour12 : ∀ h : Fin 24,
    (hourTo24 (bcdHourToBinary (UInt8.ofNat (hourOf12 h / 10 * 16 + hourOf12 h % 10) |||
      (if 12 ≤ h.val then 0x80 else 0))) 0).toNat = h ↔ h.val % 12 ≠ 0 := by
  decide +kernel

theorem binary_hour12 : ∀ h : Fin 24,
    (hourTo24 (UInt8.ofNat (hourOf12 h) ||| (if 12 ≤ h.val then 0x80 else 0)) 0).toNat = h ↔
      h.val % 12 ≠ 0 := by
  decide +kernel

theorem toNat_small (small : n < 100) : (UInt8.ofNat n).toNat = n :=
  UInt8.toNat_ofNat_of_lt' (show n < 256 by omega)

theorem decode_number (small : n < 100) :
    (if registerB &&& 0x04 = 0 then bcdToBinary (encodeNumber registerB n)
      else encodeNumber registerB n).toNat = n := by
  by_cases bcd : registerB &&& 0x04 = 0
  · simp only [encodeNumber, if_pos bcd]
    exact bcd_number ⟨n, small⟩
  · simp only [encodeNumber, if_neg bcd]
    exact toNat_small small

/-- A year of the hundred years from 2018 on is the same again. -/
theorem decode_year (begins : 2018 ≤ time.year) (ends : time.year ≤ 2117) :
    (fullYear ((time.raw registerB).toBinary 0 registerB).year 0 0).toNat = time.year := by
  have small : time.year % 100 < 100 := Nat.mod_lt _ (by omega)
  have digits : ((time.raw registerB).toBinary 0 registerB).year =
      UInt32.ofNat (time.year % 100) := by
    by_cases bcd : registerB &&& 0x04 = 0
    · simp only [RtcRaw.toBinary, CalendarTime.raw, encodeNumber, if_pos bcd]
      exact bcd_year ⟨_, small⟩
    · simp only [RtcRaw.toBinary, CalendarTime.raw, encodeNumber, if_neg bcd]
      exact binary_year ⟨_, small⟩
  have full := fullYear_ofNat ⟨_, small⟩
  simp only at full
  rw [digits, full]
  split_ifs
  · omega
  · omega

/-- An hour is the same again, but midnight and noon on a clock with twelve hours. -/
theorem decode_hour_iff :
    (hourTo24 ((time.raw registerB).toBinary 0 registerB).hour registerB).toNat = time.hour ↔
      registerB &&& 0x02 ≠ 0 ∨ time.hour % 12 ≠ 0 := by
  have inside : time.hour < 24 := time.hour_lt
  by_cases twelve : registerB &&& 0x02 = 0
  · have asZero : ∀ hour, hourTo24 hour registerB = hourTo24 hour 0 := by
      intro hour
      simp [hourTo24, twelve]
    simp only [asZero, ne_eq, twelve, not_true, false_or]
    by_cases bcd : registerB &&& 0x04 = 0
    · simp only [RtcRaw.toBinary, CalendarTime.raw, encodeHour, encodeNumber, if_pos bcd,
        if_pos twelve]
      exact bcd_hour12 ⟨_, inside⟩
    · simp only [RtcRaw.toBinary, CalendarTime.raw, encodeHour, encodeNumber, if_neg bcd,
        if_pos twelve]
      exact binary_hour12 ⟨_, inside⟩
  · have asIs : ∀ hour, hourTo24 hour registerB = hour := by
      intro hour
      simp [hourTo24, twelve]
    simp only [asIs, ne_eq, twelve, not_false_eq_true, true_or, iff_true]
    by_cases bcd : registerB &&& 0x04 = 0
    · simp only [RtcRaw.toBinary, CalendarTime.raw, encodeHour, encodeNumber, if_pos bcd,
        if_neg twelve]
      exact bcd_hour24 ⟨_, inside⟩
    · simp only [RtcRaw.toBinary, CalendarTime.raw, encodeHour, encodeNumber, if_neg bcd,
        if_neg twelve]
      exact toNat_small (by omega)

theorem CalendarTime.day_le : time.day ≤ 31 := by
  apply Nat.le_trans time.day_range.2
  rw [daysInMonth]
  split_ifs
  · omega
  · omega
  · omega
  · omega

theorem convert_shows_iff (begins : 2018 ≤ time.year) (ends : time.year ≤ 2117) :
    ((time.raw registerB).convert 0 registerB).Shows time ↔
      registerB &&& 0x02 ≠ 0 ∨ time.hour % 12 ≠ 0 := by
  rw [← decode_hour_iff]
  constructor
  · intro shows
    exact shows.hour
  · intro hour
    have minute : time.minute < 60 := time.minute_lt
    have second : time.second < 60 := time.second_lt
    have month : time.month ≤ 12 := time.month_range.2
    have day : time.day ≤ 31 := time.day_le
    have century : ((time.raw registerB).toBinary 0 registerB).century = 0 := by
      by_cases bcd : registerB &&& 0x04 = 0
      · simp [RtcRaw.toBinary, CalendarTime.raw, bcd]
      · simp [RtcRaw.toBinary, CalendarTime.raw, bcd]
    refine ⟨?_, ?_, hour, ?_, ?_, ?_⟩
    · rw [RtcRaw.convert, RtcRaw.toBinary, apply_ite RtcRaw.second]
      exact decode_number (by omega)
    · rw [RtcRaw.convert, RtcRaw.toBinary, apply_ite RtcRaw.minute]
      exact decode_number (by omega)
    · rw [RtcRaw.convert, RtcRaw.toBinary, apply_ite RtcRaw.day]
      exact decode_number (by omega)
    · rw [RtcRaw.convert, RtcRaw.toBinary, apply_ite RtcRaw.month]
      exact decode_number (by omega)
    · simp only [RtcRaw.convert, century]
      exact decode_year begins ends

end Decoding

section Steady

variable {registers : ℕ → UInt8 → UInt8} {time : CalendarTime} {registerB : UInt8}
  {fuel reading : ℕ} {after : Rtc}

theorem HoldsTime.readsTime (holds : HoldsTime registers time registerB) (reading : ℕ) :
    readRegisters registers 0 reading = time.raw registerB := by
  simp only [readRegisters, CalendarTime.raw, holds.second, holds.minute, holds.hour,
    holds.day, holds.month, holds.year, ne_eq, not_true, if_false]

/-- The wait for the end of an update ends. -/
theorem HoldsTime.waits (holds : HoldsTime registers time registerB) (reading : ℕ) :
    Ends (updatePass registers) reading := by
  rcases holds.updated reading with ⟨later, behind, clear⟩
  apply @ends_of_measure _ _ _ _ (fun s => s ≤ later) (fun s => later + 1 - s) behind
  intro s next inside goesOn
  rw [updatePass] at goesOn
  split_ifs at goesOn with inProgress
  cases goesOn
  have different : s ≠ later := by
    rintro rfl
    rw [clear] at inProgress
    cases inProgress
  omega

/-- A clock that stands still is read twice. -/
theorem HoldsTime.rtcRead_returns (holds : HoldsTime registers time registerB) (reading : ℕ) :
    ∃ fuel, rtcRead registers 0 fuel reading = .ok ((time.raw registerB).convert 0 registerB) := by
  rcases holds.waits reading with ⟨firstFuel, first, firstWait⟩
  rcases holds.waits (first + passLength 0) with ⟨secondFuel, second, secondWait⟩
  have firstPass : rtcPass registers 0 (firstFuel + secondFuel + 1) reading =
      .ok ⟨first, time.raw registerB⟩ := by
    rw [rtcPass, run_mono firstWait (by omega), ← holds.readsTime first]
    rfl
  have secondPass : rtcPass registers 0 (firstFuel + secondFuel + 1) (first + passLength 0) =
      .ok ⟨second, time.raw registerB⟩ := by
    rw [rtcPass, run_mono secondWait (by omega), ← holds.readsTime second]
    rfl
  have loopPass : rtcLoopPass registers 0 (firstFuel + secondFuel + 1) ⟨first, time.raw registerB⟩ =
      .done (.ok (⟨first, time.raw registerB⟩, ⟨second, time.raw registerB⟩)) := by
    simp only [rtcLoopPass, secondPass, ne_eq, not_true, if_false]
  refine ⟨firstFuel + secondFuel + 1, ?_⟩
  simp only [rtcRead, rtcLoop, bind_eq_ok]
  refine ⟨_, ⟨_, firstPass, _, loopResult_eq_ok.mpr (run_done loopPass), rfl⟩, ?_⟩
  simp only [holds.registerB]
  rfl

theorem HoldsTime.rtcRead_eq_ok (holds : HoldsTime registers time registerB)
    (returns : rtcRead registers 0 fuel reading = .ok after) :
    after = (time.raw registerB).convert 0 registerB := by
  rcases bind_eq_ok.mp returns with ⟨⟨previous, last⟩, loops, converts⟩
  have isRead := (rtcLoop_eq_ok loops).2.2.2
  simp only [isRead, holds.readsTime, holds.registerB] at converts
  cases converts
  rfl

end Steady

/-- A time from 2018 to 2117 that the clock holds is read right when the clock counts the hours
up to 24, or it is neither midnight nor noon. -/
theorem rtcRead_shows_iff {registers : ℕ → UInt8 → UInt8} {time : CalendarTime}
    {registerB : UInt8} (begins : 2018 ≤ time.year) (ends : time.year ≤ 2117)
    (holds : HoldsTime registers time registerB) (reading : ℕ) :
    (∃ fuel after, rtcRead registers 0 fuel reading = .ok after ∧ after.Shows time) ↔
      registerB &&& 0x02 ≠ 0 ∨ time.hour % 12 ≠ 0 := by
  rw [← convert_shows_iff begins ends]
  constructor
  · rintro ⟨fuel, after, returns, shows⟩
    rw [← holds.rtcRead_eq_ok returns]
    exact shows
  · intro shows
    rcases holds.rtcRead_returns reading with ⟨fuel, returns⟩
    exact ⟨fuel, _, returns, shows⟩

/-- A clock that stands still, and is never in an update. -/
def steadyRegisters (time : CalendarTime) (registerB : UInt8) (_reading : ℕ) (register : UInt8) :
    UInt8 :=
  if register = 0x00 then encodeNumber registerB time.second
  else if register = 0x02 then encodeNumber registerB time.minute
  else if register = 0x04 then encodeHour registerB time.hour
  else if register = 0x07 then encodeNumber registerB time.day
  else if register = 0x08 then encodeNumber registerB time.month
  else if register = 0x09 then encodeNumber registerB (time.year % 100)
  else if register = 0x0B then registerB
  else 0

theorem steadyRegisters_holds (time : CalendarTime) (registerB : UInt8) :
    HoldsTime (steadyRegisters time registerB) time registerB where
  second _ := rfl
  minute _ := rfl
  hour _ := rfl
  day _ := rfl
  month _ := rfl
  year _ := rfl
  registerB _ := rfl
  updated reading :=
    ⟨reading, Nat.le_refl _, by simp [rtcUpdateInProgressFlag, steadyRegisters]⟩

/-- A noon. -/
def leapDayNoon : CalendarTime where
  year := 2020
  month := 2
  day := 29
  hour := 12
  minute := 0
  second := 0
  month_range := by decide
  day_range := by decide
  hour_lt := by decide
  minute_lt := by decide
  second_lt := by decide

theorem rtcRead_shows_iff_noon24 :
    ∃ fuel after, rtcRead (steadyRegisters leapDayNoon 2) 0 fuel 0 = .ok after ∧
      after.Shows leapDayNoon :=
  (@rtcRead_shows_iff (steadyRegisters leapDayNoon 2) leapDayNoon 2 (by decide) (by decide)
    (steadyRegisters_holds _ _) 0).mpr (Or.inl (by decide))

/-- On a clock with twelve hours noon is read as midnight. -/
theorem rtcRead_noon :
    (∃ fuel after, rtcRead (steadyRegisters leapDayNoon 0) 0 fuel 0 = .ok after ∧
      after.hour = 0) ∧
    ¬∃ fuel after, rtcRead (steadyRegisters leapDayNoon 0) 0 fuel 0 = .ok after ∧
      after.Shows leapDayNoon := by
  have holds := steadyRegisters_holds leapDayNoon 0
  constructor
  · rcases holds.rtcRead_returns 0 with ⟨fuel, returns⟩
    exact ⟨fuel, _, returns, by decide⟩
  · rintro ⟨fuel, after, returns, shows⟩
    rw [holds.rtcRead_eq_ok returns, convert_shows_iff (by decide) (by decide)] at shows
    revert shows
    decide

end Osserver
