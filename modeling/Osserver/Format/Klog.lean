import Osserver.Dev.Vga
import Osserver.Format.Bounded

/-!
# Log lines

The model of `generic/sys/klog.c`. A line is formatted into a fresh buffer of 300 bytes,
which is then handed to the text console. `kmalloc` returns a buffer here, at some address and
with whatever it held before.
-/

namespace Osserver

/-- What is handed to `vga_write_line`. -/
structure LogLine where
  buf : Sink UInt8
  color : VgaColor

def klogSize : UInt32 := 300

/-- The body that the three functions share. They leave the result of `vsnprintf` alone. -/
def logLine (color : VgaColor) (contents : ℕ → UInt8) (buf : UInt32) (msg : CString)
    (args : VaList) : Except Fault LogLine :=
  (vsnprintf contents buf klogSize msg args).map fun out => ⟨out.sink, color⟩

def klog := logLine .white

def kwarning := logLine .green

def kerror := logLine .red

/-- The buffer holds a string, and this call has written what is before its zero. -/
def LogLine.Terminated (line : LogLine) : Prop :=
  ∃ k < klogSize.toNat, line.buf.contents k = 0 ∧ ∀ i < k, i ∈ line.buf.stored

/-- The call hands a string to the console. -/
def LogsString (log : (ℕ → UInt8) → UInt32 → CString → VaList → Except Fault LogLine)
    (contents : ℕ → UInt8) (buf : UInt32) (msg : CString) (args : VaList) : Prop :=
  ∃ line, log contents buf msg args = .ok line ∧ line.Terminated

/-- The text has a zero among the characters that there is room for, or the buffer held one
behind them. -/
def ZeroByChance (contents : ℕ → UInt8) (buf : UInt32) (msg : CString) (args : VaList) : Prop :=
  0 ∈ (formatText msg args).take (textRoom buf klogSize) ∨
    contents (min (textRoom buf klogSize) (formatText msg args).length) = 0

section Terminated

variable {color : VgaColor} {contents : ℕ → UInt8} {buf : UInt32} {msg : CString} {args : VaList}

theorem textRoom_klogSize_le (buf : UInt32) : textRoom buf klogSize ≤ 299 := by
  have size : klogSize.toNat = 300 := rfl
  by_cases inside : buf.toNat + klogSize.toNat ≤ 2 ^ 32
  · rw [textRoom_of_inside (by omega) inside]
    omega
  · rw [textRoom_of_outside (by omega)]
    omega

theorem klog_position : (written contents buf klogSize msg args).position =
    min (textRoom buf klogSize) (formatText msg args).length :=
  written_position

theorem klog_position_lt : (written contents buf klogSize msg args).position < klogSize.toNat := by
  have size : klogSize.toNat = 300 := rfl
  have room := textRoom_klogSize_le buf
  rw [klog_position, size]
  omega

theorem terminated_of_closed (inside : buf.toNat + 300 < 2 ^ 32) :
    LogLine.Terminated
      ⟨(ending true (written contents buf klogSize msg args)).sink, color⟩ := by
  have holds := @written_holds contents buf klogSize msg args
  have size : klogSize.toNat = 300 := rfl
  have room := textRoom_klogSize_le buf
  have place : ((written contents buf klogSize msg args).position : ℤ) <
      (written contents buf klogSize msg args).closeStop := by
    rw [klog_position, written_closeStop, fmtEnd_succ_toNat, size, Nat.mod_eq_of_lt inside]
    omega
  refine ⟨_, klog_position_lt, (holds.close place).1, ?_⟩
  intro i before
  exact Sink.mem_close_stored (holds.mem_stored_iff.mpr before)

/-- Without a zero behind the text, there has to be one in it or in the old buffer. -/
theorem terminated_iff_of_open :
    LogLine.Terminated ⟨written contents buf klogSize msg args, color⟩ ↔
      ZeroByChance contents buf msg args := by
  have holds := @written_holds contents buf klogSize msg args
  have position := @klog_position contents buf msg args
  constructor
  · rintro ⟨k, -, isZero, stored⟩
    change (written contents buf klogSize msg args).contents k = 0 at isZero
    rcases Nat.lt_trichotomy k (written contents buf klogSize msg args).position with
      before | behind | after
    · left
      have inText := holds.front k before
      rw [isZero] at inText
      rw [position] at before
      rw [List.mem_iff_getElem?]
      refine ⟨k, ?_⟩
      rw [List.getElem?_take, if_pos (by omega), ← inText]
    · right
      rw [holds.rest k (Nat.le_of_eq behind.symm), behind, position] at isZero
      exact isZero
    · exact absurd (holds.mem_stored_iff.mp (stored _ after)) (Nat.lt_irrefl _)
  · rintro (inText | behind)
    · rcases List.mem_iff_getElem?.mp inText with ⟨k, atK⟩
      rw [List.getElem?_take] at atK
      split at atK
      · rename_i inside
        rcases List.getElem?_eq_some_iff.mp atK with ⟨inLength, -⟩
        have before : k < (written contents buf klogSize msg args).position := by omega
        refine ⟨k, Nat.lt_trans before klog_position_lt, ?_, ?_⟩
        · have front := holds.front k before
          rw [atK] at front
          exact Option.some.inj front
        · intro i earlier
          exact holds.mem_stored_iff.mpr (Nat.lt_trans earlier before)
      · cases atK
    · refine ⟨_, klog_position_lt, ?_, fun i before => holds.mem_stored_iff.mpr before⟩
      rw [← position] at behind
      exact (holds.rest _ (Nat.le_refl _)).trans behind

/-- The buffer is closed for a supported format, when it ends before the address space. -/
theorem terminated_iff :
    LogLine.Terminated
        ⟨(ending (Supported msg) (written contents buf klogSize msg args)).sink, color⟩ ↔
      Supported msg ∧ buf.toNat + 300 < 2 ^ 32 ∨ ZeroByChance contents buf msg args := by
  by_cases supported : Supported msg
  · rw [decide_eq_true supported, and_iff_right supported]
    by_cases inside : buf.toNat + 300 < 2 ^ 32
    · exact iff_of_true (terminated_of_closed inside) (Or.inl inside)
    · rw [written_not_closed (Nat.le_of_not_lt inside), or_iff_right inside]
      exact terminated_iff_of_open
  · rw [decide_eq_false supported, or_iff_right fun closed => supported closed.1]
    exact terminated_iff_of_open

theorem logLine_string_iff :
    LogsString (logLine color) contents buf msg args ↔
      DecimalsFit msg args ∧
        (Supported msg ∧ buf.toNat + 300 < 2 ^ 32 ∨ ZeroByChance contents buf msg args) := by
  by_cases fits : DecimalsFit msg args
  · have logged : LogsString (logLine color) contents buf msg args ↔
        LogLine.Terminated
          ⟨(ending (Supported msg) (written contents buf klogSize msg args)).sink, color⟩ := by
      simp [LogsString, logLine, vsnprintf_eq_ok fits, Except.map]
    rw [and_iff_right fits, logged, terminated_iff]
  · refine iff_of_false ?_ fun holds => fits holds.1
    rintro ⟨line, returns, -⟩
    rw [logLine, vsnprintf_eq_error fits] at returns
    cases returns

end Terminated

/-- A log line is a string just when the digits of its numbers fit, and the format is supported
and the buffer ends before the address space, or there is a zero by chance. -/
theorem log_lines_terminated (contents : ℕ → UInt8) (buf : UInt32) (msg : CString)
    (args : VaList) :
    let isString := DecimalsFit msg args ∧
      (Supported msg ∧ buf.toNat + 300 < 2 ^ 32 ∨ ZeroByChance contents buf msg args)
    (LogsString klog contents buf msg args ↔ isString) ∧
      (LogsString kwarning contents buf msg args ↔ isString) ∧
        (LogsString kerror contents buf msg args ↔ isString) :=
  ⟨logLine_string_iff, logLine_string_iff, logLine_string_iff⟩

/-- With an unknown conversion the old buffer is handed on. -/
theorem klog_unsupported_not_terminated :
    ¬LogsString klog (fun _ => 0x41) 0xC0D00000 ⟨[0x25, 0x71], by decide⟩
      ⟨fun _ => 0, fun _ => nullString⟩ := by
  rintro ⟨line, returns, k, -, isZero, -⟩
  cases returns
  cases isZero

end Osserver
