import Osserver.Format.Div
import Osserver.Lib.Loop
import Osserver.Lib.Sink

/-!
# Formatted output

The model of `vsnprintf` in `generic/std/format.c` and of the functions that it writes with.
A pointer into the format is what is left of it, with the zero at its end. The buffer is
known by its address, and a place in it is counted from there.
-/

namespace Osserver

open Loop

def padZero : UInt8 := 1

def padLeft : UInt8 := 2

/-- `fmt`. The sink is the buffer with `current`, `end` and `end + 1`. -/
structure Fmt where
  sink : Sink UInt8
  flags : UInt8
  width : Int32

/-- The words that a `va_list` goes through, and the strings that arguments point to. -/
structure VaList where
  word : ℕ → UInt32
  string : UInt32 → CString

/-- `va_arg` of a 64-bit type: the lower word comes first. -/
def VaList.long (args : VaList) (i : ℕ) : UInt64 :=
  UInt64.ofNat ((args.word i).toNat + 2 ^ 32 * (args.word (i + 1)).toNat)

def formatOutChar (fmt : Fmt) (c : UInt8) : Fmt :=
  { fmt with sink := fmt.sink.put c }

/-- `while (--width >= 0) format_out_char(fmt, pad)`, and what `width` is after it. -/
def padLoop (pad : UInt8) (width : Int32) (fmt : Fmt) : Int32 × Fmt :=
  if 0 ≤ width - 1 then padLoop pad (width - 1) (formatOutChar fmt pad)
  else (width - 1, fmt)
termination_by ((width - 1).toInt + 1).toNat
decreasing_by
  rename_i goesOn
  rw [Int32.le_iff_toInt_le] at goesOn
  change 0 ≤ (width - 1).toInt at goesOn
  rw [@toInt_pred (width - 1) (by omega)]
  omega

def formatOutString (fmt : Fmt) (str : CString) : Fmt :=
  let pad := if fmt.flags &&& padZero = padZero then 0x30 else 0x20
  let (width, fmt) :=
    if ~~~fmt.flags &&& padLeft ≠ 0 then padLoop pad fmt.width fmt else (fmt.width, fmt)
  let fmt := str.chars.foldl formatOutChar fmt
  (padLoop pad width fmt).2

/-- The digit loop of `format_out_dec`, with room for the given number of digits in front. -/
def decDigits : ℕ → UInt64 → List UInt8 → Except Fault (List UInt8)
  | 0, _, _ => .error .outOfBuffer
  | room + 1, num, digits =>
      let d := div num.toUInt32.toInt32 10
      let c := (0x30 + d.rem).toInt8.toUInt8
      let digits := c :: digits
      let num := d.quot.toInt64.toUInt64
      if num > 0 then decDigits room num digits else .ok digits

def formatOutDec (fmt : Fmt) (num : UInt64) : Except Fault Fmt :=
  (decDigits 31 num []).map fun digits =>
    formatOutString { fmt with width := fmt.width - Int32.ofNat digits.length }
      (CString.ofBytes digits)

/-- The digit loop of `format_out_hex`. -/
def hexDigits (type : UInt8) : ℕ → UInt64 → List UInt8 → Except Fault (List UInt8)
  | 0, _, _ => .error .outOfBuffer
  | room + 1, num, digits =>
      let digit := (num &&& 0xF).toUInt8
      let c :=
        if digit < 10 then 0x30 + digit
        else if type = 0x78 then 0x61 + digit - 10
        else 0x41 + digit - 10
      let digits := c :: digits
      let num := num >>> 4
      if num > 0 then hexDigits type room num digits else .ok digits

def formatOutHex (fmt : Fmt) (type : UInt8) (num : UInt64) : Except Fault Fmt :=
  (hexDigits type 31 num []).map fun digits =>
    formatOutString { fmt with width := fmt.width - Int32.ofNat digits.length }
      (CString.ofBytes digits)

def formatOutPointer (fmt : Fmt) (p : UInt32) : Except Fault Fmt :=
  formatOutHex fmt 0x78 p.toUInt64

/-- What `vsnprintf` reads of a conversion, up to the character that it switches on. -/
structure Directive where
  flags : UInt8
  width : Int32
  isLongLong : Bool
  type : UInt8
  deriving DecidableEq

section Parsing

/-! In what follows `c` of the source is the first character of what is left. -/

def parseFlags : List UInt8 → Except Fault (UInt8 × List UInt8)
  | [] => .error .outOfString
  | c :: format =>
      if c = 0x2D then .ok (padLeft, format)
      else if c = 0x30 then .ok (padZero, format)
      else .ok (0, c :: format)

def widthLoop (width : Int32) : List UInt8 → Except Fault (Int32 × List UInt8)
  | [] => .error .outOfString
  | c :: format =>
      if formatIsDigit c then widthLoop (width * 10 + c.toInt8.toInt32 - 0x30) format
      else .ok (width, c :: format)

def parseWidth : List UInt8 → Except Fault (Int32 × List UInt8)
  | [] => .error .outOfString
  | c :: format => if formatIsDigit c then widthLoop 0 (c :: format) else .ok (-1, c :: format)

def parseLong : List UInt8 → Except Fault (Bool × List UInt8)
  | [] => .error .outOfString
  | c :: format =>
      if c = 0x6C then
        match format with
        | [] => .error .outOfString
        | c :: format => if c = 0x6C then .ok (true, format) else .ok (false, c :: format)
      else .ok (false, c :: format)

def parseDirective (format : List UInt8) : Except Fault (Directive × List UInt8) := do
  let (flags, format) ← parseFlags format
  let (width, format) ← parseWidth format
  let (isLongLong, format) ← parseLong format
  match format with
  | [] => .error .outOfString
  | type :: format => .ok (⟨flags, width, isLongLong, type⟩, format)

end Parsing

/-- The cases of the `switch`. -/
inductive Conversion where
  | percent
  | char
  | string
  | signed
  | unsigned
  | hex
  | pointer
  deriving DecidableEq

def conversionOf (type : UInt8) : Option Conversion :=
  if type = 0x25 then some .percent
  else if type = 0x63 then some .char
  else if type = 0x73 then some .string
  else if type = 0x64 then some .signed
  else if type = 0x75 then some .unsigned
  else if type = 0x78 ∨ type = 0x58 then some .hex
  else if type = 0x70 then some .pointer
  else none

/-- `"(null)"`. -/
def nullString : CString :=
  ⟨[0x28, 0x6E, 0x75, 0x6C, 0x6C, 0x29], by decide⟩

/-- `n` of the case `'d'`. -/
def VaList.signedArg (args : VaList) (i : ℕ) (isLongLong : Bool) : Int64 :=
  if isLongLong then (args.long i).toInt64 else (args.word i).toInt32.toInt64

/-- `n` of the cases `'u'`, `'x'` and `'X'`. -/
def VaList.unsignedArg (args : VaList) (i : ℕ) (isLongLong : Bool) : UInt64 :=
  if isLongLong then args.long i else (args.word i).toUInt64

/-- `s` of the case `'s'`. -/
def VaList.stringArg (args : VaList) (i : ℕ) : CString :=
  if args.word i = 0 then nullString else args.string (args.word i)

def longWords (isLongLong : Bool) : ℕ :=
  if isLongLong then 2 else 1

/-- A case of the `switch`, where `i` words of the arguments have been taken; and how many
have been taken after it. -/
def convert (args : VaList) (d : Directive) (i : ℕ) (fmt : Fmt) :
    Conversion → Except Fault (ℕ × Fmt)
  | .percent => .ok (i, formatOutChar fmt 0x25)
  | .char => .ok (i + 1, formatOutChar fmt (args.word i).toUInt8)
  | .string =>
      let s := args.stringArg i
      let fmt :=
        if fmt.width > 0 then { fmt with width := fmt.width - Int32.ofNat (strlen s) } else fmt
      .ok (i + 1, formatOutString fmt s)
  | .signed =>
      let n := args.signedArg i d.isLongLong
      let (n, fmt) := if n < 0 then (-n, formatOutChar fmt 0x2D) else (n, fmt)
      (formatOutDec fmt n.toUInt64).map fun fmt => (i + longWords d.isLongLong, fmt)
  | .unsigned =>
      (formatOutDec fmt (args.unsignedArg i d.isLongLong)).map fun fmt =>
        (i + longWords d.isLongLong, fmt)
  | .hex =>
      (formatOutHex fmt d.type (args.unsignedArg i d.isLongLong)).map fun fmt =>
        (i + longWords d.isLongLong, fmt)
  | .pointer =>
      (formatOutPointer (formatOutChar (formatOutChar fmt 0x30) 0x78) (args.word i)).map fun fmt =>
        (i + 1, fmt)

/-- What `vsnprintf` is at when it comes to the start of its loop: what is left of the
format, how many words of the arguments have been taken, and `fmt`. -/
structure Cursor where
  format : List UInt8
  taken : ℕ
  fmt : Fmt

/-- What `vsnprintf` leaves in the buffer, and what it returns. -/
structure Formatted where
  sink : Sink UInt8
  result : Int32

/-- What comes behind the loop. -/
def finish (fmt : Fmt) : Formatted :=
  let sink := fmt.sink.close 0
  ⟨sink, Int32.ofNat sink.position⟩

/-- One pass of the loop. -/
def formatPass (args : VaList) (s : Cursor) : Pass Cursor (Except Fault Formatted) :=
  match s.format with
  | [] => .done (.error .outOfString)
  | c :: format =>
      if c = 0 then .done (.ok (finish s.fmt))
      else if c ≠ 0x25 then .again ⟨format, s.taken, formatOutChar s.fmt c⟩
      else
        match parseDirective format with
        | .error fault => .done (.error fault)
        | .ok (d, format) =>
            match conversionOf d.type with
            | none => .done (.ok ⟨s.fmt.sink, -1⟩)
            | some conversion =>
                match convert args d s.taken { s.fmt with flags := d.flags, width := d.width }
                  conversion with
                | .error fault => .done (.error fault)
                | .ok (taken, fmt) => .again ⟨format, taken, fmt⟩

/-- `fmt.end`. The sum wraps at the end of the address space. -/
def fmtEnd (str size : UInt32) : UInt32 :=
  str + size - 1

/-- The buffer with what is in memory from `str` on, before anything is put out. -/
def openBuffer (contents : ℕ → UInt8) (str size : UInt32) : Sink UInt8 :=
  .fresh contents ((fmtEnd str size).toNat - str.toNat) ((fmtEnd str size + 1).toNat - str.toNat)

/-- `vsnprintf`. A pass takes at least one character of the format. -/
def vsnprintf (contents : ℕ → UInt8) (str size : UInt32) (format : CString) (args : VaList) :
    Except Fault Formatted :=
  match run (formatPass args) (format.chars.length + 1)
    ⟨format.chars ++ [0], 0, ⟨openBuffer contents str size, 0, 0⟩⟩ with
  | none => .error .endlessLoop
  | some outcome => outcome

end Osserver
