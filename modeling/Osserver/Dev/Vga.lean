import Osserver.CString
import Osserver.Lib.Loop
import Mathlib.Algebra.Group.Int.Defs
import Mathlib.Algebra.Group.Nat.Defs
import Mathlib.Data.Int.Basic
import Mathlib.Logic.Function.Basic

/-!
# The text console

The model of `generic/sys/dev/vga.c`. A line is written into the next row of the screen;
when all rows are in use, each row is first copied to the one above it and the last row is
cleared. So the screen is a window on the lines that have been written: it shows the last
of them, each cut off at the width of the screen.
-/

namespace Osserver

open Loop

/-- `vga_color`. -/
inductive VgaColor where
  | black
  | blue
  | green
  | cyan
  | red
  | magenta
  | brown
  | lightGrey
  | darkGrey
  | lightBlue
  | lightGreen
  | lightCyan
  | lightRed
  | lightMagenta
  | lightBrown
  | white
  deriving DecidableEq, Repr

/-- The number of a colour. -/
def VgaColor.value (color : VgaColor) : UInt8 :=
  UInt8.ofNat color.ctorIdx

/-- The variables of `vga.c`, the cells from `VGA_ADDRESS` on, and the cells that have been
stored to, in order. -/
structure Vga where
  yPos : UInt16
  width : UInt16
  height : UInt16
  screen : ℤ → UInt16
  stores : List ℤ

/-- A `char` is signed, and is extended before the colour is put above it. -/
def vgaEntry (uc : UInt8) (color : UInt8) : UInt16 :=
  uc.toInt8.toInt16.toUInt16 ||| color.toUInt16 <<< 8

def vgaSymbol (c : UInt8) (foreground background : VgaColor) : UInt16 :=
  vgaEntry c (foreground.value ||| background.value >>> 4)

/-- A blank: white on black. -/
def vgaBlank : UInt16 :=
  vgaSymbol 0x20 .white .black

/-- `h * width + w`, as an `int`. -/
def cellIndex (h : ℕ) (width : UInt16) (w : ℕ) : ℤ :=
  Int.bmod (h * width.toNat + w) (2 ^ 32)

def Vga.store (s : Vga) (index : ℤ) (symbol : UInt16) : Vga :=
  { s with
    screen := Function.update s.screen index symbol
    stores := s.stores ++ [index] }

/-- The inner loop of `vga_init`, and the loop that clears the last row. -/
def clearRow (row : ℕ) (s : Vga) : Vga :=
  s.width.toNat.fold (fun w _ s => s.store (cellIndex row s.width w) vgaBlank) s

def vgaInit (s : Vga) (width height : UInt16) : Vga :=
  height.toNat.fold (fun h _ s => clearRow h s) { s with width := width, height := height }

/-- The inner loop that copies row `h` to the row above. -/
def copyRow (h : ℕ) (s : Vga) : Vga :=
  s.width.toNat.fold
    (fun w _ s => s.store (cellIndex (h - 1) s.width w) (s.screen (cellIndex h s.width w))) s

/-- What `vga_write_line` does before it writes, when all rows are in use. -/
def scrollUp (s : Vga) : Vga :=
  let s := (s.height.toNat - 1).fold (fun k _ s => copyRow (k + 1) s) s
  let s := clearRow (s.height.toNat - 1) s
  { s with yPos := s.yPos - 1 }

/-- `len` of `vga_write_line`. -/
def lineLength (str : CString) (width : UInt16) : UInt16 :=
  let len := UInt16.ofNat (strlen str)
  if len > width then width else len

/-- The loop of `vga_write_line`. -/
def writeRow (str : CString) (foreground : VgaColor) (s : Vga) : Vga :=
  (lineLength str s.width).toNat.fold
    (fun i _ s => s.store (cellIndex s.yPos.toNat s.width i)
      (vgaSymbol (str.chars.getD i 0) foreground .black)) s

def vgaWriteLine (s : Vga) (str : CString) (foreground : VgaColor) : Vga :=
  let s := if s.yPos = s.height then scrollUp s else s
  let s := writeRow str foreground s
  { s with yPos := s.yPos + 1 }

/-- A line that has been written. -/
structure Line where
  str : CString
  foreground : VgaColor

def Vga.writeLines (s : Vga) (lines : List Line) : Vga :=
  lines.foldl (fun s line => vgaWriteLine s line.str line.foreground) s

end Osserver
