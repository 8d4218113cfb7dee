import Osserver.Dev.Vga
import Osserver.Lib.Recent

/-!
# The console is a window on the lines

Each loop of `vga.c` is described by the cells that it leaves on the screen, row by row.
From that the console refines a window on the lines that have been written.
-/

namespace Osserver

open Loop Recent CString

namespace Vga

def cell (s : Vga) (row column : ℕ) : UInt16 :=
  s.screen (cellIndex row s.width column)

/-- The cells of the screen have indices that are no negative numbers. -/
def Fits (s : Vga) : Prop :=
  s.width.toNat * s.height.toNat < 2 ^ 31

/-- The screen is left with the given cells, and nothing was stored outside it. -/
structure Draws (s s' : Vga) (cells : ℕ → ℕ → UInt16) : Prop where
  width : s'.width = s.width
  height : s'.height = s.height
  yPos : s'.yPos = s.yPos
  cell : ∀ row < s.height.toNat, ∀ column < s.width.toNat, s'.cell row column = cells row column
  stores : ∀ index ∈ s'.stores,
    index ∈ s.stores ∨ 0 ≤ index ∧ index < s.width.toNat * s.height.toNat

end Vga

section Cells

variable {width : UInt16} {height row column row' column' : ℕ}

theorem cell_lt (inRows : row < height) (inRow : column < width.toNat) :
    row * width.toNat + column < width.toNat * height := by
  have upTo : (row + 1) * width.toNat ≤ height * width.toNat :=
    Nat.mul_le_mul_right _ (Nat.succ_le_of_lt inRows)
  rw [Nat.succ_mul] at upTo
  rw [Nat.mul_comm width.toNat]
  omega

/-- A number that is small enough is an `int`. -/
theorem bmod_of_lt {index : ℕ} (small : index < 2 ^ 31) : Int.bmod index (2 ^ 32) = index := by
  apply Int.bmod_eq_of_le
  · omega
  · omega

theorem cellIndex_eq (fits : width.toNat * height < 2 ^ 31) (inRows : row < height)
    (inRow : column < width.toNat) :
    cellIndex row width column = ((row * width.toNat + column : ℕ) : ℤ) := by
  have small := bmod_of_lt (Nat.lt_trans (cell_lt inRows inRow) fits)
  push_cast at small
  exact small

theorem cellIndex_inj (fits : width.toNat * height < 2 ^ 31) (inRows : row < height)
    (inRow : column < width.toNat) (inRows' : row' < height) (inRow' : column' < width.toNat)
    (same : cellIndex row width column = cellIndex row' width column') :
    row = row' ∧ column = column' := by
  rw [cellIndex_eq fits inRows inRow, cellIndex_eq fits inRows' inRow'] at same
  have samePlace : row * width.toNat + column = row' * width.toNat + column' := by omega
  have sameColumn := congrArg (· % width.toNat) samePlace
  simp only [Nat.mul_add_mod_of_lt inRow, Nat.mul_add_mod_of_lt inRow'] at sameColumn
  subst sameColumn
  have sameRows : row * width.toNat = row' * width.toNat := by omega
  exact ⟨Nat.eq_of_mul_eq_mul_right (by omega) sameRows, rfl⟩

end Cells

section Draws

variable {s s' s'' : Vga} {cells cells' symbols : ℕ → ℕ → UInt16} {row column : ℕ}

namespace Vga.Draws

theorem refl : s.Draws s s.cell :=
  ⟨rfl, rfl, rfl, fun _ _ _ _ => rfl, fun _ stored => Or.inl stored⟩

theorem trans (first : s.Draws s' cells) (second : s'.Draws s'' cells') : s.Draws s'' cells' := by
  refine ⟨second.width.trans first.width, second.height.trans first.height,
    second.yPos.trans first.yPos, ?_, ?_⟩
  · intro row inRows column inRow
    apply second.cell
    · rw [first.height]
      exact inRows
    · rw [first.width]
      exact inRow
  · intro index stored
    rcases second.stores index stored with before | inside
    · exact first.stores index before
    · rw [first.width, first.height] at inside
      exact Or.inr inside

theorem congr (draws : s.Draws s' cells)
    (same : ∀ row < s.height.toNat, ∀ column < s.width.toNat,
      cells row column = cells' row column) : s.Draws s' cells' := by
  refine ⟨draws.width, draws.height, draws.yPos, ?_, draws.stores⟩
  intro row inRows column inRow
  rw [draws.cell row inRows column inRow, same row inRows column inRow]

theorem fits (draws : s.Draws s' cells) (fits : s.Fits) : s'.Fits := by
  rw [Vga.Fits, draws.width, draws.height]
  exact fits

theorem store (draws : s.Draws s' cells) (fits : s.Fits) (inRows : row < s.height.toNat)
    (inRow : column < s.width.toNat) (symbol : UInt16) :
    s.Draws (s'.store (cellIndex row s'.width column) symbol)
      (fun row' column' => if row' = row ∧ column' = column then symbol else cells row' column') := by
  refine ⟨draws.width, draws.height, draws.yPos, ?_, ?_⟩
  · intro row' inRows' column' inRow'
    simp only [Vga.cell, Vga.store, draws.width]
    by_cases same : row' = row ∧ column' = column
    · rw [if_pos same, same.1, same.2, Function.update_self]
    · have elsewhere : cellIndex row' s.width column' ≠ cellIndex row s.width column := by
        intro sameIndex
        exact same (cellIndex_inj fits inRows' inRow' inRows inRow sameIndex)
      rw [if_neg same, Function.update_of_ne elsewhere, ← draws.cell row' inRows' column' inRow',
        Vga.cell, draws.width]
  · intro index stored
    rcases List.mem_append.mp stored with before | now
    · exact draws.stores index before
    · rw [List.mem_singleton] at now
      rw [now, draws.width, cellIndex_eq fits inRows inRow]
      have inside := cell_lt inRows inRow
      right
      constructor
      · exact Int.natCast_nonneg _
      · exact_mod_cast inside

end Vga.Draws

/-- A loop that stores the cells of one row from the left on. -/
theorem draws_row {pass : ℕ → Vga → Vga} {symbol : ℕ → UInt16} {length : ℕ} (fits : s.Fits)
    (inRows : row < s.height.toNat) (inRow : length ≤ s.width.toNat)
    (stores : ∀ i < length, ∀ s',
      s.Draws s' (fun row' column => if row' = row ∧ column < i then symbol column
        else s.cell row' column) →
      pass i s' = s'.store (cellIndex row s'.width i) (symbol i)) :
    s.Draws (length.fold (fun i _ s => pass i s) s)
      (fun row' column => if row' = row ∧ column < length then symbol column
        else s.cell row' column) := by
  apply @fold_invariant _ s length (fun i s' => s.Draws s'
    (fun row' column => if row' = row ∧ column < i then symbol column else s.cell row' column))
  · apply Vga.Draws.refl.congr
    intro row' _ column _
    rw [if_neg (by omega)]
  · intro i inside s' draws
    rw [stores i inside s' draws]
    apply (draws.store fits inRows (Nat.lt_of_lt_of_le inside inRow) (symbol i)).congr
    intro row' _ column _
    by_cases now : row' = row ∧ column = i
    · rw [if_pos now, if_pos (by omega), now.2]
    · rw [if_neg now]
      by_cases earlier : row' = row ∧ column < i
      · rw [if_pos earlier, if_pos (by omega)]
      · rw [if_neg earlier, if_neg (by omega)]

theorem clearRow_draws (fits : s.Fits) (inRows : row < s.height.toNat) :
    s.Draws (clearRow row s) (fun row' column => if row' = row then vgaBlank
      else s.cell row' column) := by
  apply (draws_row fits inRows (Nat.le_refl _) fun _ _ _ _ => rfl).congr
  intro row' _ column inRow
  simp only [inRow, and_true]

/-- The row above becomes a copy: while it is stored to, the row itself stays. -/
theorem copyRow_draws (fits : s.Fits) (inRows : row + 1 < s.height.toNat) :
    s.Draws (copyRow (row + 1) s) (fun row' column => if row' = row then s.cell (row + 1) column
      else s.cell row' column) := by
  have below : row < s.height.toNat := Nat.lt_of_succ_lt inRows
  apply (draws_row fits below (Nat.le_refl _) _).congr
  · intro row' _ column inRow
    simp only [inRow, and_true]
    rfl
  · intro i inRow s' draws
    have kept := draws.cell (row + 1) inRows i inRow
    rw [if_neg (by omega)] at kept
    simp only [Nat.add_sub_cancel]
    rw [← kept]
    rfl

/-- The copies of all rows but the first. -/
theorem copyRows_draws (fits : s.Fits) :
    s.Draws ((s.height.toNat - 1).fold (fun k _ s => copyRow (k + 1) s) s)
      (fun row column => if row < s.height.toNat - 1 then s.cell (row + 1) column
        else s.cell row column) := by
  apply @fold_invariant _ s (s.height.toNat - 1) (fun k s' => s.Draws s'
    (fun row column => if row < k then s.cell (row + 1) column else s.cell row column))
  · apply Vga.Draws.refl.congr
    intro row _ column _
    rw [if_neg (Nat.not_lt_zero row)]
  · intro k inside s' draws
    have inRows : k + 1 < s'.height.toNat := by
      rw [draws.height]
      omega
    apply (draws.trans (copyRow_draws (draws.fits fits) inRows)).congr
    intro row inRows' column inRow
    by_cases now : row = k
    · rw [if_pos now, if_pos (by omega), draws.cell (k + 1) (by omega) column inRow,
        if_neg (by omega), now]
    · rw [if_neg now, draws.cell row inRows' column inRow]
      by_cases earlier : row < k
      · rw [if_pos earlier, if_pos (by omega)]
      · rw [if_neg earlier, if_neg (by omega)]

/-- All rows move up by one, the last row is blank, and there is room for a line again. -/
theorem scrollUp_draws (fits : s.Fits) (high : 0 < s.height.toNat) :
    ∃ moved, s.Draws moved (fun row column => if row + 1 = s.height.toNat then vgaBlank
        else s.cell (row + 1) column) ∧
      scrollUp s = { moved with yPos := moved.yPos - 1 } := by
  have copies := copyRows_draws fits
  rw [scrollUp]
  generalize (s.height.toNat - 1).fold (fun k _ s => copyRow (k + 1) s) s = copied at copies
  have lastRow : copied.height.toNat - 1 < copied.height.toNat := by
    rw [copies.height]
    omega
  refine ⟨_, (copies.trans (clearRow_draws (copies.fits fits) lastRow)).congr ?_, rfl⟩
  intro row inRows column inRow
  rw [copies.height]
  by_cases last : row + 1 = s.height.toNat
  · rw [if_pos last, if_pos (by omega)]
  · rw [if_neg last, if_neg (by omega), copies.cell row inRows column inRow, if_pos (by omega)]

theorem vgaInit_draws {width height : UInt16} (fits : width.toNat * height.toNat < 2 ^ 31) :
    { s with width := width, height := height }.Draws (vgaInit s width height)
      (fun _ _ => vgaBlank) := by
  have draws := @fold_invariant _ { s with width := width, height := height } height.toNat
    (fun k s' => { s with width := width, height := height }.Draws s'
      (fun row column => if row < k then vgaBlank
        else { s with width := width, height := height }.cell row column)) clearRow ?_ ?_
  · apply draws.congr
    intro row inRows _ _
    rw [if_pos inRows]
  · apply Vga.Draws.refl.congr
    intro row _ column _
    rw [if_neg (Nat.not_lt_zero row)]
  · intro k inside s' draws
    have inRows : k < s'.height.toNat := by
      rw [draws.height]
      exact inside
    apply (draws.trans (clearRow_draws (draws.fits fits) inRows)).congr
    intro row inRows' column inRow
    by_cases now : row = k
    · rw [if_pos now, if_pos (by omega)]
    · rw [if_neg now, draws.cell row inRows' column inRow]
      by_cases earlier : row < k
      · rw [if_pos earlier, if_pos (by omega)]
      · rw [if_neg earlier, if_neg (by omega)]

theorem lineLength_toNat {str : CString} {width : UInt16} (short : strlen str < 2 ^ 16) :
    (lineLength str width).toNat = min (strlen str) width.toNat := by
  have length : (UInt16.ofNat (strlen str)).toNat = strlen str := UInt16.toNat_ofNat_of_lt' short
  simp only [lineLength, gt_iff_lt, UInt16.lt_iff_toNat_lt, length]
  by_cases long : width.toNat < strlen str
  · rw [if_pos long]
    omega
  · rw [if_neg long, length]
    omega

end Draws

section Window

variable {s s' : Vga} {rows rows' lines : List Line} {line : Line} {width height : UInt16}

/-- What a row with the line on it shows. -/
def lineSymbol (line : Line) (column : ℕ) : UInt16 :=
  if column < strlen line.str then
    vgaSymbol (line.str.chars.getD column 0) line.foreground .black
  else vgaBlank

/-- What a screen with the lines on it shows, from the top. -/
def windowSymbol (rows : List Line) (row column : ℕ) : UInt16 :=
  match rows[row]? with
  | some line => lineSymbol line column
  | none => vgaBlank

theorem windowSymbol_of_length_le {row : ℕ} (outside : rows.length ≤ row) (column : ℕ) :
    windowSymbol rows row column = vgaBlank := by
  rw [windowSymbol, List.getElem?_eq_none outside]

theorem windowSymbol_tail (row column : ℕ) :
    windowSymbol rows.tail row column = windowSymbol rows (row + 1) column := by
  rw [windowSymbol, windowSymbol, List.getElem?_tail]

theorem windowSymbol_append (row column : ℕ) :
    windowSymbol (rows ++ [line]) row column =
      if row = rows.length then lineSymbol line column else windowSymbol rows row column := by
  by_cases new : row = rows.length
  · rw [if_pos new, windowSymbol, new, List.getElem?_concat_length]
  · rw [if_neg new, windowSymbol, windowSymbol]
    by_cases old : row < rows.length
    · rw [List.getElem?_append_left old]
    · have behind : (rows ++ [line]).length ≤ row := by
        rw [List.length_append, List.length_singleton]
        omega
      rw [List.getElem?_eq_none behind, List.getElem?_eq_none (by omega)]

/-- The screen shows the lines, the next one goes below them, and nothing was stored
outside the screen. -/
structure Vga.Shows (s : Vga) (width height : UInt16) (rows : List Line) : Prop where
  sameWidth : s.width = width
  sameHeight : s.height = height
  yPos : s.yPos.toNat = rows.length
  few : rows.length ≤ height.toNat
  cell : ∀ row < height.toNat, ∀ column < width.toNat,
    s.cell row column = windowSymbol rows row column
  stores : ∀ index ∈ s.stores, 0 ≤ index ∧ index < width.toNat * height.toNat

theorem Vga.Shows.fits (window : s.Shows width height rows)
    (fits : width.toNat * height.toNat < 2 ^ 31) : s.Fits := by
  rw [Vga.Fits, window.sameWidth, window.sameHeight]
  exact fits

/-- What is drawn on a screen is drawn inside it. -/
theorem Vga.Shows.draw {cells : ℕ → ℕ → UInt16} {yPos : UInt16}
    (window : s.Shows width height rows) (draws : s.Draws s' cells)
    (position : yPos.toNat = rows'.length) (few : rows'.length ≤ height.toNat)
    (same : ∀ row < height.toNat, ∀ column < width.toNat,
      cells row column = windowSymbol rows' row column) :
    Vga.Shows { s' with yPos := yPos } width height rows' := by
  have heightKept : s'.height = height := draws.height.trans window.sameHeight
  have widthKept : s'.width = width := draws.width.trans window.sameWidth
  refine ⟨widthKept, heightKept, position, few, ?_, ?_⟩
  · intro row inRows column inRow
    rw [← same row inRows column inRow]
    rw [← window.sameHeight] at inRows
    rw [← window.sameWidth] at inRow
    exact draws.cell row inRows column inRow
  · intro index stored
    rcases draws.stores index stored with before | inside
    · exact window.stores index before
    · rw [window.sameWidth, window.sameHeight] at inside
      exact inside

/-- A full screen loses its first line. -/
theorem scrollUp_shows (fits : width.toNat * height.toNat < 2 ^ 31) (high : 0 < height.toNat)
    (window : s.Shows width height rows) (full : rows.length = height.toNat) :
    (scrollUp s).Shows width height rows.tail := by
  rcases scrollUp_draws (window.fits fits) (by rw [window.sameHeight]; exact high) with
    ⟨moved, draws, scrolled⟩
  rw [window.sameHeight] at draws
  rw [scrolled]
  apply window.draw draws
  · have position : (1 : UInt16) ≤ moved.yPos := by
      rw [UInt16.le_iff_toNat_le, draws.yPos, window.yPos, full]
      exact high
    rw [UInt16.toNat_sub_of_le _ _ position, draws.yPos, window.yPos, List.length_tail]
    rfl
  · rw [List.length_tail]
    omega
  · intro row inRows column inRow
    rw [windowSymbol_tail]
    by_cases last : row + 1 = height.toNat
    · rw [if_pos last, windowSymbol_of_length_le (by omega)]
    · rw [if_neg last, window.cell (row + 1) (by omega) column inRow]

theorem writeRow_draws (fits : s.Fits) (inRows : s.yPos.toNat < s.height.toNat)
    (short : strlen line.str < 2 ^ 16) :
    s.Draws (writeRow line.str line.foreground s)
      (fun row column => if row = s.yPos.toNat ∧ column < min (strlen line.str) s.width.toNat
        then vgaSymbol (line.str.chars.getD column 0) line.foreground .black
        else s.cell row column) := by
  rw [writeRow, lineLength_toNat short]
  apply draws_row fits inRows (Nat.min_le_right _ _)
  intro i _ s' draws
  rw [draws.yPos]

/-- The line comes to the first free row, which was blank. -/
theorem writeRow_shows (fits : width.toNat * height.toNat < 2 ^ 31)
    (window : s.Shows width height rows) (room : rows.length < height.toNat)
    (short : strlen line.str < 2 ^ 16) :
    Vga.Shows { writeRow line.str line.foreground s with
      yPos := (writeRow line.str line.foreground s).yPos + 1 } width height (rows ++ [line]) := by
  have inRows : s.yPos.toNat < s.height.toNat := by
    rw [window.yPos, window.sameHeight]
    exact room
  have draws := writeRow_draws (window.fits fits) inRows short
  have bound : height.toNat < 2 ^ 16 := UInt16.toNat_lt _
  apply window.draw draws
  · rw [draws.yPos, UInt16.toNat_add, window.yPos, List.length_append, List.length_singleton]
    exact Nat.mod_eq_of_lt (Nat.lt_of_le_of_lt room bound)
  · rw [List.length_append, List.length_singleton]
    exact room
  · intro row inRows' column inRow
    rw [windowSymbol_append, window.yPos, window.sameWidth, window.cell row inRows' column inRow]
    by_cases new : row = rows.length
    · rw [if_pos new, lineSymbol]
      by_cases inside : column < strlen line.str
      · rw [if_pos ⟨new, by omega⟩, if_pos inside]
      · rw [if_neg (by omega), if_neg inside, windowSymbol_of_length_le (by omega)]
    · rw [if_neg (by omega), if_neg new]

/-- One line more: the window on the lines moves with it. -/
theorem vgaWriteLine_shows (fits : width.toNat * height.toNat < 2 ^ 31) (high : 0 < height.toNat)
    (window : s.Shows width height (recent height.toNat lines))
    (short : strlen line.str < 2 ^ 16) :
    (vgaWriteLine s line.str line.foreground).Shows width height
      (recent height.toNat (lines ++ [line])) := by
  have sameRow : s.yPos = s.height ↔ (recent height.toNat lines).length = height.toNat := by
    rw [← UInt16.toNat_inj, window.yPos, window.sameHeight]
  by_cases full : (recent height.toNat lines).length = height.toNat
  · rw [recent_append_of_full full high, vgaWriteLine, if_pos (sameRow.mpr full)]
    apply writeRow_shows fits (scrollUp_shows fits high window full) _ short
    rw [List.length_tail]
    omega
  · rw [recent_append_of_room (Nat.lt_of_le_of_ne window.few full), vgaWriteLine,
      if_neg (fun same => full (sameRow.mp same))]
    exact writeRow_shows fits window (Nat.lt_of_le_of_ne window.few full) short

theorem vgaInit_shows (yPos : s.yPos = 0) (noStores : s.stores = [])
    (fits : width.toNat * height.toNat < 2 ^ 31) :
    (vgaInit s width height).Shows width height [] := by
  have draws := @vgaInit_draws s width height fits
  refine ⟨draws.width, draws.height, ?_, Nat.zero_le _, ?_, ?_⟩
  · rw [draws.yPos]
    change s.yPos.toNat = 0
    rw [yPos]
    rfl
  · intro row inRows column inRow
    rw [draws.cell row inRows column inRow, windowSymbol_of_length_le (Nat.zero_le row)]
  · intro index stored
    rcases draws.stores index stored with before | inside
    · change index ∈ s.stores at before
      rw [noStores] at before
      cases before
    · exact inside

/-- After any number of lines the screen is a window on the last of them. -/
theorem writeLines_shows {first : List Line} (fits : width.toNat * height.toNat < 2 ^ 31)
    (high : 0 < height.toNat) (window : s.Shows width height (recent height.toNat first))
    (short : ∀ line ∈ lines, strlen line.str < 2 ^ 16) :
    (s.writeLines lines).Shows width height (recent height.toNat (first ++ lines)) := by
  induction lines generalizing s first with
  | nil =>
      rw [List.append_nil]
      exact window
  | cons line lines ih =>
      have one := vgaWriteLine_shows fits high window (short line (List.mem_cons_self ..))
      have rest := ih one fun line written => short line (List.mem_cons_of_mem _ written)
      rw [List.append_assoc] at rest
      exact rest

end Window

/-- The console after `vga_init` and any number of lines: nothing was stored outside the
screen, and each row in use shows its line, cut off at the width. -/
theorem vga_shows_last_lines (s : Vga) (width height : UInt16) (lines : List Line)
    (fresh : s.yPos = 0) (noStores : s.stores = []) (high : 1 ≤ height.toNat)
    (fits : width.toNat * height.toNat < 2 ^ 31)
    (short : ∀ line ∈ lines, strlen line.str < 65536) :
    let s' := (vgaInit s width height).writeLines lines
    let used := min lines.length height.toNat
    (∀ index ∈ s'.stores, 0 ≤ index ∧ index < width.toNat * height.toNat) ∧
    s'.yPos.toNat = used ∧
    (∀ row < used, ∃ line, lines[lines.length - used + row]? = some line ∧
      (∀ x < min (strlen line.str) width.toNat, ∃ c, line.str.byte x = some c ∧
        s'.screen (row * width.toNat + x : ℕ) = vgaSymbol c line.foreground .black) ∧
      ∀ x < width.toNat, strlen line.str ≤ x →
        s'.screen (row * width.toNat + x : ℕ) = vgaSymbol 0x20 .white .black) ∧
    ∀ row < height.toNat, used ≤ row → ∀ x < width.toNat,
      s'.screen (row * width.toNat + x : ℕ) = vgaSymbol 0x20 .white .black := by
  intro s' used
  have start := @vgaInit_shows s width height fresh noStores fits
  rw [← recent_nil height.toNat] at start
  have window : s'.Shows width height (recent height.toNat lines) :=
    writeLines_shows fits high start short
  have shown : ∀ row < height.toNat, ∀ x < width.toNat,
      s'.screen (row * width.toNat + x : ℕ) = windowSymbol (recent height.toNat lines) row x := by
    intro row inRows x inRow
    rw [← window.cell row inRows x inRow, Vga.cell, window.sameWidth, cellIndex_eq fits inRows inRow]
  have count : (recent height.toNat lines).length = used := length_recent
  refine ⟨window.stores, window.yPos.trans count, ?_, ?_⟩
  · intro row inUse
    have inRows : row < height.toNat := Nat.lt_of_lt_of_le inUse (Nat.min_le_right _ _)
    have there : lines.length - used + row < lines.length := by omega
    have here := (@getElem?_recent _ height.toNat lines row).trans (List.getElem?_eq_getElem there)
    refine ⟨_, List.getElem?_eq_getElem there, ?_, ?_⟩
    · intro x inLine
      rw [shown row inRows x (by omega), windowSymbol, here]
      have inside : x < strlen lines[lines.length - used + row].str := by omega
      exact ⟨_, byte_of_lt inside, if_pos inside⟩
    · intro x inRow behind
      rw [shown row inRows x inRow, windowSymbol, here]
      exact if_neg (Nat.not_lt.mpr behind)
  · intro row inRows unused x inRow
    rw [shown row inRows x inRow]
    apply windowSymbol_of_length_le
    rw [count]
    exact unused

/-- Three lines on a screen of two rows: the last two are shown. -/
theorem vga_shows_last_lines_two_rows :
    let ok : CString := ⟨[0x6f, 0x6b], by decide⟩
    let lines := [⟨ok, .white⟩, ⟨⟨[0x61, 0x62, 0x63], by decide⟩, .green⟩, ⟨ok, .red⟩]
    let s := (vgaInit ⟨0, 0, 0, fun _ => 0, []⟩ 2 2).writeLines lines
    s.yPos.toNat = 2 ∧ s.screen 0 = vgaSymbol 0x61 .green .black := by
  intro ok lines s
  have window := vga_shows_last_lines ⟨0, 0, 0, fun _ => 0, []⟩ 2 2 lines rfl rfl
    (by decide) (by decide) (by decide)
  refine ⟨window.2.1, ?_⟩
  rcases window.2.2.1 0 (by decide) with ⟨line, isSecond, shown, -⟩
  cases isSecond
  rcases shown 0 (by decide) with ⟨c, isFirst, symbol⟩
  cases isFirst
  have start : ((0 * (2 : UInt16).toNat + 0 : ℕ) : ℤ) = 0 := rfl
  rw [start] at symbol
  exact symbol

end Osserver
