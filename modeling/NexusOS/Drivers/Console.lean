import Mathlib

namespace NexusOS.Drivers.Console

section Data

/-- A framebuffer that holds at least one character; a scan line may be longer than the picture. -/
structure Framebuffer where
  width : ℕ
  height : ℕ
  pixelsPerScanline : ℕ
  bgr : Bool
  one_col : 8 ≤ width
  one_row : 16 ≤ height
  line : width ≤ pixelsPerScanline

/-- The table `font8x16`, whose first glyph is the blank one. -/
structure Font where
  glyph : ℕ → ℕ → UInt8
  blank : ∀ y < 16, glyph 0 y = 0

def maxCols : ℕ := 256
def scrollbackLines : ℕ := 500
def cursorBlinkTicks : ℕ := 50

structure Cell where
  ch : UInt8
  fg : UInt32
  bg : UInt32
  deriving DecidableEq

/-- The words of the framebuffer, and the indices of those written so far. -/
structure Screen where
  pixels : ℕ → UInt32
  written : List ℕ

/-- The array `g_history`, and the elements accessed so far. -/
structure History where
  cell : ℕ → ℕ → Cell
  accessed : List (ℕ × ℕ)

structure State where
  fg : UInt32
  bg : UInt32
  fgPacked : UInt32
  bgPacked : UInt32
  col : ℕ
  row : ℕ
  cols : ℕ
  rows : ℕ
  cursorEnabled : Bool
  cursorVisible : Bool
  cursorLastTick : ℕ
  totalLines : ℕ
  scrollOffset : ℕ
  history : History
  screen : Screen

end Data

variable (fb : Framebuffer) (font : Font)

section Pixels

def packColor (rgb : UInt32) : UInt32 :=
  let r := (rgb >>> 16) &&& 0xFF
  let g := (rgb >>> 8) &&& 0xFF
  let b := rgb &&& 0xFF
  if fb.bgr then b ||| (g <<< 8) ||| (r <<< 16) else r ||| (g <<< 8) ||| (b <<< 16)

/-- A write to `row[x]` for the row `y`, with no check. -/
def setPixel (stride : ℕ) (scr : Screen) (x y : ℕ) (color : UInt32) : Screen where
  pixels := Function.update scr.pixels (y * stride + x) color
  written := (y * stride + x) :: scr.written

def putPixel (scr : Screen) (x y : ℕ) (color : UInt32) : Screen :=
  if fb.width ≤ x ∨ fb.height ≤ y then scr else setPixel fb.pixelsPerScanline scr x y color

/-- The two loops over `height` rows and `width` pixels of each. -/
def drawRect (put : Screen → ℕ → ℕ → UInt32 → Screen) (scr : Screen) (x₀ y₀ width height : ℕ)
    (color : ℕ → ℕ → UInt32) : Screen :=
  (List.range height).foldl (fun scr y ↦
    (List.range width).foldl (fun scr x ↦ put scr (x₀ + x) (y₀ + y) (color x y)) scr) scr

def glyphPixel (cell : Cell) (x y : ℕ) : UInt32 :=
  let glyph := if 32 ≤ cell.ch ∧ cell.ch ≤ 126 then font.glyph (cell.ch.toNat - 32)
    else font.glyph 0
  if (glyph y >>> UInt8.ofNat (7 - x)) &&& 1 ≠ 0 then cell.fg else cell.bg

def drawGlyphRaw (scr : Screen) (col row : ℕ) (cell : Cell) : Screen :=
  drawRect (putPixel fb) scr (col * 8) (row * 16) 8 16 (glyphPixel font cell)

def drawGlyph (s : State) (col row : ℕ) (c : UInt8) : State :=
  { s with screen := drawGlyphRaw fb font s.screen col row ⟨c, s.fgPacked, s.bgPacked⟩ }

end Pixels

section Lines

def histSlot (logicalLine : ℕ) : ℕ := logicalLine % scrollbackLines

def History.load (h : History) (slot col : ℕ) : History :=
  { h with accessed := (slot, col) :: h.accessed }

def History.store (h : History) (slot col : ℕ) (cell : Cell) : History where
  cell := Function.update h.cell slot (Function.update (h.cell slot) col cell)
  accessed := (slot, col) :: h.accessed

def histClearLine (s : State) (logicalLine : ℕ) : State :=
  { s with
    history := (List.range maxCols).foldl (fun h x ↦
      h.store (histSlot logicalLine) x ⟨32, s.fgPacked, s.bgPacked⟩) s.history }

def histPut (s : State) (col : ℕ) (c : UInt8) : State :=
  if maxCols ≤ col then s
  else { s with
    history := s.history.store (histSlot s.totalLines) col ⟨c, s.fgPacked, s.bgPacked⟩ }

def histNewLine (s : State) : State :=
  histClearLine { s with totalLines := s.totalLines + 1 } (s.totalLines + 1)

/-- The logical line, or none where there was none or it is overwritten. -/
def renderHistoryRow (s : State) (screenRow : ℕ) (logicalLine : Option ℕ) : State :=
  (List.range (min s.cols maxCols)).foldl (fun s x ↦
    match logicalLine with
    | some line =>
      { s with
        history := s.history.load (histSlot line) x
        screen := drawGlyphRaw fb font s.screen x screenRow (s.history.cell (histSlot line) x) }
    | none =>
      { s with
        screen := drawGlyphRaw fb font s.screen x screenRow ⟨32, s.bgPacked, s.bgPacked⟩ }) s

/-- The logical line that `console_redraw` shows in a row. -/
def redrawLine (s : State) (r : ℕ) : Option ℕ :=
  let logical : ℤ := (s.totalLines : ℤ) - s.scrollOffset - ((s.rows : ℤ) - 1 - r)
  if 0 ≤ logical ∧ (s.totalLines : ℤ) - logical < scrollbackLines then some logical.toNat else none

def consoleRedraw (s : State) : State :=
  (List.range s.rows).foldl (fun s r ↦ renderHistoryRow fb font s r (redrawLine s r)) s

/-- The words of a scan line, from the 32-bit number of its bytes. -/
def lineWords : ℕ := fb.pixelsPerScanline * 4 % 2 ^ 32 / 4

def moveUp (scr : Screen) : Screen where
  pixels := fun i ↦
    if i < (fb.height - 16) * lineWords fb then scr.pixels (i + 16 * lineWords fb) else scr.pixels i
  written := List.range ((fb.height - 16) * lineWords fb) ++ scr.written

def scrollIfNeeded (s : State) : State :=
  if s.row < s.rows then s
  else { s with
    screen := drawRect (setPixel (lineWords fb)) (moveUp fb s.screen) 0 (fb.height - 16)
      fb.width 16 fun _ _ ↦ s.bgPacked
    row := s.rows - 1 }

end Lines

section Cursor

def cursorDrawOverlay (s : State) : State :=
  if ¬ s.cursorEnabled ∨ s.cursorVisible then s
  else if s.rows ≤ s.row ∨ s.cols ≤ s.col then s
  else { s with
    screen := drawRect (setPixel fb.pixelsPerScanline) s.screen (s.col * 8) (s.row * 16)
      (min 2 (fb.width - s.col * 8)) 16 fun _ _ ↦ s.fgPacked
    cursorVisible := true }

def cursorRestoreCell (s : State) : State :=
  if ¬ s.cursorVisible then s
  else if s.rows ≤ s.row ∨ s.cols ≤ s.col then { s with cursorVisible := false }
  else if s.scrollOffset = 0 then
    { s with
      history := s.history.load (histSlot s.totalLines) s.col
      screen := drawGlyphRaw fb font s.screen s.col s.row
        (s.history.cell (histSlot s.totalLines) s.col)
      cursorVisible := false }
  else { drawGlyph fb font s s.col s.row 32 with cursorVisible := false }

def consoleCursorShow (s : State) : State :=
  if ¬ s.cursorEnabled then s
  else if s.cursorVisible then s
  else cursorDrawOverlay fb s

def consoleCursorHide (s : State) : State := cursorRestoreCell fb font s

def consoleCursorEnable (s : State) (ticks : ℕ) : State :=
  consoleCursorShow fb
    { s with cursorEnabled := true, cursorVisible := false, cursorLastTick := ticks }

def consoleCursorDisable (s : State) : State :=
  { cursorRestoreCell fb font s with cursorEnabled := false, cursorLastTick := 0 }

def consoleCursorTick (s : State) (now : ℕ) : State :=
  if ¬ s.cursorEnabled then s
  else if now < s.cursorLastTick then { s with cursorLastTick := now }
  else if now - s.cursorLastTick < cursorBlinkTicks then s
  else
    let s := { s with cursorLastTick := now }
    if s.cursorVisible then cursorRestoreCell fb font s else cursorDrawOverlay fb s

end Cursor

section Console

def consoleClear (s : State) : State :=
  let s := histNewLine (consoleCursorHide fb font s)
  consoleCursorShow fb
    { s with
      scrollOffset := 0
      col := 0
      row := 0
      screen := drawRect (setPixel fb.pixelsPerScanline) s.screen 0 0 fb.width fb.height
        fun _ _ ↦ s.bgPacked }

def consoleInit (s : State) : State :=
  let s := { s with
    cols := fb.width / 8
    rows := fb.height / 16
    fgPacked := packColor fb s.fg
    bgPacked := packColor fb s.bg
    totalLines := 0
    scrollOffset := 0
    cursorEnabled := false
    cursorVisible := false
    cursorLastTick := 0 }
  consoleClear fb font ((List.range scrollbackLines).foldl histClearLine s)

def consoleSetColor (s : State) (fg bg : UInt32) : State :=
  { s with fg := fg, bg := bg, fgPacked := packColor fb fg, bgPacked := packColor fb bg }

def consoleScroll (s : State) (delta : ℤ) : State :=
  let maxOffset := min s.totalLines (scrollbackLines - 1)
  let newOffset := min (s.scrollOffset + delta).toNat maxOffset
  if newOffset = s.scrollOffset then s
  else
    let s := consoleCursorHide fb font s
    consoleCursorShow fb (consoleRedraw fb font { s with scrollOffset := newOffset })

def liveView (s : State) : State :=
  if s.scrollOffset ≠ 0 then consoleRedraw fb font { s with scrollOffset := 0 } else s

def newLine (s : State) : State :=
  let s := histNewLine s
  scrollIfNeeded fb { s with col := 0, row := s.row + 1 }

def putGlyph (s : State) (c : UInt8) : State :=
  let s := histPut (drawGlyph fb font s s.col s.row c) s.col c
  let s := { s with col := s.col + 1 }
  if s.cols ≤ s.col then newLine fb s else s

def backspace (s : State) : State :=
  if 0 < s.col then
    let s := { s with col := s.col - 1 }
    histPut (drawGlyph fb font s s.col s.row 32) s.col 32
  else s

def consolePutchar (s : State) (c : UInt8) : State :=
  let s := liveView fb font (consoleCursorHide fb font s)
  if c = 10 then consoleCursorShow fb (newLine fb s)
  else if c = 13 then { s with col := 0 }
  else if c = 8 then consoleCursorShow fb (backspace fb font s)
  else consoleCursorShow fb (putGlyph fb font s c)

end Console

section Operations

inductive Op
  | putchar (c : UInt8)
  | scroll (delta : ℤ)
  | cursorShow
  | cursorHide
  | cursorTick (now : ℕ)
  | cursorEnable (ticks : ℕ)
  | cursorDisable
  | setColor (fg bg : UInt32)
  | clear

def step (s : State) : Op → State
  | .putchar c => consolePutchar fb font s c
  | .scroll delta => consoleScroll fb font s delta
  | .cursorShow => consoleCursorShow fb s
  | .cursorHide => consoleCursorHide fb font s
  | .cursorTick now => consoleCursorTick fb font s now
  | .cursorEnable ticks => consoleCursorEnable fb s ticks
  | .cursorDisable => consoleCursorDisable fb font s
  | .setColor fg bg => consoleSetColor fb s fg bg
  | .clear => consoleClear fb font s

/-- The variables before `console_init`, over any contents of the framebuffer. -/
def unset (pixels : ℕ → UInt32) : State where
  fg := 0xFFFFFF
  bg := 0x000000
  fgPacked := 0xFFFFFF
  bgPacked := 0x000000
  col := 0
  row := 0
  cols := 0
  rows := 0
  cursorEnabled := false
  cursorVisible := false
  cursorLastTick := 0
  totalLines := 0
  scrollOffset := 0
  history := ⟨fun _ _ ↦ ⟨0, 0, 0⟩, []⟩
  screen := ⟨pixels, []⟩

end Operations

end NexusOS.Drivers.Console
