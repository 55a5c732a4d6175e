import Mathlib
import NexusOS.Lib.Run
import NexusOS.Drivers.Console

namespace NexusOS.Drivers.Console

open Lib

section Bounds

def Screen.Within (fb : Framebuffer) (scr : Screen) : Prop :=
  ∀ i ∈ scr.written, i < fb.height * fb.pixelsPerScanline

def History.Within (h : History) : Prop :=
  ∀ a ∈ h.accessed, a.1 < scrollbackLines ∧ a.2 < maxCols

structure State.InBounds (fb : Framebuffer) (s : State) : Prop where
  history : s.history.Within
  screen : s.screen.Within fb
  row : s.row < s.rows
  col : s.col < s.cols

def State.Erases (s : State) : Op → Prop
  | .putchar _ | .cursorHide | .cursorDisable | .clear => True
  | .scroll delta =>
    min (s.scrollOffset + delta).toNat (min s.totalLines (scrollbackLines - 1)) ≠ s.scrollOffset
  | .cursorTick now => s.cursorEnabled = true ∧ ¬ now < s.cursorLastTick ∧
    ¬ now - s.cursorLastTick < cursorBlinkTicks
  | .cursorShow | .cursorEnable _ | .setColor _ _ => False

/-- A cursor that is erased in the live view stands on a column of the history. -/
def State.CursorInHistory (s : State) (op : Op) : Prop :=
  s.Erases op → s.cursorVisible = true → s.scrollOffset = 0 → s.col < maxCols

end Bounds

section Screen

variable {fb : Framebuffer} {scr : Screen}

theorem setPixel_within {stride x y : ℕ} (color : UInt32) (h : scr.Within fb)
    (hi : y * stride + x < fb.height * fb.pixelsPerScanline) :
    (setPixel stride scr x y color).Within fb :=
  List.forall_mem_cons.2 ⟨hi, h⟩

theorem index_lt {stride x y : ℕ} (hstride : stride ≤ fb.pixelsPerScanline) (hx : x < fb.width)
    (hy : y < fb.height) : y * stride + x < fb.height * fb.pixelsPerScanline := by
  have hline := fb.line
  calc y * stride + x < y * fb.pixelsPerScanline + fb.pixelsPerScanline := by
        have := Nat.mul_le_mul_left y hstride
        omega
    _ = (y + 1) * fb.pixelsPerScanline := by rw [Nat.succ_mul]
    _ ≤ fb.height * fb.pixelsPerScanline := Nat.mul_le_mul_right _ hy

theorem putPixel_within (x y : ℕ) (color : UInt32) (h : scr.Within fb) :
    (putPixel fb scr x y color).Within fb := by
  unfold putPixel
  split_ifs with hout
  · exact h
  · exact setPixel_within color h (index_lt le_rfl (by omega) (by omega))

theorem drawRect_within {put : Screen → ℕ → ℕ → UInt32 → Screen} {x₀ y₀ width height : ℕ}
    (color : ℕ → ℕ → UInt32)
    (hput : ∀ scr : Screen, ∀ x < width, ∀ y < height, scr.Within fb →
      (put scr (x₀ + x) (y₀ + y) (color x y)).Within fb) (h : scr.Within fb) :
    (drawRect put scr x₀ y₀ width height color).Within fb := by
  unfold drawRect
  refine List.foldlRecOn _ _ h fun scr hscr y hy ↦ ?_
  refine List.foldlRecOn _ _ hscr fun scr hscr x hx ↦ ?_
  exact hput scr x (List.mem_range.1 hx) y (List.mem_range.1 hy) hscr

theorem drawGlyphRaw_within (font : Font) (col row : ℕ) (cell : Cell) (h : scr.Within fb) :
    (drawGlyphRaw fb font scr col row cell).Within fb :=
  drawRect_within _ (fun _ _ _ _ _ hscr ↦ putPixel_within _ _ _ hscr) h

theorem lineWords_le (fb : Framebuffer) : lineWords fb ≤ fb.pixelsPerScanline := by
  unfold lineWords
  omega

theorem moveUp_within (h : scr.Within fb) : (moveUp fb scr).Within fb := by
  intro i hi
  rcases List.mem_append.1 hi with hi | hi
  · calc i < (fb.height - 16) * lineWords fb := List.mem_range.1 hi
      _ ≤ fb.height * fb.pixelsPerScanline := Nat.mul_le_mul (by omega) (lineWords_le fb)
  · exact h i hi

end Screen

section Calm

variable {fb : Framebuffer} {font : Font} {s s' s'' : State}

/-- From one state to the next, accesses are only added, and none out of bounds. -/
structure Calm (fb : Framebuffer) (s s' : State) : Prop where
  accessed : ∀ a ∈ s.history.accessed, a ∈ s'.history.accessed
  history : s.history.Within → s'.history.Within
  screen : s.screen.Within fb → s'.screen.Within fb

theorem Calm.refl (fb : Framebuffer) (s : State) : Calm fb s s := ⟨fun _ h ↦ h, id, id⟩

theorem Calm.trans (h : Calm fb s s') (h' : Calm fb s' s'') : Calm fb s s'' :=
  ⟨fun a ha ↦ h'.accessed a (h.accessed a ha), h'.history ∘ h.history, h'.screen ∘ h.screen⟩

theorem Calm.foldl {α : Type} {f : State → α → State} {l : List α}
    (h : ∀ s, ∀ a ∈ l, Calm fb s (f s a)) (s : State) : Calm fb s (l.foldl f s) :=
  List.foldlRecOn (motive := fun s' ↦ Calm fb s s') l f (Calm.refl fb s)
    fun s' hs' a ha ↦ hs'.trans (h s' a ha)

theorem Calm.of_eq (hhistory : s'.history = s.history) (hscreen : s'.screen = s.screen) :
    Calm fb s s' :=
  ⟨fun _ ha ↦ hhistory ▸ ha, fun h ↦ hhistory ▸ h, fun h ↦ hscreen ▸ h⟩

theorem Calm.after (h : Calm fb s' s'') (hhistory : s'.history = s.history)
    (hscreen : s'.screen = s.screen) : Calm fb s s'' :=
  (Calm.of_eq hhistory hscreen).trans h

theorem Calm.of_screen (hhistory : s'.history = s.history)
    (hscreen : s.screen.Within fb → s'.screen.Within fb) : Calm fb s s' :=
  ⟨fun _ ha ↦ hhistory ▸ ha, fun h ↦ hhistory ▸ h, hscreen⟩

theorem Calm.of_access {a : ℕ × ℕ} (hscreen : s.screen.Within fb → s'.screen.Within fb)
    (ha : a.1 < scrollbackLines ∧ a.2 < maxCols)
    (haccessed : s'.history.accessed = a :: s.history.accessed) : Calm fb s s' := by
  refine ⟨fun b hb ↦ ?_, fun h ↦ ?_, hscreen⟩
  · rw [haccessed]
    exact List.mem_cons_of_mem a hb
  unfold History.Within
  rw [haccessed]
  exact List.forall_mem_cons.2 ⟨ha, h⟩

theorem histSlot_lt (line : ℕ) : histSlot line < scrollbackLines := Nat.mod_lt _ (by decide)

theorem drawGlyph_calm (s : State) (col row : ℕ) (c : UInt8) :
    Calm fb s (drawGlyph fb font s col row c) :=
  Calm.of_screen rfl (drawGlyphRaw_within font col row _)

theorem storeLine_within {h : History} {slot : ℕ} (cell : Cell) (hslot : slot < scrollbackLines)
    (l : List ℕ) (hl : ∀ x ∈ l, x < maxCols) :
    (∀ a ∈ h.accessed, a ∈ (l.foldl (fun h x ↦ h.store slot x cell) h).accessed) ∧
      (h.Within → (l.foldl (fun h x ↦ h.store slot x cell) h).Within) := by
  induction l generalizing h with
  | nil => exact ⟨fun _ ha ↦ ha, id⟩
  | cons x l ih =>
    obtain ⟨hx, hrest⟩ := List.forall_mem_cons.1 hl
    obtain ⟨hmem, hwithin⟩ := @ih (h.store slot x cell) hrest
    refine ⟨fun a ha ↦ hmem a (List.mem_cons_of_mem _ ha), fun h ↦ hwithin ?_⟩
    exact List.forall_mem_cons.2 ⟨⟨hslot, hx⟩, h⟩

theorem histClearLine_calm (s : State) (line : ℕ) : Calm fb s (histClearLine s line) := by
  have hline := storeLine_within (h := s.history) ⟨32, s.fgPacked, s.bgPacked⟩
    (histSlot_lt line) (List.range maxCols) fun _ hx ↦ List.mem_range.1 hx
  unfold histClearLine
  generalize (List.range maxCols).foldl _ _ = h at hline
  exact ⟨hline.1, hline.2, id⟩

theorem histPut_calm (s : State) (col : ℕ) (c : UInt8) : Calm fb s (histPut s col c) := by
  unfold histPut
  split_ifs with hcol
  · exact Calm.refl fb s
  · exact Calm.of_access id ⟨histSlot_lt s.totalLines, not_le.1 hcol⟩ rfl

theorem histNewLine_calm (s : State) : Calm fb s (histNewLine s) :=
  (histClearLine_calm _ _).after rfl rfl

theorem renderHistoryRow_calm (s : State) (r : ℕ) (line : Option ℕ) :
    Calm fb s (renderHistoryRow fb font s r line) := by
  refine Calm.foldl (fun s x hx ↦ ?_) s
  have hcol : x < maxCols := (List.mem_range.1 hx).trans_le (min_le_right _ _)
  cases line with
  | none => exact Calm.of_screen rfl (drawGlyphRaw_within font x r _)
  | some line =>
    exact Calm.of_access (drawGlyphRaw_within font x r _) ⟨histSlot_lt line, hcol⟩ rfl

theorem consoleRedraw_calm (s : State) : Calm fb s (consoleRedraw fb font s) :=
  Calm.foldl (fun s r _ ↦ renderHistoryRow_calm s r _) s

theorem liveView_calm (s : State) : Calm fb s (liveView fb font s) := by
  unfold liveView
  split_ifs
  · exact (consoleRedraw_calm _).after rfl rfl
  · exact Calm.refl fb s

theorem scrollIfNeeded_calm (s : State) : Calm fb s (scrollIfNeeded fb s) := by
  unfold scrollIfNeeded
  split_ifs
  · exact Calm.refl fb s
  refine Calm.of_screen rfl fun h ↦ drawRect_within _ (fun scr x hx y hy hscr ↦ ?_) (moveUp_within h)
  have := fb.one_row
  exact setPixel_within _ hscr (index_lt (lineWords_le fb) (by omega) (by omega))

theorem newLine_calm (s : State) : Calm fb s (newLine fb s) := by
  have hline := @histNewLine_calm fb s
  unfold newLine
  generalize histNewLine s = t at hline
  exact hline.trans ((scrollIfNeeded_calm _).after rfl rfl)

theorem putGlyph_calm (s : State) (c : UInt8) : Calm fb s (putGlyph fb font s c) := by
  have hput : Calm fb s (histPut (drawGlyph fb font s s.col s.row c) s.col c) :=
    (drawGlyph_calm s s.col s.row c).trans (histPut_calm _ _ _)
  unfold putGlyph
  dsimp only
  split_ifs
  · exact hput.trans ((newLine_calm _).after rfl rfl)
  · exact hput.trans (Calm.of_eq rfl rfl)

theorem backspace_calm (s : State) : Calm fb s (backspace fb font s) := by
  unfold backspace
  dsimp only
  split_ifs
  · have hdraw := @drawGlyph_calm fb font { s with col := s.col - 1 } (s.col - 1) s.row 32
    exact (hdraw.trans (histPut_calm _ _ _)).after rfl rfl
  · exact Calm.refl fb s

end Calm

section Position

variable {fb : Framebuffer} {font : Font} {s : State}

def State.position (s : State) : ℕ × ℕ × ℕ × ℕ := (s.col, s.row, s.cols, s.rows)

theorem renderHistoryRow_position (s : State) (r : ℕ) (line : Option ℕ) :
    (renderHistoryRow fb font s r line).position = s.position := by
  unfold renderHistoryRow
  refine List.foldlRecOn (motive := fun t : State ↦ t.position = s.position) _ _ rfl fun t ht x _ ↦ ?_
  cases line <;> exact ht

theorem consoleRedraw_position (s : State) :
    (consoleRedraw fb font s).position = s.position := by
  unfold consoleRedraw
  refine List.foldlRecOn (motive := fun t : State ↦ t.position = s.position) _ _ rfl fun t ht r _ ↦ ?_
  exact (renderHistoryRow_position t r _).trans ht

theorem liveView_position (s : State) : (liveView fb font s).position = s.position := by
  unfold liveView
  split_ifs
  · exact consoleRedraw_position _
  · rfl

theorem cursorDrawOverlay_position (s : State) :
    (cursorDrawOverlay fb s).position = s.position := by
  unfold cursorDrawOverlay
  split_ifs <;> rfl

theorem consoleCursorShow_position (s : State) :
    (consoleCursorShow fb s).position = s.position := by
  unfold consoleCursorShow
  split_ifs
  · rfl
  · exact cursorDrawOverlay_position s
  · rfl

theorem cursorRestoreCell_position (s : State) :
    (cursorRestoreCell fb font s).position = s.position := by
  unfold cursorRestoreCell
  split_ifs <;> rfl

/-- The text area is that of the framebuffer, and the position is in it. -/
structure State.Placed (fb : Framebuffer) (s : State) : Prop where
  cols : s.cols = fb.width / 8
  rows : s.rows = fb.height / 16
  col : s.col < s.cols
  row : s.row < s.rows

theorem State.Placed.of_position {s' : State} (h : s.Placed fb) (heq : s'.position = s.position) :
    s'.Placed fb := by
  simp only [State.position, Prod.mk.injEq] at heq
  obtain ⟨hcol, hrow, hcols, hrows⟩ := heq
  exact ⟨hcols ▸ h.cols, hrows ▸ h.rows, by rw [hcol, hcols]; exact h.col,
    by rw [hrow, hrows]; exact h.row⟩

theorem newLine_placed (hcols : s.cols = fb.width / 8) (hrows : s.rows = fb.height / 16)
    (hrow : s.row < s.rows) : (newLine fb s).Placed fb := by
  have h₁ := fb.one_col
  have h₂ := fb.one_row
  unfold newLine scrollIfNeeded histNewLine histClearLine
  dsimp only
  split_ifs with hlt
  · exact ⟨hcols, hrows, by dsimp only; omega, hlt⟩
  · exact ⟨hcols, hrows, by dsimp only; omega, by dsimp only; omega⟩

theorem histPut_position (s : State) (col : ℕ) (c : UInt8) :
    (histPut s col c).position = s.position := by
  unfold histPut
  split_ifs <;> rfl

theorem State.Placed.putGlyph (h : s.Placed fb) (c : UInt8) :
    (putGlyph fb font s c).Placed fb := by
  have hput : (histPut (drawGlyph fb font s s.col s.row c) s.col c).Placed fb :=
    h.of_position (histPut_position _ _ _)
  unfold Console.putGlyph
  dsimp only
  split_ifs with hwrap
  · exact newLine_placed hput.cols hput.rows hput.row
  · exact ⟨hput.cols, hput.rows, not_le.1 hwrap, hput.row⟩

theorem State.Placed.backspace (h : s.Placed fb) : (backspace fb font s).Placed fb := by
  unfold Console.backspace
  dsimp only
  split_ifs
  · have hleft : ({ s with col := s.col - 1 } : State).Placed fb :=
      ⟨h.cols, h.rows, (Nat.sub_le _ _).trans_lt h.col, h.row⟩
    exact hleft.of_position (histPut_position _ _ _)
  · exact h

end Position

section Cursor

variable {fb : Framebuffer} {font : Font} {s : State}

theorem cursorDrawOverlay_calm (hcols : s.cols = fb.width / 8) (hrows : s.rows = fb.height / 16) :
    Calm fb s (cursorDrawOverlay fb s) := by
  unfold cursorDrawOverlay
  split_ifs with hoff hout
  · exact Calm.refl fb s
  · exact Calm.refl fb s
  refine Calm.of_screen rfl fun h ↦ drawRect_within _ (fun scr x hx y hy hscr ↦ ?_) h
  exact setPixel_within _ hscr (index_lt le_rfl (by omega) (by omega))

theorem consoleCursorShow_calm (hcols : s.cols = fb.width / 8) (hrows : s.rows = fb.height / 16) :
    Calm fb s (consoleCursorShow fb s) := by
  unfold consoleCursorShow
  split_ifs
  · exact Calm.refl fb s
  · exact cursorDrawOverlay_calm hcols hrows
  · exact Calm.refl fb s

theorem cursorRestoreCell_history (h : s.Placed fb) :
    (cursorRestoreCell fb font s).history.accessed =
      if s.cursorVisible = true ∧ s.scrollOffset = 0 then
        (histSlot s.totalLines, s.col) :: s.history.accessed
      else s.history.accessed := by
  have hin : ¬ (s.rows ≤ s.row ∨ s.cols ≤ s.col) := by
    have := h.col
    have := h.row
    omega
  unfold cursorRestoreCell
  by_cases hvisible : s.cursorVisible = true
  · by_cases hoffset : s.scrollOffset = 0
    · rw [if_neg (not_not.2 hvisible), if_neg hin, if_pos hoffset, if_pos ⟨hvisible, hoffset⟩]
      rfl
    · rw [if_neg (not_not.2 hvisible), if_neg hin, if_neg hoffset, if_neg fun h ↦ hoffset h.2]
      rfl
  · rw [if_pos hvisible, if_neg fun h ↦ hvisible h.1]

theorem cursorRestoreCell_screen (h : s.screen.Within fb) :
    (cursorRestoreCell fb font s).screen.Within fb := by
  unfold cursorRestoreCell
  split_ifs
  · exact h
  · exact drawGlyphRaw_within font s.col s.row _ h
  · exact drawGlyphRaw_within font s.col s.row _ h
  · exact h

theorem restored_iff {s' : State} (h : s.InBounds fb) (hplaced : s.Placed fb)
    (hcalm : Calm fb (cursorRestoreCell fb font s) s') (hplaced' : s'.Placed fb) :
    s'.InBounds fb ↔ (s.cursorVisible = true → s.scrollOffset = 0 → s.col < maxCols) := by
  have haccessed := @cursorRestoreCell_history fb font s hplaced
  constructor
  · intro h' hvisible hoffset
    rw [if_pos ⟨hvisible, hoffset⟩] at haccessed
    have hmem : (histSlot s.totalLines, s.col) ∈ s'.history.accessed :=
      hcalm.accessed _ (haccessed ▸ List.mem_cons_self)
    exact (h'.history _ hmem).2
  intro hcol
  refine ⟨hcalm.history ?_, hcalm.screen (cursorRestoreCell_screen h.screen), hplaced'.row,
    hplaced'.col⟩
  unfold History.Within
  rw [haccessed]
  split_ifs with hread
  · exact List.forall_mem_cons.2 ⟨⟨histSlot_lt _, hcol hread.1 hread.2⟩, h.history⟩
  · exact h.history

theorem Calm.inBounds {s' : State} (hcalm : Calm fb s s') (h : s.InBounds fb)
    (hplaced' : s'.Placed fb) : s'.InBounds fb :=
  ⟨hcalm.history h.history, hcalm.screen h.screen, hplaced'.row, hplaced'.col⟩

end Cursor

section Step

variable {fb : Framebuffer} {font : Font} {s : State}

theorem putchar_spec (h : s.Placed fb) (c : UInt8) :
    Calm fb (cursorRestoreCell fb font s) (consolePutchar fb font s c) ∧
      (consolePutchar fb font s c).Placed fb := by
  have hrestored : (cursorRestoreCell fb font s).Placed fb :=
    h.of_position (cursorRestoreCell_position s)
  have hlive := @liveView_calm fb font (cursorRestoreCell fb font s)
  have hplaced : (liveView fb font (cursorRestoreCell fb font s)).Placed fb :=
    hrestored.of_position (liveView_position _)
  unfold consolePutchar consoleCursorHide
  generalize liveView fb font (cursorRestoreCell fb font s) = t at hlive hplaced
  dsimp only
  have hshow (u : State) (hcalm : Calm fb t u) (hu : u.Placed fb) :
      Calm fb (cursorRestoreCell fb font s) (consoleCursorShow fb u) ∧
        (consoleCursorShow fb u).Placed fb :=
    ⟨hlive.trans (hcalm.trans (consoleCursorShow_calm hu.cols hu.rows)),
      hu.of_position (consoleCursorShow_position u)⟩
  split_ifs
  · exact hshow _ (newLine_calm t) (newLine_placed hplaced.cols hplaced.rows hplaced.row)
  · refine ⟨hlive.trans (Calm.of_eq rfl rfl), hplaced.cols, hplaced.rows, ?_, hplaced.row⟩
    exact (Nat.zero_le _).trans_lt hplaced.col
  · exact hshow _ (backspace_calm t) hplaced.backspace
  · exact hshow _ (putGlyph_calm t c) (hplaced.putGlyph c)

theorem scroll_spec (h : s.Placed fb) (offset : ℕ) :
    let s' := consoleCursorShow fb
      (consoleRedraw fb font { cursorRestoreCell fb font s with scrollOffset := offset })
    Calm fb (cursorRestoreCell fb font s) s' ∧ s'.Placed fb := by
  have hrestored : (cursorRestoreCell fb font s).Placed fb :=
    h.of_position (cursorRestoreCell_position s)
  have hredraw : (consoleRedraw fb font
      { cursorRestoreCell fb font s with scrollOffset := offset }).Placed fb :=
    State.Placed.of_position ⟨hrestored.cols, hrestored.rows, hrestored.col, hrestored.row⟩
      (consoleRedraw_position _)
  refine ⟨?_, hredraw.of_position (consoleCursorShow_position _)⟩
  exact ((consoleRedraw_calm _).trans (consoleCursorShow_calm hredraw.cols hredraw.rows)).after
    rfl rfl

theorem clear_spec (hcols : s.cols = fb.width / 8) (hrows : s.rows = fb.height / 16) :
    Calm fb (cursorRestoreCell fb font s) (consoleClear fb font s) ∧
      (consoleClear fb font s).Placed fb := by
  have h₁ := fb.one_col
  have h₂ := fb.one_row
  have hposition := @cursorRestoreCell_position fb font s
  simp only [State.position, Prod.mk.injEq] at hposition
  have hline := @histNewLine_calm fb (cursorRestoreCell fb font s)
  have hkept : (histNewLine (cursorRestoreCell fb font s)).cols = s.cols ∧
      (histNewLine (cursorRestoreCell fb font s)).rows = s.rows := ⟨hposition.2.2.1, hposition.2.2.2⟩
  unfold consoleClear consoleCursorHide
  generalize histNewLine (cursorRestoreCell fb font s) = t at hline hkept
  dsimp only
  set u : State := { t with
    scrollOffset := 0
    col := 0
    row := 0
    screen := drawRect (setPixel fb.pixelsPerScanline) t.screen 0 0 fb.width fb.height
      fun _ _ ↦ t.bgPacked } with hu
  have hucols : u.cols = fb.width / 8 := hkept.1.trans hcols
  have hurows : u.rows = fb.height / 16 := hkept.2.trans hrows
  have hplaced : u.Placed fb :=
    ⟨hucols, hurows, show 0 < u.cols by omega, show 0 < u.rows by omega⟩
  have hcalm : Calm fb t u :=
    Calm.of_screen rfl fun h ↦ drawRect_within _ (fun scr x hx y hy hscr ↦
      setPixel_within _ hscr (index_lt le_rfl (by omega) (by omega))) h
  exact ⟨hline.trans (hcalm.trans (consoleCursorShow_calm hucols hurows)),
    hplaced.of_position (consoleCursorShow_position _)⟩

theorem step_placed (h : s.Placed fb) (op : Op) : (step fb font s op).Placed fb := by
  cases op with
  | putchar c => exact (putchar_spec h c).2
  | scroll delta =>
    unfold step consoleScroll
    dsimp only
    split_ifs
    · exact h
    · exact (scroll_spec h _).2
  | cursorShow => exact h.of_position (consoleCursorShow_position s)
  | cursorHide => exact h.of_position (cursorRestoreCell_position s)
  | cursorTick now =>
    have hnow : ({ s with cursorLastTick := now } : State).Placed fb :=
      ⟨h.cols, h.rows, h.col, h.row⟩
    unfold step consoleCursorTick
    dsimp only
    split_ifs
    · exact hnow
    · exact h
    · exact hnow.of_position (cursorRestoreCell_position _)
    · exact hnow.of_position (cursorDrawOverlay_position _)
    · exact h
  | cursorEnable ticks => exact h.of_position (consoleCursorShow_position _)
  | cursorDisable => exact h.of_position (cursorRestoreCell_position s)
  | setColor fg bg => exact ⟨h.cols, h.rows, h.col, h.row⟩
  | clear => exact (clear_spec h.cols h.rows).2

theorem tick_inBounds (hplaced : s.Placed fb) (h : s.InBounds fb) (now : ℕ) :
    (consoleCursorTick fb font s now).InBounds fb ↔
      (s.Erases (.cursorTick now) → s.cursorVisible = true → s.scrollOffset = 0 →
        s.col < maxCols) := by
  have hnow : ({ s with cursorLastTick := now } : State).Placed fb :=
    ⟨hplaced.cols, hplaced.rows, hplaced.col, hplaced.row⟩
  have hbounds : ({ s with cursorLastTick := now } : State).InBounds fb :=
    ⟨h.history, h.screen, h.row, h.col⟩
  unfold consoleCursorTick State.Erases
  by_cases henabled : s.cursorEnabled = true
  · by_cases hback : now < s.cursorLastTick
    · rw [if_neg (not_not.2 henabled), if_pos hback]
      exact iff_of_true hbounds fun herases ↦ absurd hback herases.2.1
    · by_cases hearly : now - s.cursorLastTick < cursorBlinkTicks
      · rw [if_neg (not_not.2 henabled), if_neg hback, if_pos hearly]
        exact iff_of_true h fun herases ↦ absurd hearly herases.2.2
      · rw [if_neg (not_not.2 henabled), if_neg hback, if_neg hearly]
        dsimp only
        by_cases hvisible : s.cursorVisible = true
        · rw [if_pos hvisible, restored_iff hbounds hnow (Calm.refl fb _)
            (hnow.of_position (cursorRestoreCell_position _))]
          exact (imp_iff_right ⟨henabled, hback, hearly⟩).symm
        rw [if_neg hvisible]
        refine iff_of_true ?_ fun _ hv ↦ absurd hv hvisible
        exact (cursorDrawOverlay_calm hnow.cols hnow.rows).inBounds hbounds
          (hnow.of_position (cursorDrawOverlay_position _))
  · rw [if_pos henabled]
    exact iff_of_true h fun herases ↦ absurd herases.1 henabled

theorem step_inBounds (hplaced : s.Placed fb) (h : s.InBounds fb) (op : Op) :
    (step fb font s op).InBounds fb ↔ s.CursorInHistory op := by
  have hplaced' := @step_placed fb font s hplaced op
  unfold State.CursorInHistory
  cases op with
  | putchar c =>
    rw [State.Erases, true_imp_iff]
    exact restored_iff h hplaced (putchar_spec hplaced c).1 hplaced'
  | scroll delta =>
    unfold step consoleScroll at hplaced' ⊢
    dsimp only at hplaced' ⊢
    by_cases hsame : min (s.scrollOffset + delta).toNat
        (min s.totalLines (scrollbackLines - 1)) = s.scrollOffset
    · rw [if_pos hsame]
      exact iff_of_true h fun herases ↦ absurd hsame herases
    · rw [if_neg hsame] at hplaced' ⊢
      rw [State.Erases, ne_eq, eq_false hsame, not_false_iff, true_imp_iff]
      exact restored_iff h hplaced (scroll_spec hplaced _).1 hplaced'
  | cursorShow =>
    exact iff_of_true ((consoleCursorShow_calm hplaced.cols hplaced.rows).inBounds h hplaced')
      False.elim
  | cursorHide =>
    rw [State.Erases, true_imp_iff]
    exact restored_iff h hplaced (Calm.refl fb _) hplaced'
  | cursorTick now => exact tick_inBounds hplaced h now
  | cursorEnable ticks =>
    have hcalm : Calm fb s (step fb font s (.cursorEnable ticks)) := by
      have hshow := @consoleCursorShow_calm fb { s with
        cursorEnabled := true, cursorVisible := false, cursorLastTick := ticks }
        hplaced.cols hplaced.rows
      exact hshow.after rfl rfl
    exact iff_of_true (hcalm.inBounds h hplaced') False.elim
  | cursorDisable =>
    rw [State.Erases, true_imp_iff]
    exact restored_iff h hplaced (Calm.of_eq rfl rfl) hplaced'
  | setColor fg bg =>
    have hcalm : Calm fb s (step fb font s (.setColor fg bg)) := Calm.of_eq rfl rfl
    exact iff_of_true (hcalm.inBounds h hplaced') False.elim
  | clear =>
    rw [State.Erases, true_imp_iff]
    exact restored_iff h hplaced (clear_spec hplaced.cols hplaced.rows).1 hplaced'

end Step

section Results

variable (fb : Framebuffer) (font : Font) (pixels : ℕ → UInt32)

theorem init_inBounds :
    (consoleInit fb font (unset pixels)).Placed fb ∧
      (consoleInit fb font (unset pixels)).InBounds fb := by
  unfold consoleInit
  set s : State := { unset pixels with
    cols := fb.width / 8
    rows := fb.height / 16
    fgPacked := packColor fb (unset pixels).fg
    bgPacked := packColor fb (unset pixels).bg
    totalLines := 0
    scrollOffset := 0
    cursorEnabled := false
    cursorVisible := false
    cursorLastTick := 0 } with hs
  dsimp only
  have hcleared : Calm fb s ((List.range scrollbackLines).foldl histClearLine s) :=
    Calm.foldl (fun s i _ ↦ histClearLine_calm s i) s
  have hkept : ((List.range scrollbackLines).foldl histClearLine s).cols = fb.width / 8 ∧
      ((List.range scrollbackLines).foldl histClearLine s).rows = fb.height / 16 ∧
      ((List.range scrollbackLines).foldl histClearLine s).cursorVisible = false :=
    List.foldlRecOn (motive := fun t : State ↦
      t.cols = fb.width / 8 ∧ t.rows = fb.height / 16 ∧ t.cursorVisible = false)
      _ _ ⟨rfl, rfl, rfl⟩ fun _ ht _ _ ↦ ht
  generalize (List.range scrollbackLines).foldl histClearLine s = t at hcleared hkept
  obtain ⟨hcalm, hplaced⟩ := @clear_spec fb font t hkept.1 hkept.2.1
  have hrestored : cursorRestoreCell fb font t = t := if_pos (by rw [hkept.2.2]; decide)
  rw [hrestored] at hcalm
  have hall := hcleared.trans hcalm
  refine ⟨hplaced, hall.history ?_, hall.screen ?_, hplaced.row, hplaced.col⟩
  · exact fun _ ha ↦ absurd ha List.not_mem_nil
  · exact fun _ ha ↦ absurd ha List.not_mem_nil

/-- All accesses stay in bounds exactly as long as no cursor is erased in the live view at a column
that the history does not have. -/
theorem console_in_bounds (ops : List Op) :
    (∀ n, ((ops.take n).foldl (step fb font) (consoleInit fb font (unset pixels))).InBounds fb) ↔
      Along (step fb font) State.CursorInHistory (consoleInit fb font (unset pixels)) ops := by
  obtain ⟨hplaced, hbounds⟩ := init_inBounds fb font pixels
  exact Along.throughout_iff (I := State.Placed fb) (W := fun _ _ ↦ True)
    (fun _ op hs _ _ _ ↦ step_placed hs op) (fun _ op hs h _ ↦ step_inBounds hs h op)
    hplaced hbounds (Along.of_forall (fun _ _ ↦ trivial) _ _)

end Results

section Wide

variable {fb : Framebuffer} {font : Font} {s : State}

structure State.Shown (fb : Framebuffer) (s : State) (col : ℕ) : Prop where
  placed : s.Placed fb
  col : s.col = col
  enabled : s.cursorEnabled = true
  visible : s.cursorVisible = true
  live : s.scrollOffset = 0

theorem cursorRestoreCell_flags (s : State) :
    (cursorRestoreCell fb font s).cursorVisible = false ∧
      (cursorRestoreCell fb font s).cursorEnabled = s.cursorEnabled ∧
      (cursorRestoreCell fb font s).scrollOffset = s.scrollOffset := by
  unfold cursorRestoreCell
  split_ifs with hvisible
  · exact ⟨rfl, rfl, rfl⟩
  · exact ⟨rfl, rfl, rfl⟩
  · exact ⟨rfl, rfl, rfl⟩
  · exact ⟨Bool.eq_false_of_not_eq_true hvisible, rfl, rfl⟩

theorem histPut_flags (s : State) (col : ℕ) (c : UInt8) :
    (histPut s col c).cursorVisible = s.cursorVisible ∧
      (histPut s col c).cursorEnabled = s.cursorEnabled ∧
      (histPut s col c).scrollOffset = s.scrollOffset := by
  unfold histPut
  split_ifs <;> exact ⟨rfl, rfl, rfl⟩

theorem consoleCursorShow_shown {col : ℕ} (hplaced : s.Placed fb) (hcol : s.col = col)
    (henabled : s.cursorEnabled = true) (hlive : s.scrollOffset = 0) :
    (consoleCursorShow fb s).Shown fb col := by
  have hposition := @consoleCursorShow_position fb s
  have hin : ¬ (s.rows ≤ s.row ∨ s.cols ≤ s.col) := by
    have := hplaced.col
    have := hplaced.row
    omega
  refine ⟨hplaced.of_position hposition, (congrArg Prod.fst hposition).trans hcol, ?_, ?_, ?_⟩
  · unfold consoleCursorShow cursorDrawOverlay
    split_ifs <;> exact henabled
  · unfold consoleCursorShow cursorDrawOverlay
    by_cases hvisible : s.cursorVisible = true
    · rw [if_neg (not_not.2 henabled), if_pos hvisible]
      exact hvisible
    rw [if_neg (not_not.2 henabled), if_neg hvisible, if_neg (by simp [henabled, hvisible]),
      if_neg hin]
  · unfold consoleCursorShow cursorDrawOverlay
    split_ifs <;> exact hlive

theorem State.Shown.putchar {col : ℕ} (h : s.Shown fb col) (hlt : col + 1 < fb.width / 8) :
    (consolePutchar fb font s 97).Shown fb (col + 1) := by
  obtain ⟨-, henabled, hlive⟩ := @cursorRestoreCell_flags fb font s
  have hplaced : (cursorRestoreCell fb font s).Placed fb :=
    h.placed.of_position (cursorRestoreCell_position s)
  have hcol : (cursorRestoreCell fb font s).col = col :=
    (congrArg Prod.fst (cursorRestoreCell_position s)).trans h.col
  rw [h.enabled] at henabled
  rw [h.live] at hlive
  unfold consolePutchar consoleCursorHide liveView
  generalize cursorRestoreCell fb font s = t at henabled hlive hplaced hcol
  rw [if_neg (not_not.2 hlive)]
  have hput : (putGlyph fb font t 97).Placed fb := hplaced.putGlyph 97
  have hflags := histPut_flags (drawGlyph fb font t t.col t.row 97) t.col 97
  have hposition := histPut_position (drawGlyph fb font t t.col t.row 97) t.col 97
  have hnowrap : ¬ (histPut (drawGlyph fb font t t.col t.row 97) t.col 97).cols ≤
      (histPut (drawGlyph fb font t t.col t.row 97) t.col 97).col + 1 := by
    simp only [State.position, Prod.mk.injEq] at hposition
    rw [hposition.1, hposition.2.2.1]
    show ¬ t.cols ≤ t.col + 1
    rw [hcol, hplaced.cols]
    omega
  have hglyph : putGlyph fb font t 97 =
      { histPut (drawGlyph fb font t t.col t.row 97) t.col 97 with
        col := (histPut (drawGlyph fb font t t.col t.row 97) t.col 97).col + 1 } :=
    if_neg hnowrap
  refine consoleCursorShow_shown hput ?_ ?_ ?_
  · rw [hglyph]
    show (histPut (drawGlyph fb font t t.col t.row 97) t.col 97).col + 1 = col + 1
    have hkept : (histPut (drawGlyph fb font t t.col t.row 97) t.col 97).col = t.col :=
      congrArg Prod.fst hposition
    rw [hkept, hcol]
  · rw [hglyph]
    exact hflags.2.1.trans henabled
  · rw [hglyph]
    exact hflags.2.2.trans hlive

theorem State.Shown.print {col : ℕ} (h : s.Shown fb col) (n : ℕ) (hlt : col + n < fb.width / 8) :
    ((List.replicate n (Op.putchar 97)).foldl (step fb font) s).Shown fb (col + n) := by
  induction n generalizing s col with
  | zero => exact h
  | succ n ih =>
    rw [List.replicate_succ, List.foldl_cons, Nat.add_succ, ← Nat.succ_add]
    exact ih (h.putchar (by omega)) (by omega)

theorem consoleClear_home (s : State) :
    (consoleClear fb font s).scrollOffset = 0 ∧ (consoleClear fb font s).col = 0 := by
  unfold consoleClear
  generalize histNewLine (consoleCursorHide fb font s) = t
  unfold consoleCursorShow cursorDrawOverlay
  dsimp only
  split_ifs <;> exact ⟨rfl, rfl⟩

def longLine : List Op := Op.cursorEnable 0 :: List.replicate 256 (Op.putchar 97)

theorem wide_console_escapes (font : Font) (pixels : ℕ → UInt32)
    (hwide : maxCols < fb.width / 8) :
    ¬ ((longLine ++ [Op.cursorHide]).foldl (step fb font)
      (consoleInit fb font (unset pixels))).InBounds fb := by
  obtain ⟨hplaced, -⟩ := init_inBounds fb font pixels
  have hlive : (consoleInit fb font (unset pixels)).scrollOffset = 0 ∧
      (consoleInit fb font (unset pixels)).col = 0 := by
    unfold consoleInit
    dsimp only
    generalize (List.range scrollbackLines).foldl histClearLine _ = t
    exact consoleClear_home t
  rw [List.foldl_append, List.foldl_cons, List.foldl_nil, longLine, List.foldl_cons]
  generalize consoleInit fb font (unset pixels) = start at hplaced hlive ⊢
  have henabled : ({ start with
      cursorEnabled := true, cursorVisible := false, cursorLastTick := 0 } : State).Placed fb :=
    ⟨hplaced.cols, hplaced.rows, hplaced.col, hplaced.row⟩
  have hfirst : (step fb font start (.cursorEnable 0)).Shown fb 0 :=
    consoleCursorShow_shown henabled hlive.2 rfl hlive.1
  have hshown := @State.Shown.print fb font _ 0 hfirst 256 (by rw [Nat.zero_add]; exact hwide)
  generalize (List.replicate 256 (Op.putchar 97)).foldl (step fb font) _ = t at hshown ⊢
  intro hbounds
  have haccessed := @cursorRestoreCell_history fb font t hshown.placed
  rw [if_pos ⟨hshown.visible, hshown.live⟩, hshown.col] at haccessed
  have hmem : (histSlot t.totalLines, 0 + 256) ∈ (cursorRestoreCell fb font t).history.accessed :=
    haccessed ▸ List.mem_cons_self
  exact absurd (hbounds.history _ hmem).2 (lt_irrefl _)

def wideFramebuffer : Framebuffer :=
  ⟨2056, 16, 2056, true, by decide, by decide, by decide⟩

def blankFont : Font := ⟨fun _ _ ↦ 0, fun _ _ ↦ rfl⟩

theorem wide_console_out_of_bounds :
    ¬ ((longLine ++ [Op.cursorHide]).foldl (step wideFramebuffer blankFont)
      (consoleInit wideFramebuffer blankFont (unset fun _ ↦ 0))).InBounds wideFramebuffer :=
  wide_console_escapes blankFont _ (by decide)

end Wide

end NexusOS.Drivers.Console
