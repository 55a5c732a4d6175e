import NexusOS.Gui.Window

namespace NexusOS.Gui.HitTest

section Source

inductive View
  | desktop
  | terminal
  | settings
  | files
  | search
  deriving DecidableEq

/-- The screen, which entries of the listed directory are directories, and the search results. -/
structure Env where
  width : ℤ
  height : ℤ
  dirs : List Bool
  results : List ℕ

structure Desktop where
  windows : Manager
  view : View
  selectedApp : ℕ
  filesItem : ℤ
  settingsItem : ℤ
  searchSelected : ℤ
  prevButtons : UInt8

/-- What the mouse reports to `gui_update`, and whether the clock shows another second. -/
structure Input where
  moved : Bool
  mx : ℤ
  my : ℤ
  buttons : UInt8
  tick : Bool

/-- What `gui_update` acts on: an application, an item of the files, a search result. -/
inductive Event
  | launch (app : ℕ)
  | openItem (item : ℤ)
  | result (row : ℤ)
  deriving DecidableEq

structure Outcome where
  state : Desktop
  events : List Event
  redraw : Bool

def appCount : ℕ := 10

/-- A part of the screen, or nearly all of it where that part is too small. -/
def part (screen num den least : ℤ) : ℤ :=
  let n := toInt (screen * num) / den
  if n < least then screen - 24 else n

def View.size (e : Env) : View → ℤ × ℤ
  | .search => (part e.width 2 3 500, part e.height 2 3 280)
  | .files => (part e.width 3 4 520, part e.height 3 4 340)
  | .settings => (part e.width 2 3 520, part e.height 2 3 330)
  | .terminal => (part e.width 3 4 500, part e.height 3 4 300)
  | .desktop => (e.width, e.height)

/-- The corner at which `gui_update` expects the window of a view. -/
def View.corner (e : Env) (v : View) : ℤ × ℤ :=
  ((e.width - (v.size e).1) / 2, (e.height - (v.size e).2) / 2)

def View.windowId : View → ℕ
  | .desktop => 0
  | .terminal => 1
  | .settings => 2
  | .files => 3
  | .search => 4

def guiDrawDesktop (e : Env) (s : Desktop) : Desktop :=
  { s with windows := guiWindowOpen s.windows s.view.windowId (s.view.size e).1 (s.view.size e).2 }

def filesOpenSelected (e : Env) (s : Desktop) : Outcome :=
  let open? := s.filesItem = 0 ∨ e.dirs.getD (s.filesItem - 1).toNat false
  ⟨if open? then { s with filesItem := 0 } else s, [.openItem s.filesItem], true⟩

def searchExecute (e : Env) (s : Desktop) : Outcome :=
  let s' := match e.results[s.searchSelected.toNat]? with
    | some 0 => { s with view := .files, filesItem := 0 }
    | some 1 => { s with view := .terminal }
    | some 2 => { s with view := .settings, settingsItem := 0 }
    | some 3 => { s with view := .desktop }
    | some 4 => { s with view := .desktop }
    | _ => s
  ⟨s', [.result s.searchSelected], true⟩

def handleEnter (s : Desktop) : Desktop :=
  match s.selectedApp with
  | 0 => { s with view := .files, filesItem := 0 }
  | 1 => { s with view := .terminal }
  | 2 => { s with view := .settings, settingsItem := 0 }
  | _ => s

def updateSearch (e : Env) (s : Desktop) (i : Input) (press : Bool) : Outcome :=
  let (x, y) := View.search.corner e
  let w := (View.search.size e).1
  let count : ℤ := e.results.length
  let within : Prop := x + 16 ≤ i.mx ∧ i.mx < x + w - 16 ∧ y + 139 ≤ i.my ∧ i.my < y + 144 + count * 34
  let row := (i.my - (y + 139)) / 34
  let s' := if i.moved ∧ within ∧ row < count then { s with searchSelected := row } else s
  if press ∧ x + w - 60 ≤ i.mx ∧ y ≤ i.my ∧ i.my < y + 42 then ⟨{ s' with view := .desktop }, [], true⟩
  else if press ∧ within then
    if row < count then searchExecute e { s' with searchSelected := row } else ⟨s', [], true⟩
  else ⟨s', [], s'.searchSelected ≠ s.searchSelected⟩

/-- The row of the files view at a height, counted from the parent directory, or -1. -/
def fileItem (e : Env) (y my : ℤ) : ℤ :=
  if y + 76 ≤ my ∧ my < y + 100 then 0
  else if y + 104 ≤ my ∧ my < y + 104 + e.dirs.length * 28 then 1 + (my - (y + 104)) / 28 else -1

def inColumns (e : Env) (mx : ℤ) : Bool :=
  let x := (View.files.corner e).1
  x + 14 ≤ mx ∧ mx < x + (View.files.size e).1 - 14

def hoverFiles (e : Env) (s : Desktop) (i : Input) : Desktop :=
  let item := fileItem e (View.files.corner e).2 i.my
  if i.moved ∧ inColumns e i.mx ∧ 0 ≤ item ∧ item ≤ e.dirs.length then { s with filesItem := item }
  else s

def updateFiles (e : Env) (s : Desktop) (i : Input) (press : Bool) : Outcome :=
  let x := (View.files.corner e).1
  let y := (View.files.corner e).2
  let s' := hoverFiles e s i
  if press ∧ x + (View.files.size e).1 - 60 ≤ i.mx ∧ y ≤ i.my ∧ i.my < y + 36 then
    ⟨{ s' with view := .desktop }, [], true⟩
  else if press ∧ inColumns e i.mx ∧ y + 76 ≤ i.my ∧ i.my < y + 104 + e.dirs.length * 28 then
    filesOpenSelected e s'
  else ⟨s', [], s'.filesItem ≠ s.filesItem⟩

def updateSettings (e : Env) (s : Desktop) (i : Input) (press : Bool) : Outcome :=
  let (x, y) := View.settings.corner e
  let w := (View.settings.size e).1
  let within : Prop := x + 14 ≤ i.mx ∧ i.mx < x + w - 14 ∧ y + 76 ≤ i.my ∧ i.my < y + 82 + 5 * 42
  let s' := if i.moved ∧ within then { s with settingsItem := min ((i.my - (y + 76)) / 42) 4 } else s
  if press ∧ x + w - 60 ≤ i.mx ∧ y ≤ i.my ∧ i.my < y + 36 then ⟨{ s' with view := .desktop }, [], true⟩
  else ⟨s', [], s'.settingsItem ≠ s.settingsItem ∨ press ∧ within⟩

def updateTerminal (e : Env) (s : Desktop) (i : Input) (press : Bool) : Outcome :=
  let (x, y) := View.terminal.corner e
  let w := (View.terminal.size e).1
  if press ∧ x + w - 60 ≤ i.mx ∧ y ≤ i.my ∧ i.my < y + 32 then ⟨{ s with view := .desktop }, [], true⟩
  else ⟨s, [], false⟩

/-- The left edge of the icons in `gui_update`: 30 pixels wide, 6 apart. -/
def hitStart (e : Env) : ℤ := (e.width - 354) / 2

def hitPanel (e : Env) : ℤ := e.height - if e.height ≥ 720 then 52 else 44

def iconAt (e : Env) (mx : ℤ) : Option ℕ :=
  (List.range appCount).find? fun i ↦ hitStart e + i * 36 ≤ mx ∧ mx < hitStart e + i * 36 + 30

def updateDesktop (e : Env) (s : Desktop) (i : Input) (press : Bool) : Outcome :=
  let low : Prop := hitPanel e ≤ i.my
  let home : Prop := 8 ≤ i.mx ∧ i.mx ≤ 46
  let search : Prop := 52 ≤ i.mx ∧ i.mx ≤ 144
  let s' := if i.moved ∧ low then
      if home then { s with selectedApp := 0 }
      else if search then s
      else { s with selectedApp := (iconAt e i.mx).getD s.selectedApp }
    else s
  if press ∧ low then
    if home then ⟨{ s' with selectedApp := 0 }, [], true⟩
    else if search then ⟨{ s' with view := .search, searchSelected := 0 }, [], true⟩
    else
      match iconAt e i.mx with
      | some app => ⟨handleEnter { s' with selectedApp := app }, [.launch app], true⟩
      | none => ⟨s', [], s'.selectedApp ≠ s.selectedApp⟩
  else ⟨s', [], s'.selectedApp ≠ s.selectedApp⟩

def pressed (s : Desktop) (i : Input) : UInt8 := i.buttons &&& ~~~ s.prevButtons

/-- The state in which the view is looked at: the window manager has seen the pointer, and a
window has been closed if its close box was hit. -/
def afterPointer (s : Desktop) (i : Input) : ℤ × Desktop :=
  let r := guiWindowPointer s.windows i.mx i.my i.buttons (pressed s i)
  (r.1, if r.1 < 0 then { s with
        windows := guiWindowClose r.2 (-r.1).toNat, view := .desktop, prevButtons := i.buttons }
      else { s with windows := r.2, prevButtons := i.buttons })

def updateView (e : Env) (s : Desktop) (i : Input) (press : Bool) : Outcome :=
  match s.view with
  | .search => updateSearch e s i press
  | .files => updateFiles e s i press
  | .settings => updateSettings e s i press
  | .terminal => updateTerminal e s i press
  | .desktop => updateDesktop e s i press

def guiUpdate (e : Env) (s : Desktop) (i : Input) : Desktop × List Event :=
  let r := afterPointer s i
  let o := updateView e r.2 i (left (pressed s i))
  (if o.redraw ∨ r.1 ≠ 0 ∨ i.tick then guiDrawDesktop e o.state else o.state, o.events)

/-- The corner of the square of 30 by 30 pixels that `gui_draw_desktop` draws for an application:
32 pixels wide and 8 apart, on the middle line of the panel. -/
def iconCorner (e : Env) (app : ℕ) : ℤ × ℤ :=
  let panelH := if e.height ≥ 720 then 58 else 48
  let margin := if e.width ≥ 900 then 22 else 10
  let cy := e.height - panelH - margin + panelH / 2
  ((e.width - 392) / 2 + app * 40, cy - 16)

/-- The corner of the row that `draw_files` draws for an entry, 24 pixels high. -/
def rowCorner (w : Window) (entry : ℕ) : ℤ × ℤ := (w.x + 14, w.y + 108 + entry * 28 - 4)

end Source

section Icons

variable {e : Env} {s : Desktop} {i : Input} {app : ℕ}

def OnIcon (e : Env) (app : ℕ) (mx my : ℤ) : Prop :=
  ((iconCorner e app).1 ≤ mx ∧ mx < (iconCorner e app).1 + 30) ∧
    (iconCorner e app).2 ≤ my ∧ my < (iconCorner e app).2 + 30

/-- The pixels at which the press reaches the application that is drawn there. -/
def IconHit (e : Env) (app : ℕ) (mx my : ℤ) : Prop :=
  hitPanel e ≤ my ∧ 144 < mx ∧ hitStart e + app * 36 ≤ mx ∧ mx < hitStart e + app * 36 + 30

theorem iconAt_eq_some (happ : app < 10) (mx : ℤ) :
    iconAt e mx = some app ↔ hitStart e + app * 36 ≤ mx ∧ mx < hitStart e + app * 36 + 30 := by
  rw [iconAt, List.find?_range_eq_some]
  simp only [decide_eq_true_eq, List.mem_range, appCount, Bool.not_eq_true', decide_eq_false_iff_not]
  constructor
  · exact fun h ↦ h.1
  · exact fun h ↦ ⟨h, happ, fun j hj ↦ by omega⟩

theorem afterPointer_view (h : s.view = .desktop) : (afterPointer s i).2.view = .desktop := by
  unfold afterPointer
  dsimp only
  split
  · rfl
  · exact h

theorem launch_iff (he : 640 ≤ e.width) (hview : s.view = .desktop) (happ : app < 10)
    (hicon : OnIcon e app i.mx i.my) (hpress : left (pressed s i) = true) :
    Event.launch app ∈ (guiUpdate e s i).2 ↔ IconHit e app i.mx i.my := by
  have hview' := afterPointer_view (i := i) hview
  have hright : 124 ≤ i.mx := by
    have := hicon.1
    unfold iconCorner at this
    dsimp only at this
    omega
  have hhit := iconAt_eq_some (e := e) happ i.mx
  unfold guiUpdate IconHit
  rw [← hhit]
  simp only [updateView, hview', hpress, updateDesktop, true_and]
  by_cases hlow : hitPanel e ≤ i.my
  · rw [if_pos hlow, if_neg (show ¬ (8 ≤ i.mx ∧ i.mx ≤ 46) by omega)]
    by_cases hsearch : 52 ≤ i.mx ∧ i.mx ≤ 144
    · rw [if_pos hsearch]
      simp only [List.not_mem_nil, false_iff]
      omega
    rw [if_neg hsearch]
    have hfar : 144 < i.mx := by omega
    cases iconAt e i.mx with
    | none => simp
    | some a => simp [hlow, hfar, eq_comm]
  · rw [if_neg hlow]
    simp [hlow]

end Icons

section Rows

variable {e : Env} {s : Desktop} {i : Input} {entry : ℕ} {item : ℤ}

/-- The files view with its window, wherever that is. -/
structure FilesShown (e : Env) (s : Desktop) : Prop where
  view : s.view = .files
  active : s.windows.activeId = 3
  visible : (s.windows.windows 3).visible = true
  width : (s.windows.windows 3).width = (View.files.size e).1
  height : (s.windows.windows 3).height = (View.files.size e).2
  screen : s.windows.screenW = e.width ∧ s.windows.screenH = e.height
  own : (s.windows.windows 3).id = 3

def OnRow (w : Window) (entry : ℕ) (mx my : ℤ) : Prop :=
  ((rowCorner w entry).1 ≤ mx ∧ mx < (rowCorner w entry).1 + (w.width - 28)) ∧
    (rowCorner w entry).2 ≤ my ∧ my < (rowCorner w entry).2 + 24

/-- The pixels at which a press opens an entry: its row in a window in the middle of the screen,
and the gap above the first entry if it has been chosen before. -/
def RowHit (e : Env) (entry : ℕ) (item mx my : ℤ) : Prop :=
  let y := (View.files.corner e).2
  inColumns e mx = true ∧
    (y + 104 + entry * 28 ≤ my ∧ my < y + 104 + (entry + 1) * 28 ∨
      y + 100 ≤ my ∧ my < y + 104 ∧ item = entry + 1)

theorem left_and {b c : UInt8} (h : left b = false) : left (b &&& c) = false := by
  unfold left at h ⊢
  rw [decide_eq_false_iff_not, not_not] at h ⊢
  rw [UInt8.and_assoc, UInt8.and_comm c, ← UInt8.and_assoc, h, UInt8.zero_and]

theorem three_quarters {n : ℤ} (h : 96 ≤ n) : toInt (n * 3) / 4 ≤ n - 24 := by
  by_cases hthird : n * 3 < 2 ^ 31
  · rw [toInt_eq (by omega) hthird]
    omega
  have hlt : toInt (n * 3) < (((2 ^ 32 : ℕ) : ℤ) + 1) / 2 := Int.bmod_lt (by decide)
  omega

theorem size_files (he : 640 ≤ e.width) (he' : 400 ≤ e.height) :
    clamp 220 (e.width - 24) (View.files.size e).1 = (View.files.size e).1 ∧
      clamp 120 (e.height - 24) (View.files.size e).2 = (View.files.size e).2 := by
  have hwidth := three_quarters (n := e.width) (by omega)
  have hheight := three_quarters (n := e.height) (by omega)
  simp only [View.size, part, clamp]
  constructor <;> split_ifs <;> omega

theorem press_below {m : Manager} {mx my : ℤ} (hactive : m.activeId = 3)
    (hown : (m.windows 3).id = 3) (hbelow : (m.windows 3).y + 32 ≤ my) :
    press m mx my = (false, m) ∨ press m mx my = (false, guiWindowFocus m 3) := by
  have hslot : slot 3 = some 3 := rfl
  unfold press
  rw [hactive, if_neg (by decide), hslot]
  dsimp only
  by_cases hinside : inside (m.windows 3) mx my = true
  · rw [if_pos hinside, hown, if_neg (by omega), if_neg (by omega)]
    exact .inr rfl
  rw [if_neg hinside]
  exact .inl rfl

theorem drag_idle {m : Manager} (h : m.dragId = 0) (mx my : ℤ) : drag m mx my = (0, m) := by
  unfold drag
  rw [h, if_pos rfl]

theorem pointer_below {m : Manager} {my : ℤ} {buttons : UInt8} (hactive : m.activeId = 3)
    (hown : (m.windows 3).id = 3) (hbelow : (m.windows 3).y + 32 ≤ my)
    (hdrag : m.dragId = 0 ∨ left buttons = false) (mx : ℤ) (pressed : UInt8) :
    guiWindowPointer m mx my buttons pressed = (0, { m with dragId := 0 }) ∨
      guiWindowPointer m mx my buttons pressed = (0, guiWindowFocus { m with dragId := 0 } 3) := by
  have hstart : (if left buttons then m else { m with dragId := 0 }) = { m with dragId := 0 } := by
    rcases hdrag with hzero | hup
    · split
      · rw [← hzero]
      · rfl
    · rw [hup]
      rfl
  unfold guiWindowPointer
  dsimp only
  rw [hstart]
  obtain hpress | hpress : (if left pressed then press { m with dragId := 0 } mx my
      else (false, { m with dragId := 0 })) = (false, { m with dragId := 0 }) ∨
      (if left pressed then press { m with dragId := 0 } mx my
      else (false, { m with dragId := 0 })) = (false, guiWindowFocus { m with dragId := 0 } 3) := by
    split
    · exact press_below hactive hown hbelow
    · exact .inl rfl
  · left
    rw [hpress]
    simp only [drag_idle]
    simp
  · right
    rw [hpress]
    simp only [drag_idle (m := guiWindowFocus { m with dragId := 0 } 3) rfl]
    simp

/-- The files view, with its window at the height `y` and not held by its title bar. -/
structure FilesAt (e : Env) (y item : ℤ) (s : Desktop) : Prop extends FilesShown e s where
  top : (s.windows.windows 3).y = y
  idle : s.windows.dragId = 0
  item : s.filesItem = item

theorem FilesShown.pointer (h : FilesShown e s)
    (hdrag : s.windows.dragId = 0 ∨ left i.buttons = false)
    (hbelow : (s.windows.windows 3).y + 32 ≤ i.my) :
    (afterPointer s i).1 = 0 ∧
      FilesAt e (s.windows.windows 3).y s.filesItem (afterPointer s i).2 ∧
      (afterPointer s i).2.prevButtons = i.buttons := by
  unfold afterPointer
  dsimp only
  obtain hp | hp := pointer_below h.active h.own hbelow hdrag i.mx (pressed s i)
  · simp only [hp, lt_irrefl, if_false]
    exact ⟨trivial, ⟨⟨h.view, h.active, h.visible, h.width, h.height, h.screen, h.own⟩, rfl, rfl,
      rfl⟩, trivial⟩
  simp only [hp, lt_irrefl, if_false]
  exact ⟨trivial, ⟨⟨h.view, rfl, h.visible, h.width, h.height, h.screen, h.own⟩, rfl, rfl,
    rfl⟩, trivial⟩

theorem FilesAt.draw {y item : ℤ} (he : 640 ≤ e.width) (he' : 400 ≤ e.height)
    (h : FilesAt e y item s) : FilesAt e y item (guiDrawDesktop e s) := by
  obtain ⟨hw, hh⟩ := size_files he he'
  have hslot : slot 3 = some 3 := rfl
  have hopen : guiWindowOpen s.windows 3 (View.files.size e).1 (View.files.size e).2 =
      guiWindowFocus { s.windows with
        windows := Function.update s.windows.windows 3
          { s.windows.windows 3 with id := 3, visible := true } } 3 := by
    unfold guiWindowOpen
    rw [hslot]
    dsimp only
    rw [h.screen.1, h.screen.2, hw, hh, if_neg (by simp [h.visible, h.width, h.height])]
  have hid : s.view.windowId = 3 := by
    rw [h.view]
    rfl
  have hsize : s.view.size e = View.files.size e := by rw [h.view]
  rw [guiDrawDesktop, hid, hsize, hopen]
  exact ⟨⟨h.view, rfl, rfl, h.width, h.height, h.screen, rfl⟩, h.top, h.idle, h.item⟩

theorem updateView_files {press : Bool} (h : s.view = .files) :
    updateView e s i press = updateFiles e s i press := by
  rw [updateView, h]

/-- The item that is chosen in the files view once the pointer has moved to a point. -/
def chosen (e : Env) (item mx my : ℤ) : ℤ :=
  let found := fileItem e (View.files.corner e).2 my
  if inColumns e mx ∧ 0 ≤ found ∧ found ≤ e.dirs.length then found else item

theorem hoverFiles_eq (h : s.filesItem = item ∧ i.moved = true ∨
    s.filesItem = chosen e item i.mx i.my) :
    hoverFiles e s i = { s with filesItem := chosen e item i.mx i.my } := by
  simp only [hoverFiles, chosen] at h ⊢
  by_cases hc : inColumns e i.mx = true ∧ 0 ≤ fileItem e (View.files.corner e).2 i.my ∧
      fileItem e (View.files.corner e).2 i.my ≤ e.dirs.length
  · rw [if_pos hc] at h ⊢
    rcases h with ⟨-, hmoved⟩ | hitem
    · rw [if_pos ⟨hmoved, hc⟩]
    · rw [← hitem, ite_self]
  · rw [if_neg hc] at h ⊢
    rw [if_neg fun hm ↦ hc hm.2]
    rcases h with ⟨hitem, -⟩ | hitem <;> rw [← hitem]

theorem FilesShown.move (he : 640 ≤ e.width) (he' : 400 ≤ e.height) (h : FilesShown e s)
    (hmoved : i.moved = true) (hup : left i.buttons = false)
    (hbelow : (s.windows.windows 3).y + 32 ≤ i.my) :
    FilesAt e (s.windows.windows 3).y (chosen e s.filesItem i.mx i.my) (guiUpdate e s i).1 ∧
      (guiUpdate e s i).1.prevButtons = i.buttons := by
  obtain ⟨-, hat, hprev⟩ := h.pointer (.inr hup) hbelow
  have hstate : (updateView e (afterPointer s i).2 i (left (pressed s i))).state =
      { (afterPointer s i).2 with filesItem := chosen e s.filesItem i.mx i.my } := by
    have hpress : left (pressed s i) = false := left_and hup
    rw [updateView_files hat.view, hpress]
    simp only [updateFiles, hoverFiles_eq (.inl ⟨hat.item, hmoved⟩), Bool.false_eq_true, false_and,
      if_false]
  have hshown : FilesAt e (s.windows.windows 3).y (chosen e s.filesItem i.mx i.my)
      { (afterPointer s i).2 with filesItem := chosen e s.filesItem i.mx i.my } :=
    ⟨⟨hat.view, hat.active, hat.visible, hat.width, hat.height, hat.screen, hat.own⟩, hat.top,
      hat.idle, rfl⟩
  unfold guiUpdate
  dsimp only
  rw [hstate]
  split
  · exact ⟨hshown.draw he he', hprev⟩
  · exact ⟨hshown, hprev⟩

theorem openItem_iff {y : ℤ} (h : FilesAt e y (chosen e item i.mx i.my) s)
    (hentry : entry < e.dirs.length) (hbelow : y + 32 ≤ i.my)
    (hpress : left (pressed s i) = true) :
    Event.openItem (entry + 1) ∈ (guiUpdate e s i).2 ↔ RowHit e entry item i.mx i.my := by
  obtain ⟨-, hat, -⟩ := h.toFilesShown.pointer (.inl h.idle) (h.top.symm ▸ hbelow)
  unfold guiUpdate
  dsimp only
  rw [updateView_files hat.view, hpress]
  simp only [updateFiles, hoverFiles_eq (.inr (hat.item.trans h.item)), true_and, RowHit]
  split
  · rename_i hclose
    simp only [List.not_mem_nil, false_iff]
    omega
  split
  · rename_i hrows
    simp only [filesOpenSelected, List.mem_singleton, Event.openItem.injEq, hrows.1, true_and,
      chosen, fileItem]
    split_ifs <;> omega
  rename_i hrows
  simp only [List.not_mem_nil, false_iff]
  rintro ⟨hcolumns, hrow⟩
  exact hrows ⟨hcolumns, by omega, by omega⟩

end Rows

section Agreement

/-- When a press reaches what is drawn, on the icons and on the rows. The row is looked at where the
window is, and the pointer has moved there before the press. -/
theorem hit_testing_iff (e : Env) (he : 640 ≤ e.width) (he' : 400 ≤ e.height) :
    (∀ (s : Desktop) (i : Input) (app : ℕ), s.view = .desktop → app < appCount →
      OnIcon e app i.mx i.my → left (pressed s i) = true →
      (Event.launch app ∈ (guiUpdate e s i).2 ↔ IconHit e app i.mx i.my)) ∧
    ∀ (s : Desktop) (i j : Input) (entry : ℕ), FilesShown e s → entry < 12 →
      entry < e.dirs.length → OnRow (s.windows.windows 3) entry i.mx i.my → i.moved = true →
      left i.buttons = false → j.mx = i.mx → j.my = i.my →
      left (j.buttons &&& ~~~ i.buttons) = true →
      (Event.openItem (entry + 1) ∈ (guiUpdate e (guiUpdate e s i).1 j).2 ↔
        RowHit e entry s.filesItem i.mx i.my) := by
  refine ⟨fun s i app hview happ hicon hpress ↦ launch_iff he hview happ hicon hpress, ?_⟩
  intro s i j entry h _ hentry hrow hmoved hup hx hy hpress
  have hbelow : (s.windows.windows 3).y + 32 ≤ i.my := by
    have := hrow.2
    unfold rowCorner at this
    dsimp only at this
    omega
  obtain ⟨hat, hprev⟩ := h.move he he' hmoved hup hbelow
  rw [← hx, ← hy] at hat ⊢
  refine openItem_iff hat hentry (hy ▸ hbelow) ?_
  rw [pressed, hprev]
  exact hpress

def smallEnv : Env := ⟨1024, 768, [true, true], []⟩

def startDesktop (view : View) : Desktop :=
  guiDrawDesktop smallEnv ⟨guiWindowManagerInit closedManager 1024 768, view, 0, 0, 0, 0, 0⟩

theorem startDesktop_files : FilesShown smallEnv (startDesktop .files) :=
  ⟨rfl, rfl, by decide +kernel, by decide +kernel, by decide +kernel, ⟨rfl, rfl⟩, by decide +kernel⟩

theorem hit_testing_iff_small :
    (OnIcon smallEnv 4 490 716 ∧
      (Event.launch 4 ∈ (guiUpdate smallEnv (startDesktop .desktop) ⟨true, 490, 716, 1, false⟩).2 ↔
        IconHit smallEnv 4 490 716)) ∧
    OnRow ((startDesktop .files).windows.windows 3) 1 300 240 ∧
      (Event.openItem 2 ∈ (guiUpdate smallEnv (guiUpdate smallEnv (startDesktop .files)
        ⟨true, 300, 240, 0, false⟩).1 ⟨false, 300, 240, 1, false⟩).2 ↔
        RowHit smallEnv 1 0 300 240) := by
  have hicon : OnIcon smallEnv 4 490 716 := by
    unfold OnIcon
    decide
  have hrow : OnRow ((startDesktop .files).windows.windows 3) 1 300 240 := by
    unfold OnRow
    decide +kernel
  obtain ⟨hicons, hrows⟩ := hit_testing_iff smallEnv (by decide) (by decide)
  exact ⟨⟨hicon, hicons (startDesktop .desktop) ⟨true, 490, 716, 1, false⟩ 4 rfl (by decide) hicon
    (by decide)⟩, hrow, hrows (startDesktop .files) ⟨true, 300, 240, 0, false⟩
      ⟨false, 300, 240, 1, false⟩ 1 startDesktop_files (by decide) (by decide) hrow rfl (by decide)
      rfl rfl (by decide)⟩

/-- The files after their window has been dragged 28 pixels down. -/
def draggedFiles : Desktop :=
  [⟨true, 300, 100, 1, false⟩, ⟨true, 300, 128, 1, false⟩, ⟨true, 300, 128, 0, false⟩].foldl
    (fun s i ↦ (guiUpdate smallEnv s i).1) (startDesktop .files)

/-- A press on the corner of the first icon launches nothing, and a press on the first entry of the
dragged window opens the second one. -/
theorem hit_testing_misses :
    (OnIcon smallEnv 0 316 701 ∧ Event.launch 0 ∉
        (guiUpdate smallEnv (startDesktop .desktop) ⟨true, 316, 701, 1, false⟩).2) ∧
      OnRow (draggedFiles.windows.windows 3) 0 300 230 ∧
      (guiUpdate smallEnv (guiUpdate smallEnv draggedFiles ⟨true, 300, 230, 0, false⟩).1
        ⟨false, 300, 230, 1, false⟩).2 = [.openItem 2] := by
  unfold OnIcon OnRow
  decide +kernel

end Agreement

end NexusOS.Gui.HitTest
