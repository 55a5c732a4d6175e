import Mathlib
import NexusOS.Lib.Run

namespace NexusOS.Drivers.Keyboard

open Lib

section Source

structure State where
  shift : Bool
  ctrl : Bool
  alt : Bool
  caps : Bool
  num : Bool
  scroll : Bool
  extended : Bool
  deriving DecidableEq

inductive Effect
  | setLeds (leds : UInt8)
  | consoleScroll (delta : ℤ)
  | shellHistoryPrev
  | shellHistoryNext
  | guiHandleKey (key : UInt8)
  | inputRecordKeyboard (c : UInt8)
  | shellReturnFromDesktop
  | shellInputChar (c : UInt8)
  deriving DecidableEq

def scancodeAscii : List UInt8 :=
  [0, 27, 49, 50, 51, 52, 53, 54, 55, 56, 57, 48, 45, 61, 8, 9,
    113, 119, 101, 114, 116, 121, 117, 105, 111, 112, 91, 93, 10, 0, 97, 115,
    100, 102, 103, 104, 106, 107, 108, 59, 39, 96, 0, 92, 122, 120, 99, 118,
    98, 110, 109, 44, 46, 47, 0, 42, 0, 32]

def scancodeShift : List UInt8 :=
  [0, 27, 33, 64, 35, 36, 37, 94, 38, 42, 40, 41, 95, 43, 8, 9,
    81, 87, 69, 82, 84, 89, 85, 73, 79, 80, 123, 125, 10, 0, 65, 83,
    68, 70, 71, 72, 74, 75, 76, 58, 34, 126, 0, 124, 90, 88, 67, 86,
    66, 78, 77, 60, 62, 63, 0, 42, 0, 32]

def keyboardSetLeds (s : State) : Effect :=
  .setLeds ((if s.scroll then 1 else 0) ||| (if s.num then 2 else 0) ||| (if s.caps then 4 else 0))

/-- The GUI as the driver sees it: whether it is active, and whether it still is after a key. -/
structure Gui where
  isActive : Bool
  staysActive : UInt8 → Bool

def dispatchSpecial (gui : Gui) (s : State) (sc : UInt8) (released : Bool) : List Effect :=
  if released then []
  else if !gui.isActive then
    if s.ctrl ∧ sc = 0x48 then [.consoleScroll 1]
    else if s.ctrl ∧ sc = 0x50 then [.consoleScroll (-1)]
    else if sc = 0x49 then [.consoleScroll 1]
    else if sc = 0x51 then [.consoleScroll (-1)]
    else if sc = 0x48 then [.shellHistoryPrev]
    else if sc = 0x50 then [.shellHistoryNext]
    else []
  else if sc = 0x48 then [.guiHandleKey 0x83]
  else if sc = 0x50 then [.guiHandleKey 0x84]
  else if sc = 0x4B then [.guiHandleKey 0x81]
  else if sc = 0x4D then [.guiHandleKey 0x82]
  else []

def isAlpha (sc : UInt8) : Bool :=
  0x10 ≤ sc ∧ sc ≤ 0x19 ∨ 0x1E ≤ sc ∧ sc ≤ 0x26 ∨ 0x2C ≤ sc ∧ sc ≤ 0x32

/-- The character of a key; the tables are zero behind their entries. -/
def keyChar (s : State) (sc : UInt8) : UInt8 :=
  if (isAlpha sc && s.caps) != s.shift then scancodeShift.getD sc.toNat 0
  else scancodeAscii.getD sc.toNat 0

def inputChar (gui : Gui) (c : UInt8) : List Effect :=
  if c = 0 then []
  else .inputRecordKeyboard c ::
    if gui.isActive then
      .guiHandleKey c :: if !gui.staysActive c then [.shellReturnFromDesktop] else []
    else [.shellInputChar c]

def keyboardProcessScancode (gui : Gui) (s : State) (code : UInt8) : State × List Effect :=
  if code = 0xE0 then ({ s with extended := true }, [])
  else
    let released : Bool := code &&& 0x80 ≠ 0
    let sc := code &&& 0x7F
    if s.extended then
      let s := { s with extended := false }
      if sc = 0x1D then ({ s with ctrl := !released }, [])
      else if sc = 0x38 then ({ s with alt := !released }, [])
      else (s, dispatchSpecial gui s sc released)
    else if sc = 0x2A ∨ sc = 0x36 then ({ s with shift := !released }, [])
    else if sc = 0x1D then ({ s with ctrl := !released }, [])
    else if sc = 0x38 then ({ s with alt := !released }, [])
    else if sc = 0x3A ∧ !released then
      ({ s with caps := !s.caps }, [keyboardSetLeds { s with caps := !s.caps }])
    else if sc = 0x45 ∧ !released then
      ({ s with num := !s.num }, [keyboardSetLeds { s with num := !s.num }])
    else if sc = 0x46 ∧ !released then
      ({ s with scroll := !s.scroll }, [keyboardSetLeds { s with scroll := !s.scroll }])
    else if released then (s, [])
    else (s, inputChar gui (keyChar s sc))

def keyboardInit : State := ⟨false, false, false, false, false, false, false⟩

end Source

section Keys

/-- A key of the keyboard by its Set-1 code. The code 0x60 is not one, as its break code would be the
prefix byte. -/
structure Key where
  extended : Bool
  code : UInt8
  lt : code < 128
  ne : code ≠ 0x60
  deriving DecidableEq

def leftShift : Key := ⟨false, 0x2A, by decide, by decide⟩
def rightShift : Key := ⟨false, 0x36, by decide, by decide⟩
def leftCtrl : Key := ⟨false, 0x1D, by decide, by decide⟩
def rightCtrl : Key := ⟨true, 0x1D, by decide, by decide⟩
def leftAlt : Key := ⟨false, 0x38, by decide, by decide⟩
def rightAlt : Key := ⟨true, 0x38, by decide, by decide⟩

def partner (k : Key) : Option Key :=
  if k = leftShift then some rightShift
  else if k = rightShift then some leftShift
  else if k = leftCtrl then some rightCtrl
  else if k = rightCtrl then some leftCtrl
  else if k = leftAlt then some rightAlt
  else if k = rightAlt then some leftAlt
  else none

/-- A key goes down, again while it is held, or up; the GUI is as it is then. -/
structure KeyEvent where
  key : Key
  down : Bool
  gui : Gui

def KeyEvent.bytes (e : KeyEvent) : List UInt8 :=
  (if e.key.extended then [0xE0] else []) ++ [if e.down then e.key.code else e.key.code ||| 0x80]

/-- The keyboard itself, with the keys that are held, beside its driver. -/
structure Desk where
  driver : State
  held : Key → Bool

def Desk.step (d : Desk) (e : KeyEvent) : Desk where
  driver := e.bytes.foldl (fun s b ↦ (keyboardProcessScancode e.gui s b).1) d.driver
  held := Function.update d.held e.key e.down

def Desk.start : Desk := ⟨keyboardInit, fun _ ↦ false⟩

structure Desk.Tracked (d : Desk) : Prop where
  shift : d.driver.shift = (d.held leftShift || d.held rightShift)
  ctrl : d.driver.ctrl = (d.held leftCtrl || d.held rightCtrl)
  alt : d.driver.alt = (d.held leftAlt || d.held rightAlt)

def Desk.Alone (d : Desk) (e : KeyEvent) : Prop :=
  e.down = true ∨ ∀ k ∈ partner e.key, d.held k = false

end Keys

section Step

variable {d : Desk} {e : KeyEvent}

theorem code_facts : ∀ c : UInt8, c < 128 →
    c ≠ 0xE0 ∧ c &&& 0x80 = 0 ∧ c &&& 0x7F = c ∧ (c ≠ 0x60 → c ||| 0x80 ≠ 0xE0) ∧
      (c ||| 0x80) &&& 0x80 ≠ 0 ∧ (c ||| 0x80) &&& 0x7F = c := by
  decide +kernel

/-- The flags after a byte, with the keys behind a prefix and without one. -/
structure Flagged (s : State) (shift ctrl alt : Prop) [Decidable shift] [Decidable ctrl]
    [Decidable alt] (down : Bool) (s' : State) : Prop where
  extended : s'.extended = false
  shift : s'.shift = if shift then down else s.shift
  ctrl : s'.ctrl = if ctrl then down else s.ctrl
  alt : s'.alt = if alt then down else s.alt

theorem process_plain (gui : Gui) {s : State} {code : UInt8} (hcode : code ≠ 0xE0)
    (hext : s.extended = false) :
    Flagged s (code &&& 0x7F = 0x2A ∨ code &&& 0x7F = 0x36) (code &&& 0x7F = 0x1D)
      (code &&& 0x7F = 0x38) (decide (code &&& 0x80 = 0))
      (keyboardProcessScancode gui s code).1 := by
  unfold keyboardProcessScancode
  rw [if_neg hcode]
  generalize code &&& 0x7F = sc
  simp only [hext, Bool.false_eq_true, if_false]
  by_cases h₁ : sc = 0x2A ∨ sc = 0x36
  · rw [if_pos h₁]
    rcases h₁ with rfl | rfl <;> constructor <;> simp
  rw [if_neg h₁]
  by_cases h₂ : sc = 0x1D
  · subst h₂
    constructor <;> simp
  rw [if_neg h₂]
  by_cases h₃ : sc = 0x38
  · subst h₃
    constructor <;> simp
  rw [if_neg h₃]
  split_ifs <;> constructor <;> simp [hext, h₁, h₂, h₃]

theorem process_extended (gui : Gui) {s : State} {code : UInt8} (hcode : code ≠ 0xE0)
    (hext : s.extended = true) :
    Flagged s False (code &&& 0x7F = 0x1D) (code &&& 0x7F = 0x38) (decide (code &&& 0x80 = 0))
      (keyboardProcessScancode gui s code).1 := by
  unfold keyboardProcessScancode
  rw [if_neg hcode]
  generalize code &&& 0x7F = sc
  simp only [hext, if_true]
  by_cases h₂ : sc = 0x1D
  · subst h₂
    constructor <;> simp
  rw [if_neg h₂]
  by_cases h₃ : sc = 0x38
  · subst h₃
    constructor <;> simp
  rw [if_neg h₃]
  constructor <;> simp [h₂, h₃]

theorem step_flagged (d : Desk) (e : KeyEvent) (hext : d.driver.extended = false) :
    Flagged d.driver (e.key = leftShift ∨ e.key = rightShift) (e.key = leftCtrl ∨ e.key = rightCtrl)
      (e.key = leftAlt ∨ e.key = rightAlt) e.down (d.step e).driver := by
  obtain ⟨⟨ext, code, hlt, hne⟩, down, gui⟩ := e
  obtain ⟨h₁, h₂, h₃, h₄, h₅, h₆⟩ := code_facts code hlt
  have hbyte : ∃ byte, (if down then code else code ||| 0x80) = byte ∧ byte ≠ 0xE0 ∧
      byte &&& 0x7F = code ∧ decide (byte &&& 0x80 = 0) = down := by
    cases down
    · exact ⟨_, rfl, h₄ hne, h₆, decide_eq_false h₅⟩
    · exact ⟨_, rfl, h₁, h₃, decide_eq_true h₂⟩
  obtain ⟨byte, hbyte, hescape, hcode, hdown⟩ := hbyte
  cases ext with
  | false =>
    have hdriver : (d.step ⟨⟨false, code, hlt, hne⟩, down, gui⟩).driver =
        (keyboardProcessScancode gui d.driver byte).1 := by
      rw [← hbyte]
      rfl
    have hplain := process_plain gui hescape hext
    rw [hcode, hdown, ← hdriver] at hplain
    exact ⟨hplain.extended, by simpa [leftShift, rightShift] using hplain.shift,
      by simpa [leftCtrl, rightCtrl] using hplain.ctrl, by simpa [leftAlt, rightAlt] using hplain.alt⟩
  | true =>
    have hdriver : (d.step ⟨⟨true, code, hlt, hne⟩, down, gui⟩).driver =
        (keyboardProcessScancode gui { d.driver with extended := true } byte).1 := by
      rw [← hbyte]
      rfl
    have hbehind := process_extended gui hescape (s := { d.driver with extended := true }) rfl
    rw [hcode, hdown, ← hdriver] at hbehind
    exact ⟨hbehind.extended, by simpa [leftShift, rightShift] using hbehind.shift,
      by simpa [leftCtrl, rightCtrl] using hbehind.ctrl,
      by simpa [leftAlt, rightAlt] using hbehind.alt⟩

theorem flag_iff {a b k : Key} (hab : a ≠ b) {held : Key → Bool} {flag : Bool} (down : Bool)
    (hflag : flag = (held a || held b)) :
    (if k = a ∨ k = b then down else flag) =
        (Function.update held k down a || Function.update held k down b) ↔
      (down = true ∨ (k = a → held b = false) ∧ (k = b → held a = false)) := by
  by_cases ha : k = a
  · subst ha
    cases down <;> simp [hab, Ne.symm hab]
  by_cases hb : k = b
  · subst hb
    cases down <;> simp [hab, Ne.symm hab]
  · simp [ha, hb, Ne.symm ha, Ne.symm hb, hflag]

theorem alone_iff (d : Desk) (e : KeyEvent) : d.Alone e ↔
    (e.down = true ∨ (e.key = leftShift → d.held rightShift = false) ∧
      (e.key = rightShift → d.held leftShift = false)) ∧
    (e.down = true ∨ (e.key = leftCtrl → d.held rightCtrl = false) ∧
      (e.key = rightCtrl → d.held leftCtrl = false)) ∧
    (e.down = true ∨ (e.key = leftAlt → d.held rightAlt = false) ∧
      (e.key = rightAlt → d.held leftAlt = false)) := by
  rw [← or_and_left, ← or_and_left]
  refine or_congr_right ?_
  unfold partner
  generalize e.key = k
  split_ifs with h₁ h₂ h₃ h₄ h₅ h₆
  · simp [h₁, leftShift, rightShift, leftCtrl, rightCtrl, leftAlt, rightAlt]
  · simp [h₂, leftShift, rightShift, leftCtrl, rightCtrl, leftAlt, rightAlt]
  · simp [h₃, leftShift, rightShift, leftCtrl, rightCtrl, leftAlt, rightAlt]
  · simp [h₄, leftShift, rightShift, leftCtrl, rightCtrl, leftAlt, rightAlt]
  · simp [h₅, leftShift, rightShift, leftCtrl, rightCtrl, leftAlt, rightAlt]
  · simp [h₆, leftShift, rightShift, leftCtrl, rightCtrl, leftAlt, rightAlt]
  · simp [h₁, h₂, h₃, h₄, h₅, h₆]

theorem step_tracked (hext : d.driver.extended = false) (h : d.Tracked) :
    (d.step e).Tracked ↔ d.Alone e := by
  have hflags := step_flagged d e hext
  have hshift := flag_iff (a := leftShift) (b := rightShift) (k := e.key) (by decide)
    e.down h.shift
  have hctrl := flag_iff (a := leftCtrl) (b := rightCtrl) (k := e.key) (by decide)
    e.down h.ctrl
  have halt := flag_iff (a := leftAlt) (b := rightAlt) (k := e.key) (by decide)
    e.down h.alt
  rw [← hflags.shift] at hshift
  rw [← hflags.ctrl] at hctrl
  rw [← hflags.alt] at halt
  rw [alone_iff, ← hshift, ← hctrl, ← halt]
  exact ⟨fun h ↦ ⟨h.shift, h.ctrl, h.alt⟩, fun h ↦ ⟨h.1, h.2.1, h.2.2⟩⟩

end Step

/-- After every code the flags are those of the held keys, if and only if no modifier key goes up
while the other key of the same modifier is held. -/
theorem modifiers_tracked (events : List KeyEvent) :
    (∀ n, ((events.take n).foldl Desk.step .start).Tracked) ↔
      Along Desk.step Desk.Alone .start events :=
  Along.throughout_iff (I := fun d ↦ d.driver.extended = false) (W := fun _ _ ↦ True)
    (fun d e hext _ _ _ ↦ (step_flagged d e hext).extended)
    (fun _ _ hext h _ ↦ step_tracked hext h) rfl ⟨rfl, rfl, rfl⟩ (.of_forall (fun _ _ ↦ trivial) _ _)

/-- The right Shift key goes down and up while the left one is held. -/
theorem shift_lost :
    let d := [⟨leftShift, true, ⟨false, fun _ ↦ true⟩⟩, ⟨rightShift, true, ⟨false, fun _ ↦ true⟩⟩,
      ⟨rightShift, false, ⟨false, fun _ ↦ true⟩⟩].foldl Desk.step .start
    d.held leftShift = true ∧ d.driver.shift = false := by
  decide

end NexusOS.Drivers.Keyboard
