import Mathlib.Tactic
import NexusOS.Lib.Run

namespace NexusOS.Gui

open Lib

section Source

structure Window where
  id : ℕ
  x : ℤ
  y : ℤ
  width : ℤ
  height : ℤ
  visible : Bool
  focused : Bool

/-- The window manager; `windows` is indexed by the ids, of which 0 stands for no window. -/
structure Manager where
  windows : Fin 8 → Window
  screenW : ℤ
  screenH : ℤ
  activeId : ℕ
  dragId : ℕ
  dragDx : ℤ
  dragDy : ℤ

def slot (id : ℕ) : Option (Fin 8) := if h : 0 < id ∧ id < 8 then some ⟨id, h.2⟩ else none

def guiWindowManagerInit (s : Manager) (width height : ℤ) : Manager :=
  { s with
    screenW := width, screenH := height, activeId := 0, dragId := 0
    windows := fun i ↦ { s.windows i with id := 0 } }

def guiWindowFocus (s : Manager) (id : ℕ) : Manager :=
  { s with
    activeId := id
    windows := fun i ↦ { s.windows i with focused := i.val = id ∧ (s.windows i).visible } }

/-- A requested size between the least one and what the screen leaves room for. -/
def clamp (least most n : ℤ) : ℤ :=
  let n := if n < least then least else n
  if n > most then most else n

def guiWindowOpen (s : Manager) (id : ℕ) (width height : ℤ) : Manager :=
  match slot id with
  | none => s
  | some i =>
    let width := clamp 220 (s.screenW - 24) width
    let height := clamp 120 (s.screenH - 24) height
    let w := s.windows i
    let w := if w.visible = false ∨ w.width ≠ width ∨ w.height ≠ height then
        { w with
          x := (s.screenW - width) / 2, y := (s.screenH - height) / 2
          width := width, height := height }
      else w
    guiWindowFocus
      { s with windows := Function.update s.windows i { w with id := id, visible := true } } id

def guiWindowClose (s : Manager) (id : ℕ) : Manager :=
  match slot id with
  | none => s
  | some i =>
    { s with
      windows := Function.update s.windows i
        { s.windows i with visible := false, focused := false }
      activeId := if s.activeId = id then 0 else s.activeId
      dragId := if s.dragId = id then 0 else s.dragId }

def inside (w : Window) (x y : ℤ) : Bool :=
  w.visible && (w.x ≤ x ∧ w.y ≤ y ∧ x < w.x + w.width ∧ y < w.y + w.height)

/-- The lowest bit of the mask of buttons. -/
def left (buttons : UInt8) : Bool := buttons &&& 1 ≠ 0

/-- A press on the active window: whether it hit the close box, and the state after it. -/
def press (s : Manager) (mx my : ℤ) : Bool × Manager :=
  match if s.activeId = 0 then none else slot s.activeId with
  | none => (false, s)
  | some i =>
    let w := s.windows i
    if inside w mx my then
      let s := guiWindowFocus s w.id
      if mx ≥ w.x + w.width - 34 ∧ my < w.y + 32 then (true, s)
      else if my < w.y + 32 then
        (false, { s with dragId := s.activeId, dragDx := mx - w.x, dragDy := my - w.y })
      else (false, s)
    else (false, s)

/-- The value of a sum or a difference as an `int`. -/
def toInt (v : ℤ) : ℤ := v.bmod (2 ^ 32)

/-- A coordinate of a dragged window, kept on the screen unless the sum overflows. -/
def keepOn (screen size n : ℤ) : ℤ :=
  let n := if n < 0 then 0 else n
  if toInt (n + size) > screen then screen - size else n

def drag (s : Manager) (mx my : ℤ) : ℤ × Manager :=
  match if s.dragId = 0 then none else slot s.dragId with
  | none => (0, s)
  | some i =>
    let w := s.windows i
    let nx := keepOn s.screenW w.width (toInt (mx - s.dragDx))
    let ny := keepOn s.screenH w.height (toInt (my - s.dragDy))
    if nx ≠ w.x ∨ ny ≠ w.y then
      (s.activeId, { s with windows := Function.update s.windows i { w with x := nx, y := ny } })
    else (0, s)

def guiWindowPointer (s : Manager) (mx my : ℤ) (buttons pressed : UInt8) : ℤ × Manager :=
  let s := if left buttons then s else { s with dragId := 0 }
  let r := if left pressed then press s mx my else (false, s)
  if r.1 then (-r.2.activeId, r.2)
  else if left buttons then drag r.2 mx my
  else (0, r.2)

end Source

section Runs

inductive Op
  | open (id : ℕ) (width height : ℤ)
  | close (id : ℕ)
  | focus (id : ℕ)
  | pointer (mx my : ℤ) (buttons pressed : UInt8)

def call (s : Manager) : Op → Manager
  | .open id width height => guiWindowOpen s id width height
  | .close id => guiWindowClose s id
  | .focus id => guiWindowFocus s id
  | .pointer mx my buttons pressed => (guiWindowPointer s mx my buttons pressed).2

/-- The window whose title bar is at a point: the active one, outside its close box. -/
def titleAt (s : Manager) (mx my : ℤ) : Option ℕ :=
  match slot s.activeId with
  | none => none
  | some i =>
    let w := s.windows i
    if inside w mx my ∧ my < w.y + 32 ∧ mx < w.x + w.width - 34 then some i else none

/-- The window whose title bar was pressed last, if the button has been held since. -/
def grab (s : Manager) (held : Option ℕ) : Op → Option ℕ
  | .pointer mx my buttons pressed =>
    match if left pressed then titleAt s mx my else none with
    | some i => some i
    | none => if left buttons then held else none
  | _ => held

/-- A call, together with the window that is held by its title bar. -/
def step (r : Manager × Option ℕ) (op : Op) : Manager × Option ℕ := (call r.1 op, grab r.1 r.2 op)

def Window.OnScreen (w : Window) (screenW screenH : ℤ) : Prop :=
  (0 ≤ w.x ∧ w.x + w.width ≤ screenW) ∧ (0 ≤ w.y ∧ w.y + w.height ≤ screenH) ∧
    0 < w.width ∧ 0 < w.height

/-- The window was made to fit the screen, and stands on it. -/
def Window.Placed (w : Window) (W H : ℤ) : Prop :=
  w.OnScreen W H ∧ w.width ≤ W - 24 ∧ w.height ≤ H - 24

/-- The pointer is on the screen. -/
def Op.OnScreen (W H : ℤ) : Op → Prop
  | .pointer mx my _ _ => (0 ≤ mx ∧ mx < W) ∧ 0 ≤ my ∧ my < H
  | _ => True

/-- No drag overflows an `int`. On a screen of less than 59 columns the close box covers the whole
title bar, so that nothing is dragged. -/
def Narrow (W H : ℤ) : Prop := W < 59 ∨ W ≤ 2 ^ 30 + 12 ∧ H ≤ 2 ^ 30 + 12

structure Manager.Good (W H : ℤ) (s : Manager) (held : Option ℕ) : Prop where
  narrow : Narrow W H
  wide : 25 ≤ W ∧ s.screenW = W
  high : 25 ≤ H ∧ s.screenH = H
  placed : ∀ i, (s.windows i).visible = true → (s.windows i).Placed W H
  own : ∀ i, (s.windows i).visible = true → (s.windows i).id = i.val
  focus : ∀ i, (s.windows i).focused = true → i.val = s.activeId
  holds : s.dragId ≠ 0 → held = some s.dragId ∧ (∀ i, slot s.dragId = some i →
    (s.windows i).visible = true) ∧ 59 ≤ W ∧ (0 ≤ s.dragDx ∧ s.dragDx ≤ W) ∧
      0 ≤ s.dragDy ∧ s.dragDy ≤ H

variable {W H : ℤ} {s : Manager} {held : Option ℕ} {id : ℕ} {i : Fin 8} {mx my : ℤ}

theorem slot_some (h : slot id = some i) : i.val = id := by
  unfold slot at h
  split at h
  · exact congrArg Fin.val (Option.some.inj h.symm)
  · exact absurd h (by simp)

theorem slot_zero : slot 0 = none := rfl

theorem Manager.Good.focused (h : s.Good W H held) (id : ℕ) : (guiWindowFocus s id).Good W H held := by
  refine ⟨h.narrow, h.wide, h.high, h.placed, h.own, fun i hi ↦ ?_, h.holds⟩
  exact (decide_eq_true_iff.1 hi).1

theorem clamp_bounds {least most n : ℤ} (h : 0 < least) (h' : 0 < most) :
    0 < clamp least most n ∧ clamp least most n ≤ most := by
  unfold clamp
  dsimp only
  split_ifs <;> omega

theorem toInt_eq {v : ℤ} (h : -2 ^ 31 ≤ v) (h' : v < 2 ^ 31) : toInt v = v :=
  Int.bmod_eq_of_le_mul_two (by omega) (by omega)

theorem keepOn_bounds {screen size n : ℤ} (h : 0 < size ∧ size ≤ screen)
    (hsum : n + size < 2 ^ 31) (hscreen : screen < 2 ^ 31) :
    0 ≤ keepOn screen size n ∧ keepOn screen size n + size ≤ screen := by
  unfold keepOn
  dsimp only
  rw [toInt_eq (by split <;> omega) (by split <;> omega)]
  split_ifs <;> omega

theorem Manager.Good.update (h : s.Good W H held) {w : Window}
    (hplaced : w.visible = true → w.Placed W H)
    (hown : w.visible = true → w.id = i.val) (hfocus : w.focused = true → i.val = s.activeId)
    (hdrag : slot s.dragId = some i → w.visible = true) :
    Manager.Good W H { s with windows := Function.update s.windows i w } held := by
  refine ⟨h.narrow, h.wide, h.high, ?_, ?_, ?_, fun hne ↦
    ⟨(h.holds hne).1, ?_, (h.holds hne).2.2⟩⟩
  · exact (Function.forall_update_iff s.windows fun _ w ↦ w.visible = true → w.Placed W H).2
      ⟨hplaced, fun j _ ↦ h.placed j⟩
  · exact (Function.forall_update_iff s.windows fun j w ↦ w.visible = true → w.id = j.val).2
      ⟨hown, fun j _ ↦ h.own j⟩
  · exact (Function.forall_update_iff s.windows fun j w ↦ w.focused = true → j.val = s.activeId).2
      ⟨hfocus, fun j _ ↦ h.focus j⟩
  · exact (Function.forall_update_iff s.windows fun j w ↦ slot s.dragId = some j →
      w.visible = true).2 ⟨hdrag, fun j _ ↦ (h.holds hne).2.1 j⟩

theorem Manager.Good.opened (h : s.Good W H held) (id : ℕ) (width height : ℤ) :
    (guiWindowOpen s id width height).Good W H held := by
  unfold guiWindowOpen
  cases hslot : slot id with
  | none => exact h
  | some i =>
    have hwide := h.wide
    have hhigh := h.high
    have hw : 0 < clamp 220 (s.screenW - 24) width ∧ _ := clamp_bounds (by decide) (by omega)
    have hh : 0 < clamp 120 (s.screenH - 24) height ∧ _ := clamp_bounds (by decide) (by omega)
    dsimp only
    generalize clamp 220 (s.screenW - 24) width = width at hw ⊢
    generalize clamp 120 (s.screenH - 24) height = height at hh ⊢
    refine (Manager.Good.update h (fun _ ↦ ?_) (fun _ ↦ (slot_some hslot).symm) ?_
      fun _ ↦ rfl).focused id
    · split
      · refine ⟨?_, by dsimp only; omega, by dsimp only; omega⟩
        show (_ ∧ _) ∧ (_ ∧ _) ∧ _
        dsimp only
        omega
      · rename_i hsame
        simp only [not_or, Bool.not_eq_false] at hsame
        exact h.placed i hsame.1
    · intro hfocus
      refine h.focus i ?_
      split at hfocus <;> exact hfocus

theorem Manager.Good.closed (h : s.Good W H held) (id : ℕ) : (guiWindowClose s id).Good W H held := by
  unfold guiWindowClose
  cases hslot : slot id with
  | none => exact h
  | some i =>
    have hid := slot_some hslot
    have hrest : ∀ j, j ≠ i → j.val ≠ id := fun j hj heq ↦ hj (Fin.ext (heq.trans hid.symm))
    refine ⟨h.narrow, h.wide, h.high, ?_, ?_, ?_, fun hne ↦ ?_⟩
    · exact (Function.forall_update_iff s.windows fun _ w ↦ w.visible = true → w.Placed W H).2
        ⟨fun hv ↦ absurd hv (by simp), fun j _ ↦ h.placed j⟩
    · exact (Function.forall_update_iff s.windows fun j w ↦ w.visible = true → w.id = j.val).2
        ⟨fun hv ↦ absurd hv (by simp), fun j _ ↦ h.own j⟩
    · refine (Function.forall_update_iff s.windows fun j w ↦ w.focused = true →
        j.val = if s.activeId = id then 0 else s.activeId).2
        ⟨fun hf ↦ absurd hf (by simp), fun j hj hf ↦ ?_⟩
      have hactive := h.focus j hf
      rw [if_neg fun heq ↦ hrest j hj (hactive.trans heq)]
      exact hactive
    dsimp only at hne ⊢
    split at hne
    · exact absurd rfl hne
    rename_i hother
    rw [if_neg hother]
    refine ⟨(h.holds hne).1, fun j hj ↦ ?_, (h.holds hne).2.2⟩
    have heq : j ≠ i := fun heq ↦ hother ((slot_some hj).symm.trans (heq ▸ hid))
    rw [Function.update_of_ne heq]
    exact (h.holds hne).2.1 j hj

theorem slot_active (id : ℕ) : (if id = 0 then none else slot id) = slot id := by
  split
  · rename_i h
    rw [h, slot_zero]
  · rfl

theorem inside_visible {w : Window} (h : inside w mx my = true) : w.visible = true :=
  (Bool.and_eq_true_iff.1 h).1

theorem inside_at {w : Window} (h : inside w mx my = true) :
    w.x ≤ mx ∧ w.y ≤ my ∧ mx < w.x + w.width ∧ my < w.y + w.height :=
  of_decide_eq_true (Bool.and_eq_true_iff.1 h).2

theorem press_windows (s : Manager) (mx my : ℤ) (i : Fin 8) :
    (((press s mx my).2.windows i).x, ((press s mx my).2.windows i).y) =
      ((s.windows i).x, (s.windows i).y) := by
  unfold press
  split
  · rfl
  dsimp only
  split_ifs <;> rfl

section

variable (h : s.Good W H held)
include h

theorem Manager.Good.hit (mx my : ℤ) : (press s mx my).2.Good W H ((titleAt s mx my).or held) := by
  unfold press titleAt
  rw [slot_active]
  cases hslot : slot s.activeId with
  | none => exact h
  | some i =>
    have hid := slot_some hslot
    dsimp only
    by_cases hinside : inside (s.windows i) mx my = true
    · have hown : (s.windows i).id = i.val := h.own i (inside_visible hinside)
      have hfocused := h.focused i
      rw [if_pos hinside, hown]
      simp only [hinside, true_and]
      by_cases hclose : mx ≥ (s.windows i).x + (s.windows i).width - 34 ∧ my < (s.windows i).y + 32
      · rw [if_pos hclose, if_neg (by omega)]
        exact hfocused
      rw [if_neg hclose]
      by_cases htitle : my < (s.windows i).y + 32
      · rw [if_pos htitle, if_pos (by omega)]
        obtain ⟨⟨hx, hy, -⟩, hwidth, -⟩ := h.placed i (inside_visible hinside)
        have hat := inside_at hinside
        refine ⟨h.narrow, h.wide, h.high, h.placed, h.own, hfocused.focus, fun _ ↦
          ⟨rfl, fun j hj ↦ ?_, ?_⟩⟩
        · have heq : j = i := Fin.ext (slot_some hj)
          subst heq
          exact inside_visible hinside
        · dsimp only
          omega
      · rw [if_neg htitle, if_neg (by omega)]
        exact hfocused
    · rw [if_neg hinside]
      simp only [hinside]
      exact h

theorem Manager.Good.dragged (hmx : 0 ≤ mx ∧ mx < W) (hmy : 0 ≤ my ∧ my < H) :
    (drag s mx my).2.Good W H held ∧ ∀ i,
      (((drag s mx my).2.windows i).x, ((drag s mx my).2.windows i).y) ≠
        ((s.windows i).x, (s.windows i).y) → held = some i.val := by
  unfold drag
  rw [slot_active]
  cases hslot : slot s.dragId with
  | none => exact ⟨h, fun i hne ↦ absurd rfl hne⟩
  | some i =>
    have hid := slot_some hslot
    have hne : s.dragId ≠ 0 := by
      intro hzero
      rw [hzero, slot_zero] at hslot
      exact absurd hslot (by simp)
    obtain ⟨hheld, hvisible, hdraggable, hdx, hdy⟩ := h.holds hne
    obtain ⟨hscreen, hwidth, hheight⟩ := h.placed i (hvisible i hslot)
    have hnarrow := h.narrow.resolve_left (by omega)
    dsimp only
    split
    · refine ⟨h.update (fun _ ↦ ?_) (h.own i) (h.focus i) fun _ ↦ hvisible i hslot, fun j hmoved ↦ ?_⟩
      · obtain ⟨hx, hy, hsize⟩ := hscreen
        rw [h.wide.2, h.high.2, toInt_eq (by omega) (by omega), toInt_eq (by omega) (by omega)]
        exact ⟨⟨keepOn_bounds (by omega) (by omega) (by omega),
          keepOn_bounds (by omega) (by omega) (by omega), hsize⟩, hwidth, hheight⟩
      · by_cases heq : j = i
        · rw [heq, hid]
          exact hheld
        · simp only [Function.update_of_ne heq] at hmoved
          exact absurd rfl hmoved
    · exact ⟨h, fun j hmoved ↦ absurd rfl hmoved⟩

theorem Manager.Good.released : Manager.Good W H { s with dragId := 0 } none :=
  ⟨h.narrow, h.wide, h.high, h.placed, h.own, h.focus, fun hne ↦ absurd rfl hne⟩

theorem Manager.Good.started (buttons : UInt8) :
    (if left buttons then s else { s with dragId := 0 }).Good W H
      (if left buttons then held else none) := by
  split
  · exact h
  · exact h.released

end

theorem started_windows (s : Manager) (buttons : UInt8) :
    (if left buttons then s else { s with dragId := 0 }).windows = s.windows ∧
      (if left buttons then s else { s with dragId := 0 }).activeId = s.activeId := by
  split <;> exact ⟨rfl, rfl⟩

theorem Manager.Good.presses (h : s.Good W H held) (mx my : ℤ) (pressed : UInt8) :
    (if left pressed then press s mx my else (false, s)).2.Good W H
        ((if left pressed then titleAt s mx my else none).or held) ∧
      ∀ i, (((if left pressed then press s mx my else (false, s)).2.windows i).x,
          ((if left pressed then press s mx my else (false, s)).2.windows i).y) =
        ((s.windows i).x, (s.windows i).y) := by
  split
  · exact ⟨h.hit mx my, press_windows s mx my⟩
  · exact ⟨h, fun _ ↦ rfl⟩

theorem Manager.Good.pointer (h : s.Good W H held) (hmx : 0 ≤ mx ∧ mx < W)
    (hmy : 0 ≤ my ∧ my < H) (buttons pressed : UInt8) :
    (guiWindowPointer s mx my buttons pressed).2.Good W H
        (grab s held (.pointer mx my buttons pressed)) ∧ ∀ i,
      (((guiWindowPointer s mx my buttons pressed).2.windows i).x,
          ((guiWindowPointer s mx my buttons pressed).2.windows i).y) ≠
        ((s.windows i).x, (s.windows i).y) →
      grab s held (.pointer mx my buttons pressed) = some i.val := by
  have hgrab : grab s held (.pointer mx my buttons pressed) =
      (if left pressed then titleAt s mx my else none).or (if left buttons then held else none) := by
    simp only [grab]
    cases (if left pressed then titleAt s mx my else none) <;> rfl
  have h₁ := h.started buttons
  obtain ⟨hwindows, hactive⟩ := started_windows s buttons
  have htitle : titleAt s mx my = titleAt (if left buttons then s else { s with dragId := 0 })
      mx my := by
    rw [titleAt, titleAt, hwindows, hactive]
  rw [hgrab, htitle]
  unfold guiWindowPointer
  dsimp only
  generalize (if left buttons then s else { s with dragId := 0 }) = s₁ at h₁ hwindows
  obtain ⟨h₂, hposition⟩ := h₁.presses mx my pressed
  rw [hwindows] at hposition
  generalize (if left pressed then press s₁ mx my else (false, s₁)) = r at h₂ hposition
  split
  · exact ⟨h₂, fun i hmoved ↦ absurd (hposition i) hmoved⟩
  by_cases hleft : left buttons
  · rw [if_pos hleft]
    obtain ⟨hgood, hmoves⟩ := h₂.dragged hmx hmy
    exact ⟨hgood, fun i hmoved ↦ hmoves i (hposition i ▸ hmoved)⟩
  · rw [if_neg hleft]
    exact ⟨h₂, fun i hmoved ↦ absurd (hposition i) hmoved⟩

theorem step_good {r : Manager × Option ℕ} (h : r.1.Good W H r.2) {op : Op}
    (hop : op.OnScreen W H) : (step r op).1.Good W H (step r op).2 := by
  cases op with
  | «open» id width height => exact h.opened id width height
  | close id => exact h.closed id
  | focus id => exact h.focused id
  | pointer mx my buttons pressed => exact (h.pointer hop.1 hop.2 buttons pressed).1

/-- The visible windows are on the screen, one at most is focused, and a pointer event moves only
the window that is held by its title bar. -/
structure Stays (W H : ℤ) (r : Manager × Option ℕ) : Prop where
  onScreen : ∀ i, (r.1.windows i).visible = true → (r.1.windows i).OnScreen W H
  focused : ∀ i j, (r.1.windows i).focused = true → (r.1.windows j).focused = true → i = j
  moves : ∀ mx my buttons pressed i, (0 ≤ mx ∧ mx < W) ∧ 0 ≤ my ∧ my < H →
    (((guiWindowPointer r.1 mx my buttons pressed).2.windows i).x,
        ((guiWindowPointer r.1 mx my buttons pressed).2.windows i).y) ≠
      ((r.1.windows i).x, (r.1.windows i).y) →
    grab r.1 r.2 (.pointer mx my buttons pressed) = some i.val

theorem Manager.Good.stays {r : Manager × Option ℕ} (h : r.1.Good W H r.2) : Stays W H r :=
  ⟨fun i hi ↦ (h.placed i hi).1,
    fun i j hi hj ↦ Fin.ext ((h.focus i hi).trans (h.focus j hj).symm),
    fun _ _ buttons pressed i hon ↦ (h.pointer hon.1 hon.2 buttons pressed).2 i⟩

/-- The largest window is held by its left edge and taken to the far corner of the screen. -/
def farDrag (W H : ℤ) : List Op :=
  [.open 3 W H, .pointer 12 12 1 1, .pointer (W - 1) (H - 1) 1 0]

theorem clamp_screen {least n : ℤ} : clamp least (n - 24) n = n - 24 := by
  unfold clamp
  dsimp only
  split_ifs <;> omega

theorem drag_eq (hslot : slot s.dragId = some i) (mx my : ℤ) : (drag s mx my).2 =
    { s with windows := Function.update s.windows i { s.windows i with
        x := keepOn s.screenW (s.windows i).width (toInt (mx - s.dragDx))
        y := keepOn s.screenH (s.windows i).height (toInt (my - s.dragDy)) } } := by
  unfold drag
  rw [slot_active, hslot]
  dsimp only
  split
  · rfl
  rename_i hsame
  rw [not_or, not_not, not_not] at hsame
  rw [hsame.1, hsame.2, Function.update_eq_self]

/-- The largest window is open, with its corner at `(x, y)`. -/
structure Largest (W H x y : ℤ) (s : Manager) : Prop where
  screen : s.screenW = W ∧ s.screenH = H
  active : s.activeId = 3
  window : ∃ focused, s.windows 3 = ⟨3, x, y, W - 24, H - 24, true, focused⟩

/-- It is held by its corner. -/
structure Held (W H x y : ℤ) (s : Manager) : Prop extends Largest W H x y s where
  held : s.dragId = 3
  corner : s.dragDx = 0 ∧ s.dragDy = 0

theorem largest_open (s : Manager) (hclosed : ∀ i, (s.windows i).visible = false) :
    Largest W H 12 12 (guiWindowOpen (guiWindowManagerInit s W H) 3 W H) := by
  have hmid (n : ℤ) : (n - (n - 24)) / 2 = 12 := by omega
  unfold guiWindowOpen
  rw [show slot 3 = some 3 from rfl]
  dsimp only
  rw [show (guiWindowManagerInit s W H).screenW = W from rfl,
    show (guiWindowManagerInit s W H).screenH = H from rfl, clamp_screen, clamp_screen, hmid, hmid,
    if_pos (.inl (hclosed 3))]
  exact ⟨⟨rfl, rfl⟩, rfl, _, rfl⟩

theorem Largest.press (h : Largest W H 12 12 s) (hW : 59 ≤ W) (hH : 25 ≤ H) :
    (Gui.press s 12 12).1 = false ∧ Held W H 12 12 (Gui.press s 12 12).2 := by
  obtain ⟨focused, hwindow⟩ := h.window
  unfold Gui.press
  rw [slot_active, h.active, show slot 3 = some 3 from rfl]
  dsimp only
  rw [hwindow]
  simp only [inside, Bool.true_and]
  rw [if_pos (by simp; omega), if_neg (by omega), if_pos (by omega)]
  refine ⟨rfl, ⟨h.screen, rfl, true, ?_⟩, rfl, ⟨rfl, rfl⟩⟩
  simp [guiWindowFocus, hwindow]

theorem Held.drag {x y : ℤ} (h : Held W H x y s) (mx my : ℤ) :
    Held W H (keepOn W (W - 24) (toInt mx)) (keepOn H (H - 24) (toInt my))
      (Gui.drag s mx my).2 := by
  obtain ⟨focused, hwindow⟩ := h.window
  rw [drag_eq (i := 3) (by rw [h.held]; rfl)]
  refine ⟨⟨h.screen, h.active, focused, ?_⟩, h.held, h.corner⟩
  dsimp only
  rw [Function.update_self, hwindow, h.screen.1, h.screen.2, h.corner.1, h.corner.2, sub_zero,
    sub_zero]

theorem held_farDrag (s : Manager) (hclosed : ∀ i, (s.windows i).visible = false)
    (hW : 59 ≤ W ∧ W < 2 ^ 31) (hH : 25 ≤ H ∧ H < 2 ^ 31) :
    Held W H (keepOn W (W - 24) (W - 1)) (keepOn H (H - 24) (H - 1))
      ((farDrag W H).foldl step (guiWindowManagerInit s W H, none)).1 := by
  have hopen := largest_open (W := W) (H := H) s hclosed
  obtain ⟨hkept, hheld⟩ := hopen.press hW.1 hH.1
  have hmoved := (hheld.drag 12 12).drag (W - 1) (H - 1)
  rw [toInt_eq (by omega) (by omega), toInt_eq (by omega) (by omega)] at hmoved
  have hpointer : (guiWindowPointer (guiWindowOpen (guiWindowManagerInit s W H) 3 W H)
      12 12 1 1).2 = (Gui.drag (Gui.press (guiWindowOpen (guiWindowManagerInit s W H) 3 W H)
        12 12).2 12 12).2 := by
    have hleft : left 1 = true := rfl
    simp only [guiWindowPointer, hleft, if_true, hkept, Bool.false_eq_true, if_false]
  rw [← hpointer] at hmoved
  exact hmoved

/-- Just on the screens that are narrow enough, every run keeps the windows as they should be. -/
theorem windows_stay_on_screen (s : Manager) (width height : ℤ)
    (hwidth : 25 ≤ width ∧ width < 2 ^ 31) (hheight : 25 ≤ height ∧ height < 2 ^ 31)
    (hclosed : ∀ i, (s.windows i).visible = false ∧ (s.windows i).focused = false) :
    (∀ ops : List Op, (∀ op ∈ ops, op.OnScreen width height) →
        Stays width height (ops.foldl step (guiWindowManagerInit s width height, none))) ↔
      Narrow width height := by
  constructor
  · intro h
    by_contra hnarrow
    simp only [Narrow, not_or, not_and_or, not_lt, not_le] at hnarrow
    obtain ⟨focused, hwindow⟩ := (held_farDrag s (fun i ↦ (hclosed i).1) ⟨hnarrow.1, hwidth.2⟩
      hheight).window
    have hscreen : ∀ op ∈ farDrag width height, op.OnScreen width height := by
      simp [farDrag, Op.OnScreen]
      omega
    obtain ⟨hright, hbottom, -⟩ := (h _ hscreen).onScreen 3 (by rw [hwindow])
    rw [hwindow] at hright hbottom
    unfold keepOn toInt Int.bmod at hright hbottom
    dsimp only at hright hbottom
    omega
  · intro hnarrow ops hops
    have hinit : (guiWindowManagerInit s width height).Good width height none :=
      ⟨hnarrow, ⟨hwidth.1, rfl⟩, ⟨hheight.1, rfl⟩,
        fun i hi ↦ absurd hi (by simp [guiWindowManagerInit, hclosed]),
        fun i hi ↦ absurd hi (by simp [guiWindowManagerInit, hclosed]),
        fun i hi ↦ absurd hi (by simp [guiWindowManagerInit, hclosed]), fun hne ↦ absurd rfl hne⟩
    have h : (ops.foldl step (guiWindowManagerInit s width height, none)).1.Good width height
        (ops.foldl step (guiWindowManagerInit s width height, none)).2 :=
      List.foldlRecOn (motive := fun r : Manager × Option ℕ ↦ r.1.Good width height r.2) ops step
        hinit fun r hr op hop ↦ step_good hr (hops op hop)
    exact h.stays

def closedManager : Manager := ⟨fun _ ↦ ⟨0, 0, 0, 0, 0, false, false⟩, 0, 0, 0, 0, 0, 0⟩

/-- A window is opened and dragged. -/
def smallDrag : List Op := [.open 3 480 360, .pointer 100 70 1 1, .pointer 200 100 1 0]

theorem windows_stay_on_screen_small :
    (((smallDrag.foldl step (guiWindowManagerInit closedManager 640 480, none)).1.windows 3).x,
      ((smallDrag.foldl step (guiWindowManagerInit closedManager 640 480, none)).1.windows 3).y) =
        (160, 90) ∧
      Stays 640 480 (smallDrag.foldl step (guiWindowManagerInit closedManager 640 480, none)) :=
  ⟨by decide +kernel, (windows_stay_on_screen closedManager 640 480 (by decide) (by decide)
    fun _ ↦ ⟨rfl, rfl⟩).2 (.inr (by decide)) smallDrag (by
      simp [smallDrag, Op.OnScreen])⟩

/-- On the widest screen a window that is held at `(100, 50)` leaves the screen. -/
theorem windows_leave_screen :
    let r := [Op.open 3 2147483647 400, .pointer 100 50 1 1, .pointer 2147483646 50 1 0].foldl step
      (guiWindowManagerInit closedManager 2147483647 480, none)
    (r.1.windows 3).visible = true ∧ (r.1.windows 3).x = 2147483558 ∧
      (r.1.windows 3).width = 2147483623 ∧ ¬ (r.1.windows 3).OnScreen 2147483647 480 := by
  unfold Window.OnScreen
  decide +kernel

end Runs

end NexusOS.Gui
