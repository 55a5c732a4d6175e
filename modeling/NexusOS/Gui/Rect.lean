import NexusOS.Lib.Paint

namespace NexusOS.Gui

open Lib

section Source

structure Screen where
  width : ℕ
  height : ℕ
  bgr : Bool

abbrev Picture := ℤ × ℤ → UInt32

def pack (fb : Screen) (rgb : UInt32) : UInt32 :=
  let r := rgb >>> 16 &&& 0xFF
  let g := rgb >>> 8 &&& 0xFF
  let b := rgb &&& 0xFF
  if fb.bgr then b ||| g <<< 8 ||| r <<< 16 else r ||| g <<< 8 ||| b <<< 16

def blendWord (old src : UInt32) (alpha : UInt8) : UInt32 :=
  let ia := 255 - alpha.toUInt32
  let rb := ((old &&& 0x00FF00FF) * ia + (src &&& 0x00FF00FF) * alpha.toUInt32) >>> 8 &&& 0x00FF00FF
  let g := ((old &&& 0x0000FF00) * ia + (src &&& 0x0000FF00) * alpha.toUInt32) >>> 8 &&& 0x0000FF00
  rb ||| g

def toUnsigned (n : ℤ) : ℤ := n % 2 ^ 32

def store (f : UInt32 → UInt32) (p : ℤ × ℤ) (pic : Picture) : Picture :=
  Function.update pic p (f (pic p))

def onePixel (fb : Screen) (f : UInt32 → UInt32) (x y : ℤ) (pic : Picture) : Picture :=
  if x < 0 ∨ y < 0 ∨ toUnsigned x ≥ fb.width ∨ toUnsigned y ≥ fb.height then pic
  else store f (x, y) pic

def px (fb : Screen) (x y : ℤ) (c : UInt32) (pic : Picture) : Picture :=
  onePixel fb (fun _ ↦ pack fb c) x y pic

def blendPx (fb : Screen) (x y : ℤ) (c : UInt32) (alpha : UInt8) (pic : Picture) : Picture :=
  onePixel fb (blendWord · (pack fb c) alpha) x y pic

/-- One turn of the loop of `rect` and `rect_alpha`. -/
def fillRow (fb : Screen) (f : UInt32 → UInt32) (x w yy : ℤ) (pic : Picture) : Picture :=
  if yy < 0 ∨ toUnsigned yy ≥ fb.height then pic
  else
    let x0 := if x < 0 then 0 else x
    let x1 := if toUnsigned (x + w) > fb.width then (fb.width : ℤ) else x + w
    if x0 ≥ x1 then pic
    else (List.range (x1 - x0).toNat).foldl (fun pic (i : ℕ) ↦ store f (x0 + i, yy) pic) pic

def fillRows (fb : Screen) (f : UInt32 → UInt32) (x y w h : ℤ) (pic : Picture) : Picture :=
  if w ≤ 0 ∨ h ≤ 0 then pic
  else (List.range h.toNat).foldl (fun pic (j : ℕ) ↦ fillRow fb f x w (y + j) pic) pic

def rect (fb : Screen) (x y w h : ℤ) (c : UInt32) (pic : Picture) : Picture :=
  fillRows fb (fun _ ↦ pack fb c) x y w h pic

def rectAlpha (fb : Screen) (x y w h : ℤ) (c : UInt32) (alpha : UInt8) (pic : Picture) :
    Picture :=
  if w ≤ 0 ∨ h ≤ 0 then pic
  else if alpha = 255 then rect fb x y w h c pic
  else fillRows fb (blendWord · (pack fb c) alpha) x y w h pic

/-- The loop of `gui_renderer_rect` and `gui_renderer_rect_alpha` around the drawing of a pixel. -/
def pixelLoop (draw : ℤ → ℤ → Picture → Picture) (x y w h : ℤ) (pic : Picture) : Picture :=
  (List.range h.toNat).foldl (fun pic (j : ℕ) ↦
    (List.range w.toNat).foldl (fun pic (i : ℕ) ↦ draw (x + i) (y + j) pic) pic) pic

end Source

section Regions

def OnScreen (fb : Screen) (x y w h : ℤ) (p : ℤ × ℤ) : Prop :=
  (x ≤ p.1 ∧ p.1 < x + w ∧ y ≤ p.2 ∧ p.2 < y + h) ∧
    0 ≤ p.1 ∧ p.1 < fb.width ∧ 0 ≤ p.2 ∧ p.2 < fb.height

def Filled (fb : Screen) (x y w h : ℤ) (p : ℤ × ℤ) : Prop :=
  (0 < w ∧ y ≤ p.2 ∧ p.2 < y + h) ∧ (0 ≤ p.2 ∧ p.2 < fb.height) ∧
    max x 0 ≤ p.1 ∧ p.1 < if x + w < 0 ∨ fb.width < x + w then (fb.width : ℤ) else x + w

variable {fb : Screen} {f : UInt32 → UInt32} {x y w h : ℤ}

structure Small (fb : Screen) (x y w h : ℤ) : Prop where
  width : fb.width ≤ 2 ^ 15
  height : fb.height ≤ 2 ^ 15
  x : |x| < 2 ^ 15
  y : |y| < 2 ^ 15
  w : |w| < 2 ^ 15
  h : |h| < 2 ^ 15

theorem toUnsigned_of_nonneg {n : ℤ} (h : 0 ≤ n) (hn : n < 2 ^ 32) : toUnsigned n = n :=
  Int.emod_eq_of_lt h hn

theorem onePixel_paints (hx : |x| < 2 ^ 17) (hy : |y| < 2 ^ 17) :
    Paints f (fun p ↦ p = (x, y) ∧ 0 ≤ x ∧ x < fb.width ∧ 0 ≤ y ∧ y < fb.height)
      (onePixel fb f x y) := by
  rw [abs_lt] at hx hy
  unfold onePixel
  by_cases hout : x < 0 ∨ y < 0
  · simp only [← or_assoc, hout, true_or, if_true]
    exact .nothing fun p hp ↦ by omega
  rw [not_or, not_lt, not_lt] at hout
  rw [toUnsigned_of_nonneg hout.1 (by omega), toUnsigned_of_nonneg hout.2 (by omega)]
  by_cases hedge : x < fb.width ∧ y < fb.height
  · simp only [if_neg (show ¬ (x < 0 ∨ y < 0 ∨ x ≥ fb.width ∨ y ≥ fb.height) by omega)]
    exact (Paints.point (x, y)).congr fun p ↦ ⟨fun hp ↦ ⟨hp, by omega⟩, And.left⟩
  simp only [if_pos (show x < 0 ∨ y < 0 ∨ x ≥ fb.width ∨ y ≥ fb.height by omega)]
  exact .nothing fun p hp ↦ by omega

theorem pixelLoop_paints (hs : Small fb x y w h) :
    Paints f (OnScreen fb x y w h) (pixelLoop (onePixel fb f) x y w h) := by
  obtain ⟨-, -, hx, hy, hw, hh⟩ := hs
  rw [abs_lt] at hx hy hw hh
  have hrow : ∀ j : ℕ, j < h.toNat → Paints f (fun p ↦ ∃ i < w.toNat, p = (x + i, y + j) ∧
      0 ≤ x + i ∧ x + i < fb.width ∧ 0 ≤ y + j ∧ y + j < fb.height) fun pic ↦
        (List.range w.toNat).foldl (fun pic (i : ℕ) ↦ onePixel fb f (x + i) (y + j) pic) pic := by
    intro j hj
    refine Paints.foldl (fun i hi ↦ onePixel_paints ?_ ?_) fun m n p hm hn ↦ ?_
    · rw [abs_lt]
      omega
    · rw [abs_lt]
      omega
    have := congrArg Prod.fst (hm.1.symm.trans hn.1)
    omega
  refine (Paints.foldl hrow ?_).congr fun p ↦ ⟨?_, fun hp ↦ ?_⟩
  · rintro m n p ⟨i, -, hi, -⟩ ⟨j, -, hj, -⟩
    have := congrArg Prod.snd (hi.symm.trans hj)
    omega
  · rintro ⟨j, hj, i, hi, rfl, hp⟩
    unfold OnScreen
    omega
  · unfold OnScreen at hp
    refine ⟨(p.2 - y).toNat, by omega, (p.1 - x).toNat, by omega, Prod.ext ?_ ?_, ?_⟩ <;> omega

theorem fillRow_paints (hs : Small fb x y w h) {yy : ℤ} (hyy : |yy| < 2 ^ 17) :
    Paints f (fun p ↦ p.2 = yy ∧ (0 ≤ yy ∧ yy < fb.height) ∧ max x 0 ≤ p.1 ∧
      p.1 < if x + w < 0 ∨ fb.width < x + w then (fb.width : ℤ) else x + w) (fillRow fb f x w yy) := by
  obtain ⟨hwidth, -, hx, -, hw, -⟩ := hs
  rw [abs_lt] at hx hw hyy
  have hedge : (if toUnsigned (x + w) > fb.width then (fb.width : ℤ) else x + w) =
      if x + w < 0 ∨ fb.width < x + w then (fb.width : ℤ) else x + w := by
    unfold toUnsigned
    congr 1
    simp only [eq_iff_iff]
    omega
  have hleft : (if x < 0 then 0 else x) = max x 0 := by
    split_ifs <;> omega
  unfold fillRow
  simp only [hedge, hleft]
  generalize (if x + w < 0 ∨ fb.width < x + w then (fb.width : ℤ) else x + w) = x1
  by_cases hrow : 0 ≤ yy ∧ yy < fb.height
  · rw [toUnsigned_of_nonneg hrow.1 (by omega)]
    simp only [if_neg (show ¬ (yy < 0 ∨ yy ≥ fb.height) by omega)]
    by_cases hempty : max x 0 ≥ x1
    · simp only [if_pos hempty]
      exact .nothing fun p hp ↦ by omega
    simp only [if_neg hempty]
    refine (Paints.foldl (fun i _ ↦ Paints.point (max x 0 + i, yy)) ?_).congr fun p ↦ ⟨?_, fun hp ↦ ?_⟩
    · intro m n p hm hn
      have := congrArg Prod.fst (hm.symm.trans hn)
      omega
    · rintro ⟨i, hi, rfl⟩
      dsimp only
      omega
    refine ⟨(p.1 - max x 0).toNat, by omega, Prod.ext ?_ hp.1⟩
    dsimp only
    omega
  · have hout : yy < 0 ∨ toUnsigned yy ≥ fb.height := by
      unfold toUnsigned
      omega
    simp only [if_pos hout]
    exact .nothing fun p hp ↦ hrow hp.2.1

theorem fillRows_paints (hs : Small fb x y w h) :
    Paints f (Filled fb x y w h) (fillRows fb f x y w h) := by
  have hy := abs_lt.1 hs.y
  have hh := abs_lt.1 hs.h
  unfold fillRows
  by_cases hempty : w ≤ 0 ∨ h ≤ 0
  · simp only [if_pos hempty]
    refine .nothing fun p hp ↦ ?_
    unfold Filled at hp
    omega
  simp only [if_neg hempty]
  refine (Paints.foldl (fun j hj ↦ fillRow_paints hs ?_) ?_).congr fun p ↦ ⟨?_, fun hp ↦ ?_⟩
  · rw [abs_lt]
    omega
  · rintro m n p ⟨hm, -⟩ ⟨hn, -⟩
    omega
  · rintro ⟨j, hj, hp, hrow, hcols⟩
    refine ⟨⟨by omega, by omega, by omega⟩, by omega, hcols⟩
  obtain ⟨hp, hrow, hcols⟩ := hp
  exact ⟨(p.2 - y).toNat, by omega, by omega, by omega, hcols⟩

/-- A rectangle that does not end left of the screen, or of which nothing is drawn anyway. -/
def Clippable (fb : Screen) (x y w h : ℤ) : Prop :=
  0 ≤ x + w ∨ w ≤ 0 ∨ fb.width = 0 ∨ min (y + h) fb.height ≤ max y 0

theorem filled_iff_onScreen : (∀ p, Filled fb x y w h p ↔ OnScreen fb x y w h p) ↔
    Clippable fb x y w h := by
  unfold Filled OnScreen Clippable
  constructor
  · intro hall
    have hcorner := hall (0, max y 0)
    by_contra hnot
    have hleft : x + w < 0 := by omega
    rw [if_pos (.inl hleft)] at hcorner
    dsimp only at hcorner
    omega
  · intro hclip p
    split_ifs <;> omega

end Regions

section Equivalence

variable {fb : Screen} {x y w h : ℤ}

/-- The two fast functions paint the part of the rectangle that is on screen, as the loops over single
pixels do. -/
structure Exact (fb : Screen) (x y w h : ℤ) (c : UInt32) : Prop where
  fill : Paints (fun _ ↦ pack fb c) (OnScreen fb x y w h) (rect fb x y w h c)
  fill_loop : rect fb x y w h c = pixelLoop (px fb · · c) x y w h
  blend : ∀ alpha < 255, Paints (blendWord · (pack fb c) alpha) (OnScreen fb x y w h)
    (rectAlpha fb x y w h c alpha)
  blend_loop : ∀ alpha < 255, rectAlpha fb x y w h c alpha =
    pixelLoop (blendPx fb · · c alpha) x y w h

theorem rectAlpha_eq {c : UInt32} {alpha : UInt8} (halpha : alpha < 255) :
    rectAlpha fb x y w h c alpha = fillRows fb (blendWord · (pack fb c) alpha) x y w h := by
  funext pic
  unfold rectAlpha fillRows
  have hne : alpha ≠ 255 := by
    rintro rfl
    exact absurd halpha (by decide)
  by_cases hempty : w ≤ 0 ∨ h ≤ 0
  · rw [if_pos hempty, if_pos hempty]
  · rw [if_neg hempty, if_neg hempty, if_neg hne]

theorem rect_exact_iff (fb : Screen) (x y w h : ℤ) (hs : Small fb x y w h) (c : UInt32) :
    Exact fb x y w h c ↔ Clippable fb x y w h := by
  have hfill := fillRows_paints (f := fun _ ↦ pack fb c) hs
  constructor
  · intro hexact
    have hchanges : ∃ v, pack fb c ≠ v := by
      by_cases hzero : pack fb c = 0
      · exact ⟨1, hzero ▸ by decide⟩
      · exact ⟨0, hzero⟩
    exact filled_iff_onScreen.1 (hfill.unique hchanges hexact.fill)
  intro hclip
  have hsame := filled_iff_onScreen.2 hclip
  have hblend : ∀ alpha < 255, Paints (blendWord · (pack fb c) alpha) (OnScreen fb x y w h)
      (rectAlpha fb x y w h c alpha) := by
    intro alpha halpha
    rw [rectAlpha_eq halpha]
    exact (fillRows_paints hs).congr hsame
  exact ⟨hfill.congr hsame, (hfill.congr hsame).eq (pixelLoop_paints hs), hblend,
    fun alpha halpha ↦ (hblend alpha halpha).eq (pixelLoop_paints hs)⟩

theorem rect_exact_iff_small :
    Small ⟨2, 2, true⟩ 0 0 1 1 ∧
      (Exact ⟨2, 2, true⟩ 0 0 1 1 0xFFFFFF ↔ Clippable ⟨2, 2, true⟩ 0 0 1 1) :=
  have hs : Small ⟨2, 2, true⟩ 0 0 1 1 := by constructor <;> decide
  ⟨hs, rect_exact_iff _ _ _ _ _ hs _⟩

/-- A rectangle of one pixel, left of the screen: the whole row is painted. -/
theorem rect_left_of_screen : ¬ Exact ⟨2, 2, true⟩ (-2) 0 1 1 0xFFFFFF := by
  intro hexact
  have hpaint := congrFun (congrFun hexact.fill_loop fun _ ↦ 0) (0, 0)
  exact absurd hpaint (by decide)

end Equivalence

end NexusOS.Gui
