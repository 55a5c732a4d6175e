import Mathlib

namespace NexusOS.Lib

section Even

variable {x y : ℚ} {z : ℤ}

def roundEven (x : ℚ) : ℤ :=
  if x - ⌊x⌋ < 1 / 2 then ⌊x⌋
  else if 1 / 2 < x - ⌊x⌋ then ⌊x⌋ + 1
  else if Even ⌊x⌋ then ⌊x⌋ else ⌊x⌋ + 1

theorem floor_le_roundEven (x : ℚ) : ⌊x⌋ ≤ roundEven x := by
  unfold roundEven
  split_ifs <;> omega

theorem roundEven_le_floor (x : ℚ) : roundEven x ≤ ⌊x⌋ + 1 := by
  unfold roundEven
  split_ifs <;> omega

theorem le_roundEven (h : (z : ℚ) ≤ x) : z ≤ roundEven x :=
  (Int.le_floor.2 h).trans (floor_le_roundEven x)

theorem roundEven_le (h : x ≤ z) : roundEven x ≤ z := by
  rcases h.lt_or_eq with hlt | rfl
  · exact (roundEven_le_floor x).trans (Int.floor_lt.2 hlt)
  · rw [roundEven, Int.floor_intCast, sub_self, if_pos (by norm_num)]

theorem abs_sub_roundEven (x : ℚ) : |x - roundEven x| ≤ 1 / 2 := by
  have hfloor := Int.floor_le x
  have hlt := Int.lt_floor_add_one x
  unfold roundEven
  rw [abs_le]
  split_ifs with hlow hhigh heven
  · constructor <;> linarith
  · push_cast
    constructor <;> linarith
  · constructor <;> linarith
  push_cast
  constructor <;> linarith

theorem abs_sub_roundEven_le (x : ℚ) (z : ℤ) : |x - roundEven x| ≤ |x - z| := by
  by_cases hz : z = roundEven x
  · rw [hz]
  have hone : (1 : ℚ) ≤ |(z : ℚ) - roundEven x| := by
    rw [← Int.cast_sub, ← Int.cast_abs]
    exact_mod_cast Int.one_le_abs (sub_ne_zero.2 hz)
  have hhalf := abs_sub_roundEven x
  have htri := abs_sub_le (z : ℚ) x (roundEven x)
  rw [abs_sub_comm (z : ℚ) x] at htri
  linarith

theorem roundEven_mono (h : x ≤ y) : roundEven x ≤ roundEven y := by
  rcases (Int.floor_mono h).lt_or_eq with hlt | heq
  · exact (roundEven_le_floor x).trans (hlt.trans_le (floor_le_roundEven y))
  unfold roundEven
  rw [heq]
  split_ifs <;> first | omega | linarith

end Even

section Precision

variable {p : ℕ} {x y : ℚ} {z k : ℤ}

/-- The exponent of the last of `p` significant bits. -/
def lastBit (p : ℕ) (x : ℚ) : ℤ := Int.log 2 x + 1 - p

/-- A magnitude with `p` significant bits, the nearest one and the even one where two are. -/
def roundMagnitude (p : ℕ) (x : ℚ) : ℚ := roundEven (x / 2 ^ lastBit p x) * 2 ^ lastBit p x

/-- A number with `p` significant bits; the exponent has no bound. -/
def roundBits (p : ℕ) (x : ℚ) : ℚ := if x < 0 then -roundMagnitude p (-x) else roundMagnitude p x

theorem two_zpow_pos (k : ℤ) : (0 : ℚ) < 2 ^ k := zpow_pos (by norm_num) k

theorem two_zpow_split (j k : ℤ) : (2 : ℚ) ^ (j + k) = 2 ^ j * 2 ^ k :=
  zpow_add₀ (by norm_num) j k

theorem multiple_of_le {j : ℤ} (z : ℤ) (h : j ≤ k) : ∃ w : ℤ, (z : ℚ) * 2 ^ k = w * 2 ^ j := by
  obtain ⟨n, rfl⟩ := Int.le.dest h
  refine ⟨z * 2 ^ n, ?_⟩
  rw [two_zpow_split, zpow_natCast]
  push_cast
  ring

theorem roundMagnitude_le (hx : x ≤ z * 2 ^ k) (hk : lastBit p x ≤ k) :
    roundMagnitude p x ≤ z * 2 ^ k := by
  obtain ⟨w, hw⟩ := multiple_of_le z hk
  rw [hw] at hx ⊢
  have hpos := two_zpow_pos (lastBit p x)
  rw [roundMagnitude, mul_le_mul_iff_left₀ hpos]
  exact_mod_cast roundEven_le ((div_le_iff₀ hpos).2 hx)

theorem le_roundMagnitude (hx : z * 2 ^ k ≤ x) (hk : lastBit p x ≤ k) :
    z * 2 ^ k ≤ roundMagnitude p x := by
  obtain ⟨w, hw⟩ := multiple_of_le z hk
  rw [hw] at hx ⊢
  have hpos := two_zpow_pos (lastBit p x)
  rw [roundMagnitude, mul_le_mul_iff_left₀ hpos]
  exact_mod_cast le_roundEven ((le_div_iff₀ hpos).2 hx)

theorem roundMagnitude_eq (hx : x = z * 2 ^ k) (hk : lastBit p x ≤ k) : roundMagnitude p x = x :=
  le_antisymm ((roundMagnitude_le hx.le hk).trans hx.ge) (hx.le.trans (le_roundMagnitude hx.ge hk))

theorem two_zpow_log_le (hx : 0 < x) : (2 : ℚ) ^ Int.log 2 x ≤ x := by
  exact_mod_cast Int.zpow_log_le_self (b := 2) (by norm_num) hx

theorem lt_two_zpow_log (x : ℚ) : x < 2 ^ (Int.log 2 x + 1) := by
  exact_mod_cast Int.lt_zpow_succ_log_self (b := 2) (by norm_num) x

theorem lastBit_le_of_lt (hx : 0 < x) (h : x < 2 ^ (k + p)) : lastBit p x ≤ k := by
  have hlog : (2 : ℚ) ^ Int.log 2 x < 2 ^ (k + p) := (two_zpow_log_le hx).trans_lt h
  have hlt := (zpow_lt_zpow_iff_right₀ (by norm_num)).1 hlog
  unfold lastBit
  omega

theorem abs_sub_roundMagnitude_le (x : ℚ) (z : ℤ) (hk : lastBit p x ≤ k) :
    |x - roundMagnitude p x| ≤ |x - z * 2 ^ k| := by
  obtain ⟨w, hw⟩ := multiple_of_le z hk
  have hpos := two_zpow_pos (lastBit p x)
  have hscale : ∀ w : ℤ, |x - w * 2 ^ lastBit p x| =
      |x / 2 ^ lastBit p x - w| * 2 ^ lastBit p x := by
    intro w
    rw [← abs_of_pos hpos, ← abs_mul, abs_of_pos hpos, sub_mul, div_mul_cancel₀ _ hpos.ne']
  rw [hw, roundMagnitude, hscale, hscale]
  exact mul_le_mul_of_nonneg_right (abs_sub_roundEven_le _ w) hpos.le

section Normal

variable (hp : 1 ≤ p) (hx : 0 < x)
include hp hx

theorem two_zpow_le_roundMagnitude : (2 : ℚ) ^ Int.log 2 x ≤ roundMagnitude p x := by
  have hle : ((1 : ℤ) : ℚ) * 2 ^ Int.log 2 x ≤ x := by
    rw [Int.cast_one, one_mul]
    exact two_zpow_log_le hx
  have hround := le_roundMagnitude (p := p) hle (by unfold lastBit; omega)
  rwa [Int.cast_one, one_mul] at hround

omit hx in
theorem roundMagnitude_le_two_zpow (h : x ≤ 2 ^ k) (hk : Int.log 2 x ≤ k) :
    roundMagnitude p x ≤ 2 ^ k := by
  have hle : x ≤ ((1 : ℤ) : ℚ) * 2 ^ k := by rwa [Int.cast_one, one_mul]
  have hround := roundMagnitude_le (p := p) hle (by unfold lastBit; omega)
  rwa [Int.cast_one, one_mul] at hround

theorem roundMagnitude_pos : 0 < roundMagnitude p x :=
  (two_zpow_pos _).trans_le (two_zpow_le_roundMagnitude hp hx)

theorem roundMagnitude_le_two_mul : roundMagnitude p x ≤ 2 * x := by
  have hle := roundMagnitude_le_two_zpow hp (lt_two_zpow_log x).le (Int.le_add_one le_rfl)
  have hlog := two_zpow_log_le hx
  rw [two_zpow_split, zpow_one] at hle
  linarith

theorem le_two_mul_roundMagnitude : x ≤ 2 * roundMagnitude p x := by
  have hle := two_zpow_le_roundMagnitude hp hx
  have hlog := lt_two_zpow_log x
  rw [two_zpow_split, zpow_one] at hlog
  linarith

omit hx in
theorem roundMagnitude_le_of_log_lt (h : Int.log 2 y < Int.log 2 x) :
    roundMagnitude p y ≤ 2 ^ Int.log 2 x := by
  refine roundMagnitude_le_two_zpow hp ((lt_two_zpow_log y).le.trans ?_) h.le
  exact zpow_le_zpow_right₀ (by norm_num) h

theorem roundMagnitude_nearest (y : ℚ) :
    |x - roundMagnitude p x| ≤ |x - roundMagnitude p y| := by
  rcases le_or_gt (Int.log 2 x) (Int.log 2 y) with hle | hlt
  · exact abs_sub_roundMagnitude_le x _ (by unfold lastBit; omega)
  have hstart := roundMagnitude_le_of_log_lt hp hlt
  have hlog := two_zpow_log_le hx
  have hnear := abs_sub_roundMagnitude_le (p := p) (k := Int.log 2 x) x 1 (by unfold lastBit; omega)
  rw [Int.cast_one, one_mul, abs_of_nonneg (sub_nonneg.2 hlog)] at hnear
  rw [abs_of_nonneg (sub_nonneg.2 (hstart.trans hlog)) (a := x - roundMagnitude p y)]
  linarith

theorem add_le_two_mul (h : roundMagnitude p y < roundMagnitude p x) :
    roundMagnitude p x + roundMagnitude p y ≤ 2 * x := by
  have hsq := sq_le_sq.2 (roundMagnitude_nearest hp hx y)
  by_contra! hlt
  nlinarith [mul_pos (sub_pos.2 h) (sub_pos.2 hlt)]

theorem two_mul_le_add (h : roundMagnitude p x < roundMagnitude p y) :
    2 * x ≤ roundMagnitude p x + roundMagnitude p y := by
  have hsq := sq_le_sq.2 (roundMagnitude_nearest hp hx y)
  by_contra! hlt
  nlinarith [mul_pos (sub_pos.2 h) (sub_pos.2 hlt)]

theorem roundMagnitude_mono (h : x ≤ y) : roundMagnitude p x ≤ roundMagnitude p y := by
  have hy : 0 < y := hx.trans_le h
  rcases (Int.log_mono_right (b := 2) hx h).lt_or_eq with hlt | heq
  · exact (roundMagnitude_le_of_log_lt hp hlt).trans (two_zpow_le_roundMagnitude hp hy)
  have hbit : lastBit p x = lastBit p y := by
    rw [lastBit, lastBit, heq]
  have hpos := two_zpow_pos (lastBit p y)
  rw [roundMagnitude, roundMagnitude, hbit, mul_le_mul_iff_left₀ hpos]
  exact_mod_cast roundEven_mono (div_le_div_of_nonneg_right h hpos.le)

omit hx in
theorem roundMagnitude_spacing (hy : 0 < y) (h : roundMagnitude p x < roundMagnitude p y) :
    roundMagnitude p y ≤ 2 ^ (p + 1) * (roundMagnitude p y - roundMagnitude p x) := by
  set m := Int.log 2 y with hm
  have hlow := two_zpow_le_roundMagnitude hp hy
  have hhigh := roundMagnitude_le_two_zpow hp (lt_two_zpow_log y).le (Int.le_add_one le_rfl)
  rw [← hm] at hlow hhigh
  have hgap : (2 : ℚ) ^ (m - p) ≤ roundMagnitude p y - roundMagnitude p x := by
    by_contra! hclose
    have hhalf : (2 : ℚ) ^ (m - p) ≤ 2 ^ (m - 1) := zpow_le_zpow_right₀ (by norm_num) (by omega)
    have hsplit : (2 : ℚ) ^ m = 2 * 2 ^ (m - 1) := by
      rw [← zpow_one_add₀ (by norm_num)]
      congr 1
      omega
    have hlog : m - 1 ≤ Int.log 2 x := by
      by_contra! hlt
      have hle : roundMagnitude p x ≤ 2 ^ (m - 1) :=
        roundMagnitude_le_two_zpow hp ((lt_two_zpow_log x).le.trans
          (zpow_le_zpow_right₀ (by norm_num) hlt)) hlt.le
      linarith
    obtain ⟨w, hw⟩ := multiple_of_le (k := lastBit p x) (j := m - p)
      (roundEven (x / 2 ^ lastBit p x)) (by unfold lastBit; omega)
    obtain ⟨v, hv⟩ := multiple_of_le (k := lastBit p y) (j := m - p)
      (roundEven (y / 2 ^ lastBit p y)) (by unfold lastBit; omega)
    have hpos := two_zpow_pos (m - p)
    rw [roundMagnitude, roundMagnitude, hw, hv] at h hclose
    have hlt : w < v := by exact_mod_cast (mul_lt_mul_iff_left₀ hpos).1 h
    have hone : (w : ℚ) + 1 ≤ v := by exact_mod_cast hlt
    nlinarith
  calc roundMagnitude p y ≤ 2 ^ (m + 1) := hhigh
    _ = 2 ^ (p + 1) * 2 ^ (m - p) := by
      rw [← zpow_natCast, ← two_zpow_split]
      congr 1
      push_cast
      ring
    _ ≤ _ := mul_le_mul_of_nonneg_left hgap (by positivity)

end Normal

section Signed

theorem roundBits_of_pos (hx : 0 < x) : roundBits p x = roundMagnitude p x :=
  if_neg hx.le.not_gt

theorem roundBits_zero : roundBits p 0 = 0 := by
  rw [roundBits, if_neg (lt_irrefl 0), roundMagnitude, zero_div]
  have hzero : roundEven 0 = 0 := by
    rw [roundEven, Int.floor_zero, if_pos (by norm_num)]
  rw [hzero, Int.cast_zero, zero_mul]

theorem roundBits_pos (hp : 1 ≤ p) (hx : 0 < x) : 0 < roundBits p x := by
  rw [roundBits_of_pos hx]
  exact roundMagnitude_pos hp hx

theorem roundBits_nonpos (hp : 1 ≤ p) (hx : x ≤ 0) : roundBits p x ≤ 0 := by
  rcases hx.lt_or_eq with hneg | rfl
  · rw [roundBits, if_pos hneg]
    exact neg_nonpos.2 (roundMagnitude_pos hp (neg_pos.2 hneg)).le
  · exact roundBits_zero.le

theorem roundBits_mono (hp : 1 ≤ p) (h : x ≤ y) : roundBits p x ≤ roundBits p y := by
  rcases lt_or_ge 0 x with hx | hx
  · rw [roundBits_of_pos hx, roundBits_of_pos (hx.trans_le h)]
    exact roundMagnitude_mono hp hx h
  rcases lt_or_ge 0 y with hy | hy
  · exact (roundBits_nonpos hp hx).trans (roundBits_pos hp hy).le
  rcases hy.lt_or_eq with hneg | rfl
  · rw [roundBits, roundBits, if_pos hneg, if_pos (h.trans_lt hneg)]
    exact neg_le_neg (roundMagnitude_mono hp (neg_pos.2 hneg) (neg_le_neg h))
  rw [roundBits_zero]
  exact roundBits_nonpos hp hx

theorem roundMagnitude_of_bits (hx : 0 < x) (heq : x = z * 2 ^ k) (hz : z < 2 ^ p) :
    roundMagnitude p x = x := by
  refine roundMagnitude_eq heq (lastBit_le_of_lt hx ?_)
  have hlt : (z : ℚ) < 2 ^ p := by exact_mod_cast hz
  rw [heq, two_zpow_split, zpow_natCast, mul_comm]
  exact mul_lt_mul_of_pos_left hlt (two_zpow_pos k)

theorem roundBits_of_bits (heq : x = z * 2 ^ k) (hz : |z| < 2 ^ p) : roundBits p x = x := by
  obtain ⟨hlow, hhigh⟩ := abs_lt.1 hz
  rcases lt_trichotomy x 0 with hneg | rfl | hpos
  · have hneg' : -x = (-z : ℤ) * 2 ^ k := by
      rw [heq]
      push_cast
      ring
    rw [roundBits, if_pos hneg, roundMagnitude_of_bits (neg_pos.2 hneg) hneg' (by omega), neg_neg]
  · exact roundBits_zero
  · rw [roundBits_of_pos hpos, roundMagnitude_of_bits hpos heq hhigh]

theorem roundBits_ceil (hp : 1 ≤ p) (hx : 0 < x) :
    roundBits p ⌈roundBits p x⌉ = ⌈roundBits p x⌉ := by
  have htop : roundMagnitude p x ≤ 2 ^ (lastBit p x + p) := by
    have hle := roundMagnitude_le_two_zpow hp (lt_two_zpow_log x).le (Int.le_add_one le_rfl)
    rwa [lastBit, sub_add_cancel]
  have hpos := roundMagnitude_pos hp hx
  rw [roundBits_of_pos hx]
  rcases le_or_gt 0 (lastBit p x) with hint | hfrac
  · -- the last bit stands for an integer, so the result is one
    obtain ⟨w, hw⟩ := multiple_of_le (roundEven (x / 2 ^ lastBit p x)) hint
    rw [zpow_zero, mul_one] at hw
    have hceil : (⌈roundMagnitude p x⌉ : ℚ) = roundMagnitude p x := by
      rw [roundMagnitude, hw, Int.ceil_intCast]
    rw [hceil]
    have hle : roundEven (x / 2 ^ lastBit p x) ≤ 2 ^ p := by
      rw [roundMagnitude, two_zpow_split, mul_comm, zpow_natCast] at htop
      exact_mod_cast (mul_le_mul_iff_right₀ (two_zpow_pos _)).1 htop
    have hnonneg : 0 < roundEven (x / 2 ^ lastBit p x) := by
      rw [roundMagnitude] at hpos
      exact_mod_cast pos_of_mul_pos_left hpos (two_zpow_pos _).le
    rcases hle.lt_or_eq with hlt | heq
    · exact roundBits_of_bits rfl (by rwa [abs_of_pos hnonneg])
    refine roundBits_of_bits (z := 1) (k := lastBit p x + p) ?_ ?_
    · rw [roundMagnitude, heq, two_zpow_split, zpow_natCast]
      push_cast
      ring
    · exact one_lt_pow₀ one_lt_two (by omega)
  · -- the result is below `2 ^ p`, and so is the integer above it
    have hsmall : roundMagnitude p x ≤ ((2 ^ (p - 1) : ℤ) : ℚ) := by
      refine htop.trans ?_
      push_cast
      rw [← zpow_natCast]
      exact zpow_le_zpow_right₀ (by norm_num) (by omega)
    have hle := Int.ceil_le.2 hsmall
    have hhalf : (2 : ℤ) ^ (p - 1) < 2 ^ p := pow_lt_pow_right₀ one_lt_two (by omega)
    refine roundBits_of_bits (z := ⌈roundMagnitude p x⌉) (k := 0) (by rw [zpow_zero, mul_one]) ?_
    rw [abs_of_pos (Int.ceil_pos.2 hpos)]
    omega

end Signed

end Precision

end NexusOS.Lib
