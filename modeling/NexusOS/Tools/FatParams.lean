import NexusOS.Lib.Rounding

namespace NexusOS.Tools

open Lib

section Script

inductive SizeStop
  | die (message : String)
  | overflowError
  deriving DecidableEq

def trueDiv (a b : ℤ) : Except SizeStop ℚ :=
  -- a quotient by 512 is zero or far above the subnormal numbers
  let q := roundBits 53 ((a : ℚ) / b)
  if |q| < 2 ^ 1024 then .ok q else .error .overflowError

structure FatParams where
  spc : ℤ
  reserved : ℤ
  fats : ℤ
  fatSectors : ℤ
  clusters : ℤ
  deriving DecidableEq

def spcOf (totalSectors : ℤ) : ℤ := if totalSectors ≤ 524288 then 1 else 8

def clustersOf (totalSectors fatSectors : ℤ) : ℤ :=
  (totalSectors - 32 - 2 * fatSectors) / spcOf totalSectors

def newFat (totalSectors fatSectors : ℤ) : Except SizeStop ℤ := do
  let q ← trueDiv ((clustersOf totalSectors fatSectors + 2) * 4) 512
  return ⌈q⌉

def fatLoop (totalSectors : ℤ) : ℕ → ℤ → Except SizeStop ℤ
  | 0, fatSectors => .ok fatSectors
  | n + 1, fatSectors => do
    let new ← newFat totalSectors fatSectors
    if new = fatSectors then return fatSectors else fatLoop totalSectors n new

def fatParams (totalSectors : ℤ) : Except SizeStop FatParams := do
  let fatSectors ← fatLoop totalSectors 32 1
  let clusters := clustersOf totalSectors fatSectors
  if clusters < 65525 then
    .error (.die s!"partition too small for FAT32 ({clusters} clusters)")
  else return ⟨spcOf totalSectors, 32, 2, fatSectors, clusters⟩

end Script

section Pass

variable {t f g s : ℤ} {n : ℕ} {p : FatParams}

/-- The entries that a FAT of `f` sectors has to have, in sectors. -/
def needed (t f : ℤ) : ℚ := (((clustersOf t f + 2) * 4 : ℤ) : ℚ) / 512

def pass (t f : ℤ) : ℤ := ⌈roundBits 53 (needed t f)⌉

theorem newFat_eq (h : |roundBits 53 (needed t f)| < 2 ^ 1024) : newFat t f = .ok (pass t f) := by
  have hfit : |roundBits 53 ((((clustersOf t f + 2) * 4 : ℤ) : ℚ) / (512 : ℤ))| < 2 ^ 1024 := h
  rw [newFat, trueDiv, if_pos hfit]
  rfl

theorem newFat_ok (h : newFat t f = .ok g) :
    pass t f = g ∧ |roundBits 53 (needed t f)| < 2 ^ 1024 := by
  rw [newFat, trueDiv] at h
  split_ifs at h with hfit
  · exact ⟨Except.ok.inj h, hfit⟩
  · cases h

theorem fatLoop_ok (h : fatLoop t n f = .ok g) : g = (pass t)^[n] f := by
  induction n generalizing f with
  | zero => exact (Except.ok.inj h).symm
  | succ n ih =>
    rw [fatLoop] at h
    cases hnew : newFat t f with
    | error e =>
      rw [hnew] at h
      cases h
    | ok new =>
      rw [hnew] at h
      change (if new = f then .ok f else fatLoop t n new) = .ok g at h
      obtain ⟨hpass, -⟩ := newFat_ok hnew
      rw [Function.iterate_succ_apply, hpass]
      split_ifs at h with hsame
      · subst hsame
        rw [← Except.ok.inj h, Function.iterate_fixed hpass]
      · exact ih h

theorem fatLoop_first (h : fatLoop t (n + 1) f = .ok g) :
    |roundBits 53 (needed t f)| < 2 ^ 1024 := by
  rw [fatLoop] at h
  cases hnew : newFat t f with
  | error e =>
    rw [hnew] at h
    cases h
  | ok new => exact (newFat_ok hnew).2

theorem fatParams_ok (h : fatParams t = .ok p) :
    p = ⟨spcOf t, 32, 2, (pass t)^[32] 1, clustersOf t ((pass t)^[32] 1)⟩ ∧
      65525 ≤ clustersOf t ((pass t)^[32] 1) ∧ |roundBits 53 (needed t 1)| < 2 ^ 1024 := by
  rw [fatParams] at h
  cases hloop : fatLoop t 32 1 with
  | error e =>
    rw [hloop] at h
    cases h
  | ok g =>
    rw [hloop] at h
    change (if clustersOf t g < 65525 then Except.error _ else Except.ok _) = Except.ok p at h
    rw [← fatLoop_ok hloop]
    split_ifs at h with hsmall
    · exact ⟨(Except.ok.inj h).symm, not_lt.1 hsmall, fatLoop_first hloop⟩

theorem spcOf_pos (t : ℤ) : 0 < spcOf t := by
  unfold spcOf
  split_ifs <;> norm_num

theorem clustersOf_antitone (h : f ≤ g) : clustersOf t g ≤ clustersOf t f :=
  Int.ediv_le_ediv (spcOf_pos t) (by omega)

theorem clustersOf_sub_le (h : f ≤ g) : clustersOf t f - clustersOf t g ≤ 2 * (g - f) := by
  unfold clustersOf spcOf
  split_ifs <;> omega

theorem needed_eq (t f : ℤ) : needed t f = (clustersOf t f + 2 : ℤ) / 128 := by
  rw [needed]
  push_cast
  ring

theorem needed_antitone (h : f ≤ g) : needed t g ≤ needed t f := by
  have hle : ((clustersOf t g + 2) * 4 : ℤ) ≤ (clustersOf t f + 2) * 4 := by
    have := clustersOf_antitone (t := t) h
    omega
  unfold needed
  gcongr

theorem pass_antitone (t : ℤ) : Antitone (pass t) := fun _ _ h ↦
  Int.ceil_mono (roundBits_mono (by norm_num) (needed_antitone h))

theorem needed_pos (h : 0 < clustersOf t f + 2) : 0 < needed t f := by
  rw [needed_eq]
  have : (0 : ℚ) < (clustersOf t f + 2 : ℤ) := by exact_mod_cast h
  positivity

theorem pass_pos (h : 0 < clustersOf t f + 2) : 1 ≤ pass t f :=
  Int.ceil_pos.2 (roundBits_pos (by norm_num) (needed_pos h))

theorem pass_nonpos (h : clustersOf t f + 2 ≤ 0) : pass t f ≤ 0 := by
  refine Int.ceil_le.2 ?_
  rw [Int.cast_zero]
  refine roundBits_nonpos (by norm_num) ?_
  rw [needed_eq]
  have : ((clustersOf t f + 2 : ℤ) : ℚ) ≤ 0 := by exact_mod_cast h
  exact div_nonpos_of_nonpos_of_nonneg this (by norm_num)

theorem pass_le (h : 0 < clustersOf t f + 2) : 64 * (pass t f - 1) ≤ clustersOf t f + 2 := by
  have hpos := needed_pos h
  have hround : roundBits 53 (needed t f) ≤ 2 * needed t f := by
    rw [roundBits_of_pos hpos]
    exact roundMagnitude_le_two_mul (by norm_num) hpos
  have hceil := Int.ceil_lt_add_one (roundBits 53 (needed t f))
  have hq : (64 : ℚ) * (pass t f - 1) ≤ (clustersOf t f + 2 : ℤ) := by
    have hneeded := needed_eq t f
    rw [pass]
    linarith
  exact_mod_cast hq

end Pass

section Settled

variable {t f : ℤ} {p : FatParams}

/-- The FATs have an entry for every cluster and the volume is not longer than its partition. -/
def LargeEnough (t : ℤ) (p : FatParams) : Prop :=
  (p.clusters + 2) * 4 ≤ p.fatSectors * 512 ∧
    p.reserved + p.fats * p.fatSectors + p.clusters * p.spc ≤ t

/-- There is a size of the FAT that a pass of the loop leaves and that has all entries. -/
def Settles (t : ℤ) : Prop := ∃ f, newFat t f = .ok f ∧ (clustersOf t f + 2) * 4 ≤ f * 512

theorem iterate_even_mono (t : ℤ) (n : ℕ) : Monotone ((pass t)^[2 * n]) := by
  rw [Function.iterate_mul]
  exact ((pass_antitone t).comp (pass_antitone t)).iterate n

theorem iterate_le_pass (h : 1 ≤ pass t 1) (n : ℕ) :
    (pass t)^[2 * n] 1 ≤ pass t ((pass t)^[2 * n] 1) := by
  have hle := iterate_even_mono t n h
  rwa [← Function.iterate_succ_apply, Function.iterate_succ_apply'] at hle

theorem pass_le_iterate (h : pass t 1 ≤ 1) (n : ℕ) :
    pass t ((pass t)^[2 * n] 1) ≤ (pass t)^[2 * n] 1 := by
  have hle := iterate_even_mono t n h
  rwa [← Function.iterate_succ_apply, Function.iterate_succ_apply'] at hle

theorem clusters_pos (h : 65525 ≤ clustersOf t ((pass t)^[32] 1)) : 0 < clustersOf t 1 + 2 := by
  by_contra! hnone
  have hle : pass t ((pass t)^[32] 1) ≤ (pass t)^[32] 1 :=
    pass_le_iterate ((pass_nonpos hnone).trans (by norm_num)) 16
  have hpos : 1 ≤ (pass t)^[32] 1 := (pass_pos (by omega)).trans hle
  have hfewer := clustersOf_antitone (t := t) hpos
  omega

section

variable (h : 0 < clustersOf t 1 + 2)
include h

theorem clusters_pass_one : 31 * (clustersOf t 1 + 2) ≤ 32 * (clustersOf t (pass t 1) + 2) := by
  have hle := pass_le h
  have hsub := clustersOf_sub_le (t := t) (pass_pos h)
  omega

theorem needed_pos_of_le (hf : f ≤ pass t 1) : 0 < needed t f := by
  refine needed_pos ?_
  have hfirst := clusters_pass_one h
  have hmore := clustersOf_antitone (t := t) hf
  omega

theorem fixed_mem (hfix : pass t f = f) : 1 ≤ f ∧ f ≤ pass t 1 := by
  have hone : 1 ≤ f := by
    by_contra! hlt
    have hmore := clustersOf_antitone (t := t) hlt.le
    have hpos := pass_pos (t := t) (f := f) (by omega)
    omega
  refine ⟨hone, ?_⟩
  rw [← hfix]
  exact pass_antitone t hone

end

end Settled

section Contraction

variable {t f a b : ℤ} (hfix : pass t f = f) (hlow : pass t b < f) (hhigh : f < pass t a)
include hfix hlow hhigh

theorem rounded_apart : roundBits 53 (needed t b) ≤ f - 1 ∧
    roundBits 53 (needed t b) < roundBits 53 (needed t f) ∧
      roundBits 53 (needed t f) < roundBits 53 (needed t a) ∧ f < roundBits 53 (needed t a) := by
  have hbelow : roundBits 53 (needed t b) ≤ f - 1 := by
    have hceil : pass t b ≤ f - 1 := by omega
    exact_mod_cast Int.ceil_le.1 hceil
  have habove : (f : ℚ) < roundBits 53 (needed t a) := Int.lt_ceil.1 hhigh
  have hmiddle := Int.ceil_eq_iff.1 hfix
  exact ⟨hbelow, hbelow.trans_lt hmiddle.1, hmiddle.2.trans_lt habove, habove⟩

variable (ha : 0 < needed t a) (hb : 0 < needed t b) (hf : 0 < needed t f)
include ha hb hf

theorem rounded_sub_le :
    roundBits 53 (needed t a) - roundBits 53 (needed t b) ≤ 2 * (needed t a - needed t b) := by
  obtain ⟨-, hbf, hfa, -⟩ := rounded_apart hfix hlow hhigh
  rw [roundBits_of_pos ha, roundBits_of_pos hf] at hfa
  rw [roundBits_of_pos hb, roundBits_of_pos hf] at hbf
  rw [roundBits_of_pos ha, roundBits_of_pos hb]
  have habove := add_le_two_mul (by norm_num) ha hfa
  have hbelow := two_mul_le_add (by norm_num) hb hbf
  linarith

omit hfix hlow hhigh ha hb hf in
theorem needed_sub_le (hab : a ≤ b) : needed t a - needed t b ≤ (b - a : ℤ) / 64 := by
  have hle : ((clustersOf t a - clustersOf t b : ℤ) : ℚ) ≤ (2 * (b - a) : ℤ) := by
    exact_mod_cast clustersOf_sub_le hab
  rw [needed_eq, needed_eq]
  push_cast at hle ⊢
  linarith

theorem pass_contracts (hab : a ≤ b) : 16 * (pass t a - pass t b) ≤ b - a := by
  obtain ⟨hbelow, -, -, habove⟩ := rounded_apart hfix hlow hhigh
  have hround := rounded_sub_le hfix hlow hhigh ha hb hf
  have hsub := needed_sub_le (t := t) hab
  have hceila := Int.ceil_lt_add_one (roundBits 53 (needed t a))
  have hceilb := Int.le_ceil (roundBits 53 (needed t b))
  have hq : (16 : ℚ) * (pass t a - pass t b) ≤ (b - a : ℤ) := by
    rw [pass, pass]
    linarith
  exact_mod_cast hq

theorem needed_le_sub (hab : a ≤ b) : needed t a ≤ 2 ^ 50 * (b - a : ℤ) := by
  obtain ⟨-, hbf, hfa, -⟩ := rounded_apart hfix hlow hhigh
  have hround := rounded_sub_le hfix hlow hhigh ha hb hf
  have hsub := needed_sub_le (t := t) hab
  have hspace : roundBits 53 (needed t a) ≤
      2 ^ (53 + 1) * (roundBits 53 (needed t a) - roundBits 53 (needed t f)) := by
    rw [roundBits_of_pos ha, roundBits_of_pos hf] at hfa ⊢
    exact roundMagnitude_spacing (by norm_num) ha hfa
  norm_num at hspace ⊢
  push_cast at hsub
  have hhalf : needed t a ≤ 2 * roundBits 53 (needed t a) := by
    rw [roundBits_of_pos ha]
    exact le_two_mul_roundMagnitude (by norm_num) ha
  linarith

end Contraction

section Sizes

variable {t f : ℤ} {p : FatParams} (h : 0 < clustersOf t 1 + 2) (hfix : pass t f = f)
include h hfix

theorem iterate_even_le (n : ℕ) : (pass t)^[2 * n] 1 ≤ f := by
  have hle := iterate_even_mono t n (fixed_mem h hfix).1
  rwa [Function.iterate_fixed hfix] at hle

omit hfix in
theorem one_le_iterate_even (n : ℕ) : 1 ≤ (pass t)^[2 * n] 1 := by
  have htwice : 1 ≤ (pass t)^[2] 1 := by
    have hfirst := clusters_pass_one h
    exact pass_pos (by omega)
  rw [Function.iterate_mul]
  exact ((pass_antitone t).comp (pass_antitone t)).monotone_iterate_of_le_map htwice (Nat.zero_le n)

omit h hfix in
theorem iterate_even_succ (n : ℕ) :
    (pass t)^[2 * (n + 1)] 1 = pass t (pass t ((pass t)^[2 * n] 1)) := by
  rw [Nat.mul_succ, Function.iterate_succ_apply', Function.iterate_succ_apply']

theorem iterates_enclose (n : ℕ) (hne : pass t ((pass t)^[2 * n] 1) ≠ f) :
    (pass t)^[2 * n] 1 < f ∧ f < pass t ((pass t)^[2 * n] 1) := by
  have hle := iterate_even_le h hfix n
  constructor
  · refine lt_of_le_of_ne hle fun heq ↦ hne ?_
    rw [heq, hfix]
  refine lt_of_le_of_ne ?_ (Ne.symm hne)
  calc f = pass t f := hfix.symm
    _ ≤ _ := pass_antitone t hle

theorem needed_iterates (n : ℕ) : 0 < needed t ((pass t)^[2 * n] 1) ∧
    0 < needed t (pass t ((pass t)^[2 * n] 1)) := by
  have hmem := fixed_mem h hfix
  exact ⟨needed_pos_of_le h ((iterate_even_le h hfix n).trans hmem.2),
    needed_pos_of_le h (pass_antitone t (one_le_iterate_even h n))⟩

theorem iterates_approach (n : ℕ) (hne : pass t ((pass t)^[2 * n] 1) ≠ f) :
    256 ^ n * (pass t ((pass t)^[2 * n] 1) - (pass t)^[2 * n] 1) ≤ pass t 1 - 1 := by
  induction n with
  | zero => simp
  | succ n ih =>
    have hf := needed_pos_of_le h (fixed_mem h hfix).2
    have henclose := iterates_enclose h hfix (n + 1) hne
    obtain ⟨ha', -⟩ := needed_iterates h hfix (n + 1)
    obtain ⟨ha, hb⟩ := needed_iterates h hfix n
    rw [iterate_even_succ] at henclose ha' ⊢
    have hbefore : pass t ((pass t)^[2 * n] 1) ≠ f := by
      intro heq
      rw [heq, hfix] at henclose
      exact lt_irrefl f henclose.1
    obtain ⟨hlt, hgt⟩ := iterates_enclose h hfix n hbefore
    have hfirst := pass_contracts hfix henclose.1 hgt ha hb hf (hlt.trans hgt).le
    have hsecond := pass_contracts hfix henclose.1 henclose.2 ha' hb hf
      (henclose.1.trans hgt).le
    have hprev := ih hbefore
    generalize (pass t)^[2 * n] 1 = a at *
    have hpow : (0 : ℤ) < 256 ^ n := by positivity
    rw [pow_succ]
    nlinarith

theorem iterate_eq_fixed : (pass t)^[32] 1 = f := by
  by_contra hne
  have hlast : (pass t)^[32] 1 = pass t (pass t ((pass t)^[2 * 15] 1)) := iterate_even_succ 15
  have hbefore : pass t ((pass t)^[2 * 15] 1) ≠ f := by
    intro heq
    rw [hlast, heq] at hne
    exact hne hfix
  have hle : (pass t)^[32] 1 ≤ f := iterate_even_le h hfix 16
  have hlow : pass t (pass t ((pass t)^[2 * 15] 1)) < f := by
    rw [← hlast]
    exact lt_of_le_of_ne hle hne
  obtain ⟨hlt, hgt⟩ := iterates_enclose h hfix 15 hbefore
  obtain ⟨ha, hb⟩ := needed_iterates h hfix 15
  have hmem := fixed_mem h hfix
  have hnear := iterates_approach h hfix 15 hbefore
  have hfar := needed_le_sub hfix hlow hgt ha hb (needed_pos_of_le h hmem.2) (hlt.trans hgt).le
  have hneeded := needed_antitone (t := t) (hlt.le.trans hmem.2)
  have hfirst := clusters_pass_one h
  have hstart := pass_le h
  rw [needed_eq] at hneeded
  generalize pass t ((pass t)^[2 * 15] 1) - (pass t)^[2 * 15] 1 = d at hnear hfar
  have hd : ((clustersOf t (pass t 1) + 2 : ℤ) : ℚ) ≤ (2 ^ 57 * d : ℤ) := by
    push_cast at hneeded hfar ⊢
    linarith
  have hd' : clustersOf t (pass t 1) + 2 ≤ 2 ^ 57 * d := by exact_mod_cast hd
  omega

end Sizes

section Capacity

variable {t f : ℤ} {p : FatParams}

theorem settles_iff (h : 0 < clustersOf t 1 + 2) (hfit : |roundBits 53 (needed t 1)| < 2 ^ 1024) :
    Settles t ↔ ∃ f, pass t f = f ∧ (clustersOf t f + 2) * 4 ≤ f * 512 := by
  constructor
  · rintro ⟨f, hnew, hroom⟩
    exact ⟨f, (newFat_ok hnew).1, hroom⟩
  rintro ⟨f, hfix, hroom⟩
  have hmem := fixed_mem h hfix
  have hpos := roundBits_pos (p := 53) (by norm_num) (needed_pos_of_le h hmem.2)
  have hle := roundBits_mono (p := 53) (by norm_num) (needed_antitone (t := t) hmem.1)
  refine ⟨f, ?_, hroom⟩
  rw [newFat_eq, hfix]
  rw [abs_of_pos hpos]
  exact hle.trans_lt ((le_abs_self _).trans_lt hfit)

/-- The partitions below `2 ^ 53` sectors whose size settles: two lengths of a hundred and thirty, or
of a thousand and twenty-six, do not. -/
def Regular (t : ℤ) : Prop :=
  if t ≤ 524288 then (t + 97) % 130 < 128 else (t + 1000) % 1026 < 1024

instance (t : ℤ) : Decidable (Regular t) := inferInstanceAs (Decidable (ite _ _ _))

theorem pass_eq_iff (hsmall : |clustersOf t f + 2| < 2 ^ 53) (g : ℤ) :
    pass t f = g ↔ 128 * (g - 1) < clustersOf t f + 2 ∧ clustersOf t f + 2 ≤ 128 * g := by
  have hneeded : needed t f = (clustersOf t f + 2 : ℤ) * 2 ^ (-7 : ℤ) := by
    rw [needed_eq, zpow_neg, div_eq_mul_inv]
    norm_num
  rw [pass, roundBits_of_bits hneeded hsmall, needed_eq, Int.ceil_eq_iff,
    lt_div_iff₀ (by norm_num), div_le_iff₀ (by norm_num)]
  refine and_congr ?_ ?_
  · rw [mul_comm]
    exact_mod_cast Iff.rfl
  rw [mul_comm]
  exact_mod_cast Iff.rfl

theorem fixed_iff_regular (h : 0 < clustersOf t 1 + 2) (ht : t < 2 ^ 53) :
    (∃ f, pass t f = f ∧ (clustersOf t f + 2) * 4 ≤ f * 512) ↔ Regular t := by
  constructor
  · rintro ⟨f, hfix, -⟩
    have hmem := fixed_mem h hfix
    have hfirst := clusters_pass_one h
    have hmore := clustersOf_antitone (t := t) hmem.2
    have hless := clustersOf_antitone (t := t) hmem.1
    have hcount : clustersOf t 1 + 2 ≤ t := by
      unfold clustersOf spcOf at h ⊢
      split_ifs at h ⊢ <;> omega
    have hbounds := (pass_eq_iff (abs_lt.2 ⟨by omega, by omega⟩) f).1 hfix
    clear hfirst hmore hless hcount
    unfold clustersOf spcOf at hbounds
    unfold Regular
    split_ifs at hbounds ⊢
    · omega
    have hwindow : 1026 * f ≤ t + 1000 ∧ t + 1000 < 1026 * f + 1024 := by omega
    clear hbounds
    omega
  · intro hregular
    unfold Regular at hregular
    have hexists : ∃ f, |clustersOf t f + 2| < 2 ^ 53 ∧ 128 * (f - 1) < clustersOf t f + 2 ∧
        clustersOf t f + 2 ≤ 128 * f := by
      unfold clustersOf spcOf at h ⊢
      split_ifs at hregular h ⊢
      · exact ⟨(t + 97) / 130, abs_lt.2 ⟨by omega, by omega⟩, by omega, by omega⟩
      · exact ⟨(t + 1000) / 1026, abs_lt.2 ⟨by omega, by omega⟩, by omega, by omega⟩
    obtain ⟨f, hsmall, hbounds⟩ := hexists
    exact ⟨f, (pass_eq_iff hsmall f).2 hbounds, by omega⟩

theorem pass_of_room (h : 0 < clustersOf t 1 + 2) (hpos : 1 ≤ (pass t)^[32] 1)
    (hroom : (clustersOf t ((pass t)^[32] 1) + 2) * 4 ≤ (pass t)^[32] 1 * 512) :
    pass t ((pass t)^[32] 1) = (pass t)^[32] 1 := by
  have hlast : (pass t)^[32] 1 = pass t ((pass t)^[31] 1) := Function.iterate_succ_apply' _ 31 1
  have hneeded : 0 < needed t ((pass t)^[31] 1) := by
    refine needed_pos ?_
    by_contra! hnone
    have := pass_nonpos hnone
    omega
  have hexact : roundBits 53 ((pass t)^[32] 1 : ℤ) = ((pass t)^[32] 1 : ℤ) := by
    rw [hlast]
    exact roundBits_ceil (by norm_num) hneeded
  have hle : needed t ((pass t)^[32] 1) ≤ ((pass t)^[32] 1 : ℤ) := by
    rw [needed, div_le_iff₀ (by norm_num)]
    exact_mod_cast hroom
  refine le_antisymm (Int.ceil_le.2 ?_) (iterate_le_pass (pass_pos h) 16)
  rw [← hexact]
  exact roundBits_mono (by norm_num) hle

/-- The sizes that the script computes are large enough exactly where some size of the FAT settles. -/
theorem fat_large_enough (totalSectors : ℤ) (p : FatParams) (h : fatParams totalSectors = .ok p) :
    (LargeEnough totalSectors p ↔ Settles totalSectors) ∧
      (totalSectors < 2 ^ 53 → (LargeEnough totalSectors p ↔ Regular totalSectors)) := by
  obtain ⟨rfl, hclusters, hfit⟩ := fatParams_ok h
  have hone := clusters_pos hclusters
  have hinside : 32 + 2 * (pass totalSectors)^[32] 1 +
      clustersOf totalSectors ((pass totalSectors)^[32] 1) * spcOf totalSectors ≤ totalSectors := by
    have hle := Int.ediv_mul_le (totalSectors - 32 - 2 * (pass totalSectors)^[32] 1)
      (spcOf_pos totalSectors).ne'
    rw [← clustersOf] at hle
    omega
  have hiff : LargeEnough totalSectors ⟨spcOf totalSectors, 32, 2, (pass totalSectors)^[32] 1,
      clustersOf totalSectors ((pass totalSectors)^[32] 1)⟩ ↔
      ∃ f, pass totalSectors f = f ∧ (clustersOf totalSectors f + 2) * 4 ≤ f * 512 := by
    constructor
    · rintro ⟨hroom, -⟩
      dsimp only at hroom
      exact ⟨_, pass_of_room hone (by omega) hroom, hroom⟩
    rintro ⟨f, hfix, hroom⟩
    obtain rfl := iterate_eq_fixed hone hfix
    exact ⟨hroom, hinside⟩
  refine ⟨?_, fun hsmall ↦ ?_⟩
  · rw [hiff, settles_iff hone hfit]
  · rw [hiff, fixed_iff_regular hone hsmall]

theorem fat_large_enough_even : LargeEnough 66590 ⟨1, 32, 2, 512, 65534⟩ :=
  ((fat_large_enough 66590 _ (by decide +kernel)).2 (by norm_num)).2 (by decide +kernel)

/-- The FATs of a partition of 66591 sectors have 65536 entries and its last cluster is 65536. -/
theorem fat_too_small : fatParams 66591 = .ok ⟨1, 32, 2, 512, 65535⟩ ∧
    ¬ LargeEnough 66591 ⟨1, 32, 2, 512, 65535⟩ := by
  refine ⟨by decide +kernel, fun h ↦ ?_⟩
  exact absurd h.1 (by decide)

end Capacity

end NexusOS.Tools
