import Mathlib.Data.Nat.Digits.Lemmas
import Mathlib.Tactic

namespace NexusOS.Shell.Calc

section Source

/-- A signed operation whose result is no `long`: undefined behaviour, or a trap. -/
inductive Fault
  | overflow
  deriving DecidableEq

def long (n : ℤ) : Except Fault ℤ := if -2 ^ 63 ≤ n ∧ n < 2 ^ 63 then .ok n else .error .overflow

/-- `while (n > 0 && i < 20) digits[i++] = '0' + n % 10, n /= 10` with `room` cells left. -/
def digitLoop : ℕ → ℕ → List Char
  | 0, _ => []
  | room + 1, n => if 0 < n then Char.ofNat (48 + n % 10) :: digitLoop room (n / 10) else []

def printDigits (n : ℕ) : List Char := if n = 0 then ['0'] else (digitLoop 20 n).reverse

def printInt (n : ℤ) : Except Fault (List Char) :=
  if n < 0 then do
    let m ← long (-n)
    return '-' :: printDigits m.toNat
  else return printDigits n.toNat

def skipSpaces (p : List Char) : List Char := p.dropWhile (· = ' ')

/-- The loop over the digits, with `value` and `got_digit`. -/
def parseDigits : ℤ → Bool → List Char → Except Fault (ℤ × Bool × List Char)
  | value, got, [] => .ok (value, got, [])
  | value, got, c :: s =>
    if '0' ≤ c ∧ c ≤ '9' then do
      let tens ← long (value * 10)
      let value ← long (tens + (c.toNat - 48))
      parseDigits value true s
    else .ok (value, got, c :: s)

/-- The number and the rest of the string, or nothing if there is no digit. -/
def parseInt (s : List Char) : Except Fault (Option (ℤ × List Char)) := do
  let negative := s.head? = some '-'
  let r ← parseDigits 0 false (if negative then s.tail else s)
  if !r.2.1 then return none
  let value ← if negative then long (-r.1) else .ok r.1
  return some (value, r.2.2)

def expectedNumber : List Char :=
  "calc: expected a number\nusage: calc <a> <op> <b>, op is one of + - * /\n".toList

def expectedOperator : List Char := "calc: expected operator (+ - * /)\n".toList

def expectedSecond : List Char := "calc: expected a second number\n".toList

def divisionByZero : List Char := "calc: division by zero\n".toList

inductive Oper
  | add
  | sub
  | mul
  | div
  deriving DecidableEq

def Oper.char : Oper → Char
  | .add => '+'
  | .sub => '-'
  | .mul => '*'
  | .div => '/'

def Oper.ofChar (c : Char) : Option Oper :=
  if c = '+' then some .add else if c = '-' then some .sub
  else if c = '*' then some .mul else if c = '/' then some .div else none

/-- The value in the integers, where a quotient is cut towards zero. -/
def Oper.value (a b : ℤ) : Oper → ℤ
  | .add => a + b
  | .sub => a - b
  | .mul => a * b
  | .div => a.tdiv b

/-- What is printed, unless a signed operation overflows. -/
def calcRun (args : List Char) : Except Fault (List Char) := do
  match ← parseInt (skipSpaces args) with
  | none => return expectedNumber
  | some (a, p) =>
    match skipSpaces p with
    | [] => return expectedOperator
    | c :: p =>
      match Oper.ofChar c with
      | none => return expectedOperator
      | some op =>
        match ← parseInt (skipSpaces p) with
        | none => return expectedSecond
        | some (b, _) =>
          if op = .div ∧ b = 0 then return divisionByZero
          let result ← long (op.value a b)
          let printed ← printInt result
          return printed ++ ['\n']

end Source

section Specification

structure Numeral where
  negative : Bool
  digits : List (Fin 10)
  nonempty : digits ≠ []

def digitChar (d : Fin 10) : Char := Char.ofNat (48 + d)

def Numeral.chars (a : Numeral) : List Char :=
  (if a.negative then ['-'] else []) ++ a.digits.map digitChar

def horner (n : ℕ) (ds : List (Fin 10)) : ℕ := ds.foldl (fun n d ↦ n * 10 + d.val) n

def Numeral.value (a : Numeral) : ℤ :=
  if a.negative then -horner 0 a.digits else horner 0 a.digits

/-- Two numbers and an operator, with blanks before, between and after them. -/
structure Input where
  before : ℕ
  left : Numeral
  between : ℕ
  op : Oper
  after : ℕ
  right : Numeral

def Input.chars (x : Input) : List Char :=
  List.replicate x.before ' ' ++ (x.left.chars ++ (List.replicate x.between ' ' ++
    x.op.char :: (List.replicate x.after ' ' ++ x.right.chars)))

def decimal (n : ℤ) : List Char :=
  (if n < 0 then ['-'] else []) ++ (if n = 0 then ['0'] else
    (Nat.digits 10 n.natAbs).reverse.map fun d ↦ Char.ofNat (48 + d))

/-- The exact result or an error message is printed, and nothing overflows. -/
def Correct (x : Input) : Prop :=
  (¬ (x.op = .div ∧ x.right.value = 0) ∧
      calcRun x.chars = .ok (decimal (x.op.value x.left.value x.right.value) ++ ['\n'])) ∨
    ∃ m ∈ [expectedNumber, expectedOperator, expectedSecond, divisionByZero],
      calcRun x.chars = .ok m

def Fits (x : Input) : Prop :=
  |x.left.value| < 2 ^ 63 ∧ |x.right.value| < 2 ^ 63 ∧
    (x.op = .div ∧ x.right.value = 0 ∨ |x.op.value x.left.value x.right.value| < 2 ^ 63)

end Specification

section Parsing

variable {n : ℕ} {rest : List Char}

theorem long_nat (n : ℕ) : long n = if n < 2 ^ 63 then .ok (n : ℤ) else .error .overflow := by
  unfold long
  congr 1
  simp only [eq_iff_iff]
  omega

theorem digitChar_digit (d : Fin 10) : '0' ≤ digitChar d ∧ digitChar d ≤ '9' := by
  revert d
  decide

theorem digitChar_value (d : Fin 10) : ((digitChar d).toNat : ℤ) - 48 = (d : ℕ) := by
  revert d
  decide

theorem le_horner (n : ℕ) (ds : List (Fin 10)) : n ≤ horner n ds := by
  induction ds generalizing n with
  | nil => exact le_refl n
  | cons d ds ih =>
    have h : n * 10 + d.val ≤ horner n (d :: ds) := ih (n * 10 + d.val)
    omega

def Stops (rest : List Char) : Prop := ∀ c ∈ rest.head?, ¬ ('0' ≤ c ∧ c ≤ '9')

theorem parseDigits_append (hn : n < 2 ^ 63) (got : Bool) (ds : List (Fin 10))
    (hrest : Stops rest) :
    parseDigits n got (ds.map digitChar ++ rest) =
      if horner n ds < 2 ^ 63 then .ok ((horner n ds : ℤ), got || !ds.isEmpty, rest)
      else .error .overflow := by
  induction ds generalizing n got with
  | nil =>
    rw [List.map_nil, List.nil_append, horner, List.foldl_nil, if_pos hn]
    cases rest with
    | nil => simp [parseDigits]
    | cons c rest => simp [parseDigits, hrest c rfl]
  | cons d ds ih =>
    have hle := le_horner (n * 10 + d) ds
    have hhorner : horner n (d :: ds) = horner (n * 10 + d) ds := rfl
    have htens : (n : ℤ) * 10 = (n * 10 : ℕ) := by push_cast; rfl
    rw [List.map_cons, List.cons_append, parseDigits, if_pos (digitChar_digit d), hhorner, htens,
      long_nat]
    by_cases hten : n * 10 < 2 ^ 63
    · have hdigit : ((n * 10 : ℕ) : ℤ) + (((digitChar d).toNat : ℤ) - 48) = (n * 10 + d : ℕ) := by
        rw [digitChar_value]
        push_cast
        rfl
      rw [if_pos hten]
      show (long (((n * 10 : ℕ) : ℤ) + (((digitChar d).toNat : ℤ) - 48)) >>= _) = _
      rw [hdigit, long_nat]
      by_cases hnext : n * 10 + d < 2 ^ 63
      · rw [if_pos hnext]
        show parseDigits (n * 10 + d : ℕ) true (ds.map digitChar ++ rest) = _
        rw [ih hnext true]
        simp
      · rw [if_neg hnext, if_neg (by omega)]
        rfl
    · rw [if_neg hten, if_neg (by omega)]
      rfl

theorem parseInt_numeral (a : Numeral) (hrest : Stops rest) :
    parseInt (a.chars ++ rest) =
      if |a.value| < 2 ^ 63 then .ok (some (a.value, rest)) else .error .overflow := by
  obtain ⟨negative, digits, hne⟩ := a
  have hparse := parseDigits_append (n := 0) (by decide) false digits hrest
  rw [Nat.cast_zero] at hparse
  have hempty : digits.isEmpty = false := by simpa using hne
  have habs : |Numeral.value ⟨negative, digits, hne⟩| < 2 ^ 63 ↔ horner 0 digits < 2 ^ 63 := by
    cases negative <;> simp only [Numeral.value] <;> norm_cast <;> simp
  simp only [habs]
  cases negative with
  | true =>
    have hhead : (Numeral.chars ⟨true, digits, hne⟩ ++ rest).head? = some '-' := rfl
    have htail : (Numeral.chars ⟨true, digits, hne⟩ ++ rest).tail =
        digits.map digitChar ++ rest := rfl
    simp only [parseInt, hhead, htail, if_true, hparse, hempty]
    by_cases hfits : horner 0 digits < 2 ^ 63
    · have hlong : long (-(horner 0 digits : ℤ)) = .ok (-(horner 0 digits : ℤ)) := by
        rw [long, if_pos (by omega)]
      simp only [if_pos hfits]
      show (long (-(horner 0 digits : ℤ)) >>= _) = _
      rw [hlong]
      rfl
    · simp only [if_neg hfits]
      rfl
  | false =>
    have hchars : Numeral.chars ⟨false, digits, hne⟩ ++ rest = digits.map digitChar ++ rest := rfl
    have hhead : (digits.map digitChar ++ rest).head? ≠ some '-' := by
      cases digits with
      | nil => exact absurd rfl hne
      | cons d ds =>
        intro h
        have hd := digitChar_digit d
        rw [Option.some_inj.1 h] at hd
        exact absurd hd (by decide)
    simp only [parseInt, hchars, hhead, if_false, hparse, hempty]
    by_cases hfits : horner 0 digits < 2 ^ 63
    · simp only [if_pos hfits]
      rfl
    simp only [if_neg hfits]
    rfl

theorem skipSpaces_replicate (n : ℕ) {s : List Char} (hs : s.head? ≠ some ' ') :
    skipSpaces (List.replicate n ' ' ++ s) = s := by
  induction n with
  | zero =>
    cases s with
    | nil => rfl
    | cons c s =>
      have hc : c ≠ ' ' := fun h ↦ hs (congrArg some h)
      simp [skipSpaces, hc]
  | succ n ih => exact ih

theorem Numeral.head_chars (a : Numeral) (rest : List Char) :
    (a.chars ++ rest).head? ≠ some ' ' := by
  obtain ⟨negative, digits, hne⟩ := a
  cases negative with
  | true => exact fun h ↦ absurd (Option.some_inj.1 h) (by decide)
  | false =>
    cases digits with
    | nil => exact absurd rfl hne
    | cons d ds =>
      intro h
      have hd := digitChar_digit d
      rw [Option.some_inj.1 h] at hd
      exact absurd hd (by decide)

end Parsing

section Printing

theorem digitLoop_eq (room n : ℕ) (h : n < 10 ^ room) :
    digitLoop room n = (Nat.digits 10 n).map fun d ↦ Char.ofNat (48 + d) := by
  induction room generalizing n with
  | zero =>
    have hzero : n = 0 := by simpa using h
    rw [hzero, Nat.digits_zero]
    rfl
  | succ room ih =>
    rw [digitLoop]
    split
    · rename_i hpos
      rw [Nat.digits_def' (by decide) hpos, List.map_cons,
        ih _ (Nat.div_lt_of_lt_mul (by rwa [← pow_succ']))]
    rename_i hpos
    rw [Nat.eq_zero_of_not_pos hpos, Nat.digits_zero]
    rfl

theorem printInt_eq {n : ℤ} (hmin : -2 ^ 63 ≤ n) (hmax : n < 2 ^ 63) :
    printInt n = if |n| < 2 ^ 63 then .ok (decimal n) else .error .overflow := by
  have hdigits : ∀ m : ℕ, m = n.natAbs → printDigits m = if n = 0 then ['0'] else
      (Nat.digits 10 n.natAbs).reverse.map fun d ↦ Char.ofNat (48 + d) := by
    rintro m rfl
    have hzero : n.natAbs = 0 ↔ n = 0 := Int.natAbs_eq_zero
    rw [printDigits, digitLoop_eq 20 _ (by omega), List.map_reverse]
    simp only [hzero]
  rw [printInt]
  by_cases hneg : n < 0
  · rw [if_pos hneg, abs_of_neg hneg, decimal, if_pos hneg, long]
    by_cases hfits : -n < 2 ^ 63
    · rw [if_pos (by omega), if_pos hfits]
      exact congrArg (fun s ↦ Except.ok ('-' :: s)) (hdigits _ (by omega))
    rw [if_neg (by omega), if_neg hfits]
    rfl
  · rw [if_neg hneg, if_pos (by rw [abs_of_nonneg (by omega)]; exact hmax), decimal, if_neg hneg]
    exact congrArg Except.ok (hdigits _ (by omega))

theorem long_print (v : ℤ) :
    (do let result ← long v
        let printed ← printInt result
        return printed ++ ['\n'] : Except Fault (List Char)) =
      if |v| < 2 ^ 63 then .ok (decimal v ++ ['\n']) else .error .overflow := by
  rw [long]
  by_cases hrange : -2 ^ 63 ≤ v ∧ v < 2 ^ 63
  · rw [if_pos hrange]
    show (printInt v >>= _) = _
    rw [printInt_eq hrange.1 hrange.2]
    split <;> rfl
  have habs : ¬ |v| < 2 ^ 63 := fun h ↦ hrange ⟨(abs_lt.1 h).1.le, (abs_lt.1 h).2⟩
  rw [if_neg hrange, if_neg habs]
  rfl

end Printing

section Calculation

theorem Oper.ofChar_char (op : Oper) : Oper.ofChar op.char = some op := by
  cases op <;> decide

theorem stops_behind (n : ℕ) (op : Oper) (s : List Char) :
    Stops (List.replicate n ' ' ++ op.char :: s) := by
  intro c hc
  cases n with
  | zero =>
    rw [← Option.mem_some.1 hc]
    cases op <;> decide
  | succ n =>
    rw [← Option.mem_some.1 hc]
    decide

theorem calcRun_eq (x : Input) :
    calcRun x.chars =
      if |x.left.value| < 2 ^ 63 ∧ |x.right.value| < 2 ^ 63 then
        if x.op = .div ∧ x.right.value = 0 then .ok divisionByZero
        else if |x.op.value x.left.value x.right.value| < 2 ^ 63 then
          .ok (decimal (x.op.value x.left.value x.right.value) ++ ['\n'])
        else .error .overflow
      else .error .overflow := by
  have hoper : (x.op.char :: (List.replicate x.after ' ' ++ x.right.chars)).head? ≠ some ' ' := by
    intro h
    have hc := Option.some_inj.1 h
    cases hop : x.op <;> rw [hop] at hc <;> exact absurd hc (by decide)
  have hright : parseInt (x.right.chars ++ []) = _ :=
    parseInt_numeral x.right fun c hc ↦ absurd hc (by simp)
  have hskip := skipSpaces_replicate x.after (x.right.head_chars [])
  rw [List.append_nil] at hright hskip
  rw [calcRun, Input.chars, skipSpaces_replicate _ (x.left.head_chars _),
    parseInt_numeral _ (stops_behind _ _ _)]
  by_cases hleft : |x.left.value| < 2 ^ 63
  · simp only [hleft, true_and, if_true]
    show (match skipSpaces (List.replicate x.between ' ' ++ _) with | [] => _ | c :: p => _) = _
    rw [skipSpaces_replicate _ hoper]
    simp only [Oper.ofChar_char, hskip, hright]
    by_cases hfits : |x.right.value| < 2 ^ 63
    · simp only [if_pos hfits]
      show (if x.op = .div ∧ x.right.value = 0 then _ else _) = _
      split
      · rfl
      · exact long_print _
    · simp only [if_neg hfits]
      rfl
  · simp only [hleft, false_and, if_false]
    rfl

theorem not_correct_of_fault {x : Input} {e : Fault} (h : calcRun x.chars = .error e) :
    ¬ Correct x := by
  rintro (⟨-, hok⟩ | ⟨m, -, hok⟩)
  · exact absurd (h.symm.trans hok) (by simp)
  · exact absurd (h.symm.trans hok) (by simp)

theorem calc_exact_iff (x : Input) : Correct x ↔ Fits x := by
  have hrun := calcRun_eq x
  unfold Fits
  by_cases hnumbers : |x.left.value| < 2 ^ 63 ∧ |x.right.value| < 2 ^ 63
  · rw [if_pos hnumbers] at hrun
    simp only [hnumbers.1, hnumbers.2, true_and]
    by_cases hzero : x.op = .div ∧ x.right.value = 0
    · rw [if_pos hzero] at hrun
      exact iff_of_true (.inr ⟨divisionByZero, by simp, hrun⟩) (.inl hzero)
    rw [if_neg hzero] at hrun
    by_cases hresult : |x.op.value x.left.value x.right.value| < 2 ^ 63
    · rw [if_pos hresult] at hrun
      exact iff_of_true (.inl ⟨hzero, hrun⟩) (.inr hresult)
    rw [if_neg hresult] at hrun
    exact iff_of_false (not_correct_of_fault hrun) (not_or.2 ⟨hzero, hresult⟩)
  · rw [if_neg hnumbers] at hrun
    exact iff_of_false (not_correct_of_fault hrun) fun h ↦ hnumbers ⟨h.1, h.2.1⟩

/-- `calc 9223372036854775807 + 1`. -/
theorem calc_overflow :
    ¬ Correct ⟨0, ⟨false, [9, 2, 2, 3, 3, 7, 2, 0, 3, 6, 8, 5, 4, 7, 7, 5, 8, 0, 7], by decide⟩, 1,
      .add, 1, ⟨false, [1], by decide⟩⟩ :=
  not_correct_of_fault (e := .overflow) (by decide +kernel)

end Calculation

end NexusOS.Shell.Calc
