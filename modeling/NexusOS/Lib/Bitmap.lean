import Mathlib.Logic.Function.Basic
import Mathlib.Tactic

namespace NexusOS.Lib

/-- A bitmap is an array of bytes; bit `i` is bit `i % 8` of byte `i / 8`. -/
abbrev Bitmap := ℕ → BitVec 8

namespace Bitmap

def set (b : Bitmap) (i : ℕ) : Bitmap :=
  Function.update b (i / 8) (b (i / 8) ||| (1#8 <<< (i % 8)))

def clear (b : Bitmap) (i : ℕ) : Bitmap :=
  Function.update b (i / 8) (b (i / 8) &&& ~~~(1#8 <<< (i % 8)))

def test (b : Bitmap) (i : ℕ) : Bool :=
  (b (i / 8) &&& (1#8 <<< (i % 8))) != 0#8

theorem test_eq_getLsbD (b : Bitmap) (i : ℕ) : b.test i = (b (i / 8)).getLsbD (i % 8) := by
  have hi : i % 8 < 8 := Nat.mod_lt _ (by decide)
  have hne : (1#8 <<< (i % 8)) ≠ 0#8 := by
    intro h
    have hbit := congrArg (fun x : BitVec 8 ↦ x.getLsbD (i % 8)) h
    simp [hi] at hbit
  rw [test, ← BitVec.twoPow_eq, BitVec.and_twoPow]
  cases (b (i / 8)).getLsbD (i % 8) with
  | false => simp
  | true => simpa [BitVec.twoPow_eq] using hne

@[simp] theorem test_set (b : Bitmap) (i j : ℕ) :
    (b.set i).test j = (decide (j = i) || b.test j) := by
  simp only [test_eq_getLsbD, set]
  have hi : i % 8 < 8 := Nat.mod_lt _ (by decide)
  by_cases h : j / 8 = i / 8
  · have hij : j = i ↔ i % 8 = j % 8 := by omega
    rw [h, Function.update_self, BitVec.getLsbD_or, ← BitVec.twoPow_eq, BitVec.getLsbD_twoPow]
    simp only [hi, decide_true, Bool.true_and, hij, Bool.or_comm]
  have hij : j ≠ i := fun hij ↦ h (by rw [hij])
  rw [Function.update_of_ne h]
  simp only [hij, decide_false, Bool.false_or]

@[simp] theorem test_clear (b : Bitmap) (i j : ℕ) :
    (b.clear i).test j = (decide (j ≠ i) && b.test j) := by
  simp only [test_eq_getLsbD, clear]
  have hi : i % 8 < 8 := Nat.mod_lt _ (by decide)
  have hj : j % 8 < 8 := Nat.mod_lt _ (by decide)
  by_cases h : j / 8 = i / 8
  · have hij : j = i ↔ i % 8 = j % 8 := by omega
    rw [h, Function.update_self, BitVec.getLsbD_and, BitVec.getLsbD_not, ← BitVec.twoPow_eq,
      BitVec.getLsbD_twoPow]
    simp only [hi, hj, decide_true, Bool.true_and, ne_eq, hij, decide_not, Bool.and_comm]
  have hij : j ≠ i := fun hij ↦ h (by rw [hij])
  rw [Function.update_of_ne h]
  simp only [hij, ne_eq, not_false_eq_true, decide_true, Bool.true_and]

end Bitmap

end NexusOS.Lib
