import Mathlib.Data.Nat.ModEq
import Mathlib.Tactic

namespace NexusOS.Lib

variable {b s r r' w : ℕ}

/-- Addition of digits of the base `b + 1` with the carry added back. -/
def carryAdd (b x y : ℕ) : ℕ := (x + y) % (b + 1) + (x + y) / (b + 1)

/-- The digit `r` of the base `b + 1` is what is left of `s` once all carries are added back. -/
structure Folded (b s r : ℕ) : Prop where
  le : r ≤ b
  mod : r ≡ s [MOD b]
  zero : r = 0 ↔ s = 0

theorem Folded.of_le (h : s ≤ b) : Folded b s s := ⟨h, rfl, Iff.rfl⟩

theorem Folded.unique (h : Folded b s r) (h' : Folded b s r') : r = r' := by
  have hmod : r % b = r' % b := h.mod.trans h'.mod.symm
  have hzero : r = 0 ↔ r' = 0 := h.zero.trans h'.zero.symm
  rcases h.le.lt_or_eq with hlt | rfl
  · rcases h'.le.lt_or_eq with hlt' | rfl
    · rwa [Nat.mod_eq_of_lt hlt, Nat.mod_eq_of_lt hlt'] at hmod
    · rw [Nat.mod_self, Nat.mod_eq_of_lt hlt] at hmod
      omega
  rcases h'.le.lt_or_eq with hlt' | rfl
  · rw [Nat.mod_self, Nat.mod_eq_of_lt hlt'] at hmod
    omega
  · rfl

theorem carry_modEq (b s : ℕ) : s % (b + 1) + s / (b + 1) ≡ s [MOD b] := by
  have hbase : b + 1 ≡ 1 [MOD b] := Nat.add_modEq_left
  calc s % (b + 1) + s / (b + 1)
      ≡ s % (b + 1) + (b + 1) * (s / (b + 1)) [MOD b] := by
        simpa using (hbase.symm.mul_right (s / (b + 1))).add_left (s % (b + 1))
    _ = s := Nat.mod_add_div s (b + 1)

theorem carry_eq_zero : s % (b + 1) + s / (b + 1) = 0 ↔ s = 0 := by
  refine ⟨fun h ↦ ?_, by rintro rfl; simp⟩
  obtain ⟨hmod, hdiv⟩ := Nat.add_eq_zero_iff.1 h
  rw [← Nat.mod_add_div s (b + 1), hmod, hdiv, Nat.mul_zero]

theorem Folded.carry (h : Folded b (s % (b + 1) + s / (b + 1)) r) : Folded b s r :=
  ⟨h.le, h.mod.trans (carry_modEq b s), h.zero.trans carry_eq_zero⟩

theorem Folded.add (h : Folded b s r) (hw : w ≤ b) : Folded b (s + w) (carryAdd b r w) := by
  refine ⟨?_, (carry_modEq b (r + w)).trans (h.mod.add_right w), carry_eq_zero.trans ?_⟩
  · have hle := h.le
    rcases Nat.lt_or_ge (r + w) (b + 1) with hlt | hge
    · rw [carryAdd, Nat.mod_eq_of_lt hlt, Nat.div_eq_of_lt hlt]
      omega
    have hdiv : (r + w) / (b + 1) = 1 := Nat.div_eq_of_lt_le (by omega) (by omega)
    rw [carryAdd, hdiv, Nat.mod_eq_sub_mod hge, Nat.mod_eq_of_lt (by omega)]
    omega
  · rw [Nat.add_eq_zero_iff, Nat.add_eq_zero_iff, h.zero]

theorem Folded.foldl (h : Folded b s r) (ws : List ℕ) (hws : ∀ w ∈ ws, w ≤ b) :
    Folded b (s + ws.sum) (ws.foldl (carryAdd b) r) := by
  induction ws generalizing s r with
  | nil => exact h
  | cons w ws ih =>
    rw [List.sum_cons, ← add_assoc]
    exact ih (h.add (hws w List.mem_cons_self)) fun v hv ↦ hws v (List.mem_cons_of_mem w hv)

end NexusOS.Lib
