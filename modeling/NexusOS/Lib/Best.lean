import Mathlib

namespace NexusOS.Lib

variable {α : Type*} (p : α → Bool) (key : α → ℕ)

/-- One round of a search for the largest key: `a` replaces a smaller best. -/
def keepBest (best : Option α) (a : α) : Option α :=
  if p a ∧ ∀ b ∈ best, key b < key a then some a else best

structure IsBest (l : List α) (b : α) : Prop where
  mem : b ∈ l
  qualifies : p b = true
  le : ∀ a ∈ l, p a = true → key a ≤ key b

variable {p key} {l : List α} {best : Option α}

theorem IsBest.snoc {a b : α} (h : IsBest p key l b) (ha : p a = true → key a ≤ key b) :
    IsBest p key (l ++ [a]) b := by
  refine ⟨List.mem_append_left _ h.mem, h.qualifies, ?_⟩
  intro c hc hpc
  rcases List.mem_append.1 hc with hc | hc
  · exact h.le c hc hpc
  rw [List.mem_singleton.1 hc] at hpc ⊢
  exact ha hpc

variable (p key) in
theorem foldl_keepBest (l : List α) :
    (l.foldl (keepBest p key) none = none ∧ ∀ a ∈ l, p a = false) ∨
      ∃ b, l.foldl (keepBest p key) none = some b ∧ IsBest p key l b := by
  induction l using List.reverseRecOn with
  | nil => exact .inl ⟨rfl, by simp⟩
  | append_singleton l a ih =>
    rw [List.foldl_append, List.foldl_cons, List.foldl_nil]
    rcases ih with ⟨hnone, hall⟩ | ⟨b, hb, hbest⟩
    · rw [hnone]
      by_cases ha : p a = true
      · refine .inr ⟨a, by simp [keepBest, ha], by simp, ha, ?_⟩
        intro c hc hpc
        rcases List.mem_append.1 hc with hc | hc
        · rw [hall c hc] at hpc
          cases hpc
        · rw [List.mem_singleton.1 hc]
      refine .inl ⟨by simp [keepBest, ha], ?_⟩
      intro c hc
      rcases List.mem_append.1 hc with hc | hc
      · exact hall c hc
      rw [List.mem_singleton.1 hc]
      simpa using ha
    · rw [hb]
      by_cases ha : p a = true ∧ key b < key a
      · refine .inr ⟨a, by simp [keepBest, ha], by simp, ha.1, ?_⟩
        intro c hc hpc
        rcases List.mem_append.1 hc with hc | hc
        · exact (hbest.le c hc hpc).trans ha.2.le
        · rw [List.mem_singleton.1 hc]
      have hkeep : keepBest p key (some b) a = some b := if_neg (by simpa using ha)
      refine .inr ⟨b, hkeep, hbest.snoc ?_⟩
      intro hpa
      exact Nat.le_of_not_lt fun hlt ↦ ha ⟨hpa, hlt⟩

end NexusOS.Lib
