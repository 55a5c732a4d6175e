import Mathlib.Data.Fintype.Card
import Mathlib.Data.List.Nodup

namespace NexusOS.Lib

variable {α : Type*} {next next' : α → Option α} {p q : Option α} {l l' l₁ l₂ : List α} {a c x : α}

/-- Following `next` from `p` visits the elements of `l` and arrives at `q`. -/
def Seg (next : α → Option α) : Option α → List α → Option α → Prop
  | p, [], q => p = q
  | p, a :: l, q => p = some a ∧ Seg next (next a) l q

theorem seg_append :
    Seg next p (l₁ ++ l₂) q ↔ ∃ r, Seg next p l₁ r ∧ Seg next r l₂ q := by
  induction l₁ generalizing p with
  | nil => simp [Seg]
  | cons a l₁ ih => simp [Seg, ih, and_assoc]

theorem Seg.congr (h : Seg next p l q) (hn : ∀ a ∈ l, next' a = next a) : Seg next' p l q := by
  induction l generalizing p with
  | nil => exact h
  | cons a l ih =>
    refine ⟨h.1, ?_⟩
    rw [hn a List.mem_cons_self]
    exact ih h.2 fun b hb ↦ hn b (List.mem_cons_of_mem a hb)

section Ended

theorem Seg.unique (h : Seg next p l none) (h' : Seg next p l' none) : l = l' := by
  induction l generalizing p l' with
  | nil =>
    cases l' with
    | nil => rfl
    | cons b l' =>
      obtain rfl : p = none := h
      exact absurd h'.1 (by simp)
  | cons a l ih =>
    cases l' with
    | nil =>
      obtain rfl : p = none := h'
      exact absurd h.1 (by simp)
    | cons b l' =>
      obtain rfl : a = b := Option.some.inj (h.1.symm.trans h'.1)
      rw [ih h.2 h'.2]

theorem Seg.nodup (h : Seg next p l none) : l.Nodup := by
  induction l generalizing p with
  | nil => exact List.nodup_nil
  | cons a l ih =>
    refine List.nodup_cons.2 ⟨fun ha ↦ ?_, ih h.2⟩
    obtain ⟨s, t, rfl⟩ := List.append_of_mem ha
    obtain ⟨r, -, hr⟩ := seg_append.1 h.2
    have hp : Seg next p (a :: t) none := ⟨h.1, hr.2⟩
    have hl := congrArg List.length (h.unique hp)
    simp only [List.length_cons, List.length_append] at hl
    omega

/-- A loop that follows `next`, with at most `n` rounds, gives a result if the way is not longer. -/
theorem Seg.returns {ρ β : Type*} {f : ℕ → α → ρ → Option β}
    (hstep : ∀ n a r, f (n + 1) a r ≠ none ∨
      ∃ b r', next a = some b ∧ (f n b r' ≠ none → f (n + 1) a r ≠ none))
    (h : Seg next (some a) l none) {n : ℕ} (hn : l.length ≤ n) (r : ρ) : f n a r ≠ none := by
  induction l generalizing a n r with
  | nil => cases h
  | cons b l ih =>
    obtain rfl : a = b := Option.some.inj h.1
    obtain ⟨n, rfl⟩ : ∃ m, n = m + 1 := ⟨n - 1, by simp at hn; omega⟩
    obtain hdone | ⟨c, r', hnext, hrest⟩ := hstep n a r
    · exact hdone
    have htail := h.2
    rw [hnext] at htail
    exact hrest (ih htail (by simpa using hn) r')

theorem Seg.length_le [Fintype α] (h : Seg next p l none) : l.length ≤ Fintype.card α :=
  h.nodup.length_le_card

theorem Seg.snoc (h : Seg next p (l ++ [c]) none) (hl : ∀ a ∈ l, next' a = next a)
    (hc : next' c = some x) (hx : next' x = none) : Seg next' p (l ++ [c, x]) none := by
  obtain ⟨r, h₁, h₂⟩ := seg_append.1 h
  exact seg_append.2 ⟨r, h₁.congr hl, h₂.1, hc, hx⟩

end Ended

end NexusOS.Lib
