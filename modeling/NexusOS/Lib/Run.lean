import Mathlib.Data.List.Basic

namespace NexusOS.Lib

variable {σ Op : Type*} (step : σ → Op → σ)

/-- Every operation of a run meets `P` in the state it is issued in. -/
def Along (P : σ → Op → Prop) : σ → List Op → Prop
  | _, [] => True
  | s, op :: ops => P s op ∧ Along P (step s op) ops

instance Along.decidable (P : σ → Op → Prop) [∀ s op, Decidable (P s op)] :
    (s : σ) → (ops : List Op) → Decidable (Along step P s ops)
  | _, [] => .isTrue trivial
  | s, op :: ops =>
    have := Along.decidable P (step s op) ops
    inferInstanceAs (Decidable (P s op ∧ Along step P (step s op) ops))

variable {step}

theorem Along.of_forall {P : σ → Op → Prop} (h : ∀ s op, P s op) (s : σ) (ops : List Op) :
    Along step P s ops := by
  induction ops generalizing s with
  | nil => trivial
  | cons op ops ih => exact ⟨h s op, ih _⟩

theorem Along.and {P Q : σ → Op → Prop} {s : σ} {ops : List Op} (hp : Along step P s ops)
    (hq : Along step Q s ops) : Along step (fun s op ↦ P s op ∧ Q s op) s ops := by
  induction ops generalizing s with
  | nil => trivial
  | cons op ops ih => exact ⟨⟨hp.1, hq.1⟩, ih hp.2 hq.2⟩

theorem Along.invariant {P : σ → Op → Prop} {I : σ → Prop}
    (hstep : ∀ s op, I s → P s op → I (step s op)) {s : σ} {ops : List Op}
    (hs : I s) (hr : Along step P s ops) : I (ops.foldl step s) := by
  induction ops generalizing s with
  | nil => exact hs
  | cons op ops ih => exact ih (hstep s op hs hr.1) hr.2

theorem Along.congr {P Q : σ → Op → Prop} {I : σ → Prop}
    (hstep : ∀ s op, I s → P s op → I (step s op)) (hiff : ∀ s op, I s → (Q s op ↔ P s op))
    {s : σ} (hs : I s) (ops : List Op) : Along step Q s ops ↔ Along step P s ops := by
  induction ops generalizing s with
  | nil => exact Iff.rfl
  | cons op ops ih =>
    simp only [Along]
    rw [hiff s op hs]
    exact and_congr_right fun hp ↦ ih (hstep s op hs hp)

/-- A property that holds at first holds all along a run if and only if every step meets the
condition under which it is kept. -/
theorem Along.throughout_iff {I P : σ → Prop} {W Q : σ → Op → Prop}
    (hI : ∀ s op, I s → P s → W s op → Q s op → I (step s op))
    (hiff : ∀ s op, I s → P s → W s op → (P (step s op) ↔ Q s op)) {s : σ} (hs : I s) (hP : P s)
    {ops : List Op} (hW : Along step W s ops) :
    (∀ n, P ((ops.take n).foldl step s)) ↔ Along step Q s ops := by
  induction ops generalizing s with
  | nil => simpa [Along] using hP
  | cons op ops ih =>
    have hsplit : (∀ n, P (((op :: ops).take n).foldl step s)) ↔
        ∀ n, P ((ops.take n).foldl step (step s op)) := by
      constructor
      · intro h n
        exact h (n + 1)
      intro h n
      cases n with
      | zero => exact hP
      | succ n => exact h n
    rw [hsplit]
    constructor
    · intro h
      have hQ := (hiff s op hs hP hW.1).1 (h 0)
      exact ⟨hQ, (ih (hI s op hs hP hW.1 hQ) (h 0) hW.2).1 h⟩
    · rintro ⟨hQ, hrest⟩
      exact (ih (hI s op hs hP hW.1 hQ) ((hiff s op hs hP hW.1).2 hQ) hW.2).2 hrest

theorem foldl_invariant {I : σ → Prop} (hstep : ∀ s op, I s → I (step s op))
    {s : σ} (hs : I s) (ops : List Op) : I (ops.foldl step s) := by
  induction ops generalizing s with
  | nil => exact hs
  | cons op ops ih => exact ih (hstep s op hs)

theorem foldlM_refines {τ : Type*} {f : σ → Op → Option σ} {g : τ → Op → τ} {R : σ → τ → Prop}
    (hstep : ∀ s t op, R s t → ∃ s', f s op = some s' ∧ R s' (g t op)) {s : σ} {t : τ} (h : R s t)
    (ops : List Op) : ∃ s', ops.foldlM f s = some s' ∧ R s' (ops.foldl g t) := by
  induction ops generalizing s t with
  | nil => exact ⟨s, rfl, h⟩
  | cons op ops ih =>
    obtain ⟨s', hs', hR⟩ := hstep s t op h
    obtain ⟨r, hr, hfinal⟩ := ih hR
    refine ⟨r, ?_, hfinal⟩
    rw [List.foldlM_cons, hs']
    exact hr

end NexusOS.Lib
