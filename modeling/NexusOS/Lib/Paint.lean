import Mathlib.Logic.Function.Basic
import Mathlib.Tactic

namespace NexusOS.Lib

variable {P V : Type*} {f : V → V} {R R' : P → Prop} {step step' : (P → V) → P → V}

/-- A change of a picture that applies `f` to the values at the points of `R`, and to no other
ones. -/
def Paints (f : V → V) (R : P → Prop) (step : (P → V) → P → V) : Prop :=
  ∀ pic p, (R p → step pic p = f (pic p)) ∧ (¬ R p → step pic p = pic p)

theorem Paints.congr (h : Paints f R step) (hR : ∀ p, R p ↔ R' p) : Paints f R' step :=
  fun pic p ↦ ⟨fun hp ↦ (h pic p).1 ((hR p).2 hp), fun hp ↦ (h pic p).2 fun hq ↦ hp ((hR p).1 hq)⟩

theorem Paints.nothing (hR : ∀ p, ¬ R p) : Paints f R fun pic ↦ pic :=
  fun _ p ↦ ⟨fun hp ↦ absurd hp (hR p), fun _ ↦ rfl⟩

theorem Paints.point [DecidableEq P] (q : P) :
    Paints f (· = q) fun pic ↦ Function.update pic q (f (pic q)) := by
  refine fun pic p ↦ ⟨?_, fun hne ↦ Function.update_of_ne hne _ _⟩
  rintro rfl
  exact Function.update_self ..

theorem Paints.foldl {S : ℕ → P → Prop} {steps : ℕ → (P → V) → P → V} {count : ℕ}
    (h : ∀ n < count, Paints f (S n) (steps n)) (hdisjoint : ∀ m n p, S m p → S n p → m = n) :
    Paints f (fun p ↦ ∃ n < count, S n p) fun pic ↦
      (List.range count).foldl (fun pic n ↦ steps n pic) pic := by
  induction count with
  | zero => exact .nothing fun p ⟨n, hn, _⟩ ↦ absurd hn (Nat.not_lt_zero n)
  | succ count ih =>
    intro pic p
    obtain ⟨hin, hout⟩ := ih (fun n hn ↦ h n (Nat.lt_succ_of_lt hn)) pic p
    have hnew := h count (Nat.lt_succ_self count)
    dsimp only at hin hout ⊢
    rw [List.range_succ, List.foldl_concat]
    by_cases hlast : S count p
    · refine ⟨fun _ ↦ ?_, fun hp ↦ absurd ⟨count, Nat.lt_succ_self _, hlast⟩ hp⟩
      rw [(hnew _ p).1 hlast, hout]
      rintro ⟨n, hn, hs⟩
      exact hn.ne (hdisjoint n count p hs hlast)
    rw [(hnew _ p).2 hlast]
    refine ⟨fun ⟨n, hn, hs⟩ ↦ hin ⟨n, ?_, hs⟩, fun hp ↦ hout fun ⟨n, hn, hs⟩ ↦ ?_⟩
    · have hne : n ≠ count := fun heq ↦ hlast (heq ▸ hs)
      omega
    · exact hp ⟨n, Nat.lt_succ_of_lt hn, hs⟩

theorem Paints.eq (h : Paints f R step) (h' : Paints f R step') : step = step' := by
  funext pic p
  by_cases hp : R p
  · rw [(h pic p).1 hp, (h' pic p).1 hp]
  · rw [(h pic p).2 hp, (h' pic p).2 hp]

theorem Paints.unique (hf : ∃ v, f v ≠ v) (h : Paints f R step) (h' : Paints f R' step) (p : P) :
    R p ↔ R' p := by
  obtain ⟨v, hv⟩ := hf
  constructor
  · intro hp
    by_contra hp'
    exact hv (((h (fun _ ↦ v) p).1 hp).symm.trans ((h' (fun _ ↦ v) p).2 hp'))
  intro hp'
  by_contra hp
  exact hv (((h' (fun _ ↦ v) p).1 hp').symm.trans ((h (fun _ ↦ v) p).2 hp))

end NexusOS.Lib
