import Mathlib.Logic.Relation
import NexusOS.Lib.Links

namespace NexusOS.Lib

open Relation

variable {α : Type*} {parent parent' : α → Option α} {i n q r : α}

/-- Following the parents from `i` leads to `r`. -/
def Climbs (parent : α → Option α) (i r : α) : Prop :=
  ReflTransGen (fun x y ↦ parent x = some y) i r

theorem Climbs.step (h : parent i = some q) (hq : Climbs parent q r) : Climbs parent i r :=
  ReflTransGen.head h hq

section

variable (h : Climbs parent i r)
include h

theorem Climbs.congr (hn : ¬ Climbs parent i n)
    (heq : ∀ x, x ≠ n → parent' x = parent x) : Climbs parent' i r := by
  induction h using ReflTransGen.head_induction_on with
  | refl => exact ReflTransGen.refl
  | head hab hbr ih =>
    rename_i a b
    have han : a ≠ n := by
      rintro rfl
      exact hn ReflTransGen.refl
    exact Climbs.step ((heq a han).trans hab) (ih fun hb ↦ hn (Climbs.step hab hb))

theorem Climbs.redirect (hq : Climbs parent q r)
    (hqn : ¬ Climbs parent q n) (hn : parent' n = some q)
    (heq : ∀ x, x ≠ n → parent' x = parent x) : Climbs parent' i r := by
  induction h using ReflTransGen.head_induction_on with
  | refl => exact ReflTransGen.refl
  | head hab hbr ih =>
    rename_i a b
    by_cases han : a = n
    · subst han
      exact Climbs.step hn (hq.congr hqn heq)
    · exact Climbs.step ((heq a han).trans hab) ih

theorem Climbs.seg (hr : parent r = none) :
    ∃ l, Seg parent (some i) l none ∧ ∀ x, x ∈ l ↔ Climbs parent i x := by
  induction h using ReflTransGen.head_induction_on with
  | refl =>
    refine ⟨[r], ⟨rfl, hr⟩, fun x ↦ ⟨fun hx ↦ ?_, fun hx ↦ ?_⟩⟩
    · rw [List.mem_singleton.1 hx]
      exact ReflTransGen.refl
    rcases ReflTransGen.cases_head hx with rfl | ⟨y, hy, -⟩
    · exact List.mem_singleton_self _
    · simp [hr] at hy
  | head hab hbr ih =>
    rename_i a b
    obtain ⟨l, hl, hmem⟩ := ih
    refine ⟨a :: l, ⟨rfl, hab.symm ▸ hl⟩, fun x ↦ ?_⟩
    rw [List.mem_cons, hmem]
    constructor
    · rintro (rfl | hx)
      · exact ReflTransGen.refl
      · exact Climbs.step hab hx
    intro hx
    rcases ReflTransGen.cases_head hx with rfl | ⟨y, hy, hyx⟩
    · exact .inl rfl
    obtain rfl : b = y := Option.some.inj (hab.symm.trans hy)
    exact .inr hyx

theorem Climbs.eq_of_loop (hi : parent i = some i) : r = i := by
  induction h with
  | refl => rfl
  | tail _ hbc ih =>
    subst ih
    exact Option.some.inj (hbc.symm.trans hi)

end

end NexusOS.Lib
