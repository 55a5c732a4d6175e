import Mathlib

namespace NexusOS.Lib

universe u

variable {ε : Type u} {α β : Type u} {allowed : ε → Prop} {x : Except ε α} {f : α → Except ε β}
  {P Q : α → Prop} {R : β → Prop}

/-- The computation fails in an allowed way only, and every result it gives has the property. -/
def Ensures (allowed : ε → Prop) (x : Except ε α) (Q : α → Prop) : Prop :=
  match x with
  | .ok a => Q a
  | .error e => allowed e

theorem ok_bind (a : α) (f : α → Except ε β) : ((.ok a : Except ε α) >>= f) = f a := rfl

theorem pure_eq_ok (a : α) : (pure a : Except ε α) = .ok a := rfl

theorem Ensures.ok {a : α} (h : Q a) : Ensures allowed (.ok a : Except ε α) Q := h

theorem Ensures.error {e : ε} (h : allowed e) : Ensures allowed (.error e : Except ε α) Q := h

theorem Ensures.bind (hx : Ensures allowed x P) (hf : ∀ a, P a → Ensures allowed (f a) R) :
    Ensures allowed (x >>= f) R := by
  cases x with
  | ok a => exact hf a hx
  | error e => exact hx

theorem Ensures.result {a : α} (hx : Ensures allowed x Q) (h : x = .ok a) : Q a := by
  subst h
  exact hx

theorem Ensures.failure {e : ε} (hx : Ensures allowed x Q) (h : x = .error e) : allowed e := by
  subst h
  exact hx

theorem Ensures.mono (hx : Ensures allowed x P) (h : ∀ a, P a → Q a) : Ensures allowed x Q := by
  cases x with
  | ok a => exact h a hx
  | error e => exact hx

-- From here on the rules alone speak of the outcome: no unifier evaluates a condition.
attribute [irreducible] Ensures

theorem Ensures.ite {c : Prop} [Decidable c] {y : Except ε α} (hx : c → Ensures allowed x Q)
    (hy : ¬ c → Ensures allowed y Q) : Ensures allowed (if c then x else y) Q := by
  split_ifs with h
  · exact hx h
  · exact hy h

theorem Ensures.foldlM {g : α → β → Except ε α} {I : List β → α → Prop} {bs : List β} {a : α}
    (h0 : I [] a) (hstep : ∀ before b after a, bs = before ++ b :: after → I before a →
      Ensures allowed (g a b) (I (before ++ [b]))) : Ensures allowed (bs.foldlM g a) (I bs) := by
  have hrun : ∀ after before a, bs = before ++ after → I before a →
      Ensures allowed (after.foldlM g a) (I bs) := by
    intro after
    induction after with
    | nil =>
      intro before a hbs ha
      rw [List.append_nil] at hbs
      exact .ok (hbs ▸ ha)
    | cons b after ih =>
      intro before a hbs ha
      rw [List.foldlM_cons]
      refine (hstep before b after a hbs ha).bind ?_
      intro a' ha'
      exact ih (before ++ [b]) a' (by rw [hbs, List.append_assoc, List.singleton_append]) ha'
  exact hrun bs [] a rfl h0

end NexusOS.Lib
