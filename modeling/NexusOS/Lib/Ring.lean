import Mathlib.Tactic

namespace NexusOS.Lib

variable {α : Type*}

/-- The contents of a ring of `depth` cells, oldest first. -/
def ringView (depth : ℕ) (cell : ℕ → α) (head count : ℕ) : List α :=
  (List.range count).map fun i ↦ cell ((head + i) % depth)

variable {depth head count : ℕ} {cell cell' : ℕ → α}

@[simp]
theorem length_ringView : (ringView depth cell head count).length = count := by
  simp [ringView]

@[simp]
theorem ringView_zero : ringView depth cell head 0 = [] := rfl

theorem ringView_congr (h : ∀ i < count, cell' ((head + i) % depth) = cell ((head + i) % depth)) :
    ringView depth cell' head count = ringView depth cell head count :=
  List.map_congr_left fun i hi ↦ h i (List.mem_range.mp hi)

theorem add_mod_ne {i j : ℕ} (hij : i < j) (hj : j < depth) :
    (head + i) % depth ≠ (head + j) % depth := by
  intro h
  have hmod : i % depth = j % depth := Nat.ModEq.add_left_cancel' head h
  rw [Nat.mod_eq_of_lt (hij.trans hj), Nat.mod_eq_of_lt hj] at hmod
  omega

theorem ringView_push (x : α) (hlt : count < depth) :
    ringView depth (Function.update cell ((head + count) % depth) x) head (count + 1) =
      ringView depth cell head count ++ [x] := by
  have hold : ringView depth (Function.update cell ((head + count) % depth) x) head count =
      ringView depth cell head count :=
    ringView_congr fun i hi ↦ Function.update_of_ne (add_mod_ne hi hlt) x cell
  rw [ringView, List.range_succ, List.map_append, List.map_singleton, Function.update_self]
  exact congrArg (· ++ [x]) hold

theorem ringView_pop :
    ringView depth cell head (count + 1) =
      cell (head % depth) :: ringView depth cell ((head + 1) % depth) count := by
  rw [ringView, List.range_succ_eq_map, List.map_cons, List.map_map]
  refine congrArg₂ List.cons rfl (List.map_congr_left fun i _ ↦ ?_)
  have : (head + 1) % depth + i ≡ head + (i + 1) [MOD depth] :=
    ((Nat.mod_modEq (head + 1) depth).add_right i).trans (by rw [add_assoc, add_comm 1 i])
  exact congrArg cell this.symm

/-- The cycle bit of the `n`-th entry that is written to a ring: it changes with every lap. -/
def lap (depth n : ℕ) : Bool := n / depth % 2 = 0

end NexusOS.Lib
