import Mathlib.Data.List.TakeWhile
import Mathlib.Logic.Function.Basic

namespace NexusOS.Lib

variable {α : Type*}

/-- An array, of a size that its stores do not know of, with the indices used on it so far. -/
structure Buffer (α : Type*) where
  cell : ℕ → α
  used : List ℕ

namespace Buffer

def store (b : Buffer α) (n : ℕ) (x : α) : Buffer α := ⟨Function.update b.cell n x, n :: b.used⟩

/-- `while (*src && n < limit) b[n++] = *src++`, with the index it stops at. -/
def fill (limit : ℕ) : Buffer α → ℕ → List α → Buffer α × ℕ
  | b, n, [] => (b, n)
  | b, n, x :: src => if n < limit then fill limit (b.store n x) (n + 1) src else (b, n)

def load (b : Buffer α) (n : ℕ) : Buffer α := ⟨b.cell, n :: b.used⟩

/-- `for (i = 0; i < k; i++) ... b[n + i]`. -/
def loads (b : Buffer α) (n k : ℕ) : Buffer α := ⟨b.cell, (List.range k).map (n + ·) ++ b.used⟩

/-- `while (b[n] != z && n < limit) n++` with `k` cells before the limit, and the index it stops
at. -/
def scan [DecidableEq α] (z : α) : ℕ → Buffer α → ℕ → Buffer α × ℕ
  | 0, b, n => (b.load n, n)
  | k + 1, b, n => if b.cell n = z then (b.load n, n) else scan z k (b.load n) (n + 1)

/-- Every index used is one of an array of `m` cells. -/
def Within (b : Buffer α) (m : ℕ) : Prop := ∀ i ∈ b.used, i < m

instance (b : Buffer α) (m : ℕ) : Decidable (b.Within m) :=
  inferInstanceAs (Decidable (∀ i ∈ b.used, i < m))

def string [DecidableEq α] (b : Buffer α) (z : α) (m : ℕ) : List α :=
  ((List.range m).map b.cell).takeWhile (· ≠ z)

def Begins (b : Buffer α) (s : List α) : Prop := ∀ i (h : i < s.length), b.cell i = s[i]

/-- The string `s` with its terminator. -/
structure Holds (b : Buffer α) (z : α) (s : List α) : Prop where
  begins : b.Begins s
  ends : b.cell s.length = z

variable {b : Buffer α} {n m limit : ℕ} {x z : α} {s src : List α} {r : Buffer α × ℕ}

theorem store_within : (b.store n x).Within m ↔ n < m ∧ b.Within m := by
  simp [Within, store]

theorem Begins.take (h : b.Begins s) (n : ℕ) : b.Begins (s.take n) := by
  intro i hi
  rw [List.length_take] at hi
  rw [List.getElem_take]
  exact h i (by omega)

theorem Begins.snoc (h : b.Begins s) (x : α) : (b.store s.length x).Begins (s ++ [x]) := by
  intro i hi
  rw [List.length_append, List.length_singleton] at hi
  by_cases heq : i = s.length
  · subst heq
    simp [store]
  have hlt : i < s.length := by omega
  rw [List.getElem_append_left hlt, ← h i hlt]
  simp [store, heq]

theorem Begins.terminate (h : b.Begins s) (hn : n = s.length) (z : α) :
    (b.store n z).Holds z s := by
  subst hn
  refine ⟨fun i hi ↦ ?_, by simp [store]⟩
  rw [← h i hi]
  simp [store, hi.ne]

theorem Holds.string [DecidableEq α] (h : b.Holds z s) (hs : z ∉ s) (hm : s.length < m) :
    b.string z m = s := by
  obtain ⟨k, rfl⟩ : ∃ k, m = s.length + (1 + k) := ⟨m - s.length - 1, by omega⟩
  have hfirst : (List.range s.length).map b.cell = s := by
    apply List.ext_getElem
    · simp
    intro i hi hi'
    rw [List.getElem_map, List.getElem_range]
    exact h.begins i hi'
  have hkeep : ∀ c ∈ s, decide (c ≠ z) = true := by
    intro c hc
    rw [decide_eq_true_eq]
    intro heq
    exact hs (heq ▸ hc)
  rw [Buffer.string, List.range_add, List.map_append, hfirst, List.takeWhile_append_of_pos hkeep,
    Nat.add_comm 1 k, List.range_succ_eq_map, List.map_cons, List.map_cons, Nat.add_zero, h.ends,
    List.takeWhile_cons_of_neg (by simp), List.append_nil]

/-- A buffer being filled from its start, with the index of the next store: the cells before it
are `s`. -/
structure Filled (m : ℕ) (r : Buffer α × ℕ) (s : List α) : Prop where
  pos : r.2 = s.length
  begins : r.1.Begins s
  within : r.1.Within m

theorem Filled.start (h : b.Within m) : Filled m (b, 0) [] :=
  ⟨rfl, fun i hi ↦ absurd hi (Nat.not_lt_zero i), h⟩

section

variable (h : Filled m r s)
include h

theorem Filled.store (hs : s.length < m) (x : α) :
    Filled m (r.1.store r.2 x, r.2 + 1) (s ++ [x]) := by
  refine ⟨by simp [h.pos], ?_, store_within.2 ⟨h.pos ▸ hs, h.within⟩⟩
  rw [h.pos]
  exact h.begins.snoc x

theorem Filled.fill (hlimit : limit ≤ m) (src : List α) :
    Filled m (fill limit r.1 r.2 src) (s ++ src.take (limit - s.length)) := by
  induction src generalizing r s with
  | nil =>
    rw [List.take_nil, List.append_nil]
    exact h
  | cons x src ih =>
    have hpos := h.pos
    rw [Buffer.fill]
    split
    · rename_i hlt
      have hnext := ih (h.store (by omega) x)
      have hroom : limit - s.length = (limit - (s ++ [x]).length) + 1 := by
        rw [List.length_append, List.length_singleton]
        omega
      rw [hroom, List.take_succ_cons]
      simpa using hnext
    rename_i hlt
    have hroom : limit - s.length = 0 := by omega
    rw [hroom, List.take_zero, List.append_nil]
    exact h

theorem Filled.terminate (z : α) : (r.1.store r.2 z).Holds z s :=
  h.begins.terminate h.pos z

theorem Filled.terminate_within (z : α) : (r.1.store r.2 z).Within m ↔ s.length < m := by
  rw [store_within, h.pos]
  exact ⟨And.left, fun hs ↦ ⟨hs, h.within⟩⟩

end

section Anywhere

theorem load_within : (b.load n).Within m ↔ n < m ∧ b.Within m := by
  simp [Within, load]

theorem loads_within {k : ℕ} (h : b.Within m) (hk : k = 0 ∨ n + k ≤ m) :
    (b.loads n k).Within m := by
  intro i hi
  rcases List.mem_append.1 hi with hi | hi
  · obtain ⟨j, hj, rfl⟩ := List.mem_map.1 hi
    have := List.mem_range.1 hj
    omega
  · exact h i hi

theorem fill_pos (limit : ℕ) (b : Buffer α) (n : ℕ) (src : List α) :
    (fill limit b n src).2 = n + min src.length (limit - n) := by
  induction src generalizing b n with
  | nil => simp [fill]
  | cons x src ih =>
    rw [fill]
    split
    · rw [ih, List.length_cons]
      omega
    rw [List.length_cons]
    omega

theorem fill_cell (limit : ℕ) (b : Buffer α) (n : ℕ) (src : List α) (i : ℕ) :
    (fill limit b n src).1.cell i =
      if n ≤ i ∧ i < limit then src[i - n]?.getD (b.cell i) else b.cell i := by
  induction src generalizing b n with
  | nil => simp [fill]
  | cons x src ih =>
    rw [fill]
    split
    · rw [ih]
      rcases Nat.lt_trichotomy i n with hlt | rfl | hlt
      · rw [if_neg (by omega), if_neg (by omega)]
        simp [store, hlt.ne]
      · rw [if_neg (by omega), if_pos (by omega)]
        simp [store]
      rw [show i - n = i - (n + 1) + 1 by omega, List.getElem?_cons_succ]
      simp [store, hlt.ne', Nat.succ_le_of_lt hlt, hlt.le]
    · rw [if_neg (by omega)]

theorem fill_store_cell (limit : ℕ) (b : Buffer α) (n : ℕ) (src : List α) (z : α) (i : ℕ) :
    ((fill limit b n src).1.store (fill limit b n src).2 z).cell i =
      if n ≤ i ∧ i < n + min src.length (limit - n) then src[i - n]?.getD z
      else if i = n + min src.length (limit - n) then z else b.cell i := by
  rw [fill_pos]
  refine (Function.update_apply ..).trans ?_
  rw [fill_cell]
  rcases Nat.lt_trichotomy i (n + min src.length (limit - n)) with hlt | heq | hlt
  · rw [if_neg hlt.ne]
    by_cases hle : n ≤ i
    · rw [if_pos (by omega), if_pos ⟨hle, hlt⟩, List.getElem?_eq_getElem (by omega)]
      rfl
    · rw [if_neg (by omega), if_neg (by omega), if_neg hlt.ne]
  · rw [if_pos heq, if_neg (by omega), if_pos heq]
  have hout : ¬(n ≤ i ∧ i < n + min src.length (limit - n)) := by omega
  rw [if_neg hlt.ne', if_neg hout, if_neg hlt.ne']
  split_ifs
  · rw [List.getElem?_eq_none (by omega)]
    rfl
  · rfl

theorem scan_cell [DecidableEq α] (z : α) (k : ℕ) (b : Buffer α) (n : ℕ) :
    (scan z k b n).1.cell = b.cell := by
  induction k generalizing b n with
  | zero => rfl
  | succ k ih =>
    rw [scan]
    split
    · rfl
    · exact ih _ _

theorem Holds.scan [DecidableEq α] (h : b.Holds z s) (hs : z ∉ s) {k : ℕ} (hn : n ≤ s.length)
    (hk : s.length ≤ n + k) : (scan z k b n).2 = s.length := by
  induction k generalizing b n with
  | zero => exact Nat.le_antisymm hn hk
  | succ k ih =>
    rw [Buffer.scan]
    by_cases heq : n = s.length
    · rw [if_pos (heq ▸ h.ends)]
      exact heq
    have hlt : n < s.length := by omega
    have hne : b.cell n ≠ z := by
      rw [h.begins n hlt]
      exact fun hz ↦ hs (hz ▸ List.getElem_mem hlt)
    rw [if_neg hne]
    exact ih ⟨h.begins, h.ends⟩ hlt (by omega)

theorem fill_within (h : b.Within m) (hm : n + min src.length (limit - n) ≤ m) :
    (fill limit b n src).1.Within m := by
  induction src generalizing b n with
  | nil => exact h
  | cons x src ih =>
    rw [fill]
    split
    · rename_i hlt
      rw [List.length_cons] at hm
      exact ih (store_within.2 ⟨by omega, h⟩) (by omega)
    · exact h

theorem scan_within [DecidableEq α] {k : ℕ} (h : b.Within m) (hm : n + k < m) :
    (scan z k b n).1.Within m := by
  induction k generalizing b n with
  | zero => exact load_within.2 ⟨by omega, h⟩
  | succ k ih =>
    rw [scan]
    split
    · exact load_within.2 ⟨by omega, h⟩
    · exact ih (load_within.2 ⟨by omega, h⟩) (by omega)

theorem scan_within_of_stop [DecidableEq α] {k j : ℕ} (h : b.Within m) (hz : b.cell j = z)
    (hn : n ≤ j) (hj : j < m) : (scan z k b n).1.Within m := by
  induction k generalizing b n with
  | zero => exact load_within.2 ⟨by omega, h⟩
  | succ k ih =>
    rw [scan]
    split
    · exact load_within.2 ⟨by omega, h⟩
    rename_i hne
    have hlt : n < j := by
      rcases Nat.lt_or_eq_of_le hn with hlt | rfl
      · exact hlt
      · exact absurd hz hne
    exact ih (load_within.2 ⟨by omega, h⟩) hz hlt

end Anywhere

end Buffer

end NexusOS.Lib
