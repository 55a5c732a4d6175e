import Mathlib

namespace NexusOS.Lib

section Slices

variable {α : Type*} {l d : List α} {a b i k n : ℕ}

def slice (l : List α) (i n : ℕ) : List α := (l.drop i).take n

/-- The list with `d` in place of what stands at position `i`. -/
def overwrite (l : List α) (i : ℕ) (d : List α) : List α := l.take i ++ d ++ l.drop (i + d.length)

theorem getElem?_slice : (slice l i n)[k]? = if k < n then l[i + k]? else none := by
  rw [slice, List.getElem?_take, List.getElem?_drop]

theorem length_slice (h : i + n ≤ l.length) : (slice l i n).length = n := by
  rw [slice, List.length_take, List.length_drop]
  omega

theorem slice_zero_length : slice l 0 l.length = l := by
  rw [slice, List.drop_zero, List.take_length]

theorem slice_append_left (h : i + n ≤ l.length) : slice (l ++ d) i n = slice l i n := by
  rw [slice, slice, List.drop_append_of_le_length (by omega), List.take_append_of_le_length]
  rw [List.length_drop]
  omega

theorem slice_append_right (h : l.length ≤ i) : slice (l ++ d) i n = slice d (i - l.length) n := by
  rw [slice, slice, List.drop_append, List.drop_eq_nil_of_le h, List.nil_append]

theorem slice_replicate (x : α) (h : i + n ≤ k) :
    slice (List.replicate k x) i n = List.replicate n x := by
  rw [slice, List.drop_replicate, List.take_replicate]
  congr 1
  omega

section

variable (h : i + d.length ≤ l.length)
include h

theorem length_overwrite : (overwrite l i d).length = l.length := by
  simp only [overwrite, List.length_append, List.length_take, List.length_drop]
  omega

theorem getElem?_overwrite :
    (overwrite l i d)[k]? = if i ≤ k ∧ k < i + d.length then d[k - i]? else l[k]? := by
  have htake : (l.take i).length = i := by
    rw [List.length_take]
    omega
  rw [overwrite, List.append_assoc, List.getElem?_append, htake]
  by_cases hk : k < i
  · rw [if_pos hk, if_neg (by omega), List.getElem?_take_of_lt hk]
  rw [if_neg hk, List.getElem?_append]
  by_cases hd : k - i < d.length
  · rw [if_pos hd, if_pos (by omega)]
  rw [if_neg hd, if_neg (by omega), List.getElem?_drop]
  congr 1
  omega

theorem slice_overwrite_of_disjoint
    (hd : a + n ≤ i ∨ i + d.length ≤ a) : slice (overwrite l i d) a n = slice l a n := by
  apply List.ext_getElem?
  intro k
  rw [getElem?_slice, getElem?_slice]
  split_ifs with hk
  · rw [getElem?_overwrite h, if_neg (by omega)]
  · rfl

theorem slice_overwrite_inside (hi : i ≤ a)
    (ha : a + n ≤ i + d.length) : slice (overwrite l i d) a n = slice d (a - i) n := by
  apply List.ext_getElem?
  intro k
  rw [getElem?_slice, getElem?_slice]
  split_ifs with hk
  · rw [getElem?_overwrite h, if_pos (by omega)]
    congr 1
    omega
  · rfl

theorem slice_overwrite_self (hn : d.length = n) : slice (overwrite l i d) i n = d := by
  subst hn
  rw [slice_overwrite_inside h le_rfl le_rfl, Nat.sub_self, slice_zero_length]

end

theorem slice_flatMap {β : Type*} {f : β → List α} {m : ℕ} {bs : List β}
    (hf : ∀ b ∈ bs, (f b).length = m) {j : ℕ} {b : β} (hj : bs[j]? = some b) :
    slice (bs.flatMap f) (j * m) m = f b := by
  induction bs generalizing j with
  | nil => cases hj
  | cons c bs ih =>
    have hc := hf c List.mem_cons_self
    rw [List.flatMap_cons]
    cases j with
    | zero =>
      obtain rfl : c = b := Option.some.inj hj
      rw [Nat.zero_mul, slice_append_left (by omega), ← hc, slice_zero_length]
    | succ j =>
      rw [slice_append_right (by rw [hc]; exact Nat.le_mul_of_pos_left m (Nat.succ_pos j)), hc,
        Nat.succ_mul, Nat.add_sub_cancel]
      exact ih (fun b hb ↦ hf b (List.mem_cons_of_mem c hb)) hj

/-- Pieces laid into a list one after another, each at its position. -/
def lay (l : List α) (fields : List (ℕ × List α)) : List α :=
  fields.foldl (fun l f ↦ overwrite l f.1 f.2) l

def Fit (n : ℕ) (fields : List (ℕ × List α)) : Prop := ∀ f ∈ fields, f.1 + f.2.length ≤ n

/-- No piece touches the `n` elements from position `a` on. -/
def Avoid (a n : ℕ) (fields : List (ℕ × List α)) : Prop :=
  ∀ f ∈ fields, a + n ≤ f.1 ∨ f.1 + f.2.length ≤ a

variable {fields : List (ℕ × List α)}

theorem lay_append (l : List α) (first second : List (ℕ × List α)) :
    lay l (first ++ second) = lay (lay l first) second := List.foldl_append

theorem take_lay (hl : a ≤ l.length) (h : ∀ f ∈ fields, a ≤ f.1) :
    (lay l fields).take a = l.take a := by
  induction fields generalizing l with
  | nil => rfl
  | cons f fields ih =>
    have hf := h f List.mem_cons_self
    have htake : (overwrite l f.1 f.2).take a = l.take a := by
      rw [overwrite, List.append_assoc, List.take_append_of_le_length, List.take_take,
        Nat.min_eq_left hf]
      rw [List.length_take]
      omega
    have hlen : a ≤ (overwrite l f.1 f.2).length := by
      rw [overwrite, List.append_assoc, List.length_append, List.length_take]
      omega
    rw [← htake]
    exact ih hlen fun g hg ↦ h g (List.mem_cons_of_mem f hg)

theorem length_lay (h : Fit l.length fields) : (lay l fields).length = l.length := by
  induction fields generalizing l with
  | nil => rfl
  | cons f fields ih =>
    have hlen := length_overwrite (h f List.mem_cons_self)
    rw [← hlen]
    exact ih fun g hg ↦ hlen.symm ▸ h g (List.mem_cons_of_mem f hg)

theorem slice_lay_of_avoid (h : Fit l.length fields) (ha : Avoid a n fields) :
    slice (lay l fields) a n = slice l a n := by
  induction fields generalizing l with
  | nil => rfl
  | cons f fields ih =>
    have hf := h f List.mem_cons_self
    rw [← slice_overwrite_of_disjoint hf (ha f List.mem_cons_self)]
    refine ih ?_ fun g hg ↦ ha g (List.mem_cons_of_mem f hg)
    rw [length_overwrite hf]
    exact fun g hg ↦ h g (List.mem_cons_of_mem f hg)

theorem slice_lay (j : ℕ) (h : Fit l.length fields) (hj : fields[j]? = some (i, d))
    (ha : Avoid i n (fields.drop (j + 1))) (hn : d.length = n) : slice (lay l fields) i n = d := by
  obtain ⟨hlt, hget⟩ := List.getElem?_eq_some_iff.1 hj
  have hfields : fields = fields.take j ++ (i, d) :: fields.drop (j + 1) := by
    rw [← hget, List.cons_getElem_drop_succ, List.take_append_drop]
  have hbefore : Fit l.length (fields.take j) := fun f hf ↦ h f (List.mem_of_mem_take hf)
  have hd : i + d.length ≤ (lay l (fields.take j)).length := by
    rw [length_lay hbefore]
    exact h (i, d) (hget ▸ List.getElem_mem hlt)
  have hafter : Fit (overwrite (lay l (fields.take j)) i d).length (fields.drop (j + 1)) := by
    rw [length_overwrite hd, length_lay hbefore]
    exact fun f hf ↦ h f (List.mem_of_mem_drop hf)
  have hsplit : lay l fields =
      lay (overwrite (lay l (fields.take j)) i d) (fields.drop (j + 1)) := by
    conv_lhs => rw [hfields, lay, List.foldl_append, List.foldl_cons]
    rfl
  rw [hsplit, slice_lay_of_avoid hafter ha, slice_overwrite_self hd hn]

theorem slice_lay_of_mem (h : Fit l.length fields)
    (hapart : fields.Pairwise fun f g ↦ f.1 + f.2.length ≤ g.1 ∨ g.1 + g.2.length ≤ f.1)
    (hmem : (i, d) ∈ fields) : slice (lay l fields) i d.length = d := by
  obtain ⟨j, hj⟩ := List.getElem?_of_mem hmem
  obtain ⟨hlt, hget⟩ := List.getElem?_eq_some_iff.1 hj
  refine slice_lay j h hj (fun f hf ↦ ?_) rfl
  obtain ⟨k, hk, rfl⟩ := List.mem_iff_getElem.1 hf
  rw [List.length_drop] at hk
  have hjk := List.pairwise_iff_getElem.1 hapart j (j + 1 + k) hlt (by omega) (by omega)
  rw [hget] at hjk
  rw [List.getElem_drop]
  exact hjk

def window (f : ℕ → α) (i n : ℕ) : List α := (List.range n).map fun k ↦ f (i + k)

@[simp]
theorem length_window (f : ℕ → α) (i n : ℕ) : (window f i n).length = n := by
  rw [window, List.length_map, List.length_range]

theorem window_congr {f g : ℕ → α} (h : ∀ k < n, f (a + k) = g (b + k)) :
    window f a n = window g b n :=
  List.map_congr_left fun k hk ↦ h k (List.mem_range.1 hk)

theorem window_add (f : ℕ → α) (i m n : ℕ) :
    window f i (m + n) = window f i m ++ window f (i + m) n := by
  rw [window, List.range_add, List.map_append, List.map_map]
  refine congrArg _ (List.map_congr_left fun k _ ↦ ?_)
  rw [Function.comp_apply, add_assoc]

theorem window_getD (x : α) (h : i + n ≤ l.length) :
    window (fun k ↦ l.getD k x) i n = slice l i n := by
  apply List.ext_getElem?
  intro k
  rw [window, getElem?_slice, List.getElem?_map]
  split_ifs with hk
  · rw [List.getElem?_range hk, Option.map_some, List.getD_eq_getElem _ _ (by omega),
      List.getElem?_eq_getElem (by omega)]
  · rw [List.getElem?_eq_none (by rw [List.length_range]; omega), Option.map_none]

/-- The buffer with `d` in place of what stands at position `i`. -/
def overlay (f : ℕ → α) (i : ℕ) (d : List α) : ℕ → α :=
  fun k ↦ if i ≤ k then d[k - i]?.getD (f k) else f k

theorem overlay_nil (f : ℕ → α) (i : ℕ) : overlay f i [] = f := by
  funext k
  simp [overlay]

theorem overlay_of_not_mem {f : ℕ → α} (h : k < i ∨ i + d.length ≤ k) : overlay f i d k = f k := by
  rw [overlay]
  split_ifs with hi
  · rw [List.getElem?_eq_none (by omega), Option.getD_none]
  · rfl

theorem overlay_add {f : ℕ → α} (h : k < d.length) : overlay f i d (i + k) = d[k] := by
  rw [overlay, if_pos (Nat.le_add_right i k), Nat.add_sub_cancel_left, List.getElem?_eq_getElem h,
    Option.getD_some]

theorem overlay_shift (f : ℕ → α) (b i : ℕ) (d : List α) :
    (fun k ↦ overlay f (b + i) d (b + k)) = overlay (fun k ↦ f (b + k)) i d := by
  funext k
  rw [overlay, overlay]
  by_cases h : i ≤ k
  · rw [if_pos (by omega), if_pos h, Nat.add_sub_add_left]
  · rw [if_neg (by omega), if_neg h]

theorem window_overlay_of_disjoint {f : ℕ → α} (h : a + n ≤ i ∨ i + d.length ≤ a) :
    window (overlay f i d) a n = window f a n :=
  window_congr fun k hk ↦ overlay_of_not_mem (by omega)

end Slices

section LittleEndian

variable {n x : ℕ}

/-- A number as `n` bytes, the lowest first. -/
def toLe : ℕ → ℕ → List UInt8
  | 0, _ => []
  | n + 1, x => UInt8.ofNat (x % 256) :: toLe n (x / 256)

def ofLe : List UInt8 → ℕ
  | [] => 0
  | b :: bs => b.toNat + 256 * ofLe bs

@[simp]
theorem length_toLe (n x : ℕ) : (toLe n x).length = n := by
  induction n generalizing x with
  | zero => rfl
  | succ n ih => rw [toLe, List.length_cons, ih]

theorem ofLe_toLe (h : x < 256 ^ n) : ofLe (toLe n x) = x := by
  induction n generalizing x with
  | zero =>
    rw [toLe, ofLe]
    omega
  | succ n ih =>
    rw [pow_succ] at h
    rw [toLe, ofLe, ih (by omega), UInt8.toNat_ofNat']
    omega

end LittleEndian

end NexusOS.Lib
