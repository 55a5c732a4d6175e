import NexusOS.Mm.PagingIsolation

namespace NexusOS.Mm.Paging

open Lib

variable {s s₁ s' : State} {pml4 cr3 va va' : ℕ} {l l' : List ℕ}

section Access

/-- The walk of an address ends at a page, and every level lets the user in. -/
def UserAccessible (s : State) (root va : ℕ) : Prop :=
  ∀ e ∈ trailOf s root va, present e = true ∧ user e = true

instance (s : State) (root va : ℕ) : Decidable (UserAccessible s root va) :=
  inferInstanceAs (Decidable (∀ e ∈ trailOf s root va, present e = true ∧ user e = true))

def UserWritable (s : State) (root va : ℕ) : Prop :=
  UserAccessible s root va ∧ ∀ e ∈ trailOf s root va, writable e = true

/-- The tables on the way to a page of 4 KiB are there, and their entries let the user in. -/
def UserTables (s : State) (root va : ℕ) : Prop :=
  ∃ l e, trailOf s root va = l ++ [e] ∧ l.length = 3 ∧ ∀ x ∈ l, present x = true ∧ user x = true

def WritableTables (s : State) (root va : ℕ) : Prop :=
  ∀ x ∈ (trailOf s root va).dropLast, writable x = true

theorem Refined.length_le (h : Refined va l l') : l.length ≤ 3 := by
  cases h with
  | table m e e' a hlen he he' =>
    simp only [List.length_append, List.length_singleton]
    omega
  | split m e e' a hlen he he' =>
    simp only [List.length_append, List.length_singleton]
    omega

theorem eq_or_not_user (h : Relation.ReflTransGen (Refined va) l l') :
    l' = l ∨ l.length ≤ 3 ∧ ∃ x ∈ l'.dropLast, user x = false := by
  rcases h.cases_tail with heq | ⟨m, hm, hstep⟩
  · exact .inl heq
  right
  refine ⟨?_, ?_⟩
  · rcases hm.cases_head with rfl | ⟨m', hstep', -⟩
    · exact hstep.length_le
    · exact hstep'.length_le
  cases hstep with
  | table m e e' a hlen he he' =>
    refine ⟨e', ?_, he'.user⟩
    rw [show m ++ [e', 0] = (m ++ [e']) ++ [0] by simp, List.dropLast_concat]
    simp
  | split m e e' a hlen he he' =>
    refine ⟨e', ?_, he'.user⟩
    rw [show ∀ y, m ++ [e', y] = (m ++ [e']) ++ [y] by simp, List.dropLast_concat]
    simp

theorem Extended.userAccessible {root : ℕ} (h : Extended s s' root)
    (ha : UserAccessible s' root va) : UserAccessible s root va := by
  rcases eq_or_not_user (h.walks va) with heq | ⟨-, x, hx, hu⟩
  · unfold UserAccessible at ha
    rwa [heq] at ha
  rw [(ha x (List.dropLast_subset _ hx)).2] at hu
  cases hu

theorem Cloned.userAccessible {N : Set ℕ} (h : Cloned s.mem s s' 4 pml4 cr3 N)
    (ha : UserAccessible s' cr3 va) : UserAccessible s pml4 va := by
  obtain ⟨l, l', e, e', h1, h2, hl, hleaf⟩ := h.trail va
  unfold UserAccessible at *
  rw [h2] at ha
  rw [h1]
  intro x hx
  rcases List.mem_append.1 hx with hx | hx
  · obtain ⟨i, hi, rfl⟩ := List.mem_iff_getElem.1 hx
    have hi' : i < l'.length := hl.length_eq ▸ hi
    have hsame := hl.get hi hi'
    have hy := ha l'[i] (List.mem_append_left _ (List.getElem_mem hi'))
    exact ⟨(hsame 0 (by decide)).symm.trans hy.1, (hsame 2 (by decide)).symm.trans hy.2⟩
  have hy := ha e' (by simp)
  rw [List.mem_singleton.1 hx]
  rcases hleaf with ⟨-, rfl⟩ | rfl
  · cases hy.1
  · exact hy

theorem leafEntry_user (pa flags : ℕ) :
    user (tableAddr pa ||| flags ||| 1) = flags.testBit 2 ∧
      writable (tableAddr pa ||| flags ||| 1) = flags.testBit 1 := by
  have hal : tableAddr pa % 4096 = 0 := by
    unfold tableAddr
    omega
  have hbit : ∀ i < 12, 0 < i → (tableAddr pa ||| flags ||| 1).testBit i = flags.testBit i := by
    intro i hi h0
    rw [Nat.or_assoc, testBit_aligned_or hal hi, Nat.testBit_or]
    simp [Nat.testBit_one_eq_true_iff_self_eq_zero, show i ≠ 0 by omega]
  exact ⟨hbit 2 (by decide) (by decide), hbit 1 (by decide) (by decide)⟩

end Access

section Run

inductive MapOp
  | map (va pa flags : ℕ)
  | unmap (va : ℕ)

def mapStep (cr3 : ℕ) (s : State) : MapOp → State
  | .map va pa flags => (pagingMapPageInCr3 cr3 va pa flags s).2
  | .unmap va => (pagingUnmapPageInCr3 cr3 va s).2

/-- A call of a run has mapped the page of an address with the USER bit. -/
def MappedForUser (cr3 : ℕ) (s : State) (ops : List MapOp) (va : ℕ) : Prop :=
  ∃ before va' pa flags after, ops = before ++ .map va' pa flags :: after ∧
    flags.testBit 2 = true ∧ va' / 4096 % 2 ^ 36 = va / 4096 % 2 ^ 36 ∧
    (pagingMapPageInCr3 cr3 va' pa flags (before.foldl (mapStep cr3) s)).1 = 0

theorem LeafWritten.userAccessible {entry : ℕ} (h : LeafWritten s s' cr3 va entry)
    (ha : UserAccessible s' cr3 va') : UserAccessible s cr3 va' ∨
      (va / 4096 % 2 ^ 36 = va' / 4096 % 2 ^ 36 ∧ present entry = true ∧ user entry = true) := by
  by_cases hsame : va' / 4096 % 2 ^ 36 = va / 4096 % 2 ^ 36
  · right
    obtain ⟨l, old, -, -, h2⟩ := h.same va' hsame
    exact ⟨hsame.symm, ha entry (by rw [h2]; simp)⟩
  left
  unfold UserAccessible at *
  rwa [h.other va' hsame] at ha

section

variable (hS : Space s cr3)
include hS

theorem mapStep_userAccessible (hok : Ok s) (op : MapOp)
    (ha : UserAccessible (mapStep cr3 s op) cr3 va') : UserAccessible s cr3 va' ∨
      ∃ va pa flags, op = .map va pa flags ∧ flags.testBit 2 = true ∧
        va / 4096 % 2 ^ 36 = va' / 4096 % 2 ^ 36 ∧ (pagingMapPageInCr3 cr3 va pa flags s).1 = 0 := by
  cases op with
  | map va pa flags =>
    rcases hm : mapPageRoot cr3 va pa flags s with ⟨r, s'⟩
    simp only [mapStep, pagingMapPageInCr3, hm] at ha ⊢
    rcases mapPageRoot_cases hS hok hm with ⟨-, hext⟩ | ⟨rfl, -, -, s₁, hext, hleaf⟩
    · exact .inl (hext.userAccessible ha)
    rcases hleaf.userAccessible ha with ha | ⟨hsame, -, hu⟩
    · exact .inl (hext.userAccessible ha)
    right
    rw [(leafEntry_user pa flags).1] at hu
    exact ⟨va, pa, flags, rfl, hu, hsame, by rw [hm]⟩
  | unmap va =>
    left
    rcases hu : unmapPageRoot cr3 va s with ⟨r, s'⟩
    simp only [mapStep, pagingUnmapPageInCr3, hu] at ha
    rcases unmapPageRoot_cases hS hok hu with ⟨-, rfl⟩ | ⟨-, -, hleaf⟩
    · exact ha
    rcases hleaf.userAccessible ha with ha | ⟨-, hp, -⟩
    · exact ha
    · cases hp

theorem mapStep_space (hok : Ok s) (hG : NoGiga s.mem 4 cr3) (op : MapOp) :
    Space (mapStep cr3 s op) cr3 ∧ Ok (mapStep cr3 s op) ∧ NoGiga (mapStep cr3 s op).mem 4 cr3 := by
  cases op with
  | map va pa flags =>
    obtain ⟨N, hN, hG'⟩ := mapPageRoot_grew hS hok hG va pa flags
    exact ⟨hN.space hS, hN.took.ok, hG'⟩
  | unmap va =>
    obtain ⟨N, hN, hG'⟩ := unmapPageRoot_grew hS hok hG va
    exact ⟨hN.space hS, hN.took.ok, hG'⟩

theorem run_userAccessible (hok : Ok s) (hG : NoGiga s.mem 4 cr3) (ops : List MapOp) :
    let s' := ops.foldl (mapStep cr3) s
    (Space s' cr3 ∧ Ok s' ∧ NoGiga s'.mem 4 cr3) ∧ ∀ va, UserAccessible s' cr3 va →
      UserAccessible s cr3 va ∨ MappedForUser cr3 s ops va := by
  induction ops using List.reverseRecOn with
  | nil => exact ⟨⟨hS, hok, hG⟩, fun va ha ↦ .inl ha⟩
  | append_singleton ops op ih =>
    obtain ⟨⟨hS', hok', hG'⟩, hacc⟩ := ih
    simp only [List.foldl_append, List.foldl_cons, List.foldl_nil]
    refine ⟨mapStep_space hS' hok' hG' op, ?_⟩
    intro va ha
    rcases mapStep_userAccessible hS' hok' op ha with ha | ⟨va', pa, flags, rfl, hf, hsame, h0⟩
    · apply (hacc va ha).imp_right
      intro ⟨before, va', pa, flags, after, hops, hrest⟩
      refine ⟨before, va', pa, flags, after ++ [op], ?_, hrest⟩
      rw [hops, List.append_assoc, List.cons_append]
    · exact .inr ⟨ops, va', pa, flags, [], rfl, hf, hsame, h0⟩

theorem map_trail {pa flags : ℕ} (hok : Ok s) (h : pagingMapPageInCr3 cr3 va pa flags s = (0, s')) :
    ∃ l old, l.length = 3 ∧ trailOf s' cr3 va = l ++ [tableAddr pa ||| flags ||| 1] ∧
      (trailOf s cr3 va = l ++ [old] ∨
        (trailOf s cr3 va).length ≤ 3 ∧ ∃ x ∈ l, user x = false) := by
  rcases mapPageRoot_cases hS hok h with ⟨h0, -⟩ | ⟨-, -, -, s₁, hext, hleaf⟩
  · omega
  obtain ⟨l, old, hlen, h1, h2⟩ := hleaf.same va rfl
  refine ⟨l, old, hlen, h2, ?_⟩
  rcases eq_or_not_user (hext.walks va) with heq | ⟨hle, x, hx, hu⟩
  · exact .inl (heq.symm.trans h1)
  rw [h1, List.dropLast_concat] at hx
  exact .inr ⟨hle, x, hx, hu⟩

theorem map_userAccessible_iff {pa f : ℕ} (hok : Ok s)
    (h : pagingMapPageInCr3 cr3 va pa (5 ||| f) s = (0, s')) :
    (UserAccessible s' cr3 va ↔ UserTables s cr3 va) ∧
      (UserTables s cr3 va → WritableTables s cr3 va →
        (UserWritable s' cr3 va ↔ f.testBit 1 = true)) := by
  obtain ⟨l, old, hlen, htrail', htrail⟩ := map_trail hS hok h
  have hp := leafEntry_present pa (5 ||| f)
  obtain ⟨hu, hw⟩ := leafEntry_user pa (5 ||| f)
  have hu : user (tableAddr pa ||| (5 ||| f) ||| 1) = true := by
    rw [hu, Nat.testBit_or]
    rfl
  have hw : writable (tableAddr pa ||| (5 ||| f) ||| 1) = f.testBit 1 := by
    rw [hw, Nat.testBit_or]
    rfl
  have hacc : UserAccessible s' cr3 va ↔ ∀ x ∈ l, present x = true ∧ user x = true := by
    unfold UserAccessible
    rw [htrail']
    simp [or_imp, forall_and, hp, hu]
  -- With all tables in place the walk keeps their entries.
  have htables : UserTables s cr3 va → trailOf s cr3 va = l ++ [old] := by
    intro ⟨l₀, e, h1, h2, _⟩
    apply htrail.resolve_right
    intro ⟨hle, _⟩
    rw [h1, List.length_append, h2, List.length_singleton] at hle
    omega
  have hiff : UserAccessible s' cr3 va ↔ UserTables s cr3 va := by
    rw [hacc]
    constructor
    · intro hall
      refine ⟨l, old, htrail.resolve_right ?_, hlen, hall⟩
      intro ⟨_, x, hx, hx'⟩
      rw [(hall x hx).2] at hx'
      cases hx'
    intro ht
    have hl := htables ht
    obtain ⟨l₀, e, h1, -, h3⟩ := ht
    obtain rfl := List.append_inj_left' (h1.symm.trans hl) rfl
    exact h3
  refine ⟨hiff, ?_⟩
  intro ht hwt
  unfold WritableTables at hwt
  rw [htables ht, List.dropLast_concat] at hwt
  simp only [UserWritable, hiff.2 ht, true_and, htrail', List.mem_append, List.mem_singleton, or_imp,
    forall_and, forall_eq, hw]
  exact ⟨fun h ↦ h.2, fun h ↦ ⟨hwt, h⟩⟩

end

/-- A space that was copied from the kernel's tables, after any calls on it. -/
theorem user_mappings (hS : Space s pml4) (hG : NoGiga s.mem 4 pml4) (hok : Ok s)
    (hc : pagingCreateAddressSpace pml4 s = (cr3, s₁)) (h0 : cr3 ≠ 0) (ops : List MapOp) :
    let t := ops.foldl (mapStep cr3) s₁
    (∀ va pa f t', pagingMapPageInCr3 cr3 va pa (5 ||| f) t = (0, t') →
      (UserAccessible t' cr3 va ↔ UserTables t cr3 va) ∧
      (UserTables t cr3 va → WritableTables t cr3 va →
        (UserWritable t' cr3 va ↔ f.testBit 1 = true))) ∧
    ∀ va, UserAccessible t cr3 va → UserAccessible s pml4 va ∨ MappedForUser cr3 s₁ ops va := by
  rcases create_cases hS hG hok hc with ⟨-, N, hN⟩ | ⟨h, -⟩
  · obtain ⟨⟨hS', hok', -⟩, hacc⟩ := run_userAccessible hN.space hN.took.ok (hN.noGiga hG) ops
    refine ⟨fun va pa f t' h ↦ map_userAccessible_iff hS' hok' h, ?_⟩
    intro va ha
    exact (hacc va ha).imp_left hN.userAccessible
  · exact absurd h h0

theorem user_mappings_userTables :
    let c := pagingCreateAddressSpace 0x1000 (onePath 7 elevenPages)
    let m := pagingMapPageInCr3 c.1 0 0xF000 (5 ||| 2) c.2
    c.1 = 0x5000 ∧ m.1 = 0 ∧ UserAccessible m.2 c.1 0 ∧ UserWritable m.2 c.1 0 := by
  have hspace : Space (onePath 7 elevenPages) 0x1000 := elevenPages_space (by decide)
  have hc : (pagingCreateAddressSpace 0x1000 (onePath 7 elevenPages)).1 = 0x5000 := by
    decide +kernel
  have hm : (pagingMapPageInCr3 0x5000 0 0xF000 (5 ||| 2)
      (pagingCreateAddressSpace 0x1000 (onePath 7 elevenPages)).2).1 = 0 := by
    decide +kernel
  have htrail : trailOf (pagingCreateAddressSpace 0x1000 (onePath 7 elevenPages)).2 0x5000 0 =
      [0x6007, 0x7007, 0x8007] ++ [0] := by
    decide +kernel
  generalize hp : pagingCreateAddressSpace 0x1000 (onePath 7 elevenPages) = c at hc hm htrail
  obtain ⟨cr3, s₁⟩ := c
  obtain rfl : cr3 = 0x5000 := hc
  simp only at hm htrail ⊢
  obtain ⟨hmap, -⟩ := user_mappings hspace (onePath_noGiga (by decide) (by decide))
    ⟨by decide, by decide⟩ hp (by decide) []
  rcases hr : pagingMapPageInCr3 0x5000 0 0xF000 (5 ||| 2) s₁ with ⟨r, t'⟩
  rw [hr] at hm
  obtain rfl : r = 0 := hm
  obtain ⟨hacc, hwrite⟩ := hmap 0 0xF000 2 t' hr
  have htables : UserTables s₁ 0x5000 0 := ⟨_, _, htrail, rfl, by decide⟩
  have hwritable : WritableTables s₁ 0x5000 0 := by
    unfold WritableTables
    rw [htrail]
    decide
  exact ⟨trivial, rfl, hacc.2 htables, (hwrite htables hwritable).2 rfl⟩

/-- The tables made for a page do not let the user in. -/
theorem user_mapping_unreachable :
    let c := pagingCreateAddressSpace 0x1000 (onePath tableFlags elevenPages)
    let m := pagingMapPageInCr3 c.1 0x100000000 0xF000 (5 ||| 2) c.2
    Space (onePath tableFlags elevenPages) 0x1000 ∧ c.1 = 0x5000 ∧ m.1 = 0 ∧
      ¬ UserAccessible m.2 c.1 0x100000000 :=
  ⟨elevenPages_space (by decide), by decide +kernel, by decide +kernel, by decide +kernel⟩

end Run

end NexusOS.Mm.Paging
