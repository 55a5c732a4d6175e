import NexusOS.Mm.PagingClone
import NexusOS.Mm.PagingMap

namespace NexusOS.Mm.Paging

open Lib
open Pmm (pmmIsPageFree)

variable {s s₁ s' : State} {pml4 root r r' va a : ℕ} {N : Set ℕ}

section Kept

structure Kept (s s' : State) (r : ℕ) : Prop where
  mem : ∀ q ∈ pagesOf s r, s'.mem q = s.mem q
  used : ∀ q ∈ pagesOf s r, ¬ Free s' q

section

variable (h : Kept s s' r)
include h

theorem Kept.pages : pagesOf s' r = pagesOf s r := Radix.pages_congr h.mem

theorem Kept.trail (va : ℕ) : trailOf s' r va = trailOf s r va :=
  Radix.trail_congr h.mem

theorem Kept.space (hS : Space s r) : Space s' r := by
  refine ⟨hS.tree.congr h.mem, ?_, ?_⟩
  · rw [h.pages]
    exact hS.low
  rw [h.pages]
  exact h.used

theorem Kept.virtToPhysRoot (hS : Space s r) (va : ℕ) :
    virtToPhysRoot r va s' = virtToPhysRoot r va s := by
  rw [virtToPhysRoot_eq (h.space hS).low, virtToPhysRoot_eq hS.low, h.trail]

end

theorem NoGiga.congr {m m' : ℕ → Fin 512 → ℕ} {n t : ℕ} (h : NoGiga m n t)
    (hm : ∀ q ∈ Radix.Pages childOf m n t, m' q = m q) : NoGiga m' n t := by
  induction n generalizing t with
  | zero => trivial
  | succ n ih =>
    intro i
    rw [hm t Radix.self_mem_pages]
    refine ⟨(h i).1, ?_⟩
    intro c hc
    exact ih ((h i).2 c hc) fun q hq ↦ hm q (Radix.mem_pages_child hc hq)

theorem Took.kept (h : Took s s' N) (hframe : ∀ q, ¬ Free s q → s'.mem q = s.mem q)
    (hS : Space s r) : Kept s s' r := by
  refine ⟨fun q hq ↦ hframe q (hS.used q hq), ?_⟩
  intro q hq hfree
  exact hS.used q hq ((h.free q).1 hfree).1

theorem Grew.kept (h : Grew s s' root N) (hS : Space s r)
    (hd : Disjoint (pagesOf s root) (pagesOf s r)) : Kept s s' r := by
  refine ⟨?_, ?_⟩
  · intro q hq
    apply h.frame q (Set.disjoint_right.1 hd hq)
    exact fun hN ↦ hS.used q hq (h.took.taken q hN)
  · intro q hq hfree
    exact hS.used q hq ((h.took.free q).1 hfree).1

theorem Gave.kept (h : Gave s s' N) (hS : Space s r) (hd : Disjoint N (pagesOf s r)) :
    Kept s s' r := by
  refine ⟨fun q _ ↦ by rw [h.mem], ?_⟩
  intro q hq hfree
  rcases (h.free q).1 hfree with hf | hf
  · exact hS.used q hq hf
  · exact Set.disjoint_left.1 hd hf hq

end Kept

section Giga

theorem exists_path (i j : Fin 512) : ∃ va, tableIndex 4 va = i ∧ tableIndex 3 va = j := by
  have hi := i.isLt
  have hj := j.isLt
  refine ⟨i * 2 ^ 39 + j * 2 ^ 30, Fin.ext ?_, Fin.ext ?_⟩
  · simp only [tableIndex]
    omega
  simp only [tableIndex]
  omega

theorem noGiga_iff_trail : NoGiga s.mem 4 root ↔
    ∀ va e e', trailOf s root va = [e, e'] → present e' = false := by
  constructor
  · intro h va e e' htrail
    rw [trailOf, Radix.trail] at htrail
    obtain ⟨rfl, hrest⟩ := List.cons.inj htrail
    cases hc : childOf 4 (s.mem root (path va 4)) with
    | none =>
      rw [hc] at hrest
      cases hrest
    | some c =>
      rw [hc, Option.elim_some, Radix.trail] at hrest
      obtain ⟨rfl, hrest⟩ := List.cons.inj hrest
      by_contra hp
      have hp : present (s.mem c (path va 3)) = true := by simpa using hp
      have hh := ((h _).2 c hc (path va 3)).1 rfl hp
      have hchild : childOf 3 (s.mem c (path va 3)) = some (tableAddr (s.mem c (path va 3))) := by
        simp [childOf, hp, hh]
      rw [hchild] at hrest
      cases hrest
  · intro h i
    refine ⟨by simp, ?_⟩
    intro c hc j
    refine ⟨?_, fun _ _ k ↦ ⟨by simp, fun _ _ l ↦ ⟨by simp, fun _ _ ↦ trivial⟩⟩⟩
    intro _ hp
    obtain ⟨va, hva4, hva3⟩ := exists_path i j
    by_contra hh
    have hh : huge (s.mem c j) = true := by simpa using hh
    have hnone : childOf 3 (s.mem c j) = none := by simp [childOf, hh]
    have htrail : trailOf s root va = [s.mem root i, s.mem c j] := by
      simp only [trailOf, Radix.trail, path, hva4, hva3, hc, hnone, Option.elim_some,
        Option.elim_none]
    rw [h va _ _ htrail] at hp
    cases hp

theorem Refined.short {l l' : List ℕ} (h : Refined va l l')
    (hl : ∀ e e', l = [e, e'] → present e' = false) (e e' : ℕ) (hl' : l' = [e, e']) :
    present e' = false := by
  cases h with
  | table l x x' a hlen hx hx' =>
    obtain rfl : l = [] := by
      rw [← List.length_eq_zero_iff]
      have := congrArg List.length hl'
      simp only [List.length_append, List.length_cons, List.length_nil] at this
      omega
    obtain ⟨-, h2⟩ := List.cons.inj hl'
    rw [← (List.cons.inj h2).1]
    rfl
  | split l x x' a hlen hx hx' =>
    have := congrArg List.length hl'
    simp only [List.length_append, List.length_cons, List.length_nil] at this
    omega

theorem Extended.noGiga (h : Extended s s' root) (hG : NoGiga s.mem 4 root) :
    NoGiga s'.mem 4 root := by
  rw [noGiga_iff_trail] at hG ⊢
  intro va
  have hwalk := h.walks va
  have hstart := hG va
  generalize trailOf s root va = l at hwalk hstart
  generalize trailOf s' root va = l' at hwalk
  induction hwalk with
  | refl => exact hstart
  | tail _ hstep ih => exact hstep.short ih

theorem LeafWritten.noGiga {entry : ℕ} (h : LeafWritten s s' root va entry)
    (hG : NoGiga s.mem 4 root) : NoGiga s'.mem 4 root := by
  rw [noGiga_iff_trail] at hG ⊢
  intro va' e e' htrail
  by_cases hsame : va' / 4096 % 2 ^ 36 = va / 4096 % 2 ^ 36
  · obtain ⟨l, old, hlen, -, h2⟩ := h.same va' hsame
    have := congrArg List.length (h2.symm.trans htrail)
    simp only [List.length_append, List.length_cons, List.length_nil] at this
    omega
  · exact hG va' e e' (h.other va' hsame ▸ htrail)

theorem mapPageRoot_grew (hS : Space s root) (hok : Ok s) (hG : NoGiga s.mem 4 root)
    (va pa flags : ℕ) : ∃ N, Grew s (mapPageRoot root va pa flags s).2 root N ∧
      NoGiga (mapPageRoot root va pa flags s).2.mem 4 root := by
  rcases h : mapPageRoot root va pa flags s with ⟨r, s'⟩
  rcases mapPageRoot_cases hS hok h with ⟨-, hext⟩ | ⟨-, -, -, s₁, hext, hleaf⟩
  · obtain ⟨N, hN⟩ := hext.grew
    exact ⟨N, hN, hext.noGiga hG⟩
  obtain ⟨N, hN⟩ := hext.grew
  exact ⟨_, hN.trans hleaf.grew, hleaf.noGiga (hext.noGiga hG)⟩

theorem unmapPageRoot_grew (hS : Space s root) (hok : Ok s) (hG : NoGiga s.mem 4 root)
    (va : ℕ) : ∃ N, Grew s (unmapPageRoot root va s).2 root N ∧
      NoGiga (unmapPageRoot root va s).2.mem 4 root := by
  rcases h : unmapPageRoot root va s with ⟨r, s'⟩
  rcases unmapPageRoot_cases hS hok h with ⟨-, rfl⟩ | ⟨-, -, hleaf⟩
  · exact ⟨_, Grew.refl hS hok, hG⟩
  · exact ⟨_, hleaf.grew, hleaf.noGiga hG⟩

end Giga

section Create

theorem Space.source (hS : Space s r) (hG : NoGiga s.mem 4 r) : Source s.mem s 4 r :=
  ⟨hG, le_rfl, fun _ _ ↦ rfl, hS.used, hS.low⟩

theorem create_cases (hS : Space s pml4) (hG : NoGiga s.mem 4 pml4) (hok : Ok s)
    (h : pagingCreateAddressSpace pml4 s = (root, s')) :
    (root ≠ 0 ∧ ∃ N, Cloned s.mem s s' 4 pml4 root N) ∨
      (root = 0 ∧ ∃ N, CloneFailed s.mem s s' 4 pml4 N) := by
  unfold pagingCreateAddressSpace at h
  rcases hc : cloneTable 4 pml4 s with ⟨r, s₁⟩
  rw [hc] at h
  cases r with
  | none =>
    obtain ⟨rfl, rfl⟩ := Prod.mk.inj h
    exact .inr ⟨rfl, (cloneTable_spec s.mem 3).fail hok (hS.source hG) hc⟩
  | some t =>
    obtain ⟨rfl, rfl⟩ := Prod.mk.inj h
    obtain ⟨⟨N, hN⟩, -, -⟩ := (cloneTable_spec s.mem 3).copy hok (hS.source hG) hc
    refine .inl ⟨?_, N, hN⟩
    have hmem : t ∈ N := by
      rw [← hN.pages]
      exact Radix.self_mem_pages
    exact ((hN.took.taken t hmem).managed hok).ne_zero

section

variable (h : Cloned s.mem s s' 4 pml4 root N)
include h

theorem Cloned.space : Space s' root := by
  refine ⟨h.tree, ?_, ?_⟩
  · rw [pagesOf, h.pages]
    exact h.low
  rw [pagesOf, h.pages]
  intro q hq hfree
  exact ((h.took.free q).1 hfree).2 hq

theorem Cloned.trail (va : ℕ) :
    ∃ l l' e e', trailOf s pml4 va = l ++ [e] ∧ trailOf s' root va = l' ++ [e'] ∧
      List.Forall₂ SameFlags l l' ∧ SameLeaf e e' :=
  h.copies.trail childOf_one

theorem Cloned.noGiga (hG : NoGiga s.mem 4 pml4) : NoGiga s'.mem 4 root := by
  rw [noGiga_iff_trail] at hG ⊢
  intro va x x' htrail
  obtain ⟨l, l', e, e', h1, h2, hl, hleaf⟩ := h.trail va
  have hlen : l'.length = 1 := by
    have := congrArg List.length (h2.symm.trans htrail)
    simp only [List.length_append, List.length_cons, List.length_nil] at this
    omega
  obtain ⟨y', rfl⟩ := List.length_eq_one_iff.1 hlen
  obtain ⟨y, rfl⟩ := List.length_eq_one_iff.1 (hl.length_eq.trans hlen)
  obtain ⟨-, hx⟩ : y' = x ∧ e' = x' := by simpa using h2.symm.trans htrail
  have hp := hG va y e h1
  rw [← hx]
  rcases hleaf with ⟨-, rfl⟩ | rfl
  · rfl
  · exact hp

theorem Cloned.virtToPhysRoot (hS : Space s pml4) (va : ℕ) :
    virtToPhysRoot root va s' = virtToPhysRoot pml4 va s := by
  rw [virtToPhysRoot_eq h.space.low, virtToPhysRoot_eq hS.low]
  obtain ⟨l, l', e, e', h1, h2, hl, hleaf⟩ := h.trail va
  rw [h1, h2, translate_append, translate_append, hl.length_eq]
  rcases hleaf with ⟨hp, rfl⟩ | rfl
  · have h0 : present 0 = false := rfl
    simp [leafAddress, hp, h0]
  · rfl

end

end Create

section Leak

/-- An address space that could not be made leaves the free pages as they were just when the pages
ran out on the first path down, before a table was finished. -/
theorem create_failed_leak_iff (hS : Space s pml4) (hG : NoGiga s.mem 4 pml4) (hok : Ok s)
    (h : pagingCreateAddressSpace pml4 s = (0, s')) :
    (∀ q, pmmIsPageFree s'.pmm q = pmmIsPageFree s.pmm q) ↔ lowCount s < spineOf s.mem 4 pml4 := by
  rcases create_cases hS hG hok h with ⟨h0, -⟩ | ⟨-, N, hN⟩
  · exact absurd rfl h0
  rw [← hN.leak]
  constructor
  · intro hsame
    apply Set.eq_empty_of_forall_notMem
    intro q hq
    have hfree : Free s' q := (hsame q).trans (hN.took.taken q hq)
    exact ((hN.took.free q).1 hfree).2 hq
  intro hempty q
  rw [Bool.eq_iff_iff]
  have hfree := hN.took.free q
  rw [hempty] at hfree
  simpa [Free] using hfree

theorem onePath_noGiga {n q flags : ℕ} {pmm : Pmm.State} (hf : flags < 128) (hq : q % 4096 = 0) :
    NoGiga (onePath flags pmm).mem n q := by
  induction n generalizing q with
  | zero => trivial
  | succ n ih =>
    intro i
    refine ⟨fun _ _ ↦ ?_, ?_⟩
    · by_cases hi : i.val = 0 ∧ 0 < q ∧ q < 0x4000
      · simp only [onePath, if_pos hi, huge]
        rw [testBit_aligned_or (by omega) (by decide)]
        exact Nat.testBit_lt_two_pow hf
      · simp only [onePath, if_neg hi]
        rfl
    intro c hc
    obtain ⟨-, -, rfl⟩ := onePath_child hf hq hc
    exact ih (by omega)

theorem create_failed_onePage :
    (pagingCreateAddressSpace 0x1000 (onePath tableFlags onePage)).1 = 0 ∧
      ∀ q, pmmIsPageFree (pagingCreateAddressSpace 0x1000 (onePath tableFlags onePage)).2.pmm q =
        pmmIsPageFree onePage q := by
  have h0 : (pagingCreateAddressSpace 0x1000 (onePath tableFlags onePage)).1 = 0 := by
    decide +kernel
  generalize hc : pagingCreateAddressSpace 0x1000 (onePath tableFlags onePage) = r at h0 ⊢
  obtain ⟨root, s'⟩ := r
  obtain rfl : root = 0 := h0
  refine ⟨rfl, (create_failed_leak_iff onePage_space (onePath_noGiga (by decide) (by decide))
    onePage_ok hc).2 ?_⟩
  have hspine : spineOf (onePath tableFlags onePage).mem 4 0x1000 = 4 := by decide +kernel
  have hone : lowFree (onePath tableFlags onePage) ⊆ {0x5000} := by
    intro q hq
    have hm := hq.1.managed onePage_ok
    have hfree := hq.1
    have hal := hm.aligned
    have hlt : q / 4096 < 8 := hm.lt
    obtain ⟨b, rfl⟩ : ∃ b, q = b * 4096 := ⟨q / 4096, by omega⟩
    have hb : b < 8 := by omega
    unfold Free at hfree
    interval_cases b <;> revert hfree <;> decide
  have hcard := Set.ncard_le_ncard hone
  rw [Set.ncard_singleton] at hcard
  rw [hspine, lowCount]
  omega

def twoDirectories : State where
  mem q i :=
    if q = 0x1000 ∧ i.val = 0 then 0x2000 ||| tableFlags
    else if q = 0x2000 ∧ i.val < 2 then (0x3000 + i * 0x1000) ||| tableFlags else 0
  pmm := ⟨fun b ↦ if b = 0 then 0x1F else 0xFF, 8, 3, 0x8000, true⟩
  refreed := 0

theorem twoDirectories_child {n q c : ℕ} {i : Fin 512}
    (h : childOf n (twoDirectories.mem q i) = some c) :
    (q = 0x1000 ∧ i.val = 0 ∧ c = 0x2000) ∨
      (q = 0x2000 ∧ i.val < 2 ∧ c = 0x3000 + i * 0x1000) := by
  have hc := childOf_eq_some h
  simp only [twoDirectories] at hc
  split_ifs at hc with h1 h2
  · exact .inl ⟨h1.1, h1.2, hc.2.2.2.trans (isTableEntry (by decide)).addr⟩
  · exact .inr ⟨h2.1, h2.2, hc.2.2.2.trans (isTableEntry (by omega)).addr⟩
  · cases hc.1

theorem twoDirectories_pages {n q c : ℕ} (hc : 0x3000 ≤ c)
    (hq : q ∈ Radix.Pages childOf twoDirectories.mem n c) : q = c := by
  cases n with
  | zero => exact hq.elim
  | succ n =>
    rcases hq with hq | ⟨i, d, hd, -⟩
    · exact hq
    rcases twoDirectories_child hd with ⟨rfl, -⟩ | ⟨rfl, -⟩
    · omega
    · omega

theorem twoDirectories_pages_pdpt {q : ℕ}
    (hq : q ∈ Radix.Pages childOf twoDirectories.mem 3 0x2000) : 0x2000 ≤ q ∧ q ≤ 0x4000 ∧
      q % 4096 = 0 := by
  rcases hq with hq | ⟨i, c, hc, hq⟩
  · omega
  rcases twoDirectories_child hc with ⟨h, -⟩ | ⟨-, hi, rfl⟩
  · omega
  have := twoDirectories_pages (by omega) hq
  omega

theorem twoDirectories_tree : Radix.Tree childOf twoDirectories.mem 4 0x1000 := by
  have hpdpt : Radix.Tree childOf twoDirectories.mem 3 0x2000 := by
    intro i c hc
    rcases twoDirectories_child hc with ⟨h, -⟩ | ⟨-, hi, rfl⟩
    · omega
    refine ⟨?_, ?_, ?_⟩
    · intro j d hd
      rcases twoDirectories_child hd with ⟨h, -⟩ | ⟨h, -⟩
      · omega
      · omega
    · intro hmem
      have := twoDirectories_pages (by omega) hmem
      omega
    intro j c' hc' hj
    rcases twoDirectories_child hc' with ⟨h, -⟩ | ⟨-, hj', rfl⟩
    · omega
    rw [Set.disjoint_left]
    intro q hq hq'
    have h1 := twoDirectories_pages (by omega) hq
    have h2 := twoDirectories_pages (by omega) hq'
    exact hj (Fin.ext (by omega))
  intro i c hc
  rcases twoDirectories_child hc with ⟨-, hi, rfl⟩ | ⟨h, -⟩
  · refine ⟨hpdpt, ?_, ?_⟩
    · intro hmem
      have := twoDirectories_pages_pdpt hmem
      omega
    · intro j c' hc' hj
      rcases twoDirectories_child hc' with ⟨-, hj', -⟩ | ⟨h, -⟩
      · exact absurd (Fin.ext (hj'.trans hi.symm)) hj
      · omega
  · omega

theorem twoDirectories_space : Space twoDirectories 0x1000 := by
  have hpages : ∀ q ∈ pagesOf twoDirectories 0x1000,
      q = 0x1000 ∨ q = 0x2000 ∨ q = 0x3000 ∨ q = 0x4000 := by
    intro q hq
    rcases hq with hq | ⟨i, c, hc, hq⟩
    · exact .inl hq
    rcases twoDirectories_child hc with ⟨-, -, rfl⟩ | ⟨h, -⟩
    · have := twoDirectories_pages_pdpt hq
      omega
    · omega
  refine ⟨twoDirectories_tree, ?_, ?_⟩
  · intro q hq
    have := hpages q hq
    exact ⟨by omega, by omega⟩
  intro q hq hfree
  unfold Free at hfree
  rcases hpages q hq with rfl | rfl | rfl | rfl <;> revert hfree <;> decide

theorem twoDirectories_noGiga {n t : ℕ} : NoGiga twoDirectories.mem n t := by
  induction n generalizing t with
  | zero => trivial
  | succ n ih =>
    intro i
    refine ⟨fun _ _ ↦ ?_, fun c _ ↦ ih⟩
    simp only [twoDirectories]
    split_ifs with h1 h2
    · rfl
    · exact (isTableEntry (by omega)).huge
    · rfl

/-- The copy of the first directory is not given back when there is no page for the second. -/
theorem create_leaks_directory :
    Space twoDirectories 0x1000 ∧ NoGiga twoDirectories.mem 4 0x1000 ∧ Ok twoDirectories ∧
    (pagingCreateAddressSpace 0x1000 twoDirectories).1 = 0 ∧
    pmmIsPageFree twoDirectories.pmm 0x7000 = true ∧
    pmmIsPageFree (pagingCreateAddressSpace 0x1000 twoDirectories).2.pmm 0x7000 = false :=
  ⟨twoDirectories_space, twoDirectories_noGiga, ⟨by decide, by decide⟩, by decide +kernel,
    by decide, by decide +kernel⟩

end Leak

end NexusOS.Mm.Paging
