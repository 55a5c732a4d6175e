import NexusOS.Lib.Radix
import NexusOS.Mm.Paging
import NexusOS.Mm.PmmSafety

namespace NexusOS.Mm.Paging

open Lib
open Pmm (pmmAllocPage pmmFreePage pmmIsPageFree pmmMaxPages)

variable {s s' s'' : State} {a b root va : ℕ} {N N' : Set ℕ}

section Free

def Free (s : State) (a : ℕ) : Prop := pmmIsPageFree s.pmm a = true

structure Managed (s : State) (a : ℕ) : Prop where
  ready : s.pmm.ready = true
  ne_zero : a ≠ 0
  aligned : a % 4096 = 0
  lt : a / 4096 < s.pmm.totalPages

/-- The bitmap covers the pages that are counted, and page 0 is never handed out. -/
structure Ok (s : State) : Prop where
  total : s.pmm.totalPages ≤ pmmMaxPages
  zero : s.pmm.bitmap.test 0 = true

theorem managed_congr (hr : s'.pmm.ready = s.pmm.ready)
    (ht : s'.pmm.totalPages = s.pmm.totalPages) : Managed s' a ↔ Managed s a :=
  ⟨fun h ↦ ⟨hr ▸ h.ready, h.ne_zero, h.aligned, ht ▸ h.lt⟩,
    fun h ↦ ⟨hr ▸ h.ready, h.ne_zero, h.aligned, ht ▸ h.lt⟩⟩

theorem free_iff (h : Ok s) : Free s a ↔ Managed s a ∧ s.pmm.bitmap.test (a / 4096) = false := by
  have htotal := h.total
  unfold Free pmmIsPageFree
  simp only [Bool.not_eq_true', ne_eq, ge_iff_le]
  split_ifs with h1 h2
  · simp only [false_iff]
    intro ⟨hm, _⟩
    rcases h1 with h1 | h1
    · simp [hm.ready] at h1
    · exact h1 hm.aligned
  · simp only [false_iff]
    intro ⟨hm, _⟩
    have := hm.lt
    omega
  rw [not_or, not_not] at h1
  rw [not_or] at h2
  simp only [Bool.not_eq_true', Bool.not_eq_false] at h1 ⊢
  constructor
  · intro hb
    refine ⟨⟨h1.1, ?_, h1.2, by omega⟩, hb⟩
    intro h0
    rw [h0, Nat.zero_div, h.zero] at hb
    cases hb
  · intro hb
    exact hb.2

theorem Free.managed (h : Ok s) (ha : Free s a) : Managed s a := ((free_iff h).1 ha).1

theorem free_mem_clearPages (h : Ok s) (ha : Free s a) : a / 4096 ∈ Pmm.clearPages s.pmm := by
  obtain ⟨hm, hb⟩ := (free_iff h).1 ha
  simpa [Pmm.clearPages, hm.lt] using hb

/-- Between two states the pages `N` have been taken from the allocator, and no others. -/
structure Took (s s' : State) (N : Set ℕ) : Prop where
  ok : Ok s'
  free : ∀ b, Free s' b ↔ Free s b ∧ b ∉ N
  taken : ∀ b ∈ N, Free s b
  managed : ∀ b, Managed s' b ↔ Managed s b
  refreed : s'.refreed = s.refreed

theorem Took.refl (h : Ok s) : Took s s ∅ :=
  ⟨h, by simp, by simp, by simp, rfl⟩

theorem Took.trans (h : Took s s' N) (h' : Took s' s'' N') : Took s s'' (N ∪ N') := by
  refine ⟨h'.ok, ?_, ?_, ?_, h'.refreed.trans h.refreed⟩
  · intro b
    rw [h'.free, h.free, Set.mem_union, not_or, and_assoc]
  · intro b hb
    rcases hb with hb | hb
    · exact h.taken b hb
    · exact ((h.free b).1 (h'.taken b hb)).1
  · intro b
    rw [h'.managed, h.managed]

theorem Took.mem (h : Took s s' N) (hp : s''.pmm = s'.pmm) (hr : s''.refreed = s'.refreed) :
    Took s s'' N := by
  have hfree : ∀ b, Free s'' b ↔ Free s' b := by
    intro b
    rw [Free, Free, hp]
  refine ⟨⟨hp ▸ h.ok.total, hp ▸ h.ok.zero⟩, ?_, h.taken, ?_, hr.trans h.refreed⟩
  · intro b
    rw [hfree, h.free]
  intro b
  exact (managed_congr (by rw [hp]) (by rw [hp])).trans (h.managed b)

theorem allocPage_cases (h : Ok s) :
    (∃ a, (allocPage s).1 = a ∧ Took s (allocPage s).2 {a} ∧ ∀ b, Free s b → a ≤ b) ∨
      allocPage s = (0, s) ∧ ∀ b, ¬ Free s b := by
  by_cases hready : s.pmm.ready = true
  · rcases Pmm.pmmAllocPage_cases s.pmm hready with ⟨p, hp, hleast, he⟩ | ⟨hempty, he⟩
    · left
      simp only [Pmm.clearPages, Finset.mem_filter, Finset.mem_range] at hp
      have hdiv : p * 4096 / 4096 = p := Nat.mul_div_cancel _ (by decide)
      have hp0 : p ≠ 0 := by
        intro h0
        rw [h0, h.zero] at hp
        cases hp.2
      have hfree : Free s (p * 4096) :=
        (free_iff h).2 ⟨⟨hready, by omega, by omega, hdiv.symm ▸ hp.1⟩, hdiv.symm ▸ hp.2⟩
      have hok : Ok (allocPage s).2 := by
        refine ⟨?_, ?_⟩
        · simp only [allocPage, he]
          exact h.total
        · simp [allocPage, he, h.zero]
      have hman : ∀ b, Managed (allocPage s).2 b ↔ Managed s b :=
        fun b ↦ managed_congr (by simp only [allocPage, he]) (by simp only [allocPage, he])
      refine ⟨p * 4096, by simp only [allocPage, he], ⟨hok, ?_, ?_, hman, rfl⟩, ?_⟩
      · intro b
        rw [free_iff hok, free_iff h, hman]
        simp only [allocPage, he, Bitmap.test_set, Bool.or_eq_false_iff, decide_eq_false_iff_not,
          Set.mem_singleton_iff]
        constructor
        · intro hn
          obtain ⟨hm, hne, hb⟩ := hn
          refine ⟨⟨hm, hb⟩, ?_⟩
          intro hbp
          apply hne
          rw [hbp, hdiv]
        intro hn
        obtain ⟨⟨hm, hb⟩, hne⟩ := hn
        refine ⟨hm, ?_, hb⟩
        intro hbp
        apply hne
        have := hm.aligned
        omega
      · intro b hb
        rw [Set.mem_singleton_iff.1 hb]
        exact hfree
      · intro b hb
        have := hleast _ (free_mem_clearPages h hb)
        omega
    · right
      refine ⟨by simp only [allocPage, he], ?_⟩
      intro b hb
      have hmem := free_mem_clearPages h hb
      rw [hempty] at hmem
      exact absurd hmem (Finset.notMem_empty _)
  · right
    have hr : s.pmm.ready = false := by simpa using hready
    refine ⟨by simp only [allocPage, pmmAllocPage, hr, Bool.false_eq_true, if_false], ?_⟩
    intro b hb
    exact hready (hb.managed h).ready

/-- The pages `N` have been given back to the allocator, and nothing else has changed. -/
structure Gave (s s' : State) (N : Set ℕ) : Prop where
  ok : Ok s'
  mem : s'.mem = s.mem
  free : ∀ b, Free s' b ↔ Free s b ∨ b ∈ N
  managed : ∀ b, Managed s' b ↔ Managed s b
  refreed : s'.refreed = s.refreed

theorem Gave.refl (h : Ok s) : Gave s s ∅ :=
  ⟨h, rfl, by simp, by simp, rfl⟩

theorem Gave.trans (h : Gave s s' N) (h' : Gave s' s'' N') : Gave s s'' (N ∪ N') := by
  refine ⟨h'.ok, h'.mem.trans h.mem, ?_, ?_, h'.refreed.trans h.refreed⟩
  · intro b
    rw [h'.free, h.free, Set.mem_union, or_assoc]
  intro b
  rw [h'.managed, h.managed]

theorem freePage_spec (h : Ok s) (hm : Managed s a) (hu : ¬ Free s a) :
    Gave s (freePage s a) {a} := by
  have htotal := h.total
  have htest : s.pmm.bitmap.test (a / 4096) = true := by
    by_contra hb
    exact hu ((free_iff h).2 ⟨hm, by simpa using hb⟩)
  have he : (freePage s a).pmm = { s.pmm with
      bitmap := s.pmm.bitmap.clear (a / 4096), freePages := s.pmm.freePages + 1 } := by
    have := hm.lt
    simp only [freePage, pmmFreePage, hm.ready, hm.aligned, Bool.not_true, Bool.false_eq_true, ne_eq,
      not_true_eq_false, or_self, if_false, ge_iff_le, htest, if_true]
    rw [if_neg (by omega)]
  have h0 := hm.ne_zero
  have hal := hm.aligned
  have hok : Ok (freePage s a) := by
    refine ⟨by rw [he]; exact h.total, ?_⟩
    rw [he]
    simp [h.zero, show 0 ≠ a / 4096 by omega]
  have hman : ∀ b, Managed (freePage s a) b ↔ Managed s b :=
    fun b ↦ managed_congr (by rw [he]) (by rw [he])
  refine ⟨hok, rfl, ?_, hman, ?_⟩
  · intro b
    rw [free_iff hok, free_iff h, hman, he]
    simp only [Bitmap.test_clear, Bool.and_eq_false_iff, decide_eq_false_iff_not, not_not,
      Set.mem_singleton_iff]
    constructor
    · intro hn
      obtain ⟨hmb, hb | hb⟩ := hn
      · right
        have := hmb.aligned
        omega
      · exact .inl ⟨hmb, hb⟩
    intro hb
    rcases hb with ⟨hmb, hb⟩ | hb
    · exact ⟨hmb, .inr hb⟩
    rw [hb]
    exact ⟨hm, .inl rfl⟩
  · have hf : pmmIsPageFree s.pmm a = false := by simpa [Free] using hu
    simp only [freePage, hf, Bool.false_eq_true, if_false]

theorem Took.gave (h : Took s s' N) (h' : Gave s' s'' N') (hN : N' ⊆ N) : Took s s'' (N \ N') := by
  refine ⟨h'.ok, ?_, fun b hb ↦ h.taken b hb.1, ?_, h'.refreed.trans h.refreed⟩
  · intro b
    have := h.taken b
    have := @hN b
    rw [h'.free, h.free, Set.mem_sdiff]
    tauto
  · intro b
    rw [h'.managed, h.managed]

theorem Took.freePage (hok : Ok s) (h : Took s s' N) (ha : a ∈ N) :
    Gave s' (freePage s' a) {a} := by
  apply freePage_spec h.ok
  · exact (h.managed a).2 ((h.taken a ha).managed hok)
  rw [h.free]
  exact fun hf ↦ hf.2 ha

/-- The addresses at which a table can be used. -/
def TableAt (phys : ℕ) : Prop := phys < 2 ^ 32 ∧ phys ≠ 0

theorem allocTablePage_cases (h : Ok s) :
    (∃ a s', allocTablePage s = (some a, s') ∧ TableAt a ∧ Took s s' {a} ∧
      s'.mem = Function.update s.mem a fun _ ↦ 0) ∨
    ∃ s', allocTablePage s = (none, s') ∧ Took s s' ∅ ∧ s'.mem = s.mem ∧
      ∀ b, Free s b → 2 ^ 32 ≤ b := by
  rcases allocPage_cases h with ⟨a, ha, hto, hleast⟩ | ⟨ha, hempty⟩
  · have h0 := ((hto.taken a rfl).managed h).ne_zero
    by_cases hlow : 2 ^ 32 ≤ a
    · right
      have hgave := hto.gave (hto.freePage h rfl) le_rfl
      rw [Set.sdiff_self] at hgave
      refine ⟨freePage (allocPage s).2 a, ?_, hgave, rfl, fun b hb ↦ hlow.trans (hleast b hb)⟩
      simp only [allocTablePage, ha, h0, hlow, or_true, if_true, ne_eq, not_false_eq_true]
    left
    refine ⟨a, zeroTable (allocPage s).2 a, ?_, ⟨by omega, h0⟩, hto.mem rfl rfl, rfl⟩
    simp only [allocTablePage, ha, h0, hlow, or_self, if_false, tableFromPhys]
  right
  refine ⟨s, ?_, Took.refl h, rfl, fun b hb ↦ absurd hb (hempty b)⟩
  simp only [allocTablePage, ha, true_or, if_true, ne_eq, not_true_eq_false, if_false]

end Free

section Tree

theorem setEntry_self (s : State) (t : ℕ) (i : Fin 512) (e : ℕ) :
    (setEntry s t i e).mem t i = e := by
  simp [setEntry]

theorem setEntry_row {t : ℕ} {i j : Fin 512} {e : ℕ} (h : j ≠ i) :
    (setEntry s t i e).mem t j = s.mem t j := by
  simp [setEntry, h]

theorem setEntry_of_ne {q t : ℕ} {i : Fin 512} {e : ℕ} (h : q ≠ t) :
    (setEntry s t i e).mem q = s.mem q := by
  simp [setEntry, h]

def childOf (level entry : ℕ) : Option ℕ :=
  if present entry ∧ 1 < level ∧ ¬ (level < 4 ∧ huge entry) then some (tableAddr entry) else none

abbrev path (va : ℕ) : ℕ → Fin 512 := fun level ↦ tableIndex level va

abbrev pagesOf (s : State) (root : ℕ) : Set ℕ := Radix.Pages childOf s.mem 4 root

abbrev trailOf (s : State) (root va : ℕ) : List ℕ := Radix.trail childOf s.mem (path va) 4 root

/-- The page tables of an address space are a tree of distinct pages below 4 GiB, none of which
the allocator considers free. -/
structure Space (s : State) (root : ℕ) : Prop where
  tree : Radix.Tree childOf s.mem 4 root
  low : ∀ q ∈ pagesOf s root, TableAt q
  used : ∀ q ∈ pagesOf s root, ¬ Free s q

def leafAddress (level entry va : ℕ) : ℕ :=
  if !present entry then 0
  else if level = 1 then tableAddr entry + va % 4096
  else if level = 2 then hugeBase entry + va % 2 ^ 21
  else gigaBase entry + va % 2 ^ 30

/-- What the entries of a walk from level 4 on say about an address. -/
def translate (entries : List ℕ) (va : ℕ) : ℕ :=
  (entries.getLast?.map fun e ↦ leafAddress (5 - entries.length) e va).getD 0

theorem childOf_eq_some {level e c : ℕ} (h : childOf level e = some c) :
    present e = true ∧ 1 < level ∧ (level < 4 → huge e = false) ∧ c = tableAddr e := by
  unfold childOf at h
  split_ifs at h with hif
  refine ⟨hif.1, hif.2.1, ?_, (Option.some.inj h).symm⟩
  intro hlt
  simpa [hlt] using hif.2.2

theorem childOf_of_not_present {level e : ℕ} (h : present e = false) : childOf level e = none := by
  simp [childOf, h]

@[simp] theorem childOf_one (e : ℕ) : childOf 1 e = none := by
  simp [childOf]

theorem tableFromPhys_low {a : ℕ} (h : TableAt a) : tableFromPhys a = some a :=
  if_neg (not_or.2 ⟨Nat.not_le_of_lt h.1, h.2⟩)

theorem childOf_eq_none {level e : ℕ} (h : childOf level e = none) (hp : present e = true) :
    level ≤ 1 ∨ (level < 4 ∧ huge e = true) := by
  by_contra hne
  rw [not_or] at hne
  simp [childOf, hp, show 1 < level by omega, hne.2] at h

theorem virtToPhysRoot_eq (h : ∀ q ∈ pagesOf s root, TableAt q) (va : ℕ) :
    virtToPhysRoot root va s = translate (trailOf s root va) va := by
  have hroot := tableFromPhys_low (h root Radix.self_mem_pages)
  simp only [virtToPhysRoot, hroot, trailOf, Radix.trail]
  cases h4 : childOf 4 (s.mem root (tableIndex 4 va)) with
  | none =>
    have hp : present (s.mem root (tableIndex 4 va)) = false := by
      by_contra hp
      have := childOf_eq_none h4 (by simpa using hp)
      omega
    simp [hp, translate, leafAddress]
  | some pdpt =>
    obtain ⟨hp4, -, -, rfl⟩ := childOf_eq_some h4
    have hpdpt := fun q hq ↦ h q (Radix.mem_pages_child h4 hq)
    simp only [hp4, tableFromPhys_low (hpdpt _ Radix.self_mem_pages), Option.elim_some]
    generalize tableAddr (s.mem root (tableIndex 4 va)) = pdpt at *
    cases h3 : childOf 3 (s.mem pdpt (tableIndex 3 va)) with
    | none =>
      cases hp : present (s.mem pdpt (tableIndex 3 va)) with
      | false => simp [hp, translate, leafAddress]
      | true =>
        have hh := childOf_eq_none h3 hp
        simp [hp, translate, leafAddress, show huge (s.mem pdpt (tableIndex 3 va)) = true by
          simpa using hh]
    | some pd =>
      obtain ⟨hp3, -, hh3, rfl⟩ := childOf_eq_some h3
      have hpd := fun q hq ↦ hpdpt q (Radix.mem_pages_child h3 hq)
      simp only [hp3, hh3 (by decide), tableFromPhys_low (hpd _ Radix.self_mem_pages),
        Option.elim_some]
      generalize tableAddr (s.mem pdpt (tableIndex 3 va)) = pd at *
      cases h2 : childOf 2 (s.mem pd (tableIndex 2 va)) with
      | none =>
        cases hp : present (s.mem pd (tableIndex 2 va)) with
        | false => simp [hp, translate, leafAddress]
        | true =>
          have hh := childOf_eq_none h2 hp
          simp [hp, translate, leafAddress, show huge (s.mem pd (tableIndex 2 va)) = true by
            simpa using hh]
      | some pt =>
        obtain ⟨hp2, -, hh2, rfl⟩ := childOf_eq_some h2
        have hpt := fun q hq ↦ hpd q (Radix.mem_pages_child h2 hq)
        simp only [hp2, hh2 (by decide), tableFromPhys_low (hpt _ Radix.self_mem_pages),
          Option.elim_some]
        simp [translate, leafAddress]

end Tree

end NexusOS.Mm.Paging
