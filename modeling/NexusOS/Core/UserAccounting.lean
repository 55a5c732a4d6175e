import NexusOS.Core.UserMemory
import NexusOS.Mm.PagingIsolation

namespace NexusOS.Core

open Relation (ReflTransGen)
open Lib Mm.Paging

variable {pml4 cr3 a va flags : ℕ} {s₀ s s' : State} {N : Set ℕ} {P : ℕ → State → Prop}
  {pages pages' : List UserPage} {u : UserPage}

/-- The page allocator and the page tables as the process layer sees them. -/
def pagingMemory (pml4 : ℕ) : Memory State where
  pmmAllocPage := allocPage
  pmmFreePage a s := freePage s a
  pagingCreateAddressSpace := pagingCreateAddressSpace pml4
  pagingDestroyAddressSpace := pagingDestroyAddressSpace pml4
  pagingMapPageInCr3 := pagingMapPageInCr3
  pagingUnmapPageInCr3 := pagingUnmapPageInCr3
  zeroPage a s := zeroTable s a

section Owns

def held (pages : List UserPage) : Set ℕ := {q | q ∈ pages.map UserPage.phys}

/-- Since `s₀` the process has taken its page tables and the pages in its records, each of them
once, and nothing else. -/
structure Owns (s₀ s : State) (cr3 : ℕ) (pages : List UserPage) : Prop where
  took : Took s₀ s (pagesOf s cr3 ∪ held pages)
  tree : Radix.Tree childOf s.mem 4 cr3
  low : ∀ q ∈ pagesOf s cr3, TableAt q
  plain : NoGiga s.mem 4 cr3
  nodup : (pages.map UserPage.phys).Nodup
  apart : Disjoint (held pages) (pagesOf s cr3)

section

variable (h : Owns s₀ s cr3 pages)
include h

theorem Owns.space : Space s cr3 := by
  refine ⟨h.tree, h.low, ?_⟩
  intro q hq hfree
  exact ((h.took.free q).1 hfree).2 (.inl hq)

theorem Owns.used (ha : a ∈ held pages) : ¬ Free s a := by
  intro hfree
  exact ((h.took.free a).1 hfree).2 (.inr ha)

theorem Owns.managed (hok : Ok s₀) (ha : a ∈ held pages) : Managed s a :=
  (h.took.managed a).2 ((h.took.taken a (.inr ha)).managed hok)

theorem Owns.perm (hp : pages.Perm pages') : Owns s₀ s cr3 pages' := by
  have hphys := hp.map UserPage.phys
  have hheld : held pages' = held pages := by
    ext q
    exact hphys.symm.mem_iff
  exact ⟨hheld ▸ h.took, h.tree, h.low, h.plain, hphys.nodup_iff.1 h.nodup, hheld ▸ h.apart⟩

end

theorem held_cons (u : UserPage) (pages : List UserPage) :
    held (u :: pages) = {u.phys} ∪ held pages := by
  ext q
  simp [held]

theorem mem_held_cons (u : UserPage) (pages : List UserPage) : u.phys ∈ held (u :: pages) := by
  simp [held]

theorem Owns.alloc (h : Owns s₀ s cr3 pages) (hto : Took s s' {u.phys}) (hmem : s'.mem = s.mem) :
    Owns s₀ s' cr3 (u :: pages) := by
  have hpages : pagesOf s' cr3 = pagesOf s cr3 := by rw [pagesOf, pagesOf, hmem]
  have hfree := hto.taken u.phys rfl
  refine ⟨?_, hmem ▸ h.tree, hpages ▸ h.low, hmem ▸ h.plain, ?_, ?_⟩
  · have htook := h.took.trans hto
    rw [hpages, held_cons]
    rwa [Set.union_assoc, Set.union_comm (held pages)] at htook
  · rw [List.map_cons, List.nodup_cons]
    exact ⟨fun hin ↦ h.used hin hfree, h.nodup⟩
  · rw [hpages, held_cons, Set.disjoint_union_left, Set.disjoint_singleton_left]
    exact ⟨fun hin ↦ h.space.used _ hin hfree, h.apart⟩

theorem Owns.grew (h : Owns s₀ s cr3 pages) (hg : Grew s s' cr3 N) (hG : NoGiga s'.mem 4 cr3) :
    Owns s₀ s' cr3 pages := by
  refine ⟨?_, hg.tree, (hg.space h.space).low, hG, h.nodup, ?_⟩
  · have htook := h.took.trans hg.took
    rw [hg.pages]
    rwa [Set.union_right_comm] at htook
  rw [hg.pages, Set.disjoint_union_right]
  refine ⟨h.apart, Set.disjoint_left.2 ?_⟩
  intro q hq hN
  exact h.used hq (hg.took.taken q hN)

theorem Owns.give (h : Owns s₀ s cr3 (u :: pages)) (hok : Ok s₀) :
    Owns s₀ (freePage s u.phys) cr3 pages := by
  have hu := mem_held_cons u pages
  have hgave := freePage_spec h.took.ok (h.managed hok hu) (h.used hu)
  have hnodup := h.nodup
  rw [List.map_cons, List.nodup_cons] at hnodup
  have hapart := h.apart
  rw [held_cons, Set.disjoint_union_left, Set.disjoint_singleton_left] at hapart
  refine ⟨?_, h.tree, h.low, h.plain, hnodup.2, hapart.2⟩
  have htook := h.took.gave hgave (Set.singleton_subset_iff.2 (.inr hu))
  have hrest : (pagesOf s cr3 ∪ held (u :: pages)) \ {u.phys} = pagesOf s cr3 ∪ held pages := by
    rw [held_cons, ← Set.union_assoc, Set.union_right_comm, Set.union_sdiff_right,
      Set.sdiff_singleton_eq_self]
    rintro (hq | hq)
    · exact hapart.1 hq
    · exact hnodup.1 hq
  rwa [hrest] at htook

theorem Owns.zero (h : Owns s₀ s cr3 pages) (ha : a ∈ held pages) :
    Owns s₀ (zeroTable s a) cr3 pages := by
  have hmem : ∀ q ∈ pagesOf s cr3, (zeroTable s a).mem q = s.mem q := by
    intro q hq
    apply Function.update_of_ne
    rintro rfl
    exact Set.disjoint_left.1 h.apart ha hq
  have hpages : pagesOf (zeroTable s a) cr3 = pagesOf s cr3 := Radix.pages_congr hmem
  exact ⟨hpages ▸ h.took.mem rfl rfl, h.tree.congr hmem, hpages ▸ h.low, h.plain.congr hmem,
    h.nodup, hpages ▸ h.apart⟩

theorem Owns.mapFresh (h : Owns s₀ s cr3 pages) (va flags : ℕ)
    (h0 : (allocPage s).1 ≠ 0) :
    Owns s₀ (mapFresh (pagingMemory pml4) cr3 va flags s).2 cr3
      (⟨va, (allocPage s).1, flags⟩ :: pages) := by
  rcases allocPage_cases h.took.ok with ⟨a, ha, hto, -⟩ | ⟨ha, -⟩
  · have hnew : Owns s₀ (allocPage s).2 cr3 (⟨va, (allocPage s).1, flags⟩ :: pages) :=
      h.alloc (by rw [ha]; exact hto) rfl
    obtain ⟨N, hg, hG⟩ := mapPageRoot_grew hnew.space hnew.took.ok hnew.plain va (allocPage s).1
      (pagePresent ||| pageUser ||| flags)
    exact hnew.grew hg hG
  · exact absurd (by rw [ha]) h0

theorem Owns.step {x y : List UserPage × State} (hok : Ok s₀)
    (hstep : PageStep (pagingMemory pml4) cr3 P x y) (h : Owns s₀ x.2 cr3 x.1) :
    Owns s₀ y.2 cr3 y.1 := by
  cases hstep with
  | exhausted pages v h0 =>
    rcases allocPage_cases h.took.ok with ⟨a, ha, hto, -⟩ | ⟨ha, -⟩
    · have hne := ((hto.taken a rfl).managed h.took.ok).ne_zero
      exact absurd (ha.symm.trans h0) hne
    have hsame : ((pagingMemory pml4).pmmAllocPage v).2 = v := by
      rw [show (pagingMemory pml4).pmmAllocPage v = (0, v) from ha]
    rw [hsame]
    exact h
  | returned pages v va flags hP hva h0 hmap => exact (h.mapFresh va flags h0).give hok
  | recorded pages v va flags hP hva h0 hmap =>
    have hnew : Owns s₀ (Core.mapFresh (pagingMemory pml4) cr3 va flags v).2 cr3
        (⟨va, (allocPage v).1, flags⟩ :: pages) := h.mapFresh va flags h0
    exact (hnew.zero (mem_held_cons _ pages)).perm (List.perm_append_singleton _ pages).symm
  | released pages pages' v v' u hpages hv =>
    have hperm := h.perm hpages
    have hmid : Owns s₀ v' cr3 (u :: pages') := by
      rcases hv with rfl | ⟨rfl, -⟩
      · obtain ⟨N, hg, hG⟩ := unmapPageRoot_grew hperm.space hperm.took.ok hperm.plain u.va
        exact hperm.grew hg hG
      · exact hperm
    have hne := (hmid.managed hok (mem_held_cons u pages')).ne_zero
    rw [if_pos hne]
    exact hmid.give hok

theorem Owns.run {x y : List UserPage × State} (hok : Ok s₀)
    (hrun : ReflTransGen (PageStep (pagingMemory pml4) cr3 P) x y) (h : Owns s₀ x.2 cr3 x.1) :
    Owns s₀ y.2 cr3 y.1 := by
  induction hrun with
  | refl => exact h
  | tail _ hstep ih => exact Owns.step hok hstep ih

end Owns

section Life

theorem Owns.create (hS : Space s pml4) (hG : NoGiga s.mem 4 pml4) (hok : Ok s)
    (h0 : (pagingCreateAddressSpace pml4 s).1 ≠ 0) :
    Owns s (pagingCreateAddressSpace pml4 s).2 (pagingCreateAddressSpace pml4 s).1 [] := by
  rcases h : pagingCreateAddressSpace pml4 s with ⟨root, s'⟩
  rw [h] at h0
  rcases create_cases hS hG hok h with ⟨-, N, hN⟩ | ⟨hroot, -⟩
  · have hheld : held [] = ∅ := by simp [held]
    have hspace := hN.space
    refine ⟨?_, hspace.tree, hspace.low, hN.noGiga hG, List.nodup_nil, ?_⟩
    · rw [hheld, Set.union_empty, pagesOf, hN.pages]
      exact hN.took
    rw [hheld]
    exact Set.empty_disjoint _
  · exact absurd hroot h0

theorem Owns.destroy (h : Owns s₀ s cr3 []) (hok : Ok s₀) : Took s₀ (destroyTable 4 cr3 s) ∅ := by
  have hheld : held [] = ∅ := by simp [held]
  have htook := h.took
  rw [hheld, Set.union_empty] at htook
  have hdoomed : Doomed s 4 cr3 := by
    refine ⟨h.plain, le_rfl, h.tree, h.low, ?_, h.space.used⟩
    intro q hq
    exact (htook.managed q).2 ((htook.taken q hq).managed hok)
  have hend := htook.gave (destroyTable_spec htook.ok hdoomed) le_rfl
  rwa [Set.sdiff_self] at hend

theorem Owns.reaped {p : Process} (h : Owns s₀ s p.addressSpaceCr3 p.userPages) (hok : Ok s₀)
    (hS : Space s₀ pml4) : Took s₀ (reapedVm (pagingMemory pml4) p s) ∅ := by
  have hrun : ReflTransGen (PageStep (pagingMemory pml4) p.addressSpaceCr3 fun _ _ ↦ True)
      (p.userPages, s) _ := releasePages_run p.userPages s
  have hempty := Owns.run hok hrun h
  have hfree := hempty.took.taken _ (.inl Radix.self_mem_pages)
  have hne : p.addressSpaceCr3 ≠ 0 := (hfree.managed hok).ne_zero
  have hkernel : p.addressSpaceCr3 ≠ pml4 := by
    intro heq
    rw [heq] at hfree
    exact hS.used pml4 Radix.self_mem_pages hfree
  have hdestroy := hempty.destroy hok
  simpa only [reapedVm, pagingMemory, pagingDestroyAddressSpace, if_pos hne, hne, hkernel, or_self,
    if_false] using hdestroy

def Alone (k : Kernel State) (i : Fin 8) (pid : ℕ) : Prop :=
  ∀ j, j ≠ i → (k.processes j).state ≠ .unused → (k.processes j).pid ≠ pid

theorem processCreate_owns {k : Kernel State} {ticks parentPid pid : ℕ}
    (hS : Space k.vm pml4) (hG : NoGiga k.vm.mem 4 pml4) (hok : Ok k.vm)
    (h : (processCreate (pagingMemory pml4) k ticks parentPid).1 = pid) (hpid : pid ≠ 0)
    (hfresh : ∀ j, (k.processes j).state ≠ .unused → (k.processes j).pid ≠ pid) :
    let k₁ := (processCreate (pagingMemory pml4) k ticks parentPid).2
    ∃ i, processGet k₁ pid = some i ∧ (k₁.processes i).state = .ready ∧ Alone k₁ i pid ∧
      Owns k.vm k₁.vm (k₁.processes i).addressSpaceCr3 (k₁.processes i).userPages := by
  intro k₁
  obtain ⟨i, hget, h0, hvm, hother, hself⟩ := processCreate_found h hpid hfresh
  have hstate : (k₁.processes i).state = .ready := by
    rw [hself]
    rfl
  refine ⟨i, hget, hstate, ?_, ?_⟩
  · intro j hj
    rw [hother j hj]
    exact hfresh j
  · rw [hself, hvm]
    exact Owns.create hS hG hok h0

/-- A process is made, its user memory changes in any way, and it exits and is reaped: the pages
that are free are those that were free before, and no page was given back while it was free. -/
theorem process_memory_returned {k : Kernel State} {ticks parentPid pid : ℕ}
    (hS : Space k.vm pml4) (hG : NoGiga k.vm.mem 4 pml4) (hok : Ok k.vm)
    (hcreate : (processCreate (pagingMemory pml4) k ticks parentPid).1 = pid) (hpid : pid ≠ 0)
    (hfresh : ∀ j, (k.processes j).state ≠ .unused → (k.processes j).pid ≠ pid)
    (ops : List UserOp) (code reason tid : ℕ) :
    let k₁ := (processCreate (pagingMemory pml4) k ticks parentPid).2
    let k₂ := ops.foldl (userStep (pagingMemory pml4) pid) k₁
    let k₃ := (processExitWithCode k₂ pid code reason).2
    let k₄ := (processReap (pagingMemory pml4) k₃ pid tid).2
    (processReap (pagingMemory pml4) k₃ pid tid).1 = true →
      (∀ a, Free k₄.vm a ↔ Free k.vm a) ∧ k₄.vm.refreed = k.vm.refreed := by
  intro k₁ k₂ k₃ k₄ hreaped
  obtain ⟨i, hget, hstate, halone, howns⟩ := processCreate_owns hS hG hok hcreate hpid hfresh
  have hrun : SlotRun (pagingMemory pml4) _ k₁ k₂ i := SlotRun.all hget ops
  have howns₂ := Owns.run hok hrun.run howns
  rcases processExitWithCode_cases k₂ pid code reason with ⟨-, hz⟩ | ⟨j, kᵢ, hj, -, hipc, he⟩
  · have := hz i (hrun.get hget)
    rw [hrun.state, hstate] at this
    cases this
  obtain rfl : i = j := Option.some.inj ((hrun.get hget).symm.trans hj)
  have hexit : k₃ = _ := congrArg Prod.snd he
  obtain ⟨handles, hproc⟩ := hipc.process i
  have hslot : k₃.processes i = { kᵢ.processes i with
      exitCode := code, exitReason := reason, state := .zombie } := by
    rw [hexit]
    exact Function.update_self ..
  rcases processReap_eq (pagingMemory pml4) k₃ pid tid with hr | ⟨j, hj₃, -, hr⟩
  · rw [hr] at hreaped
    cases hreaped
  have hji : j = i := by
    obtain ⟨hused, hjpid⟩ := processGet_some hj₃
    by_contra hne
    have hother : (k₃.processes j).state = (k₁.processes j).state ∧
        (k₃.processes j).pid = (k₁.processes j).pid := by
      rw [← hrun.other j hne, hexit]
      simpa [hne] using hipc.state j
    exact halone j hne (hother.1 ▸ hused) (hother.2 ▸ hjpid)
  subst hji
  have hvm : k₄.vm = reapedVm (pagingMemory pml4) (k₃.processes j) k₃.vm :=
    congrArg (fun r ↦ r.2.vm) hr
  have hvm₃ : k₃.vm = k₂.vm := by
    rw [hexit]
    exact hipc.vm
  have howns₃ : Owns k.vm k₃.vm (k₃.processes j).addressSpaceCr3 (k₃.processes j).userPages := by
    rw [hvm₃, hslot, hproc, hrun.cr3]
    exact howns₂
  have hend := howns₃.reaped hok hS
  rw [← hvm] at hend
  exact ⟨fun a ↦ by simp [hend.free a], hend.refreed⟩

/-- The second call finds the mapping that the first one has left behind, and records a page. -/
def mappedTwice : List UserOp := [.mapUserPage 0x400000 2, .mapUserPage 0x400000 2]

theorem process_memory_returned_mappedTwice :
    let m := pagingMemory 0x1000
    let k := bootKernel (onePath tableFlags elevenPages)
    let k₂ := mappedTwice.foldl (userStep m 1) (processCreate m k 0 0).2
    let k₃ := (processExitWithCode k₂ 1 0 0).2
    (k₂.processes 0).userPages = [⟨0x400000, 0x9000, 2⟩] ∧ (processReap m k₃ 1 0).1 = true ∧
      (∀ a, Free (processReap m k₃ 1 0).2.vm a ↔ Free k.vm a) := by
  intro m k k₂ k₃
  have hspace : Space k.vm 0x1000 := elevenPages_space (by decide)
  have hplain : NoGiga k.vm.mem 4 0x1000 := onePath_noGiga (by decide) (by decide)
  have hcreate : (processCreate m k 0 0).1 = 1 := by decide +kernel
  have hreap : (processReap m k₃ 1 0).1 = true := by decide +kernel
  exact ⟨by decide +kernel, hreap, (process_memory_returned hspace hplain ⟨by decide, by decide⟩
    hcreate one_ne_zero (by decide +kernel) mappedTwice 0 0 0 hreap).1⟩

end Life

end NexusOS.Core
