import NexusOS.Mm.PagingSpaces

namespace NexusOS.Mm.Paging

open Lib

variable {s s' : State} {pml4 root r r' va a : ℕ} {N : Set ℕ}

section World

/-- The machine with the roots of the address spaces in use and the pages that the rest of the
kernel has taken from the allocator. -/
structure World where
  state : State
  live : List ℕ
  taken : List ℕ

/-- The calls. `none` stands for the kernel's own tables, `some k` for the space at index `k`. The
rest of the kernel may take pages at any time and give back those it has taken. -/
inductive Op
  | create
  | map (space : Option ℕ) (va pa flags : ℕ)
  | unmap (space : Option ℕ) (va : ℕ)
  | destroy (space : Option ℕ)
  | take
  | give (index : ℕ)

variable (pml4 : ℕ)

def World.cr3 (w : World) : Option ℕ → Option ℕ
  | none => some pml4
  | some k => w.live[k]?

def World.target (w : World) : Op → Option ℕ
  | .map space _ _ _ => w.cr3 pml4 space
  | .unmap space _ => w.cr3 pml4 space
  | .destroy space => w.cr3 pml4 space
  | _ => none

def World.step (w : World) : Op → World
  | .create =>
    let r := pagingCreateAddressSpace pml4 w.state
    { w with state := r.2, live := if r.1 = 0 then w.live else w.live ++ [r.1] }
  | .map space va pa flags =>
    match w.cr3 pml4 space with
    | none => w
    | some cr3 => { w with state := (pagingMapPageInCr3 cr3 va pa flags w.state).2 }
  | .unmap space va =>
    match w.cr3 pml4 space with
    | none => w
    | some cr3 => { w with state := (pagingUnmapPageInCr3 cr3 va w.state).2 }
  | .destroy space =>
    match w.cr3 pml4 space with
    | none => w
    | some cr3 => { w with
        state := pagingDestroyAddressSpace pml4 cr3 w.state
        live := w.live.erase cr3 }
  | .take =>
    let r := allocPage w.state
    { w with state := r.2, taken := if r.1 = 0 then w.taken else r.1 :: w.taken }
  | .give index =>
    match w.taken[index]? with
    | none => w
    | some a => { w with state := freePage w.state a, taken := w.taken.erase a }

/-- The address spaces and the kernel's tables share no page, and none of their pages is free or
in other hands. -/
structure Isolated (w : World) : Prop where
  ok : Ok w.state
  nodup : (pml4 :: w.live).Nodup
  space : ∀ r ∈ pml4 :: w.live, Space w.state r
  plain : ∀ r ∈ pml4 :: w.live, NoGiga w.state.mem 4 r
  managed : ∀ r ∈ w.live, ∀ q ∈ pagesOf w.state r, Managed w.state q
  disjoint : ∀ r ∈ pml4 :: w.live, ∀ r' ∈ pml4 :: w.live, r ≠ r' →
    Disjoint (pagesOf w.state r) (pagesOf w.state r')
  held : w.taken.Nodup
  taken : ∀ a ∈ w.taken, Managed w.state a ∧ ¬ Free w.state a ∧
    ∀ r ∈ pml4 :: w.live, a ∉ pagesOf w.state r

variable {pml4} {w : World}

theorem mem_of_cr3 {space : Option ℕ} (h : w.cr3 pml4 space = some r) : r ∈ pml4 :: w.live := by
  cases space with
  | none => exact List.mem_cons.2 (.inl (Option.some.inj h).symm)
  | some k => exact List.mem_cons_of_mem _ (List.mem_of_getElem? h)

section

variable (h : Isolated pml4 w)
include h

theorem Isolated.grew (hr : r ∈ pml4 :: w.live) (hg : Grew w.state s' r N)
    (hG : NoGiga s'.mem 4 r) : Isolated pml4 { w with state := s' } ∧
      ∀ r' ∈ pml4 :: w.live, r' ≠ r → Kept w.state s' r' := by
  have hkept : ∀ r' ∈ pml4 :: w.live, r' ≠ r → Kept w.state s' r' := by
    intro r' hr' hne
    exact hg.kept (h.space r' hr') (h.disjoint r hr r' hr' hne.symm)
  have hnew : ∀ r' ∈ pml4 :: w.live, Disjoint N (pagesOf w.state r') := by
    intro r' hr'
    rw [Set.disjoint_left]
    intro q hN hq
    exact (h.space r' hr').used q hq (hg.took.taken q hN)
  refine ⟨⟨hg.took.ok, h.nodup, ?_, ?_, ?_, ?_, h.held, ?_⟩, hkept⟩
  · intro r' hr'
    by_cases hne : r' = r
    · rw [hne]
      exact hg.space (h.space r hr)
    · exact (hkept r' hr' hne).space (h.space r' hr')
  · intro r' hr'
    by_cases hne : r' = r
    · rw [hne]
      exact hG
    · exact (h.plain r' hr').congr (hkept r' hr' hne).mem
  · intro r' hr' q hq
    have hr'' := List.mem_cons_of_mem pml4 hr'
    apply (hg.took.managed q).2
    by_cases hne : r' = r
    · rw [hne, hg.pages] at hq
      rcases hq with hq | hq
      · exact h.managed r (hne ▸ hr') q hq
      · exact (hg.took.taken q hq).managed h.ok
    · rw [(hkept r' hr'' hne).pages] at hq
      exact h.managed r' hr' q hq
  · -- The new pages of `r` were free, so no other space has them.
    have hone : ∀ r' ∈ pml4 :: w.live, r' ≠ r → Disjoint (pagesOf s' r) (pagesOf s' r') := by
      intro r' hr' hne
      rw [hg.pages, (hkept r' hr' hne).pages, Set.disjoint_union_left]
      exact ⟨h.disjoint r hr r' hr' hne.symm, hnew r' hr'⟩
    intro r₁ hr₁ r₂ hr₂ hne
    by_cases h1 : r₁ = r
    · rw [h1]
      exact hone r₂ hr₂ fun h2 ↦ hne (h1.trans h2.symm)
    by_cases h2 : r₂ = r
    · rw [h2]
      exact (hone r₁ hr₁ h1).symm
    rw [(hkept r₁ hr₁ h1).pages, (hkept r₂ hr₂ h2).pages]
    exact h.disjoint r₁ hr₁ r₂ hr₂ hne
  · intro a ha
    obtain ⟨hm, hu, hout⟩ := h.taken a ha
    refine ⟨(hg.took.managed a).2 hm, fun hf ↦ hu ((hg.took.free a).1 hf).1, ?_⟩
    intro r' hr'
    by_cases hne : r' = r
    · rw [hne, hg.pages]
      rintro (hq | hq)
      · exact hout r hr hq
      · exact hu (hg.took.taken a hq)
    · rw [(hkept r' hr' hne).pages]
      exact hout r' hr'

theorem Isolated.took (hto : Took w.state s' N)
    (hframe : ∀ q, ¬ Free w.state q → s'.mem q = w.state.mem q) :
    Isolated pml4 { w with state := s' } ∧ ∀ r ∈ pml4 :: w.live, Kept w.state s' r := by
  have hkept : ∀ r ∈ pml4 :: w.live, Kept w.state s' r := fun r hr ↦ hto.kept hframe (h.space r hr)
  refine ⟨⟨hto.ok, h.nodup, ?_, ?_, ?_, ?_, h.held, ?_⟩, hkept⟩
  · exact fun r hr ↦ (hkept r hr).space (h.space r hr)
  · exact fun r hr ↦ (h.plain r hr).congr (hkept r hr).mem
  · intro r hr q hq
    rw [(hkept r (List.mem_cons_of_mem pml4 hr)).pages] at hq
    exact (hto.managed q).2 (h.managed r hr q hq)
  · intro r hr r' hr' hne
    rw [(hkept r hr).pages, (hkept r' hr').pages]
    exact h.disjoint r hr r' hr' hne
  intro a ha
  obtain ⟨hm, hu, hout⟩ := h.taken a ha
  refine ⟨(hto.managed a).2 hm, fun hf ↦ hu ((hto.free a).1 hf).1, ?_⟩
  intro r hr
  rw [(hkept r hr).pages]
  exact hout r hr

theorem Isolated.add (hc : Cloned w.state.mem w.state s' 4 pml4 root N) :
    Isolated pml4 { w with state := s', live := w.live ++ [root] } := by
  obtain ⟨hw, hkept⟩ := h.took hc.took hc.frame'
  have hmem : ∀ r, r ∈ pml4 :: (w.live ++ [root]) ↔ r ∈ pml4 :: w.live ∨ r = root := by
    intro r
    simp [or_assoc]
  have hself : root ∈ N := by
    rw [← hc.pages]
    exact Radix.self_mem_pages
  have hnew : ∀ r ∈ pml4 :: w.live, Disjoint (pagesOf s' root) (pagesOf s' r) := by
    intro r hr
    rw [pagesOf, hc.pages, (hkept r hr).pages, Set.disjoint_left]
    intro q hN hq
    exact (h.space r hr).used q hq (hc.took.taken q hN)
  refine ⟨hw.ok, ?_, ?_, ?_, ?_, ?_, h.held, ?_⟩
  · rw [← List.cons_append, List.nodup_append_comm, List.singleton_append, List.nodup_cons]
    refine ⟨?_, h.nodup⟩
    intro hr
    exact (h.space root hr).used root Radix.self_mem_pages (hc.took.taken root hself)
  · intro r hr
    rcases (hmem r).1 hr with hr | rfl
    · exact hw.space r hr
    · exact hc.space
  · intro r hr
    rcases (hmem r).1 hr with hr | rfl
    · exact hw.plain r hr
    · exact hc.noGiga (h.plain pml4 List.mem_cons_self)
  · intro r hr q hq
    rcases List.mem_append.1 hr with hr | hr
    · exact hw.managed r hr q hq
    rw [List.mem_singleton.1 hr, pagesOf, hc.pages] at hq
    exact (hc.took.managed q).2 ((hc.took.taken q hq).managed h.ok)
  · intro r hr r' hr' hne
    rcases (hmem r).1 hr with hold | hr
    · rcases (hmem r').1 hr' with hold' | hr'
      · exact hw.disjoint r hold r' hold' hne
      · rw [hr']
        exact (hnew r hold).symm
    rcases (hmem r').1 hr' with hold' | hr'
    · rw [hr]
      exact hnew r' hold'
    · exact absurd (hr.trans hr'.symm) hne
  intro a ha
  obtain ⟨hm, hu, hout⟩ := hw.taken a ha
  refine ⟨hm, hu, ?_⟩
  intro r hr
  rcases (hmem r).1 hr with hr | rfl
  · exact hout r hr
  rw [pagesOf, hc.pages]
  intro hN
  exact (h.taken a ha).2.1 (hc.took.taken a hN)

theorem Isolated.gave (hg : Gave w.state s' N) {live held : List ℕ}
    (hlive : live.Sublist w.live) (hheld : held.Sublist w.taken)
    (hd : ∀ r ∈ pml4 :: live, Disjoint N (pagesOf w.state r)) (hout : ∀ a ∈ held, a ∉ N) :
    Isolated pml4 ⟨s', live, held⟩ ∧ ∀ r ∈ pml4 :: live, Kept w.state s' r := by
  have hsub : ∀ r ∈ pml4 :: live, r ∈ pml4 :: w.live := fun r hr ↦ (hlive.cons_cons pml4).subset hr
  have hkept : ∀ r ∈ pml4 :: live, Kept w.state s' r :=
    fun r hr ↦ hg.kept (h.space r (hsub r hr)) (hd r hr)
  refine ⟨⟨hg.ok, h.nodup.sublist (hlive.cons_cons pml4), ?_, ?_, ?_, ?_, h.held.sublist hheld, ?_⟩,
    hkept⟩
  · exact fun r hr ↦ (hkept r hr).space (h.space r (hsub r hr))
  · exact fun r hr ↦ (h.plain r (hsub r hr)).congr (hkept r hr).mem
  · intro r hr q hq
    rw [(hkept r (List.mem_cons_of_mem pml4 hr)).pages] at hq
    exact (hg.managed q).2 (h.managed r (hlive.subset hr) q hq)
  · intro r hr r' hr' hne
    rw [(hkept r hr).pages, (hkept r' hr').pages]
    exact h.disjoint r (hsub r hr) r' (hsub r' hr') hne
  · intro a ha
    obtain ⟨hm, hu, hpages⟩ := h.taken a (hheld.subset ha)
    refine ⟨(hg.managed a).2 hm, ?_, ?_⟩
    · intro hf
      exact ((hg.free a).1 hf).elim hu (hout a ha)
    intro r hr
    rw [(hkept r hr).pages]
    exact hpages r (hsub r hr)

theorem Isolated.step (op : Op) : Isolated pml4 (w.step pml4 op) ∧
      ∀ r ∈ pml4 :: w.live, r ∈ pml4 :: (w.step pml4 op).live → some r ≠ w.target pml4 op →
        Kept w.state (w.step pml4 op).state r := by
  have hkernel := List.mem_cons_self (a := pml4) (l := w.live)
  have hrefl : ∀ r ∈ pml4 :: w.live, Kept w.state w.state r :=
    fun r hr ↦ ⟨fun _ _ ↦ rfl, (h.space r hr).used⟩
  cases op with
  | create =>
    rcases hc : pagingCreateAddressSpace pml4 w.state with ⟨root, s'⟩
    simp only [World.step, hc]
    rcases create_cases (h.space _ hkernel) (h.plain _ hkernel) h.ok hc with
      ⟨h0, N, hN⟩ | ⟨rfl, N, hN⟩
    · rw [if_neg h0]
      exact ⟨h.add hN, fun r hr _ _ ↦ hN.took.kept hN.frame' (h.space r hr)⟩
    · obtain ⟨hw, hkept⟩ := h.took hN.took hN.frame
      exact ⟨hw, fun r hr _ _ ↦ hkept r hr⟩
  | map space va pa flags =>
    simp only [World.step, World.target]
    cases hcr3 : w.cr3 pml4 space with
    | none => exact ⟨h, fun r hr _ _ ↦ hrefl r hr⟩
    | some cr3 =>
      have hr := mem_of_cr3 hcr3
      obtain ⟨N, hN, hG⟩ := mapPageRoot_grew (h.space cr3 hr) h.ok (h.plain cr3 hr) va pa flags
      obtain ⟨hw, hkept⟩ := h.grew hr hN hG
      exact ⟨hw, fun r hr _ hne ↦ hkept r hr fun heq ↦ hne (congrArg some heq)⟩
  | unmap space va =>
    simp only [World.step, World.target]
    cases hcr3 : w.cr3 pml4 space with
    | none => exact ⟨h, fun r hr _ _ ↦ hrefl r hr⟩
    | some cr3 =>
      have hr := mem_of_cr3 hcr3
      obtain ⟨N, hN, hG⟩ := unmapPageRoot_grew (h.space cr3 hr) h.ok (h.plain cr3 hr) va
      obtain ⟨hw, hkept⟩ := h.grew hr hN hG
      exact ⟨hw, fun r hr _ hne ↦ hkept r hr fun heq ↦ hne (congrArg some heq)⟩
  | destroy space =>
    simp only [World.step, World.target]
    cases hcr3 : w.cr3 pml4 space with
    | none => exact ⟨h, fun r hr _ _ ↦ hrefl r hr⟩
    | some cr3 =>
      have hr := mem_of_cr3 hcr3
      by_cases hk : cr3 = pml4
      · subst hk
        have hlive : w.live.erase cr3 = w.live := List.erase_of_not_mem (List.nodup_cons.1 h.nodup).1
        simp only [pagingDestroyAddressSpace, or_true, if_true, hlive]
        exact ⟨h, fun r hr _ _ ↦ hrefl r hr⟩
      have hmem : cr3 ∈ w.live := (List.mem_cons.1 hr).resolve_left hk
      have hS := h.space cr3 hr
      have h0 := (h.managed cr3 hmem cr3 Radix.self_mem_pages).ne_zero
      simp only [pagingDestroyAddressSpace, h0, hk, or_self, if_false]
      have hg := destroyTable_spec (n := 3) h.ok
        ⟨h.plain cr3 hr, le_rfl, hS.tree, hS.low, h.managed cr3 hmem, hS.used⟩
      obtain ⟨hw, hkept⟩ := h.gave hg (List.erase_sublist (a := cr3) (l := w.live))
        (List.Sublist.refl w.taken) (by
          intro r' hr'
          have hne : r' ≠ cr3 := by
            intro heq
            rcases List.mem_cons.1 hr' with h1 | h1
            · exact hk (heq.symm.trans h1)
            · exact ((List.nodup_cons.1 h.nodup).2.mem_erase_iff.1 h1).1 heq
          exact h.disjoint cr3 hr r' ((List.erase_sublist.cons_cons pml4).subset hr') hne.symm)
        (fun a ha ↦ (h.taken a ha).2.2 cr3 hr)
      exact ⟨hw, fun r _ hr _ ↦ hkept r hr⟩
  | take =>
    simp only [World.step]
    rcases allocPage_cases h.ok with ⟨a, ha, hto, -⟩ | ⟨ha, -⟩
    · have hm := (hto.taken a rfl).managed h.ok
      obtain ⟨hw, hkept⟩ := h.took hto fun _ _ ↦ rfl
      rw [ha, if_neg hm.ne_zero]
      refine ⟨⟨hw.ok, hw.nodup, hw.space, hw.plain, hw.managed, hw.disjoint, ?_, ?_⟩,
        fun r hr _ _ ↦ hkept r hr⟩
      · refine List.nodup_cons.2 ⟨?_, h.held⟩
        intro hin
        exact (h.taken a hin).2.1 (hto.taken a rfl)
      · intro b hb
        rcases List.mem_cons.1 hb with rfl | hb
        · refine ⟨(hto.managed b).2 hm, fun hf ↦ ((hto.free b).1 hf).2 rfl, ?_⟩
          intro r hr hq
          rw [(hkept r hr).pages] at hq
          exact (h.space r hr).used b hq (hto.taken b rfl)
        · exact hw.taken b hb
    · simp only [ha, if_true]
      exact ⟨h, fun r hr _ _ ↦ hrefl r hr⟩
  | give index =>
    simp only [World.step]
    cases ha : w.taken[index]? with
    | none => exact ⟨h, fun r hr _ _ ↦ hrefl r hr⟩
    | some a =>
      have hmem := List.mem_of_getElem? ha
      obtain ⟨hm, hu, hout⟩ := h.taken a hmem
      obtain ⟨hw, hkept⟩ := h.gave (freePage_spec h.ok hm hu) (List.Sublist.refl w.live)
        (List.erase_sublist (a := a)) (fun r hr ↦ Set.disjoint_singleton_left.2 (hout r hr))
        (fun b hb hba ↦ (h.held.mem_erase_iff.1 hb).1 hba)
      exact ⟨hw, fun r hr _ _ ↦ hkept r hr⟩

theorem Isolated.run (ops : List Op) : Isolated pml4 (ops.foldl (World.step pml4) w) :=
  foldl_invariant (fun _ op hw ↦ (hw.step op).1) h ops

end

/-- In every state that calls lead to, the address spaces and the kernel's tables share no table
page; a new space translates as the kernel's tables do; and a call on one space changes no
translation in another. -/
theorem spaces_isolated (hS : Space s pml4) (hG : NoGiga s.mem 4 pml4) (hok : Ok s)
    (ops : List Op) :
    let w := ops.foldl (World.step pml4) ⟨s, [], []⟩
    (pml4 :: w.live).Pairwise (fun r r' ↦ Disjoint (pagesOf w.state r) (pagesOf w.state r')) ∧
    (∀ root s', pagingCreateAddressSpace pml4 w.state = (root, s') → root ≠ 0 →
      ∀ va, pagingVirtToPhysInCr3 root va s' = pagingVirtToPhys pml4 va w.state) ∧
    ∀ op, ∀ r ∈ pml4 :: w.live, r ∈ pml4 :: (w.step pml4 op).live → some r ≠ w.target pml4 op →
      ∀ va, pagingVirtToPhysInCr3 r va (w.step pml4 op).state =
        pagingVirtToPhysInCr3 r va w.state := by
  intro w
  have hw : Isolated pml4 w := by
    apply Isolated.run
    refine ⟨hok, by simp, ?_, ?_, by simp, ?_, List.nodup_nil, by simp⟩
    · intro r hr
      rw [List.mem_singleton.1 hr]
      exact hS
    · intro r hr
      rw [List.mem_singleton.1 hr]
      exact hG
    · intro r hr r' hr' hne
      exact absurd ((List.mem_singleton.1 hr).trans (List.mem_singleton.1 hr').symm) hne
  have hkernel := List.mem_cons_self (a := pml4) (l := w.live)
  refine ⟨?_, ?_, ?_⟩
  · exact hw.nodup.imp_of_mem fun hr hr' hne ↦ hw.disjoint _ hr _ hr' hne
  · intro root s' hc h0 va
    rcases create_cases (hw.space _ hkernel) (hw.plain _ hkernel) hw.ok hc with ⟨-, N, hN⟩ | ⟨h, -⟩
    · exact hN.virtToPhysRoot (hw.space _ hkernel) va
    · exact absurd h h0
  · intro op r hr hr' hne va
    exact ((hw.step op).2 r hr hr' hne).virtToPhysRoot (hw.space r hr) va

def elevenPages : Pmm.State := ⟨fun b ↦ if b = 0 then 0x1F else 0, 16, 11, 0x10000, true⟩

theorem elevenPages_space {flags : ℕ} (hf : flags < 128) :
    Space (onePath flags elevenPages) 0x1000 := by
  apply onePath_space hf
  intro b h1 h4
  interval_cases b <;> decide

theorem spaces_isolated_elevenPages :
    let w := [Op.create].foldl (World.step 0x1000) ⟨onePath tableFlags elevenPages, [], []⟩
    w.live = [0x5000] ∧
      (0x1000 :: w.live).Pairwise (fun r r' ↦ Disjoint (pagesOf w.state r) (pagesOf w.state r')) ∧
      ∀ va, pagingVirtToPhysInCr3 0x1000 va (w.step 0x1000 (.map (some 0) 0 0x6000 7)).state =
        pagingVirtToPhysInCr3 0x1000 va w.state := by
  have hspace : Space (onePath tableFlags elevenPages) 0x1000 := elevenPages_space (by decide)
  obtain ⟨hdisj, -, hother⟩ := spaces_isolated hspace (onePath_noGiga (by decide) (by decide))
    ⟨by decide, by decide⟩ [Op.create]
  refine ⟨by decide +kernel, hdisj, ?_⟩
  exact hother (.map (some 0) 0 0x6000 7) 0x1000 (by decide +kernel) (by decide +kernel)
    (by decide +kernel)

end World

end NexusOS.Mm.Paging
