import NexusOS.Mm.PagingWalk

namespace NexusOS.Mm.Paging

open Lib

variable {m₀ : ℕ → Fin 512 → ℕ} {s₀ s s₁ s' : State} {n c e e' a src dst t : ℕ} {N M : Set ℕ}
  {i : Fin 512} {is : List (Fin 512)}

section Count

def lowFree (s : State) : Set ℕ := {q | Free s q ∧ q < 2 ^ 32}

noncomputable def lowCount (s : State) : ℕ := (lowFree s).ncard

theorem lowFree_finite (s : State) : (lowFree s).Finite :=
  (Set.finite_Iio (2 ^ 32)).subset fun _ hq ↦ hq.2

theorem lowCount_took (h : Took s s' {a}) (hlow : a < 2 ^ 32) : lowCount s = lowCount s' + 1 := by
  have ha : a ∈ lowFree s := ⟨h.taken a rfl, hlow⟩
  have hdiff : lowFree s' = lowFree s \ {a} := by
    ext q
    have := h.free q
    simp only [lowFree, Set.mem_sdiff, Set.mem_ofPred_eq]
    tauto
  rw [lowCount, lowCount, hdiff, Set.ncard_sdiff_singleton_add_one ha (lowFree_finite s)]

theorem lowCount_eq_zero (h : ∀ b, Free s b → 2 ^ 32 ≤ b) : lowCount s = 0 := by
  have hempty : lowFree s = ∅ := by
    ext q
    simp only [lowFree, Set.mem_ofPred_eq, Set.mem_empty_iff_false, iff_false]
    intro ⟨hfree, hlt⟩
    have := h q hfree
    omega
  rw [lowCount, hempty, Set.ncard_empty]

/-- The number of tables on the first path down from a table: those a copy makes before it has
finished one. -/
def spineOf (m : ℕ → Fin 512 → ℕ) : ℕ → ℕ → ℕ
  | 0, _ => 0
  | n + 1, t =>
    1 + ((List.finRange 512).findSome? fun i ↦ childOf (n + 1) (m t i)).elim 0 (spineOf m n)

/-- The part of the path below a table that is found in the entries `is`. -/
def spineIn (m : ℕ → Fin 512 → ℕ) (n t : ℕ) (is : List (Fin 512)) : ℕ :=
  (is.findSome? fun i ↦ childOf (n + 1) (m t i)).elim 0 (spineOf m n)

theorem spineIn_leaf (h : childOf (n + 1) (m₀ t i) = none) :
    spineIn m₀ n t (i :: is) = spineIn m₀ n t is := by
  simp only [spineIn, List.findSome?_cons, h]

theorem spineIn_table (h : childOf (n + 1) (m₀ t i) = some c) :
    spineIn m₀ n t (i :: is) = spineOf m₀ n c := by
  simp only [spineIn, List.findSome?_cons, h, Option.elim_some]

end Count

section Source

def NoGiga (m : ℕ → Fin 512 → ℕ) : ℕ → ℕ → Prop
  | 0, _ => True
  | n + 1, t => ∀ i, (n + 1 = 3 → present (m t i) = true → huge (m t i) = false) ∧
      ∀ c, childOf (n + 1) (m t i) = some c → NoGiga m n c

/-- The tables of a tree as they were in `m₀`: none is free. -/
structure Source (m₀ : ℕ → Fin 512 → ℕ) (s : State) (n t : ℕ) : Prop where
  plain : NoGiga m₀ n t
  level : n ≤ 4
  mem : ∀ q ∈ Radix.Pages childOf m₀ n t, s.mem q = m₀ q
  used : ∀ q ∈ Radix.Pages childOf m₀ n t, ¬ Free s q
  low : ∀ q ∈ Radix.Pages childOf m₀ n t, TableAt q

theorem Source.child (h : Source m₀ s (n + 1) t) (hc : childOf (n + 1) (m₀ t i) = some c) :
    Source m₀ s n c := by
  have hsub : ∀ q ∈ Radix.Pages childOf m₀ n c, q ∈ Radix.Pages childOf m₀ (n + 1) t :=
    fun q hq ↦ Radix.mem_pages_child hc hq
  refine ⟨(h.plain i).2 c hc, ?_, ?_, ?_, ?_⟩
  · have := h.level
    omega
  · exact fun q hq ↦ h.mem q (hsub q hq)
  · exact fun q hq ↦ h.used q (hsub q hq)
  · exact fun q hq ↦ h.low q (hsub q hq)

theorem Source.mono (h : Source m₀ s n t) (hto : Took s s' N)
    (hframe : ∀ q, ¬ Free s q → s'.mem q = s.mem q) : Source m₀ s' n t := by
  refine ⟨h.plain, h.level, ?_, ?_, h.low⟩
  · intro q hq
    rw [hframe q (h.used q hq), h.mem q hq]
  intro q hq hfree
  exact h.used q hq ((hto.free q).1 hfree).1

theorem Source.entry_cases (h : Source m₀ s (n + 1) t) (i : Fin 512) :
    (present (m₀ t i) = false ∧ childOf (n + 1) (m₀ t i) = none) ∨
    (present (m₀ t i) = true ∧ ((n + 1 = 2 ∧ huge (m₀ t i) = true) ∨ n + 1 = 1) ∧
      childOf (n + 1) (m₀ t i) = none) ∨
    (present (m₀ t i) = true ∧ ¬ ((n + 1 = 2 ∧ huge (m₀ t i) = true) ∨ n + 1 = 1) ∧
      childOf (n + 1) (m₀ t i) = some (tableAddr (m₀ t i))) := by
  have hlevel := h.level
  have hplain := (h.plain i).1
  cases hp : present (m₀ t i) with
  | false => exact .inl ⟨rfl, childOf_of_not_present hp⟩
  | true =>
    right
    by_cases hleaf : (n + 1 = 2 ∧ huge (m₀ t i) = true) ∨ n + 1 = 1
    · left
      refine ⟨rfl, hleaf, ?_⟩
      rcases hleaf with ⟨h2, hh⟩ | h1
      · simp [childOf, h2, hh]
      · simp [h1]
    right
    refine ⟨rfl, hleaf, ?_⟩
    have hh : ¬ (n + 1 < 4 ∧ huge (m₀ t i) = true) := by
      rintro ⟨hlt, hh⟩
      by_cases h3 : n + 1 = 3
      · rw [hplain h3 hp] at hh
        cases hh
      apply hleaf
      by_cases h1 : n + 1 = 1
      · exact .inr h1
      · exact .inl ⟨by omega, hh⟩
    have h1 : 1 < n + 1 := by omega
    simp only [childOf, hp, h1, hh, not_false_eq_true, and_self, if_true]

end Source

section Copy

def SameFlags (e e' : ℕ) : Prop := ∀ i < 12, e'.testBit i = e.testBit i

def SameLeaf (e e' : ℕ) : Prop := (present e = false ∧ e' = 0) ∨ e' = e

abbrev CopiesOf (m m' : ℕ → Fin 512 → ℕ) (n t t' : ℕ) : Prop :=
  Radix.Copies childOf SameFlags SameLeaf m m' n t t'

abbrev EntryCopied (m₀ m : ℕ → Fin 512 → ℕ) (n e e' : ℕ) : Prop :=
  Radix.CopiesEntry childOf SameFlags SameLeaf (CopiesOf m₀ m n) (n + 1) e e'

theorem tableCopy_flags (ha : a % 4096 = 0) : SameFlags e (a ||| e % 4096) := by
  intro i hi
  rw [testBit_aligned_or ha hi, show (4096 : ℕ) = 2 ^ 12 by rfl, Nat.testBit_mod_two_pow]
  simp [hi]

theorem tableCopy_child (ha : a % 4096 = 0) (hc : childOf n e = some c) :
    childOf n (a ||| e % 4096) = some a := by
  have hflags := tableCopy_flags (e := e) ha
  have haddr : tableAddr (a ||| e % 4096) = a := by
    rw [tableAddr, aligned_or ha (Nat.mod_lt _ (by decide))]
    omega
  obtain ⟨hp, h1, hh, -⟩ := childOf_eq_some hc
  have hp' : present (a ||| e % 4096) = true := (hflags 0 (by decide)).trans hp
  have hh' : ¬ (n < 4 ∧ huge (a ||| e % 4096) = true) := by
    rintro ⟨hlt, hhuge⟩
    rw [show huge (a ||| e % 4096) = huge e from hflags 7 (by decide), hh hlt] at hhuge
    cases hhuge
  simp only [childOf, hp', h1, hh', not_false_eq_true, and_self, if_true, haddr]

/-- `t'` has become a copy of table `t`, made of the pages `N`. -/
structure Cloned (m₀ : ℕ → Fin 512 → ℕ) (s s' : State) (n t t' : ℕ) (N : Set ℕ) : Prop where
  took : Took s s' N
  low : ∀ q ∈ N, TableAt q
  frame : ∀ q, q ∉ N → s'.mem q = s.mem q
  tree : Radix.Tree childOf s'.mem n t'
  pages : Radix.Pages childOf s'.mem n t' = N
  copies : CopiesOf m₀ s'.mem n t t'

/-- The loop of `clone_table` in table `dst` has still to go through the entries `is`. -/
structure Cloning (m₀ : ℕ → Fin 512 → ℕ) (s₀ s : State) (n src dst : ℕ) (is : List (Fin 512))
    (N : Set ℕ) : Prop where
  took : Took s₀ s N
  low : ∀ q ∈ N, TableAt q
  frame : ∀ q, q ∉ N → s.mem q = s₀.mem q
  tree : Radix.Tree childOf s.mem (n + 1) dst
  pages : Radix.Pages childOf s.mem (n + 1) dst = N
  copied : ∀ i, i ∉ is → EntryCopied m₀ s.mem n (m₀ src i) (s.mem dst i)
  blank : ∀ i ∈ is, s.mem dst i = 0
  /-- Either no table below `dst` has been copied, or the first path down has. -/
  spine : (N = {dst} ∧ spineOf m₀ (n + 1) src = 1 + spineIn m₀ n src is) ∨
    (N ≠ {dst} ∧ spineOf m₀ (n + 1) src ≤ lowCount s₀)

theorem Cloning.dst_mem (h : Cloning m₀ s₀ s n src dst is N) : dst ∈ N := by
  rw [← h.pages]
  exact Radix.self_mem_pages

theorem Cloning.start (hto : Took s₀ s {dst}) (hlow : TableAt dst)
    (hmem : s.mem = Function.update s₀.mem dst fun _ ↦ 0) :
    Cloning m₀ s₀ s n src dst (List.finRange 512) {dst} := by
  have hzero : ∀ i, s.mem dst i = 0 := by
    intro i
    rw [hmem, Function.update_self]
  have hnone : ∀ i, childOf (n + 1) (s.mem dst i) = none := by
    intro i
    rw [hzero]
    exact childOf_of_not_present rfl
  refine ⟨hto, ?_, ?_, ?_, ?_, ?_, fun i _ ↦ hzero i, .inl ⟨rfl, rfl⟩⟩
  · intro q hq
    rw [Set.mem_singleton_iff.1 hq]
    exact hlow
  · intro q hq
    rw [hmem, Function.update_of_ne hq]
  · simp [Radix.Tree, hnone]
  · ext q
    simp [Radix.Pages, hnone]
  · intro i hi
    exact absurd (List.mem_finRange i) hi

theorem Cloning.advance (h : Cloning m₀ s₀ s n src dst (i :: is) N) (hnd : (i :: is).Nodup)
    (hto : Took s s₁ M) (hlow : ∀ q ∈ M, TableAt q) (hframe : ∀ q, q ∉ M → s₁.mem q = s.mem q)
    (hnone : childOf (n + 1) e' = none → M = ∅)
    (hsome : ∀ c, childOf (n + 1) e' = some c →
      Radix.Tree childOf s₁.mem n c ∧ Radix.Pages childOf s₁.mem n c = M)
    (hcopy : EntryCopied m₀ s₁.mem n (m₀ src i) e')
    (hspine : (N ∪ M = {dst} ∧ spineOf m₀ (n + 1) src = 1 + spineIn m₀ n src is) ∨
      (N ∪ M ≠ {dst} ∧ spineOf m₀ (n + 1) src ≤ lowCount s₀)) :
    Cloning m₀ s₀ (setEntry s₁ dst i e') n src dst is (N ∪ M) := by
  have hdst := h.dst_mem
  have hdisj : ∀ q ∈ N, q ∉ M := by
    intro q hq hM
    exact ((h.took.free q).1 (hto.taken q hM)).2 hq
  set m' := (setEntry s₁ dst i e').mem with hm'
  have hother : ∀ r, r ≠ dst → m' r = s₁.mem r := fun r hr ↦ setEntry_of_ne hr
  have hM : ∀ r ∈ M, m' r = s₁.mem r := fun r hr ↦ hother r fun hrd ↦ hdisj dst hdst (hrd ▸ hr)
  have hN : ∀ r ∈ N, r ≠ dst → m' r = s.mem r := by
    intro r hr hrd
    rw [hother r hrd, hframe r (hdisj r hr)]
  have hself : m' dst i = e' := setEntry_self _ _ _ _
  have hrow : ∀ j, j ≠ i → m' dst j = s.mem dst j := by
    intro j hj
    rw [hm', setEntry_row hj, hframe dst (hdisj dst hdst)]
  have hdiff : Radix.Differ childOf s.mem m' (fun _ ↦ i) (n + 1) (n + 1) dst dst := by
    refine ⟨Radix.tableOn_self, ?_, hrow⟩
    intro r hr hrd
    rw [h.pages] at hr
    exact hN r hr hrd
  have hpages : ∀ c, childOf (n + 1) e' = some c → Radix.Pages childOf m' n c = M := by
    intro c hc
    rw [← (hsome c hc).2]
    apply Radix.pages_congr
    intro r hr
    rw [(hsome c hc).2] at hr
    exact hM r hr
  have hgrow := hdiff.grow h.tree
    (by rw [h.blank i List.mem_cons_self]; exact childOf_of_not_present rfl) (by
      intro c hc
      rw [hself] at hc
      rw [Nat.add_sub_cancel, hpages c hc, h.pages]
      refine ⟨(hsome c hc).1.congr ?_, ?_⟩
      · intro r hr
        rw [(hsome c hc).2] at hr
        exact hM r hr
      · rw [Set.disjoint_left]
        exact fun q hqM hqN ↦ hdisj q hqN hqM)
  have hbelow : Radix.Below childOf m' (n + 1) (m' dst i) = M := by
    rw [hself]
    cases hc : childOf (n + 1) e' with
    | none =>
      rw [hnone hc]
      ext q
      simp [Radix.Below, hc]
    | some c =>
      rw [← hpages c hc]
      ext q
      simp [Radix.Below, hc]
  refine ⟨(h.took.trans hto).mem rfl rfl, ?_, ?_, hgrow.1, ?_, ?_, ?_, hspine⟩
  · intro q hq
    exact hq.elim (h.low q) (hlow q)
  · intro q hq
    rw [Set.mem_union, not_or] at hq
    rw [← hm', hother q (fun hqd ↦ hq.1 (hqd ▸ hdst)), hframe q hq.2, h.frame q hq.1]
  · rw [← hm', hgrow.2, h.pages, hbelow]
  · intro j hj
    by_cases hji : j = i
    · subst hji
      rw [← hm', hself]
      apply hcopy.mono
      intro d c hc hd
      apply hd.congr
      intro r hr
      rw [(hsome c hc).2] at hr
      exact hM r hr
    rw [← hm', hrow j hji]
    apply (h.copied j (by simp [hji, hj])).mono
    intro d c hc hd
    apply hd.congr
    intro r hr
    have hrN : r ∈ N := by
      rw [← h.pages]
      exact Radix.mem_pages_child hc hr
    apply hN r hrN
    intro hrd
    exact (h.tree j c hc).2.1 (hrd ▸ hr)
  · intro j hj
    have hji : j ≠ i := by
      intro hji
      exact (List.nodup_cons.1 hnd).1 (hji ▸ hj)
    rw [← hm', hrow j hji]
    exact h.blank j (List.mem_cons_of_mem i hj)

end Copy

section Clone

/-- A copy was given up. The pages `N` have not been returned: those of the tables that had been
finished by then. -/
structure CloneFailed (m₀ : ℕ → Fin 512 → ℕ) (s s' : State) (n t : ℕ) (N : Set ℕ) : Prop where
  took : Took s s' N
  frame : ∀ q, ¬ Free s q → s'.mem q = s.mem q
  leak : N = ∅ ↔ lowCount s < spineOf m₀ n t

/-- What `clone_table` does at a level. -/
structure CloneSpec (m₀ : ℕ → Fin 512 → ℕ) (n : ℕ) (clone : ℕ → State → Option ℕ × State) :
    Prop where
  copy : ∀ {t t' s s'}, Ok s → Source m₀ s n t → clone t s = (some t', s') →
    (∃ N, Cloned m₀ s s' n t t' N) ∧ t' % 4096 = 0 ∧ spineOf m₀ n t ≤ lowCount s
  fail : ∀ {t s s'}, Ok s → Source m₀ s n t → clone t s = (none, s') →
    ∃ N, CloneFailed m₀ s s' n t N

theorem Cloned.frame' {t' : ℕ} (h : Cloned m₀ s s' n t t' N) (q : ℕ) (hq : ¬ Free s q) :
    s'.mem q = s.mem q :=
  h.frame q fun hN ↦ hq (h.took.taken q hN)

theorem Cloning.source (h : Cloning m₀ s₀ s n src dst is N) (hsrc : Source m₀ s₀ (n + 1) src) :
    Source m₀ s (n + 1) src :=
  hsrc.mono h.took fun q hq ↦ h.frame q fun hN ↦ hq (h.took.taken q hN)

theorem Cloning.fail (hok : Ok s₀) (h : Cloning m₀ s₀ s n src dst (i :: is) N)
    (hc : childOf (n + 1) (m₀ src i) = some c) (hf : CloneFailed m₀ s s₁ n c M) :
    CloneFailed m₀ s₀ (freePage s₁ dst) (n + 1) src ((N ∪ M) \ {dst}) := by
  have hdst := h.dst_mem
  have hto := h.took.trans hf.took
  have hgave := hto.freePage hok (.inl hdst)
  refine ⟨hto.gave hgave (Set.singleton_subset_iff.2 (.inl hdst)), ?_, ?_⟩
  · intro q hq
    have hqN : q ∉ N := fun hN ↦ hq (h.took.taken q hN)
    rw [hgave.mem, hf.frame q (fun hfree ↦ hq ((h.took.free q).1 hfree).1), h.frame q hqN]
  have hdM : dst ∉ M := fun hM ↦ ((h.took.free dst).1 (hf.took.taken dst hM)).2 hdst
  have hempty : (N ∪ M) \ {dst} = ∅ ↔ N = {dst} ∧ M = ∅ := by
    rw [Set.sdiff_eq_empty, Set.union_subset_iff]
    apply and_congr
    · exact ⟨fun hsub ↦ hsub.antisymm (Set.singleton_subset_iff.2 hdst), fun heq ↦ heq.subset⟩
    constructor
    · intro hsub
      apply Set.eq_empty_of_forall_notMem
      intro q hq
      exact hdM (Set.mem_singleton_iff.1 (hsub hq) ▸ hq)
    intro heq
    rw [heq]
    exact Set.empty_subset _
  rw [hempty, hf.leak]
  rcases h.spine with ⟨hN, hspine⟩ | ⟨hN, hspine⟩
  · have hcount := lowCount_took (hN ▸ h.took) (h.low dst hdst).1
    rw [spineIn_table hc] at hspine
    simp only [hN, true_and]
    omega
  · simp only [hN, false_and, false_iff]
    omega

theorem cloneEntries_spec {clone : ℕ → State → Option ℕ × State} (hok : Ok s₀)
    (hclone : 0 < n → CloneSpec m₀ n clone) (hsrc : Source m₀ s₀ (n + 1) src) (hnd : is.Nodup)
    (h : Cloning m₀ s₀ s n src dst is N) {r : Bool}
    (hr : cloneEntries clone (n + 1) src dst is s = (r, s')) :
    (r = true ∧ ∃ N', Cloning m₀ s₀ s' n src dst [] N') ∨
      (r = false ∧ ∃ N', CloneFailed m₀ s₀ s' (n + 1) src N') := by
  induction is generalizing s N with
  | nil =>
    simp only [cloneEntries, Prod.mk.injEq] at hr
    obtain ⟨rfl, rfl⟩ := hr
    exact .inl ⟨rfl, N, h⟩
  | cons i is ih =>
    have hsrc' := h.source hsrc
    have hnd' := (List.nodup_cons.1 hnd).2
    have he : s.mem src i = m₀ src i := by rw [hsrc'.mem src Radix.self_mem_pages]
    simp only [cloneEntries, he] at hr
    -- An entry that leads nowhere takes no page.
    have hleaf : ∀ e', childOf (n + 1) (m₀ src i) = none → childOf (n + 1) e' = none →
        SameLeaf (m₀ src i) e' → Cloning m₀ s₀ (setEntry s dst i e') n src dst is (N ∪ ∅) := by
      intro e' hc hc' hsame
      refine h.advance hnd (Took.refl h.took.ok) (by simp) (fun _ _ ↦ rfl) (fun _ ↦ rfl) ?_ ?_ ?_
      · intro c hcc
        rw [hc'] at hcc
        cases hcc
      · simp only [EntryCopied, Radix.CopiesEntry, hc]
        exact ⟨hc', hsame⟩
      · rw [Set.union_empty, ← spineIn_leaf hc]
        exact h.spine
    rcases hsrc.entry_cases i with ⟨hp, hc⟩ | ⟨hp, hif, hc⟩ | ⟨hp, hif, hc⟩
    · simp only [hp, Bool.not_false, if_true] at hr
      have hzero := h.blank i List.mem_cons_self
      have hnext := hleaf 0 hc (childOf_of_not_present rfl) (.inl ⟨hp, rfl⟩)
      have hsame : setEntry s dst i 0 = s := by
        rw [setEntry, ← hzero, Function.update_eq_self, Function.update_eq_self]
      exact ih hnd' (hsame ▸ hnext) hr
    · simp only [hp, Bool.not_true, Bool.false_eq_true, if_false, if_pos hif] at hr
      exact ih hnd' (hleaf _ hc hc (.inr rfl)) hr
    simp only [hp, Bool.not_true, Bool.false_eq_true, if_false, if_neg hif] at hr
    have hn : 0 < n := by
      have := (childOf_eq_some hc).2.1
      omega
    have hchild := hsrc'.child hc
    rcases hcl : clone (tableAddr (m₀ src i)) s with ⟨rc, s₁⟩
    rw [hcl] at hr
    cases rc with
    | none =>
      simp only [Prod.mk.injEq] at hr
      obtain ⟨rfl, rfl⟩ := hr
      obtain ⟨M, hM⟩ := (hclone hn).fail h.took.ok hchild hcl
      exact .inr ⟨rfl, _, h.fail hok hc hM⟩
    | some c =>
      obtain ⟨⟨M, hM⟩, hal, hspine⟩ := (hclone hn).copy h.took.ok hchild hcl
      have hc' := tableCopy_child hal hc
      refine ih hnd' (h.advance hnd hM.took hM.low hM.frame ?_ ?_ ?_ ?_) hr
      · intro hnone
        rw [hc'] at hnone
        cases hnone
      · intro d hd
        rw [hc'] at hd
        obtain rfl := Option.some.inj hd
        exact ⟨hM.tree, hM.pages⟩
      · simp only [EntryCopied, Radix.CopiesEntry, hc]
        exact ⟨tableCopy_flags hal, c, hc', hM.copies⟩
      right
      have hcM : c ∈ M := by
        obtain ⟨j, rfl⟩ : ∃ j, n = j + 1 := ⟨n - 1, by omega⟩
        rw [← hM.pages]
        exact Radix.self_mem_pages
      have hdst := h.dst_mem
      have hcd : c ≠ dst := by
        intro hcd
        exact ((h.took.free c).1 (hM.took.taken c hcM)).2 (hcd ▸ hdst)
      refine ⟨?_, ?_⟩
      · intro heq
        exact hcd (Set.mem_singleton_iff.1 (heq ▸ Or.inr hcM))
      rcases h.spine with ⟨hN, hs⟩ | ⟨-, hs⟩
      · have hcount := lowCount_took (hN ▸ h.took) (h.low dst hdst).1
        rw [spineIn_table hc] at hs
        omega
      · exact hs

theorem cloneTable_cases (hok : Ok s) (hclone : 0 < n → CloneSpec m₀ n (cloneTable n))
    (hsrc : Source m₀ s (n + 1) t) {r : Option ℕ} (h : cloneTable (n + 1) t s = (r, s')) :
    (∃ t' N, r = some t' ∧ t' % 4096 = 0 ∧ Cloning m₀ s s' n t t' [] N) ∨
      (r = none ∧ ∃ N, CloneFailed m₀ s s' (n + 1) t N) := by
  rw [cloneTable] at h
  have hnd := List.nodup_finRange 512
  have hstart : ∀ {a s₁}, Took s s₁ {a} → TableAt a →
      s₁.mem = Function.update s.mem a (fun _ ↦ 0) →
      Cloning m₀ s s₁ n t a (List.finRange 512) {a} := Cloning.start
  generalize List.finRange 512 = is at h hnd hstart
  simp only [tableFromPhys_low (hsrc.low t Radix.self_mem_pages)] at h
  rcases allocTablePage_cases hok with ⟨a, s₁, ha, hlow, hto, hmem⟩ | ⟨s₁, ha, hto, hmem, hnone⟩
  · simp only [ha, tableFromPhys_low hlow] at h
    rcases hcl : cloneEntries (cloneTable n) (n + 1) t a is s₁ with ⟨rc, s₂⟩
    rw [hcl] at h
    rcases cloneEntries_spec hok hclone hsrc hnd (hstart hto hlow hmem) hcl with
      ⟨rfl, N, hN⟩ | ⟨rfl, N, hN⟩
    · simp only [if_true, Prod.mk.injEq] at h
      obtain ⟨rfl, rfl⟩ := h
      exact .inl ⟨a, N, rfl, ((hto.taken a rfl).managed hok).aligned, hN⟩
    · simp only [Bool.false_eq_true, if_false, Prod.mk.injEq] at h
      obtain ⟨rfl, rfl⟩ := h
      exact .inr ⟨rfl, N, hN⟩
  simp only [ha, Prod.mk.injEq] at h
  obtain ⟨rfl, rfl⟩ := h
  refine .inr ⟨rfl, ∅, hto, fun q _ ↦ by rw [hmem], ?_⟩
  rw [lowCount_eq_zero hnone, spineOf, eq_self_iff_true, true_iff]
  exact Nat.lt_of_lt_of_le Nat.one_pos (Nat.le_add_right 1 _)

theorem cloneSpec_succ (hclone : 0 < n → CloneSpec m₀ n (cloneTable n)) :
    CloneSpec m₀ (n + 1) (cloneTable (n + 1)) := by
  refine ⟨?_, ?_⟩
  · intro t t' s s' hok hsrc h
    rcases cloneTable_cases hok hclone hsrc h with ⟨a, N, ha, hal, hN⟩ | ⟨hr, -⟩
    · obtain rfl := Option.some.inj ha
      have hdst := hN.dst_mem
      refine ⟨⟨N, hN.took, hN.low, hN.frame, hN.tree, hN.pages, fun i ↦ hN.copied i (by simp)⟩,
        hal, ?_⟩
      rcases hN.spine with ⟨heq, hspine⟩ | ⟨-, hspine⟩
      · have hcount := lowCount_took (heq ▸ hN.took) (hN.low t' hdst).1
        simp only [spineIn, List.findSome?_nil, Option.elim_none] at hspine
        omega
      · exact hspine
    · cases hr
  intro t s s' hok hsrc h
  rcases cloneTable_cases hok hclone hsrc h with ⟨a, N, ha, -, -⟩ | ⟨-, hN⟩
  · cases ha
  · exact hN

theorem cloneTable_spec (m₀ : ℕ → Fin 512 → ℕ) (n : ℕ) :
    CloneSpec m₀ (n + 1) (cloneTable (n + 1)) := by
  induction n with
  | zero => exact cloneSpec_succ fun h ↦ absurd h (by decide)
  | succ n ih => exact cloneSpec_succ fun _ ↦ ih

end Clone

section Destroy

/-- The pages of a tree are handed back by `destroy_table`. -/
structure Doomed (s : State) (n t : ℕ) : Prop where
  plain : NoGiga s.mem n t
  level : n ≤ 4
  tree : Radix.Tree childOf s.mem n t
  low : ∀ q ∈ Radix.Pages childOf s.mem n t, TableAt q
  managed : ∀ q ∈ Radix.Pages childOf s.mem n t, Managed s q
  used : ∀ q ∈ Radix.Pages childOf s.mem n t, ¬ Free s q

theorem Doomed.child (h : Doomed s (n + 1) t) (hc : childOf (n + 1) (s.mem t i) = some c) :
    Doomed s n c := by
  have hsub : ∀ q ∈ Radix.Pages childOf s.mem n c, q ∈ Radix.Pages childOf s.mem (n + 1) t :=
    fun q hq ↦ Radix.mem_pages_child hc hq
  have := h.level
  exact ⟨(h.plain i).2 c hc, by omega, (h.tree i c hc).1, fun q hq ↦ h.low q (hsub q hq),
    fun q hq ↦ h.managed q (hsub q hq), fun q hq ↦ h.used q (hsub q hq)⟩

theorem Doomed.mono (h : Doomed s n t) (hg : Gave s s' N)
    (hN : Disjoint N (Radix.Pages childOf s.mem n t)) : Doomed s' n t := by
  have hmem := hg.mem
  refine ⟨hmem ▸ h.plain, h.level, hmem ▸ h.tree, hmem ▸ h.low, ?_, ?_⟩
  · intro q hq
    rw [hmem] at hq
    exact (hg.managed q).2 (h.managed q hq)
  intro q hq hfree
  rw [hmem] at hq
  rcases (hg.free q).1 hfree with hf | hf
  · exact h.used q hq hf
  · exact Set.disjoint_left.1 hN hf hq

theorem Doomed.source (h : Doomed s n t) : Source s.mem s n t :=
  ⟨h.plain, h.level, fun _ _ ↦ rfl, h.used, h.low⟩

/-- The pages below the entries `is` of a table. -/
def pagesIn (m : ℕ → Fin 512 → ℕ) (n t : ℕ) (is : List (Fin 512)) : Set ℕ :=
  {q | ∃ i ∈ is, ∃ c, childOf (n + 1) (m t i) = some c ∧ q ∈ Radix.Pages childOf m n c}

theorem destroyEntries_spec {destroy : ℕ → State → State}
    (hdestroy : ∀ {t s}, Ok s → Doomed s n t →
      Gave s (destroy t s) (Radix.Pages childOf s.mem n t))
    (hn : 0 < n) (h : Doomed s (n + 1) t) (hs : Gave s s₁ N) (hnd : is.Nodup)
    (hN : ∀ i ∈ is, ∀ c, childOf (n + 1) (s.mem t i) = some c →
      Disjoint N (Radix.Pages childOf s.mem n c)) :
    Gave s (destroyEntries destroy (n + 1) t is s₁) (N ∪ pagesIn s.mem n t is) := by
  induction is generalizing s₁ N with
  | nil =>
    have hempty : pagesIn s.mem n t [] = ∅ := by
      ext q
      simp [pagesIn]
    rw [hempty, Set.union_empty]
    exact hs
  | cons i is ih =>
    obtain ⟨hi, hnd'⟩ := List.nodup_cons.1 hnd
    have he : s₁.mem t i = s.mem t i := by rw [hs.mem]
    have hcons : childOf (n + 1) (s.mem t i) = none →
        pagesIn s.mem n t (i :: is) = pagesIn s.mem n t is := by
      intro hc
      ext q
      simp [pagesIn, hc]
    simp only [destroyEntries, he]
    rcases h.source.entry_cases i with ⟨hp, hc⟩ | ⟨hp, hif, hc⟩ | ⟨hp, hif, hc⟩
    · simp only [hp, Bool.not_false, true_or, if_true, hcons hc]
      exact ih hs hnd' fun j hj ↦ hN j (List.mem_cons_of_mem i hj)
    · have hleaf : n + 1 = 2 ∧ huge (s.mem t i) = true := hif.resolve_right (by omega)
      rw [if_pos (.inr hleaf), hcons hc]
      exact ih hs hnd' fun j hj ↦ hN j (List.mem_cons_of_mem i hj)
    rw [not_or] at hif
    simp only [hp, Bool.not_true, Bool.false_eq_true, hif.1, or_self, if_false]
    have hdoomed := h.child hc
    have hstep := hdestroy hs.ok (hdoomed.mono hs (hN i List.mem_cons_self _ hc))
    rw [hs.mem] at hstep
    have hsplit : pagesIn s.mem n t (i :: is) =
        Radix.Pages childOf s.mem n (tableAddr (s.mem t i)) ∪ pagesIn s.mem n t is := by
      ext q
      simp [pagesIn, hc]
    rw [hsplit, ← Set.union_assoc]
    apply ih (hs.trans hstep) hnd'
    intro j hj c hcj
    rw [Set.disjoint_union_left]
    refine ⟨hN j (List.mem_cons_of_mem i hj) c hcj, (h.tree i _ hc).2.2 j c hcj ?_⟩
    intro hji
    exact hi (hji ▸ hj)

theorem destroyTable_spec (hok : Ok s) (h : Doomed s (n + 1) t) :
    Gave s (destroyTable (n + 1) t s) (Radix.Pages childOf s.mem (n + 1) t) := by
  induction n generalizing t s with
  | zero =>
    have hpages : Radix.Pages childOf s.mem 1 t = {t} := by
      ext q
      simp [Radix.Pages]
    simp only [destroyTable, tableFromPhys_low (h.low t Radix.self_mem_pages), zero_add, lt_irrefl,
      if_false, hpages]
    exact freePage_spec hok (h.managed t Radix.self_mem_pages) (h.used t Radix.self_mem_pages)
  | succ n ih =>
    have hgave := destroyEntries_spec ih (by omega) h (Gave.refl hok) (List.nodup_finRange 512)
      (by simp)
    rw [Set.empty_union] at hgave
    have hself : t ∉ pagesIn s.mem (n + 1) t (List.finRange 512) := by
      intro hn
      obtain ⟨i, -, c, hc, hmem⟩ := hn
      exact (h.tree i c hc).2.1 hmem
    have hpages : Radix.Pages childOf s.mem (n + 2) t =
        pagesIn s.mem (n + 1) t (List.finRange 512) ∪ {t} := by
      ext q
      simp only [Radix.Pages, pagesIn, List.mem_finRange, true_and, Set.mem_union,
        Set.mem_singleton_iff, Set.mem_ofPred_eq]
      exact or_comm
    rw [destroyTable, tableFromPhys_low (h.low t Radix.self_mem_pages), hpages]
    generalize List.finRange 512 = is at hgave hself
    simp only [show 1 < n + 1 + 1 by omega, if_true]
    apply hgave.trans
    apply freePage_spec hgave.ok
    · exact (hgave.managed t).2 (h.managed t Radix.self_mem_pages)
    intro hfree
    rcases (hgave.free t).1 hfree with hf | hf
    · exact h.used t Radix.self_mem_pages hf
    · exact hself hf

end Destroy

end NexusOS.Mm.Paging
