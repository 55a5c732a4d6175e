import NexusOS.Mm.PagingTree

namespace NexusOS.Mm.Paging

open Lib

variable {s s₁ s' s'' : State} {a e va va' root : ℕ} {N N' : Set ℕ}

section Entries

theorem aligned_or {f : ℕ} (ha : a % 4096 = 0) (hf : f < 4096) : a ||| f = a + f := by
  obtain ⟨b, rfl⟩ : ∃ b, a = 2 ^ 12 * b := ⟨a / 4096, by omega⟩
  exact (Nat.two_pow_add_eq_or_of_lt hf b).symm

theorem leafFlags_lt (e : ℕ) : leafFlags e < 4096 :=
  lt_of_le_of_lt Nat.and_le_left (Nat.mod_lt _ (by decide))

theorem hugeBase_aligned (e j : ℕ) : (hugeBase e + j * 4096) % 4096 = 0 := by
  unfold hugeBase
  omega

theorem testBit_aligned_or {f i : ℕ} (ha : a % 4096 = 0) (hi : i < 12) :
    (a ||| f).testBit i = f.testBit i := by
  have : a.testBit i = false := by
    obtain ⟨b, rfl⟩ : ∃ b, a = 2 ^ 12 * b := ⟨a / 4096, by omega⟩
    rw [Nat.testBit_two_pow_mul]
    simp [show ¬ 12 ≤ i by omega]
  rw [Nat.testBit_or, this, Bool.false_or]

theorem testBit_leafFlags {i : ℕ} (hi : i < 7) : (leafFlags e).testBit i = e.testBit i := by
  have h0 : (0xF7F : ℕ).testBit i = true := by
    interval_cases i <;> rfl
  have h1 : (e % 2 ^ 12).testBit i = e.testBit i := by
    rw [Nat.testBit_mod_two_pow]
    simp [show i < 12 by omega]
  rw [leafFlags, Nat.testBit_and, h0, Bool.and_true]
  exact h1

structure IsTableEntry (e a : ℕ) : Prop where
  present : present e = true
  writable : writable e = true
  user : user e = false
  huge : huge e = false
  addr : tableAddr e = a

theorem isTableEntry (ha : a % 4096 = 0) : IsTableEntry (a ||| tableFlags) a := by
  have hbit : ∀ i < 12, (a ||| tableFlags).testBit i = (3 : ℕ).testBit i :=
    fun i hi ↦ testBit_aligned_or ha hi
  refine ⟨hbit 0 (by decide), hbit 1 (by decide), hbit 2 (by decide), hbit 7 (by decide), ?_⟩
  rw [tableAddr, aligned_or ha (by decide), tableFlags]
  omega

theorem IsTableEntry.child {level : ℕ} (h : IsTableEntry e a) (hl : 1 < level) :
    childOf level e = some a := by
  simp [childOf, h.present, h.huge, h.addr, hl]

theorem splitLeaf_present (j : ℕ) :
    present ((hugeBase e + j * 4096) ||| leafFlags e) = present e := by
  rw [present, testBit_aligned_or (hugeBase_aligned e j) (by decide)]
  exact testBit_leafFlags (by decide)

theorem splitLeaf_addr (j : ℕ) :
    tableAddr ((hugeBase e + j * 4096) ||| leafFlags e) = hugeBase e + j * 4096 := by
  have h1 := hugeBase_aligned e j
  have h2 := leafFlags_lt e
  rw [tableAddr, aligned_or h1 h2]
  omega

end Entries

section Refined

/-- What making a table on the way or splitting a page of 2 MiB does to the walk of an address. -/
inductive Refined (va : ℕ) : List ℕ → List ℕ → Prop
  | table (l : List ℕ) (e e' a : ℕ) : l.length ≤ 2 → present e = false → IsTableEntry e' a →
      Refined va (l ++ [e]) (l ++ [e', 0])
  | split (l : List ℕ) (e e' a : ℕ) : l.length = 2 → huge e = true → IsTableEntry e' a →
      Refined va (l ++ [e])
        (l ++ [e', (hugeBase e + tableIndex 1 va * 4096) ||| leafFlags e])

theorem translate_append (l : List ℕ) (e va : ℕ) :
    translate (l ++ [e]) va = leafAddress (4 - l.length) e va := by
  simp [translate, show 5 - (l.length + 1) = 4 - l.length by omega]

theorem Refined.translate {l l' : List ℕ} (h : Refined va l l') :
    translate l va = translate l' va := by
  cases h with
  | table l e e' a hlen he he' =>
    have h0 : present 0 = false := rfl
    rw [show l ++ [e', 0] = (l ++ [e']) ++ [0] by simp, translate_append, translate_append]
    simp [leafAddress, he, h0]
  | split l e e' a hlen hh he' =>
    rw [show ∀ x, l ++ [e', x] = (l ++ [e']) ++ [x] by simp, translate_append, translate_append]
    simp only [List.length_append, List.length_singleton, hlen, leafAddress, splitLeaf_present,
      splitLeaf_addr]
    have hidx : (tableIndex 1 va : ℕ) * 4096 + va % 4096 = va % 2 ^ 21 := by
      simp only [tableIndex]
      omega
    split_ifs <;> omega

theorem translate_of_refined {l l' : List ℕ} (h : Relation.ReflTransGen (Refined va) l l') :
    translate l va = translate l' va := by
  induction h with
  | refl => rfl
  | tail _ hstep ih => rw [ih, hstep.translate]

end Refined

section Grew

/-- Table pages `N` have been added to an address space, and nothing outside it has changed. -/
structure Grew (s s' : State) (root : ℕ) (N : Set ℕ) : Prop where
  took : Took s s' N
  tree : Radix.Tree childOf s'.mem 4 root
  pages : pagesOf s' root = pagesOf s root ∪ N
  low : ∀ q ∈ N, TableAt q
  frame : ∀ q, q ∉ pagesOf s root → q ∉ N → s'.mem q = s.mem q

theorem Grew.refl (h : Space s root) (hok : Ok s) : Grew s s root ∅ :=
  ⟨Took.refl hok, h.tree, by simp, by simp, fun _ _ _ ↦ rfl⟩

theorem Grew.trans (h : Grew s s' root N) (h' : Grew s' s'' root N') :
    Grew s s'' root (N ∪ N') := by
  refine ⟨h.took.trans h'.took, h'.tree, ?_, ?_, ?_⟩
  · rw [h'.pages, h.pages, Set.union_assoc]
  · intro q hq
    rcases hq with hq | hq
    · exact h.low q hq
    · exact h'.low q hq
  intro q hq hN
  rw [Set.mem_union, not_or] at hN
  rw [h'.frame q _ hN.2, h.frame q hq hN.1]
  rw [h.pages]
  rintro (hmem | hmem)
  · exact hq hmem
  · exact hN.1 hmem

theorem Grew.space (hS : Space s root) (h : Grew s s' root N) : Space s' root := by
  refine ⟨h.tree, ?_, ?_⟩
  · intro q hq
    rw [h.pages] at hq
    rcases hq with hq | hq
    · exact hS.low q hq
    · exact h.low q hq
  intro q hq hfree
  rw [h.pages] at hq
  obtain ⟨hf, hN⟩ := (h.took.free q).1 hfree
  rcases hq with hq | hq
  · exact hS.used q hq hf
  · exact hN hq

/-- An address space whose tables were made or whose pages were split, with the same meaning. -/
structure Extended (s s' : State) (root : ℕ) : Prop where
  grew : ∃ N, Grew s s' root N
  walks : ∀ va, Relation.ReflTransGen (Refined va) (trailOf s root va) (trailOf s' root va)

theorem Extended.refl (h : Space s root) (hok : Ok s) : Extended s s root :=
  ⟨⟨∅, Grew.refl h hok⟩, fun _ ↦ .refl⟩

theorem Extended.trans (h : Extended s s' root) (h' : Extended s' s'' root) :
    Extended s s'' root := by
  obtain ⟨N, hN⟩ := h.grew
  obtain ⟨N', hN'⟩ := h'.grew
  exact ⟨⟨N ∪ N', hN.trans hN'⟩, fun va ↦ (h.walks va).trans (h'.walks va)⟩

theorem Extended.of_mem (hS : Space s root) (hto : Took s s' ∅) (hmem : s'.mem = s.mem) :
    Extended s s' root := by
  refine ⟨⟨∅, hto, hmem ▸ hS.tree, ?_, by simp, fun q _ _ ↦ by rw [hmem]⟩, ?_⟩
  · rw [pagesOf, hmem, Set.union_empty]
  intro va
  rw [trailOf, trailOf, hmem]

theorem Extended.space (hS : Space s root) (h : Extended s s' root) : Space s' root := by
  obtain ⟨N, hN⟩ := h.grew
  exact hN.space hS

theorem Extended.ok (h : Extended s s' root) : Ok s' := by
  obtain ⟨N, hN⟩ := h.grew
  exact hN.took.ok

theorem Extended.virtToPhysRoot (hS : Space s root) (h : Extended s s' root) (va : ℕ) :
    virtToPhysRoot root va s' = virtToPhysRoot root va s := by
  rw [virtToPhysRoot_eq (h.space hS).low, virtToPhysRoot_eq hS.low]
  exact (translate_of_refined (h.walks va)).symm

end Grew

section Write

variable {k t : ℕ} {entry : ℕ}

theorem path_eq_iff : (∀ l, 1 ≤ l → l ≤ 4 → path va' l = path va l) ↔
    va' / 4096 % 2 ^ 36 = va / 4096 % 2 ^ 36 := by
  constructor
  · intro h
    have h1 := congrArg Fin.val (h 1 (by decide) (by decide))
    have h2 := congrArg Fin.val (h 2 (by decide) (by decide))
    have h3 := congrArg Fin.val (h 3 (by decide) (by decide))
    have h4 := congrArg Fin.val (h 4 (by decide) (by decide))
    simp only [path, tableIndex] at h1 h2 h3 h4
    omega
  intro h l h1 h4
  apply Fin.ext
  simp only [path, tableIndex]
  interval_cases l <;> omega

theorem setEntry_differ (hon : Radix.tableOn childOf s.mem (path va) k 4 root = some t)
    (hframe : ∀ q ∈ pagesOf s root, s₁.mem q = s.mem q) :
    Radix.Differ childOf s.mem (setEntry s₁ t (tableIndex k va) entry).mem (path va) k 4 root t := by
  have ht := hframe t (Radix.tableOn_mem hon)
  refine ⟨hon, ?_, ?_⟩
  · intro r hr hrt
    simp only [setEntry, Function.update_of_ne hrt, hframe r hr]
  intro j hj
  simp only [setEntry, Function.update_self, Function.update_of_ne hj, ht]

structure LeafWritten (s s' : State) (root va entry : ℕ) : Prop where
  grew : Grew s s' root ∅
  other : ∀ va', va' / 4096 % 2 ^ 36 ≠ va / 4096 % 2 ^ 36 →
    trailOf s' root va' = trailOf s root va'
  same : ∀ va', va' / 4096 % 2 ^ 36 = va / 4096 % 2 ^ 36 → ∃ l old, l.length = 3 ∧
    trailOf s root va' = l ++ [old] ∧ trailOf s' root va' = l ++ [entry]

theorem leafWritten (hS : Space s root) (hok : Ok s)
    (hon : Radix.tableOn childOf s.mem (path va) 1 4 root = some t) :
    LeafWritten s (setEntry s t (tableIndex 1 va) entry) root va entry := by
  have hdiff : Radix.Differ childOf s.mem (setEntry s t (tableIndex 1 va) entry).mem (path va) 1 4
      root t := setEntry_differ hon fun _ _ ↦ rfl
  obtain ⟨htree, hpages⟩ := hdiff.grow hS.tree (childOf_one _) (by simp)
  refine ⟨⟨(Took.refl hok).mem rfl rfl, htree, ?_, by simp, ?_⟩, ?_, ?_⟩
  · rw [pagesOf, hpages]
    simp [Radix.Below]
  · intro q hq _
    have hqt : q ≠ t := by
      intro hqt
      exact hq (hqt ▸ Radix.tableOn_mem hon)
    simp only [setEntry, Function.update_of_ne hqt]
  · intro va' hne
    exact hdiff.trail_eq hS.tree (mt path_eq_iff.1 hne)
  intro va' heq
  have hpath := path_eq_iff.2 heq
  obtain ⟨l, hlen, h1, h2⟩ := hdiff.trail_append hS.tree fun k hk hk' ↦ hpath k (by omega) hk'
  refine ⟨l, s.mem t (path va' 1), hlen, ?_, ?_⟩
  · simpa [Radix.trail] using h1
  · simpa [Radix.trail, setEntry, hpath 1 le_rfl (by decide)] using h2

theorem tableWritten {rows : Fin 512 → ℕ} (hS : Space s root) (hok : Ok s) (hk : 0 < k)
    (hon : Radix.tableOn childOf s.mem (path va) (k + 1) 4 root = some t)
    (hold : childOf (k + 1) (s.mem t (tableIndex (k + 1) va)) = none) (hto : Took s s₁ {a})
    (hlow : TableAt a) (hmem : s₁.mem = Function.update s.mem a rows)
    (hrows : ∀ i, childOf k (rows i) = none)
    (hs' : s' = setEntry s₁ t (tableIndex (k + 1) va) (a ||| tableFlags)) :
    Grew s s' root {a} ∧
      Radix.tableOn childOf s'.mem (path va) (k + 1) 4 root = some t ∧
      s'.mem t (tableIndex (k + 1) va) = a ||| tableFlags ∧
      ∀ va', trailOf s' root va' = trailOf s root va' ∨
        ∃ l, l.length = 3 - k ∧ trailOf s root va' = l ++ [s.mem t (tableIndex (k + 1) va)] ∧
          trailOf s' root va' = l ++ [a ||| tableFlags, rows (tableIndex k va')] := by
  have hfree := hto.taken a rfl
  have hentry := isTableEntry (hfree.managed hok).aligned
  have hnew : ∀ q ∈ pagesOf s root, q ≠ a := fun q hq hqa ↦ hS.used q hq (hqa ▸ hfree)
  have hframe : ∀ q ∈ pagesOf s root, s₁.mem q = s.mem q := by
    intro q hq
    rw [hmem, Function.update_of_ne (hnew q hq)]
  have ht := Radix.tableOn_mem hon
  have hrow : s'.mem a = rows := by
    rw [hs', setEntry_of_ne (hnew t ht).symm, hmem, Function.update_self]
  have hself : s'.mem t (tableIndex (k + 1) va) = a ||| tableFlags := by
    rw [hs', setEntry_self]
  have hdiff : Radix.Differ childOf s.mem s'.mem (path va) (k + 1) 4 root t := by
    rw [hs']
    exact setEntry_differ hon hframe
  have hchild := hentry.child (show 1 < k + 1 by omega)
  obtain ⟨j, rfl⟩ : ∃ j, k = j + 1 := ⟨k - 1, by omega⟩
  have hnone : ∀ i, childOf (j + 1) (s'.mem a i) = none := by
    intro i
    rw [hrow]
    exact hrows i
  have hpages : Radix.Pages childOf s'.mem (j + 1) a = {a} := by
    ext q
    simp [Radix.Pages, hnone]
  have hgrow := hdiff.grow hS.tree hold (by
    intro c hc
    have hc' : some a = some c := by rw [← hchild, ← hself, ← hc]
    rw [← Option.some.inj hc', Nat.add_sub_cancel, hpages, Set.disjoint_singleton_left]
    exact ⟨by simp [Radix.Tree, hnone], fun hmem ↦ hnew a hmem rfl⟩)
  have hbelow : Radix.Below childOf s'.mem (j + 2) (s'.mem t (tableIndex (j + 2) va)) = {a} := by
    ext q
    simp [Radix.Below, hself, hchild, hpages]
  refine ⟨⟨(hs' ▸ hto.mem rfl rfl), hgrow.1, ?_, ?_, ?_⟩, hdiff.tableOn hS.tree, hself, ?_⟩
  · exact hgrow.2.trans (congrArg _ hbelow)
  · intro q hq
    rw [Set.mem_singleton_iff.1 hq]
    exact hlow
  · intro q hq hqa
    have hqt : q ≠ t := fun hqt ↦ hq (hqt ▸ ht)
    rw [hs', setEntry_of_ne hqt, hmem, Function.update_of_ne hqa]
  intro va'
  by_cases hpath : ∀ l, j + 2 ≤ l → l ≤ 4 → path va' l = path va l
  · right
    have hle := Radix.tableOn_le hon
    obtain ⟨l, hlen, h1, h2⟩ := hdiff.trail_append hS.tree fun k hk hk' ↦ hpath k (by omega) hk'
    have hp : path va' (j + 2) = tableIndex (j + 2) va := hpath (j + 2) le_rfl hle.2
    refine ⟨l, by omega, ?_, ?_⟩
    · rw [trailOf, h1, Radix.trail, hp, hold]
      rfl
    rw [trailOf, h2, Radix.trail, hp, hself, hchild, Option.elim_some, Radix.trail, hnone, hrow]
    rfl
  · left
    exact hdiff.trail_eq hS.tree hpath

end Write

section Walk

variable {k k' t : ℕ} {create : Bool} {r : Option ℕ}

/-- A part of a walk has reached the table of level `k`, if any. -/
structure Walked (create : Bool) (s s' : State) (root va k : ℕ) (r : Option ℕ) : Prop where
  extended : Extended s s' root
  kept : create = false → s' = s
  on : ∀ t, r = some t → Radix.tableOn childOf s'.mem (path va) k 4 root = some t

theorem tableFromPhys_eq {q : ℕ} (h : tableFromPhys a = some q) : a = q := by
  unfold tableFromPhys at h
  split_ifs at h
  exact Option.some.inj h

theorem ensureTable_spec (hS : Space s root) (hok : Ok s) (hk : 0 < k)
    (hon : Radix.tableOn childOf s.mem (path va) (k + 1) 4 root = some t)
    (h : ensureTable create t (tableIndex (k + 1) va) s = (r, s')) :
    Walked create s s' root va (k + 1) (some t) ∧
      ∀ e, r = some e → e = s'.mem t (tableIndex (k + 1) va) ∧ present e = true := by
  have hstay : Walked create s s root va (k + 1) (some t) := by
    refine ⟨Extended.refl hS hok, fun _ ↦ rfl, ?_⟩
    intro q hq
    rw [← Option.some.inj hq, hon]
  unfold ensureTable at h
  cases hp : present (s.mem t (tableIndex (k + 1) va)) with
  | true =>
    simp only [hp, if_true, Prod.mk.injEq] at h
    obtain ⟨rfl, rfl⟩ := h
    refine ⟨hstay, ?_⟩
    intro e he
    obtain rfl := Option.some.inj he
    exact ⟨rfl, hp⟩
  | false =>
    cases create with
    | false =>
      simp only [hp, Bool.false_eq_true, if_false, Bool.not_false, if_true, Prod.mk.injEq] at h
      obtain ⟨rfl, rfl⟩ := h
      exact ⟨hstay, by simp⟩
    | true =>
      simp only [hp, Bool.false_eq_true, if_false, Bool.not_true] at h
      rcases allocTablePage_cases hok with ⟨a, s₁, ha, hlow, hto, hmem⟩ | ⟨s₁, ha, hto, hmem, -⟩
      · simp only [ha, Prod.mk.injEq] at h
        obtain ⟨rfl, rfl⟩ := h
        have hle := Radix.tableOn_le hon
        have hentry := isTableEntry ((hto.taken a rfl).managed hok).aligned
        obtain ⟨hgrew, hon', hself, htrail⟩ := tableWritten hS hok hk hon
          (childOf_of_not_present hp) hto hlow hmem (fun _ ↦ childOf_of_not_present rfl) rfl
        refine ⟨⟨⟨⟨_, hgrew⟩, ?_⟩, by simp, ?_⟩, ?_⟩
        · intro va'
          rcases htrail va' with heq | ⟨l, hlen, h1, h2⟩
          · rw [heq]
          rw [h1, h2]
          exact .single (.table l _ _ a (by omega) hp hentry)
        · intro q hq
          rw [← Option.some.inj hq, hon']
        intro e he
        obtain rfl := Option.some.inj he
        exact ⟨hself.symm, hentry.present⟩
      · simp only [ha, Prod.mk.injEq] at h
        obtain ⟨rfl, rfl⟩ := h
        refine ⟨⟨Extended.of_mem hS hto hmem, by simp, ?_⟩, by simp⟩
        intro q hq
        rw [← Option.some.inj hq, hmem, hon]

theorem Walked.child (h : Walked create s s' root va (k + 1) (some t)) (hk : 0 < k)
    (hp : present (s'.mem t (tableIndex (k + 1) va)) = true)
    (hh : k < 3 → huge (s'.mem t (tableIndex (k + 1) va)) = false) :
    Walked create s s' root va k (tableFromPhys (tableAddr (s'.mem t (tableIndex (k + 1) va)))) := by
  refine ⟨h.extended, h.kept, ?_⟩
  intro q hq
  rw [← tableFromPhys_eq hq]
  apply Radix.tableOn_child (h.on t rfl) _ hk
  simp only [childOf, path, hp, show 1 < k + 1 by omega, true_and]
  rw [if_pos]
  rintro ⟨hlt, hhuge⟩
  rw [hh (by omega)] at hhuge
  cases hhuge

theorem Walked.stop (h : Walked create s s' root va k (some t)) (k' : ℕ) :
    Walked create s s' root va k' none :=
  ⟨h.extended, h.kept, by simp⟩

theorem Walked.trans (h : Walked create s s' root va k (some t))
    (h' : Walked create s' s'' root va k' r) : Walked create s s'' root va k' r := by
  refine ⟨h.extended.trans h'.extended, ?_, h'.on⟩
  intro hc
  rw [h'.kept hc, h.kept hc]

theorem splitHuge_spec {pd : ℕ} (hS : Space s root) (hok : Ok s)
    (hon : Radix.tableOn childOf s.mem (path va) 2 4 root = some pd)
    (hh : huge (s.mem pd (tableIndex 2 va)) = true)
    (h : splitHuge pd (tableIndex 2 va) (s.mem pd (tableIndex 2 va)) s = (r, s')) :
    Walked true s s' root va 1 (r.bind fun e ↦ tableFromPhys (tableAddr e)) := by
  unfold splitHuge at h
  rcases allocTablePage_cases hok with ⟨a, s₁, ha, hlow, hto, hmem⟩ | ⟨s₁, ha, hto, hmem, -⟩
  · simp only [ha, Prod.mk.injEq] at h
    obtain ⟨rfl, hs'⟩ := h
    have hentry := isTableEntry ((hto.taken a rfl).managed hok).aligned
    have hold : childOf 2 (s.mem pd (tableIndex 2 va)) = none := by
      simp [childOf, hh]
    have hfill : ∀ rows, Took s (fillPage s₁ a rows) {a} ∧
        (fillPage s₁ a rows).mem = Function.update s.mem a rows := by
      intro rows
      refine ⟨hto.mem rfl rfl, ?_⟩
      rw [fillPage, hmem, Function.update_idem]
    obtain ⟨hgrew, hon', hself, htrail⟩ := tableWritten hS hok (by decide) hon hold
      (hfill _).1 hlow (hfill _).2 (fun _ ↦ childOf_one _) hs'.symm
    have hext : Extended s s' root := by
      refine ⟨⟨_, hgrew⟩, ?_⟩
      intro va'
      rcases htrail va' with heq | ⟨l, hlen, h1, h2⟩
      · rw [heq]
      rw [h1, h2]
      exact .single (.split l _ _ a hlen hh hentry)
    have hat : Walked true s s' root va 2 (some pd) :=
      ⟨hext, by simp, fun q hq ↦ (Option.some.inj hq) ▸ hon'⟩
    rw [Option.bind_some, ← hself]
    apply hat.child (by decide)
    · rw [hself]
      exact hentry.present
    intro _
    rw [hself]
    exact hentry.huge
  · simp only [ha, Prod.mk.injEq] at h
    obtain ⟨rfl, rfl⟩ := h
    exact ⟨Extended.of_mem hS hto hmem, by simp, by simp⟩

theorem walkDirectory_spec {pd : ℕ} (hS : Space s root) (hok : Ok s)
    (hon : Radix.tableOn childOf s.mem (path va) 2 4 root = some pd)
    (h : walkDirectory pd va create s = (r, s')) : Walked create s s' root va 1 r := by
  unfold walkDirectory at h
  rcases hens : ensureTable create pd (tableIndex 2 va) s with ⟨re, s₁⟩
  obtain ⟨hat, hentry⟩ := ensureTable_spec hS hok (by decide) hon hens
  cases re with
  | none =>
    simp only [hens, Prod.mk.injEq] at h
    obtain ⟨rfl, rfl⟩ := h
    exact hat.stop 1
  | some e =>
    obtain ⟨rfl, hp⟩ := hentry e rfl
    simp only [hens] at h
    cases hh : huge (s₁.mem pd (tableIndex 2 va)) with
    | false =>
      simp only [hh, Bool.false_eq_true, if_false, Prod.mk.injEq] at h
      obtain ⟨rfl, rfl⟩ := h
      exact hat.child (by decide) hp fun _ ↦ hh
    | true =>
      cases create with
      | false =>
        simp only [hh, if_true, Bool.not_false, Prod.mk.injEq] at h
        obtain ⟨rfl, rfl⟩ := h
        exact hat.stop 1
      | true =>
        rcases hsp : splitHuge pd (tableIndex 2 va) (s₁.mem pd (tableIndex 2 va)) s₁ with ⟨rs, s₂⟩
        have hsplit := splitHuge_spec (hat.extended.space hS) hat.extended.ok (hat.on pd rfl) hh hsp
        simp only [hh, if_true, Bool.not_true, Bool.false_eq_true, if_false, hsp] at h
        cases rs with
        | none =>
          simp only [Prod.mk.injEq] at h
          obtain ⟨rfl, rfl⟩ := h
          exact hat.trans hsplit
        | some e' =>
          simp only [Prod.mk.injEq] at h
          obtain ⟨rfl, rfl⟩ := h
          exact hat.trans hsplit

theorem walkCreateRoot_spec (hS : Space s root) (hok : Ok s)
    (h : walkCreateRoot root va create s = (r, s')) : Walked create s s' root va 1 r := by
  have hroot := tableFromPhys_low (hS.low root Radix.self_mem_pages)
  simp only [walkCreateRoot, hroot] at h
  rcases hens : ensureTable create root (tableIndex 4 va) s with ⟨r4, s₁⟩
  obtain ⟨hat4, hentry4⟩ := ensureTable_spec hS hok (by decide) Radix.tableOn_self hens
  cases r4 with
  | none =>
    simp only [hens, Prod.mk.injEq] at h
    obtain ⟨rfl, rfl⟩ := h
    exact hat4.stop 1
  | some e4 =>
    obtain ⟨rfl, hp4⟩ := hentry4 e4 rfl
    have hat3 := hat4.child (by decide) hp4 (by omega)
    simp only [hens] at h
    cases hpdpt : tableFromPhys (tableAddr (s₁.mem root (tableIndex (3 + 1) va))) with
    | none =>
      simp only [hpdpt, Prod.mk.injEq] at h
      obtain ⟨rfl, rfl⟩ := h
      exact hat4.stop 1
    | some pdpt =>
      rw [hpdpt] at hat3
      simp only [hpdpt] at h
      rcases hens3 : ensureTable create pdpt (tableIndex 3 va) s₁ with ⟨r3, s₂⟩
      obtain ⟨hat3', hentry3⟩ := ensureTable_spec (hat3.extended.space hS) hat3.extended.ok
        (by decide) (hat3.on pdpt rfl) hens3
      have hat := hat3.trans hat3'
      simp only [hens3] at h
      cases r3 with
      | none =>
        simp only [Prod.mk.injEq] at h
        obtain ⟨rfl, rfl⟩ := h
        exact hat.stop 1
      | some e3 =>
        obtain ⟨rfl, hp3⟩ := hentry3 e3 rfl
        simp only at h
        cases hh : huge (s₂.mem pdpt (tableIndex (2 + 1) va)) with
        | true =>
          simp only [hh, if_true, Prod.mk.injEq] at h
          obtain ⟨rfl, rfl⟩ := h
          exact hat.stop 1
        | false =>
          have hat2 := hat.child (by decide) hp3 fun _ ↦ hh
          simp only [hh, Bool.false_eq_true, if_false] at h
          cases hpd : tableFromPhys (tableAddr (s₂.mem pdpt (tableIndex (2 + 1) va))) with
          | none =>
            simp only [hpd, Prod.mk.injEq] at h
            obtain ⟨rfl, rfl⟩ := h
            exact hat.stop 1
          | some pd =>
            rw [hpd] at hat2
            simp only [hpd] at h
            exact hat2.trans (walkDirectory_spec (hat2.extended.space hS) hat2.extended.ok
              (hat2.on pd rfl) h)

end Walk

end NexusOS.Mm.Paging
