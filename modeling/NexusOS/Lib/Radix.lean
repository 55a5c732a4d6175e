import Mathlib

namespace NexusOS.Lib.Radix

variable {α ι ε : Type*} (child : ℕ → ε → Option α)

/-- The tables of a tree: table `t` of level `n` and those its entries lead to. -/
def Pages (m : α → ι → ε) : ℕ → α → Set α
  | 0, _ => ∅
  | n + 1, t => {q | q = t ∨ ∃ i c, child (n + 1) (m t i) = some c ∧ q ∈ Pages m n c}

def Tree (m : α → ι → ε) : ℕ → α → Prop
  | 0, _ => True
  | n + 1, t => ∀ i c, child (n + 1) (m t i) = some c →
      Tree m n c ∧ t ∉ Pages child m n c ∧
        ∀ j c', child (n + 1) (m t j) = some c' → j ≠ i →
          Disjoint (Pages child m n c) (Pages child m n c')

/-- The table of level `k` on the path `p`, which gives an index for each level. -/
def tableOn (m : α → ι → ε) (p : ℕ → ι) (k : ℕ) : ℕ → α → Option α
  | 0, _ => none
  | n + 1, t =>
    if k = n + 1 then some t else (child (n + 1) (m t (p (n + 1)))).bind (tableOn m p k n)

def trail (m : α → ι → ε) (p : ℕ → ι) : ℕ → α → List ε
  | 0, _ => []
  | n + 1, t => m t (p (n + 1)) :: (child (n + 1) (m t (p (n + 1)))).elim [] (trail m p n)

variable {child} {m m' : α → ι → ε} {n k : ℕ} {t q c : α} {p p' : ℕ → ι}

theorem self_mem_pages : t ∈ Pages child m (n + 1) t := .inl rfl

theorem mem_pages_child {i : ι} (hc : child (n + 1) (m t i) = some c) (hq : q ∈ Pages child m n c) :
    q ∈ Pages child m (n + 1) t := .inr ⟨i, c, hc, hq⟩

theorem trail_child (h : child (n + 1) (m t (p (n + 1))) = some c) :
    trail child m p (n + 1) t = m t (p (n + 1)) :: trail child m p n c := by
  rw [trail, h, Option.elim_some]

theorem trail_leaf (h : child (n + 1) (m t (p (n + 1))) = none) :
    trail child m p (n + 1) t = [m t (p (n + 1))] := by
  rw [trail, h, Option.elim_none]

section Congr

theorem pages_congr (h : ∀ r ∈ Pages child m n t, m' r = m r) :
    Pages child m' n t = Pages child m n t := by
  induction n generalizing t with
  | zero => rfl
  | succ n ih =>
    have ht : m' t = m t := h t self_mem_pages
    ext q
    simp only [Pages, ht, Set.mem_ofPred_eq]
    have hsame : ∀ i c, child (n + 1) (m t i) = some c →
        Pages child m' n c = Pages child m n c := by
      intro i c hc
      apply ih
      intro r hr
      exact h r (mem_pages_child hc hr)
    constructor
    · intro hq
      apply hq.imp_right
      intro ⟨i, c, hc, hmem⟩
      exact ⟨i, c, hc, hsame i c hc ▸ hmem⟩
    intro hq
    apply hq.imp_right
    intro ⟨i, c, hc, hmem⟩
    exact ⟨i, c, hc, (hsame i c hc).symm ▸ hmem⟩

theorem Tree.congr (hT : Tree child m n t) (h : ∀ r ∈ Pages child m n t, m' r = m r) :
    Tree child m' n t := by
  induction n generalizing t with
  | zero => trivial
  | succ n ih =>
    have ht : m' t = m t := h t self_mem_pages
    have hsame : ∀ i c, child (n + 1) (m t i) = some c →
        ∀ r ∈ Pages child m n c, m' r = m r := by
      intro i c hc r hr
      exact h r (mem_pages_child hc hr)
    intro i c hc
    rw [ht] at hc
    obtain ⟨hTc, htc, hdisj⟩ := hT i c hc
    refine ⟨ih hTc (hsame i c hc), ?_, ?_⟩
    · rw [pages_congr (hsame i c hc)]
      exact htc
    intro j c' hc' hji
    rw [ht] at hc'
    rw [pages_congr (hsame i c hc), pages_congr (hsame j c' hc')]
    exact hdisj j c' hc' hji

theorem trail_congr (h : ∀ r ∈ Pages child m n t, m' r = m r) :
    trail child m' p n t = trail child m p n t := by
  induction n generalizing t with
  | zero => rfl
  | succ n ih =>
    have ht : m' t = m t := h t self_mem_pages
    simp only [trail, ht]
    cases hc : child (n + 1) (m t (p (n + 1))) with
    | none => rfl
    | some c =>
      have hrest : trail child m' p n c = trail child m p n c :=
        ih fun r hr ↦ h r (mem_pages_child hc hr)
      simp only [Option.elim_some, hrest]

end Congr

section Path

theorem tableOn_self : tableOn child m p (n + 1) (n + 1) t = some t := by
  simp [tableOn]

theorem tableOn_succ (hk : k ≠ n + 1) (h : tableOn child m p k (n + 1) t = some q) :
    ∃ c, child (n + 1) (m t (p (n + 1))) = some c ∧ tableOn child m p k n c = some q := by
  simpa only [tableOn, if_neg hk, Option.bind_eq_some_iff] using h

theorem tableOn_le (h : tableOn child m p k n t = some q) : 0 < k ∧ k ≤ n := by
  induction n generalizing t with
  | zero => simp [tableOn] at h
  | succ n ih =>
    by_cases hk : k = n + 1
    · omega
    obtain ⟨c, -, hq⟩ := tableOn_succ hk h
    have := ih hq
    omega

theorem tableOn_mem (h : tableOn child m p k n t = some q) : q ∈ Pages child m n t := by
  induction n generalizing t with
  | zero => simp [tableOn] at h
  | succ n ih =>
    by_cases hk : k = n + 1
    · subst hk
      rw [tableOn_self] at h
      rw [← Option.some.inj h]
      exact self_mem_pages
    · obtain ⟨c, hc, hq⟩ := tableOn_succ hk h
      exact mem_pages_child hc (ih hq)

theorem tableOn_child (h : tableOn child m p (k + 1) n t = some q)
    (hc : child (k + 1) (m q (p (k + 1))) = some c) (hk : 0 < k) :
    tableOn child m p k n t = some c := by
  induction n generalizing t with
  | zero => simp [tableOn] at h
  | succ n ih =>
    by_cases hn : k + 1 = n + 1
    · obtain rfl : k = n := by omega
      rw [tableOn_self] at h
      obtain rfl := Option.some.inj h
      obtain ⟨j, rfl⟩ : ∃ j, k = j + 1 := ⟨k - 1, by omega⟩
      simp only [tableOn, if_neg (show j + 1 ≠ j + 1 + 1 by omega), hc, Option.bind_some, if_true]
    obtain ⟨c', hc', hq⟩ := tableOn_succ hn h
    have hle := tableOn_le h
    simp only [tableOn, if_neg (show k ≠ n + 1 by omega), hc', Option.bind_some]
    exact ih hq

end Path

section Update

/-- The trees `m` and `m'` differ at most in the entry of table `q` on the path `p`. -/
structure Differ (child : ℕ → ε → Option α) (m m' : α → ι → ε) (p : ℕ → ι) (k n : ℕ) (t q : α) :
    Prop where
  on : tableOn child m p k n t = some q
  other : ∀ r ∈ Pages child m n t, r ≠ q → m' r = m r
  row : ∀ j, j ≠ p k → m' q j = m q j

theorem Differ.down (hT : Tree child m (n + 1) t) (h : Differ child m m' p k (n + 1) t q)
    (hk : k ≠ n + 1) : ∃ c, child (n + 1) (m t (p (n + 1))) = some c ∧
      Differ child m m' p k n c q ∧ m' t = m t ∧
      ∀ j c', child (n + 1) (m t j) = some c' → j ≠ p (n + 1) →
        ∀ r ∈ Pages child m n c', m' r = m r := by
  obtain ⟨c, hc, hq⟩ := tableOn_succ hk h.on
  obtain ⟨hTc, htc, hdisj⟩ := hT _ c hc
  have hmem := tableOn_mem hq
  have htq : t ≠ q := fun htq ↦ htc (htq ▸ hmem)
  refine ⟨c, hc, ⟨hq, ?_, h.row⟩, h.other t self_mem_pages htq, ?_⟩
  · intro r hr hrq
    exact h.other r (mem_pages_child hc hr) hrq
  intro j c' hc' hj r hr
  apply h.other r (mem_pages_child hc' hr)
  intro hrq
  exact Set.disjoint_left.1 (hdisj j c' hc' hj) hmem (hrq ▸ hr)

theorem Differ.top (hT : Tree child m (n + 1) t) (h : Differ child m m' p (n + 1) (n + 1) t q) :
    q = t ∧ ∀ j c', child (n + 1) (m t j) = some c' → ∀ r ∈ Pages child m n c', m' r = m r := by
  have hqt : t = q := Option.some.inj (tableOn_self.symm.trans h.on)
  subst hqt
  refine ⟨rfl, ?_⟩
  intro j c' hc' r hr
  apply h.other r (mem_pages_child hc' hr)
  intro hrt
  exact (hT j c' hc').2.1 (hrt ▸ hr)

theorem Differ.tableOn (hT : Tree child m n t) (h : Differ child m m' p k n t q) :
    tableOn child m' p k n t = some q := by
  induction n generalizing t with
  | zero => simpa [Radix.tableOn] using h.on
  | succ n ih =>
    by_cases hk : k = n + 1
    · subst hk
      rw [(h.top hT).1, tableOn_self]
    obtain ⟨c, hc, hdown, ht, -⟩ := h.down hT hk
    simp only [Radix.tableOn, if_neg hk, ht, hc, Option.bind_some]
    exact ih (hT _ c hc).1 hdown

theorem Differ.trail_eq (hT : Tree child m n t) (h : Differ child m m' p k n t q)
    (hp : ¬ ∀ l, k ≤ l → l ≤ n → p' l = p l) : trail child m' p' n t = trail child m p' n t := by
  induction n generalizing t with
  | zero => rfl
  | succ n ih =>
    by_cases hk : k = n + 1
    · subst hk
      obtain ⟨rfl, hsame⟩ := h.top hT
      have hne : p' (n + 1) ≠ p (n + 1) := by
        intro heq
        apply hp
        intro l h1 h2
        obtain rfl : l = n + 1 := by omega
        exact heq
      simp only [trail, h.row _ hne]
      cases hc : child (n + 1) (m q (p' (n + 1))) with
      | none => rfl
      | some c => simp only [Option.elim_some, trail_congr (hsame _ c hc)]
    obtain ⟨c, hc, hdown, ht, hsame⟩ := h.down hT hk
    simp only [trail, ht]
    by_cases heq : p' (n + 1) = p (n + 1)
    · rw [heq, hc]
      have hrest : trail child m' p' n c = trail child m p' n c := by
        apply ih (hT _ c hc).1 hdown
        intro hall
        apply hp
        intro l h1 h2
        by_cases hl : l = n + 1
        · rw [hl, heq]
        · exact hall l h1 (by omega)
      simp only [Option.elim_some, hrest]
    cases hc' : child (n + 1) (m t (p' (n + 1))) with
    | none => rfl
    | some c' => simp only [Option.elim_some, trail_congr (hsame _ c' hc' heq)]

theorem Differ.trail_append (hT : Tree child m n t) (h : Differ child m m' p k n t q)
    (hp : ∀ l, k < l → l ≤ n → p' l = p l) : ∃ l, l.length = n - k ∧
      trail child m p' n t = l ++ trail child m p' k q ∧
      trail child m' p' n t = l ++ trail child m' p' k q := by
  induction n generalizing t with
  | zero => exact absurd h.on (by simp [Radix.tableOn])
  | succ n ih =>
    by_cases hk : k = n + 1
    · subst hk
      rw [(h.top hT).1]
      exact ⟨[], by simp, rfl, rfl⟩
    have hle := tableOn_le h.on
    obtain ⟨c, hc, hdown, ht, -⟩ := h.down hT hk
    obtain ⟨l, hlen, h1, h2⟩ := ih (hT _ c hc).1 hdown fun l h1 h2 ↦ hp l h1 (by omega)
    refine ⟨m t (p (n + 1)) :: l, by simp only [List.length_cons]; omega, ?_, ?_⟩
    · simp only [trail, hp (n + 1) (by omega) le_rfl, hc, Option.elim_some, h1, List.cons_append]
    simp only [trail, hp (n + 1) (by omega) le_rfl, ht, hc, Option.elim_some, h2,
      List.cons_append]

/-- The tables that an entry of level `k` leads to. -/
def Below (child : ℕ → ε → Option α) (m : α → ι → ε) (k : ℕ) (e : ε) : Set α :=
  {r | ∃ c, child k e = some c ∧ r ∈ Pages child m (k - 1) c}

theorem Differ.grow (hT : Tree child m n t) (h : Differ child m m' p k n t q)
    (hold : child k (m q (p k)) = none)
    (hnew : ∀ c, child k (m' q (p k)) = some c → Tree child m' (k - 1) c ∧
      Disjoint (Pages child m' (k - 1) c) (Pages child m n t)) :
    Tree child m' n t ∧
      Pages child m' n t = Pages child m n t ∪ Below child m' k (m' q (p k)) := by
  induction n generalizing t with
  | zero => exact absurd h.on (by simp [Radix.tableOn])
  | succ n ih =>
    by_cases hk : k = n + 1
    · subst hk
      obtain ⟨rfl, hsame⟩ := h.top hT
      have hpages : ∀ j c, child (n + 1) (m q j) = some c →
          j ≠ p (n + 1) ∧ child (n + 1) (m' q j) = some c ∧
            Pages child m' n c = Pages child m n c := by
        intro j c hc
        have hj : j ≠ p (n + 1) := by
          intro hj
          rw [hj, hold] at hc
          cases hc
        exact ⟨hj, (h.row j hj).symm ▸ hc, pages_congr (hsame j c hc)⟩
      have hback : ∀ j c, child (n + 1) (m' q j) = some c → j ≠ p (n + 1) →
          child (n + 1) (m q j) = some c := by
        intro j c hc hj
        rwa [h.row j hj] at hc
      refine ⟨?_, ?_⟩
      · intro i c hc
        by_cases hi : i = p (n + 1)
        · subst hi
          obtain ⟨hTc, hdisj⟩ := hnew c hc
          refine ⟨hTc, fun hmem ↦ Set.disjoint_left.1 hdisj hmem self_mem_pages, ?_⟩
          intro j c' hc' hj
          obtain ⟨-, -, hp'⟩ := hpages j c' (hback j c' hc' hj)
          simp only [Nat.add_sub_cancel] at hdisj
          rw [hp']
          apply hdisj.mono_right
          intro r hr
          exact mem_pages_child (hback j c' hc' hj) hr
        have hold' := hback i c hc hi
        obtain ⟨hTc, htc, hdisj⟩ := hT i c hold'
        obtain ⟨-, -, hpi⟩ := hpages i c hold'
        refine ⟨hTc.congr (hsame i c hold'), hpi.symm ▸ htc, ?_⟩
        intro j c' hc' hj
        rw [hpi]
        by_cases hjp : j = p (n + 1)
        · subst hjp
          apply (hnew c' hc').2.symm.mono_left
          intro r hr
          exact mem_pages_child hold' hr
        · rw [(hpages j c' (hback j c' hc' hjp)).2.2]
          exact hdisj j c' (hback j c' hc' hjp) hj
      · ext r
        constructor
        · rintro (rfl | ⟨i, c, hc, hr⟩)
          · exact .inl self_mem_pages
          · by_cases hi : i = p (n + 1)
            · subst hi
              exact .inr ⟨c, hc, hr⟩
            · have hold' := hback i c hc hi
              rw [(hpages i c hold').2.2] at hr
              exact .inl (mem_pages_child hold' hr)
        rintro ((rfl | ⟨i, c, hc, hr⟩) | ⟨c, hc, hr⟩)
        · exact self_mem_pages
        · obtain ⟨-, hc', hpi⟩ := hpages i c hc
          exact mem_pages_child hc' (hpi.symm ▸ hr)
        · exact mem_pages_child hc hr
    · obtain ⟨c, hc, hdown, ht, hsame⟩ := h.down hT hk
      obtain ⟨hTc, htc, hdisj⟩ := hT _ c hc
      have hsub : Pages child m n c ⊆ Pages child m (n + 1) t := fun r hr ↦ mem_pages_child hc hr
      obtain ⟨hTc', hpc⟩ := ih hTc hdown fun c' hc' ↦
        ⟨(hnew c' hc').1, (hnew c' hc').2.mono_right hsub⟩
      have hbelow : Disjoint (Below child m' k (m' q (p k))) (Pages child m (n + 1) t) := by
        rw [Set.disjoint_left]
        rintro r ⟨c', hc', hr⟩ hmem
        exact Set.disjoint_left.1 (hnew c' hc').2 hr hmem
      refine ⟨?_, ?_⟩
      · intro i d hd
        rw [ht] at hd
        obtain ⟨hTd, htd, hdd⟩ := hT i d hd
        by_cases hi : i = p (n + 1)
        · subst hi
          obtain rfl : c = d := Option.some.inj (hc.symm.trans hd)
          rw [hpc]
          refine ⟨hTc', ?_, ?_⟩
          · rintro (hmem | hmem)
            · exact htd hmem
            · exact Set.disjoint_left.1 hbelow hmem self_mem_pages
          intro j c' hc' hj
          rw [ht] at hc'
          rw [pages_congr (hsame j c' hc' hj)]
          apply (hdd j c' hc' hj).union_left
          apply hbelow.mono_right
          intro r hr
          exact mem_pages_child hc' hr
        · rw [pages_congr (hsame i d hd hi)]
          refine ⟨hTd.congr (hsame i d hd hi), htd, ?_⟩
          intro j c' hc' hj
          rw [ht] at hc'
          by_cases hjp : j = p (n + 1)
          · subst hjp
            obtain rfl : c = c' := Option.some.inj (hc.symm.trans hc')
            rw [hpc]
            apply (hdd _ c hc' hj).union_right
            apply hbelow.symm.mono_left
            intro r hr
            exact mem_pages_child hd hr
          · rw [pages_congr (hsame j c' hc' hjp)]
            exact hdd j c' hc' hj
      · ext r
        constructor
        · rintro (rfl | ⟨i, d, hd, hr⟩)
          · exact .inl self_mem_pages
          · rw [ht] at hd
            by_cases hi : i = p (n + 1)
            · subst hi
              obtain rfl : c = d := Option.some.inj (hc.symm.trans hd)
              rw [hpc] at hr
              exact hr.imp_left fun hr ↦ mem_pages_child hc hr
            · rw [pages_congr (hsame i d hd hi)] at hr
              exact .inl (mem_pages_child hd hr)
        intro hr
        have hc' : child (n + 1) (m' t (p (n + 1))) = some c := by rw [ht, hc]
        rcases hr with (rfl | ⟨i, d, hd, hr⟩) | hr
        · exact self_mem_pages
        · have hd' : child (n + 1) (m' t i) = some d := by rw [ht, hd]
          by_cases hi : i = p (n + 1)
          · subst hi
            obtain rfl : c = d := Option.some.inj (hc.symm.trans hd)
            exact mem_pages_child hc' (hpc.symm ▸ .inl hr)
          · rw [← pages_congr (hsame i d hd hi)] at hr
            exact mem_pages_child hd' hr
        · exact mem_pages_child hc' (hpc.symm ▸ .inr hr)

end Update

section Copies

/-- Entries that lead nowhere are related by `L`; others by `T`, and their tables by `rest`. -/
def CopiesEntry (child : ℕ → ε → Option α) (T L : ε → ε → Prop) (rest : α → α → Prop) (n : ℕ)
    (e e' : ε) : Prop :=
  match child n e with
  | none => child n e' = none ∧ L e e'
  | some c => T e e' ∧ ∃ c', child n e' = some c' ∧ rest c c'

/-- The tree of `t'` in `m'` has the shape of the tree of `t` in `m`, entry by entry related. -/
def Copies (child : ℕ → ε → Option α) (T L : ε → ε → Prop) (m m' : α → ι → ε) :
    ℕ → α → α → Prop
  | 0, _, _ => True
  | n + 1, t, t' =>
    ∀ i, CopiesEntry child T L (Copies child T L m m' n) (n + 1) (m t i) (m' t' i)

variable {T L : ε → ε → Prop} {t' : α} {e e' : ε} {rest rest' : α → α → Prop}

section

variable (h : CopiesEntry child T L rest n e e')
include h

theorem CopiesEntry.leaf (hc : child n e = none) : child n e' = none ∧ L e e' := by
  simpa only [CopiesEntry, hc] using h

theorem CopiesEntry.table (hc : child n e = some c) :
    T e e' ∧ ∃ c', child n e' = some c' ∧ rest c c' := by
  simpa only [CopiesEntry, hc] using h

theorem CopiesEntry.mono (hrest : ∀ c c', child n e' = some c' → rest c c' → rest' c c') :
    CopiesEntry child T L rest' n e e' := by
  cases hc : child n e with
  | none => simpa only [CopiesEntry, hc] using h.leaf hc
  | some c =>
    obtain ⟨hT, c', hc', hr⟩ := h.table hc
    simpa only [CopiesEntry, hc] using ⟨hT, c', hc', hrest c c' hc' hr⟩

end

theorem Copies.trail (hlow : ∀ e, child 1 e = none) (h : Copies child T L m m' (n + 1) t t') :
    ∃ l l' e e', trail child m p (n + 1) t = l ++ [e] ∧ trail child m' p (n + 1) t' = l' ++ [e'] ∧
      List.Forall₂ T l l' ∧ L e e' := by
  induction n generalizing t t' with
  | zero =>
    obtain ⟨hc', hL⟩ := (h (p 1)).leaf (hlow _)
    refine ⟨[], [], _, _, ?_, ?_, .nil, hL⟩
    · simp only [Radix.trail, hlow, Option.elim_none, List.nil_append]
    · simp only [Radix.trail, hlow, Option.elim_none, List.nil_append]
  | succ n ih =>
    have hi := h (p (n + 2))
    rw [Radix.trail, Radix.trail]
    cases hc : child (n + 2) (m t (p (n + 2))) with
    | none =>
      obtain ⟨hc', hL⟩ := hi.leaf hc
      exact ⟨[], [], _, _, rfl, by rw [hc']; rfl, .nil, hL⟩
    | some c =>
      obtain ⟨hT, c', hc', hrest⟩ := hi.table hc
      obtain ⟨l, l', e, e', h1, h2, hl, hL⟩ := ih hrest
      refine ⟨m t (p (n + 2)) :: l, m' t' (p (n + 2)) :: l', e, e', ?_, ?_, .cons hT hl, hL⟩
      · rw [Option.elim_some, h1, List.cons_append]
      · rw [hc', Option.elim_some, h2, List.cons_append]

theorem Copies.congr {μ : α → ι → ε} (h : Copies child T L m m' n t t')
    (hm : ∀ r ∈ Pages child m' n t', μ r = m' r) : Copies child T L m μ n t t' := by
  induction n generalizing t t' with
  | zero => trivial
  | succ n ih =>
    intro i
    rw [hm t' self_mem_pages]
    apply CopiesEntry.mono (h i)
    intro c c' hc' hrest
    exact ih hrest fun r hr ↦ hm r (mem_pages_child hc' hr)

end Copies

end NexusOS.Lib.Radix
