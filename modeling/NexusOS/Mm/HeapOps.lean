import NexusOS.Mm.HeapTiling

namespace NexusOS.Mm.Heap

open Lib

variable {s s' : State} {l : List ℕ} {p : Option ℕ} {a b e : ℕ}

section Walk

theorem findFit_mem {r : ℕ} (h : Chain s p b l e none) {k : ℕ}
    (ha : findFit s r k l.head? = some a) :
    a ∈ l ∧ (s.mem a).isFree = true ∧ r ≤ (s.mem a).capacity := by
  induction l generalizing p b k with
  | nil => simp [findFit] at ha
  | cons c l ih =>
    obtain ⟨-, -, hn, -, h⟩ := h
    cases k with
    | zero => simp [findFit] at ha
    | succ k =>
      simp only [List.head?_cons, findFit] at ha
      split_ifs at ha with hfit
      · obtain rfl : c = a := by simpa using ha
        exact ⟨by simp, by simpa using hfit⟩
      have hn' : (s.mem c).next = l.head? := by simpa using hn
      obtain ⟨hal, hrest⟩ := ih h (hn' ▸ ha)
      exact ⟨List.mem_cons_of_mem _ hal, hrest⟩

theorem lastBlock_eq {c : ℕ} (h : Chain s p b (a :: l) e none) {k : ℕ} (hk : l.length ≤ k)
    (hc : (a :: l).getLast? = some c) : lastBlock s k a = c := by
  induction l generalizing a p b k with
  | nil =>
    have hn : (s.mem a).next = none := by simpa using h.2.2.1
    obtain rfl : a = c := by simpa using hc
    cases k <;> simp [lastBlock, hn]
  | cons d l ih =>
    obtain ⟨-, -, hn, -, h⟩ := h
    have hn' : (s.mem a).next = some d := by simpa using hn
    cases k with
    | zero => simp at hk
    | succ k =>
      simp only [lastBlock, hn']
      exact ih h (by simpa using hk) (by rwa [List.getLast?_cons_cons] at hc)

theorem WellFormed.blockBasicValid (h : WellFormed s l) (ha : a ∈ l) :
    blockBasicValid s a = true := by
  obtain ⟨hbase, hnext, hlim⟩ := h.bounds ha
  have hg := h.good a ha
  have hlinks := Tiled.links h.chain ha
  have hin : ∀ c ∈ l, ptrInHeap s c = true := by
    intro c hc
    obtain ⟨h₁, h₂, -⟩ := h.bounds hc
    simp only [ptrInHeap, decide_eq_true_eq]
    omega
  have hlink : ∀ q : Option ℕ, (∀ c, q = some c → c ∈ l) → linkInHeap s q = true := by
    intro q hq
    cases q with
    | none => rfl
    | some c => exact hin c (hq c rfl)
  have hstop : (a + 48 + (s.mem a).capacity) % 2 ^ 64 = a + 48 + (s.mem a).capacity :=
    Nat.mod_eq_of_lt (by omega)
  have hpos := hg.pos
  have hsize := hg.size_le
  simp only [Heap.blockBasicValid, hstop, hin a ha, hg.magic,
    hlink _ fun c hc ↦ (hlinks.2.1 c hc).1, hlink _ fun c hc ↦ (hlinks.1 c hc).1]
  simp
  omega

theorem WellFormed.blockValid (h : WellFormed s l) (ha : a ∈ l) :
    blockValid s a (s.mem a).prev = true := by
  have hflags : (s.mem a).flags &&& notBlockFree = 0 := by
    rcases (h.good a ha).flags with hf | hf <;> rw [hf] <;> decide
  simp only [Heap.blockValid, h.blockBasicValid ha, hflags]
  cases hn : (s.mem a).next with
  | none => simp
  | some c => simpa using ((Tiled.links h.chain ha).1 c hn).2.1

theorem validateLoop_of_blockValid (hv : ∀ a ∈ l, blockValid s a (s.mem a).prev = true)
    (h : Chain s p b l e none) {k : ℕ} (hk : l.length ≤ k) :
    validateLoop s k l.head? p = true := by
  induction l generalizing p b k with
  | nil => cases k <;> rfl
  | cons a l ih =>
    obtain ⟨-, hp, hn, -, h⟩ := h
    have hn' : (s.mem a).next = l.head? := by simpa using hn
    have hp' : (s.mem a).prev = p := hp
    cases k with
    | zero => simp at hk
    | succ k =>
      simp only [List.head?_cons, validateLoop, hn', Bool.and_eq_true]
      exact ⟨hp' ▸ hv a (by simp), ih (fun c hc ↦ hv c (List.mem_cons_of_mem _ hc)) h
        (by simpa using hk)⟩

theorem length_le_of_validateLoop (h : Chain s p b l e none) {k : ℕ} {q : Option ℕ}
    (hv : validateLoop s k l.head? q = true) : l.length ≤ k := by
  induction l generalizing p b k q with
  | nil => exact Nat.zero_le _
  | cons a l ih =>
    obtain ⟨-, -, hn, -, h⟩ := h
    have hn' : (s.mem a).next = l.head? := by simpa using hn
    cases k with
    | zero => simp [validateLoop] at hv
    | succ k =>
      simp only [List.head?_cons, validateLoop, hn', Bool.and_eq_true] at hv
      simpa using ih h hv.2

theorem heapValidate_snd (s : State) :
    SameArena s (heapValidate s).2 ∧ (heapValidate s).2.mem = s.mem := by
  unfold heapValidate
  split_ifs <;> exact ⟨⟨rfl, rfl, rfl, rfl⟩, rfl⟩

theorem WellFormed.heapValidate_iff (h : WellFormed s l) (hr : s.ready = true) :
    (heapValidate s).1 = true ↔ l.length ≤ seenLimit := by
  have hhead : headHasPrev s = false := by
    unfold headHasPrev
    rw [h.head]
    cases hl : l.head? with
    | none => rfl
    | some a => simpa using Tiled.head_prev h.chain hl
  have hiff : (heapValidate s).1 = validateLoop s seenLimit s.head none := by
    simp only [heapValidate, hr, hhead, Bool.and_true, Bool.not_true, Bool.not_false,
      Bool.false_eq_true, if_false]
    cases validateLoop s seenLimit s.head none <;> rfl
  rw [hiff, h.head]
  exact ⟨length_le_of_validateLoop h.chain,
    validateLoop_of_blockValid (fun a ha ↦ h.blockValid ha) h.chain⟩

end Walk

section Grow

theorem attachBlock_none (hs : s.head = none) : attachBlock s a = { s with head := some a } := by
  simp only [attachBlock, hs]

theorem attachBlock_some {d q : ℕ} (hs : s.head = some d) (hq : lastBlock s seenLimit d = q) :
    attachBlock s a = (s.write q { s.mem q with next := some a }).write a
      { (s.write q { s.mem q with next := some a }).mem a with prev := some q } := by
  simp only [attachBlock, hs, hq]

theorem attachBlock_arena (s : State) (a : ℕ) : (attachBlock s a).heapNext = s.heapNext ∧
    (attachBlock s a).heapPages = s.heapPages ∧ (attachBlock s a).ready = s.ready ∧
    (attachBlock s a).head = s.head.or (some a) := by
  cases hs : s.head with
  | none => simp [attachBlock_none hs]
  | some d => simp [attachBlock_some hs rfl, State.write, hs]

variable (r pages capacity : ℕ)

theorem appendBlock_mem (h : WellFormed s l) (hlen : l.length ≤ seenLimit) :
    (appendBlock s r pages capacity).mem s.heapNext =
        ⟨blockMagic, r, capacity, 0, l.getLast?, none⟩ ∧
      ∀ c ∈ l, (appendBlock s r pages capacity).mem c = { s.mem c with
        next := if l.getLast? = some c then some s.heapNext else (s.mem c).next } := by
  have hnew : ∀ c ∈ l, c ≠ s.heapNext := by
    intro c hc
    have := (h.bounds hc).2.1
    omega
  cases l with
  | nil =>
    have hhead : s.head = none := h.head
    simp [appendBlock, attachBlock_none (s := s.write _ _) hhead]
  | cons d l =>
    obtain ⟨q, hq⟩ : ∃ q, (d :: l).getLast? = some q := ⟨_, List.getLast?_eq_some_getLast (by simp)⟩
    have hhead : s.head = some d := h.head
    have hql := List.mem_of_mem_getLast? hq
    let s₁ := s.write s.heapNext ⟨blockMagic, r, capacity, 0, none, none⟩
    have hlast : lastBlock s₁ seenLimit d = q := by
      refine lastBlock_eq (Tiled.congr h.chain fun c hc ↦ ?_) (Nat.le_of_succ_le hlen) hq
      simp [s₁, hnew c hc]
    have heq : ∀ c, (appendBlock s r pages capacity).mem c = (attachBlock s₁ s.heapNext).mem c :=
      fun _ ↦ rfl
    have hqn := (hnew q hql).symm
    simp only [heq, attachBlock_some (s := s₁) hhead hlast]
    refine ⟨by simp [s₁, hqn, hq], fun c hc ↦ ?_⟩
    by_cases hcq : c = q
    · simp [s₁, hcq, hq, hnew q hql]
    · simp [s₁, hcq, hq, hnew c hc, Ne.symm hcq]

theorem appendBlock_arena (s : State) : (appendBlock s r pages capacity).heapNext =
      s.heapNext + pages * 4096 ∧ (appendBlock s r pages capacity).heapPages = s.heapPages + pages ∧
      (appendBlock s r pages capacity).ready = s.ready ∧
      (appendBlock s r pages capacity).head = s.head.or (some s.heapNext) := by
  obtain ⟨h₁, h₂, h₃, h₄⟩ :=
    attachBlock_arena (s.write s.heapNext ⟨blockMagic, r, capacity, 0, none, none⟩) s.heapNext
  exact ⟨congrArg (· + pages * 4096) h₁, congrArg (· + pages) h₂, h₃, h₄⟩

variable {r pages capacity}

theorem appendBlock_wellFormed (h : WellFormed s l) (hlen : l.length ≤ seenLimit) (hp : 0 < pages)
    (hlim : pages ≤ (0xFFFF900000000000 - s.heapNext) / 4096) (hcap : capacity = pages * 4096 - 48)
    (hr : r ≤ capacity) :
    WellFormed (appendBlock s r pages capacity) (l ++ [s.heapNext]) ∧
      Kept s.heapNext s l (appendBlock s r pages capacity) (l ++ [s.heapNext]) ∧
      ((appendBlock s r pages capacity).mem s.heapNext).flags = 0 ∧
      ((appendBlock s r pages capacity).mem s.heapNext).capacity = capacity := by
  obtain ⟨hnew, hm⟩ := appendBlock_mem r pages capacity h hlen
  obtain ⟨hnext, hpages, -, hhead⟩ := appendBlock_arena r pages capacity s
  have hspan : 48 + capacity = pages * 4096 := by omega
  refine ⟨⟨?_, ?_, ?_, ?_, ?_⟩, ?_, by rw [hnew], by rw [hnew]⟩
  · rw [hhead, h.head]
    cases l <;> simp
  · have hend : s.heapNext + pages * 4096 = s.heapNext +
        (48 + ((appendBlock s r pages capacity).mem s.heapNext).capacity) := by
      rw [hnew, hspan]
    rw [hnext, hend]
    refine Tiled.snoc h.chain (by omega) (by simp [hnew]) fun c hc ↦ ?_
    simp [hm c hc]
  · intro c hc
    rcases List.mem_append.mp hc with hc | hc
    · have hg := h.good c hc
      rw [hm c hc]
      exact ⟨hg.magic, hg.size_le, hg.aligned, hg.pos, hg.flags⟩
    · rw [List.mem_singleton.mp hc, hnew]
      exact ⟨rfl, hr, by simp only; omega, by simp only; omega, .inl rfl⟩
  · have := h.pages
    rw [hnext, hpages]
    omega
  · have hle : s.heapNext ≤ 0xFFFF900000000000 := h.limit
    have : heapLimit = 0xFFFF900000000000 := rfl
    omega
  intro c hc hca hf
  rw [hm c hc]
  exact ⟨by simp [hc], hf, rfl⟩

end Grow

section Take

variable {r : ℕ}

theorem claimBlock_wellFormed (h : WellFormed s l) (ha : a ∈ l) (hr : r ≤ (s.mem a).capacity) :
    WellFormed (claimBlock s a r) l ∧ Kept a s l (claimBlock s a r) l ∧
      ((claimBlock s a r).mem a).flags = 0 ∧
      ((claimBlock s a r).mem a).capacity = (s.mem a).capacity := by
  have hg := h.good a ha
  have hflags : (s.mem a).flags &&& notBlockFree = 0 := by
    rcases hg.flags with hf | hf <;> rw [hf] <;> decide
  have hma : (claimBlock s a r).mem a = { s.mem a with flags := 0, size := r } := by
    simp [claimBlock, State.write, hflags]
  have hm : ∀ c, c ≠ a → (claimBlock s a r).mem c = s.mem c := fun c hc ↦ by
    simp [claimBlock, State.write, hc]
  refine ⟨h.congr ⟨rfl, rfl, rfl, rfl⟩ (fun c _ ↦ ?_) (fun c hc ↦ ?_),
    Kept.of_mem fun c _ hca ↦ by simp [hm c hca], by rw [hma], by rw [hma]⟩ <;> by_cases hca : c = a
  · simp [hca, hma]
  · simp [hm c hca]
  · rw [hca, hma]
    exact ⟨hg.magic, hr, hg.aligned, hg.pos, .inl rfl⟩
  · rw [hm c hca]
    exact h.good c hc

theorem takeBlock_wellFormed (h : WellFormed s l) (ha : a ∈ l) (hr : r ≤ (s.mem a).capacity)
    (hd : 16 ∣ r) (h0 : 0 < r) :
    ∃ l', WellFormed (takeBlock s a r) l' ∧ Kept a s l (takeBlock s a r) l' ∧ a ∈ l' ∧
      ((takeBlock s a r).mem a).flags = 0 ∧ r ≤ ((takeBlock s a r).mem a).capacity := by
  obtain ⟨hw, hk, hf, hcap⟩ := claimBlock_wellFormed h ha hr
  obtain ⟨l', hw', hk', ha', hf', hr'⟩ := splitBlock_wellFormed hw ha (hcap ▸ hr) hd h0
  unfold takeBlock
  generalize splitBlock (claimBlock s a r) a r = t at hw' hk' hf' hr' ⊢
  rw [countAllocation_mem]
  exact ⟨l', hw'.countAllocation, (hk.trans hk').countAllocation, ha', hf'.trans hf, hr'⟩

theorem takeBlock_ready (s : State) (a r : ℕ) : (takeBlock s a r).ready = s.ready := by
  unfold takeBlock
  rw [(countAllocation_sameArena _ r).2.2.2, (splitBlock_sameArena _ a r).2.2.2]
  rfl

end Take

section Release

theorem Kept.of_free {c : ℕ} {l' : List ℕ} (h : Kept c s l s' l') (hc : (s.mem c).flags = 1) :
    Kept a s l s' l' :=
  fun d hd _ hf ↦ h d hd (by rintro rfl; omega) hf

theorem mergeBackward_wellFormed (h : WellFormed s l) (ha : a ∈ l) :
    ∃ l', WellFormed (mergeBackward s a) l' ∧ Kept a s l (mergeBackward s a) l' := by
  have hrefl : Kept a s l s l := Kept.of_mem fun c _ _ ↦ ⟨rfl, rfl⟩
  unfold mergeBackward
  cases hp : (s.mem a).prev with
  | none => exact ⟨l, h, hrefl⟩
  | some q =>
    have hq := ((Tiled.links h.chain ha).2.1 q hp).1
    dsimp only
    split_ifs with hf
    · have hf' := (isFree_iff (h.good q hq)).mp hf
      obtain ⟨l', hw, hk, -, -⟩ := mergeWithNext_wellFormed h hq hf'
      exact ⟨l', hw, hk.of_free hf'⟩
    · exact ⟨l, h, hrefl⟩

theorem releaseBlock_mem (hf : (s.mem a).flags = 0) :
    (releaseBlock s a).mem a = { s.mem a with flags := 1 } ∧
      ∀ c, c ≠ a → (releaseBlock s a).mem c = s.mem c := by
  refine ⟨by simp [releaseBlock, State.write, hf], fun c hc ↦ ?_⟩
  simp [releaseBlock, State.write, hc]

theorem releaseBlock_wellFormed (h : WellFormed s l) (ha : a ∈ l) (hf : (s.mem a).flags = 0) :
    WellFormed (releaseBlock s a) l := by
  have hg := h.good a ha
  obtain ⟨hma, hm⟩ := releaseBlock_mem hf
  refine h.congr ⟨rfl, rfl, rfl, rfl⟩ (fun c _ ↦ ?_) (fun c hc ↦ ?_) <;> by_cases hca : c = a
  · simp [hca, hma]
  · simp [hm c hca]
  · rw [hca, hma]
    exact ⟨hg.magic, hg.size_le, hg.aligned, hg.pos, .inr rfl⟩
  rw [hm c hca]
  exact h.good c hc

theorem release_wellFormed (h : WellFormed s l) (ha : a ∈ l) (hf : (s.mem a).flags = 0) :
    ∃ l', WellFormed (mergeBackward (mergeWithNext (releaseBlock s a) a) a) l' ∧
      Kept a s l (mergeBackward (mergeWithNext (releaseBlock s a) a) a) l' := by
  obtain ⟨hma, hm⟩ := releaseBlock_mem hf
  have hw := releaseBlock_wellFormed h ha hf
  have hk : Kept a s l (releaseBlock s a) l := Kept.of_mem fun c _ hca ↦ by simp [hm c hca]
  obtain ⟨l₁, hw₁, hk₁, ha₁, -⟩ := mergeWithNext_wellFormed hw ha (by rw [hma])
  obtain ⟨l₂, hw₂, hk₂⟩ := mergeBackward_wellFormed hw₁ ha₁
  exact ⟨l₂, hw₂, (hk.trans hk₁).trans hk₂⟩

theorem release_sameArena (s : State) (a : ℕ) :
    SameArena s (mergeBackward (mergeWithNext (releaseBlock s a) a) a) := by
  have hback : ∀ t : State, SameArena t (mergeBackward t a) := by
    intro t
    unfold mergeBackward
    cases (t.mem a).prev with
    | none => exact ⟨rfl, rfl, rfl, rfl⟩
    | some q =>
      dsimp only
      split_ifs
      · exact mergeWithNext_sameArena t q
      · exact ⟨rfl, rfl, rfl, rfl⟩
  obtain ⟨h₁, h₂, h₃, h₄⟩ := hback (mergeWithNext (releaseBlock s a) a)
  obtain ⟨h₁', h₂', h₃', h₄'⟩ := mergeWithNext_sameArena (releaseBlock s a) a
  exact ⟨h₁.trans h₁', h₂.trans h₂', h₃.trans h₃', h₄.trans h₄'⟩

end Release

/-- What an allocation or a release does to the block list, besides handing out or taking back the
block at `a`. -/
def Moves (a : ℕ) (s : State) (l : List ℕ) (s' : State) : Prop :=
  s'.ready = s.ready ∧ ∃ l', WellFormed s' l' ∧ Kept a s l s' l'

theorem alignSize_spec {size : ℕ} (hlt : size < 2 ^ 64)
    (hr : alignSize size ≠ 0) : 16 ∣ alignSize size ∧ size ≤ alignSize size ∧
      alignSize size < 2 ^ 64 := by
  have h : alignUp64 size 16 = if size > 2 ^ 64 - 1 - (16 - 1) then 2 ^ 64 - 1
    else (size + (16 - 1)) - (size + (16 - 1)) % 16 := rfl
  unfold alignSize at hr ⊢
  split_ifs at hr ⊢ with hmax
  · exact absurd rfl hr
  split_ifs at h with hbig
  · exact absurd h hmax
  · omega

section Kmalloc

variable {V : Type*} (m : Vmm V)

theorem kmalloc_grow (v : V) {size : ℕ} (h₁ : ¬ (!s.ready ∨ size = 0)) (h₂ : ¬ alignSize size = 0)
    (h₃ : ¬ (!(heapValidate s).1) = true)
    (hfit : findFit s (alignSize size) seenLimit s.head = none)
    (h₄ : ¬ (pagesForBlock (alignSize size) = 0 ∨
      (pagesForBlock (alignSize size) * 4096 + 2 ^ 64 - 48) % 2 ^ 64 < alignSize size ∨
      s.heapNext > heapLimit ∨ pagesForBlock (alignSize size) > (heapLimit - s.heapNext) / 4096)) :
    kmalloc m s v size = match mapNewPages m s.heapNext (pagesForBlock (alignSize size)) v with
      | (false, v') => (none, s, v')
      | (true, v') => (some (s.heapNext + 48), appendBlock s (alignSize size)
          (pagesForBlock (alignSize size))
          ((pagesForBlock (alignSize size) * 4096 + 2 ^ 64 - 48) % 2 ^ 64), v') := by
  simp only [kmalloc, if_neg h₁, if_neg h₂, if_neg h₃, hfit, if_neg h₄]
  rcases mapNewPages m s.heapNext (pagesForBlock (alignSize size)) v with ⟨_ | _, v'⟩ <;> simp

theorem kmalloc_cases (s : State) (v : V) (size : ℕ) :
    (∃ s' v', kmalloc m s v size = (none, s', v') ∧ (s' = s ∨ s' = (heapValidate s).2)) ∨
      (s.ready = true ∧ size ≠ 0 ∧ alignSize size ≠ 0 ∧ (heapValidate s).1 = true ∧
        ((∃ a, findFit s (alignSize size) seenLimit s.head = some a ∧
          kmalloc m s v size = (some (a + 48), takeBlock s a (alignSize size), v)) ∨
        (∃ pages v', findFit s (alignSize size) seenLimit s.head = none ∧ 0 < pages ∧
          pages ≤ (0xFFFF900000000000 - s.heapNext) / 4096 ∧ alignSize size ≤ pages * 4096 - 48 ∧
          kmalloc m s v size = (some (s.heapNext + 48),
            appendBlock s (alignSize size) pages (pages * 4096 - 48), v')))) := by
  by_cases h₁ : !s.ready ∨ size = 0
  · exact .inl ⟨s, v, by rw [kmalloc, if_pos h₁], .inl rfl⟩
  by_cases h₂ : alignSize size = 0
  · exact .inl ⟨s, v, by simp only [kmalloc, if_neg h₁, if_pos h₂], .inl rfl⟩
  by_cases h₃ : (!(heapValidate s).1) = true
  · exact .inl ⟨_, v, by simp only [kmalloc, if_neg h₁, if_neg h₂, if_pos h₃],
      .inr rfl⟩
  have hready : s.ready = true ∧ size ≠ 0 := by simpa [not_or] using h₁
  have hvalid : (heapValidate s).1 = true := by simpa using h₃
  cases hfit : findFit s (alignSize size) seenLimit s.head with
  | some a =>
    refine .inr ⟨hready.1, hready.2, h₂, hvalid, .inl ⟨a, rfl, ?_⟩⟩
    simp only [kmalloc, if_neg h₁, if_neg h₂, if_neg h₃, hfit]
  | none =>
    by_cases h₄ : pagesForBlock (alignSize size) = 0 ∨
        (pagesForBlock (alignSize size) * 4096 + 2 ^ 64 - 48) % 2 ^ 64 < alignSize size ∨
        s.heapNext > heapLimit ∨ pagesForBlock (alignSize size) > (heapLimit - s.heapNext) / 4096
    · exact .inl ⟨s, v, by simp only [kmalloc, if_neg h₁, if_neg h₂, if_neg h₃, hfit, if_pos h₄],
        .inl rfl⟩
    have hgrow := kmalloc_grow m v h₁ h₂ h₃ hfit h₄
    rcases hg : mapNewPages m s.heapNext (pagesForBlock (alignSize size)) v with ⟨ok, v'⟩
    rw [hg] at hgrow
    cases ok with
    | false => exact .inl ⟨s, v', hgrow, .inl rfl⟩
    | true =>
      obtain ⟨hp, hc, -, hlim⟩ := by simpa only [not_or] using h₄
      have hlim' : pagesForBlock (alignSize size) ≤ (0xFFFF900000000000 - s.heapNext) / 4096 :=
        Nat.le_of_not_lt hlim
      have hcapacity : (pagesForBlock (alignSize size) * 4096 + 2 ^ 64 - 48) % 2 ^ 64 =
          pagesForBlock (alignSize size) * 4096 - 48 := by omega
      rw [hcapacity] at hgrow
      exact .inr ⟨hready.1, hready.2, h₂, hvalid,
        .inr ⟨_, v', rfl, by omega, hlim', by omega, hgrow⟩⟩

theorem kmalloc_spec (h : WellFormed s l) (v : V) {size : ℕ} (hlt : size < 2 ^ 64) :
    (∃ s' v', kmalloc m s v size = (none, s', v') ∧ s'.mem = s.mem ∧ SameArena s s') ∨
      ∃ a s' v' l', kmalloc m s v size = (some (a + 48), s', v') ∧ size ≠ 0 ∧
        (a ∈ l → (s.mem a).flags = 1) ∧ s'.ready = s.ready ∧ WellFormed s' l' ∧
        Kept a s l s' l' ∧ a ∈ l' ∧ (s'.mem a).flags = 0 ∧ size ≤ (s'.mem a).capacity := by
  obtain ⟨s', v', heq, hfail⟩ | ⟨hready, hsize, hr, hvalid, ⟨a, hfit, heq⟩ |
    ⟨pages, v', -, hp, hlim, hc, heq⟩⟩ := kmalloc_cases m s v size
  · refine .inl ⟨s', v', heq, ?_⟩
    rcases hfail with rfl | rfl
    · exact ⟨rfl, rfl, rfl, rfl, rfl⟩
    · exact ⟨(heapValidate_snd s).2, (heapValidate_snd s).1⟩
  · obtain ⟨hd, hle, -⟩ := alignSize_spec hlt hr
    obtain ⟨ha, hfree, hcap⟩ := findFit_mem h.chain (h.head ▸ hfit)
    obtain ⟨l', hw, hk, ha', hf, hroom⟩ := takeBlock_wellFormed h ha hcap hd (by omega)
    exact .inr ⟨a, _, _, l', heq, hsize, fun _ ↦ (isFree_iff (h.good a ha)).mp hfree,
      takeBlock_ready s a _, hw, hk, ha', hf, hle.trans hroom⟩
  · obtain ⟨-, hle, -⟩ := alignSize_spec hlt hr
    have hlen := (h.heapValidate_iff hready).mp hvalid
    obtain ⟨hw, hk, hf, hroom⟩ := appendBlock_wellFormed h hlen hp hlim rfl hc
    refine .inr ⟨s.heapNext, _, _, _, heq, hsize, fun ha ↦ ?_, (appendBlock_arena _ _ _ s).2.2.1,
      hw, hk, by simp, hf, by rw [hroom]; omega⟩
    have := (h.bounds ha).2.1
    omega

end Kmalloc

theorem kfree_spec (h : WellFormed s l) (ha : a ∈ l) (hf : (s.mem a).flags = 0) :
    Moves a s l (kfree s (some (a + 48))) := by
  have hrefl : Moves a s l s := ⟨rfl, l, h, Kept.of_mem fun c _ _ ↦ ⟨rfl, rfl⟩⟩
  unfold kfree
  dsimp only
  rw [Nat.add_sub_cancel]
  split_ifs
  · exact hrefl
  · exact hrefl
  · obtain ⟨harena, hmem⟩ := heapValidate_snd s
    refine ⟨harena.2.2.2, l, h.congr harena (by simp [hmem]) (by simpa [hmem] using h.good), ?_⟩
    exact Kept.of_mem fun c _ _ ↦ by simp [hmem]
  · obtain ⟨l', hw, hk⟩ := release_wellFormed h ha hf
    exact ⟨(release_sameArena s a).2.2.2, l', hw, hk⟩

end NexusOS.Mm.Heap
