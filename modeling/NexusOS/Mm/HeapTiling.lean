import NexusOS.Mm.Heap

namespace NexusOS.Mm.Heap

open Lib

variable {s s' : State} {l l₁ l₂ : List ℕ} {p n : Option ℕ} {a b e : ℕ}

/-- The block list as a tiling of the arena by headers and payloads. -/
def Chain (s : State) : Option ℕ → ℕ → List ℕ → ℕ → Option ℕ → Prop :=
  Tiled (fun a ↦ (s.mem a).prev) (fun a ↦ (s.mem a).next) (fun a ↦ 48 + (s.mem a).capacity)

structure Good (b : HeapBlock) : Prop where
  magic : b.magic = blockMagic
  size_le : b.size ≤ b.capacity
  aligned : 16 ∣ b.capacity
  pos : 0 < b.capacity
  flags : b.flags = 0 ∨ b.flags = 1

/-- The list `l` of block addresses tiles the arena up to `heapNext`. -/
structure WellFormed (s : State) (l : List ℕ) : Prop where
  head : s.head = l.head?
  chain : Chain s none heapBase l s.heapNext none
  good : ∀ a ∈ l, Good (s.mem a)
  pages : s.heapNext = heapBase + 4096 * s.heapPages
  limit : s.heapNext ≤ heapLimit

@[simp]
theorem write_mem (s : State) (a c : ℕ) (b : HeapBlock) :
    (s.write a b).mem c = if c = a then b else s.mem c := by
  simp [State.write, Function.update_apply]

@[simp]
theorem linkBack_mem (s : State) (link : Option ℕ) (a c : ℕ) :
    (s.linkBack link a).mem c =
      if link = some c then { s.mem c with prev := some a } else s.mem c := by
  cases link with
  | none => simp [State.linkBack]
  | some n =>
    by_cases h : c = n
    · simp [State.linkBack, h]
    · simp [State.linkBack, h, Ne.symm h]

def SameArena (s s' : State) : Prop :=
  s'.head = s.head ∧ s'.heapNext = s.heapNext ∧ s'.heapPages = s.heapPages ∧ s'.ready = s.ready

@[simp]
theorem countAllocation_mem (s : State) (r : ℕ) : (s.countAllocation r).mem = s.mem := rfl

theorem countAllocation_sameArena (s : State) (r : ℕ) : SameArena s (s.countAllocation r) :=
  ⟨rfl, rfl, rfl, rfl⟩

theorem linkBack_sameArena (s : State) (link : Option ℕ) (a : ℕ) :
    SameArena s (s.linkBack link a) := by
  cases link <;> exact ⟨rfl, rfl, rfl, rfl⟩

section

variable (h : WellFormed s l)
include h

theorem WellFormed.bounds (ha : a ∈ l) : heapBase ≤ a ∧ a + 48 + (s.mem a).capacity ≤ s.heapNext ∧
      a + 48 + (s.mem a).capacity ≤ 0xFFFF900000000000 := by
  obtain ⟨h₁, h₂, -⟩ := Tiled.bounds h.chain ha
  have h₃ : s.heapNext ≤ 0xFFFF900000000000 := h.limit
  exact ⟨h₁, by omega, by omega⟩

theorem WellFormed.apart {c : ℕ} (ha : a ∈ l) (hc : c ∈ l) (hne : a ≠ c) :
    a + 48 + (s.mem a).capacity ≤ c ∨ c + 48 + (s.mem c).capacity ≤ a := by
  have := Tiled.apart h.chain ha hc hne
  omega

theorem WellFormed.nodup : l.Nodup := Tiled.nodup h.chain

theorem WellFormed.aligned (ha : a ∈ l) : 16 ∣ a := by
  refine Tiled.dvd h.chain (by decide) (fun c hc ↦ ?_) ha
  exact dvd_add (by decide) (h.good c hc).aligned

theorem WellFormed.congr (hs : SameArena s s')
    (hm : ∀ a ∈ l, (s'.mem a).prev = (s.mem a).prev ∧ (s'.mem a).next = (s.mem a).next ∧
      (s'.mem a).capacity = (s.mem a).capacity) (hg : ∀ a ∈ l, Good (s'.mem a)) :
    WellFormed s' l where
  head := hs.1.trans h.head
  chain := hs.2.1 ▸ Tiled.congr h.chain fun a ha ↦ by simp only [hm a ha, and_self]
  good := hg
  pages := by rw [hs.2.1, hs.2.2.1]; exact h.pages
  limit := hs.2.1 ▸ h.limit

end

/-- Every allocated block other than `a` is kept with its payload. -/
def Kept (a : ℕ) (s : State) (l : List ℕ) (s' : State) (l' : List ℕ) : Prop :=
  ∀ c ∈ l, c ≠ a → (s.mem c).flags = 0 →
    c ∈ l' ∧ (s'.mem c).flags = 0 ∧ (s'.mem c).capacity = (s.mem c).capacity

theorem Kept.of_mem (hm : ∀ c ∈ l, c ≠ a → (s'.mem c).flags = (s.mem c).flags ∧
    (s'.mem c).capacity = (s.mem c).capacity) : Kept a s l s' l :=
  fun c hc hca hf ↦ ⟨hc, (hm c hc hca).1.trans hf, (hm c hc hca).2⟩

theorem Kept.trans {s'' : State} {l' l'' : List ℕ} (h : Kept a s l s' l')
    (h' : Kept a s' l' s'' l'') : Kept a s l s'' l'' := by
  intro c hc hca hf
  obtain ⟨hc', hf', hcap⟩ := h c hc hca hf
  obtain ⟨hc'', hf'', hcap'⟩ := h' c hc' hca hf'
  exact ⟨hc'', hf'', hcap'.trans hcap⟩

theorem WellFormed.countAllocation {r : ℕ} (h : WellFormed s l) :
    WellFormed (s.countAllocation r) l :=
  h.congr (countAllocation_sameArena s r) (fun a _ ↦ by simp)
    (fun a ha ↦ by simpa using h.good a ha)

theorem Kept.countAllocation {l' : List ℕ} {r : ℕ} (h : Kept a s l s' l') :
    Kept a s l (s'.countAllocation r) l' := by
  simpa only [Kept, countAllocation_mem] using h

section Split

variable {r : ℕ}

def splitTail (s : State) (a r : ℕ) : HeapBlock :=
  ⟨blockMagic, (s.mem a).capacity - r - 48, (s.mem a).capacity - r - 48, 1, some a, (s.mem a).next⟩

theorem splitBlock_mem (hr : r + 64 ≤ (s.mem a).capacity) (hc : (s.mem a).capacity < 2 ^ 64)
    (hn : (s.mem a).next ≠ some a) (hnt : (s.mem a).next ≠ some (a + 48 + r)) :
    (splitBlock s a r).mem a =
        { s.mem a with next := some (a + 48 + r), size := r, capacity := r } ∧
      (splitBlock s a r).mem (a + 48 + r) = splitTail s a r ∧
      ∀ c, c ≠ a → c ≠ a + 48 + r → (splitBlock s a r).mem c =
        { s.mem c with
          prev := if (s.mem a).next = some c then some (a + 48 + r) else (s.mem c).prev } := by
  have hrem : ((s.mem a).capacity + 2 ^ 64 - r) % 2 ^ 64 = (s.mem a).capacity - r := by omega
  have hbig : ¬ (s.mem a).capacity - r < 48 + 16 := by omega
  have hta : a ≠ a + 48 + r := by omega
  simp only [splitBlock, hrem, if_neg hbig, write_mem, linkBack_mem]
  refine ⟨by simp [hn, hta], by simp [hnt, hta.symm, splitTail], fun c hca hct ↦ ?_⟩
  by_cases hlink : (s.mem a).next = some c <;> simp [hca, hct, hlink]

theorem splitBlock_small (hr : r ≤ (s.mem a).capacity)
    (hsmall : (s.mem a).capacity < r + 64) :
    splitBlock s a r = s.write a { s.mem a with size := (s.mem a).capacity } := by
  have hrem : ((s.mem a).capacity + 2 ^ 64 - r) % 2 ^ 64 = (s.mem a).capacity - r := by omega
  simp only [splitBlock, hrem]
  rw [if_pos (by omega)]

theorem splitBlock_sameArena (s : State) (a r : ℕ) : SameArena s (splitBlock s a r) := by
  unfold splitBlock
  dsimp only
  split_ifs
  · exact ⟨rfl, rfl, rfl, rfl⟩
  · exact linkBack_sameArena (s.write _ _) _ _

section

variable (h : WellFormed s (l₁ ++ a :: l₂))
include h

theorem WellFormed.next_mem {c : ℕ} (hn : (s.mem a).next = some c) : c ∈ l₂ := by
  have hnext : (s.mem a).next = l₂.head?.or none := (Tiled.split.mp h.chain).2.2.1
  exact List.mem_of_mem_head? (by simpa [hn] using hnext.symm)

theorem WellFormed.disjoint : a ∉ l₁ ∧ a ∉ l₂ ∧ ∀ c ∈ l₂, c ∉ l₁ := by
  obtain ⟨-, h₂, h₁₂⟩ := List.nodup_append.mp h.nodup
  exact ⟨fun ha ↦ h₁₂ a ha a (by simp) rfl, (List.nodup_cons.mp h₂).1,
    fun c hc hc₁ ↦ h₁₂ c hc₁ c (by simp [hc]) rfl⟩

theorem splitBlock_big (hbig : r + 64 ≤ (s.mem a).capacity) (hd : 16 ∣ r) (h0 : 0 < r) :
    WellFormed (splitBlock s a r) (l₁ ++ a :: (a + 48 + r) :: l₂) ∧
      Kept a s (l₁ ++ a :: l₂) (splitBlock s a r) (l₁ ++ a :: (a + 48 + r) :: l₂) ∧
      ((splitBlock s a r).mem a).flags = (s.mem a).flags ∧
      ((splitBlock s a r).mem a).capacity = r := by
  have ha : a ∈ l₁ ++ a :: l₂ := by simp
  obtain ⟨-, -, hlim⟩ := h.bounds ha
  obtain ⟨ha₁, ha₂, hl⟩ := h.disjoint
  have ht : a + 48 + r ∉ l₁ ++ a :: l₂ := by
    intro ht
    have := h.apart ha ht (by omega)
    omega
  have hgood := h.good a ha
  obtain ⟨hma, hmt, hm⟩ := splitBlock_mem hbig (by omega) (fun hn ↦ ha₂ (h.next_mem hn))
    (fun hn ↦ ht (by simp [h.next_mem hn]))
  have hne : ∀ c ∈ l₁ ++ a :: l₂, c ≠ a + 48 + r := fun c hc hct ↦ ht (hct ▸ hc)
  have hsame := splitBlock_sameArena s a r
  have hnext : (s.mem a).next = l₂.head? := by simpa using (Tiled.split.mp h.chain).2.2.1
  refine ⟨⟨?_, ?_, ?_, ?_, hsame.2.1 ▸ h.limit⟩, ?_, by rw [hma], by rw [hma]⟩
  · rw [hsame.1, h.head]
    cases l₁ <;> simp
  · rw [hsame.2.1]
    refine Tiled.cut h.chain (by simp only [hma]; omega) (by simp only [hma, hmt, splitTail]; omega)
      (by omega) (by omega) (by simp only [hma, and_self]) (by simp only [hmt, splitTail, and_self])
      (fun c hc ↦ ?_) (fun c hc ↦ ?_)
    · have hlink : (s.mem a).next ≠ some c := fun hn ↦ hl c (h.next_mem hn) hc
      rw [hm c (fun hca ↦ ha₁ (hca ▸ hc)) (hne c (by simp [hc]))]
      simp [hlink]
    · rw [hm c (fun hca ↦ ha₂ (hca ▸ hc)) (hne c (by simp [hc]))]
      simp [hnext]
  · intro c hc
    by_cases hca : c = a
    · rw [hca, hma]
      exact ⟨hgood.magic, le_rfl, hd, h0, hgood.flags⟩
    by_cases hct : c = a + 48 + r
    · have := hgood.aligned
      rw [hct, hmt]
      exact ⟨rfl, le_rfl, by simp only [splitTail]; omega, by simp only [splitTail]; omega, .inr rfl⟩
    have hg := h.good c (by simp [hca, hct] at hc ⊢; exact hc)
    rw [hm c hca hct]
    exact ⟨hg.magic, hg.size_le, hg.aligned, hg.pos, hg.flags⟩
  · rw [hsame.2.1, hsame.2.2.1]
    exact h.pages
  intro c hc hca hf
  rw [hm c hca (hne c hc)]
  exact ⟨by simp [hca] at hc ⊢; tauto, hf, rfl⟩

end

theorem splitBlock_small_wellFormed (h : WellFormed s l) (ha : a ∈ l)
    (hr : r ≤ (s.mem a).capacity) (hsmall : (s.mem a).capacity < r + 64) :
    WellFormed (splitBlock s a r) l := by
  have hgood := h.good a ha
  rw [splitBlock_small hr hsmall]
  refine h.congr ⟨rfl, rfl, rfl, rfl⟩ (fun c _ ↦ ?_) (fun c hc ↦ ?_)
  · by_cases hca : c = a <;> simp [hca]
  by_cases hca : c = a
  · rw [write_mem, if_pos hca]
    exact ⟨hgood.magic, le_rfl, hgood.aligned, hgood.pos, hgood.flags⟩
  rw [write_mem, if_neg hca]
  exact h.good c hc

theorem splitBlock_wellFormed (h : WellFormed s l) (ha : a ∈ l) (hr : r ≤ (s.mem a).capacity)
    (hd : 16 ∣ r) (h0 : 0 < r) :
    ∃ l', WellFormed (splitBlock s a r) l' ∧ Kept a s l (splitBlock s a r) l' ∧ a ∈ l' ∧
      ((splitBlock s a r).mem a).flags = (s.mem a).flags ∧
      r ≤ ((splitBlock s a r).mem a).capacity := by
  rcases lt_or_ge (s.mem a).capacity (r + 64) with hsmall | hbig
  · refine ⟨l, splitBlock_small_wellFormed h ha hr hsmall, ?_⟩
    rw [splitBlock_small hr hsmall]
    exact ⟨Kept.of_mem (fun c _ hca ↦ by simp [hca]), ha, by simp, by simpa using hr⟩
  obtain ⟨l₁, l₂, rfl⟩ := List.append_of_mem ha
  obtain ⟨hw, hk, hf, hc⟩ := splitBlock_big h hbig hd h0
  exact ⟨_, hw, hk, by simp, hf, hc.ge⟩

end Split

section Merge

theorem isFree_iff {b : HeapBlock} (hg : Good b) : b.isFree = true ↔ b.flags = 1 := by
  rcases hg.flags with h | h <;> simp [HeapBlock.isFree, h]

theorem mergeWithNext_sameArena (s : State) (a : ℕ) : SameArena s (mergeWithNext s a) := by
  unfold mergeWithNext
  cases (s.mem a).next with
  | none => exact ⟨rfl, rfl, rfl, rfl⟩
  | some c =>
    dsimp only
    split_ifs
    · exact ⟨rfl, rfl, rfl, rfl⟩
    · exact linkBack_sameArena (State.write _ _ _) _ _

theorem mergeWithNext_mem {c : ℕ} (hn : (s.mem a).next = some c) (hf : (s.mem c).isFree = true)
    (hcap : (s.mem a).capacity + (48 + (s.mem c).capacity) < 2 ^ 64)
    (hca : (s.mem c).next ≠ some a) :
    (mergeWithNext s a).mem a = { s.mem a with
        capacity := (s.mem a).capacity + (48 + (s.mem c).capacity)
        size := (s.mem a).capacity + (48 + (s.mem c).capacity)
        next := (s.mem c).next } ∧
      ∀ d, d ≠ a → (mergeWithNext s a).mem d =
        { s.mem d with prev := if (s.mem c).next = some d then some a else (s.mem d).prev } := by
  simp only [mergeWithNext, hn, hf, Nat.mod_eq_of_lt hcap, Bool.not_true, Bool.false_eq_true,
    if_false, linkBack_mem, write_mem]
  refine ⟨by simp [hca], fun d hd ↦ ?_⟩
  by_cases hlink : (s.mem c).next = some d <;> simp [hd, hlink]

theorem mergeWithNext_join {c : ℕ} (h : WellFormed s (l₁ ++ a :: c :: l₂))
    (hfa : (s.mem a).flags = 1) (hfc : (s.mem c).flags = 1) :
    WellFormed (mergeWithNext s a) (l₁ ++ a :: l₂) ∧
      Kept a s (l₁ ++ a :: c :: l₂) (mergeWithNext s a) (l₁ ++ a :: l₂) ∧
      ((mergeWithNext s a).mem a).flags = 1 := by
  obtain ⟨ha₁, ha₂, hl⟩ := h.disjoint
  have hac : a ∈ l₁ ++ a :: c :: l₂ ∧ c ∈ l₁ ++ a :: c :: l₂ := by simp
  have hga := h.good a hac.1
  have hgc := h.good c hac.2
  obtain ⟨-, -, hn, -, hca, -, hcn, -, -⟩ := Tiled.split.mp h.chain
  obtain ⟨-, -, hlim⟩ := h.bounds hac.2
  have hcn' : (s.mem c).next = l₂.head? := by simpa using hcn
  have hl₂ : ∀ d, (s.mem c).next = some d → d ∈ l₂ := fun d hd ↦
    List.mem_of_mem_head? (hcn' ▸ hd)
  obtain ⟨hma, hm⟩ := mergeWithNext_mem (by simpa using hn) ((isFree_iff hgc).mpr hfc)
    (by omega) (fun hd ↦ ha₂ (by simp [hl₂ a hd]))
  have hsame := mergeWithNext_sameArena s a
  refine ⟨⟨?_, ?_, ?_, ?_, hsame.2.1 ▸ h.limit⟩, ?_, by rw [hma]; exact hfa⟩
  · rw [hsame.1, h.head]
    cases l₁ <;> simp
  · rw [hsame.2.1]
    refine Tiled.join h.chain (by simp only [hma]; omega) (by simp only [hma, and_self])
      (fun d hd ↦ ?_) (fun d hd ↦ ?_)
    · have hlink : (s.mem c).next ≠ some d := fun hn ↦ hl d (by simp [hl₂ d hn]) hd
      rw [hm d (fun hda ↦ ha₁ (hda ▸ hd))]
      simp [hlink]
    · rw [hm d (fun hda ↦ ha₂ (by simp [hda ▸ hd]))]
      simp [hcn']
  · intro d hd
    by_cases hda : d = a
    · have := hga.aligned
      have := hgc.aligned
      rw [hda, hma]
      exact ⟨hga.magic, le_rfl, by simp only; omega, by simp only; omega, hga.flags⟩
    have hg := h.good d (by simp [hda] at hd ⊢; tauto)
    rw [hm d hda]
    exact ⟨hg.magic, hg.size_le, hg.aligned, hg.pos, hg.flags⟩
  · rw [hsame.2.1, hsame.2.2.1]
    exact h.pages
  intro d hd hda hf
  have hdc : d ≠ c := by rintro rfl; omega
  rw [hm d hda]
  exact ⟨by simp [hda, hdc] at hd ⊢; exact hd, hf, rfl⟩

theorem mergeWithNext_wellFormed (h : WellFormed s l) (ha : a ∈ l) (hf : (s.mem a).flags = 1) :
    ∃ l', WellFormed (mergeWithNext s a) l' ∧ Kept a s l (mergeWithNext s a) l' ∧ a ∈ l' ∧
      ((mergeWithNext s a).mem a).flags = 1 := by
  obtain ⟨l₁, l₂, rfl⟩ := List.append_of_mem ha
  have hid : mergeWithNext s a = s → ∃ l', WellFormed (mergeWithNext s a) l' ∧
      Kept a s (l₁ ++ a :: l₂) (mergeWithNext s a) l' ∧ a ∈ l' ∧
      ((mergeWithNext s a).mem a).flags = 1 := fun heq ↦
    ⟨_, heq.symm ▸ h, Kept.of_mem fun c _ _ ↦ by rw [heq]; exact ⟨rfl, rfl⟩, ha, heq.symm ▸ hf⟩
  cases l₂ with
  | nil =>
    have hn : (s.mem a).next = none := by simpa using (Tiled.split.mp h.chain).2.2.1
    exact hid (by simp only [mergeWithNext, hn])
  | cons c l₂ =>
    have hn : (s.mem a).next = some c := by simpa using (Tiled.split.mp h.chain).2.2.1
    rcases (h.good c (by simp)).flags with hfc | hfc
    · exact hid (by simp [mergeWithNext, hn, HeapBlock.isFree, hfc])
    obtain ⟨hw, hk, hf'⟩ := mergeWithNext_join h hf hfc
    exact ⟨_, hw, hk, by simp, hf'⟩

end Merge

end NexusOS.Mm.Heap
