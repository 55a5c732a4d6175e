import NexusOS.Mm.HeapSafety

namespace NexusOS.Mm.Heap

open Lib

variable {s s' : State} {l l' l₁ l₂ : List ℕ} {a r : ℕ} {w : HeapBlock → ℕ}

theorem WellFormed.unique (h : WellFormed s l) (h' : WellFormed s l') : l = l' :=
  Tiled.unique h.chain h'.chain

section Totals

/-- A measure of headers that counts allocated blocks only and does not look at the links. -/
structure Weight (w : HeapBlock → ℕ) : Prop where
  links : ∀ b prev next, w { b with prev := prev, next := next } = w b
  free : ∀ b, b.flags = 1 → w b = 0

def total (w : HeapBlock → ℕ) (s : State) (l : List ℕ) : ℕ := (l.map fun a ↦ w (s.mem a)).sum

def allocatedSize (b : HeapBlock) : ℕ := if b.isFree then 0 else b.size

def allocatedCount (b : HeapBlock) : ℕ := if b.isFree then 0 else 1

theorem allocatedSize_weight : Weight allocatedSize where
  links _ _ _ := rfl
  free b hb := by simp [allocatedSize, HeapBlock.isFree, hb]

theorem allocatedCount_weight : Weight allocatedCount where
  links _ _ _ := rfl
  free b hb := by simp [allocatedCount, HeapBlock.isFree, hb]

theorem allocated_of_flags {b : HeapBlock} (hb : b.flags = 0) :
    allocatedSize b = b.size ∧ allocatedCount b = 1 := by
  simp [allocatedSize, allocatedCount, HeapBlock.isFree, hb]

theorem total_congr (h : ∀ c ∈ l, w (s'.mem c) = w (s.mem c)) : total w s' l = total w s l := by
  rw [total, total, List.map_congr_left h]

theorem total_append (l₁ l₂ : List ℕ) : total w s (l₁ ++ l₂) = total w s l₁ + total w s l₂ := by
  rw [total, List.map_append, List.sum_append]
  rfl

theorem total_cons (a : ℕ) (l : List ℕ) : total w s (a :: l) = w (s.mem a) + total w s l := rfl

theorem total_singleton (a : ℕ) : total w s [a] = w (s.mem a) := List.sum_singleton

def allocated (s : State) (l : List ℕ) : List ℕ := l.filter fun a ↦ !(s.mem a).isFree

theorem total_allocatedSize (s : State) (l : List ℕ) :
    total allocatedSize s l = ((allocated s l).map fun a ↦ (s.mem a).size).sum := by
  induction l with
  | nil => rfl
  | cons a l ih =>
    rw [total_cons, ih]
    cases h : (s.mem a).isFree <;> simp [allocated, allocatedSize, h]

theorem total_allocatedCount (s : State) (l : List ℕ) :
    total allocatedCount s l = (allocated s l).length := by
  induction l with
  | nil => rfl
  | cons a l ih =>
    rw [total_cons, ih]
    cases h : (s.mem a).isFree <;> simp [allocated, allocatedCount, h, Nat.add_comm]

theorem total_set (hl : l.Nodup) (ha : a ∈ l) (h : ∀ c, c ≠ a → w (s'.mem c) = w (s.mem c)) :
    total w s' l + w (s.mem a) = total w s l + w (s'.mem a) := by
  obtain ⟨l₁, l₂, rfl⟩ := List.append_of_mem ha
  obtain ⟨-, h₂, h₁₂⟩ := List.nodup_append.1 hl
  have hfirst : total w s' l₁ = total w s l₁ :=
    total_congr fun c hc ↦ h c fun hca ↦ h₁₂ c hc a List.mem_cons_self hca
  have hlast : total w s' l₂ = total w s l₂ :=
    total_congr fun c hc ↦ h c fun hca ↦ (List.nodup_cons.1 h₂).1 (hca ▸ hc)
  rw [total_append, total_append, total_cons, total_cons, hfirst, hlast]
  omega

theorem WellFormed.total_le (h : WellFormed s l) (hw : ∀ b, Good b → w b ≤ 48 + b.capacity) :
    total w s l ≤ 0x100000000000 := by
  have hsum := Tiled.sum_le h.chain fun a ha ↦ hw (s.mem a) (h.good a ha)
  have hlimit := h.limit
  unfold heapBase at hsum
  unfold heapLimit at hlimit
  unfold total
  omega

theorem allocatedSize_le (b : HeapBlock) (hb : Good b) : allocatedSize b ≤ 48 + b.capacity := by
  have hsize := hb.size_le
  unfold allocatedSize
  split_ifs <;> omega

theorem allocatedCount_le (b : HeapBlock) : allocatedCount b ≤ 48 + b.capacity := by
  unfold allocatedCount
  split_ifs <;> omega

end Totals

section Blocks

theorem claimBlock_mem (h : WellFormed s l) (ha : a ∈ l) :
    (claimBlock s a r).mem a = { s.mem a with flags := 0, size := r } ∧
      ∀ c, c ≠ a → (claimBlock s a r).mem c = s.mem c := by
  have hflags : (s.mem a).flags &&& notBlockFree = 0 := by
    rcases (h.good a ha).flags with hf | hf <;> rw [hf] <;> decide
  refine ⟨by simp [claimBlock, State.write, hflags], fun c hc ↦ ?_⟩
  simp [claimBlock, State.write, hc]

theorem takeBlock_mem (s : State) (a r : ℕ) :
    (takeBlock s a r).mem = (splitBlock (claimBlock s a r) a r).mem := by
  rw [takeBlock, countAllocation_mem]

theorem takeBlock_whole (hw : Weight w) (h : WellFormed s l) (ha : a ∈ l)
    (hfree : (s.mem a).flags = 1) (hr : r ≤ (s.mem a).capacity)
    (hsmall : (s.mem a).capacity < r + 64) :
    total w (takeBlock s a r) l = total w s l + w ((takeBlock s a r).mem a) ∧
      ((takeBlock s a r).mem a).flags = 0 ∧ ((takeBlock s a r).mem a).size = (s.mem a).capacity := by
  obtain ⟨hma, hm⟩ := claimBlock_mem (r := r) h ha
  have hcap : ((claimBlock s a r).mem a).capacity = (s.mem a).capacity := by rw [hma]
  have hsplit := splitBlock_small (s := claimBlock s a r) (hcap.symm ▸ hr) (hcap.symm ▸ hsmall)
  have hother : ∀ c, c ≠ a → w ((takeBlock s a r).mem c) = w (s.mem c) := by
    intro c hc
    rw [takeBlock_mem, hsplit, write_mem, if_neg hc, hm c hc]
  have hset := total_set h.nodup ha hother
  rw [hw.free _ hfree, Nat.add_zero] at hset
  refine ⟨hset, ?_, ?_⟩
  · rw [takeBlock_mem, hsplit, write_mem, if_pos rfl, hma]
  · rw [takeBlock_mem, hsplit, write_mem, if_pos rfl, hma]

theorem takeBlock_cut_mem (h : WellFormed s (l₁ ++ a :: l₂)) (hbig : r + 64 ≤ (s.mem a).capacity) :
    (takeBlock s a r).mem a =
        { s.mem a with flags := 0, next := some (a + 48 + r), size := r, capacity := r } ∧
      (takeBlock s a r).mem (a + 48 + r) = splitTail s a r ∧
      ∀ c ∈ l₁ ++ l₂, ∃ prev, (takeBlock s a r).mem c = { s.mem c with prev := prev } := by
  have ha : a ∈ l₁ ++ a :: l₂ := by simp
  obtain ⟨hma, hm⟩ := claimBlock_mem (r := r) h ha
  obtain ⟨hclaim, -, -, hcap⟩ := claimBlock_wellFormed (r := r) h ha (by omega)
  obtain ⟨-, -, hlim⟩ := h.bounds ha
  obtain ⟨ha₁, ha₂, -⟩ := h.disjoint
  have ht : a + 48 + r ∉ l₁ ++ a :: l₂ := by
    intro ht
    have happart := h.apart ha ht (by omega)
    omega
  obtain ⟨hsa, hst, hs⟩ := splitBlock_mem (s := claimBlock s a r) (a := a) (r := r) (by omega)
    (by omega) (fun hn ↦ ha₂ (hclaim.next_mem hn)) (fun hn ↦ ht (by simp [hclaim.next_mem hn]))
  rw [takeBlock_mem]
  refine ⟨by rw [hsa, hma], ?_, fun c hc ↦ ?_⟩
  · rw [hst, splitTail, splitTail, hma]
  have hca : c ≠ a := by
    rintro rfl
    rcases List.mem_append.1 hc with hc | hc
    · exact ha₁ hc
    · exact ha₂ hc
  have hct : c ≠ a + 48 + r := by
    rintro rfl
    exact ht (by simp only [List.mem_append, List.mem_cons] at hc ⊢; tauto)
  rw [hs c hca hct, hm c hca]
  exact ⟨_, rfl⟩

theorem takeBlock_cut (hw : Weight w) (h : WellFormed s (l₁ ++ a :: l₂))
    (hfree : (s.mem a).flags = 1) (hbig : r + 64 ≤ (s.mem a).capacity) (hd : 16 ∣ r) (h0 : 0 < r) :
    WellFormed (takeBlock s a r) (l₁ ++ a :: (a + 48 + r) :: l₂) ∧
      total w (takeBlock s a r) (l₁ ++ a :: (a + 48 + r) :: l₂) =
        total w s (l₁ ++ a :: l₂) + w ((takeBlock s a r).mem a) ∧
      ((takeBlock s a r).mem a).flags = 0 ∧ ((takeBlock s a r).mem a).size = r := by
  have ha : a ∈ l₁ ++ a :: l₂ := by simp
  obtain ⟨hclaim, -, -, hcap⟩ := claimBlock_wellFormed (r := r) h ha (by omega)
  obtain ⟨hsa, hst, hs⟩ := takeBlock_cut_mem h hbig
  have hsame : ∀ c ∈ l₁ ++ l₂, w ((takeBlock s a r).mem c) = w (s.mem c) := by
    intro c hc
    obtain ⟨prev, hprev⟩ := hs c hc
    rw [hprev]
    exact hw.links _ _ _
  have htail : w ((takeBlock s a r).mem (a + 48 + r)) = 0 := by
    rw [hst]
    exact hw.free _ rfl
  refine ⟨(splitBlock_big hclaim (by omega) hd h0).1.countAllocation, ?_, ?_, ?_⟩
  · have hfirst : total w (takeBlock s a r) l₁ = total w s l₁ :=
      total_congr fun c hc ↦ hsame c (List.mem_append_left _ hc)
    have hlast : total w (takeBlock s a r) l₂ = total w s l₂ :=
      total_congr fun c hc ↦ hsame c (List.mem_append_right _ hc)
    rw [total_append, total_cons, total_cons, total_append, total_cons, hfirst, hlast, htail,
      hw.free _ hfree]
    omega
  · rw [hsa]
  · rw [hsa]

theorem appendBlock_total (hw : Weight w) (h : WellFormed s l) (hlen : l.length ≤ seenLimit)
    (pages capacity : ℕ) :
    total w (appendBlock s r pages capacity) (l ++ [s.heapNext]) =
      total w s l + w ((appendBlock s r pages capacity).mem s.heapNext) := by
  obtain ⟨-, hm⟩ := appendBlock_mem r pages capacity h hlen
  have hsame : total w (appendBlock s r pages capacity) l = total w s l := by
    refine total_congr fun c hc ↦ ?_
    rw [hm c hc]
    exact hw.links _ _ _
  rw [total_append, hsame, total_singleton]

theorem mergeWithNext_join_mem {c : ℕ} (h : WellFormed s (l₁ ++ a :: c :: l₂))
    (hfc : (s.mem c).flags = 1) :
    (mergeWithNext s a).mem a = { s.mem a with
        capacity := (s.mem a).capacity + (48 + (s.mem c).capacity)
        size := (s.mem a).capacity + (48 + (s.mem c).capacity)
        next := (s.mem c).next } ∧
      ∀ d ∈ l₁ ++ l₂, ∃ prev, (mergeWithNext s a).mem d = { s.mem d with prev := prev } := by
  obtain ⟨ha₁, ha₂, -⟩ := h.disjoint
  have hn : (s.mem a).next = some c := by simpa using (Tiled.split.mp h.chain).2.2.1
  obtain ⟨-, -, -, -, hca, -, hcn, -, -⟩ := Tiled.split.mp h.chain
  obtain ⟨-, -, hlim⟩ := h.bounds (a := c) (by simp)
  have hcn' : (s.mem c).next = l₂.head? := by simpa using hcn
  obtain ⟨hma, hm⟩ := mergeWithNext_mem hn ((isFree_iff (h.good c (by simp))).mpr hfc) (by omega)
    (fun hd ↦ ha₂ (List.mem_cons_of_mem c (List.mem_of_mem_head? (hcn' ▸ hd))))
  refine ⟨hma, fun d hd ↦ ⟨_, hm d ?_⟩⟩
  rintro rfl
  rcases List.mem_append.1 hd with hd | hd
  · exact ha₁ hd
  · exact ha₂ (List.mem_cons_of_mem c hd)

theorem mergeWithNext_stop (h : WellFormed s (l₁ ++ a :: l₂))
    (hstop : ∀ c, l₂.head? = some c → (s.mem c).flags = 0) : mergeWithNext s a = s := by
  have hn : (s.mem a).next = l₂.head? := by simpa using (Tiled.split.mp h.chain).2.2.1
  cases l₂ with
  | nil => simp only [mergeWithNext, hn, List.head?_nil]
  | cons c l₂ => simp [mergeWithNext, hn, HeapBlock.isFree, hstop c rfl]

theorem mergeWithNext_total (hw : Weight w) (h : WellFormed s l) (ha : a ∈ l)
    (hf : (s.mem a).flags = 1) (h' : WellFormed (mergeWithNext s a) l') :
    total w (mergeWithNext s a) l' = total w s l := by
  obtain ⟨l₁, l₂, rfl⟩ := List.append_of_mem ha
  have hid : mergeWithNext s a = s →
      total w (mergeWithNext s a) l' = total w s (l₁ ++ a :: l₂) := by
    intro heq
    rw [heq] at h' ⊢
    rw [h.unique h']
  cases l₂ with
  | nil => exact hid (mergeWithNext_stop h fun c hc ↦ absurd hc (by simp))
  | cons c l₂ =>
    rcases (h.good c (by simp)).flags with hfc | hfc
    · refine hid (mergeWithNext_stop h fun d hd ↦ ?_)
      rwa [← Option.some.inj hd]
    obtain ⟨hjoin, -, hfa⟩ := mergeWithNext_join h hf hfc
    obtain ⟨-, hm⟩ := mergeWithNext_join_mem h hfc
    have hsame : ∀ d ∈ l₁ ++ l₂, w ((mergeWithNext s a).mem d) = w (s.mem d) := by
      intro d hd
      obtain ⟨prev, hprev⟩ := hm d hd
      rw [hprev]
      exact hw.links _ _ _
    have hfirst : total w (mergeWithNext s a) l₁ = total w s l₁ :=
      total_congr fun d hd ↦ hsame d (List.mem_append_left _ hd)
    have hlast : total w (mergeWithNext s a) l₂ = total w s l₂ :=
      total_congr fun d hd ↦ hsame d (List.mem_append_right _ hd)
    rw [← hjoin.unique h', total_append, total_cons, total_append, total_cons, total_cons, hfirst,
      hlast, hw.free _ hfa, hw.free _ hf, hw.free _ hfc, Nat.zero_add, Nat.zero_add]

theorem mergeBackward_total (hw : Weight w) (h : WellFormed s l) (ha : a ∈ l)
    (h' : WellFormed (mergeBackward s a) l') : total w (mergeBackward s a) l' = total w s l := by
  unfold mergeBackward at h' ⊢
  cases hp : (s.mem a).prev with
  | none =>
    rw [hp] at h'
    rw [h.unique h']
  | some q =>
    have hq := ((Tiled.links h.chain ha).2.1 q hp).1
    rw [hp] at h'
    dsimp only at h' ⊢
    split_ifs at h' ⊢ with hf
    · exact mergeWithNext_total hw h hq ((isFree_iff (h.good q hq)).mp hf) h'
    · rw [h.unique h']

theorem releaseBlock_total (hw : Weight w) (h : WellFormed s l) (ha : a ∈ l)
    (hf : (s.mem a).flags = 0) :
    WellFormed (releaseBlock s a) l ∧ ((releaseBlock s a).mem a).flags = 1 ∧
      total w (releaseBlock s a) l + w (s.mem a) = total w s l := by
  obtain ⟨hma, hm⟩ := releaseBlock_mem hf
  refine ⟨releaseBlock_wellFormed h ha hf, by rw [hma], ?_⟩
  have hother : ∀ c, c ≠ a → w ((releaseBlock s a).mem c) = w (s.mem c) := by
    intro c hc
    rw [hm c hc]
  have hset := total_set h.nodup ha hother
  have hzero : w ((releaseBlock s a).mem a) = 0 := by
    rw [hma]
    exact hw.free _ rfl
  omega

end Blocks

section Counters

def SameCounters (s s' : State) : Prop :=
  s'.usedBytes = s.usedBytes ∧ s'.allocations = s.allocations

theorem linkBack_counters (s : State) (link : Option ℕ) (a : ℕ) :
    SameCounters s (s.linkBack link a) := by
  cases link <;> exact ⟨rfl, rfl⟩

theorem splitBlock_counters (s : State) (a r : ℕ) : SameCounters s (splitBlock s a r) := by
  unfold splitBlock
  dsimp only
  split_ifs
  · exact ⟨rfl, rfl⟩
  · exact linkBack_counters (s.write _ _) _ _

theorem mergeWithNext_counters (s : State) (a : ℕ) : SameCounters s (mergeWithNext s a) := by
  unfold mergeWithNext
  cases (s.mem a).next with
  | none => exact ⟨rfl, rfl⟩
  | some c =>
    dsimp only
    split_ifs
    · exact ⟨rfl, rfl⟩
    · exact linkBack_counters (State.write _ _ _) _ _

theorem mergeBackward_counters (s : State) (a : ℕ) : SameCounters s (mergeBackward s a) := by
  unfold mergeBackward
  cases (s.mem a).prev with
  | none => exact ⟨rfl, rfl⟩
  | some q =>
    dsimp only
    split_ifs
    · exact mergeWithNext_counters s q
    · exact ⟨rfl, rfl⟩

theorem attachBlock_counters (s : State) (a : ℕ) : SameCounters s (attachBlock s a) := by
  unfold attachBlock
  cases s.head <;> exact ⟨rfl, rfl⟩

theorem heapValidate_counters (s : State) : SameCounters s (heapValidate s).2 := by
  unfold heapValidate
  split_ifs <;> exact ⟨rfl, rfl⟩

end Counters

section Calls

variable {V : Type*} (m : Vmm V)

/-- The free block that is reused, if any, has just the bytes asked for or is cut. -/
def Snug (s : State) (size : ℕ) : Prop :=
  alignSize size ≠ 0 → ∀ a ∈ findFit s (alignSize size) seenLimit s.head,
    (s.mem a).capacity = alignSize size ∨ alignSize size + 64 ≤ (s.mem a).capacity

instance (s : State) (size : ℕ) : Decidable (Snug s size) :=
  inferInstanceAs (Decidable (_ → ∀ a ∈ findFit s (alignSize size) seenLimit s.head, _))

/-- What an allocation adds: a header to every total, and its bytes to the counters. -/
structure Adds (s : State) (l : List ℕ) (b : HeapBlock) (r : ℕ) (s' : State) : Prop where
  flags : b.flags = 0
  used : s'.usedBytes = (s.usedBytes + r) % 2 ^ 64
  allocations : s'.allocations = (s.allocations + 1) % 2 ^ 64
  total : ∀ w, Weight w → ∀ l', WellFormed s' l' → total w s' l' = total w s l + w b

theorem countAllocation_counters (s : State) (r : ℕ) :
    (s.countAllocation r).usedBytes = (s.usedBytes + r) % 2 ^ 64 ∧
      (s.countAllocation r).allocations = (s.allocations + 1) % 2 ^ 64 := ⟨rfl, rfl⟩

theorem claimBlock_counters (s : State) (a r : ℕ) : SameCounters s (claimBlock s a r) := ⟨rfl, rfl⟩

theorem takeBlock_counters (s : State) (a r : ℕ) :
    (takeBlock s a r).usedBytes = (s.usedBytes + r) % 2 ^ 64 ∧
      (takeBlock s a r).allocations = (s.allocations + 1) % 2 ^ 64 := by
  obtain ⟨hused, hallocations⟩ := splitBlock_counters (claimBlock s a r) a r
  obtain ⟨hclaim, hclaim'⟩ := claimBlock_counters s a r
  obtain ⟨hcount, hcount'⟩ := countAllocation_counters (splitBlock (claimBlock s a r) a r) r
  rw [takeBlock, hcount, hcount', hused, hallocations, hclaim, hclaim']
  exact ⟨rfl, rfl⟩

theorem takeBlock_adds (h : WellFormed s l) (ha : a ∈ l) (hfree : (s.mem a).flags = 1)
    (hr : r ≤ (s.mem a).capacity) (hd : 16 ∣ r) (h0 : 0 < r) :
    Adds s l ((takeBlock s a r).mem a) r (takeBlock s a r) ∧
      ((s.mem a).capacity = r ∨ r + 64 ≤ (s.mem a).capacity → ((takeBlock s a r).mem a).size = r) := by
  have hcounters := takeBlock_counters s a r
  obtain ⟨hclaim, -, -, hcap⟩ := claimBlock_wellFormed h ha hr
  rcases lt_or_ge (s.mem a).capacity (r + 64) with hsmall | hbig
  · obtain ⟨-, hflags, hsize⟩ := takeBlock_whole allocatedSize_weight h ha hfree hr hsmall
    refine ⟨⟨hflags, hcounters.1, hcounters.2, fun w hw l' h' ↦ ?_⟩,
      fun hsnug ↦ hsize.trans (hsnug.resolve_right (Nat.not_le_of_lt hsmall))⟩
    have hl : WellFormed (takeBlock s a r) l :=
      (splitBlock_small_wellFormed hclaim ha (hcap ▸ hr) (hcap ▸ hsmall)).countAllocation
    rw [← hl.unique h']
    exact (takeBlock_whole hw h ha hfree hr hsmall).1
  obtain ⟨l₁, l₂, rfl⟩ := List.append_of_mem ha
  obtain ⟨hcut, -, hflags, hsize⟩ := takeBlock_cut allocatedSize_weight h hfree hbig hd h0
  refine ⟨⟨hflags, hcounters.1, hcounters.2, fun w hw l' h' ↦ ?_⟩, fun _ ↦ hsize⟩
  rw [← hcut.unique h']
  exact (takeBlock_cut hw h hfree hbig hd h0).2.1

theorem appendBlock_counters (s : State) (r pages capacity : ℕ) :
    (appendBlock s r pages capacity).usedBytes = (s.usedBytes + r) % 2 ^ 64 ∧
      (appendBlock s r pages capacity).allocations = (s.allocations + 1) % 2 ^ 64 := by
  let t := s.write s.heapNext ⟨blockMagic, r, capacity, 0, none, none⟩
  obtain ⟨hused, hallocations⟩ := attachBlock_counters t s.heapNext
  refine ⟨?_, ?_⟩
  · calc (appendBlock s r pages capacity).usedBytes
        = ((attachBlock t s.heapNext).usedBytes + r) % 2 ^ 64 := rfl
      _ = (s.usedBytes + r) % 2 ^ 64 := by rw [hused]; rfl
  calc (appendBlock s r pages capacity).allocations
      = ((attachBlock t s.heapNext).allocations + 1) % 2 ^ 64 := rfl
    _ = (s.allocations + 1) % 2 ^ 64 := by rw [hallocations]; rfl

theorem appendBlock_adds {pages : ℕ} (h : WellFormed s l) (hlen : l.length ≤ seenLimit)
    (hp : 0 < pages) (hlim : pages ≤ (0xFFFF900000000000 - s.heapNext) / 4096)
    (hr : r ≤ pages * 4096 - 48) :
    Adds s l ((appendBlock s r pages (pages * 4096 - 48)).mem s.heapNext) r
      (appendBlock s r pages (pages * 4096 - 48)) := by
  obtain ⟨hw, -, hflags, -⟩ := appendBlock_wellFormed h hlen hp hlim rfl hr
  obtain ⟨hused, hallocations⟩ := appendBlock_counters s r pages (pages * 4096 - 48)
  refine ⟨hflags, hused, hallocations, fun w hweight l' h' ↦ ?_⟩
  rw [← hw.unique h']
  exact appendBlock_total hweight h hlen pages _

theorem kmalloc_adds (h : WellFormed s l) (v : V) {size : ℕ} (hlt : size < 2 ^ 64) :
    (∃ s' v', kmalloc m s v size = (none, s', v') ∧ (s' = s ∨ s' = (heapValidate s).2)) ∨
      ∃ a s' v', kmalloc m s v size = (some (a + 48), s', v') ∧
        Adds s l (s'.mem a) (alignSize size) s' ∧
        (Snug s size → (s'.mem a).size = alignSize size) := by
  obtain hfail | ⟨hready, -, hr, hvalid, ⟨a, hfit, heq⟩ | ⟨pages, v', -, hp, hlim, hc, heq⟩⟩ :=
    kmalloc_cases m s v size
  · exact .inl hfail
  · obtain ⟨hd, -, -⟩ := alignSize_spec hlt hr
    obtain ⟨ha, hfree, hcap⟩ := findFit_mem h.chain (h.head ▸ hfit)
    obtain ⟨hadds, hsize⟩ := takeBlock_adds h ha ((isFree_iff (h.good a ha)).mp hfree) hcap hd
      (Nat.pos_of_ne_zero hr)
    exact .inr ⟨a, _, v, heq, hadds, fun hsnug ↦ hsize (hsnug hr a hfit)⟩
  · have hlen := (h.heapValidate_iff hready).mp hvalid
    obtain ⟨hnew, -⟩ := appendBlock_mem (alignSize size) pages (pages * 4096 - 48) h hlen
    exact .inr ⟨s.heapNext, _, v', heq, appendBlock_adds h hlen hp hlim hc,
      fun _ ↦ by rw [hnew]⟩

/-- What a release takes back from every total and from the counters. -/
structure Drops (s : State) (l : List ℕ) (b : HeapBlock) (s' : State) : Prop where
  used : s'.usedBytes = if b.size ≤ s.usedBytes then s.usedBytes - b.size else s.usedBytes
  allocations : s'.allocations = s.allocations - 1
  total : ∀ w, Weight w → ∀ l', WellFormed s' l' → total w s' l' + w b = total w s l

theorem release_drops (h : WellFormed s l) (ha : a ∈ l) (hf : (s.mem a).flags = 0) :
    Drops s l (s.mem a) (mergeBackward (mergeWithNext (releaseBlock s a) a) a) := by
  obtain ⟨hback, hback'⟩ := mergeBackward_counters (mergeWithNext (releaseBlock s a) a) a
  obtain ⟨hnext, hnext'⟩ := mergeWithNext_counters (releaseBlock s a) a
  refine ⟨by rw [hback, hnext]; rfl, by rw [hback', hnext']; rfl, fun w hw l' h' ↦ ?_⟩
  obtain ⟨hrelease, hfree, htotal⟩ := releaseBlock_total hw h ha hf
  obtain ⟨l₁, h₁, -, ha₁, -⟩ := mergeWithNext_wellFormed hrelease ha hfree
  rw [mergeBackward_total hw h₁ ha₁ h', mergeWithNext_total hw hrelease ha hfree h₁, htotal]

theorem kfree_drops (h : WellFormed s l) (ha : a ∈ l) (hf : (s.mem a).flags = 0) :
    (kfree s (some (a + 48)) = s ∨ kfree s (some (a + 48)) = (heapValidate s).2) ∨
      Drops s l (s.mem a) (kfree s (some (a + 48))) := by
  unfold kfree
  dsimp only
  rw [Nat.add_sub_cancel]
  split_ifs
  · exact .inl (.inl rfl)
  · exact .inl (.inl rfl)
  · exact .inl (.inr rfl)
  · exact .inr (release_drops h ha hf)

end Calls

section Runs

variable {V : Type*} (m : Vmm V) {c : Client V}

def CountRight (s : State) : Prop := ∀ l, WellFormed s l → s.allocations = total allocatedCount s l

def BytesRight (s : State) : Prop := ∀ l, WellFormed s l → s.usedBytes = total allocatedSize s l

theorem right_of_same (h : s' = s ∨ s' = (heapValidate s).2) :
    (CountRight s → CountRight s') ∧ (BytesRight s → BytesRight s') := by
  obtain ⟨hmem, harena, hused, hallocations⟩ :
      s'.mem = s.mem ∧ SameArena s' s ∧ SameCounters s s' := by
    rcases h with rfl | rfl
    · exact ⟨rfl, ⟨rfl, rfl, rfl, rfl⟩, rfl, rfl⟩
    obtain ⟨⟨h₁, h₂, h₃, h₄⟩, hmem⟩ := heapValidate_snd s
    exact ⟨hmem, ⟨h₁.symm, h₂.symm, h₃.symm, h₄.symm⟩, heapValidate_counters s⟩
  have hback : ∀ l, WellFormed s' l → WellFormed s l := fun l hl ↦
    hl.congr harena (by simp [hmem]) (by simpa [hmem] using hl.good)
  have htotal : ∀ w l, total w s' l = total w s l := fun w l ↦ by rw [total, total, hmem]
  refine ⟨fun hs l hl ↦ ?_, fun hs l hl ↦ ?_⟩
  · rw [hallocations, htotal, hs l (hback l hl)]
  · rw [hused, htotal, hs l (hback l hl)]

theorem Adds.countRight {b : HeapBlock} (h : Adds s l b r s') (hw : WellFormed s l)
    (hs : CountRight s) : CountRight s' := by
  intro l' hw'
  have htotal := h.total _ allocatedCount_weight l' hw'
  have hle := hw'.total_le fun b _ ↦ allocatedCount_le b
  rw [(allocated_of_flags h.flags).2, ← hs l hw] at htotal
  rw [h.allocations, htotal, Nat.mod_eq_of_lt]
  omega

theorem Adds.bytesRight {b : HeapBlock} (h : Adds s l b r s') (hw : WellFormed s l)
    (hsize : b.size = r) (hs : BytesRight s) : BytesRight s' := by
  intro l' hw'
  have htotal := h.total _ allocatedSize_weight l' hw'
  have hle := hw'.total_le allocatedSize_le
  rw [(allocated_of_flags h.flags).1, hsize, ← hs l hw] at htotal
  rw [h.used, htotal, Nat.mod_eq_of_lt]
  omega

theorem Drops.countRight {b : HeapBlock} (h : Drops s l b s') (hw : WellFormed s l)
    (hb : b.flags = 0) (hs : CountRight s) : CountRight s' := by
  intro l' hw'
  have htotal := h.total _ allocatedCount_weight l' hw'
  rw [(allocated_of_flags hb).2, ← hs l hw] at htotal
  rw [h.allocations, ← htotal, Nat.add_sub_cancel]

theorem Drops.bytesRight {b : HeapBlock} (h : Drops s l b s') (hw : WellFormed s l)
    (hb : b.flags = 0) (hs : BytesRight s) : BytesRight s' := by
  intro l' hw'
  have htotal := h.total _ allocatedSize_weight l' hw'
  rw [(allocated_of_flags hb).1, ← hs l hw] at htotal
  rw [h.used, ← htotal, if_pos (Nat.le_add_left _ _), Nat.add_sub_cancel]

def Client.Snug (c : Client V) : Op → Prop
  | .kmalloc size => Heap.Snug c.heap size
  | .kfree _ => True

instance (c : Client V) : (o : Op) → Decidable (c.Snug o)
  | .kmalloc size => inferInstanceAs (Decidable (Heap.Snug c.heap size))
  | .kfree _ => inferInstanceAs (Decidable True)

theorem step_right {x : Bool} (o : Op) (h : c.Inv x) (ho : c.Proper o) :
    (CountRight c.heap → CountRight (c.step m o).heap) ∧
      (c.Snug o → BytesRight c.heap → BytesRight (c.step m o).heap) := by
  obtain ⟨-, l, hw, hh⟩ := h
  cases o with
  | kmalloc size =>
    obtain ⟨s', v', heq, hsame⟩ | ⟨a, s', v', heq, hadds, hsize⟩ := kmalloc_adds m hw c.vmm ho
    · obtain ⟨hcount, hbytes⟩ := right_of_same hsame
      simp only [Client.step, heq]
      exact ⟨hcount, fun _ ↦ hbytes⟩
    · simp only [Client.step, heq]
      exact ⟨hadds.countRight hw, fun hsnug ↦ hadds.bytesRight hw (hsize hsnug)⟩
  | kfree p =>
    obtain ⟨x, hx, rfl⟩ := List.mem_map.mp ho
    obtain ⟨a, ha, hxa, hf, -⟩ := hh.block x hx
    simp only [Client.step, hxa]
    rcases kfree_drops hw ha hf with hsame | hdrops
    · obtain ⟨hcount, hbytes⟩ := right_of_same hsame
      exact ⟨hcount, fun _ ↦ hbytes⟩
    · exact ⟨hdrops.countRight hw hf, fun _ ↦ hdrops.bytesRight hw hf⟩

theorem start_right (mem : ℕ → HeapBlock) (pages : ℕ) (v : V) :
    CountRight (Client.start mem pages v).heap ∧ BytesRight (Client.start mem pages v).heap := by
  obtain ⟨-, l, hw, -⟩ := start_inv mem pages v
  have hl : l = [] := List.head?_eq_none_iff.mp hw.head.symm
  subst hl
  exact ⟨fun l' h' ↦ by rw [← hw.unique h']; rfl, fun l' h' ↦ by rw [← hw.unique h']; rfl⟩

/-- Whatever is allocated and freed, the blocks are counted right; if besides every free block that
is reused has just the bytes asked for or is cut, their sizes are added up right, and nothing is
left over once no block is allocated. -/
theorem heap_accounting (mem : ℕ → HeapBlock) (pages : ℕ) (v : V) (ops : List Op)
    (hp : Along (Client.step m) Client.Proper (Client.start mem pages v) ops) :
    let s := (ops.foldl (Client.step m) (Client.start mem pages v)).heap
    ∃ l, s.head = l.head? ∧ Chain s none heapBase l s.heapNext none ∧
      s.allocations = (allocated s l).length ∧
      (Along (Client.step m) Client.Snug (Client.start mem pages v) ops →
        s.usedBytes = ((allocated s l).map fun a ↦ (s.mem a).size).sum ∧
        (allocated s l = [] → s.usedBytes = 0)) := by
  intro s
  obtain ⟨hstart, hstart'⟩ := start_right mem pages v
  obtain ⟨⟨-, l, hw, -⟩, hcount⟩ := Along.invariant
    (I := fun c : Client V ↦ c.Inv (decide (pages ≠ 0)) ∧ CountRight c.heap)
    (fun c o h ho ↦ ⟨step_inv m o h.1 ho, (step_right m o h.1 ho).1 h.2⟩)
    ⟨start_inv mem pages v, hstart⟩ hp
  refine ⟨l, hw.head, hw.chain, ?_, fun hsnug ↦ ?_⟩
  · rw [hcount l hw, total_allocatedCount]
  obtain ⟨-, hbytes⟩ := Along.invariant
    (I := fun c : Client V ↦ c.Inv (decide (pages ≠ 0)) ∧ BytesRight c.heap)
    (fun c o h ho ↦ ⟨step_inv m o h.1 ho.1, (step_right m o h.1 ho.1).2 ho.2 h.2⟩)
    ⟨start_inv mem pages v, hstart'⟩ (hp.and hsnug)
  have hsum := hbytes l hw
  rw [total_allocatedSize] at hsum
  refine ⟨hsum, fun hnone ↦ ?_⟩
  rw [hnone] at hsum
  exact hsum

end Runs

section AccountingSample

def snugOps : List Op := [.kmalloc 4048, .kfree (heapBase + 48), .kmalloc 4048,
  .kfree (heapBase + 48), .kmalloc 20]

theorem heap_accounting_snug :
    let s := (snugOps.foldl (Client.step bumpVmm) (Client.start blank 1 4096)).heap
    s.usedBytes = 32 ∧ ∃ l, Chain s none heapBase l s.heapNext none ∧
      s.usedBytes = ((allocated s l).map fun a ↦ (s.mem a).size).sum := by
  have hp : Along (Client.step bumpVmm) Client.Proper (Client.start blank 1 4096) snugOps := by
    decide +kernel
  have hsnug : Along (Client.step bumpVmm) Client.Snug (Client.start blank 1 4096) snugOps := by
    decide +kernel
  obtain ⟨l, -, hchain, -, hbytes⟩ := heap_accounting bumpVmm blank 1 4096 snugOps hp
  exact ⟨by decide +kernel, l, hchain, (hbytes hsnug).1⟩

/-- A request for 4000 bytes takes a page, whose 4048 bytes are all reused for the next one: the
block is then counted with 4000 bytes and would be released with 4048. -/
def reuseOps : List Op := [.kmalloc 4000, .kfree (heapBase + 48), .kmalloc 4000]

theorem heap_accounting_reuse :
    let c := reuseOps.foldl (Client.step bumpVmm) (Client.start blank 1 4096)
    Along (Client.step bumpVmm) Client.Proper (Client.start blank 1 4096) reuseOps ∧
      c.heap.usedBytes = 4000 ∧ c.heap.head = some heapBase ∧
      (c.heap.mem heapBase).next = none ∧ (c.heap.mem heapBase).isFree = false ∧
      (c.heap.mem heapBase).size = 4048 ∧ c.Proper (.kfree (heapBase + 48)) ∧
      (c.step bumpVmm (.kfree (heapBase + 48))).heap.usedBytes = 4000 ∧
      ((c.step bumpVmm (.kfree (heapBase + 48))).heap.mem heapBase).isFree = true := by
  decide +kernel

end AccountingSample

end NexusOS.Mm.Heap
