import NexusOS.Lib.Run
import NexusOS.Mm.Pmm

namespace NexusOS.Mm.Pmm

open Lib

/-- The page at address `a` shares no byte with `[start, stop)`. -/
def PageApart (a start stop : ℕ) : Prop :=
  stop ≤ start ∨ a + 4096 ≤ start ∨ stop ≤ a

/-- The page at address `a` is inside descriptor `e`, which describes conventional memory. -/
def Inside (e : EfiMmapEntry) (a : ℕ) : Prop :=
  e.type = memConventional ∧ e.physicalStart ≤ a ∧
    a + 4096 ≤ e.physicalStart + e.numberOfPages * 4096

/-- What the allocator promises about the physical page it hands out. -/
structure Usable (bi : BootInfo) (a : ℕ) : Prop where
  aligned : a % 4096 = 0
  conventional : ∃ i < bi.count, Inside (bi.entry i) a
  below : a + 4096 ≤ pmmMaxPhys
  low : PageApart a 0 0x200000
  kernel : PageApart a bi.kernelPhysBase bi.kernelPhysEnd
  info : PageApart a bi.base (bi.base + sizeofBootInfo)
  map : PageApart a bi.mapBase (bi.mapBase + bi.mapSize)
  framebuffer : bi.fbBase ≠ 0 → PageApart a bi.fbBase (bi.fbBase + bi.fbSize)

/-- The ranges of the boot contract end below `2 ^ 64`. -/
structure BootInfo.NoWrap (bi : BootInfo) : Prop where
  kernel : bi.kernelPhysEnd < 2 ^ 64
  info : bi.base + sizeofBootInfo < 2 ^ 64
  map : bi.mapBase + bi.mapSize < 2 ^ 64
  framebuffer : bi.fbBase + bi.fbSize < 2 ^ 64

section Ranges

variable {α : Type*} {f : State → α}

theorem reserveRange_frame (hbody : ∀ s q, f (reservePage s q) = f s) (s : State) (a b : ℕ) :
    f (reserveRange s a b) = f s := by
  unfold reserveRange
  split_ifs
  · rfl
  · rfl
  · exact pageLoop_frame hbody _ _ s

theorem releaseRange_frame (hbody : ∀ s q, f (releasePage s q) = f s) (s : State) (a b : ℕ) :
    f (releaseRange s a b) = f s := by
  unfold releaseRange
  split_ifs
  · rfl
  · rfl
  · exact pageLoop_frame hbody _ _ s

theorem reservePage_max (s : State) (q : ℕ) :
    (reservePage s q).maxPhysicalAddress = s.maxPhysicalAddress := by
  unfold reservePage; split <;> rfl

theorem reservePage_total (s : State) (q : ℕ) :
    (reservePage s q).totalPages = s.totalPages := by
  unfold reservePage; split <;> rfl

theorem releasePage_max (s : State) (q : ℕ) :
    (releasePage s q).maxPhysicalAddress = s.maxPhysicalAddress := by
  unfold releasePage; split <;> rfl

theorem releasePage_total (s : State) (q : ℕ) :
    (releasePage s q).totalPages = s.totalPages := by
  unfold releasePage; split <;> rfl

theorem reserveRange_test (s : State) (a b p : ℕ) :
    (reserveRange s a b).bitmap.test p =
      if a < b ∧ alignDown a ≤ p * 4096 ∧ p * 4096 < min (alignUp b) s.maxPhysicalAddress ∧
        p < pmmMaxPages then true else s.bitmap.test p := by
  unfold reserveRange
  by_cases h₁ : b ≤ a ∨ s.maxPhysicalAddress = 0
  · rw [if_pos h₁, if_neg (by omega)]
  by_cases h₂ : alignDown a ≥ s.maxPhysicalAddress
  · rw [if_neg h₁, if_pos h₂, if_neg (by omega)]
  rw [if_neg h₁, if_neg h₂, pageLoop_test reservePage_test _ _ s (alignDown_mod a) p]
  simp only [show a < b by omega, true_and]

theorem releaseRange_test (s : State) (a b p : ℕ) :
    (releaseRange s a b).bitmap.test p =
      if a < b ∧ alignUp a ≤ p * 4096 ∧ p * 4096 < min (alignDown b) s.maxPhysicalAddress ∧
        p < pmmMaxPages then false else s.bitmap.test p := by
  unfold releaseRange
  by_cases h₁ : b ≤ a ∨ s.maxPhysicalAddress = 0
  · rw [if_pos h₁, if_neg (by omega)]
  by_cases h₂ : alignUp a ≥ s.maxPhysicalAddress
  · rw [if_neg h₁, if_pos h₂, if_neg (by omega)]
  rw [if_neg h₁, if_neg h₂, pageLoop_test releasePage_test _ _ s (alignUp_mod a) p]
  simp only [show a < b by omega, true_and]

theorem reserveRange_free {s : State} {a b p : ℕ} (hmax : s.maxPhysicalAddress ≤ pmmMaxPhys)
    (hp : p * 4096 + 4096 ≤ s.maxPhysicalAddress)
    (h : (reserveRange s a b).bitmap.test p = false) :
    s.bitmap.test p = false ∧ PageApart (p * 4096) a b := by
  rw [reserveRange_test] at h
  split_ifs at h with hr
  refine ⟨h, ?_⟩
  have ha := alignDown_mod a
  have ha' := alignDown_le a
  have hb := min_le_alignUp b
  unfold PageApart
  unfold pmmMaxPages pmmMaxPhys at *
  by_contra! hn
  apply hr
  omega

end Ranges

section Init

variable (bi : BootInfo)

theorem considerMax_le {m : ℕ} (hm : m ≤ pmmMaxPhys) (e : EfiMmapEntry) :
    considerMax m e ≤ pmmMaxPhys := by
  unfold considerMax
  split_ifs
  · exact hm
  · exact hm
  dsimp only
  split_ifs <;> omega

theorem measured_max : (measured bi).maxPhysicalAddress ≤ pmmMaxPhys :=
  foldl_invariant (I := fun m ↦ m ≤ pmmMaxPhys) (fun _ e h ↦ considerMax_le h e)
    (Nat.zero_le _) bi.entries

theorem measured_page {p : ℕ} (hp : p < (measured bi).totalPages) :
    p * 4096 + 4096 ≤ (measured bi).maxPhysicalAddress := by
  have ht : (measured bi).totalPages = min ((measured bi).maxPhysicalAddress / 4096) pmmMaxPages :=
    rfl
  omega

theorem descriptorBytes_le (e : EfiMmapEntry) :
    descriptorBytes e ≤ e.numberOfPages * 4096 ∧ descriptorBytes e < 2 ^ 64 := by
  unfold descriptorBytes
  split_ifs <;> omega

theorem releaseEntry_free {s : State} (hmax : s.maxPhysicalAddress ≤ pmmMaxPhys)
    (e : EfiMmapEntry) {p : ℕ} (h : (releaseEntry s e).bitmap.test p = false) :
    s.bitmap.test p = false ∨ Inside e (p * 4096) := by
  unfold releaseEntry at h
  split_ifs at h with htype
  · exact .inl h
  rw [releaseRange_test] at h
  split_ifs at h with hwrap hr hr
  all_goals first | exact .inl h | skip
  all_goals
    right
    refine ⟨not_not.mp htype, ?_⟩
    obtain ⟨hlt, hstart, hstop, hpage⟩ := hr
    have hbytes := descriptorBytes_le e
    have hs := e.physicalStart_lt
    have hup : e.physicalStart ≤ alignUp e.physicalStart := by
      apply le_alignUp
      by_contra hbig
      rw [alignUp, if_pos (by omega)] at hstart
      have htop := lt_alignDown (2 ^ 64 - 1)
      unfold pmmMaxPhys at hmax
      omega
    have hdown := alignDown_le ((e.physicalStart + descriptorBytes e) % 2 ^ 64)
    have hdown' := alignDown_mod ((e.physicalStart + descriptorBytes e) % 2 ^ 64)
    have htop := alignDown_le (2 ^ 64 - 1)
    have htop' := alignDown_mod (2 ^ 64 - 1)
    omega

theorem releaseEntry_max (s : State) (e : EfiMmapEntry) :
    (releaseEntry s e).maxPhysicalAddress = s.maxPhysicalAddress := by
  unfold releaseEntry
  split_ifs
  · rfl
  · exact releaseRange_frame releasePage_max _ _ _

theorem releaseEntry_total (s : State) (e : EfiMmapEntry) :
    (releaseEntry s e).totalPages = s.totalPages := by
  unfold releaseEntry
  split_ifs
  · rfl
  · exact releaseRange_frame releasePage_total _ _ _

theorem released_free {s : State} (hmax : s.maxPhysicalAddress ≤ pmmMaxPhys)
    (es : List EfiMmapEntry) {p : ℕ} (h : (es.foldl releaseEntry s).bitmap.test p = false) :
    s.bitmap.test p = false ∨ ∃ e ∈ es, Inside e (p * 4096) := by
  induction es generalizing s with
  | nil => exact .inl h
  | cons e es ih =>
    rcases ih (by rwa [releaseEntry_max]) h with hs | ⟨e', he', hin⟩
    · rcases releaseEntry_free hmax e hs with hs | hin
      · exact .inl hs
      · exact .inr ⟨e, List.mem_cons_self, hin⟩
    · exact .inr ⟨e', List.mem_cons_of_mem _ he', hin⟩

def released : State := bi.entries.foldl releaseEntry (measured bi)

theorem released_max : (released bi).maxPhysicalAddress = (measured bi).maxPhysicalAddress :=
  foldl_invariant (I := fun s ↦ s.maxPhysicalAddress = (measured bi).maxPhysicalAddress)
    (fun s e h ↦ (releaseEntry_max s e).trans h) rfl bi.entries

theorem released_total : (released bi).totalPages = (measured bi).totalPages :=
  foldl_invariant (I := fun s ↦ s.totalPages = (measured bi).totalPages)
    (fun s e h ↦ (releaseEntry_total s e).trans h) rfl bi.entries

theorem reserveAll_frame {α : Type*} {f : State → α} (hbody : ∀ s q, f (reservePage s q) = f s)
    (s : State) : f (reserveAll bi s) = f s := by
  have hr := fun s a b ↦ reserveRange_frame hbody s a b
  unfold reserveAll reserveFramebuffer reserveKernel
  dsimp only
  split_ifs <;> simp only [hr]

theorem reserveKernel_free {s : State} {p : ℕ} (hmax : s.maxPhysicalAddress ≤ pmmMaxPhys)
    (hp : p * 4096 + 4096 ≤ s.maxPhysicalAddress)
    (h : (reserveKernel bi s).bitmap.test p = false) :
    s.bitmap.test p = false ∧ PageApart (p * 4096) bi.kernelPhysBase bi.kernelPhysEnd := by
  unfold reserveKernel at h
  split_ifs at h with hk
  · exact reserveRange_free hmax hp h
  · exact ⟨h, .inl (by omega)⟩

theorem reserveFramebuffer_free {s : State} {p : ℕ} (hmax : s.maxPhysicalAddress ≤ pmmMaxPhys)
    (hp : p * 4096 + 4096 ≤ s.maxPhysicalAddress) (hw : bi.fbBase + bi.fbSize < 2 ^ 64)
    (h : (reserveFramebuffer bi s).bitmap.test p = false) :
    s.bitmap.test p = false ∧
      (bi.fbBase ≠ 0 → PageApart (p * 4096) bi.fbBase (bi.fbBase + bi.fbSize)) := by
  unfold reserveFramebuffer at h
  split_ifs at h with hfb
  · rw [Nat.mod_eq_of_lt hw] at h
    obtain ⟨hs, ha⟩ := reserveRange_free hmax hp h
    exact ⟨hs, fun _ ↦ ha⟩
  refine ⟨h, fun h0 ↦ .inl ?_⟩
  have hsize : bi.fbSize = 0 := by
    by_contra hne
    exact hfb ⟨h0, hne⟩
  omega

theorem reserveKernel_frame {α : Type*} {f : State → α} (hbody : ∀ s q, f (reservePage s q) = f s)
    (s : State) : f (reserveKernel bi s) = f s := by
  unfold reserveKernel
  split_ifs
  · exact reserveRange_frame hbody s _ _
  · rfl

theorem reserveAll_free {s : State} {p : ℕ} (hw : bi.NoWrap)
    (hmax : s.maxPhysicalAddress ≤ pmmMaxPhys) (hp : p * 4096 + 4096 ≤ s.maxPhysicalAddress)
    (h : (reserveAll bi s).bitmap.test p = false) :
    s.bitmap.test p = false ∧ PageApart (p * 4096) 0 0x200000 ∧
      PageApart (p * 4096) bi.kernelPhysBase bi.kernelPhysEnd ∧
      PageApart (p * 4096) bi.base (bi.base + sizeofBootInfo) ∧
      PageApart (p * 4096) bi.mapBase (bi.mapBase + bi.mapSize) ∧
      (bi.fbBase ≠ 0 → PageApart (p * 4096) bi.fbBase (bi.fbBase + bi.fbSize)) := by
  have hr := fun s a b ↦ reserveRange_frame reservePage_max s a b
  have hk := fun s ↦ reserveKernel_frame bi reservePage_max s
  unfold reserveAll at h
  dsimp only at h
  rw [Nat.mod_eq_of_lt hw.info, Nat.mod_eq_of_lt hw.map] at h
  obtain ⟨h₄, hfb⟩ := reserveFramebuffer_free bi (by simpa only [hr, hk] using hmax)
    (by simpa only [hr, hk] using hp) hw.framebuffer h
  obtain ⟨h₃, hmap⟩ := reserveRange_free (by simpa only [hr, hk] using hmax)
    (by simpa only [hr, hk] using hp) h₄
  obtain ⟨h₂, hinfo⟩ := reserveRange_free (by simpa only [hr, hk] using hmax)
    (by simpa only [hr, hk] using hp) h₃
  obtain ⟨h₁, hkernel⟩ := reserveKernel_free bi (by simpa only [hr, hk] using hmax)
    (by simpa only [hr, hk] using hp) h₂
  obtain ⟨h₀, hlow⟩ := reserveRange_free hmax hp h₁
  exact ⟨h₀, hlow, hkernel, hinfo, hmap, hfb⟩

theorem emptyState_test (p : ℕ) : emptyState.bitmap.test p = true := by
  rw [Bitmap.test_eq_getLsbD]
  have hp : p % 8 < 8 := Nat.mod_lt p (by decide)
  change (0xFF#8).getLsbD (p % 8) = true
  interval_cases p % 8 <;> rfl

theorem reserveAll_usable (hw : bi.NoWrap) {p : ℕ} (hp : p < (measured bi).totalPages)
    (h : (reserveAll bi (released bi)).bitmap.test p = false) : Usable bi (p * 4096) := by
  have hmax := measured_max bi
  have hpage := measured_page bi hp
  obtain ⟨h₀, hlow, hkernel, hinfo, hmap, hfb⟩ := reserveAll_free bi hw
    (by rwa [released_max]) (by rwa [released_max]) h
  rcases released_free hmax bi.entries h₀ with hff | ⟨e, he, hin⟩
  · exact absurd (hff.symm.trans (emptyState_test p)) (by decide)
  obtain ⟨i, hi, rfl⟩ := List.mem_map.mp he
  exact ⟨Nat.mul_mod_left p 4096, ⟨i, List.mem_range.mp hi, hin⟩, hpage.trans hmax, hlow, hkernel,
    hinfo, hmap, hfb⟩

end Init

section Accounting

theorem countClear_eq (b : Bitmap) (pages : List ℕ) :
    countClear b pages = (pages.filter (fun p ↦ !b.test p)).length := by
  have hacc : ∀ n, pages.foldl (fun n page ↦ if b.test page then n else n + 1) n =
      n + (pages.filter (fun p ↦ !b.test p)).length := by
    induction pages with
    | nil => simp
    | cons p pages ih =>
      intro n
      rw [List.foldl_cons, ih]
      cases hp : b.test p <;> simp [hp]
      omega
  simpa [countClear] using hacc 0

theorem card_clearPages (s : State) :
    (clearPages s).card = countClear s.bitmap (List.range s.totalPages) := by
  have hl : clearPages s = ((List.range s.totalPages).filter (fun p ↦ !s.bitmap.test p)).toFinset := by
    ext p
    simp [clearPages]
  rw [hl, countClear_eq, List.toFinset_card_of_nodup (List.nodup_range.filter _)]

theorem clearPages_set {s : State} (p n : ℕ) :
    clearPages { s with bitmap := s.bitmap.set p, freePages := n } = (clearPages s).erase p := by
  ext q
  simp [clearPages]
  tauto

theorem clearPages_clear {s : State} {p n : ℕ} (hp : p < s.totalPages) :
    clearPages { s with bitmap := s.bitmap.clear p, freePages := n } = insert p (clearPages s) := by
  ext q
  by_cases hq : q = p
  · simp [clearPages, hq, hp]
  · simp [clearPages, hq]

theorem pmmAllocPage_cases (s : State) (hready : s.ready = true) :
    (∃ p ∈ clearPages s, (∀ q ∈ clearPages s, p ≤ q) ∧ pmmAllocPage s =
      (p * 4096, { s with bitmap := s.bitmap.set p, freePages := s.freePages - 1 })) ∨
    (clearPages s = ∅ ∧ pmmAllocPage s = (0, s)) := by
  unfold pmmAllocPage
  rw [if_pos hready]
  cases hf : (List.range s.totalPages).find? (fun page ↦ !s.bitmap.test page) with
  | none =>
    right
    refine ⟨?_, rfl⟩
    ext p
    have hp := List.find?_eq_none.mp hf p
    simp only [clearPages, Finset.mem_filter, Finset.mem_range, Finset.notMem_empty, iff_false]
    rintro ⟨hlt, htest⟩
    simp [hlt, htest] at hp
  | some p =>
    left
    have hlt := List.mem_range.mp (List.mem_of_find?_eq_some hf)
    have htest := List.find?_some hf
    refine ⟨p, by simpa [clearPages, hlt] using htest, ?_, rfl⟩
    intro q hq
    by_contra hqp
    have hbefore := (List.find?_range_eq_some.1 hf).2.2 q (by omega)
    simp only [clearPages, Finset.mem_filter] at hq
    simp [hq.2] at hbefore

end Accounting

section Runs

inductive Op
  | alloc
  | free (physicalAddress : ℕ)

/-- The allocator with what its callers have been given so far and what they still hold. -/
structure Client where
  pmm : State
  returned : List ℕ
  held : List ℕ

def Client.step (c : Client) : Op → Client
  | .alloc =>
    let r := pmmAllocPage c.pmm
    ⟨r.2, r.1 :: c.returned, if r.1 = 0 then c.held else r.1 :: c.held⟩
  | .free a => ⟨pmmFreePage c.pmm a, c.returned, c.held.filter (· ≠ a)⟩

def Client.start (bi : BootInfo) : Client := ⟨pmmInit (some bi), [], []⟩

/-- Callers give back pages that an earlier allocation handed out. -/
def Client.Proper (c : Client) : Op → Prop
  | .alloc => True
  | .free a => a ≠ 0 ∧ a ∈ c.returned

structure Client.Inv (bi : BootInfo) (c : Client) : Prop where
  ready : c.pmm.ready = true
  free : c.pmm.freePages = (clearPages c.pmm).card
  clear : ∀ p ∈ clearPages c.pmm, Usable bi (p * 4096)
  returned : ∀ a ∈ c.returned, a ≠ 0 → Usable bi a ∧ a / 4096 < c.pmm.totalPages
  held : ∀ a ∈ c.held, a / 4096 ∉ clearPages c.pmm ∧ a % 4096 = 0

variable {bi : BootInfo}

theorem pmmInit_accepted (hacc : bi.Accepted) :
    pmmInit (some bi) = { recount (reserveAll bi (released bi)) with ready := true } := by
  simp only [pmmInit, if_pos hacc]
  rfl

theorem mem_clearPages_init (hacc : bi.Accepted) (p : ℕ) :
    p ∈ clearPages (pmmInit (some bi)) ↔ p < (measured bi).totalPages ∧
      (reserveAll bi (released bi)).bitmap.test p = false := by
  have htotal : (reserveAll bi (released bi)).totalPages = (measured bi).totalPages :=
    (reserveAll_frame bi reservePage_total _).trans (released_total bi)
  rw [pmmInit_accepted hacc, clearPages, Finset.mem_filter, Finset.mem_range, ← htotal]
  rfl

theorem start_inv (hacc : bi.Accepted) (hw : bi.NoWrap) : (Client.start bi).Inv bi := by
  refine ⟨?_, ?_, ?_, by simp [Client.start], by simp [Client.start]⟩
  · simp only [Client.start, pmmInit_accepted hacc]
  · rw [card_clearPages]
    simp only [Client.start, pmmInit_accepted hacc]
    rfl
  intro p hp
  obtain ⟨hlt, htest⟩ := (mem_clearPages_init hacc p).mp hp
  exact reserveAll_usable bi hw hlt htest

theorem Usable.ne_zero {a : ℕ} (h : Usable bi a) : a ≠ 0 := by
  have hlow := h.low
  unfold PageApart at hlow
  omega

theorem alloc_inv {c : Client} (h : c.Inv bi) : (c.step .alloc).Inv bi := by
  rcases pmmAllocPage_cases c.pmm h.ready with ⟨p, hp, -, he⟩ | ⟨_, he⟩
  · have hu := h.clear p hp
    have hcard := Finset.card_erase_of_mem hp
    have hlt := Finset.mem_range.mp (Finset.mem_filter.mp hp).1
    simp only [Client.step, he, if_neg hu.ne_zero]
    refine ⟨h.ready, ?_, ?_, ?_, ?_⟩
    · simp only [clearPages_set, hcard, h.free]
    · intro q hq
      rw [clearPages_set] at hq
      exact h.clear q (Finset.mem_of_mem_erase hq)
    · intro a ha h0
      rcases List.mem_cons.mp ha with rfl | ha
      · exact ⟨hu, by simpa using hlt⟩
      · exact h.returned a ha h0
    intro a ha
    rw [clearPages_set]
    rcases List.mem_cons.mp ha with rfl | ha
    · exact ⟨by simp, by simp⟩
    · exact ⟨fun hq ↦ (h.held a ha).1 (Finset.mem_of_mem_erase hq), (h.held a ha).2⟩
  · simp only [Client.step, he, if_true]
    refine ⟨h.ready, h.free, h.clear, ?_, h.held⟩
    intro a ha h0
    rcases List.mem_cons.mp ha with rfl | ha
    · exact absurd rfl h0
    · exact h.returned a ha h0

theorem free_inv {c : Client} {a : ℕ} (h : c.Inv bi) (hp : c.Proper (.free a)) :
    (c.step (.free a)).Inv bi := by
  obtain ⟨hu, hlt⟩ := h.returned a hp.2 hp.1
  have hmul : a / 4096 * 4096 = a := by have := hu.aligned; omega
  have hpages : a / 4096 < pmmMaxPages := by
    have := hu.below
    unfold pmmMaxPages
    omega
  have he : pmmFreePage c.pmm a = if c.pmm.bitmap.test (a / 4096) then
      { c.pmm with bitmap := c.pmm.bitmap.clear (a / 4096), freePages := c.pmm.freePages + 1 }
      else c.pmm := by
    unfold pmmFreePage
    rw [if_neg (by simp [h.ready, hu.aligned]), if_neg (by omega)]
  have hheld : ∀ b ∈ c.held.filter (· ≠ a), b ∈ c.held ∧ b ≠ a := by
    intro b hb
    simpa using hb
  cases ht : c.pmm.bitmap.test (a / 4096) with
  | false =>
    simp only [Client.step, he, ht]
    exact ⟨h.ready, h.free, h.clear, h.returned, fun b hb ↦ h.held b (hheld b hb).1⟩
  | true =>
    have hnot : a / 4096 ∉ clearPages c.pmm := by simp [clearPages, ht]
    simp only [Client.step, he, ht, if_true]
    refine ⟨h.ready, ?_, ?_, h.returned, ?_⟩
    · simp only [clearPages_clear hlt, Finset.card_insert_of_notMem hnot, h.free]
    · intro q hq
      rw [clearPages_clear hlt] at hq
      rcases Finset.mem_insert.mp hq with rfl | hq
      · rwa [hmul]
      · exact h.clear q hq
    intro b hb
    obtain ⟨hb, hne⟩ := hheld b hb
    obtain ⟨hb', hal⟩ := h.held b hb
    rw [clearPages_clear hlt, Finset.mem_insert, not_or]
    have := hu.aligned
    exact ⟨⟨fun hpage ↦ hne (by omega), hb'⟩, hal⟩

theorem step_inv (c : Client) (op : Op) (h : c.Inv bi) (hp : c.Proper op) :
    (c.step op).Inv bi := by
  cases op with
  | alloc => exact alloc_inv h
  | free a => exact free_inv h hp

/-- In every run of proper callers the accounting is exact, an allocation returns a usable page
that nobody holds, and it fails only when no page is free. -/
theorem pmm_run_safe (bi : BootInfo) (hacc : bi.Accepted) (hw : bi.NoWrap) (ops : List Op)
    (hrun : Along Client.step Client.Proper (Client.start bi) ops) :
    let c := ops.foldl Client.step (Client.start bi)
    c.pmm.freePages = (clearPages c.pmm).card ∧
    ((pmmAllocPage c.pmm).1 ≠ 0 →
      Usable bi (pmmAllocPage c.pmm).1 ∧ (pmmAllocPage c.pmm).1 ∉ c.held) ∧
    ((pmmAllocPage c.pmm).1 = 0 → (clearPages c.pmm).card = 0) := by
  intro c
  have h : c.Inv bi := hrun.invariant step_inv (start_inv hacc hw)
  refine ⟨h.free, ?_, ?_⟩
  · rcases pmmAllocPage_cases c.pmm h.ready with ⟨p, hp, -, he⟩ | ⟨_, he⟩
    · intro _
      rw [he]
      refine ⟨h.clear p hp, fun hheld ↦ (h.held _ hheld).1 ?_⟩
      simpa using hp
    · rw [he]; exact fun h0 ↦ absurd rfl h0
  rcases pmmAllocPage_cases c.pmm h.ready with ⟨p, hp, -, he⟩ | ⟨hempty, _⟩
  · rw [he]; exact fun h0 ↦ absurd h0 (h.clear p hp).ne_zero
  · rw [hempty]; exact fun _ ↦ rfl

def lowMemory (pages : ℕ) (hpages : pages < 2 ^ 64) : EfiMmapEntry where
  type := memConventional
  physicalStart := 0
  numberOfPages := pages
  physicalStart_lt := by decide
  numberOfPages_lt := hpages

/-- A machine whose framebuffer record starts at address 0; the boot information lies in the
reserved low memory. -/
def lowBoot (e : EfiMmapEntry) (fbSize : ℕ) : BootInfo where
  base := 0x100000
  fbBase := 0
  fbSize := fbSize
  mapBase := 0x180000
  mapSize := 40
  descriptorSize := 40
  kernelPhysBase := 0
  kernelPhysEnd := 0
  entry := fun _ ↦ e

theorem lowBoot_accepted (e : EfiMmapEntry) (fbSize : ℕ) : (lowBoot e fbSize).Accepted := by
  norm_num [BootInfo.Accepted, lowBoot, sizeofMmapEntry]

theorem lowBoot_noWrap (e : EfiMmapEntry) {fbSize : ℕ} (h : fbSize < 2 ^ 64) :
    (lowBoot e fbSize).NoWrap := by
  constructor <;> norm_num [lowBoot, sizeofBootInfo]
  exact h

theorem lowBoot_entries (e : EfiMmapEntry) (fbSize : ℕ) : (lowBoot e fbSize).entries = [e] := by
  simp [BootInfo.entries, BootInfo.count, lowBoot]

def fourMegabytes : EfiMmapEntry := lowMemory 1024 (by decide)

theorem fourMegabytes_measured (fbSize : ℕ) :
    measured (lowBoot fourMegabytes fbSize) =
      { emptyState with maxPhysicalAddress := 0x400000, totalPages := 1024 } := by
  norm_num [measured, lowBoot_entries, considerMax, descriptorBytes, pmmMaxPages, pmmMaxPhys,
    fourMegabytes, lowMemory]

theorem fourMegabytes_releaseEntry (s : State) :
    releaseEntry s fourMegabytes = releaseRange s 0 0x400000 := by
  norm_num [releaseEntry, descriptorBytes, fourMegabytes, lowMemory]

theorem fourMegabytes_released (fbSize : ℕ) :
    (released (lowBoot fourMegabytes fbSize)).bitmap.test 512 = false := by
  rw [released, lowBoot_entries, List.foldl_cons, List.foldl_nil, fourMegabytes_releaseEntry,
    releaseRange_test, fourMegabytes_measured, if_pos]
  norm_num [alignUp, alignDown, pmmMaxPages, pmmMaxPhys]

theorem fourMegabytes_reserved (fbSize : ℕ) : (reserveAll (lowBoot fourMegabytes fbSize)
    (released (lowBoot fourMegabytes fbSize))).bitmap.test 512 = false := by
  have hr := fun s a b ↦ reserveRange_frame reservePage_max s a b
  have hfb : ∀ s, reserveFramebuffer (lowBoot fourMegabytes fbSize) s = s := fun s ↦ if_neg (by
    simp [lowBoot])
  have hk : ∀ s, reserveKernel (lowBoot fourMegabytes fbSize) s = s := fun s ↦ if_neg (by
    simp [lowBoot])
  have hmax : (released (lowBoot fourMegabytes fbSize)).maxPhysicalAddress = 0x400000 :=
    (released_max _).trans (by rw [fourMegabytes_measured])
  simp only [reserveAll, hfb, hk, reserveRange_test, hr, hmax, fourMegabytes_released]
  norm_num [lowBoot, sizeofBootInfo, alignUp, alignDown]

theorem fourMegabytes_clear (fbSize : ℕ) :
    512 ∈ clearPages (pmmInit (some (lowBoot fourMegabytes fbSize))) :=
  (mem_clearPages_init (lowBoot_accepted _ fbSize) 512).mpr
    ⟨by norm_num [fourMegabytes_measured], fourMegabytes_reserved fbSize⟩

theorem alloc_of_clear {s : State} (hready : s.ready = true) {q : ℕ} (hq : q ∈ clearPages s) :
    ∃ p ∈ clearPages s, (pmmAllocPage s).1 = p * 4096 := by
  rcases pmmAllocPage_cases s hready with ⟨p, hp, -, he⟩ | ⟨hempty, _⟩
  · exact ⟨p, hp, by rw [he]⟩
  · rw [hempty] at hq; exact absurd hq (Finset.notMem_empty q)

theorem pmm_run_safe_fourMegabytes :
    let ops := [.alloc, .free (pmmAllocPage (pmmInit (some (lowBoot fourMegabytes 0)))).1]
    Along Client.step Client.Proper (Client.start (lowBoot fourMegabytes 0)) ops ∧
    (ops.foldl Client.step (Client.start (lowBoot fourMegabytes 0))).pmm.freePages =
      (clearPages (ops.foldl Client.step (Client.start (lowBoot fourMegabytes 0))).pmm).card := by
  intro ops
  have hacc := lowBoot_accepted fourMegabytes 0
  have hw := lowBoot_noWrap fourMegabytes (show 0 < 2 ^ 64 by decide)
  have hinv := start_inv hacc hw
  have hrun : Along Client.step Client.Proper (Client.start (lowBoot fourMegabytes 0)) ops := by
    obtain ⟨p, hp, he⟩ := alloc_of_clear hinv.ready (fourMegabytes_clear 0)
    refine ⟨trivial, ⟨?_, List.mem_cons_self⟩, trivial⟩
    exact he ▸ (hinv.clear p hp).ne_zero
  exact ⟨hrun, (pmm_run_safe (lowBoot fourMegabytes 0) hacc hw ops hrun).1⟩

def onePage : EfiMmapEntry := lowMemory 1 (by decide)

theorem onePage_full :
    let s := pmmInit (some (lowBoot onePage 0))
    s.ready = true ∧ s.totalPages = 1 ∧ s.bitmap.test 0 = true ∧ clearPages s = ∅ := by
  intro s
  have hinv := start_inv (lowBoot_accepted onePage 0) (lowBoot_noWrap onePage (by decide))
  have htotal : s.totalPages = 1 := by
    have hm : (measured (lowBoot onePage 0)).totalPages = 1 := by
      norm_num [measured, lowBoot_entries, considerMax, descriptorBytes, pmmMaxPages, pmmMaxPhys,
        onePage, lowMemory, emptyState]
    simp only [s, pmmInit_accepted (lowBoot_accepted onePage 0)]
    exact ((reserveAll_frame _ reservePage_total _).trans (released_total _)).trans hm
  have hnot : 0 ∉ clearPages s := fun h0 ↦ (hinv.clear 0 h0).ne_zero rfl
  have htest : s.bitmap.test 0 = true := by simpa [clearPages, htotal] using hnot
  refine ⟨hinv.ready, htotal, htest, ?_⟩
  ext p
  simp only [clearPages, htotal, Finset.mem_filter, Finset.mem_range, Nat.lt_one_iff,
    Finset.notMem_empty, iff_false]
  rintro ⟨rfl, h⟩
  exact absurd (htest.symm.trans h) (by decide)

/-- A framebuffer recorded at address 0 is not reserved, so the first page handed out overlaps it;
and a caller who gives the failure value 0 back as if it were a page makes page 0 allocatable, after
which the allocator answers 0 although a page is free. -/
theorem pmm_zero_addresses :
    (let bi := lowBoot fourMegabytes 0x400000
     bi.Accepted ∧ bi.NoWrap ∧ (pmmAllocPage (pmmInit (some bi))).1 ≠ 0 ∧
      ¬ PageApart (pmmAllocPage (pmmInit (some bi))).1 bi.fbBase (bi.fbBase + bi.fbSize)) ∧
    (let c := [.alloc, .free 0].foldl Client.step (Client.start (lowBoot onePage 0))
     0 ∈ ((Client.start (lowBoot onePage 0)).step .alloc).returned ∧
      (pmmAllocPage c.pmm).1 = 0 ∧ (clearPages c.pmm).card = 1) := by
  constructor
  · have hacc := lowBoot_accepted fourMegabytes 0x400000
    have hw := lowBoot_noWrap fourMegabytes (show 0x400000 < 2 ^ 64 by decide)
    have hinv := start_inv hacc hw
    obtain ⟨p, hp, he⟩ : ∃ p ∈ clearPages (pmmInit (some (lowBoot fourMegabytes 0x400000))),
        (pmmAllocPage (pmmInit (some (lowBoot fourMegabytes 0x400000)))).1 = p * 4096 :=
      alloc_of_clear hinv.ready (fourMegabytes_clear 0x400000)
    have hlt := ((mem_clearPages_init hacc p).mp hp).1
    rw [fourMegabytes_measured] at hlt
    refine ⟨hacc, hw, he ▸ (hinv.clear p hp).ne_zero, ?_⟩
    rw [he]
    change ¬ PageApart (p * 4096) 0 (0 + 0x400000)
    dsimp only at hlt
    unfold PageApart
    omega
  · obtain ⟨hready, htotal, htest, hempty⟩ := onePage_full
    generalize hs : pmmInit (some (lowBoot onePage 0)) = s at *
    have halloc : pmmAllocPage s = (0, s) := by
      rcases pmmAllocPage_cases s hready with ⟨p, hp, _⟩ | ⟨_, he⟩
      · rw [hempty] at hp; exact absurd hp (Finset.notMem_empty p)
      · exact he
    have hfree : pmmFreePage s 0 =
        { s with bitmap := s.bitmap.clear 0, freePages := s.freePages + 1 } := by
      norm_num [pmmFreePage, hready, htotal, htest, pmmMaxPages, pmmMaxPhys]
    have hclear : clearPages (pmmFreePage s 0) = {0} := by
      rw [hfree, clearPages_clear (by omega), hempty]
      rfl
    simp only [Client.start, hs, List.foldl_cons, List.foldl_nil, Client.step, halloc, hclear,
      List.mem_singleton, Finset.card_singleton, and_true, true_and]
    obtain ⟨p, hp, he⟩ := alloc_of_clear (s := pmmFreePage s 0) (by rw [hfree]; exact hready)
      (hclear ▸ Finset.mem_singleton_self 0)
    rw [hclear, Finset.mem_singleton] at hp
    rw [he, hp]

end Runs

end NexusOS.Mm.Pmm
