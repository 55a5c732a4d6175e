import NexusOS.Mm.PagingWalk

namespace NexusOS.Mm.Paging

open Lib
open Pmm (pmmIsPageFree)

variable {s s₁ s' s'' : State} {va va' root : ℕ}

section Map

variable {pa flags : ℕ} {r : ℤ}

section

variable (hS : Space s root)
include hS

theorem mapPageRoot_cases (hok : Ok s) (h : mapPageRoot root va pa flags s = (r, s')) :
    ((r = 1 ∨ r = -1) ∧ Extended s s' root) ∨
      r = 0 ∧ va % 4096 = 0 ∧ pa % 4096 = 0 ∧ ∃ s₁, Extended s s₁ root ∧
        LeafWritten s₁ s' root va (tableAddr pa ||| flags ||| 1) := by
  unfold mapPageRoot at h
  by_cases hal : va % 4096 ≠ 0 ∨ pa % 4096 ≠ 0
  · simp only [if_pos hal, Prod.mk.injEq] at h
    obtain ⟨rfl, rfl⟩ := h
    exact .inl ⟨.inr rfl, Extended.refl hS hok⟩
  rw [if_neg hal] at h
  rw [not_or, not_not, not_not] at hal
  rcases hw : walkCreateRoot root va true s with ⟨rw, s₁⟩
  have hwalk := walkCreateRoot_spec hS hok hw
  rw [hw] at h
  cases rw with
  | none =>
    simp only [Prod.mk.injEq] at h
    obtain ⟨rfl, rfl⟩ := h
    exact .inl ⟨.inr rfl, hwalk.extended⟩
  | some pt =>
    by_cases hp : present (s₁.mem pt (tableIndex 1 va)) = true
    · simp only [if_pos hp, Prod.mk.injEq] at h
      obtain ⟨rfl, rfl⟩ := h
      exact .inl ⟨.inl rfl, hwalk.extended⟩
    simp only [if_neg hp, Prod.mk.injEq] at h
    obtain ⟨rfl, rfl⟩ := h
    exact .inr ⟨rfl, hal.1, hal.2, s₁, hwalk.extended,
      leafWritten (hwalk.extended.space hS) hwalk.extended.ok (hwalk.on pt rfl)⟩

theorem unmapPageRoot_cases (hok : Ok s) (h : unmapPageRoot root va s = (r, s')) :
    (r = 0 ∧ s' = s) ∨ r = 1 ∧ va % 4096 = 0 ∧ LeafWritten s s' root va 0 := by
  unfold unmapPageRoot at h
  by_cases hal : va % 4096 ≠ 0
  · simp only [if_pos hal, Prod.mk.injEq] at h
    obtain ⟨rfl, rfl⟩ := h
    exact .inl ⟨rfl, rfl⟩
  rw [if_neg hal] at h
  rcases hw : walkCreateRoot root va false s with ⟨rw, s₁⟩
  have hwalk := walkCreateRoot_spec hS hok hw
  obtain rfl := hwalk.kept rfl
  rw [hw] at h
  cases rw with
  | none =>
    simp only [Prod.mk.injEq] at h
    obtain ⟨rfl, rfl⟩ := h
    exact .inl ⟨rfl, rfl⟩
  | some pt =>
    cases hp : present (s₁.mem pt (tableIndex 1 va)) with
    | false =>
      simp only [hp, Bool.not_false, if_true, Prod.mk.injEq] at h
      obtain ⟨rfl, rfl⟩ := h
      exact .inl ⟨rfl, rfl⟩
    | true =>
      simp only [hp, Bool.not_true, Bool.false_eq_true, if_false, Prod.mk.injEq] at h
      obtain ⟨rfl, rfl⟩ := h
      exact .inr ⟨rfl, not_not.1 hal, leafWritten hS hok (hwalk.on pt rfl)⟩

theorem LeafWritten.space {entry : ℕ} (h : LeafWritten s s' root va entry) :
    Space s' root := h.grew.space hS

theorem LeafWritten.virtToPhysRoot {entry : ℕ} (h : LeafWritten s s' root va entry) (va' : ℕ) :
    virtToPhysRoot root va' s' = if va' / 4096 % 2 ^ 36 = va / 4096 % 2 ^ 36 then
      leafAddress 1 entry va' else virtToPhysRoot root va' s := by
  rw [virtToPhysRoot_eq (h.space hS).low, virtToPhysRoot_eq hS.low]
  split_ifs with heq
  · obtain ⟨l, old, hlen, -, h2⟩ := h.same va' heq
    rw [h2, translate_append, hlen]
  · rw [h.other va' heq]

end

end Map

section Exact

variable {pa flags : ℕ}

def Canonical (va : ℕ) : Prop := va < 2 ^ 47 ∨ (2 ^ 64 - 2 ^ 47 ≤ va ∧ va < 2 ^ 64)

theorem leafEntry_present (pa flags : ℕ) : present (tableAddr pa ||| flags ||| 1) = true := by
  simp [present]

theorem leafEntry_addr (hpa : pa % 4096 = 0) (hf : flags < 8) :
    tableAddr (tableAddr pa ||| flags ||| 1) = pa := by
  have hlt : flags ||| 1 < 2 ^ 3 := Nat.or_lt_two_pow hf (by decide)
  have htable : tableAddr pa = pa := by
    unfold tableAddr
    omega
  rw [htable, Nat.or_assoc, aligned_or hpa (by omega), tableAddr]
  omega

theorem leafEntry_high (hpa : pa < 2 ^ 52) (hf : 2 ^ 63 ≤ flags) :
    tableAddr (tableAddr pa ||| flags ||| 1) ≠ pa := by
  have hle : flags ≤ tableAddr pa ||| flags ||| 1 := Nat.right_le_or.trans Nat.left_le_or
  unfold tableAddr at *
  omega

theorem same_page_of_not_canonical (hva : Canonical va) (hal : va % 4096 = 0)
    (hsame : va' / 4096 % 2 ^ 36 = va / 4096 % 2 ^ 36) (hout : ¬ (va ≤ va' ∧ va' < va + 4096)) :
    ¬ Canonical va' := by
  unfold Canonical at *
  omega

/-- Mapping and unmapping a page changes the translation of its own addresses only. A page that was
mapped translates to the address that it was mapped to just if the NX bit is not among the flags. -/
theorem map_unmap_exact (hS : Space s root) (hok : Ok s) (hva : Canonical va) :
    (∀ va', ¬ (va ≤ va' ∧ va' < va + 4096) →
      Canonical va' ∨ va' / 4096 % 2 ^ 36 ≠ va / 4096 % 2 ^ 36 →
      virtToPhysRoot root va' (mapPageRoot root va pa flags s).2 = virtToPhysRoot root va' s ∧
      virtToPhysRoot root va' (unmapPageRoot root va s).2 = virtToPhysRoot root va' s) ∧
    ((mapPageRoot root va pa flags s).1 = 0 → pa < 2 ^ 52 → flags < 8 ∨ 2 ^ 63 ≤ flags →
      ((∀ o < 4096, virtToPhysRoot root (va + o) (mapPageRoot root va pa flags s).2 = pa + o) ↔
        flags < 8)) ∧
    ((mapPageRoot root va pa flags s).1 ≠ 0 → ∀ o < 4096,
      virtToPhysRoot root (va + o) (mapPageRoot root va pa flags s).2 =
        virtToPhysRoot root (va + o) s) ∧
    ((unmapPageRoot root va s).1 = 1 → ∀ o < 4096,
      virtToPhysRoot root (va + o) (unmapPageRoot root va s).2 = 0) := by
  rcases hm : mapPageRoot root va pa flags s with ⟨r, s'⟩
  rcases hu : unmapPageRoot root va s with ⟨u, s''⟩
  have hmap := mapPageRoot_cases hS hok hm
  have hunmap := unmapPageRoot_cases hS hok hu
  refine ⟨?_, ?_, ?_, ?_⟩
  · intro va' hout hcan
    have hne : va % 4096 = 0 → va' / 4096 % 2 ^ 36 ≠ va / 4096 % 2 ^ 36 := by
      intro hal hsame
      exact hcan.elim (same_page_of_not_canonical hva hal hsame hout) (fun h ↦ h hsame)
    constructor
    · rcases hmap with ⟨-, hext⟩ | ⟨-, hal, -, s₁, hext, hleaf⟩
      · exact hext.virtToPhysRoot hS va'
      · rw [hleaf.virtToPhysRoot (hext.space hS), if_neg (hne hal), hext.virtToPhysRoot hS]
    rcases hunmap with ⟨-, rfl⟩ | ⟨-, hal, hleaf⟩
    · rfl
    · rw [hleaf.virtToPhysRoot hS, if_neg (hne hal)]
  · intro hr hlow hkinds
    obtain rfl : r = 0 := hr
    rcases hmap with ⟨hr, -⟩ | ⟨-, hal, hpa, s₁, hext, hleaf⟩
    · omega
    have hread (o : ℕ) (ho : o < 4096) : virtToPhysRoot root (va + o) s' =
        tableAddr (tableAddr pa ||| flags ||| 1) + o := by
      rw [hleaf.virtToPhysRoot (hext.space hS), if_pos (by omega), leafAddress, leafEntry_present]
      simp only [Bool.not_true, Bool.false_eq_true, if_false, if_true]
      omega
    refine ⟨fun hexact ↦ hkinds.resolve_right fun hhigh ↦ leafEntry_high hlow hhigh ?_,
      fun hflags o ho ↦ by rw [hread o ho, leafEntry_addr hpa hflags]⟩
    have hzero := hexact 0 (by decide)
    rw [hread 0 (by decide)] at hzero
    omega
  · intro hr o ho
    rcases hmap with ⟨-, hext⟩ | ⟨h0, -⟩
    · exact hext.virtToPhysRoot hS _
    · exact absurd h0 hr
  · intro hu1 o ho
    obtain rfl : u = 1 := hu1
    rcases hunmap with ⟨h0, -⟩ | ⟨-, hal, hleaf⟩
    · omega
    rw [hleaf.virtToPhysRoot hS, if_pos (by omega)]
    rfl

/-- An address space with one table of each level, at the pages 1 to 4. -/
def onePath (flags : ℕ) (pmm : Pmm.State) : State where
  mem q i := if i.val = 0 ∧ 0 < q ∧ q < 0x4000 then (q + 0x1000) ||| flags else 0
  pmm := pmm
  refreed := 0

def onePage : Pmm.State := ⟨fun b ↦ if b = 0 then 0xDF else 0xFF, 8, 1, 0x8000, true⟩

variable {pmm : Pmm.State}

section

variable (hf : flags < 128)
include hf

theorem onePath_child {n q c : ℕ} {i : Fin 512} (hq : q % 4096 = 0)
    (h : childOf n ((onePath flags pmm).mem q i) = some c) :
    i.val = 0 ∧ q < 0x4000 ∧ c = q + 0x1000 := by
  obtain ⟨hp, -, -, rfl⟩ := childOf_eq_some h
  by_cases hi : i.val = 0 ∧ 0 < q ∧ q < 0x4000
  · refine ⟨hi.1, hi.2.2, ?_⟩
    simp only [onePath, if_pos hi, tableAddr]
    rw [aligned_or (by omega) (by omega)]
    omega
  · simp only [onePath, if_neg hi] at hp
    cases hp

theorem onePath_pages {n q r : ℕ} (hq : q % 4096 = 0) (hle : q ≤ 0x4000)
    (hr : r ∈ Radix.Pages childOf (onePath flags pmm).mem n q) :
    q ≤ r ∧ r ≤ 0x4000 ∧ r % 4096 = 0 := by
  induction n generalizing q with
  | zero => exact hr.elim
  | succ n ih =>
    rcases hr with rfl | ⟨i, c, hc, hr⟩
    · exact ⟨le_rfl, hle, hq⟩
    obtain ⟨-, hlt, rfl⟩ := onePath_child hf hq hc
    have := ih (by omega) (by omega) hr
    omega

theorem onePath_tree {n q : ℕ} (hq : q % 4096 = 0) (hle : q ≤ 0x4000) :
    Radix.Tree childOf (onePath flags pmm).mem n q := by
  induction n generalizing q with
  | zero => trivial
  | succ n ih =>
    intro i c hc
    obtain ⟨hi, hlt, rfl⟩ := onePath_child hf hq hc
    refine ⟨ih (by omega) (by omega), ?_, ?_⟩
    · intro hmem
      have := onePath_pages hf (by omega) (by omega) hmem
      omega
    intro j c' hc' hj
    obtain ⟨hj', -, -⟩ := onePath_child hf hq hc'
    exact absurd (Fin.ext (hj'.trans hi.symm)) hj

theorem onePath_space (hused : ∀ b, 1 ≤ b → b ≤ 4 → pmmIsPageFree pmm (b * 4096) = false) :
    Space (onePath flags pmm) 0x1000 := by
  refine ⟨onePath_tree hf (by decide) (by decide), ?_, ?_⟩
  · intro q hq
    have := onePath_pages hf (by decide) (by decide) hq
    exact ⟨by omega, by omega⟩
  intro q hq hfree
  obtain ⟨h1, h2, h3⟩ := onePath_pages hf (by decide) (by decide) hq
  have hb := hused (q / 4096) (by omega) (by omega)
  rw [show q / 4096 * 4096 = q by omega] at hb
  exact absurd (hfree.symm.trans hb) (by decide)

end

theorem onePage_space : Space (onePath tableFlags onePage) 0x1000 := by
  apply onePath_space (by decide)
  intro b h1 h4
  interval_cases b <;> decide

theorem onePage_ok : Ok (onePath tableFlags onePage) := ⟨by decide, by decide⟩

theorem map_exact_onePage :
    (mapPageRoot 0x1000 0x200000 0x6000 7 (onePath tableFlags onePage)).1 = 0 ∧
      virtToPhysRoot 0x1000 (0x200000 + 5)
        (mapPageRoot 0x1000 0x200000 0x6000 7 (onePath tableFlags onePage)).2 = 0x6000 + 5 := by
  have h0 : (mapPageRoot 0x1000 0x200000 0x6000 7 (onePath tableFlags onePage)).1 = 0 := by
    decide +kernel
  have hexact := (map_unmap_exact onePage_space onePage_ok (.inl (by decide))).2.1 h0 (by decide)
    (.inl (by decide))
  exact ⟨h0, hexact.2 (by decide) 5 (by decide)⟩

/-- The reader of the tables does not mask the NX bit. -/
theorem map_nx_translates_high :
    Space (onePath tableFlags onePage) 0x1000 ∧ Ok (onePath tableFlags onePage) ∧
    Canonical 0x200000 ∧
    (mapPageRoot 0x1000 0x200000 0x6000 (pteNx + 5) (onePath tableFlags onePage)).1 = 0 ∧
    virtToPhysRoot 0x1000 0x200000
      (mapPageRoot 0x1000 0x200000 0x6000 (pteNx + 5) (onePath tableFlags onePage)).2 =
      pteNx + 0x6000 :=
  ⟨onePage_space, onePage_ok, .inl (by decide), by decide +kernel, by decide +kernel⟩

end Exact

end NexusOS.Mm.Paging
