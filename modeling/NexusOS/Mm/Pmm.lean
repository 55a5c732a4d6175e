import NexusOS.Lib.Bitmap
import Mathlib.Data.Finset.Card
import Mathlib.Data.Finset.Range
import Mathlib.Tactic

namespace NexusOS.Mm.Pmm

open Lib

/-- `PMM_MAX_PHYS`: the bitmap represents the first 64 GiB. -/
def pmmMaxPhys : ℕ := 64 * 1024 * 1024 * 1024

def pmmMaxPages : ℕ := pmmMaxPhys / 4096

/-- The fields of an EFI memory descriptor that the kernel reads. -/
structure EfiMmapEntry where
  type : ℕ
  physicalStart : ℕ
  numberOfPages : ℕ
  physicalStart_lt : physicalStart < 2 ^ 64
  numberOfPages_lt : numberOfPages < 2 ^ 64

def memConventional : ℕ := 7

def sizeofMmapEntry : ℕ := 40

def sizeofBootInfo : ℕ := 368

/-- The boot contract as the kernel reads it: `base` is the address of the structure itself and
`entry i` the descriptor found at `mapBase + i * descriptorSize`. -/
structure BootInfo where
  base : ℕ
  fbBase : ℕ
  fbSize : ℕ
  mapBase : ℕ
  mapSize : ℕ
  descriptorSize : ℕ
  kernelPhysBase : ℕ
  kernelPhysEnd : ℕ
  entry : ℕ → EfiMmapEntry

structure State where
  bitmap : Bitmap
  totalPages : ℕ
  freePages : ℕ
  maxPhysicalAddress : ℕ
  ready : Bool

def alignDown (value : ℕ) : ℕ := value - value % 4096

def alignUp (value : ℕ) : ℕ :=
  if value > 2 ^ 64 - 1 - 4095 then alignDown (2 ^ 64 - 1) else alignDown (value + 4095)

theorem alignDown_mod (v : ℕ) : alignDown v % 4096 = 0 := by unfold alignDown; omega

theorem alignDown_le (v : ℕ) : alignDown v ≤ v := by unfold alignDown; omega

theorem lt_alignDown (v : ℕ) : v < alignDown v + 4096 := by
  have h : alignDown v = v - v % 4096 := rfl
  omega

theorem alignUp_mod (v : ℕ) : alignUp v % 4096 = 0 := by
  unfold alignUp
  split <;> exact alignDown_mod _

theorem le_alignUp {v : ℕ} (h : v ≤ 2 ^ 64 - 1 - 4095) : v ≤ alignUp v := by
  have hlt := lt_alignDown (v + 4095)
  simp only [alignUp, if_neg (show ¬ v > 2 ^ 64 - 1 - 4095 by omega)]
  omega

theorem min_le_alignUp (v : ℕ) : min v pmmMaxPhys ≤ alignUp v := by
  by_cases h : v ≤ 2 ^ 64 - 1 - 4095
  · exact (min_le_left _ _).trans (le_alignUp h)
  rw [alignUp, if_pos (by omega)]
  have := lt_alignDown (2 ^ 64 - 1)
  unfold pmmMaxPhys
  omega

def reservePage (s : State) (page : ℕ) : State :=
  if s.bitmap.test page then s
  else { s with bitmap := s.bitmap.set page, freePages := s.freePages - 1 }

def releasePage (s : State) (page : ℕ) : State :=
  if s.bitmap.test page then
    { s with bitmap := s.bitmap.clear page, freePages := s.freePages + 1 }
  else s

/-- The loop `for (addr = start; addr < end; addr += PAGE_SIZE)` shared by the two range
functions, left at the first page the bitmap does not represent. -/
def pageLoop (body : State → ℕ → State) (addr stop : ℕ) (s : State) : State :=
  if addr < stop then
    if addr / 4096 ≥ pmmMaxPages then s
    else pageLoop body (addr + 4096) stop (body s (addr / 4096))
  else s
termination_by stop - addr
decreasing_by omega

theorem pageLoop_frame {α : Type*} {body : State → ℕ → State} {f : State → α}
    (hbody : ∀ s q, f (body s q) = f s) (addr stop : ℕ) (s : State) :
    f (pageLoop body addr stop s) = f s := by
  fun_induction pageLoop body addr stop s with
  | case1 => rfl
  | case2 addr s hlt hmax ih => exact ih.trans (hbody s _)
  | case3 => rfl

theorem pageLoop_test {body : State → ℕ → State} {v : Bool}
    (hbody : ∀ s q p, (body s q).bitmap.test p = if p = q then v else s.bitmap.test p)
    (addr stop : ℕ) (s : State) (haddr : addr % 4096 = 0) (p : ℕ) :
    (pageLoop body addr stop s).bitmap.test p =
      if addr ≤ p * 4096 ∧ p * 4096 < stop ∧ p < pmmMaxPages then v else s.bitmap.test p := by
  fun_induction pageLoop body addr stop s with
  | case1 addr s hlt hmax =>
    rw [if_neg]
    rintro ⟨ha, -, hp⟩
    omega
  | case2 addr s hlt hmax ih =>
    rw [ih (by omega), hbody]
    by_cases hp : p = addr / 4096
    · subst hp
      have hpage : addr / 4096 * 4096 = addr := by omega
      rw [hpage, if_neg (by omega), if_pos rfl, if_pos (by omega)]
    rw [if_neg hp]
    have hiff : (addr + 4096 ≤ p * 4096 ∧ p * 4096 < stop ∧ p < pmmMaxPages) ↔
        (addr ≤ p * 4096 ∧ p * 4096 < stop ∧ p < pmmMaxPages) := by omega
    simp only [hiff]
  | case3 addr s hlt =>
    rw [if_neg]
    omega

theorem reservePage_test (s : State) (q p : ℕ) :
    (reservePage s q).bitmap.test p = if p = q then true else s.bitmap.test p := by
  unfold reservePage
  split
  · next h => split <;> simp_all
  · by_cases hp : p = q <;> simp [hp]

theorem releasePage_test (s : State) (q p : ℕ) :
    (releasePage s q).bitmap.test p = if p = q then false else s.bitmap.test p := by
  unfold releasePage
  split
  · by_cases hp : p = q <;> simp [hp]
  · next h => split <;> simp_all

def reserveRange (s : State) (start stop : ℕ) : State :=
  if stop ≤ start ∨ s.maxPhysicalAddress = 0 then s
  else if alignDown start ≥ s.maxPhysicalAddress then s
  else pageLoop reservePage (alignDown start) (min (alignUp stop) s.maxPhysicalAddress) s

def releaseRange (s : State) (start stop : ℕ) : State :=
  if stop ≤ start ∨ s.maxPhysicalAddress = 0 then s
  else if alignUp start ≥ s.maxPhysicalAddress then s
  else pageLoop releasePage (alignUp start) (min (alignDown stop) s.maxPhysicalAddress) s

/-- The byte length of a descriptor, saturated as both passes of `pmm_init` saturate it. -/
def descriptorBytes (e : EfiMmapEntry) : ℕ :=
  if e.numberOfPages > (2 ^ 64 - 1) / 4096 then 2 ^ 64 - 1 else e.numberOfPages * 4096 % 2 ^ 64

def considerMax (maxPhys : ℕ) (e : EfiMmapEntry) : ℕ :=
  if e.numberOfPages = 0 then maxPhys
  else if e.physicalStart ≥ pmmMaxPhys then maxPhys
  else
    let sum := (e.physicalStart + descriptorBytes e) % 2 ^ 64
    let stop := if sum < e.physicalStart ∨ sum > pmmMaxPhys then pmmMaxPhys else sum
    if stop > maxPhys then stop else maxPhys

/-- The body of the second pass: only conventional memory is released. -/
def releaseEntry (s : State) (e : EfiMmapEntry) : State :=
  if e.type ≠ memConventional then s
  else
    let sum := (e.physicalStart + descriptorBytes e) % 2 ^ 64
    releaseRange s e.physicalStart (if sum < e.physicalStart then 2 ^ 64 - 1 else sum)

def BootInfo.count (bi : BootInfo) : ℕ := bi.mapSize / bi.descriptorSize

def BootInfo.entries (bi : BootInfo) : List EfiMmapEntry := (List.range bi.count).map bi.entry

/-- The guard of `pmm_init`: boot information that passes it is accepted. -/
def BootInfo.Accepted (bi : BootInfo) : Prop :=
  bi.mapBase ≠ 0 ∧ bi.mapSize ≠ 0 ∧ sizeofMmapEntry ≤ bi.descriptorSize

instance (bi : BootInfo) : Decidable bi.Accepted := by unfold BootInfo.Accepted; infer_instance

def reserveKernel (bi : BootInfo) (s : State) : State :=
  if bi.kernelPhysEnd > bi.kernelPhysBase then reserveRange s bi.kernelPhysBase bi.kernelPhysEnd
  else s

def reserveFramebuffer (bi : BootInfo) (s : State) : State :=
  if bi.fbBase ≠ 0 ∧ bi.fbSize ≠ 0 then
    reserveRange s bi.fbBase ((bi.fbBase + bi.fbSize) % 2 ^ 64)
  else s

def clearPages (s : State) : Finset ℕ :=
  (Finset.range s.totalPages).filter (fun p ↦ s.bitmap.test p = false)

def emptyState : State where
  bitmap := fun _ ↦ 0xFF#8
  totalPages := 0
  freePages := 0
  maxPhysicalAddress := 0
  ready := false

def countClear (b : Bitmap) (pages : List ℕ) : ℕ :=
  pages.foldl (fun n page ↦ if b.test page then n else n + 1) 0

def recount (s : State) : State :=
  { s with freePages := countClear s.bitmap (List.range s.totalPages) }

/-- The state after the first pass: the representable range is known, every page is used. -/
def measured (bi : BootInfo) : State :=
  let maxPhys := bi.entries.foldl considerMax 0
  { emptyState with
    maxPhysicalAddress := maxPhys
    totalPages := min (maxPhys / 4096) pmmMaxPages }

def reserveAll (bi : BootInfo) (s : State) : State :=
  let s := reserveRange s 0 0x200000
  let s := reserveKernel bi s
  let s := reserveRange s bi.base ((bi.base + sizeofBootInfo) % 2 ^ 64)
  let s := reserveRange s bi.mapBase ((bi.mapBase + bi.mapSize) % 2 ^ 64)
  reserveFramebuffer bi s

/-- `pmm_init`; `none` is the null pointer. -/
def pmmInit : Option BootInfo → State
  | none => emptyState
  | some bi =>
    if bi.Accepted then
      { recount (reserveAll bi (bi.entries.foldl releaseEntry (measured bi))) with ready := true }
    else emptyState

def pmmAllocPage (s : State) : ℕ × State :=
  if s.ready then
    match (List.range s.totalPages).find? (fun page ↦ !s.bitmap.test page) with
    | some page =>
      (page * 4096, { s with bitmap := s.bitmap.set page, freePages := s.freePages - 1 })
    | none => (0, s)
  else (0, s)

def pmmFreePage (s : State) (physicalAddress : ℕ) : State :=
  if !s.ready ∨ physicalAddress % 4096 ≠ 0 then s
  else
    let page := physicalAddress / 4096
    if page ≥ s.totalPages ∨ page ≥ pmmMaxPages then s
    else if s.bitmap.test page then
      { s with bitmap := s.bitmap.clear page, freePages := s.freePages + 1 }
    else s

def pmmIsPageFree (s : State) (physicalAddress : ℕ) : Bool :=
  if !s.ready ∨ physicalAddress % 4096 ≠ 0 then false
  else
    let page := physicalAddress / 4096
    if page ≥ s.totalPages ∨ page ≥ pmmMaxPages then false else !s.bitmap.test page

end NexusOS.Mm.Pmm
