import NexusOS.Core.MachineSteps
import NexusOS.Core.SyscallLeak
import NexusOS.Core.UserRecords
import NexusOS.Fs.VfsRun

namespace NexusOS.Core

open Fs Lib Sched

variable {V F : Type*} {m : Memory V} {k k' : Kernel V} {i : Fin 8} {pid n flags stop : ℕ}
  {pages pages' : List UserPage} {kept : ℕ → Prop}

section Slot

def vas (p : Process) : List ℕ := p.userPages.map UserPage.va

/-- Slot `i` has a new heap end and the pages `kept` recorded; nothing else that the calls on memory
look at is different. -/
structure Moved (k k' : Kernel V) (i : Fin 8) (stop : ℕ) (kept : ℕ → Prop) : Prop where
  get : ∀ pid, processGet k pid = some i → processGet k' pid = some i
  pid : (k'.processes i).pid = (k.processes i).pid
  heapBase : (k'.processes i).heapBase = (k.processes i).heapBase
  heapEnd : (k'.processes i).heapEnd = stop
  records : Recorded (k'.processes i).userPages
  vas_iff : ∀ va, va ∈ vas (k'.processes i) ↔ kept va

theorem Regrown.moved (h : Regrown k k' i pages) (hrec : Recorded pages)
    (hkept : ∀ va, va ∈ pages.map UserPage.va ↔ kept va) :
    Moved k k' i (k.processes i).heapEnd kept := by
  obtain ⟨flags, hslot⟩ := h.slot
  refine ⟨fun pid hi ↦ h.get hi, ?_, ?_, h.heapEnd, ?_, ?_⟩
  · rw [hslot]
  · rw [hslot]
  · rw [h.records]
    exact hrec
  intro va
  rw [vas, h.records]
  exact hkept va

theorem Moved.refl (hrec : Recorded (k.processes i).userPages) :
    Moved k k i (k.processes i).heapEnd (· ∈ vas (k.processes i)) :=
  ⟨fun _ h ↦ h, rfl, rfl, rfl, hrec, fun _ ↦ Iff.rfl⟩

theorem Moved.setHeapEnd (h : Moved k k' i stop kept) (stop' : ℕ) :
    Moved k (setHeapEnd k' i stop') i stop' kept := by
  have hslot : (Core.setHeapEnd k' i stop').processes i =
      { k'.processes i with heapEnd := stop' } := by
    rw [Core.setHeapEnd, setProcess_processes, if_pos rfl]
  have hsame : ∀ j, ((Core.setHeapEnd k' i stop').processes j).state = (k'.processes j).state ∧
      ((Core.setHeapEnd k' i stop').processes j).pid = (k'.processes j).pid := by
    intro j
    by_cases hj : j = i
    · rw [hj, hslot]
      exact ⟨rfl, rfl⟩
    rw [Core.setHeapEnd, setProcess_processes, if_neg hj]
    exact ⟨rfl, rfl⟩
  have hready : (Core.setHeapEnd k' i stop').processReady = k'.processReady := rfl
  refine ⟨fun pid hi ↦ (processGet_congr hready hsame pid).trans (h.get pid hi), ?_, ?_, ?_, ?_, ?_⟩
  · rw [hslot]
    exact h.pid
  · rw [hslot]
    exact h.heapBase
  · rw [hslot]
  · rw [hslot]
    exact h.records
  rw [hslot]
  exact h.vas_iff

theorem processUnmapUserRange_regrown (hi : processGet k pid = some i) (base size : ℕ) :
    Regrown k (processUnmapUserRange m k pid base size).2 i
      ((processUnmapUserRange m k pid base size).2.processes i).userPages := by
  unfold processUnmapUserRange
  rw [hi]
  dsimp only
  split_ifs
  · exact Regrown.same k i k.vm
  · exact ⟨fun j hj ↦ by simp [hj], ⟨(k.processes i).flags, by simp⟩, rfl⟩

theorem processUnmapUserRange_moved (hi : processGet k pid = some i)
    (hrec : Recorded (k.processes i).userPages) {base size : ℕ} (h : RangeOk base size) :
    (processUnmapUserRange m k pid base size).1 = true ∧
      Moved k (processUnmapUserRange m k pid base size).2 i (k.processes i).heapEnd fun va ↦
        va ∈ vas (k.processes i) ∧ ¬ (base ≤ va ∧ va < (base + size) % 2 ^ 64) := by
  obtain ⟨htrue, hperm, -⟩ := processUnmapUserRange_records (m := m) hi base size h
  refine ⟨htrue, (processUnmapUserRange_regrown hi base size).moved
    (processUnmapUserRange_recorded hi hrec base size) fun va ↦ ?_⟩
  rw [(hperm.map UserPage.va).mem_iff, List.mem_map]
  simp only [List.mem_filter, decide_eq_true_eq, vas, List.mem_map]
  constructor
  · rintro ⟨u, ⟨hu, hout⟩, rfl⟩
    exact ⟨⟨u, hu, rfl⟩, hout⟩
  rintro ⟨⟨u, hu, rfl⟩, hout⟩
  exact ⟨u, ⟨hu, hout⟩, rfl⟩

def pagesFrom (base n : ℕ) : List ℕ := (List.range n).map fun l ↦ base + l * 4096

theorem mem_pagesFrom {base va : ℕ} : va ∈ pagesFrom base n ↔ ∃ l < n, va = base + l * 4096 := by
  simp [pagesFrom, eq_comm]

theorem pagesFrom_aligned {base va : ℕ} (hbase : base % 4096 = 0) (hva : va ∈ pagesFrom base n) :
    va % 4096 = 0 := by
  obtain ⟨l, -, rfl⟩ := mem_pagesFrom.1 hva
  omega

theorem mem_pagesFrom_of_lt {base va : ℕ} (hbase : base % 4096 = 0) (hva : va % 4096 = 0)
    (hle : base ≤ va) (hlt : va < base + n * 4096) : va ∈ pagesFrom base n :=
  mem_pagesFrom.2 ⟨(va - base) / 4096, by omega, by omega⟩

theorem processAllocUserRange_failed (hi : processGet k pid = some i)
    (hrec : Recorded (k.processes i).userPages)
    (hfail : (processAllocUserRange m k pid n flags).1 = 0) :
    Moved k (processAllocUserRange m k pid n flags).2 i (k.processes i).heapEnd
      (· ∈ vas (k.processes i)) := by
  have hrec' : Recorded ((processAllocUserRange m k pid n flags).2.processes i).userPages :=
    (processAllocUserRange_records hi hrec).1
  have hperm := ((processAllocUserRange_records hi hrec).2 hfail).1
  have hbase := (heapStart_inside (k.processes i)).1
  obtain ⟨hok, herr⟩ := mapPages_records (m := m) hi hrec (heapStart (k.processes i)) flags n 0
  have hregrown : Regrown k (processAllocUserRange m k pid n flags).2 i
      ((processAllocUserRange m k pid n flags).2.processes i).userPages := by
    clear hperm hrec'
    unfold processAllocUserRange at hfail ⊢
    rw [hi] at hfail ⊢
    dsimp only at hfail ⊢
    split_ifs at hfail ⊢
    · exact Regrown.same k i k.vm
    · exact Regrown.same k i k.vm
    · exact Regrown.same k i k.vm
    cases hmap : mapPages m pid (heapStart (k.processes i)) flags n 0 k with
    | ok k' =>
      rw [hmap] at hfail
      dsimp only at hfail
      rw [hfail] at hbase
      exact absurd hbase (by decide)
    | error e =>
      obtain ⟨l, k'⟩ := e
      obtain ⟨new, -, -, hgrown, -, -⟩ := herr l k' hmap
      exact hgrown.trans (processUnmapUserRange_regrown (hgrown.get hi) _ _)
  exact hregrown.moved hrec' fun va ↦ (hperm.map UserPage.va).mem_iff

theorem processAllocUserRange_moved (hi : processGet k pid = some i)
    (hrec : Recorded (k.processes i).userPages)
    (hok : (processAllocUserRange m k pid n flags).1 ≠ 0) :
    let start := heapStart (k.processes i)
    (processAllocUserRange m k pid n flags).1 = start ∧ n ≤ 16 ∧ start + n * 4096 ≤ processUserLimit ∧
      Moved k (processAllocUserRange m k pid n flags).2 i (start + n * 4096) fun va ↦
        va ∈ vas (k.processes i) ∨ va ∈ pagesFrom start n := by
  intro start
  obtain ⟨hmapped, -⟩ := mapPages_records (m := m) hi hrec start flags n 0
  have hlimit := (heapStart_inside (k.processes i)).2
  unfold processAllocUserRange at hok ⊢
  rw [hi] at hok ⊢
  dsimp only at hok ⊢
  split_ifs at hok ⊢ with hguard hcount hbytes
  · exact absurd rfl hok
  · exact absurd rfl hok
  · exact absurd rfl hok
  cases hmap : mapPages m pid start flags n 0 k with
  | error e => rw [hmap] at hok; exact absurd rfl hok
  | ok k' =>
    obtain ⟨new, hgrown, hnew, hvas⟩ := hmapped k' hmap
    have hlen : new.length = n := by
      rw [← List.length_map UserPage.va, hvas, pageRange, List.length_map, List.length_range']
    have hn : n ≤ 16 := by
      have htotal := hnew.count
      rw [List.length_append, hlen] at htotal
      have hmax : processUserMaxPages = 16 := rfl
      omega
    have hfits : start + n * 4096 ≤ processUserLimit := by
      have hle := (not_or.1 hbytes).2
      change ¬ (processUserLimit + 2 ^ 64 - n * 4096 % 2 ^ 64) % 2 ^ 64 < start at hle
      unfold processUserLimit at hle ⊢
      omega
    have hstop : (start + n * 4096 % 2 ^ 64) % 2 ^ 64 = start + n * 4096 := by
      unfold processUserLimit at hfits
      omega
    have hkept : ∀ va, va ∈ ((k.processes i).userPages ++ new).map UserPage.va ↔
        va ∈ vas (k.processes i) ∨ va ∈ pagesFrom start n := by
      intro va
      rw [List.map_append, List.mem_append, hvas, mem_pageRange, mem_pagesFrom, vas]
      unfold processUserLimit at hfits
      omega
    refine ⟨rfl, hn, hfits, ?_⟩
    dsimp only
    rw [hstop]
    exact (hgrown.moved hnew hkept).setHeapEnd (start + n * 4096)

end Slot

section Calls

variable {m : Hardware V} {fat : Fat F} {g : Garbage} {s : Machine V F} {a0 a1 : ℕ}

/-- A process whose heap is as `process_create` and the calls on memory leave it. -/
structure HeapOk (s : Machine V F) (i : Fin 8) : Prop where
  get : processGet s.kernel (s.kernel.processes i).pid = some i
  records : Recorded (s.kernel.processes i).userPages
  base : (s.kernel.processes i).heapBase = 0x10000000
  above : 0x10000000 ≤ (s.kernel.processes i).heapEnd
  below : (s.kernel.processes i).heapEnd ≤ processUserLimit
  aligned : (s.kernel.processes i).heapEnd % 4096 = 0

theorem HeapOk.moved {k' : Kernel V} (h : HeapOk s i) (hm : Moved s.kernel k' i stop kept)
    (habove : 0x10000000 ≤ stop) (hbelow : stop ≤ processUserLimit) (haligned : stop % 4096 = 0) :
    HeapOk (s.setKernel k') i := by
  refine ⟨?_, hm.records, hm.heapBase.trans h.base, ?_, ?_, ?_⟩
  · rw [Machine.setKernel_kernel, hm.pid]
    exact hm.get _ h.get
  · rw [Machine.setKernel_kernel, hm.heapEnd]
    exact habove
  · rw [Machine.setKernel_kernel, hm.heapEnd]
    exact hbelow
  rw [Machine.setKernel_kernel, hm.heapEnd]
  exact haligned

theorem heapStart_eq (h : HeapOk s i) (hlt : (s.kernel.processes i).heapEnd < processUserLimit) :
    heapStart (s.kernel.processes i) = (s.kernel.processes i).heapEnd := by
  have habove := h.above
  refine if_neg (not_or.2 ⟨?_, by omega⟩)
  unfold processUserBase
  omega

inductive BrkEffect (s : Machine V F) (i : Fin 8) (a0 : ℕ) : ℕ × Machine V F → Prop
  | failed {k' : Kernel V} (hnot : processHasCapability s.kernel (s.kernel.processes i).pid
        capMemory = true → 0x10000000 ≤ a0 → (s.kernel.processes i).heapEnd ≤ a0)
      (h : Moved s.kernel k' i (s.kernel.processes i).heapEnd (· ∈ vas (s.kernel.processes i))) :
      BrkEffect s i a0 (failed, s.setKernel k')
  | stays (h : a0 = 0 ∨ a0 = (s.kernel.processes i).heapEnd) :
      BrkEffect s i a0 ((s.kernel.processes i).heapEnd, s)
  | grows {k' : Kernel V} (n : ℕ) (hlt : (s.kernel.processes i).heapEnd < a0)
      (hreach : a0 ≤ (s.kernel.processes i).heapEnd + n * 4096)
      (hlimit : (s.kernel.processes i).heapEnd + n * 4096 ≤ processUserLimit)
      (h : Moved s.kernel k' i ((s.kernel.processes i).heapEnd + n * 4096) fun va ↦
        va ∈ vas (s.kernel.processes i) ∨ va ∈ pagesFrom (s.kernel.processes i).heapEnd n) :
      BrkEffect s i a0 ((s.kernel.processes i).heapEnd + n * 4096, s.setKernel k')
  | shrinks {k' : Kernel V} (stop : ℕ) (hcap : processHasCapability s.kernel
        (s.kernel.processes i).pid capMemory = true) (hle : stop ≤ a0) (hgt : a0 < stop + 4096)
      (haligned : stop % 4096 = 0) (hbase : 0x10000000 ≤ a0)
      (hlt : a0 < (s.kernel.processes i).heapEnd)
      (h : Moved s.kernel k' i stop fun va ↦ va ∈ vas (s.kernel.processes i) ∧
        ¬ (stop ≤ va ∧ va < (s.kernel.processes i).heapEnd)) :
      BrkEffect s i a0 (stop, s.setKernel k')

theorem cut_range {stop a0 : ℕ} (hstop : stop ≤ processUserLimit) (haligned : stop % 4096 = 0)
    (hbase : 0x10000000 ≤ a0) (hlt : a0 < stop) :
    let cut := (stop - a0 + 4095) % 2 ^ 64 / 4096
    let base := (stop + 2 ^ 64 - cut * 4096) % 2 ^ 64
    base = a0 / 4096 * 4096 ∧ RangeOk base (cut * 4096 % 2 ^ 64) ∧
      (base + cut * 4096 % 2 ^ 64) % 2 ^ 64 = stop := by
  unfold processUserLimit at hstop
  dsimp only
  have hcut : (stop - a0 + 4095) % 2 ^ 64 / 4096 = stop / 4096 - a0 / 4096 := by omega
  rw [hcut]
  have hdown : (stop + 2 ^ 64 - (stop / 4096 - a0 / 4096) * 4096) % 2 ^ 64 = a0 / 4096 * 4096 := by
    omega
  have hsize : (stop / 4096 - a0 / 4096) * 4096 % 2 ^ 64 = stop - a0 / 4096 * 4096 := by omega
  rw [hdown, hsize]
  clear hcut hdown hsize
  have hlt : a0 / 4096 * 4096 < stop := by omega
  have hsum : (a0 / 4096 * 4096 + (stop - a0 / 4096 * 4096)) % 2 ^ 64 = stop := by
    rw [Nat.add_sub_cancel' hlt.le]
    exact Nat.mod_eq_of_lt (by omega)
  refine ⟨rfl, ⟨Nat.sub_ne_zero_of_lt hlt, Nat.mul_mod_left _ _, ?_, ?_⟩, hsum⟩
  · exact (Nat.dvd_sub (Nat.dvd_of_mod_eq_zero haligned) (Nat.dvd_mul_left _ _)).modEq_zero_nat
  rw [hsum]
  exact hlt.le

theorem sysBrk_effect (m : Hardware V) (h : HeapOk s i) (a0 : ℕ) :
    BrkEffect s i a0 (sysBrk m s (s.kernel.processes i).pid i a0) := by
  have hbase := h.base
  have habove := h.above
  have hbelow := h.below
  have haligned := h.aligned
  unfold sysBrk
  dsimp only
  split_ifs with hcap hzero hrange hgrow hfail hshrink hcut
  · refine .failed (fun hhas ↦ ?_) (Moved.refl h.records)
    rw [hhas] at hcap
    exact absurd hcap (by decide)
  · exact .stays (.inl hzero)
  · exact .failed (by omega) (Moved.refl h.records)
  · by_cases hnull : (processAllocUserRange m.toMemory s.kernel (s.kernel.processes i).pid
        ((a0 - (s.kernel.processes i).heapEnd + 4095) / 4096) (pageWritable ||| pageNx)).1 = 0
    · exact .failed (fun _ _ ↦ hgrow.le) (processAllocUserRange_failed h.get h.records hnull)
    · have hstart := (processAllocUserRange_moved h.get h.records hnull).1
      rw [heapStart_eq h (by omega)] at hstart
      exact absurd hstart (hfail.resolve_left hnull)
  · obtain ⟨hstart, -, hlimit, hmoved⟩ :=
      processAllocUserRange_moved h.get h.records (not_or.1 hfail).1
    rw [heapStart_eq h (by omega)] at hlimit hmoved
    have hstop : ((s.kernel.processes i).heapEnd +
        (a0 - (s.kernel.processes i).heapEnd + 4095) / 4096 * 4096) % 2 ^ 64 =
        (s.kernel.processes i).heapEnd +
          (a0 - (s.kernel.processes i).heapEnd + 4095) / 4096 * 4096 := by
      unfold processUserLimit at hlimit
      omega
    rw [hstop]
    exact .grows _ hgrow (by omega) hlimit (hmoved.setHeapEnd _)
  · obtain ⟨-, hok, -⟩ := cut_range hbelow haligned (by omega) hshrink
    have htrue := (processUnmapUserRange_moved (m := m.toMemory) h.get h.records hok).1
    rw [htrue] at hcut
    exact absurd hcut (by decide)
  · obtain ⟨hdown, hok, hstop⟩ := cut_range hbelow haligned (by omega) hshrink
    obtain ⟨-, hmoved⟩ := processUnmapUserRange_moved (m := m.toMemory) h.get h.records hok
    rw [hstop] at hmoved
    rw [hdown] at hmoved ⊢
    exact .shrinks _ (by simpa using hcap) (by omega) (by omega) (by omega) (by omega) hshrink
      (hmoved.setHeapEnd _)
  · exact .stays (.inr (by omega))

inductive MmapEffect (s : Machine V F) (i : Fin 8) (len : ℕ) : ℕ × Machine V F → Prop
  | failed {k' : Kernel V} (answer : ℕ) (hanswer : answer = 0 ∨ answer = failed)
      (h : Moved s.kernel k' i (s.kernel.processes i).heapEnd (· ∈ vas (s.kernel.processes i))) :
      MmapEffect s i len (answer, s.setKernel k')
  | maps {k' : Kernel V} (start : ℕ) (habove : 0x10000000 ≤ start) (haligned : start % 4096 = 0)
      (hlimit : start + (len + 4095) / 4096 * 4096 ≤ processUserLimit)
      (hstart : start = (s.kernel.processes i).heapEnd ∨
        start + (len + 4095) / 4096 * 4096 ≤ (s.kernel.processes i).heapEnd)
      (h : Moved s.kernel k' i (start + (len + 4095) / 4096 * 4096) fun va ↦
        va ∈ vas (s.kernel.processes i) ∨ va ∈ pagesFrom start ((len + 4095) / 4096)) :
      MmapEffect s i len (start, s.setKernel k')

theorem sysMmap_effect (m : Hardware V) (h : HeapOk s i) {len : ℕ} (hlen : len < 2 ^ 64) :
    MmapEffect s i len (sysMmap m s (s.kernel.processes i).pid len) := by
  have habove := h.above
  have hbelow := h.below
  have haligned := h.aligned
  unfold sysMmap
  dsimp only
  split_ifs with hbad
  · exact .failed _ (.inr rfl) (Moved.refl h.records)
  have hpages : (len + 4095) % 2 ^ 64 / 4096 = (len + 4095) / 4096 := by omega
  rw [hpages]
  by_cases hnull : (processAllocUserRange m.toMemory s.kernel (s.kernel.processes i).pid
      ((len + 4095) / 4096) (pageWritable ||| pageNx)).1 = 0
  · exact .failed _ (.inl hnull) (processAllocUserRange_failed h.get h.records hnull)
  · obtain ⟨hstart, hcount, hlimit, hmoved⟩ :=
      processAllocUserRange_moved h.get h.records hnull
    rw [hstart]
    rcases Nat.lt_or_ge (s.kernel.processes i).heapEnd processUserLimit with hlt | hge
    · rw [heapStart_eq h hlt] at hlimit hmoved ⊢
      exact .maps _ habove haligned hlimit (.inl rfl) hmoved
    -- a heap that reached the limit starts again at its base
    have hagain : heapStart (s.kernel.processes i) = 0x10000000 := if_pos (.inr hge)
    rw [hagain] at hlimit hmoved ⊢
    refine .maps _ le_rfl rfl hlimit (.inr ?_) hmoved
    unfold processUserLimit at hge
    omega

inductive MunmapEffect (s : Machine V F) (i : Fin 8) (base size : ℕ) : ℕ × Machine V F → Prop
  | failed : MunmapEffect s i base size (failed, s)
  | unmaps {k' : Kernel V} (h : Moved s.kernel k' i (s.kernel.processes i).heapEnd fun va ↦
      va ∈ vas (s.kernel.processes i) ∧ ¬ (base ≤ va ∧ va < base + size)) :
      MunmapEffect s i base size (0, s.setKernel k')

theorem sysMunmap_effect (m : Hardware V) (h : HeapOk s i) {base size : ℕ}
    (hbase : base < 2 ^ 64) (hsize : size < 2 ^ 64) :
    MunmapEffect s i base size (sysMunmap m s (s.kernel.processes i).pid base size) := by
  unfold sysMunmap answer
  split_ifs with hcap hdone
  · exact .failed
  · by_cases hok : RangeOk base size
    · obtain ⟨-, hmoved⟩ := processUnmapUserRange_moved (m := m.toMemory) h.get h.records hok
      have hstop : (base + size) % 2 ^ 64 = base + size := by
        obtain ⟨-, -, -, hle⟩ := hok
        omega
      rw [hstop] at hmoved
      exact .unmaps hmoved
    · rw [processUnmapUserRange_bad hok] at hdone
      exact absurd hdone Bool.false_ne_true
  by_cases hok : RangeOk base size
  · exact absurd (processUnmapUserRange_moved (m := m.toMemory) h.get h.records hok).1 hdone
  rw [processUnmapUserRange_bad hok]
  exact .failed

end Calls

section Promises

inductive MemCall
  | brk (r : UInt64)
  | mmap (hint len : UInt64)
  | munmap (base size : UInt64)
  deriving DecidableEq

variable (m : Hardware V) (fat : Fat F) (g : Garbage) (i : Fin 8)

def MemCall.run (s : Machine V F) : MemCall → ℕ × Machine V F
  | .brk r => syscall m fat g s i .brk r.toNat 0 0 0
  | .mmap hint len => syscall m fat g s i .mmap hint.toNat len.toNat 0 0
  | .munmap base size => syscall m fat g s i .munmap base.toNat size.toNat 0 0

/-- The pages that a process obtained by each call and has not passed to `MUNMAP` since. -/
structure Held where
  brk : List ℕ
  mmap : List ℕ
  deriving DecidableEq

/-- The pages held after a call that found the heap end at `stop`. -/
def Held.after (h : Held) (stop answer : ℕ) : MemCall → Held
  | .brk _ =>
    if answer ≠ failed ∧ stop < answer then
      { h with brk := h.brk ++ pagesFrom stop ((answer - stop) / 4096) }
    else h
  | .mmap _ len =>
    if answer ≠ 0 ∧ answer ≠ failed then
      { h with mmap := h.mmap ++ pagesFrom answer ((len.toNat + 4095) / 4096) }
    else h
  | .munmap base size =>
    if answer = 0 then
      { brk := h.brk.filter fun va ↦ ¬ (base.toNat ≤ va ∧ va < base.toNat + size.toNat)
        mmap := h.mmap.filter fun va ↦ ¬ (base.toNat ≤ va ∧ va < base.toNat + size.toNat) }
    else h

def memStep (w : Machine V F × Held) (c : MemCall) : Machine V F × Held :=
  let r := c.run m fat g i w.1
  (r.2, w.2.after (w.1.kernel.processes i).heapEnd r.1 c)

structure KeepsPromise (w : Machine V F × Held) (c : MemCall) : Prop where
  brk : ∀ r : UInt64, c = .brk r → r ≠ 0 → (c.run m fat g i w.1).1 ≠ failed →
    r.toNat ≤ (c.run m fat g i w.1).1 ∧ ∀ va ∈ (memStep m fat g i w c).2.brk,
      (w.1.kernel.processes i).heapBase ≤ va → va < r.toNat →
        va ∈ vas ((memStep m fat g i w c).1.kernel.processes i)
  mmap : ∀ va ∈ (memStep m fat g i w c).2.mmap,
    va ∈ vas ((memStep m fat g i w c).1.kernel.processes i)

/-- A `BRK` that shrinks the heap cuts it between pages and above every mapped region. -/
def CutsClean (w : Machine V F × Held) : MemCall → Prop
  | .brk r =>
    processHasCapability w.1.kernel (w.1.kernel.processes i).pid capMemory = true →
      (w.1.kernel.processes i).heapBase ≤ r.toNat → r.toNat < (w.1.kernel.processes i).heapEnd →
        r.toNat % 4096 = 0 ∧ ∀ va ∈ w.2.mmap, r.toNat ≤ va → (w.1.kernel.processes i).heapEnd ≤ va
  | _ => True

instance (w : Machine V F × Held) : (c : MemCall) → Decidable (CutsClean i w c)
  | .brk _ => inferInstanceAs (Decidable (_ → _ → _ → _ ∧ ∀ va ∈ w.2.mmap, _ → _))
  | .mmap _ _ => inferInstanceAs (Decidable True)
  | .munmap _ _ => inferInstanceAs (Decidable True)

/-- Everything held below the heap end, and every mapped region, is recorded. -/
structure Keeping (w : Machine V F × Held) : Prop where
  heap : HeapOk w.1 i
  brk : ∀ va ∈ w.2.brk, va < (w.1.kernel.processes i).heapEnd → va ∈ vas (w.1.kernel.processes i)
  mmap : ∀ va ∈ w.2.mmap, va ∈ vas (w.1.kernel.processes i)
  aligned : ∀ va ∈ w.2.brk, va % 4096 = 0

variable {m fat g i} {w : Machine V F × Held} {held : Held}

theorem HeapOk.keeping {s : Machine V F} (h : HeapOk s i) : Keeping i (s, ⟨[], []⟩) :=
  ⟨h, fun _ hva ↦ absurd hva List.not_mem_nil, fun _ hva ↦ absurd hva List.not_mem_nil,
    fun _ hva ↦ absurd hva List.not_mem_nil⟩

theorem Keeping.moved {k' : Kernel V} (h : Keeping i w) (hm : Moved w.1.kernel k' i stop kept)
    (habove : 0x10000000 ≤ stop) (hbelow : stop ≤ processUserLimit) (haligned : stop % 4096 = 0)
    (hbrk : ∀ va ∈ held.brk, va < stop → kept va) (hmmap : ∀ va ∈ held.mmap, kept va)
    (hpages : ∀ va ∈ held.brk, va % 4096 = 0) : Keeping i (w.1.setKernel k', held) := by
  refine ⟨h.heap.moved hm habove hbelow haligned, fun va hva hlt ↦ ?_, fun va hva ↦ ?_, hpages⟩
  · rw [Machine.setKernel_kernel, hm.heapEnd] at hlt
    exact (hm.vas_iff va).2 (hbrk va hva hlt)
  · exact (hm.vas_iff va).2 (hmmap va hva)

theorem Keeping.same {k' : Kernel V} (h : Keeping i w)
    (hm : Moved w.1.kernel k' i (w.1.kernel.processes i).heapEnd
      (· ∈ vas (w.1.kernel.processes i))) : Keeping i (w.1.setKernel k', w.2) :=
  h.moved hm h.heap.above h.heap.below h.heap.aligned h.brk h.mmap h.aligned

theorem Keeping.below (h : Keeping i w) {va : ℕ} (hva : va ∈ w.2.brk)
    (hlt : va < (w.1.kernel.processes i).heapEnd + n * 4096) :
    va ∈ vas (w.1.kernel.processes i) ∨ va ∈ pagesFrom (w.1.kernel.processes i).heapEnd n := by
  rcases Nat.lt_or_ge va (w.1.kernel.processes i).heapEnd with hold | hnew
  · exact .inl (h.brk va hva hold)
  · exact .inr (mem_pagesFrom_of_lt h.heap.aligned (h.aligned va hva) hnew hlt)

theorem limit_ne_failed {va : ℕ} (h : va ≤ processUserLimit) : va ≠ failed := by
  unfold processUserLimit at h
  unfold failed
  omega

section

variable (h : Keeping i w)
include h

theorem brk_step (r : UInt64) (hclean : CutsClean i w (.brk r)) :
    Keeping i (memStep m fat g i w (.brk r)) ∧
      (r ≠ 0 → (MemCall.run m fat g i w.1 (.brk r)).1 ≠ failed →
        r.toNat ≤ (MemCall.run m fat g i w.1 (.brk r)).1 ∧
          r.toNat ≤ ((memStep m fat g i w (.brk r)).1.kernel.processes i).heapEnd) := by
  have heffect := sysBrk_effect m h.heap r.toNat
  have hrun : MemCall.run m fat g i w.1 (.brk r) =
    sysBrk m w.1 (w.1.kernel.processes i).pid i r.toNat := rfl
  unfold memStep
  rw [hrun]
  generalize sysBrk m w.1 (w.1.kernel.processes i).pid i r.toNat = result at heffect ⊢
  cases heffect with
  | failed hnot hmoved => exact ⟨h.same hmoved, fun _ hok ↦ absurd rfl hok⟩
  | stays hstays =>
    have hheld : w.2.after (w.1.kernel.processes i).heapEnd (w.1.kernel.processes i).heapEnd
        (.brk r) = w.2 := if_neg fun hgrow ↦ lt_irrefl _ hgrow.2
    dsimp only
    rw [hheld]
    refine ⟨h, fun hr _ ↦ ?_⟩
    have hend := hstays.resolve_left fun hzero ↦ hr (UInt64.toNat_inj.1 hzero)
    exact ⟨hend.le, hend.le⟩
  | grows n hlt hreach hlimit hmoved =>
    have hheld : w.2.after (w.1.kernel.processes i).heapEnd
        ((w.1.kernel.processes i).heapEnd + n * 4096) (.brk r) =
        { w.2 with brk := w.2.brk ++ pagesFrom (w.1.kernel.processes i).heapEnd n } := by
      have hcount : ((w.1.kernel.processes i).heapEnd + n * 4096 -
          (w.1.kernel.processes i).heapEnd) / 4096 = n := by omega
      unfold Held.after
      dsimp only
      rw [if_pos ⟨limit_ne_failed hlimit, by omega⟩, hcount]
    have habove := h.heap.above
    have haligned := h.heap.aligned
    dsimp only
    rw [hheld]
    refine ⟨h.moved hmoved (by omega) hlimit (by omega) (fun va hva hbelow ↦ ?_)
      (fun va hva ↦ .inl (h.mmap va hva)) fun va hva ↦ ?_, fun _ _ ↦ ⟨hreach, ?_⟩⟩
    · rcases List.mem_append.1 hva with hold | hnew
      · exact h.below hold hbelow
      · exact .inr hnew
    · rcases List.mem_append.1 hva with hold | hnew
      · exact h.aligned va hold
      · exact pagesFrom_aligned haligned hnew
    · rw [Machine.setKernel_kernel, hmoved.heapEnd]
      exact hreach
  | shrinks stop hcap hle hgt haligned hbase hlt hmoved =>
    obtain ⟨hpage, hregions⟩ := hclean hcap (h.heap.base.trans_le hbase) hlt
    obtain rfl : r.toNat = stop := by omega
    have hheld : w.2.after (w.1.kernel.processes i).heapEnd r.toNat (.brk r) = w.2 :=
      if_neg fun hgrow ↦ absurd hgrow.2 (by omega)
    have hbelow := h.heap.below
    dsimp only
    rw [hheld]
    refine ⟨h.moved hmoved hbase (by omega) haligned (fun va hva hva' ↦ ?_) (fun va hva ↦ ?_)
      h.aligned, fun _ _ ↦ ⟨le_rfl, ?_⟩⟩
    · exact ⟨h.brk va hva (by omega), fun hcut ↦ absurd hcut.1 (by omega)⟩
    · refine ⟨h.mmap va hva, fun hcut ↦ ?_⟩
      exact absurd (hregions va hva hcut.1) (by omega)
    · rw [Machine.setKernel_kernel, hmoved.heapEnd]

theorem cutsClean_of_keeps (r : UInt64)
    (hkeeps : KeepsPromise m fat g i w (.brk r)) : CutsClean i w (.brk r) := by
  intro hcap hbase hlt
  have heffect := sysBrk_effect m h.heap r.toNat
  have hbrk := hkeeps.brk r rfl
  have hmmap := hkeeps.mmap
  have hrun : MemCall.run m fat g i w.1 (.brk r) =
    sysBrk m w.1 (w.1.kernel.processes i).pid i r.toNat := rfl
  rw [h.heap.base] at hbase
  unfold memStep at hbrk hmmap
  rw [hrun] at hbrk hmmap
  generalize sysBrk m w.1 (w.1.kernel.processes i).pid i r.toNat = result
    at heffect hbrk hmmap
  have hr : r ≠ 0 := by
    rintro rfl
    exact absurd hbase (by decide)
  cases heffect with
  | failed hnot hmoved => exact absurd (hnot hcap hbase) (by omega)
  | stays hstays =>
    rcases hstays with hzero | hend
    · exact absurd (UInt64.toNat_inj.1 hzero) hr
    · omega
  | grows n hgrow hreach hlimit hmoved => omega
  | shrinks stop _ hle hgt haligned _ _ hmoved =>
    have hbelow := h.heap.below
    have hreach := (hbrk hr (limit_ne_failed (by omega))).1
    dsimp only at hreach
    obtain rfl : r.toNat = stop := by omega
    refine ⟨haligned, fun va hva hin ↦ ?_⟩
    have hheld : w.2.after (w.1.kernel.processes i).heapEnd r.toNat (.brk r) = w.2 :=
      if_neg fun hgrow ↦ absurd hgrow.2 (by omega)
    dsimp only at hmmap
    rw [hheld] at hmmap
    have hkept := ((hmoved.vas_iff va).1 (hmmap va hva)).2
    omega

theorem mmap_step (hint len : UInt64) : Keeping i (memStep m fat g i w (.mmap hint len)) := by
  have heffect := sysMmap_effect m h.heap len.toNat_lt
  unfold memStep
  change Keeping i ((sysMmap m w.1 (w.1.kernel.processes i).pid len.toNat).2, w.2.after _
    (sysMmap m w.1 (w.1.kernel.processes i).pid len.toNat).1 (.mmap hint len))
  generalize sysMmap m w.1 (w.1.kernel.processes i).pid len.toNat = r at heffect ⊢
  cases heffect with
  | failed answer hanswer hmoved =>
    have hheld : w.2.after (w.1.kernel.processes i).heapEnd answer (.mmap hint len) = w.2 := by
      refine if_neg ?_
      tauto
    rw [hheld]
    exact h.same hmoved
  | maps start habove haligned hlimit hstart hmoved =>
    have hheld : w.2.after (w.1.kernel.processes i).heapEnd start (.mmap hint len) =
        { w.2 with mmap := w.2.mmap ++ pagesFrom start ((len.toNat + 4095) / 4096) } := by
      refine if_pos ⟨by omega, ?_⟩
      unfold failed
      unfold processUserLimit at hlimit
      omega
    rw [hheld]
    refine h.moved hmoved (by omega) hlimit (by omega) (fun va hva hlt ↦ ?_) (fun va hva ↦ ?_)
      h.aligned
    · rcases hstart with rfl | hagain
      · exact h.below hva hlt
      · exact .inl (h.brk va hva (by omega))
    · rcases List.mem_append.1 hva with hold | hnew
      · exact .inl (h.mmap va hold)
      · exact .inr hnew

theorem munmap_step (base size : UInt64) : Keeping i (memStep m fat g i w (.munmap base size)) := by
  have heffect := sysMunmap_effect m h.heap base.toNat_lt size.toNat_lt
  unfold memStep
  change Keeping i ((sysMunmap m w.1 (w.1.kernel.processes i).pid base.toNat size.toNat).2,
    w.2.after _ (sysMunmap m w.1 (w.1.kernel.processes i).pid base.toNat size.toNat).1
      (.munmap base size))
  generalize sysMunmap m w.1 (w.1.kernel.processes i).pid base.toNat size.toNat = r at heffect ⊢
  cases heffect with
  | failed => exact h
  | unmaps hmoved =>
    refine h.moved hmoved h.heap.above h.heap.below h.heap.aligned (fun va hva hlt ↦ ?_)
      (fun va hva ↦ ?_) fun va hva ↦ h.aligned va (List.mem_filter.1 hva).1
    · obtain ⟨hold, hout⟩ := List.mem_filter.1 hva
      exact ⟨h.brk va hold hlt, of_decide_eq_true hout⟩
    · obtain ⟨hold, hout⟩ := List.mem_filter.1 hva
      exact ⟨h.mmap va hold, of_decide_eq_true hout⟩

theorem Keeping.step (c : MemCall) (hclean : CutsClean i w c) :
    Keeping i (memStep m fat g i w c) := by
  cases c with
  | brk r => exact (brk_step h r hclean).1
  | mmap hint len => exact mmap_step h hint len
  | munmap base size => exact munmap_step h base size

theorem keepsPromise_iff (c : MemCall) : KeepsPromise m fat g i w c ↔ CutsClean i w c := by
  refine ⟨fun hkeeps ↦ ?_, fun hclean ↦ ⟨fun r hc hr hok ↦ ?_, (h.step c hclean).mmap⟩⟩
  · cases c with
    | brk r => exact cutsClean_of_keeps h r hkeeps
    | mmap hint len => trivial
    | munmap base size => trivial
  subst hc
  obtain ⟨hreach, hend⟩ := (brk_step h r hclean).2 hr hok
  exact ⟨hreach, fun va hva _ hlt ↦ (h.step _ hclean).brk va hva (hlt.trans_le hend)⟩

end

/-- The process keeps what it was promised in exactly the runs whose every `BRK` cuts clean. -/
theorem promised_memory_kept (m : Hardware V) (fat : Fat F) (g : Garbage) (s : Machine V F)
    (i : Fin 8) (h : HeapOk s i) (calls : List MemCall) :
    Along (memStep m fat g i) (KeepsPromise m fat g i) (s, ⟨[], []⟩) calls ↔
      Along (memStep m fat g i) (CutsClean i) (s, ⟨[], []⟩) calls :=
  Along.congr (I := Keeping i) (fun _ c hw hclean ↦ hw.step c hclean)
    (fun _ c hw ↦ keepsPromise_iff hw c) h.keeping calls

/-- The process of `oneProcess` with the heap that `process_create` gives it. -/
def heapMachine : Machine (List (ℕ × UInt8)) Unit :=
  ⟨⟨zeroScheduler, oneProcess.setProcess 0 { oneProcess.processes 0 with
    heapBase := 0x10000000
    heapEnd := 0x10000000 }⟩, bootVfs, [], true, true⟩

theorem heapMachine_ok : HeapOk heapMachine 0 := by
  have hpages : (heapMachine.kernel.processes 0).userPages =
      [⟨0x400000, 0x1000000, pageWritable⟩] := rfl
  refine ⟨rfl, ?_, rfl, le_rfl, ?_, rfl⟩
  · rw [hpages]
    refine ⟨?_, by simp, fun u hu ↦ ?_⟩
    · exact show 1 ≤ processUserMaxPages by decide
    obtain rfl := List.mem_singleton.1 hu
    exact show 0x400000 % 4096 = 0 ∧ processUserBase ≤ 0x400000 ∧ 0x400000 < processUserLimit by
      decide
  · exact show 0x10000000 ≤ processUserLimit by decide

theorem promised_memory_kept_above :
    Along (memStep flatHardware noFat cleanStack 0) (KeepsPromise flatHardware noFat cleanStack 0)
      (heapMachine, ⟨[], []⟩) [.mmap 0 4096, .brk 0x10003000, .brk 0x10002000] :=
  (promised_memory_kept flatHardware noFat cleanStack heapMachine 0 heapMachine_ok _).2
    (by decide +kernel)

/-- A break inside a page loses the page below it, and a break below a mapped region loses the
region. -/
theorem promised_memory_lost :
    ¬ Along (memStep flatHardware noFat cleanStack 0)
        (KeepsPromise flatHardware noFat cleanStack 0) (heapMachine, ⟨[], []⟩)
        [.brk 0x10002000, .brk 0x10000001] ∧
      ¬ Along (memStep flatHardware noFat cleanStack 0)
        (KeepsPromise flatHardware noFat cleanStack 0) (heapMachine, ⟨[], []⟩)
        [.mmap 0 4096, .brk 0x10000000] := by
  constructor
  · rintro ⟨-, hcut, -⟩
    have hreach := (hcut.brk 0x10000001 rfl (by decide) (by decide +kernel)).1
    exact absurd hreach (by decide +kernel)
  · rintro ⟨-, hcut, -⟩
    exact absurd (hcut.mmap 0x10000000 (by decide +kernel)) (by decide +kernel)

end Promises

end NexusOS.Core
