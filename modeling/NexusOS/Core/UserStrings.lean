import NexusOS.Core.MachineSteps
import NexusOS.Core.SyscallLeak
import NexusOS.Core.UserBytes
import NexusOS.Fs.VfsRun

namespace NexusOS.Core

open Fs Sched

variable {V F : Type*} {m : Hardware V} {s : Machine V F} {i : Fin 8} {pid cr3 va cap : ℕ}
  {pages : List UserPage} {v v' : V} {str : Str}

section Strings

structure StringAt (m : Hardware V) (cr3 : ℕ) (pages : List UserPage) (v : V) (va : ℕ)
    (str : Str) : Prop where
  nonzero : 0 ∉ str
  inPages : InPages pages va (str.length + 1)
  bytes : userBytes m cr3 v va (str.length + 1) = str ++ [0]

/-- Two memories that a process cannot tell apart by its recorded pages. -/
structure SamePages (m : Hardware V) (cr3 : ℕ) (pages : List UserPage) (v v' : V) : Prop where
  tables : ∀ u ∈ pages, ∀ o < 4096,
    m.pagingVirtToPhysInCr3 cr3 (u.va + o) v' = m.pagingVirtToPhysInCr3 cr3 (u.va + o) v
  bytes : ∀ u ∈ pages, ∀ o < 4096,
    m.readByte (frame m cr3 v u + o) v' = m.readByte (frame m cr3 v u + o) v

def Machine.setMemory (s : Machine V F) (v : V) : Machine V F :=
  s.setKernel { s.kernel with vm := v }

/-- What is promised of a string argument: a string that fits is read, one without a terminator is
refused, and nothing but the recorded pages matters. -/
structure ReadsString (m : Hardware V) (s : Machine V F) (pid : ℕ) (i : Fin 8) (va cap : ℕ) :
    Prop where
  found : ∀ str, StringAt m (s.kernel.processes i).addressSpaceCr3
    (s.kernel.processes i).userPages s.kernel.vm va str → str.length ≤ cap - 2 →
    copyUserString m s pid va cap = some str
  unterminated : (∀ b, va ≤ b → b < va + (cap - 1) →
    (∃ u ∈ (s.kernel.processes i).userPages, u.va = pageOf b) →
    userByte m (s.kernel.processes i).addressSpaceCr3 s.kernel.vm b ≠ 0) →
    copyUserString m s pid va cap = none
  inside : ∀ v', SamePages m (s.kernel.processes i).addressSpaceCr3
    (s.kernel.processes i).userPages s.kernel.vm v' →
    copyUserString m (s.setMemory v') pid va cap = copyUserString m s pid va cap

/-- The whole window is in pages that may be written and executed. -/
def WindowOpen (pages : List UserPage) (va cap : ℕ) : Prop :=
  ∀ b, va ≤ b → b < va + cap → ∃ u ∈ pages, u.va = pageOf b ∧ u.flags.testBit 1 = true ∧
    u.flags.testBit 63 = false

variable {k : Kernel V}

theorem valid_iff_windowOpen (h : UserSpace m k pid i) (hva : va < 2 ^ 64) (hcap : cap ≠ 0) :
    processUserRangeValid k pid va cap pageWritable = true ↔
      (k.processes i).state ≠ .zombie ∧ WindowOpen (k.processes i).userPages va cap := by
  constructor
  · intro hvalid
    obtain ⟨-, hlive, -⟩ := inPages_of_valid h hvalid hva
    rw [processUserRangeValid_iff h.get hlive h.records hva hcap] at hvalid
    refine ⟨hlive, fun b hle hlt ↦ ?_⟩
    obtain ⟨u, hu, hpage, hflags⟩ := hvalid b hle hlt
    exact ⟨u, hu, hpage, (pageFlagsAllow_writable _).1 hflags⟩
  rintro ⟨hlive, hopen⟩
  rw [processUserRangeValid_iff h.get hlive h.records hva hcap]
  intro b hle hlt
  obtain ⟨u, hu, hpage, hflags⟩ := hopen b hle hlt
  exact ⟨u, hu, hpage, (pageFlagsAllow_writable _).2 hflags⟩

theorem valid_read {size : ℕ} (h : UserSpace m k pid i) (hva : va < 2 ^ 64)
    (hvalid : processUserRangeValid k pid va size pageWritable = true) :
    processUserRangeValid k pid va size 0 = true := by
  obtain ⟨-, hlive, hsize⟩ := inPages_of_valid h hvalid hva
  rw [processUserRangeValid_iff h.get hlive h.records hva hsize] at hvalid ⊢
  intro b hle hlt
  obtain ⟨u, hu, hpage, hflags⟩ := hvalid b hle hlt
  rw [pageFlagsAllow_writable] at hflags
  exact ⟨u, hu, hpage, (pageFlagsAllow_readable _).2 hflags.2⟩

theorem copyUserString_valid (h : UserSpace m s.kernel pid i) (hva : va < 2 ^ 64) (hcap : 2 ≤ cap)
    (hvalid : processUserRangeValid s.kernel pid va cap pageWritable = true) :
    let bytes := userBytes m (s.kernel.processes i).addressSpaceCr3 s.kernel.vm va (cap - 1)
    copyUserString m s pid va cap =
      if (bytes.takeWhile (· ≠ 0)).length < cap - 1 then some (bytes.takeWhile (· ≠ 0))
      else none := by
  intro bytes
  have hpart := processUserRangeValid_mono h hva (valid_read h hva hvalid)
    (show cap - 1 ≤ cap by omega) (by omega)
  have hguard : ¬ (cap < 2 ∨ (!processUserRangeValid s.kernel pid va cap pageWritable) = true) := by
    rw [hvalid]
    simp only [Bool.not_true, Bool.false_eq_true, or_false]
    omega
  rw [copyUserString, if_neg hguard, processUserRead_valid h hva hpart]

theorem copyUserString_invalid
    (hvalid : processUserRangeValid s.kernel pid va cap pageWritable ≠ true) :
    copyUserString m s pid va cap = none := by
  rw [copyUserString, if_pos (.inr (by simpa using hvalid))]

theorem takeWhile_string {rest : List UInt8} (h0 : 0 ∉ str) :
    (str ++ 0 :: rest).takeWhile (· ≠ 0) = str := by
  have hall : ∀ a ∈ str, decide (a ≠ 0) = true := by
    intro a ha
    rw [decide_eq_true_eq]
    intro heq
    rw [heq] at ha
    exact h0 ha
  rw [List.takeWhile_append_of_pos hall]
  simp

section

variable (h : SamePages m cr3 pages v v')
include h

theorem SamePages.frame {u : UserPage} (hu : u ∈ pages) : frame m cr3 v' u = frame m cr3 v u :=
  h.tables u hu 0 (by decide)

theorem SamePages.installed (hin : Installed m cr3 pages v) : Installed m cr3 pages v' := by
  refine ⟨fun u hu ↦ ?_, fun u hu w hw ↦ ?_⟩
  · have hmaps := hin.maps u hu
    refine ⟨?_, ?_, fun o ho ↦ ?_⟩
    · exact h.frame hu ▸ hmaps.aligned
    · exact h.frame hu ▸ hmaps.used
    · rw [h.tables u hu o ho, hmaps.bytes o ho, h.frame hu]
  · rw [h.frame hu, h.frame hw]
    exact hin.frames u hu w hw

theorem SamePages.userBytes {size : ℕ}
    (hin : Installed m cr3 pages v) (hpages : InPages pages va size) :
    userBytes m cr3 v' va size = userBytes m cr3 v va size := by
  apply List.map_congr_left
  intro j hj
  have hj := List.mem_range.1 hj
  obtain ⟨u, hu, hpage⟩ := hpages (va + j) (by omega) (by omega)
  rw [userByte, userByte, ((h.installed hin).maps u hu).translate hpage,
    (hin.maps u hu).translate hpage, h.frame hu]
  exact h.bytes u hu _ (Nat.mod_lt _ (by decide))

end

theorem StringAt.copied (hstr : StringAt m (s.kernel.processes i).addressSpaceCr3
      (s.kernel.processes i).userPages s.kernel.vm va str) (h : UserSpace m s.kernel pid i)
    (hva : va < 2 ^ 64) (hcap : 2 ≤ cap) (hlen : str.length ≤ cap - 2)
    (hvalid : processUserRangeValid s.kernel pid va cap pageWritable = true) :
    copyUserString m s pid va cap = some str := by
  have hsplit : cap - 1 = str.length + 1 + (cap - 1 - (str.length + 1)) := by omega
  have htake : (userBytes m (s.kernel.processes i).addressSpaceCr3 s.kernel.vm va
      (cap - 1)).takeWhile (· ≠ 0) = str := by
    rw [hsplit, userBytes_add, hstr.bytes, List.append_assoc, List.singleton_append]
    exact takeWhile_string hstr.nonzero
  rw [copyUserString_valid h hva hcap hvalid, htake, if_pos (by omega)]

/-- A string argument is read as promised just if the window of the capacity, wherever the string
ends, is in pages that may be written and executed. -/
theorem user_string_read (m : Hardware V) (s : Machine V F) (pid va cap : ℕ) (i : Fin 8)
    (h : UserSpace m s.kernel pid i) (hva : va < 2 ^ 64) (hcap : 2 ≤ cap) :
    ReadsString m s pid i va cap ↔
      ∀ str, StringAt m (s.kernel.processes i).addressSpaceCr3
        (s.kernel.processes i).userPages s.kernel.vm va str → str.length ≤ cap - 2 →
        (s.kernel.processes i).state ≠ .zombie ∧
          WindowOpen (s.kernel.processes i).userPages va cap := by
  constructor
  · intro hreads str hstr hlen
    rw [← valid_iff_windowOpen h hva (by omega)]
    by_contra hvalid
    have hnone := copyUserString_invalid (m := m) hvalid
    rw [hreads.found str hstr hlen] at hnone
    cases hnone
  intro hfits
  refine ⟨fun str hstr hlen ↦ ?_, fun hnonzero ↦ ?_, fun v' hsame ↦ ?_⟩
  · have hvalid := (valid_iff_windowOpen h hva (by omega)).2 (hfits str hstr hlen)
    exact hstr.copied h hva hcap hlen hvalid
  · by_cases hvalid : processUserRangeValid s.kernel pid va cap pageWritable = true
    · obtain ⟨hin, -, -⟩ := inPages_of_valid h hvalid hva
      have hwhole : ∀ a ∈ userBytes m (s.kernel.processes i).addressSpaceCr3 s.kernel.vm va
          (cap - 1), decide (a ≠ 0) = true := by
        intro a ha
        obtain ⟨j, hj, rfl⟩ := List.mem_map.1 ha
        have hj := List.mem_range.1 hj
        rw [decide_eq_true_eq]
        exact hnonzero _ (by omega) (by omega) (hin _ (by omega) (by omega))
      rw [copyUserString_valid h hva hcap hvalid, List.takeWhile_eq_self_iff.2 hwhole,
        length_userBytes, if_neg (lt_irrefl _)]
    · exact copyUserString_invalid hvalid
  have hspace : UserSpace m (s.setMemory v').kernel pid i :=
    ⟨h.get, h.records, hsame.installed h.installed⟩
  by_cases hvalid : processUserRangeValid s.kernel pid va cap pageWritable = true
  · have hin : InPages (s.kernel.processes i).userPages va (cap - 1) := by
      intro b hle hlt
      exact (inPages_of_valid h hvalid hva).1 b hle (by omega)
    have hbytes : userBytes m ((s.setMemory v').kernel.processes i).addressSpaceCr3
        (s.setMemory v').kernel.vm va (cap - 1) = userBytes m
        (s.kernel.processes i).addressSpaceCr3 s.kernel.vm va (cap - 1) :=
      hsame.userBytes h.installed hin
    rw [copyUserString_valid h hva hcap hvalid, copyUserString_valid hspace hva hcap hvalid,
      hbytes]
  · rw [copyUserString_invalid hvalid]
    exact copyUserString_invalid hvalid

/-- The process of `oneProcess` with other flags of its page. -/
def flatProcess (flags : ℕ) : Kernel (List (ℕ × UInt8)) :=
  oneProcess.setProcess 0 { oneProcess.processes 0 with
    userPages := [⟨0x400000, 0x1000000, flags⟩] }

def flatMachine (flags : ℕ) : Machine (List (ℕ × UInt8)) Unit :=
  ⟨⟨zeroScheduler, flatProcess flags⟩, bootVfs, [], true, true⟩

theorem flatMachine_space (flags : ℕ) : UserSpace flatHardware (flatMachine flags).kernel 1 0 := by
  have hpages : ((flatMachine flags).kernel.processes 0).userPages =
      [⟨0x400000, 0x1000000, flags⟩] := rfl
  refine ⟨rfl, ?_, ?_⟩
  · rw [hpages]
    refine ⟨?_, by simp, fun u hu ↦ ?_⟩
    · exact show 1 ≤ processUserMaxPages by decide
    obtain rfl := List.mem_singleton.1 hu
    exact show 0x400000 % 4096 = 0 ∧ processUserBase ≤ 0x400000 ∧ 0x400000 < processUserLimit by
      decide
  rw [hpages]
  refine ⟨fun u hu ↦ ?_, fun u hu w hw _ ↦ ?_⟩
  · obtain rfl := List.mem_singleton.1 hu
    exact ⟨show 0x400000 % 4096 = 0 by decide, show 0x400000 ≠ 0 by decide, fun _ _ ↦ rfl⟩
  · rw [List.mem_singleton.1 hu, List.mem_singleton.1 hw]

theorem user_string_read_home :
    copyUserString flatHardware (flatMachine 2) 1 0x400800 128 = some homeFile := by
  have hreads := (user_string_read flatHardware (flatMachine 2) 1 0x400800 128 0
    (flatMachine_space 2) (by norm_num) (by norm_num)).2 fun str _ _ ↦ ⟨by decide, ?_⟩
  · refine hreads.found homeFile ⟨by decide, ?_, by decide +kernel⟩ (by decide)
    intro b hle hlt
    refine ⟨⟨0x400000, 0x1000000, 2⟩, by decide, ?_⟩
    have hlen : homeFile.length = 7 := rfl
    rw [hlen] at hlt
    change 0x400000 = b / 4096 * 4096
    omega
  · intro b hle hlt
    refine ⟨⟨0x400000, 0x1000000, 2⟩, by decide, ?_, by decide, by decide⟩
    change 0x400000 = b / 4096 * 4096
    omega

/-- A string of seven characters is refused where the page ends within 128 bytes, where the page may
not be written, and where it may not be executed. -/
theorem user_string_refused :
    let atEnd := (flatMachine 2).setMemory (storeBytes flatHardware 0x400FF0 homeFile [])
    let str := fun (s : Machine (List (ℕ × UInt8)) Unit) (va : ℕ) ↦
      userBytes flatHardware (s.kernel.processes 0).addressSpaceCr3 s.kernel.vm va 8
    str atEnd 0x400FF0 = homeFile ++ [0] ∧
      copyUserString flatHardware atEnd 1 0x400FF0 128 = none ∧
    str (flatMachine 0) 0x400800 = homeFile ++ [0] ∧
      copyUserString flatHardware (flatMachine 0) 1 0x400800 128 = none ∧
    str (flatMachine (pageWritable ||| pageNx)) 0x400800 = homeFile ++ [0] ∧
      copyUserString flatHardware (flatMachine (pageWritable ||| pageNx)) 1 0x400800 128 = none := by
  refine ⟨?_, ?_, ?_, ?_, ?_, ?_⟩ <;> decide +kernel

end Strings

section Replies

variable {value : Str} {n : ℕ} {buffer : ℕ → UInt8}

/-- What is promised of a string that a call answers with: its length, cut to the buffer, and the
characters with a terminator. -/
structure Terminated (m : Hardware V) (cr3 : ℕ) (v : V) (va n : ℕ) (value : Str) (len : ℕ) :
    Prop where
  short : len < n
  length : len = min value.length (n - 1)
  bytes : userBytes m cr3 v va (len + 1) = value.take len ++ [0]

end Replies

section StringCalls

inductive StringCall
  | getname
  | getcwd
  | getenv
  | getversion
  | getarch

namespace StringCall

def sys : StringCall → Sys
  | getname => .getname
  | getcwd => .getcwd
  | getenv => .getenv
  | getversion => .getversion
  | getarch => .getarch

def buffer (a0 a2 : ℕ) : StringCall → ℕ
  | getenv => a2
  | _ => a0

def value (m : Hardware V) (k : Kernel V) (pid a0 : ℕ) : StringCall → Option Str
  | getname => processGetName k pid 32
  | getcwd => processGetCwd k pid 128
  | getenv => (processUserRead m k pid a0 24).bind fun bytes ↦
      processGetEnv k pid ((bytes.take 23).takeWhile (· ≠ 0)) 64
  | getversion => some [48, 46, 55]
  | getarch => some [120, 56, 54, 95, 54, 52]

end StringCall

end StringCalls

end NexusOS.Core
