import NexusOS.Core.Capabilities
import NexusOS.Core.SyscallFrame
import NexusOS.Core.SyscallLeak

namespace NexusOS.Core

open Fs Sched Lib

variable {V F D : Type*} {m : Hardware V} {fat : Fat F} {g : Garbage} {s : Machine V F}
  {k : Kernel V} {i : Fin 8} {pid : ℕ} {φ : Vfs F → Vfs F}

section Sequences

structure SysCall where
  stack : Garbage
  number : ℕ
  a0 : ℕ
  a1 : ℕ
  a2 : ℕ
  a3 : ℕ

def SysCall.answer (m : Hardware V) (fat : Fat F) (s : Machine V F) (c : SysCall) : ℕ :=
  (syscallDispatch m fat c.stack s c.number c.a0 c.a1 c.a2 c.a3).1

def issue (m : Hardware V) (fat : Fat F) (s : Machine V F) (c : SysCall) : Machine V F :=
  (syscallDispatch m fat c.stack s c.number c.a0 c.a1 c.a2 c.a3).2

def answers (m : Hardware V) (fat : Fat F) : Machine V F → List SysCall → List ℕ
  | _, [] => []
  | s, c :: cs => c.answer m fat s :: answers m fat (issue m fat s c) cs

theorem issue_heir {c : SysCall} (hi : caller s = some i)
    (hi' : caller (issue m fat s c) = some i) :
    Heir (s.kernel.processes i) ((issue m fat s c).kernel.processes i) := by
  have hcall : s.call m fat (.dispatch c.stack c.number c.a0 c.a1 c.a2 c.a3) =
      .ok (issue m fat s c) := rfl
  have hused : ((issue m fat s c).kernel.processes i).state ≠ .unused :=
    (processGet_some (caller_get hi').1).1
  rcases call_heir rfl hcall hused with hheir | ⟨hunused, -⟩
  · exact hheir
  · exact absurd hunused (processGet_some (caller_get hi).1).1

theorem Submask.lacks {a b mask : ℕ} (h : Submask a b) (hb : b &&& mask = 0) : a &&& mask = 0 := by
  rw [← h, Nat.and_assoc, hb, Nat.and_zero]

theorem processHasCapability_lacks {capability mask : ℕ} (hi : processGet k pid = some i)
    (hmask : (k.processes i).capabilities &&& mask = 0) (hsub : Submask capability mask)
    (h0 : capability ≠ 0) : processHasCapability k pid capability = false := by
  have hnone : (k.processes i).capabilities &&& capability = 0 := by
    rw [← hsub, Nat.and_left_comm, hmask, Nat.and_zero]
  have hne : ((k.processes i).capabilities &&& capability == capability) = false := by
    rw [hnone, beq_eq_false_iff_ne]
    exact h0.symm
  simp [processHasCapability, hi, hne]

end Sequences

section Refused

theorem changeTree_refused (h : processHasCapability s.kernel pid capFilesystemWrite = false)
    (a0 : ℕ) (change : Vfs F → Str → Bool × Vfs F) :
    changeTree m s pid a0 change = (failed, s) := by
  rw [changeTree, h]
  rfl

theorem sysRename_refused (h : processHasCapability s.kernel pid capFilesystemWrite = false)
    (a0 a1 : ℕ) : sysRename m s pid a0 a1 = (failed, s) := by
  rw [sysRename, h]
  rfl

theorem sysOpen_refused (h : processHasCapability s.kernel pid capFilesystemRead = false)
    (a0 a1 : ℕ) : sysOpen m fat g s pid a0 a1 = (failed, s) := by
  rw [sysOpen, h]
  rfl

theorem sysExec_refused (h : processHasCapability s.kernel pid capProcessSpawn = false)
    (a0 : ℕ) : sysExec m fat s pid a0 = (failed, s) := by
  rw [sysExec, h]
  rfl

end Refused

section Read

structure Confined (p : Process) : Prop where
  capabilities : p.capabilities &&& (capFilesystemRead ||| capFilesystemWrite ||| capProcessSpawn) = 0
  files : ∀ j, (p.fds j).type ≠ .vfsFile

theorem Confined.fileOf {p : Process} (h : Confined p) (fd : ℕ) : fileOf p fd = none := by
  cases hfd : Core.fileOf p fd with
  | none => rfl
  | some j => exact absurd (fileOf_type hfd) (h.files j)

theorem syscall_confined {c : Sys} (hi : processGet s.kernel (s.kernel.processes i).pid = some i)
    (h : Confined (s.kernel.processes i)) (hstat : c ≠ .stat) (hchdir : c ≠ .chdir)
    (φ : Vfs F → Vfs F) (a0 a1 a2 a3 : ℕ) :
    syscall m fat g (s.mapVfs φ) i c a0 a1 a2 a3 =
      reframe φ (syscall m fat g s i c a0 a1 a2 a3) := by
  have hlacks {capability : ℕ} (hsub : Submask capability
      (capFilesystemRead ||| capFilesystemWrite ||| capProcessSpawn)) (h0 : capability ≠ 0) :
      processHasCapability s.kernel (s.kernel.processes i).pid capability = false :=
    processHasCapability_lacks hi h.capabilities hsub h0
  have hread : processHasCapability s.kernel (s.kernel.processes i).pid capFilesystemRead = false :=
    hlacks (by decide) (by decide)
  have hwrite : processHasCapability s.kernel (s.kernel.processes i).pid capFilesystemWrite =
    false := hlacks (by decide) (by decide)
  have hspawn : processHasCapability s.kernel (s.kernel.processes i).pid capProcessSpawn = false :=
    hlacks (by decide) (by decide)
  have htree (a0 : ℕ) (change : Vfs F → Str → Bool × Vfs F) :
      changeTree m (s.mapVfs φ) (s.kernel.processes i).pid a0 change =
        reframe φ (changeTree m s (s.kernel.processes i).pid a0 change) := by
    rw [changeTree_refused hwrite, changeTree_refused (s := s.mapVfs φ) hwrite]
    rfl
  cases c with
  | write =>
    have hfd (v : Vfs F) (bytes : List UInt8) : processFdWrite fat s.kernel v
        (s.kernel.processes i).pid a0 bytes (g.stale 0) = (none, s.kernel, v) := by
      simp only [processFdWrite, hi, h.fileOf]
    apply guard_frame
    rw [Machine.mapVfs_kernel]
    cases processUserRead m s.kernel (s.kernel.processes i).pid a1 a2 with
    | none => rfl
    | some bytes =>
      apply ite_frame
      · rfl
      simp only [hfd]
      rfl
  | open_ =>
    change sysOpen m fat g (s.mapVfs φ) (s.kernel.processes i).pid a0 a1 = _
    rw [sysOpen_refused (s := s.mapVfs φ) hread]
    change _ = reframe φ (sysOpen m fat g s (s.kernel.processes i).pid a0 a1)
    rw [sysOpen_refused hread]
    rfl
  | read =>
    have hfd (v : Vfs F) : processFdRead fat s.kernel v (s.kernel.processes i).pid a0 a2
        (g.stale 0) = (none, s.kernel, v) := by
      simp only [processFdRead, hi, h.fileOf]
    apply guard_frame
    simp only [Machine.mapVfs_kernel, hfd]
    rfl
  | seek =>
    have hfd (v : Vfs F) : processFdSeek fat s.kernel v (s.kernel.processes i).pid a0 a1
        (a2 % 2 ^ 32) (g.stale 0) = (none, s.kernel, v) := by
      simp only [processFdSeek, hi, h.fileOf]
    simp only [syscall, sysSeek, Machine.mapVfs_kernel, hfd]
    rfl
  | stat => exact absurd rfl hstat
  | mkdir => exact htree a0 _
  | rmdir => exact htree a0 _
  | unlink => exact htree a0 _
  | rename =>
    change sysRename m (s.mapVfs φ) (s.kernel.processes i).pid a0 a1 =
      reframe φ (sysRename m s (s.kernel.processes i).pid a0 a1)
    rw [sysRename_refused hwrite, sysRename_refused (s := s.mapVfs φ) hwrite]
    rfl
  | chdir => exact absurd rfl hchdir
  | exec =>
    change sysExec m fat (s.mapVfs φ) (s.kernel.processes i).pid a0 =
      reframe φ (sysExec m fat s (s.kernel.processes i).pid a0)
    rw [sysExec_refused hspawn, sysExec_refused (s := s.mapVfs φ) hspawn]
    rfl
  | _ => exact syscall_frame rfl φ s i a0 a1 a2 a3

theorem syscall_stays_confined {c : Sys}
    (hi : processGet s.kernel (s.kernel.processes i).pid = some i)
    (h : Confined (s.kernel.processes i)) (a0 a1 a2 a3 : ℕ) :
    Confined ((syscall m fat g s i c a0 a1 a2 a3).2.kernel.processes i) := by
  have hlacks {capability : ℕ} (hsub : Submask capability
      (capFilesystemRead ||| capFilesystemWrite ||| capProcessSpawn)) (h0 : capability ≠ 0) :
      processHasCapability s.kernel (s.kernel.processes i).pid capability = false :=
    processHasCapability_lacks hi h.capabilities hsub h0
  by_cases hopen : c = .open_
  · subst hopen
    simp only [syscall, sysOpen_refused (hlacks (by decide) (by decide))]
    exact h
  by_cases hexec : c = .exec
  · subst hexec
    simp only [syscall, sysExec_refused (hlacks (by decide) (by decide))]
    exact h
  have hupdate : Update (openedBy m s (s.kernel.processes i).pid a0 c) s.kernel
      (syscall m fat g s i c a0 a1 a2 a3).2.kernel := syscall_update hexec a0 a1 a2 a3
  have hkept := hupdate.process i
  refine ⟨Submask.lacks hkept.capabilities h.capabilities, ?_⟩
  intro j htype
  rcases hkept.files j htype with hpath | ⟨hfile, -⟩
  · cases c <;> first | exact absurd rfl hopen | cases hpath
  · exact h.files j hfile

theorem sysNumbers_inj {n l : ℕ} {c : Sys} (hn : sysNumbers[n]? = some c)
    (hl : sysNumbers[l]? = some c) : n = l := by
  have hnodup : sysNumbers.Nodup := by decide
  exact (List.getElem?_inj (List.getElem?_eq_some_iff.1 hn).1 hnodup).1 (hn.trans hl.symm)

theorem dispatch_confined (m : Hardware V) (fat : Fat F) (g : Garbage) {number : ℕ}
    (hi : caller s = some i) (h : Confined (s.kernel.processes i)) (hstat : number ≠ 10)
    (hchdir : number ≠ 16) (φ : Vfs F → Vfs F) (a0 a1 a2 a3 : ℕ) :
    syscallDispatch m fat g (s.mapVfs φ) number a0 a1 a2 a3 =
        reframe φ (syscallDispatch m fat g s number a0 a1 a2 a3) ∧
      Confined ((syscallDispatch m fat g s number a0 a1 a2 a3).2.kernel.processes i) := by
  have hi' : caller (s.mapVfs φ) = some i := hi
  unfold syscallDispatch
  rw [hi, hi']
  cases hc : sysNumbers[number]? with
  | none => exact ⟨rfl, h⟩
  | some c =>
    have hget := (caller_get hi).1
    refine ⟨syscall_confined hget h ?_ ?_ φ a0 a1 a2 a3,
      syscall_stays_confined hget h a0 a1 a2 a3⟩
    · rintro rfl
      exact hstat (sysNumbers_inj hc (by decide))
    · rintro rfl
      exact hchdir (sysNumbers_inj hc (by decide))

theorem issue_confined (m : Hardware V) (fat : Fat F) {c : SysCall} (hi : caller s = some i)
    (h : Confined (s.kernel.processes i)) (hstat : c.number ≠ 10) (hchdir : c.number ≠ 16)
    (v : Vfs F) :
    c.answer m fat (s.setVfs v) = c.answer m fat s ∧
      issue m fat (s.setVfs v) c = (issue m fat s c).setVfs v ∧
      Confined ((issue m fat s c).kernel.processes i) := by
  obtain ⟨heq, hconfined⟩ := dispatch_confined m fat c.stack hi h hstat hchdir (fun _ ↦ v)
    c.a0 c.a1 c.a2 c.a3
  have hset : s.setVfs v = s.mapVfs fun _ ↦ v := rfl
  rw [SysCall.answer, issue, hset, heq]
  exact ⟨rfl, rfl, hconfined⟩

/-- The calls of a process without the three capabilities and without a file are answered alike and
do alike in two states that differ in the file system only. -/
theorem reads_need_capability (m : Hardware V) (fat : Fat F) (s : Machine V F) (v : Vfs F)
    (i : Fin 8) (calls : List SysCall)
    (hcaps : (s.kernel.processes i).capabilities &&&
      (capFilesystemRead ||| capFilesystemWrite ||| capProcessSpawn) = 0)
    (hfiles : ∀ j, ((s.kernel.processes i).fds j).type ≠ .vfsFile)
    (hcalls : Along (issue m fat) (fun s c ↦ caller s = some i ∧ c.number ≠ 10 ∧ c.number ≠ 16)
      s calls) :
    answers m fat (s.setVfs v) calls = answers m fat s calls ∧
      calls.foldl (issue m fat) (s.setVfs v) = (calls.foldl (issue m fat) s).setVfs v := by
  induction calls generalizing s with
  | nil => exact ⟨rfl, rfl⟩
  | cons c calls ih =>
    obtain ⟨⟨hi, hstat, hchdir⟩, hrest⟩ := hcalls
    obtain ⟨hanswer, hissue, hconfined⟩ := issue_confined m fat hi ⟨hcaps, hfiles⟩ hstat
      hchdir v
    obtain ⟨ihanswers, ihstate⟩ := ih (issue m fat s c) hconfined.capabilities hconfined.files hrest
    refine ⟨?_, ?_⟩
    · rw [answers, answers, hanswer, hissue, ihanswers]
    · rw [List.foldl_cons, List.foldl_cons, hissue, ihstate]

/-- The driver as if no volume were there. -/
def offline (fat : Fat F) : Fat F := { fat with isMounted := fun _ ↦ false }

/-- The running process of `oneMachine` with other capabilities, `/a` and `/mnt/a` in its memory and
no volume. -/
def machineWith (capabilities : ℕ) : Machine (List (ℕ × UInt8)) Unit :=
  let k := oneProcess
  let k := k.setProcess 0 { k.processes 0 with capabilities := capabilities }
  let vm := storeBytes flatHardware 0x400800 [47, 97] []
  let vm := storeBytes flatHardware 0x400900 [47, 109, 110, 116, 47, 97] vm
  ⟨⟨zeroScheduler, { k with vm := vm }⟩, bootVfs, [], true, true⟩

/-- The same tree with a directory `/a`. -/
def withDirectory : Vfs Unit := (vfsMkdir (offline programs) bootVfs [97]).2

theorem reads_need_capability_getname :
    let calls : List SysCall := [⟨cleanStack, 21, 0x400000, 32, 0, 0⟩, ⟨cleanStack, 6, 0x400800, 0, 0, 0⟩]
    answers flatHardware (offline programs) (machineWith 0x7E3) calls = [4, failed] ∧
      answers flatHardware (offline programs) ((machineWith 0x7E3).setVfs withDirectory) calls =
        answers flatHardware (offline programs) (machineWith 0x7E3) calls := by
  refine ⟨by decide +kernel, ?_⟩
  exact (reads_need_capability flatHardware (offline programs) (machineWith 0x7E3) withDirectory 0 _
    (by decide +kernel) (by decide +kernel) (by decide +kernel)).1

/-- `STAT` tells a process without any of the capabilities whether `/a` is there, and so does
`CHDIR`. -/
theorem stat_needs_no_capability :
    let stat (v : Vfs Unit) := (syscallDispatch flatHardware (offline programs) cleanStack
      ((machineWith 0x7E3).setVfs v) 10 0x400800 0x400000 0 0).1
    let chdir (v : Vfs Unit) := (syscallDispatch flatHardware (offline programs) cleanStack
      ((machineWith 0x7E3).setVfs v) 16 0x400800 0 0 0).1
    stat withDirectory = 0 ∧ stat bootVfs = failed ∧ chdir withDirectory = 0 ∧
      chdir bootVfs = failed := by
  decide +kernel

end Read

section Write

/-- The nodes with their names, parents and contents are the same, and so is the volume. -/
structure SameTree (vol : F → D) (v v' : Vfs F) : Prop where
  nodes : v'.nodes = v.nodes
  volume : vol v'.fat = vol v.fat

variable {vol : F → D} {v v' v'' : Vfs F}

theorem SameTree.refl (vol : F → D) (v : Vfs F) : SameTree vol v v := ⟨rfl, rfl⟩

theorem SameTree.trans (h : SameTree vol v v') (h' : SameTree vol v' v'') : SameTree vol v v'' :=
  ⟨h'.nodes.trans h.nodes, h'.volume.trans h.volume⟩

variable (hread : ∀ path n f, vol (fat.readFile path n f).2 = vol f)
  (hdir : ∀ path f, vol (fat.isDirectory path f).2 = vol f)

include hread

theorem vfsFileSizePath_tree (v : Vfs F) (path : Str) (junk : Stale) :
    SameTree vol v (vfsFileSizePath fat v path junk).2 := by
  unfold vfsFileSizePath
  split
  · exact .refl _ _
  split
  · exact ⟨rfl, hread _ _ _⟩
  · split <;> exact .refl _ _

theorem vfsReadPath_tree (v : Vfs F) (path : Str) (buffer : Bool) (capacity offset : ℕ)
    (junk : Stale) : SameTree vol v (vfsReadPath fat v path buffer capacity offset junk).2 := by
  unfold vfsReadPath
  split
  · exact .refl _ _
  split
  · exact .refl _ _
  split
  · exact ⟨rfl, hread _ _ _⟩
  split
  · exact .refl _ _
  · split <;> exact .refl _ _

theorem openFile_tree (v : Vfs F) (path : Str) {flags : ℕ} (junk : ℕ → Stale)
    (hcreate : flags.testBit 2 = false) (htruncate : flags.testBit 3 = false) :
    SameTree vol v (openFile fat v path flags junk).2 := by
  have hsize := vfsFileSizePath_tree hread v path (junk 0)
  unfold openFile
  dsimp only
  rw [hcreate, htruncate]
  by_cases hnone : (vfsFileSizePath fat v path (junk 0)).1 = none
  · rw [if_pos ⟨hnone, rfl⟩]
    exact hsize
  rw [if_neg fun h ↦ hnone h.1, if_neg hnone]
  simpa using hsize

theorem sysOpen_tree {a1 : ℕ} (hcreate : a1.testBit 2 = false) (htruncate : a1.testBit 3 = false)
    (a0 : ℕ) : SameTree vol s.vfs (sysOpen m fat g s pid a0 a1).2.vfs := by
  have hbits : (a1 % 2 ^ 32).testBit 2 = false ∧ (a1 % 2 ^ 32).testBit 3 = false := by
    rw [Nat.testBit_mod_two_pow, Nat.testBit_mod_two_pow, hcreate, htruncate]
    exact ⟨rfl, rfl⟩
  unfold sysOpen
  split
  · exact .refl _ _
  split
  · exact .refl _ _
  rename_i path hpath
  have hopen := openFile_tree hread s.vfs path g.stale hbits.1 hbits.2
  change SameTree vol s.vfs (processFdOpen fat s.kernel s.vfs pid path _ g.stale).2.2
  unfold processFdOpen
  split
  · exact .refl _ _
  split
  · exact .refl _ _
  split
  · exact .refl _ _
  dsimp only
  split <;> exact hopen

theorem sysRead_tree (a0 a1 a2 : ℕ) :
    SameTree vol s.vfs (sysRead m fat g s pid a0 a1 a2).2.vfs := by
  have hfd : SameTree vol s.vfs
      (processFdRead fat s.kernel s.vfs pid a0 a2 (g.stale 0)).2.2 := by
    unfold processFdRead
    split
    · exact .refl _ _
    split
    · exact .refl _ _
    dsimp only
    split <;> exact vfsReadPath_tree hread _ _ _ _ _ _
  unfold sysRead
  split
  · exact .refl _ _
  dsimp only
  split <;> exact hfd

theorem sysSeek_tree (a0 a1 a2 : ℕ) : SameTree vol s.vfs (sysSeek fat g s pid a0 a1 a2).2.vfs := by
  change SameTree vol s.vfs
    (processFdSeek fat s.kernel s.vfs pid a0 a1 (a2 % 2 ^ 32) (g.stale 0)).2.2
  unfold processFdSeek
  split
  · exact .refl _ _
  split
  · exact .refl _ _
  rename_i i _ _ j _
  have hsize := vfsFileSizePath_tree hread s.vfs ((s.kernel.processes i).fds j).path
    (g.stale 0)
  dsimp only
  split
  · exact hsize
  · split_ifs <;> exact hsize

theorem sysExec_tree (a0 : ℕ) : SameTree vol s.vfs (sysExec m fat s pid a0).2.vfs := by
  have hload (k : Kernel V) (child : ℕ) (path : Str) : SameTree vol s.vfs
      (nexusElfLoadProcess m child fat k s.vfs path).2.2 := by
    unfold nexusElfLoadProcess
    split
    · exact .refl _ _
    split
    · exact .refl _ _
    have hfile : SameTree vol s.vfs { s.vfs with fat := (fat.readFile path 65536 s.vfs.fat).2 } :=
      ⟨rfl, hread _ _ _⟩
    dsimp only
    split
    · exact hfile
    split
    · exact hfile
    split
    · exact hfile
    · split <;> exact hfile
  unfold sysExec
  split
  · exact .refl _ _
  split
  · exact .refl _ _
  dsimp only
  split
  · exact .refl _ _
  · split <;> exact hload _ _ _

omit hread

include hdir

theorem vfsIsDirPath_tree (v : Vfs F) (path : Str) (junk : Stale) :
    SameTree vol v (vfsIsDirPath fat v path junk).2 := by
  unfold vfsIsDirPath
  split
  · exact .refl _ _
  split
  · exact .refl _ _
  split
  · exact ⟨rfl, hdir _ _⟩
  · split <;> exact .refl _ _

include hread

theorem sysStat_tree (a0 a1 : ℕ) : SameTree vol s.vfs (sysStat m fat g s pid a0 a1).2.vfs := by
  unfold sysStat
  split
  · exact .refl _ _
  rename_i path hpath
  have hsize := vfsFileSizePath_tree hread s.vfs path (g.stale 0)
  have hisDir := hsize.trans (vfsIsDirPath_tree hdir _ path (g.stale 1))
  split
  · exact .refl _ _
  dsimp only
  split
  · exact hsize
  · split <;> exact hisDir

omit hread in
theorem sysChdir_tree (a0 : ℕ) : SameTree vol s.vfs (sysChdir m fat g s pid a0).2.vfs := by
  unfold sysChdir
  split
  · exact .refl _ _
  rename_i path hpath
  have hisDir := vfsIsDirPath_tree hdir s.vfs path (g.stale 0)
  dsimp only
  split <;> exact hisDir

omit hread hdir in
theorem sysWrite_tree {a0 : ℕ} (hi : processGet s.kernel pid = some i)
    (h : ∀ j, fileOf (s.kernel.processes i) a0 = some j →
      ((s.kernel.processes i).fds j).flags.testBit 1 = false) (a1 a2 : ℕ) :
    (sysWrite m fat g s pid a0 a1 a2).2.vfs = s.vfs := by
  have hfd (bytes : List UInt8) :
      processFdWrite fat s.kernel s.vfs pid a0 bytes (g.stale 0) = (none, s.kernel, s.vfs) := by
    simp only [processFdWrite, hi]
    cases hfile : fileOf (s.kernel.processes i) a0 with
    | none => rfl
    | some j => simp [h j hfile]
  unfold sysWrite
  split
  · rfl
  split
  · rfl
  split
  · rfl
  · simp [hfd]

/-- The call asks for no new or empty file and does not write to a file opened for writing. -/
structure SysCall.KeepsTree (p : Process) (c : SysCall) : Prop where
  opens : c.number = 6 → c.a1.testBit 2 = false ∧ c.a1.testBit 3 = false
  writes : c.number = 3 → ∀ j, fileOf p c.a0 = some j → (p.fds j).flags.testBit 1 = false

theorem issue_tree {c : SysCall} (hi : caller s = some i)
    (hcaps : (s.kernel.processes i).capabilities &&& capFilesystemWrite = 0)
    (h : c.KeepsTree (s.kernel.processes i)) :
    SameTree vol s.vfs (issue m fat s c).vfs := by
  have hget := (caller_get hi).1
  have hwrite : processHasCapability s.kernel (s.kernel.processes i).pid capFilesystemWrite =
    false := processHasCapability_lacks hget hcaps (by decide) (by decide)
  have htree (a0 : ℕ) (change : Vfs F → Str → Bool × Vfs F) :
      SameTree vol s.vfs (changeTree m s (s.kernel.processes i).pid a0 change).2.vfs := by
    rw [changeTree_refused hwrite]
    exact .refl _ _
  unfold issue syscallDispatch
  rw [hi]
  cases hc : sysNumbers[c.number]? with
  | none => exact .refl _ _
  | some call =>
    cases call with
    | write =>
      have hnumber : c.number = 3 := sysNumbers_inj hc (by decide)
      change SameTree vol s.vfs (sysWrite _ _ _ _ _ _ _ _).2.vfs
      rw [sysWrite_tree hget (h.writes hnumber)]
      exact .refl _ _
    | open_ =>
      have hnumber : c.number = 6 := sysNumbers_inj hc (by decide)
      exact sysOpen_tree hread (h.opens hnumber).1 (h.opens hnumber).2 c.a0
    | read => exact sysRead_tree hread c.a0 c.a1 c.a2
    | seek => exact sysSeek_tree hread c.a0 c.a1 c.a2
    | stat => exact sysStat_tree hread hdir c.a0 c.a1
    | mkdir => exact htree c.a0 _
    | rmdir => exact htree c.a0 _
    | unlink => exact htree c.a0 _
    | rename =>
      change SameTree vol s.vfs (sysRename _ _ _ _ _).2.vfs
      rw [sysRename_refused hwrite]
      exact .refl _ _
    | chdir => exact sysChdir_tree hdir c.a0
    | exec => exact sysExec_tree hread c.a0
    | _ =>
      dsimp only
      rw [syscall_vfs rfl]
      exact .refl _ _

end Write

/-- Nothing that a process without the write capability does changes a node, a file or the volume,
as long as it neither opens with the flags 4 or 8 nor writes to a file. -/
theorem writes_need_capability (m : Hardware V) (fat : Fat F) (vol : F → D)
    (hread : ∀ path n f, vol (fat.readFile path n f).2 = vol f)
    (hdir : ∀ path f, vol (fat.isDirectory path f).2 = vol f) (s : Machine V F) (i : Fin 8)
    (calls : List SysCall)
    (hcaps : (s.kernel.processes i).capabilities &&& capFilesystemWrite = 0)
    (hcalls : Along (issue m fat)
      (fun s c ↦ caller s = some i ∧ c.KeepsTree (s.kernel.processes i)) s calls) :
    let v := (calls.foldl (issue m fat) s).vfs
    v.nodes = s.vfs.nodes ∧ vol v.fat = vol s.vfs.fat := by
  suffices h : SameTree vol s.vfs (calls.foldl (issue m fat) s).vfs from ⟨h.nodes, h.volume⟩
  induction calls generalizing s with
  | nil => exact .refl _ _
  | cons c calls ih =>
    obtain ⟨⟨hi, hkeeps⟩, hrest⟩ := hcalls
    have hstep : SameTree vol s.vfs (issue m fat s c).vfs := issue_tree hread hdir hi hcaps hkeeps
    cases calls with
    | nil => exact hstep
    | cons c' calls =>
      -- the mask of the caller only shrinks, so it still lacks the capability
      have hheir := issue_heir hi hrest.1.1
      exact hstep.trans (ih _ (Submask.lacks hheir.capabilities hcaps) hrest)

theorem writes_need_capability_mkdir :
    let calls : List SysCall := [⟨cleanStack, 11, 0x400800, 0, 0, 0⟩, ⟨cleanStack, 6, 0x400800, 0, 0, 0⟩]
    let s := calls.foldl (issue flatHardware (offline programs)) (machineWith 0x7F7)
    s.vfs.nodes = bootVfs.nodes :=
  (writes_need_capability flatHardware (offline programs) id (fun _ _ _ ↦ rfl)
    (fun _ _ ↦ rfl) (machineWith 0x7F7) 0
    [⟨cleanStack, 11, 0x400800, 0, 0, 0⟩, ⟨cleanStack, 6, 0x400800, 0, 0, 0⟩] (by decide +kernel)
    ⟨⟨by decide +kernel, by decide, by decide⟩, ⟨by decide +kernel, by decide, by decide⟩, trivial⟩).1

/-- `OPEN` with the flags 4 and 2 makes the file `/mnt/a` for a process that may only read, and `WRITE`
fills it. -/
theorem open_creates_without_capability :
    let calls : List SysCall := [⟨cleanStack, 6, 0x400900, 6, 0, 0⟩, ⟨cleanStack, 3, 0, 0x400800, 2, 0⟩]
    let s := calls.foldl (issue flatHardware (offline programs)) (machineWith 0x7F7)
    ((machineWith 0x7F7).kernel.processes 0).capabilities &&& capFilesystemWrite = 0 ∧
      (bootVfs.nodes 3).type = .free ∧ (s.vfs.nodes 3).type = .file ∧
      (s.vfs.nodes 3).contentLen = 2 := by
  decide +kernel

end NexusOS.Core
