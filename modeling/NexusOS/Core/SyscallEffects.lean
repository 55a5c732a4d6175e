import NexusOS.Core.LifecycleRun
import NexusOS.Core.Syscall

namespace NexusOS.Core

open Fs Sched

variable {V F : Type*} {m : Hardware V} {fat : Fat F} {g : Garbage} {s : Machine V F}
  {k k' k'' : Kernel V} {p p' p'' : Process} {P : List Str} {i : Fin 8} {pid : ℕ}

section Updates

/-- What a process keeps as long as it neither starts nor ends. Files that were not open before are
those of `P`. -/
structure Process.Kept (P : List Str) (p p' : Process) : Prop where
  pid : p'.pid = p.pid
  parentPid : p'.parentPid = p.parentPid
  state : p'.state = p.state
  exitCode : p'.exitCode = p.exitCode
  capabilities : p'.capabilities &&& p.capabilities = p'.capabilities
  files : ∀ j, (p'.fds j).type = .vfsFile → (p'.fds j).path ∈ P ∨
    (p.fds j).type = .vfsFile ∧ (p'.fds j).path = (p.fds j).path

theorem Process.Kept.refl (P : List Str) (p : Process) : p.Kept P p :=
  ⟨rfl, rfl, rfl, rfl, Nat.and_self _, fun _ h ↦ .inr ⟨h, rfl⟩⟩

theorem Process.Kept.trans (h : p.Kept P p') (h' : p'.Kept P p'') : p.Kept P p'' := by
  refine ⟨h'.pid.trans h.pid, h'.parentPid.trans h.parentPid, h'.state.trans h.state,
    h'.exitCode.trans h.exitCode, ?_, ?_⟩
  · rw [← h'.capabilities, Nat.and_assoc, h.capabilities]
  · intro j hj
    rcases h'.files j hj with hp | ⟨hj', hpath'⟩
    · exact .inl hp
    rw [hpath']
    exact h.files j hj'

/-- The processes are the same, apart from what they do not keep. -/
structure Update (P : List Str) (k k' : Kernel V) : Prop where
  process : ∀ j, (k.processes j).Kept P (k'.processes j)
  nextPid : k'.nextPid = k.nextPid
  currentPid : k'.currentPid = k.currentPid
  processCount : k'.processCount = k.processCount
  zombieCount : k'.zombieCount = k.zombieCount
  processReady : k'.processReady = k.processReady

theorem Update.refl (P : List Str) (k : Kernel V) : Update P k k :=
  ⟨fun _ ↦ .refl _ _, rfl, rfl, rfl, rfl, rfl⟩

theorem Update.trans (h : Update P k k') (h' : Update P k' k'') : Update P k k'' :=
  ⟨fun j ↦ (h.process j).trans (h'.process j), h'.nextPid.trans h.nextPid,
    h'.currentPid.trans h.currentPid, h'.processCount.trans h.processCount,
    h'.zombieCount.trans h.zombieCount, h'.processReady.trans h.processReady⟩

theorem Update.vm (k : Kernel V) (v : V) : Update P k { k with vm := v } :=
  ⟨fun _ ↦ .refl _ _, rfl, rfl, rfl, rfl, rfl⟩

theorem Update.setProcess (h : (k.processes i).Kept P p) :
    Update P k (k.setProcess i p) := by
  refine ⟨?_, rfl, rfl, rfl, rfl, rfl⟩
  intro j
  by_cases hj : j = i
  · subst hj
    simpa using h
  · simpa [hj] using Process.Kept.refl P (k.processes j)

theorem Update.sameButIpc (h : SameButIpc k k') : Update P k k' := by
  refine ⟨?_, h.nextPid, h.currentPid, h.processCount, h.zombieCount, h.processReady⟩
  intro j
  obtain ⟨handles, hj⟩ := h.process j
  rw [hj]
  exact ⟨rfl, rfl, rfl, rfl, Nat.and_self _, fun _ h ↦ .inr ⟨h, rfl⟩⟩

def Process.identity (p : Process) : ℕ × ℕ × ProcessState × ℕ × ℕ × (Fin 16 → Fd) :=
  (p.pid, p.parentPid, p.state, p.exitCode, p.capabilities, p.fds)

theorem Process.Kept.of_identity (h : p'.identity = p.identity) : p.Kept P p' := by
  simp only [identity, Prod.mk.injEq] at h
  obtain ⟨hpid, hparent, hstate, hcode, hcaps, hfds⟩ := h
  refine ⟨hpid, hparent, hstate, hcode, by rw [hcaps, Nat.and_self], ?_⟩
  intro j hj
  rw [hfds] at hj ⊢
  exact .inr ⟨hj, rfl⟩

theorem Update.write (h : p.identity = (k.processes i).identity) :
    Update P k (k.setProcess i p) :=
  .setProcess (.of_identity h)

theorem Update.write_vm (h : p.identity = (k.processes i).identity) (v : V) :
    Update P k { k.setProcess i p with vm := v } :=
  (Update.write h).trans (.vm _ v)

end Updates

section UserMemory

variable {m : Memory V}

theorem processMapUserPage_update (k : Kernel V) (pid va flags : ℕ) :
    Update P k (processMapUserPage m k pid va flags).2 := by
  unfold processMapUserPage
  split
  · exact .refl _ _
  split
  · exact .refl _ _
  dsimp only
  split_ifs
  · exact .refl _ _
  · exact .refl _ _
  · exact .vm _ _
  · exact .vm _ _
  · exact .write_vm (by rfl) _

theorem mapPages_update (pid base flags n j : ℕ) (k : Kernel V) :
    (∀ k', mapPages m pid base flags n j k = .ok k' → Update P k k') ∧
      ∀ l k', mapPages m pid base flags n j k = .error (l, k') → Update P k k' := by
  induction n generalizing j k with
  | zero =>
    refine ⟨?_, ?_⟩
    · intro k' h
      obtain rfl := Except.ok.inj h
      exact .refl _ _
    · intro l k' h
      cases h
  | succ n ih =>
    have hone := processMapUserPage_update (m := m) (P := P) k pid
      ((base + j * 4096) % 2 ^ 64) flags
    simp only [mapPages]
    split_ifs with hr
    · obtain ⟨hok, herr⟩ := ih (j + 1) (processMapUserPage m k pid ((base + j * 4096) % 2 ^ 64) flags).2
      exact ⟨fun k' h ↦ hone.trans (hok k' h), fun l k' h ↦ hone.trans (herr l k' h)⟩
    refine ⟨?_, ?_⟩
    · intro k' h
      cases h
    intro l k' h
    obtain ⟨-, rfl⟩ := Prod.mk.inj (Except.error.inj h)
    exact hone

theorem processUnmapUserMemory_update (k : Kernel V) (pid : ℕ) :
    Update P k (processUnmapUserMemory m k pid).2 := by
  unfold processUnmapUserMemory
  split
  · exact .refl _ _
  · exact .write_vm (by rfl) _

theorem processUnmapUserRange_update (k : Kernel V) (pid base size : ℕ) :
    Update P k (processUnmapUserRange m k pid base size).2 := by
  unfold processUnmapUserRange
  split
  · exact .refl _ _
  dsimp only
  split_ifs
  · exact .refl _ _
  · exact .write_vm (by rfl) _

theorem processAllocUserRange_update (k : Kernel V) (pid pages flags : ℕ) :
    Update P k (processAllocUserRange m k pid pages flags).2 := by
  unfold processAllocUserRange
  split
  · exact .refl _ _
  rename_i i hi
  dsimp only
  split_ifs
  · exact .refl _ _
  · exact .refl _ _
  · exact .refl _ _
  obtain ⟨hok, herr⟩ := mapPages_update (m := m) (P := P) pid
    (heapStart (k.processes i)) flags pages 0 k
  cases hmap : mapPages m pid (heapStart (k.processes i)) flags pages 0 k with
  | error e => exact (herr e.1 e.2 hmap).trans (processUnmapUserRange_update _ _ _ _)
  | ok k' => exact (hok k' hmap).trans (.write (by rfl))

end UserMemory

section Fields

theorem processUserWrite_update (k : Kernel V) (pid va : ℕ) (src : List UInt8) :
    Update P k (processUserWrite m k pid va src).2 := by
  unfold processUserWrite
  split
  · exact .refl _ _
  dsimp only
  split_ifs
  · exact .refl _ _
  · exact .vm _ _

theorem processUserCopy_update (k : Kernel V) (pid va : ℕ) (src : List UInt8) :
    Update P k (processUserCopy m k pid va src).2 := by
  unfold processUserCopy
  split
  · exact .refl _ _
  dsimp only
  split_ifs
  · exact .refl _ _
  · exact .vm _ _

theorem updateProcess_update (k : Kernel V) (pid : ℕ) (ok : Bool) {f : Process → Process}
    (hf : ∀ p : Process, p.Kept P (f p)) : Update P k (updateProcess k pid ok f).2 := by
  unfold updateProcess
  split
  · exact .refl _ _
  split_ifs
  · exact .refl _ _
  · exact .setProcess (hf _)

theorem processSetEnv_update (k : Kernel V) (pid : ℕ) (name value : Str) :
    Update P k (processSetEnv k pid name value).2 := by
  unfold processSetEnv
  split
  · exact .refl _ _
  split_ifs
  · exact .refl _ _
  split
  · exact .refl _ _
  · exact .write (by rfl)

theorem processUnsetEnv_update (k : Kernel V) (pid : ℕ) (name : Str) :
    Update P k (processUnsetEnv k pid name).2 := by
  unfold processUnsetEnv
  split
  · exact .refl _ _
  split
  · exact .refl _ _
  · exact .write (by rfl)

theorem processDropCapability_update (k : Kernel V) (pid capability : ℕ) :
    Update P k (processDropCapability k pid capability).2 := by
  unfold processDropCapability
  split
  · exact .refl _ _
  rename_i i hi
  split_ifs
  · exact .refl _ _
  refine .setProcess ⟨rfl, rfl, rfl, rfl, ?_, fun _ h ↦ .inr ⟨h, rfl⟩⟩
  dsimp only
  rw [Nat.and_right_comm, Nat.and_self]

end Fields

section Files

theorem Update.setFd {j : Fin 16} {fd : Fd}
    (h : fd.type = .vfsFile → fd.path ∈ P ∨
      ((k.processes i).fds j).type = .vfsFile ∧ fd.path = ((k.processes i).fds j).path) :
    Update P k (setFd k i j fd) := by
  refine .setProcess ⟨rfl, rfl, rfl, rfl, Nat.and_self _, ?_⟩
  intro l hl
  by_cases hlj : l = j
  · subst hlj
    simp only [Function.update_self] at hl ⊢
    exact h hl
  · simp only [Function.update_of_ne hlj] at hl ⊢
    exact .inr ⟨hl, trivial⟩

theorem fileOf_type {fd : ℕ} {j : Fin 16} (h : fileOf p fd = some j) :
    (p.fds j).type = .vfsFile := by
  obtain ⟨-, htype⟩ := Option.filter_eq_some_iff.1 h
  simpa using htype

theorem Update.advanceFd {j : Fin 16} (h : ((k.processes i).fds j).type = .vfsFile) (n : ℕ) :
    Update P k (advanceFd k i j n) :=
  .setFd fun _ ↦ .inr ⟨h, rfl⟩

theorem processFdClose_update (k : Kernel V) (pid fd : ℕ) :
    Update P k (processFdClose k pid fd).2 := by
  unfold processFdClose
  split
  · exact .refl _ _
  split
  · exact .refl _ _
  split_ifs
  · exact .refl _ _
  refine .setFd fun h ↦ ?_
  cases h

theorem processFdOpen_update (k : Kernel V) (v : Vfs F) (pid : ℕ) (path : Str) (flags : ℕ)
    (junk : ℕ → Stale) :
    Update [localCopy path 128] k (processFdOpen fat k v pid path flags junk).2.1 := by
  unfold processFdOpen
  split
  · exact .refl _ _
  split
  · exact .refl _ _
  split
  · exact .refl _ _
  dsimp only
  split
  · exact .refl _ _
  · exact .setFd fun _ ↦ .inl (List.mem_singleton_self _)

theorem processFdRead_update (k : Kernel V) (v : Vfs F) (pid fd size : ℕ) (junk : Stale) :
    Update P k (processFdRead fat k v pid fd size junk).2.1 := by
  unfold processFdRead
  split
  · exact .refl _ _
  split
  · exact .refl _ _
  rename_i j hj
  dsimp only
  split
  · exact .refl _ _
  · exact .advanceFd (fileOf_type hj) _

theorem processFdWrite_update (k : Kernel V) (v : Vfs F) (pid fd : ℕ) (bytes : List UInt8)
    (junk : Stale) : Update P k (processFdWrite fat k v pid fd bytes junk).2.1 := by
  unfold processFdWrite
  split
  · exact .refl _ _
  split
  · exact .refl _ _
  rename_i j hj
  dsimp only
  split_ifs
  · exact .refl _ _
  split
  · exact .refl _ _
  · exact .advanceFd (fileOf_type hj) _

theorem processFdSeek_update (k : Kernel V) (v : Vfs F) (pid fd offset whence : ℕ) (junk : Stale) :
    Update P k (processFdSeek fat k v pid fd offset whence junk).2.1 := by
  unfold processFdSeek
  split
  · exact .refl _ _
  split
  · exact .refl _ _
  rename_i j hj
  dsimp only
  split
  · exact .refl _ _
  have hmoved (pos : ℕ) : Update P k
      (setFd k _ j { (k.processes _).fds j with offset := pos }) :=
    .setFd fun _ ↦ .inr ⟨fileOf_type hj, by rfl⟩
  split_ifs
  all_goals first
    | exact .refl _ _
    | exact hmoved _

end Files

section Calls

theorem replyWith_update (m : Hardware V) (s : Machine V F) (pid va : ℕ) (bytes : List UInt8)
    (n : ℕ) : Update P s.kernel (replyWith m s pid va bytes n).2.kernel :=
  processUserWrite_update _ _ _ _

theorem replyString_update (m : Hardware V) (s : Machine V F) (pid va limit : ℕ)
    (array : ℕ → UInt8) : Update P s.kernel (replyString m s pid va limit array).2.kernel :=
  replyWith_update m s pid va _ _

theorem sysGetname_update (a0 a1 : ℕ) :
    Update P s.kernel (sysGetname m s pid g a0 a1).2.kernel := by
  unfold sysGetname
  split
  · exact .refl _ _
  split
  · exact .refl _ _
  · exact replyString_update _ _ _ _ _ _

theorem sysGetcwd_update (a0 a1 : ℕ) :
    Update P s.kernel (sysGetcwd m s pid g a0 a1).2.kernel := by
  unfold sysGetcwd
  split
  · exact .refl _ _
  split
  · exact .refl _ _
  · exact replyString_update _ _ _ _ _ _

theorem sysGetenv_update (a0 a1 a2 : ℕ) :
    Update P s.kernel (sysGetenv m s pid g a0 a1 a2).2.kernel := by
  unfold sysGetenv
  split
  · exact .refl _ _
  split
  · exact .refl _ _
  split
  · exact .refl _ _
  · exact replyString_update _ _ _ _ _ _

theorem sysConstant_update (a0 a1 limit : ℕ) (str : Str) :
    Update P s.kernel (sysConstant m s pid a0 a1 limit str).2.kernel := by
  unfold sysConstant
  split
  · exact .refl _ _
  · exact replyString_update _ _ _ _ _ _

theorem sysMeminfo_update (p : Process) (a0 : ℕ) :
    Update P s.kernel (sysMeminfo m s pid p a0).2.kernel := by
  unfold sysMeminfo
  split
  · exact .refl _ _
  · exact replyWith_update _ _ _ _ _ _

theorem sysGetcaps_update (a0 : ℕ) : Update P s.kernel (sysGetcaps m s pid a0).2.kernel := by
  unfold sysGetcaps
  split
  · exact .refl _ _
  · exact replyWith_update _ _ _ _ _ _

theorem sysRuntimeInfo_update (p : Process) (a0 a1 : ℕ) :
    Update P s.kernel (sysRuntimeInfo m s pid g p a0 a1).2.kernel := by
  unfold sysRuntimeInfo
  split
  · exact .refl _ _
  split
  · exact .refl _ _
  · exact replyWith_update _ _ _ _ _ _

theorem enumLoop_update (a0 cap : ℕ) (pids : List ℕ) (n : ℕ) (s : Machine V F) :
    Update P s.kernel (enumLoop m pid a0 cap pids n s).2.kernel := by
  induction pids generalizing n s with
  | nil => exact .refl _ _
  | cons q pids ih =>
    rw [enumLoop]
    split
    · exact .refl _ _
    split
    · exact ih n s
    rename_i j hj
    have hput : Update P s.kernel (putUser m s pid ((a0 + n * 40) % 2 ^ 64)
        (processInfo (s.kernel.processes j))).2.kernel := processUserWrite_update _ _ _ _
    dsimp only
    split
    · exact hput.trans (ih (n + 1) _)
    · exact hput

theorem sysProcessEnum_update (a0 a1 a2 : ℕ) :
    Update P s.kernel (sysProcessEnum m s pid a0 a1 a2).2.kernel := by
  unfold sysProcessEnum
  split
  · exact .refl _ _
  · exact enumLoop_update _ _ _ _ _

theorem sysWaitpid_update (a0 a1 : ℕ) :
    Update P s.kernel (sysWaitpid m s pid a0 a1).2.kernel := by
  unfold sysWaitpid
  split
  · exact .refl _ _
  split
  · exact replyWith_update _ _ _ _ _ _
  · exact .refl _ _

theorem sysStat_update (a0 a1 : ℕ) :
    Update P s.kernel (sysStat m fat g s pid a0 a1).2.kernel := by
  unfold sysStat
  split
  · exact .refl _ _
  split
  · exact .refl _ _
  dsimp only
  split
  · exact processUserWrite_update _ _ _ _
  split
  · exact processUserWrite_update _ _ _ _
  · exact .refl _ _

theorem sysChdir_update (a0 : ℕ) :
    Update P s.kernel (sysChdir m fat g s pid a0).2.kernel := by
  unfold sysChdir
  split
  · exact .refl _ _
  dsimp only
  split
  · exact .refl _ _
  · exact updateProcess_update _ _ _ fun _ ↦ .of_identity (by rfl)

theorem sysWrite_update (a0 a1 a2 : ℕ) :
    Update P s.kernel (sysWrite m fat g s pid a0 a1 a2).2.kernel := by
  unfold sysWrite
  split
  · exact .refl _ _
  split
  · exact .refl _ _
  split
  · exact .refl _ _
  · exact processFdWrite_update _ _ _ _ _ _

theorem sysRead_update (a0 a1 a2 : ℕ) :
    Update P s.kernel (sysRead m fat g s pid a0 a1 a2).2.kernel := by
  unfold sysRead
  split
  · exact .refl _ _
  have hread : Update P s.kernel
      (processFdRead fat s.kernel s.vfs pid a0 a2 (g.stale 0)).2.1 :=
    processFdRead_update _ _ _ _ _ _
  dsimp only
  split
  · exact hread
  · exact hread.trans (processUserWrite_update _ _ _ _)

theorem sysOpen_update (a0 a1 : ℕ) :
    Update ((copyUserString m s pid a0 128).map (localCopy · 128)).toList s.kernel
      (sysOpen m fat g s pid a0 a1).2.kernel := by
  unfold sysOpen
  split
  · exact .refl _ _
  split
  · exact .refl _ _
  rename_i path hpath
  rw [hpath]
  exact processFdOpen_update _ _ _ _ _ _

theorem changeTree_update (a0 : ℕ) (change : Vfs F → Str → Bool × Vfs F) :
    Update P s.kernel (changeTree m s pid a0 change).2.kernel := by
  unfold changeTree
  split
  · exact .refl _ _
  · split <;> exact .refl _ _

theorem sysRename_update (a0 a1 : ℕ) :
    Update P s.kernel (sysRename m s pid a0 a1).2.kernel := by
  unfold sysRename
  split
  · exact .refl _ _
  · split <;> exact .refl _ _

theorem sysSetpriority_update (a0 : ℕ) :
    Update P s.kernel (sysSetpriority s pid a0).2.kernel := by
  unfold sysSetpriority
  split
  · exact .refl _ _
  · exact updateProcess_update _ _ _ fun _ ↦ .of_identity (by rfl)

theorem sysSetname_update (a0 a1 : ℕ) :
    Update P s.kernel (sysSetname m s pid a0 a1).2.kernel := by
  unfold sysSetname
  split
  · exact .refl _ _
  split
  · exact .refl _ _
  · exact updateProcess_update _ _ _ fun _ ↦ .of_identity (by rfl)

theorem sysSetenv_update (a0 a1 : ℕ) :
    Update P s.kernel (sysSetenv m s pid a0 a1).2.kernel := by
  unfold sysSetenv
  split
  · exact processSetEnv_update _ _ _ _
  · exact .refl _ _

theorem sysUnsetenv_update (a0 : ℕ) :
    Update P s.kernel (sysUnsetenv m s pid a0).2.kernel := by
  unfold sysUnsetenv
  split
  · exact .refl _ _
  · exact processUnsetEnv_update _ _ _

theorem sysMmap_update (a1 : ℕ) : Update P s.kernel (sysMmap m s pid a1).2.kernel := by
  unfold sysMmap
  dsimp only
  split
  · exact .refl _ _
  · exact processAllocUserRange_update _ _ _ _

theorem sysMunmap_update (a0 a1 : ℕ) :
    Update P s.kernel (sysMunmap m s pid a0 a1).2.kernel := by
  unfold sysMunmap
  split
  · exact .refl _ _
  · exact processUnmapUserRange_update _ _ _ _

theorem setHeapEnd_update (k : Kernel V) (i : Fin 8) (stop : ℕ) :
    Update P k (setHeapEnd k i stop) :=
  .write (by rfl)

theorem sysBrk_update (a0 : ℕ) : Update P s.kernel (sysBrk m s pid i a0).2.kernel := by
  unfold sysBrk
  dsimp only
  split
  · exact .refl _ _
  split
  · exact .refl _ _
  split
  · exact .refl _ _
  split
  · split
    · exact processAllocUserRange_update _ _ _ _
    · exact (processAllocUserRange_update _ _ _ _).trans (setHeapEnd_update _ _ _)
  split
  · split
    · exact processUnmapUserRange_update _ _ _ _
    · exact (processUnmapUserRange_update _ _ _ _).trans (setHeapEnd_update _ _ _)
  · exact .refl _ _

theorem sysChannelCreate_update (m : Hardware V) (a0 : ℕ) :
    Update P s.kernel (sysChannelCreate s pid a0).2.kernel := by
  unfold sysChannelCreate
  split
  · exact .refl _ _
  · exact .sameButIpc (@step_ipc _ m.toMemory s.kernel (.ipcCreate pid a0 true) rfl)

theorem sysChannelClose_update (m : Hardware V) (a0 : ℕ) :
    Update P s.kernel (sysChannelClose s pid a0).2.kernel := by
  unfold sysChannelClose
  split
  · exact .refl _ _
  · exact .sameButIpc (@step_ipc _ m.toMemory s.kernel (.ipcClose pid (a0 % 2 ^ 32)) rfl)

theorem sysChannelSend_update (a0 a1 a2 : ℕ) :
    Update P s.kernel (sysChannelSend m s pid a0 a1 a2).2.kernel := by
  unfold sysChannelSend
  split
  · exact .refl _ _
  split
  · exact .refl _ _
  rename_i bytes hbytes
  exact .sameButIpc
    (@step_ipc _ m.toMemory s.kernel (.ipcSend pid (a0 % 2 ^ 32) (some bytes)) rfl)

theorem sysChannelRecv_update (a0 a1 a2 a3 : ℕ) :
    Update P s.kernel (sysChannelRecv m g s pid a0 a1 a2 a3).2.kernel := by
  unfold sysChannelRecv
  split
  · exact .refl _ _
  have hrecv : Update P s.kernel (nexusIpcRecv s.kernel pid (a0 % 2 ^ 32) true a2).2 :=
    .sameButIpc (@step_ipc _ m.toMemory s.kernel (.ipcRecv pid (a0 % 2 ^ 32) true a2) rfl)
  dsimp only
  split
  · exact hrecv
  split
  · exact hrecv.trans (processUserWrite_update _ _ _ _)
  · exact (hrecv.trans (processUserWrite_update _ _ _ _)).trans (processUserWrite_update _ _ _ _)

def openedBy (m : Hardware V) (s : Machine V F) (pid a0 : ℕ) : Sys → List Str
  | .open_ => ((copyUserString m s pid a0 128).map (localCopy · 128)).toList
  | _ => []

theorem syscall_update {c : Sys} (hc : c ≠ .exec) (a0 a1 a2 a3 : ℕ) :
    Update (openedBy m s (s.kernel.processes i).pid a0 c) s.kernel
      (syscall m fat g s i c a0 a1 a2 a3).2.kernel := by
  cases c with
  | query q => exact .refl _ _
  | write => exact sysWrite_update a0 a1 a2
  | close => exact processFdClose_update _ _ _
  | open_ => exact sysOpen_update a0 a1
  | read => exact sysRead_update a0 a1 a2
  | seek => exact processFdSeek_update _ _ _ _ _ _ _
  | stat => exact sysStat_update a0 a1
  | mkdir => exact changeTree_update a0 _
  | rmdir => exact changeTree_update a0 _
  | unlink => exact changeTree_update a0 _
  | rename => exact sysRename_update a0 a1
  | getcwd => exact sysGetcwd_update a0 a1
  | chdir => exact sysChdir_update a0
  | processEnum => exact sysProcessEnum_update a0 a1 a2
  | waitpid => exact sysWaitpid_update a0 a1
  | setpriority => exact sysSetpriority_update a0
  | getname => exact sysGetname_update a0 a1
  | setname => exact sysSetname_update a0 a1
  | exec => exact absurd rfl hc
  | mmap => exact sysMmap_update a1
  | munmap => exact sysMunmap_update a0 a1
  | brk => exact sysBrk_update a0
  | getenv => exact sysGetenv_update a0 a1 a2
  | setenv => exact sysSetenv_update a0 a1
  | unsetenv => exact sysUnsetenv_update a0
  | meminfo => exact sysMeminfo_update _ a0
  | getversion => exact sysConstant_update a0 a1 _ _
  | getarch => exact sysConstant_update a0 a1 _ _
  | runtimeInfo => exact sysRuntimeInfo_update _ a0 a1
  | channelCreate => exact sysChannelCreate_update m a0
  | channelClose => exact sysChannelClose_update m a0
  | channelSend => exact sysChannelSend_update a0 a1 a2
  | channelRecv => exact sysChannelRecv_update a0 a1 a2 a3
  | getcaps => exact sysGetcaps_update a0
  | dropCap => exact processDropCapability_update _ _ _

end Calls

section Exec

theorem mapCleared_update (k : Kernel V) (pid va flags : ℕ) :
    Update P k (mapCleared m pid k va flags).2 := by
  unfold mapCleared
  dsimp only
  split
  · exact (processMapUserPage_update _ _ _ _).trans (processUserCopy_update _ _ _ _)
  · exact processMapUserPage_update _ _ _ _

theorem untilFailure_update {α : Type*} {f : Kernel V → α → Bool × Kernel V}
    (hf : ∀ k a, Update P k (f k a).2) (as : List α) (k : Kernel V) :
    Update P k (untilFailure f as k).2 := by
  induction as generalizing k with
  | nil => exact .refl _ _
  | cons a as ih =>
    rw [untilFailure]
    split
    · exact (hf k a).trans (ih _)
    · exact hf k a

theorem loadImage_update (pid : ℕ) (file : List UInt8) (image : Image) (k : Kernel V) :
    Update P k (loadImage m pid file image k).2 := by
  have hmap := untilFailure_update (P := P)
    (fun k i ↦ mapCleared_update (m := m) k pid (image.start + i * 4096)
      (pageFlagsFor image.phdrs (biased (-image.bias) (image.start + i * 4096))))
    (List.range ((image.stop - image.start) / 4096)) k
  have hstack (k : Kernel V) := untilFailure_update (P := P)
    (fun k i ↦ mapCleared_update (m := m) k pid (stackBase + i * 4096) (pageWritable ||| pageNx))
    (List.range elfStackPages) k
  have hcopy (k : Kernel V) := untilFailure_update (P := P)
    (fun k (p : Phdr) ↦ processUserCopy_update (m := m) k pid (biased image.bias p.vaddr)
      ((file.drop p.offset).take p.filesz))
    (image.phdrs.filter fun p ↦ p.type = ptLoad ∧ p.filesz ≠ 0) k
  unfold loadImage
  dsimp only
  split
  · exact hmap
  split
  · exact hmap.trans (hstack _)
  split
  · exact (hmap.trans (hstack _)).trans (hcopy _)
  · exact (hmap.trans (hstack _)).trans (hcopy _)

theorem nexusElfLoadProcess_update (k : Kernel V) (v : Vfs F) (pid : ℕ) (path : Str) :
    Update P k (nexusElfLoadProcess m pid fat k v path).2.1 := by
  unfold nexusElfLoadProcess
  split
  · exact .refl _ _
  split
  · exact .refl _ _
  dsimp only
  split
  · exact .refl _ _
  rename_i file hfile
  split
  · exact .refl _ _
  rename_i image himage
  have hload := loadImage_update (m := m) (P := P) pid file image k
  split
  · exact hload.trans (processUnmapUserMemory_update _ _)
  split
  · exact hload.trans (processUnmapUserMemory_update _ _)
  · exact hload.trans (.write (by rfl))

theorem threadCreate_kernel (m : Platform V) (sys : System V) (entry : Option Entry) (arg : ℕ) :
    Update P sys.kernel (threadCreate m sys entry arg).2.kernel := by
  unfold threadCreate
  split
  · exact .refl _ _
  split
  · exact .refl _ _
  split
  · exact .refl _ _
  dsimp only
  split
  · exact .vm _ _
  · exact .vm _ _

theorem threadCreateUserProcess_kernel (m : Platform V) (sys : System V) (pid : ℕ) :
    Update P sys.kernel (threadCreateUserProcess m sys pid).2.kernel := by
  unfold threadCreateUserProcess
  split
  · exact .refl _ _
  split
  · exact .refl _ _
  split
  · exact .refl _ _
  have hnew := threadCreate_kernel (P := P) m sys (some .userProcessBootstrap) pid
  dsimp only
  split
  · exact hnew
  split
  · exact hnew
  · exact hnew.trans (.write (by rfl))

theorem usermodePrepare_update (k : Kernel V) (pid entry userStack kernelStack : ℕ) :
    Update P k (usermodePrepare m k pid entry userStack kernelStack).2 := by
  unfold usermodePrepare
  split
  · exact .refl _ _
  split
  · exact .refl _ _
  split
  · exact .refl _ _
  · exact .write (by rfl)

end Exec

end NexusOS.Core
