import NexusOS.Core.SyscallEffects

namespace NexusOS.Core

open Fs Sched

variable {V F : Type*} {m : Hardware V} {fat : Fat F} {s : Machine V F} {g : Garbage} {pid : ℕ}
  {i : Fin 8} {φ : Vfs F → Vfs F}

def Machine.mapVfs (φ : Vfs F → Vfs F) (s : Machine V F) : Machine V F :=
  { s with vfs := φ s.vfs }

@[simp]
theorem Machine.mapVfs_kernel (φ : Vfs F → Vfs F) (s : Machine V F) :
    (s.mapVfs φ).kernel = s.kernel := rfl

/-- What a call answers, in the machine with another file system. -/
def reframe (φ : Vfs F → Vfs F) (r : ℕ × Machine V F) : ℕ × Machine V F := (r.1, r.2.mapVfs φ)

theorem ite_frame {c : Prop} [Decidable c] {a a' b b' : ℕ × Machine V F} (ha : a' = reframe φ a)
    (hb : b' = reframe φ b) : (if c then a' else b') = reframe φ (if c then a else b) := by
  split_ifs
  · exact ha
  · exact hb

theorem guard_frame {c : Prop} [Decidable c] {n : ℕ} {b b' : ℕ × Machine V F}
    (hb : b' = reframe φ b) :
    (if c then (n, s.mapVfs φ) else b') = reframe φ (if c then (n, s) else b) :=
  ite_frame rfl hb

section Plain

theorem sysGetname_frame (a0 a1 : ℕ) :
    sysGetname m (s.mapVfs φ) pid g a0 a1 = reframe φ (sysGetname m s pid g a0 a1) := by
  apply guard_frame
  rw [Machine.mapVfs_kernel]
  cases processGetName s.kernel pid 32 <;> rfl

theorem sysGetcwd_frame (a0 a1 : ℕ) :
    sysGetcwd m (s.mapVfs φ) pid g a0 a1 = reframe φ (sysGetcwd m s pid g a0 a1) := by
  apply guard_frame
  rw [Machine.mapVfs_kernel]
  cases processGetCwd s.kernel pid 128 <;> rfl

theorem sysGetenv_frame (a0 a1 a2 : ℕ) :
    sysGetenv m (s.mapVfs φ) pid g a0 a1 a2 = reframe φ (sysGetenv m s pid g a0 a1 a2) := by
  apply guard_frame
  rw [Machine.mapVfs_kernel]
  cases processUserRead m s.kernel pid a0 24 with
  | none => rfl
  | some bytes =>
    dsimp only
    cases processGetEnv s.kernel pid ((bytes.take 23).takeWhile (· ≠ 0)) 64 <;> rfl

theorem sysConstant_frame (a0 a1 limit : ℕ) (str : Str) :
    sysConstant m (s.mapVfs φ) pid a0 a1 limit str =
      reframe φ (sysConstant m s pid a0 a1 limit str) := by
  apply guard_frame
  rfl

theorem sysMeminfo_frame (p : Process) (a0 : ℕ) :
    sysMeminfo m (s.mapVfs φ) pid p a0 = reframe φ (sysMeminfo m s pid p a0) := by
  apply guard_frame
  rfl

theorem sysGetcaps_frame (a0 : ℕ) :
    sysGetcaps m (s.mapVfs φ) pid a0 = reframe φ (sysGetcaps m s pid a0) := by
  apply guard_frame
  rfl

theorem sysRuntimeInfo_frame (p : Process) (a0 a1 : ℕ) :
    sysRuntimeInfo m (s.mapVfs φ) pid g p a0 a1 = reframe φ (sysRuntimeInfo m s pid g p a0 a1) := by
  apply guard_frame
  apply guard_frame
  rfl

theorem enumLoop_frame (a0 cap : ℕ) (pids : List ℕ) (n : ℕ) (s : Machine V F) :
    enumLoop m pid a0 cap pids n (s.mapVfs φ) = reframe φ (enumLoop m pid a0 cap pids n s) := by
  induction pids generalizing n s with
  | nil => rfl
  | cons q pids ih =>
    apply guard_frame
    rw [Machine.mapVfs_kernel]
    cases processGet s.kernel q with
    | none => exact ih n s
    | some j =>
      apply ite_frame
      · exact ih (n + 1)
          (putUser m s pid ((a0 + n * 40) % 2 ^ 64) (processInfo (s.kernel.processes j))).2
      · rfl

theorem sysProcessEnum_frame (a0 a1 a2 : ℕ) :
    sysProcessEnum m (s.mapVfs φ) pid a0 a1 a2 = reframe φ (sysProcessEnum m s pid a0 a1 a2) := by
  apply guard_frame
  exact enumLoop_frame _ _ _ _ _

theorem sysWaitpid_frame (a0 a1 : ℕ) :
    sysWaitpid m (s.mapVfs φ) pid a0 a1 = reframe φ (sysWaitpid m s pid a0 a1) := by
  unfold sysWaitpid
  rw [Machine.mapVfs_kernel]
  cases endedChild pid s.kernel a0 with
  | none => rfl
  | some r =>
    apply ite_frame
    · rfl
    · rfl

theorem sysClose_frame (a0 : ℕ) :
    sysClose (s.mapVfs φ) pid a0 = reframe φ (sysClose s pid a0) := rfl

theorem sysSetpriority_frame (a0 : ℕ) :
    sysSetpriority (s.mapVfs φ) pid a0 = reframe φ (sysSetpriority s pid a0) := by
  apply guard_frame
  rfl

theorem sysSetname_frame (a0 a1 : ℕ) :
    sysSetname m (s.mapVfs φ) pid a0 a1 = reframe φ (sysSetname m s pid a0 a1) := by
  apply guard_frame
  rw [Machine.mapVfs_kernel]
  cases processUserRead m s.kernel pid a0 a1 <;> rfl

theorem copyUserString_frame (va cap : ℕ) :
    copyUserString m (s.mapVfs φ) pid va cap = copyUserString m s pid va cap := rfl

theorem sysSetenv_frame (a0 a1 : ℕ) :
    sysSetenv m (s.mapVfs φ) pid a0 a1 = reframe φ (sysSetenv m s pid a0 a1) := by
  unfold sysSetenv
  rw [copyUserString_frame, copyUserString_frame]
  cases copyUserString m s pid a0 24 with
  | none => rfl
  | some name => cases copyUserString m s pid a1 64 <;> rfl

theorem sysUnsetenv_frame (a0 : ℕ) :
    sysUnsetenv m (s.mapVfs φ) pid a0 = reframe φ (sysUnsetenv m s pid a0) := by
  unfold sysUnsetenv
  rw [copyUserString_frame]
  cases copyUserString m s pid a0 24 <;> rfl

theorem sysMmap_frame (a1 : ℕ) :
    sysMmap m (s.mapVfs φ) pid a1 = reframe φ (sysMmap m s pid a1) := by
  apply guard_frame
  rfl

theorem sysMunmap_frame (a0 a1 : ℕ) :
    sysMunmap m (s.mapVfs φ) pid a0 a1 = reframe φ (sysMunmap m s pid a0 a1) := by
  apply guard_frame
  rfl

theorem sysBrk_frame (a0 : ℕ) :
    sysBrk m (s.mapVfs φ) pid i a0 = reframe φ (sysBrk m s pid i a0) := by
  apply guard_frame
  apply guard_frame
  apply guard_frame
  apply ite_frame
  · apply ite_frame
    · rfl
    · rfl
  apply ite_frame
  · apply ite_frame
    · rfl
    · rfl
  · rfl

theorem sysChannelCreate_frame (a0 : ℕ) :
    sysChannelCreate (s.mapVfs φ) pid a0 = reframe φ (sysChannelCreate s pid a0) := by
  apply guard_frame
  rfl

theorem sysChannelClose_frame (a0 : ℕ) :
    sysChannelClose (s.mapVfs φ) pid a0 = reframe φ (sysChannelClose s pid a0) := by
  apply guard_frame
  rfl

theorem sysChannelSend_frame (a0 a1 a2 : ℕ) :
    sysChannelSend m (s.mapVfs φ) pid a0 a1 a2 = reframe φ (sysChannelSend m s pid a0 a1 a2) := by
  apply guard_frame
  rw [Machine.mapVfs_kernel]
  cases processUserRead m s.kernel pid a1 a2 <;> rfl

theorem sysChannelRecv_frame (a0 a1 a2 a3 : ℕ) :
    sysChannelRecv m g (s.mapVfs φ) pid a0 a1 a2 a3 =
      reframe φ (sysChannelRecv m g s pid a0 a1 a2 a3) := by
  apply guard_frame
  rw [Machine.mapVfs_kernel]
  dsimp only
  cases (nexusIpcRecv s.kernel pid (a0 % 2 ^ 32) true a2).1 with
  | none => rfl
  | some bytes =>
    apply ite_frame
    · rfl
    · rfl

end Plain

def Sys.plain : Sys → Bool
  | .write | .open_ | .read | .seek | .stat | .mkdir | .rmdir | .unlink | .rename | .chdir
  | .exec => false
  | _ => true

theorem syscall_frame {c : Sys} (hc : c.plain = true) (φ : Vfs F → Vfs F) (s : Machine V F)
    (i : Fin 8) (a0 a1 a2 a3 : ℕ) :
    syscall m fat g (s.mapVfs φ) i c a0 a1 a2 a3 =
      reframe φ (syscall m fat g s i c a0 a1 a2 a3) := by
  cases c with
  | query q => cases q <;> rfl
  | close => exact sysClose_frame a0
  | getcwd => exact sysGetcwd_frame a0 a1
  | processEnum => exact sysProcessEnum_frame a0 a1 a2
  | waitpid => exact sysWaitpid_frame a0 a1
  | setpriority => exact sysSetpriority_frame a0
  | getname => exact sysGetname_frame a0 a1
  | setname => exact sysSetname_frame a0 a1
  | mmap => exact sysMmap_frame a1
  | munmap => exact sysMunmap_frame a0 a1
  | brk => exact sysBrk_frame a0
  | getenv => exact sysGetenv_frame a0 a1 a2
  | setenv => exact sysSetenv_frame a0 a1
  | unsetenv => exact sysUnsetenv_frame a0
  | meminfo => exact sysMeminfo_frame _ a0
  | getversion => exact sysConstant_frame a0 a1 _ _
  | getarch => exact sysConstant_frame a0 a1 _ _
  | runtimeInfo => exact sysRuntimeInfo_frame _ a0 a1
  | channelCreate => exact sysChannelCreate_frame a0
  | channelClose => exact sysChannelClose_frame a0
  | channelSend => exact sysChannelSend_frame a0 a1 a2
  | channelRecv => exact sysChannelRecv_frame a0 a1 a2 a3
  | getcaps => exact sysGetcaps_frame a0
  | dropCap => rfl
  | write | open_ | read | seek | stat | mkdir | rmdir | unlink | rename | chdir | exec => cases hc

theorem syscall_vfs {c : Sys} (hc : c.plain = true) (s : Machine V F) (i : Fin 8)
    (a0 a1 a2 a3 : ℕ) : (syscall m fat g s i c a0 a1 a2 a3).2.vfs = s.vfs := by
  have hframe : syscall m fat g s i c a0 a1 a2 a3 =
      reframe (fun _ ↦ s.vfs) (syscall m fat g s i c a0 a1 a2 a3) :=
    syscall_frame hc (fun _ ↦ s.vfs) s i a0 a1 a2 a3
  rw [hframe]
  rfl

end NexusOS.Core
