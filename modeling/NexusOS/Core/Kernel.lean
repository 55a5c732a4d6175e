import Mathlib.Data.List.FinRange
import Mathlib.Tactic

namespace NexusOS.Core

scoped instance neZeroProcesses : NeZero 8 := ⟨by decide⟩

scoped instance neZeroFds : NeZero 16 := ⟨by decide⟩

inductive FdType
  | unused
  | stdinConsole
  | stdoutConsole
  | stderrConsole
  | vfsFile
  | vfsDir
  deriving DecidableEq

structure Fd where
  type : FdType
  flags : ℕ
  object : ℕ
  offset : ℕ
  path : List UInt8
  deriving DecidableEq

inductive ProcessState
  | unused
  | ready
  | running
  | zombie
  deriving DecidableEq

structure UserPage where
  va : ℕ
  phys : ℕ
  flags : ℕ
  deriving DecidableEq

/-- A process slot. The three page arrays and their count are one list, and so are the environment
table and its count; character arrays are the strings they hold. -/
structure Process where
  pid : ℕ
  parentPid : ℕ
  addressSpaceCr3 : ℕ
  capabilities : ℕ
  startTick : ℕ
  cpuTicks : ℕ
  heapBase : ℕ
  heapEnd : ℕ
  memoryLimitBytes : ℕ
  priority : ℕ
  name : List UInt8
  cwd : List UInt8
  env : List (List UInt8 × List UInt8)
  userEntry : ℕ
  userStackBase : ℕ
  userStackSize : ℕ
  userPagesReserved : ℕ
  userPageBase : ℕ
  userPages : List UserPage
  kernelStack : ℕ
  schedulerThreadId : ℕ
  fds : Fin 16 → Fd
  ipcHandles : Fin 8 → ℕ
  exitCode : ℕ
  exitReason : ℕ
  state : ProcessState
  flags : ℕ

/-- A queued message; bytes behind `size` are left over from earlier messages. -/
structure IpcMessage where
  size : ℕ
  data : ℕ → UInt8

structure IpcChannel where
  active : Bool
  closed : Fin 2 → Bool
  pid : Fin 2 → ℕ
  queueHead : Fin 2 → ℕ
  queueCount : Fin 2 → ℕ
  queue : Fin 2 → ℕ → IpcMessage

/-- The globals of the process and IPC layers over a memory state `V`. -/
structure Kernel (V : Type*) where
  processes : Fin 8 → Process
  nextPid : ℕ
  currentPid : ℕ
  processCount : ℕ
  zombieCount : ℕ
  processReady : Bool
  channels : Fin 16 → IpcChannel
  ipcReady : Bool
  vm : V

/-- What the process layer calls of the page allocator and the page tables. -/
structure Memory (V : Type*) where
  pmmAllocPage : V → ℕ × V
  pmmFreePage : ℕ → V → V
  pagingCreateAddressSpace : V → ℕ × V
  pagingDestroyAddressSpace : ℕ → V → V
  pagingMapPageInCr3 : ℕ → ℕ → ℕ → ℕ → V → ℤ × V
  pagingUnmapPageInCr3 : ℕ → ℕ → V → ℤ × V
  zeroPage : ℕ → V → V

variable {V : Type*}

def Process.alive (p : Process) : Bool := p.state != .unused && p.state != .zombie

def Kernel.setProcess (k : Kernel V) (i : Fin 8) (p : Process) : Kernel V :=
  { k with processes := Function.update k.processes i p }

def Kernel.setChannel (k : Kernel V) (c : Fin 16) (ch : IpcChannel) : Kernel V :=
  { k with channels := Function.update k.channels c ch }

def Kernel.setHandle (k : Kernel V) (i : Fin 8) (h : Fin 8) (id : ℕ) : Kernel V :=
  k.setProcess i { k.processes i with
    ipcHandles := Function.update (k.processes i).ipcHandles h id }

section Api

variable (k : Kernel V) (i j : Fin 8) (c d : Fin 16)

@[simp]
theorem setProcess_processes (p : Process) :
    (k.setProcess i p).processes j = if j = i then p else k.processes j := by
  simp [Kernel.setProcess, Function.update_apply]

@[simp]
theorem setProcess_channels (p : Process) : (k.setProcess i p).channels = k.channels := rfl

@[simp]
theorem setChannel_channels (ch : IpcChannel) :
    (k.setChannel c ch).channels d = if d = c then ch else k.channels d := by
  simp [Kernel.setChannel, Function.update_apply]

@[simp]
theorem setChannel_processes (ch : IpcChannel) :
    (k.setChannel c ch).processes = k.processes := rfl

@[simp]
theorem setHandle_channels (h : Fin 8) (id : ℕ) : (k.setHandle i h id).channels = k.channels := rfl

end Api

end NexusOS.Core
