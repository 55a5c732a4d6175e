import NexusOS.Core.ElfLoader

namespace NexusOS.Core

open Fs Sched

variable {V F : Type*}

/-- The kernel with the file system, what was printed on the console and the flags of the system call
and runtime layers. -/
structure Machine (V F : Type*) where
  system : System V
  vfs : Vfs F
  console : List UInt8
  syscallReady : Bool
  runtimeReady : Bool

/-- What the kernel stack holds in the places of local variables that are not initialised: a buffer
for a reply, the record of the runtime, and the path buffers of successive calls. -/
structure Garbage where
  buffer : ℕ → UInt8
  info : ℕ → UInt8
  stale : ℕ → Stale

namespace Machine

def kernel (s : Machine V F) : Kernel V := s.system.kernel

def sched (s : Machine V F) : Scheduler := s.system.sched

def setKernel (s : Machine V F) (k : Kernel V) : Machine V F :=
  { s with system := { s.system with kernel := k } }

def setVfs (s : Machine V F) (v : Vfs F) : Machine V F := { s with vfs := v }

section Api

variable (s : Machine V F) (k : Kernel V) (v : Vfs F)

@[simp]
theorem setKernel_kernel : (s.setKernel k).kernel = k := rfl

@[simp]
theorem setKernel_vfs : (s.setKernel k).vfs = s.vfs := rfl

@[simp]
theorem setKernel_sched : (s.setKernel k).sched = s.sched := rfl

@[simp]
theorem setVfs_kernel : (s.setVfs v).kernel = s.kernel := rfl

@[simp]
theorem setVfs_vfs : (s.setVfs v).vfs = v := rfl

@[simp]
theorem setVfs_sched : (s.setVfs v).sched = s.sched := rfl

end Api

end Machine

def failed : ℕ := 2 ^ 64 - 1

section Numbers

inductive Query
  | nop | exit | getpid | getppid | getpriority | tell | getcputicks | getstarttick | getuptimeMs
  | processCount | zombieCount | fdCount | gettid | getpagesize | getuserbase | getuserlimit
  | getstacktop | getheapbase | getheapend | getfdtype | getfdoffset | getfdFlags
  | getquantumExpirations | getcontextSwitches | gettimerHz | getquantumTicks | getthreadCount
  | getmaxThreads | getreadyCount | getsleepingCount | getthreadSwitches | getthreadRuntime
  | channelPoll | hasCap
  deriving DecidableEq

inductive Sys
  | query (q : Query)
  | write | close | open_ | read | seek | stat | mkdir | rmdir | unlink | rename | getcwd | chdir
  | processEnum | waitpid | setpriority | getname | setname | exec | mmap | munmap | brk | getenv
  | setenv | unsetenv | meminfo | getversion | getarch | runtimeInfo | channelCreate | channelClose
  | channelSend | channelRecv | getcaps | dropCap
  deriving DecidableEq

/-- The calls in the order of `nexus_syscall_number`. -/
def sysNumbers : List Sys :=
  [.query .nop, .query .exit, .query .getpid, .write, .close, .query .getppid, .open_, .read, .seek,
    .query .tell, .stat, .mkdir, .rmdir, .unlink, .rename, .getcwd, .chdir, .processEnum, .waitpid,
    .query .getpriority, .setpriority, .getname, .setname, .exec, .mmap, .munmap, .brk,
    .query .getcputicks, .query .getstarttick, .query .getuptimeMs, .query .processCount,
    .query .zombieCount, .getenv, .setenv, .unsetenv, .query .fdCount, .meminfo, .query .gettid,
    .getversion, .getarch, .query .getpagesize, .query .getuserbase, .query .getuserlimit,
    .query .getstacktop, .query .getheapbase, .query .getheapend, .query .getfdtype,
    .query .getfdoffset, .query .getfdFlags, .query .getquantumExpirations,
    .query .getcontextSwitches, .query .gettimerHz, .query .getquantumTicks,
    .query .getthreadCount, .query .getmaxThreads, .query .getreadyCount,
    .query .getsleepingCount, .query .getthreadSwitches, .query .getthreadRuntime, .runtimeInfo,
    .channelCreate, .channelClose, .channelSend, .channelRecv, .query .channelPoll, .getcaps,
    .query .hasCap, .dropCap]

end Numbers

section Queries

def fdTypeCode : FdType → ℕ
  | .unused => 0
  | .stdinConsole => 1
  | .stdoutConsole => 2
  | .stderrConsole => 3
  | .vfsFile => 4
  | .vfsDir => 5

def fdField (p : Process) (fd : ℕ) (f : Fd → ℕ) : ℕ :=
  match fdOf p fd with
  | none => failed
  | some j => f (p.fds j)

def threadField (s : Scheduler) (id : ℕ) (f : Tcb → ℕ) : ℕ :=
  match findThreadById s id with
  | none => 0
  | some t => f (s.tcbs t)

def schedulerElapsedMs (s : Scheduler) : ℕ :=
  if s.timerHz = 0 then 0 else s.ticks * 1000 % 2 ^ 64 / s.timerHz

def query (s : Machine V F) (p : Process) (a0 : ℕ) : Query → ℕ
  | .nop => 0
  | .exit => failed
  | .getpid => p.pid
  | .getppid => p.parentPid
  | .getpriority => p.priority
  | .tell => (processFdTell s.kernel p.pid a0).getD failed
  | .getcputicks => p.cpuTicks
  | .getstarttick => p.startTick
  | .getuptimeMs => schedulerElapsedMs s.sched
  | .processCount => s.kernel.processCount
  | .zombieCount => s.kernel.zombieCount
  | .fdCount => (List.finRange 16).countP fun j ↦ (p.fds j).type != .unused
  | .gettid => s.sched.current.elim 0 fun t ↦ (s.sched.tcbs t).id
  | .getpagesize => 4096
  | .getuserbase => processUserBase
  | .getuserlimit => processUserLimit
  | .getstacktop => userStackTop
  | .getheapbase => p.heapBase
  | .getheapend => p.heapEnd
  | .getfdtype => fdField p a0 fun fd ↦ fdTypeCode fd.type
  | .getfdoffset => fdField p a0 Fd.offset
  | .getfdFlags => fdField p a0 Fd.flags
  | .getquantumExpirations => s.sched.quantumExpirations
  | .getcontextSwitches => s.sched.contextSwitches
  | .gettimerHz => s.sched.timerHz
  | .getquantumTicks => s.sched.quantumTicks
  | .getthreadCount => s.sched.threadCount
  | .getmaxThreads => 8
  | .getreadyCount => s.sched.readyCount
  | .getsleepingCount => s.sched.sleepingCount
  | .getthreadSwitches => threadField s.sched a0 Tcb.switches
  | .getthreadRuntime => threadField s.sched a0 Tcb.runtimeTicks
  | .channelPoll => if processHasCapability s.kernel p.pid capIpc then
      nexusIpcPoll s.kernel p.pid (a0 % 2 ^ 32) else failed
  | .hasCap => if processHasCapability s.kernel p.pid a0 then 1 else 0

end Queries

section Replies

variable (m : Hardware V) (s : Machine V F) (pid : ℕ)

def leBytes : ℕ → ℕ → List UInt8
  | 0, _ => []
  | n + 1, x => UInt8.ofNat (x % 256) :: leBytes n (x / 256)

def putUser (va : ℕ) (bytes : List UInt8) : Bool × Machine V F :=
  let r := processUserWrite m s.kernel pid va bytes
  (r.1, s.setKernel r.2)

def replyWith (va : ℕ) (bytes : List UInt8) (n : ℕ) : ℕ × Machine V F :=
  let r := putUser m s pid va bytes
  (if r.1 then n else failed, r.2)

/-- The characters of a local array up to its terminator, at most `limit` with one behind them. -/
def cString (array : ℕ → UInt8) (limit : ℕ) : List UInt8 :=
  let len := ((List.range (limit - 1)).takeWhile fun i ↦ array i ≠ 0).length
  (List.range (len + 1)).map array

/-- Answer with a string: the length that fits, the string in the caller's buffer. -/
def replyString (va limit : ℕ) (array : ℕ → UInt8) : ℕ × Machine V F :=
  let bytes := cString array limit
  replyWith m s pid va bytes (bytes.length - 1)

/-- A string from user space; the whole capacity has to be mapped and writable. -/
def copyUserString (va cap : ℕ) : Option Str :=
  if cap < 2 ∨ !processUserRangeValid s.kernel pid va cap pageWritable then none
  else
    match processUserRead m s.kernel pid va (cap - 1) with
    | none => none
    | some bytes =>
      let str := bytes.takeWhile (· ≠ 0)
      if str.length < cap - 1 then some str else none

def sysGetname (g : Garbage) (a0 a1 : ℕ) : ℕ × Machine V F :=
  if !processUserRangeValid s.kernel pid a0 a1 pageWritable ∨ a1 = 0 ∨ 256 < a1 then (failed, s)
  else
    match processGetName s.kernel pid 32 with
    | none => (failed, s)
    | some name => replyString m s pid a0 a1 (writeString g.buffer name)

def sysGetcwd (g : Garbage) (a0 a1 : ℕ) : ℕ × Machine V F :=
  if a1 = 0 ∨ 128 < a1 ∨ !processUserRangeValid s.kernel pid a0 a1 pageWritable then (failed, s)
  else
    match processGetCwd s.kernel pid 128 with
    | none => (failed, s)
    | some cwd => replyString m s pid a0 a1 (writeString g.buffer cwd)

def sysGetenv (g : Garbage) (a0 a1 a2 : ℕ) : ℕ × Machine V F :=
  if a1 = 0 ∨ 64 < a1 ∨ !processUserRangeValid s.kernel pid a0 24 pageWritable ∨
      !processUserRangeValid s.kernel pid a2 a1 pageWritable then (failed, s)
  else
    match processUserRead m s.kernel pid a0 24 with
    | none => (failed, s)
    | some bytes =>
      match processGetEnv s.kernel pid ((bytes.take 23).takeWhile (· ≠ 0)) 64 with
      | none => (failed, s)
      | some value => replyString m s pid a2 a1 (writeString g.buffer value)

def sysConstant (a0 a1 limit : ℕ) (str : Str) : ℕ × Machine V F :=
  if a1 = 0 ∨ limit < a1 ∨ !processUserRangeValid s.kernel pid a0 a1 pageWritable then (failed, s)
  else replyString m s pid a0 a1 (writeString (fun _ ↦ 0) str)

/-- `0.7`. -/
def sysGetversion (a0 a1 : ℕ) : ℕ × Machine V F := sysConstant m s pid a0 a1 64 [48, 46, 55]

/-- `x86_64`. -/
def sysGetarch (a0 a1 : ℕ) : ℕ × Machine V F :=
  sysConstant m s pid a0 a1 32 [120, 56, 54, 95, 54, 52]

def sysMeminfo (p : Process) (a0 : ℕ) : ℕ × Machine V F :=
  if !processUserRangeValid s.kernel pid a0 32 pageWritable then (failed, s)
  else
    let vm := s.kernel.vm
    replyWith m s pid a0 (leBytes 8 (m.pmmTotalPages vm * 4096) ++
      leBytes 8 (m.pmmFreePages vm * 4096) ++ leBytes 8 (m.pmmUsedPages vm * 4096) ++
      leBytes 8 p.memoryLimitBytes) 0

def sysGetcaps (a0 : ℕ) : ℕ × Machine V F :=
  if !processUserRangeValid s.kernel pid a0 8 pageWritable then (failed, s)
  else replyWith m s pid a0 (leBytes 8 (processGetCapabilities s.kernel pid)) 0

/-- `Nexus Runtime`. -/
def runtimeName : Str := [78, 101, 120, 117, 115, 32, 82, 117, 110, 116, 105, 109, 101]

/-- The record of `nexus_runtime_fill_info`. The copy of the name stops behind its terminator, so
that the rest of the 32 characters keeps what the stack held. -/
def runtimeInfo (g : Garbage) (p : Process) : List UInt8 :=
  leBytes 4 1 ++ leBytes 4 1 ++ leBytes 4 8 ++ leBytes 4 256 ++ leBytes 8 31 ++ leBytes 8 p.pid ++
    leBytes 8 p.parentPid ++ leBytes 8 p.addressSpaceCr3 ++
    (List.range 32).map (writeString g.info runtimeName)

def sysRuntimeInfo (g : Garbage) (p : Process) (a0 a1 : ℕ) : ℕ × Machine V F :=
  if !processHasCapability s.kernel pid capRuntime then (failed, s)
  else if a1 ≠ 80 ∨ !processUserRangeValid s.kernel pid a0 80 pageWritable ∨ !s.runtimeReady then
    (failed, s)
  else replyWith m s pid a0 (runtimeInfo g p) 0

def stateCode : ProcessState → ℕ
  | .unused => 0
  | .ready => 1
  | .running => 2
  | .zombie => 3

def processInfo (q : Process) : List UInt8 :=
  leBytes 8 q.pid ++ leBytes 8 q.parentPid ++ leBytes 4 (stateCode q.state) ++
    leBytes 4 q.priority ++ leBytes 8 q.cpuTicks ++ leBytes 8 q.startTick

/-- The loop of `PROCESS_ENUM` over the given identifiers, with the number of records so far. -/
def enumLoop (a0 cap : ℕ) : List ℕ → ℕ → Machine V F → ℕ × Machine V F
  | [], n, s => (n, s)
  | q :: qs, n, s =>
    if cap ≤ n then (n, s)
    else
      match processGet s.kernel q with
      | none => enumLoop a0 cap qs n s
      | some j =>
        let r := putUser m s pid ((a0 + n * 40) % 2 ^ 64) (processInfo (s.kernel.processes j))
        if r.1 then enumLoop a0 cap qs (n + 1) r.2 else (failed, r.2)

def sysProcessEnum (a0 a1 a2 : ℕ) : ℕ × Machine V F :=
  if a1 = 0 ∨ a2 < 40 ∨ !processUserRangeValid s.kernel pid a0 a1 pageWritable then (failed, s)
  else enumLoop m pid a0 (a1 / 40) (List.range' 1 4095) 0 s

/-- A child that has ended, of any identifier that `wanted` allows. -/
def endedChild (k : Kernel V) (wanted : ℕ) : Option (ℕ × Fin 8) :=
  (List.range' 1 4095).findSome? fun q ↦
    match processGet k q with
    | none => none
    | some j =>
      if (k.processes j).parentPid ≠ pid ∨ (wanted ≠ 0 ∧ wanted ≠ q) ∨
          (k.processes j).state ≠ .zombie then none
      else some (q, j)

def sysWaitpid (a0 a1 : ℕ) : ℕ × Machine V F :=
  match endedChild pid s.kernel a0 with
  | none => (0, s)
  | some (q, j) =>
    if a1 ≠ 0 ∧ processUserRangeValid s.kernel pid a1 8 pageWritable then
      replyWith m s pid a1 (leBytes 8 (s.kernel.processes j).exitCode) q
    else (q, s)

end Replies

section Files

variable (m : Hardware V) (fat : Fat F) (g : Garbage) (s : Machine V F) (pid : ℕ)

def statRecord (size type : ℕ) : List UInt8 := leBytes 8 size ++ leBytes 8 type ++ leBytes 8 0

def sysStat (a0 a1 : ℕ) : ℕ × Machine V F :=
  match copyUserString m s pid a0 128 with
  | none => (failed, s)
  | some path =>
    if !processUserRangeValid s.kernel pid a1 24 pageWritable then (failed, s)
    else
      let size := vfsFileSizePath fat s.vfs path (g.stale 0)
      match size.1 with
      | some n => replyWith m (s.setVfs size.2) pid a1 (statRecord n 1) 0
      | none =>
        let dir := vfsIsDirPath fat size.2 path (g.stale 1)
        if dir.1 then replyWith m (s.setVfs dir.2) pid a1 (statRecord 0 2) 0
        else (failed, s.setVfs dir.2)

def sysChdir (a0 : ℕ) : ℕ × Machine V F :=
  match copyUserString m s pid a0 128 with
  | none => (failed, s)
  | some path =>
    let dir := vfsIsDirPath fat s.vfs path (g.stale 0)
    if !dir.1 then (failed, s.setVfs dir.2)
    else
      let r := processSetCwd s.kernel pid path
      (if r.1 then 0 else failed, (s.setVfs dir.2).setKernel r.2)

def sysWrite (a0 a1 a2 : ℕ) : ℕ × Machine V F :=
  if a2 = 0 ∨ 4096 < a2 ∨ !processFdIsValid s.kernel pid a0 ∨
      !processUserRangeValid s.kernel pid a1 a2 0 then (failed, s)
  else
    match processUserRead m s.kernel pid a1 a2 with
    | none => (failed, s)
    | some bytes =>
      if processFdIsWritable s.kernel pid a0 then (a2, { s with console := s.console ++ bytes })
      else
        let r := processFdWrite fat s.kernel s.vfs pid a0 bytes (g.stale 0)
        (r.1.getD failed, (s.setKernel r.2.1).setVfs r.2.2)

/-- The bytes of a local array that were written over the garbage. -/
def filled (g : Garbage) (bytes : List UInt8) : ℕ → UInt8 := fun i ↦
  if i < bytes.length then bytes.getD i 0 else g.buffer i

def sysRead (a0 a1 a2 : ℕ) : ℕ × Machine V F :=
  if a2 = 0 ∨ 4096 < a2 ∨ !processFdIsValid s.kernel pid a0 ∨
      !processUserRangeValid s.kernel pid a1 a2 pageWritable then (failed, s)
  else
    let r := processFdRead fat s.kernel s.vfs pid a0 a2 (g.stale 0)
    let s := (s.setKernel r.2.1).setVfs r.2.2
    match r.1 with
    | none => (failed, s)
    | some bytes =>
      replyWith m s pid a1 ((List.range bytes.length).map (filled g bytes)) bytes.length

def sysOpen (a0 a1 : ℕ) : ℕ × Machine V F :=
  if !processHasCapability s.kernel pid capFilesystemRead then (failed, s)
  else
    match copyUserString m s pid a0 128 with
    | none => (failed, s)
    | some path =>
      let r := processFdOpen fat s.kernel s.vfs pid path (a1 % 2 ^ 32) g.stale
      (r.1.elim failed fun j ↦ j.val, (s.setKernel r.2.1).setVfs r.2.2)

def sysClose (a0 : ℕ) : ℕ × Machine V F :=
  let r := processFdClose s.kernel pid a0
  (if r.1 then 0 else failed, s.setKernel r.2)

def sysSeek (a0 a1 a2 : ℕ) : ℕ × Machine V F :=
  let r := processFdSeek fat s.kernel s.vfs pid a0 a1 (a2 % 2 ^ 32) (g.stale 0)
  (r.1.getD failed, (s.setKernel r.2.1).setVfs r.2.2)

def changeTree (a0 : ℕ) (change : Vfs F → Str → Bool × Vfs F) : ℕ × Machine V F :=
  if !processHasCapability s.kernel pid capFilesystemWrite then (failed, s)
  else
    match copyUserString m s pid a0 128 with
    | none => (failed, s)
    | some path =>
      let r := change s.vfs path
      (if r.1 then 0 else failed, s.setVfs r.2)

def sysMkdir (a0 : ℕ) : ℕ × Machine V F := changeTree m s pid a0 fun v path ↦ vfsMkdirPath fat v path

def sysRmdir (a0 : ℕ) : ℕ × Machine V F := changeTree m s pid a0 fun v path ↦ vfsUnlinkPath v path

def sysUnlink (a0 : ℕ) : ℕ × Machine V F := changeTree m s pid a0 fun v path ↦ vfsUnlinkPath v path

def sysRename (a0 a1 : ℕ) : ℕ × Machine V F :=
  if !processHasCapability s.kernel pid capFilesystemWrite then (failed, s)
  else
    match copyUserString m s pid a0 128, copyUserString m s pid a1 128 with
    | some src, some dst =>
      let r := vfsRenamePath s.vfs src dst
      (if r.1 then 0 else failed, s.setVfs r.2)
    | _, _ => (failed, s)

end Files

section Own

variable (m : Hardware V) (s : Machine V F) (pid : ℕ)

/-- The answer of a function of the process layer that fails with 0. -/
def answer (r : Bool × Kernel V) : ℕ × Machine V F := (if r.1 then 0 else failed, s.setKernel r.2)

def sysSetpriority (a0 : ℕ) : ℕ × Machine V F :=
  if !processHasCapability s.kernel pid capProcessControl then (failed, s)
  else answer s (processSetPriority s.kernel pid (a0 % 2 ^ 32))

def sysSetname (a0 a1 : ℕ) : ℕ × Machine V F :=
  if a1 = 0 ∨ 32 ≤ a1 ∨ !processUserRangeValid s.kernel pid a0 a1 pageWritable then (failed, s)
  else
    match processUserRead m s.kernel pid a0 a1 with
    | none => (failed, s)
    | some bytes =>
      answer s (processSetName s.kernel pid ((bytes.take (a1 - 1)).takeWhile (· ≠ 0)))

def sysSetenv (a0 a1 : ℕ) : ℕ × Machine V F :=
  match copyUserString m s pid a0 24, copyUserString m s pid a1 64 with
  | some name, some value => answer s (processSetEnv s.kernel pid name value)
  | _, _ => (failed, s)

def sysUnsetenv (a0 : ℕ) : ℕ × Machine V F :=
  match copyUserString m s pid a0 24 with
  | none => (failed, s)
  | some name => answer s (processUnsetEnv s.kernel pid name)

def sysDropCap (a0 : ℕ) : ℕ × Machine V F := answer s (processDropCapability s.kernel pid a0)

def sysMmap (a1 : ℕ) : ℕ × Machine V F :=
  let pages := (a1 + 4095) % 2 ^ 64 / 4096
  if !processHasCapability s.kernel pid capMemory ∨ a1 = 0 ∨ pages = 0 then (failed, s)
  else
    let r := processAllocUserRange m.toMemory s.kernel pid pages (pageWritable ||| pageNx)
    (r.1, s.setKernel r.2)

def sysMunmap (a0 a1 : ℕ) : ℕ × Machine V F :=
  if !processHasCapability s.kernel pid capMemory then (failed, s)
  else answer s (processUnmapUserRange m.toMemory s.kernel pid a0 a1)

def setHeapEnd (k : Kernel V) (i : Fin 8) (stop : ℕ) : Kernel V :=
  k.setProcess i { k.processes i with heapEnd := stop }

/-- The current process is in slot `i`. -/
def sysBrk (i : Fin 8) (a0 : ℕ) : ℕ × Machine V F :=
  let p := s.kernel.processes i
  if !processHasCapability s.kernel pid capMemory then (failed, s)
  else if a0 = 0 then (p.heapEnd, s)
  else if a0 < p.heapBase ∨ processUserLimit ≤ a0 then (failed, s)
  else if p.heapEnd < a0 then
    let pages := (a0 - p.heapEnd + 4095) / 4096
    let r := processAllocUserRange m.toMemory s.kernel pid pages (pageWritable ||| pageNx)
    if r.1 = 0 ∨ r.1 ≠ p.heapEnd then (failed, s.setKernel r.2)
    else
      let stop := (p.heapEnd + pages * 4096) % 2 ^ 64
      (stop, s.setKernel (setHeapEnd r.2 i stop))
  else if a0 < p.heapEnd then
    let cut := (p.heapEnd - a0 + 4095) % 2 ^ 64 / 4096
    let base := (p.heapEnd + 2 ^ 64 - cut * 4096) % 2 ^ 64
    let r := processUnmapUserRange m.toMemory s.kernel pid base (cut * 4096 % 2 ^ 64)
    if !r.1 then (failed, s.setKernel r.2) else (base, s.setKernel (setHeapEnd r.2 i base))
  else (p.heapEnd, s)

end Own

section Channels

variable (m : Hardware V) (g : Garbage) (s : Machine V F) (pid : ℕ)

def sysChannelCreate (a0 : ℕ) : ℕ × Machine V F :=
  if !processHasCapability s.kernel pid capIpc then (failed, s)
  else
    let r := nexusIpcCreate s.kernel pid a0 true
    (r.1.getD failed, s.setKernel r.2)

def sysChannelClose (a0 : ℕ) : ℕ × Machine V F :=
  if !processHasCapability s.kernel pid capIpc then (failed, s)
  else answer s (nexusIpcClose s.kernel pid (a0 % 2 ^ 32))

def sysChannelSend (a0 a1 a2 : ℕ) : ℕ × Machine V F :=
  if !processHasCapability s.kernel pid capIpc ∨ a2 = 0 ∨ channelMessageMax < a2 ∨
      !processUserRangeValid s.kernel pid a1 a2 0 then (failed, s)
  else
    match processUserRead m s.kernel pid a1 a2 with
    | none => (failed, s)
    | some bytes =>
      let r := nexusIpcSend s.kernel pid (a0 % 2 ^ 32) (some bytes)
      (r.1, s.setKernel r.2)

def sysChannelRecv (a0 a1 a2 a3 : ℕ) : ℕ × Machine V F :=
  if !processHasCapability s.kernel pid capIpc ∨ a2 = 0 ∨ channelMessageMax < a2 ∨
      !processUserRangeValid s.kernel pid a1 a2 pageWritable ∨
      !processUserRangeValid s.kernel pid a3 4 pageWritable then (failed, s)
  else
    let r := nexusIpcRecv s.kernel pid (a0 % 2 ^ 32) true a2
    let s := s.setKernel r.2
    match r.1 with
    | none => (0, s)
    | some bytes =>
      let w := putUser m s pid a1 ((List.range bytes.length).map (filled g bytes))
      if !w.1 then (failed, w.2)
      else replyWith m w.2 pid a3 (leBytes 4 bytes.length) bytes.length

end Channels

section Exec

variable (m : Hardware V) (fat : Fat F) (s : Machine V F) (pid : ℕ)

def usermodePrepare (k : Kernel V) (pid entry userStack kernelStack : ℕ) : Bool × Kernel V :=
  if !m.usermodeReady k.vm ∨ entry = 0 ∨ userStack = 0 ∨ kernelStack = 0 then (false, k)
  else
    match processGet k pid with
    | none => (false, k)
    | some i =>
      if (k.processes i).state = .zombie then (false, k)
      else (true, k.setProcess i { k.processes i with
        userEntry := entry
        userStackBase := userStack
        userStackSize := 0
        kernelStack := kernelStack
        flags := (k.processes i).flags ||| 1 })

def abandon (k : Kernel V) (child : ℕ) : Kernel V :=
  (processReap m.toMemory (processExitWithCode k child 0 0).2 child 0).2

def startChild (sys : System V) (child : ℕ) : Bool × System V :=
  let t := threadCreateUserProcess m.toPlatform sys child
  if t.1 = 0 then (false, { t.2 with kernel := abandon m t.2.kernel child })
  else
    match processGet t.2.kernel child with
    | none => (false, { t.2 with kernel := (processExitWithCode t.2.kernel child 0 0).2 })
    | some j =>
      let c := t.2.kernel.processes j
      let r := usermodePrepare m t.2.kernel child c.userEntry c.userStackBase c.kernelStack
      if !r.1 then (false, { t.2 with kernel := (processExitWithCode r.2 child 0 0).2 })
      else (true, ⟨schedulerRequestReschedule t.2.sched, r.2⟩)

def sysExec (a0 : ℕ) : ℕ × Machine V F :=
  if !processHasCapability s.kernel pid capProcessSpawn then (failed, s)
  else
    match copyUserString m s pid a0 128 with
    | none => (failed, s)
    | some path =>
      let c := processCreate m.toMemory s.kernel s.sched.ticks pid
      if c.1 = 0 then (failed, s.setKernel c.2)
      else
        let l := nexusElfLoadProcess m c.1 fat c.2 s.vfs path
        let s := s.setVfs l.2.2
        if !l.1 then (failed, s.setKernel (abandon m l.2.1 c.1))
        else
          let r := startChild m { s.system with kernel := l.2.1 } c.1
          (if r.1 then c.1 else failed, { s with system := r.2 })

end Exec

section Dispatch

variable (m : Hardware V) (fat : Fat F)

def syscall (g : Garbage) (s : Machine V F) (i : Fin 8) (c : Sys) (a0 a1 a2 a3 : ℕ) :
    ℕ × Machine V F :=
  let p := s.kernel.processes i
  let pid := p.pid
  match c with
  | .query q => (query s p a0 q, s)
  | .write => sysWrite m fat g s pid a0 a1 a2
  | .close => sysClose s pid a0
  | .open_ => sysOpen m fat g s pid a0 a1
  | .read => sysRead m fat g s pid a0 a1 a2
  | .seek => sysSeek fat g s pid a0 a1 a2
  | .stat => sysStat m fat g s pid a0 a1
  | .mkdir => sysMkdir m fat s pid a0
  | .rmdir => sysRmdir m s pid a0
  | .unlink => sysUnlink m s pid a0
  | .rename => sysRename m s pid a0 a1
  | .getcwd => sysGetcwd m s pid g a0 a1
  | .chdir => sysChdir m fat g s pid a0
  | .processEnum => sysProcessEnum m s pid a0 a1 a2
  | .waitpid => sysWaitpid m s pid a0 a1
  | .setpriority => sysSetpriority s pid a0
  | .getname => sysGetname m s pid g a0 a1
  | .setname => sysSetname m s pid a0 a1
  | .exec => sysExec m fat s pid a0
  | .mmap => sysMmap m s pid a1
  | .munmap => sysMunmap m s pid a0 a1
  | .brk => sysBrk m s pid i a0
  | .getenv => sysGetenv m s pid g a0 a1 a2
  | .setenv => sysSetenv m s pid a0 a1
  | .unsetenv => sysUnsetenv m s pid a0
  | .meminfo => sysMeminfo m s pid p a0
  | .getversion => sysGetversion m s pid a0 a1
  | .getarch => sysGetarch m s pid a0 a1
  | .runtimeInfo => sysRuntimeInfo m s pid g p a0 a1
  | .channelCreate => sysChannelCreate s pid a0
  | .channelClose => sysChannelClose s pid a0
  | .channelSend => sysChannelSend m s pid a0 a1 a2
  | .channelRecv => sysChannelRecv m g s pid a0 a1 a2 a3
  | .getcaps => sysGetcaps m s pid a0
  | .dropCap => sysDropCap s pid a0

/-- The slot of a process that may make system calls: the current one, running on a thread with a
user context. -/
def caller (s : Machine V F) : Option (Fin 8) :=
  if !s.syscallReady then none
  else (processGet s.kernel s.kernel.currentPid).filter fun i ↦
    (s.kernel.processes i).state = .running ∧ (s.kernel.processes i).schedulerThreadId ≠ 0 ∧
      (s.kernel.processes i).flags.testBit 0

def syscallDispatch (g : Garbage) (s : Machine V F) (number a0 a1 a2 a3 : ℕ) : ℕ × Machine V F :=
  match caller s, sysNumbers[number]? with
  | some i, some c => syscall m fat g s i c a0 a1 a2 a3
  | _, _ => (failed, s)

end Dispatch

section Interrupt

/-- The registers of `syscall_interrupt_frame_t` that the handler looks at. -/
structure Frame where
  rax : ℕ
  rdi : ℕ
  rsi : ℕ
  rdx : ℕ
  r10 : ℕ
  rip : ℕ
  cs : ℕ
  rflags : ℕ
  userRsp : ℕ
  ss : ℕ

def syscallFrameValid (f : Frame) : Bool :=
  f.cs % 4 = 3 ∧ f.ss % 4 = 3 ∧ f.cs / 8 = 0x20 / 8 ∧ f.ss / 8 = 0x18 / 8 ∧ f.rflags.testBit 1 ∧
    !f.rflags.testBit 12 ∧ !f.rflags.testBit 13 ∧ !f.rflags.testBit 17 ∧ f.rflags.testBit 9 ∧
    processUserBase ≤ f.rip ∧ f.rip < processUserLimit ∧ processUserBase ≤ f.userRsp ∧
    f.userRsp ≤ userStackTop

inductive Action
  | resume
  | exit
  deriving DecidableEq

variable (m : Hardware V) (fat : Fat F)

/-- The process that may enter with a frame: its code and its stack have to be mapped. -/
def entering (s : Machine V F) (f : Frame) : Option (Fin 8) :=
  if !syscallFrameValid f then none
  else (caller s).filter fun i ↦
    processUserRangeValid s.kernel (s.kernel.processes i).pid f.rip 1 0 &&
      processUserRangeValid s.kernel (s.kernel.processes i).pid f.userRsp 1 pageWritable

/-- `EXIT` does not come back to its caller: the state is the one in which another thread goes on. -/
def syscallInterruptHandler (g : Garbage) (s : Machine V F) (f : Frame) :
    Except Stop (Action × Frame × Machine V F) :=
  match entering s f with
  | none => .ok (.resume, { f with rax := failed }, s)
  | some i =>
    if f.rax = 1 then
      let r := processExitWithCode s.kernel (s.kernel.processes i).pid f.rdi 1
      if !r.1 then .ok (.resume, { f with rax := failed }, s.setKernel r.2)
      else
        match threadExit m.toPlatform { s.system with kernel := r.2 } with
        | .error e => .error e
        | .ok sys => .ok (.exit, f, { s with system := sys })
    else
      let r := syscallDispatch m fat g s f.rax f.rdi f.rsi f.rdx f.r10
      .ok (.resume, { f with rax := r.1 }, r.2)

end Interrupt

section Sample

/-- A machine with nothing but the identity map of the first 4 GiB, in which a user page is mapped
already and stays so. Memory is the list of the bytes written, the last one first. -/
def flatHardware : Hardware (List (ℕ × UInt8)) where
  pmmAllocPage v := (0x1000000, v)
  pmmFreePage _ v := v
  pagingCreateAddressSpace v := (0x2000000, v)
  pagingDestroyAddressSpace _ v := v
  pagingMapPageInCr3 _ _ _ _ v := (1, v)
  pagingUnmapPageInCr3 _ _ v := (1, v)
  zeroPage _ v := v
  heapIsReady _ := true
  kmalloc _ v := (0x3000000, v)
  kfree _ v := v
  usermodeReady _ := true
  pagingKernelCr3 _ := 0x4000000
  pagingSwitchCr3 _ v := v
  nexusWatchdogTimerTick v := v
  pagingVirtToPhysInCr3 _ va _ := va
  readByte addr v := ((v.find? (·.1 == addr)).map Prod.snd).getD 0
  writeByte addr b v := (addr, b) :: v
  pmmTotalPages _ := 0x100000
  pmmFreePages _ := 0x80000
  pmmUsedPages _ := 0x80000

end Sample

end NexusOS.Core
