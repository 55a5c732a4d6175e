import NexusOS.Core.Process

namespace NexusOS.Core

variable {V : Type*}

def channelMessageMax : ℕ := 256

def channelQueueDepth : ℕ := 8

def findSide (ch : IpcChannel) (pid : ℕ) : Option (Fin 2) :=
  if !ch.active then none
  else if ch.pid 0 = pid then some 0
  else if ch.pid 1 = pid then some 1
  else none

def handleIndex (handle : ℕ) : Option (Fin 8) :=
  if h : 0 < handle ∧ handle ≤ 8 then some ⟨handle - 1, by omega⟩ else none

/-- An entry of the handle table is a channel number plus one, or 0. -/
def channelIndex (id : ℕ) : Option (Fin 16) :=
  if h : 0 < id ∧ id ≤ 16 then some ⟨id - 1, by omega⟩ else none

def findChannelForHandle (k : Kernel V) (pid handle : ℕ) : Option (Fin 16) := do
  let i ← processGet k pid
  let h ← handleIndex handle
  let c ← channelIndex ((k.processes i).ipcHandles h)
  let side ← findSide (k.channels c) pid
  if (k.channels c).closed side then none else some c

def findFreeHandle (p : Process) : Option (Fin 8) :=
  (List.finRange 8).find? fun h ↦ p.ipcHandles h == 0

def findFreeChannel (k : Kernel V) : Option (Fin 16) :=
  (List.finRange 16).find? fun c ↦ !(k.channels c).active

def nexusIpcInit (k : Kernel V) : Kernel V :=
  { k with
    channels := fun c ↦ { k.channels c with active := false, closed := fun _ ↦ false }
    ipcReady := true }

def openChannel (ch : IpcChannel) (ownerPid peerPid : ℕ) : IpcChannel :=
  { ch with
    active := true
    closed := fun _ ↦ false
    pid := fun side ↦ if side = 0 then ownerPid else peerPid
    queueHead := fun _ ↦ 0
    queueCount := fun _ ↦ 0 }

/-- The handle of the owner, or nothing; `outHandle` says that the caller gave a place for it. -/
def nexusIpcCreate (k : Kernel V) (ownerPid peerPid : ℕ) (outHandle : Bool) :
    Option ℕ × Kernel V :=
  if !k.ipcReady ∨ !outHandle ∨ ownerPid = 0 ∨ peerPid = 0 ∨ ownerPid = peerPid then (none, k)
  else
    match processGet k ownerPid, processGet k peerPid with
    | some i, some j =>
      if (k.processes i).state = .zombie ∨ (k.processes j).state = .zombie then (none, k)
      else
        match findFreeHandle (k.processes i), findFreeHandle (k.processes j),
            findFreeChannel k with
        | some h, some g, some c =>
          let k := k.setChannel c (openChannel (k.channels c) ownerPid peerPid)
          (some (h + 1), (k.setHandle i h (c + 1)).setHandle j g (c + 1))
        | _, _, _ => (none, k)
    | _, _ => (none, k)

def closeSide (ch : IpcChannel) (side : Fin 2) : IpcChannel :=
  let closed := Function.update ch.closed side true
  { ch with closed := closed, active := if closed 0 && closed 1 then false else ch.active }

def nexusIpcClose (k : Kernel V) (pid handle : ℕ) : Bool × Kernel V :=
  match processGet k pid, handleIndex handle with
  | some i, some h =>
    match channelIndex ((k.processes i).ipcHandles h) with
    | none => (false, k)
    | some c =>
      match findSide (k.channels c) pid with
      | none => (false, k)
      | some side => (true, (k.setChannel c (closeSide (k.channels c) side)).setHandle i h 0)
  | _, _ => (false, k)

def other (side : Fin 2) : Fin 2 := 1 - side

/-- The bytes of a new message; the rest of the slot keeps what it had. -/
def storeMessage (old : IpcMessage) (data : List UInt8) : IpcMessage :=
  ⟨data.length, fun i ↦ if i < data.length then data.getD i 0 else old.data i⟩

def enqueue (ch : IpcChannel) (target : Fin 2) (data : List UInt8) : IpcChannel :=
  let head := (ch.queueHead target + ch.queueCount target) % channelQueueDepth
  { ch with
    queue := Function.update ch.queue target
      (Function.update (ch.queue target) head (storeMessage (ch.queue target head) data))
    queueCount := Function.update ch.queueCount target (ch.queueCount target + 1) }

/-- The number of bytes sent, 0 on failure; `none` is a null buffer. -/
def nexusIpcSend (k : Kernel V) (pid handle : ℕ) (data : Option (List UInt8)) : ℕ × Kernel V :=
  match data with
  | none => (0, k)
  | some data =>
    if data.length = 0 ∨ channelMessageMax < data.length then (0, k)
    else
      match processGet k pid with
      | none => (0, k)
      | some i =>
        if (k.processes i).state = .zombie then (0, k)
        else
          match findChannelForHandle k pid handle with
          | none => (0, k)
          | some c =>
            match findSide (k.channels c) pid with
            | none => (0, k)
            | some side =>
              let target := other side
              if (k.channels c).closed target ∨
                  channelQueueDepth ≤ (k.channels c).queueCount target then (0, k)
              else (data.length, k.setChannel c (enqueue (k.channels c) target data))

def readMessage (msg : IpcMessage) (capacity : ℕ) : List UInt8 :=
  (List.range (min msg.size capacity)).map msg.data

def dequeue (ch : IpcChannel) (side : Fin 2) : IpcChannel :=
  { ch with
    queueHead := Function.update ch.queueHead side ((ch.queueHead side + 1) % channelQueueDepth)
    queueCount := Function.update ch.queueCount side (ch.queueCount side - 1) }

/-- The bytes received; `buffers` says that both pointers are there. -/
def nexusIpcRecv (k : Kernel V) (pid handle : ℕ) (buffers : Bool) (capacity : ℕ) :
    Option (List UInt8) × Kernel V :=
  if !buffers ∨ capacity = 0 then (none, k)
  else
    match processGet k pid with
    | none => (none, k)
    | some i =>
      if (k.processes i).state = .zombie then (none, k)
      else
        match findChannelForHandle k pid handle with
        | none => (none, k)
        | some c =>
          match findSide (k.channels c) pid with
          | none => (none, k)
          | some side =>
            let ch := k.channels c
            if ch.queueCount side = 0 then (none, k)
            else (some (readMessage (ch.queue side (ch.queueHead side)) capacity),
              k.setChannel c (dequeue ch side))

def nexusIpcPoll (k : Kernel V) (pid handle : ℕ) : ℕ :=
  match findChannelForHandle k pid handle with
  | none => 0
  | some c =>
    match findSide (k.channels c) pid with
    | none => 0
    | some side => (k.channels c).queueCount side

/-- Drop the first handle of process `j` that names the channel. -/
def dropHandle (k : Kernel V) (j : Fin 8) (id : ℕ) : Kernel V :=
  match (List.finRange 8).find? fun h ↦ (k.processes j).ipcHandles h == id with
  | none => k
  | some h => k.setHandle j h 0

/-- One round of `nexus_ipc_process_terminate`, for handle `h` of process `i`. -/
def terminateHandle (pid : ℕ) (i : Fin 8) (k : Kernel V) (h : Fin 8) : Kernel V :=
  let id := (k.processes i).ipcHandles h
  match channelIndex id with
  | none => k
  | some c =>
    match findSide (k.channels c) pid with
    | none => k
    | some side =>
      let k := (k.setChannel c (closeSide (k.channels c) side)).setHandle i h 0
      if (k.channels c).closed 0 ∧ (k.channels c).closed 1 then k
      else
        match processGet k ((k.channels c).pid (other side)) with
        | none => k
        | some j => dropHandle k j id

def nexusIpcProcessTerminate (k : Kernel V) (pid : ℕ) : Kernel V :=
  match processGet k pid with
  | none => k
  | some i => (List.finRange 8).foldl (terminateHandle pid i) k

section Lifecycle

def processInit (k : Kernel V) : Kernel V :=
  { k with
    processes := fun i ↦ { k.processes i with state := .unused }
    nextPid := 1
    currentPid := 0
    processCount := 0
    zombieCount := 0
    processReady := true }

def processExitWithCode (k : Kernel V) (pid exitCode exitReason : ℕ) : Bool × Kernel V :=
  match processGet k pid with
  | none => (false, k)
  | some i =>
    if (k.processes i).state = .zombie then (false, k)
    else
      let k := nexusIpcProcessTerminate k pid
      (true, { k.setProcess i { k.processes i with
          exitCode := exitCode
          exitReason := exitReason
          state := .zombie } with
        processCount := k.processCount - 1
        zombieCount := (k.zombieCount + 1) % 2 ^ 64 })

variable (m : Memory V)

def processIpcResetHandles (k : Kernel V) (pid : ℕ) : Kernel V :=
  match processGet k pid with
  | none => k
  | some i => k.setProcess i { k.processes i with ipcHandles := fun _ ↦ 0 }

def reaped (p : Process) : Process :=
  { p with
    kernelStack := 0
    schedulerThreadId := 0
    fds := fun _ ↦ unusedFd
    userEntry := 0
    userStackBase := 0
    userStackSize := 0
    exitCode := 0
    exitReason := 0
    parentPid := 0
    startTick := 0
    cpuTicks := 0
    heapBase := 0
    heapEnd := 0
    memoryLimitBytes := 0
    priority := 0
    env := []
    name := []
    cwd := []
    pid := 0
    flags := 0
    state := .unused }

def processReap (k : Kernel V) (pid schedulerThreadId : ℕ) : Bool × Kernel V :=
  match processGet k pid with
  | none => (false, k)
  | some i =>
    let p := k.processes i
    if p.state ≠ .zombie ∨ (schedulerThreadId ≠ 0 ∧ p.schedulerThreadId ≠ schedulerThreadId) ∨
        (schedulerThreadId = 0 ∧ p.schedulerThreadId ≠ 0) then (false, k)
    else
      let k := (processUnmapUserMemory m k pid).2
      let cr3 := (k.processes i).addressSpaceCr3
      let k := k.setProcess i { k.processes i with addressSpaceCr3 := 0 }
      let k := if cr3 ≠ 0 then { k with vm := m.pagingDestroyAddressSpace cr3 k.vm } else k
      let k := processIpcResetHandles k pid
      (true, { k.setProcess i (reaped (k.processes i)) with zombieCount := k.zombieCount - 1 })

end Lifecycle

end NexusOS.Core
