import NexusOS.Core.Ipc
import NexusOS.Lib.Run

namespace NexusOS.Core

open Lib

variable {V : Type*} (m : Memory V)

inductive Op
  | processCreate (ticks parentPid : ℕ)
  | setCurrent (pid : ℕ)
  | clearCurrent
  | ipcCreate (ownerPid peerPid : ℕ) (outHandle : Bool)
  | ipcClose (pid handle : ℕ)
  | ipcSend (pid handle : ℕ) (data : Option (List UInt8))
  | ipcRecv (pid handle : ℕ) (buffers : Bool) (capacity : ℕ)
  | exitWithCode (pid exitCode exitReason : ℕ)
  | reap (pid schedulerThreadId : ℕ)

def step (k : Kernel V) : Op → Kernel V
  | .processCreate ticks parentPid => (processCreate m k ticks parentPid).2
  | .setCurrent pid => (processSetCurrent k pid).2
  | .clearCurrent => processClearCurrent k
  | .ipcCreate ownerPid peerPid outHandle => (nexusIpcCreate k ownerPid peerPid outHandle).2
  | .ipcClose pid handle => (nexusIpcClose k pid handle).2
  | .ipcSend pid handle data => (nexusIpcSend k pid handle data).2
  | .ipcRecv pid handle buffers capacity => (nexusIpcRecv k pid handle buffers capacity).2
  | .exitWithCode pid exitCode exitReason => (processExitWithCode k pid exitCode exitReason).2
  | .reap pid schedulerThreadId => (processReap m k pid schedulerThreadId).2

section Boot

def zeroProcess : Process where
  pid := 0
  parentPid := 0
  addressSpaceCr3 := 0
  capabilities := 0
  startTick := 0
  cpuTicks := 0
  heapBase := 0
  heapEnd := 0
  memoryLimitBytes := 0
  priority := 0
  name := []
  cwd := []
  env := []
  userEntry := 0
  userStackBase := 0
  userStackSize := 0
  userPagesReserved := 0
  userPageBase := 0
  userPages := []
  kernelStack := 0
  schedulerThreadId := 0
  fds := fun _ ↦ unusedFd
  ipcHandles := fun _ ↦ 0
  exitCode := 0
  exitReason := 0
  state := .unused
  flags := 0

def zeroChannel : IpcChannel :=
  ⟨false, fun _ ↦ false, fun _ ↦ 0, fun _ ↦ 0, fun _ ↦ 0, fun _ _ ↦ ⟨0, fun _ ↦ 0⟩⟩

/-- The kernel after `process_init` and `nexus_ipc_init`. -/
def bootKernel (v : V) : Kernel V :=
  nexusIpcInit (processInit ⟨fun _ ↦ zeroProcess, 1, 0, 0, 0, false, fun _ ↦ zeroChannel, false, v⟩)

def sampleMemory : Memory Unit where
  pmmAllocPage v := (0, v)
  pmmFreePage _ v := v
  pagingCreateAddressSpace v := (4096, v)
  pagingDestroyAddressSpace _ v := v
  pagingMapPageInCr3 _ _ _ _ v := (0, v)
  pagingUnmapPageInCr3 _ _ v := (0, v)
  zeroPage _ v := v

end Boot

section Frame

variable (k : Kernel V)

theorem processCreate_channels (ticks parentPid : ℕ) :
    (processCreate m k ticks parentPid).2.channels = k.channels := by
  unfold processCreate
  split_ifs
  · rfl
  cases findUnused k with
  | none => rfl
  | some i =>
    dsimp only
    split_ifs <;> rfl

theorem processSetCurrent_channels (pid : ℕ) :
    (processSetCurrent k pid).2.channels = k.channels := by
  unfold processSetCurrent
  cases processGet k pid with
  | none => rfl
  | some i =>
    dsimp only
    split_ifs
    · rfl
    cases processGet k k.currentPid with
    | none => rfl
    | some j =>
      dsimp only
      split_ifs <;> rfl

theorem processClearCurrent_channels : (processClearCurrent k).channels = k.channels := by
  unfold processClearCurrent
  cases processGet k k.currentPid with
  | none => rfl
  | some j =>
    dsimp only
    split_ifs <;> rfl

theorem processUnmapUserMemory_channels (pid : ℕ) :
    (processUnmapUserMemory m k pid).2.channels = k.channels := by
  unfold processUnmapUserMemory
  cases processGet k pid <;> rfl

theorem processIpcResetHandles_channels (pid : ℕ) :
    (processIpcResetHandles k pid).channels = k.channels := by
  unfold processIpcResetHandles
  cases processGet k pid <;> rfl

theorem processReap_channels (pid tid : ℕ) :
    (processReap m k pid tid).2.channels = k.channels := by
  unfold processReap
  cases processGet k pid with
  | none => rfl
  | some i =>
    dsimp only
    split_ifs
    · rfl
    all_goals simp only [setProcess_channels, processIpcResetHandles_channels,
      processUnmapUserMemory_channels]

theorem dropHandle_channels (j : Fin 8) (id : ℕ) : (dropHandle k j id).channels = k.channels := by
  unfold dropHandle
  cases (List.finRange 8).find? fun h ↦ (k.processes j).ipcHandles h == id <;> rfl

variable {k} {c : Fin 16} {pid : ℕ}

theorem terminateHandle_channels (i h : Fin 8) (hc : findSide (k.channels c) pid = none) :
    (terminateHandle pid i k h).channels c = k.channels c := by
  simp only [terminateHandle]
  cases channelIndex ((k.processes i).ipcHandles h) with
  | none => rfl
  | some d =>
    dsimp only
    cases hd : findSide (k.channels d) pid with
    | none => rfl
    | some side =>
      have hcd : c ≠ d := by
        rintro rfl
        simp [hc] at hd
      dsimp only
      split_ifs
      · simp [hcd]
      split
      · simp [hcd]
      · simp [dropHandle_channels, hcd]

theorem nexusIpcProcessTerminate_channels (hc : findSide (k.channels c) pid = none) :
    (nexusIpcProcessTerminate k pid).channels c = k.channels c := by
  unfold nexusIpcProcessTerminate
  cases processGet k pid with
  | none => rfl
  | some i =>
    have hstep : ∀ k' : Kernel V, ∀ h, k'.channels c = k.channels c →
        (terminateHandle pid i k' h).channels c = k.channels c := fun k' h hk' ↦
      (terminateHandle_channels i h (by rwa [hk'])).trans hk'
    dsimp only
    exact foldl_invariant hstep rfl _

theorem processExitWithCode_channels (hc : findSide (k.channels c) pid = none) (code reason : ℕ) :
    (processExitWithCode k pid code reason).2.channels c = k.channels c := by
  unfold processExitWithCode
  cases processGet k pid with
  | none => rfl
  | some i =>
    dsimp only
    split_ifs
    · rfl
    · simp only [setProcess_channels, nexusIpcProcessTerminate_channels hc]

end Frame

section Cases

variable (k : Kernel V)

theorem nexusIpcCreate_cases (ownerPid peerPid : ℕ) (outHandle : Bool) :
    nexusIpcCreate k ownerPid peerPid outHandle = (none, k) ∨
      ∃ i j h g c, ownerPid ≠ peerPid ∧ processGet k ownerPid = some i ∧
        processGet k peerPid = some j ∧ (k.processes i).state ≠ .zombie ∧
        (k.processes j).state ≠ .zombie ∧ findFreeHandle (k.processes i) = some h ∧
        findFreeHandle (k.processes j) = some g ∧ findFreeChannel k = some c ∧
        nexusIpcCreate k ownerPid peerPid outHandle = (some ((h : ℕ) + 1),
          (((k.setChannel c (openChannel (k.channels c) ownerPid peerPid)).setHandle i h
            ((c : ℕ) + 1)).setHandle j g ((c : ℕ) + 1))) := by
  unfold nexusIpcCreate
  split_ifs with h₁
  · exact .inl rfl
  have hne : ownerPid ≠ peerPid := fun h ↦ h₁ (by simp [h])
  cases hi : processGet k ownerPid with
  | none => exact .inl rfl
  | some i =>
    cases hj : processGet k peerPid with
    | none => exact .inl rfl
    | some j =>
      dsimp only
      split_ifs with hz
      · exact .inl rfl
      cases hh : findFreeHandle (k.processes i) with
      | none => exact .inl rfl
      | some h =>
        cases hg : findFreeHandle (k.processes j) with
        | none => exact .inl rfl
        | some g =>
          cases hc : findFreeChannel k with
          | none => exact .inl rfl
          | some c =>
            exact .inr ⟨i, j, h, g, c, hne, rfl, rfl, fun h ↦ hz (.inl h), fun h ↦ hz (.inr h),
              hh, hg, rfl, rfl⟩

theorem nexusIpcClose_cases (pid handle : ℕ) :
    nexusIpcClose k pid handle = (false, k) ∨
      ∃ i h c side, processGet k pid = some i ∧ handleIndex handle = some h ∧
        channelIndex ((k.processes i).ipcHandles h) = some c ∧
        findSide (k.channels c) pid = some side ∧ nexusIpcClose k pid handle =
          (true, (k.setChannel c (closeSide (k.channels c) side)).setHandle i h 0) := by
  unfold nexusIpcClose
  cases hi : processGet k pid with
  | none => exact .inl rfl
  | some i =>
    cases hh : handleIndex handle with
    | none => exact .inl rfl
    | some h =>
      dsimp only
      cases hc : channelIndex ((k.processes i).ipcHandles h) with
      | none => exact .inl rfl
      | some c =>
        dsimp only
        cases hs : findSide (k.channels c) pid with
        | none => exact .inl rfl
        | some side => exact .inr ⟨i, h, c, side, rfl, rfl, hc, hs, rfl⟩

theorem nexusIpcSend_cases (pid handle : ℕ) (data : Option (List UInt8)) :
    nexusIpcSend k pid handle data = (0, k) ∨
      ∃ bytes c side, data = some bytes ∧ bytes.length ≠ 0 ∧
        findChannelForHandle k pid handle = some c ∧ findSide (k.channels c) pid = some side ∧
        (k.channels c).queueCount (other side) < channelQueueDepth ∧
        nexusIpcSend k pid handle data =
          (bytes.length, k.setChannel c (enqueue (k.channels c) (other side) bytes)) := by
  unfold nexusIpcSend
  cases data with
  | none => exact .inl rfl
  | some bytes =>
    dsimp only
    split_ifs with hlen
    · exact .inl rfl
    cases hi : processGet k pid with
    | none => exact .inl rfl
    | some i =>
      dsimp only
      split_ifs with hz
      · exact .inl rfl
      cases hc : findChannelForHandle k pid handle with
      | none => exact .inl rfl
      | some c =>
        dsimp only
        cases hs : findSide (k.channels c) pid with
        | none => exact .inl rfl
        | some side =>
          dsimp only
          split_ifs with hfull
          · exact .inl rfl
          exact .inr ⟨bytes, c, side, rfl, fun h ↦ hlen (.inl h), rfl, hs,
            Nat.lt_of_not_le fun h ↦ hfull (.inr h), rfl⟩

theorem nexusIpcRecv_cases (pid handle : ℕ) (buffers : Bool) (capacity : ℕ) :
    nexusIpcRecv k pid handle buffers capacity = (none, k) ∨
      ∃ c side, findChannelForHandle k pid handle = some c ∧
        findSide (k.channels c) pid = some side ∧ (k.channels c).queueCount side ≠ 0 ∧
        nexusIpcRecv k pid handle buffers capacity = (some (readMessage
          ((k.channels c).queue side ((k.channels c).queueHead side)) capacity),
          k.setChannel c (dequeue (k.channels c) side)) := by
  unfold nexusIpcRecv
  split_ifs with hbuf
  · exact .inl rfl
  cases hi : processGet k pid with
  | none => exact .inl rfl
  | some i =>
    dsimp only
    split_ifs with hz
    · exact .inl rfl
    cases hc : findChannelForHandle k pid handle with
    | none => exact .inl rfl
    | some c =>
      dsimp only
      cases hs : findSide (k.channels c) pid with
      | none => exact .inl rfl
      | some side =>
        dsimp only
        split_ifs with hcount
        · exact .inl rfl
        · exact .inr ⟨c, side, rfl, hs, hcount, rfl⟩

end Cases

end NexusOS.Core
