import NexusOS.Core.IpcSteps
import NexusOS.Lib.Ring

namespace NexusOS.Core

open Lib

variable {V : Type*} (m : Memory V)

/-- A kernel with the history of one channel: what each side had accepted, and what each side was
given, with the capacity it asked with. -/
structure Watch (V : Type*) where
  kernel : Kernel V
  sent : Fin 2 → List (List UInt8)
  got : Fin 2 → List (ℕ × List UInt8)

variable (c : Fin 16)

/-- The side of channel `c` that `pid` speaks for with `handle`. -/
def speaks (k : Kernel V) (pid handle : ℕ) : Option (Fin 2) :=
  if findChannelForHandle k pid handle = some c then findSide (k.channels c) pid else none

namespace Watch

def start (k : Kernel V) : Watch V := ⟨k, fun _ ↦ [], fun _ ↦ []⟩

def noteSend (w : Watch V) (pid handle : ℕ) (data : Option (List UInt8)) : Fin 2 → List (List UInt8) :=
  match speaks c w.kernel pid handle, data with
  | some side, some bytes =>
    if (nexusIpcSend w.kernel pid handle data).1 = 0 then w.sent
    else Function.update w.sent side (w.sent side ++ [bytes])
  | _, _ => w.sent

def noteRecv (w : Watch V) (pid handle : ℕ) (buffers : Bool) (capacity : ℕ) :
    Fin 2 → List (ℕ × List UInt8) :=
  match speaks c w.kernel pid handle, (nexusIpcRecv w.kernel pid handle buffers capacity).1 with
  | some side, some bytes => Function.update w.got side (w.got side ++ [(capacity, bytes)])
  | _, _ => w.got

def step (w : Watch V) (op : Op) : Watch V where
  kernel := Core.step m w.kernel op
  sent := match op with
    | .ipcSend pid handle data => w.noteSend c pid handle data
    | _ => w.sent
  got := match op with
    | .ipcRecv pid handle buffers capacity => w.noteRecv c pid handle buffers capacity
    | _ => w.got

end Watch

def handleNames (k : Kernel V) (pid handle : ℕ) : Option (Fin 16) := do
  let i ← processGet k pid
  let h ← handleIndex handle
  channelIndex ((k.processes i).ipcHandles h)

def KeepsOpen (owner peer : ℕ) (w : Watch V) : Op → Prop
  | .ipcClose pid handle => pid = owner ∨ pid = peer → handleNames w.kernel pid handle ≠ some c
  | .exitWithCode pid _ _ => pid ≠ owner ∧ pid ≠ peer
  | _ => True

def contents (msg : IpcMessage) : List UInt8 := (List.range msg.size).map msg.data

theorem contents_storeMessage (old : IpcMessage) (data : List UInt8) :
    contents (storeMessage old data) = data := by
  apply List.ext_getElem
  · simp [contents, storeMessage]
  intro i h₁ h₂
  simp [contents, storeMessage, h₂]

theorem readMessage_eq (msg : IpcMessage) (capacity : ℕ) :
    readMessage msg capacity = (contents msg).take capacity := by
  rw [readMessage, contents, ← List.map_take, List.take_range, min_comm]

def pending (ch : IpcChannel) (side : Fin 2) : List (List UInt8) :=
  (ringView channelQueueDepth (ch.queue side) (ch.queueHead side) (ch.queueCount side)).map contents

theorem pending_enqueue (ch : IpcChannel) (target : Fin 2) (data : List UInt8)
    (h : ch.queueCount target < channelQueueDepth) (side : Fin 2) :
    pending (enqueue ch target data) side =
      if side = target then pending ch side ++ [data] else pending ch side := by
  by_cases hs : side = target
  · subst hs
    simp [pending, enqueue, ringView_push _ h, contents_storeMessage]
  · simp [pending, enqueue, hs]

theorem pending_dequeue (ch : IpcChannel) (side : Fin 2)
    (hhead : ch.queueHead side < channelQueueDepth) (h : ch.queueCount side ≠ 0) :
    pending ch side =
      contents (ch.queue side (ch.queueHead side)) :: pending (dequeue ch side) side := by
  obtain ⟨n, hn⟩ := Nat.exists_eq_succ_of_ne_zero h
  simp only [pending, dequeue, Function.update_self, hn, Nat.succ_sub_one]
  rw [ringView_pop, List.map_cons, Nat.mod_eq_of_lt hhead]

theorem pending_dequeue_of_ne (ch : IpcChannel) {side side' : Fin 2} (h : side' ≠ side) :
    pending (dequeue ch side) side' = pending ch side' := by
  simp [pending, dequeue, h]

/-- The open channel between `owner` and `peer`, with its queues as the history has them. -/
structure Watch.Inv (owner peer : ℕ) (w : Watch V) : Prop where
  active : (w.kernel.channels c).active = true
  pids : (w.kernel.channels c).pid 0 = owner ∧ (w.kernel.channels c).pid 1 = peer
  head_lt : ∀ side, (w.kernel.channels c).queueHead side < channelQueueDepth
  count_le : ∀ side, (w.kernel.channels c).queueCount side ≤ channelQueueDepth
  history : ∀ side, ∃ delivered,
    w.sent (other side) = delivered ++ pending (w.kernel.channels c) side ∧
      List.Forall₂ (fun r d ↦ r.2 = d.take r.1) (w.got side) delivered

variable {m c} {owner peer : ℕ} {w : Watch V}

section

variable (h : w.Inv c owner peer)
include h

theorem findSide_open (pid : ℕ) : findSide (w.kernel.channels c) pid =
      if owner = pid then some 0 else if peer = pid then some 1 else none := by
  simp [findSide, h.active, h.pids]

theorem Watch.Inv.frame {w' : Watch V}
    (hch : w'.kernel.channels c = w.kernel.channels c) (hsent : w'.sent = w.sent)
    (hgot : w'.got = w.got) : w'.Inv c owner peer where
  active := hch ▸ h.active
  pids := hch ▸ h.pids
  head_lt := hch ▸ h.head_lt
  count_le := hch ▸ h.count_le
  history := by rw [hch, hsent, hgot]; exact h.history

theorem send_inv (pid handle : ℕ) (data : Option (List UInt8)) :
    (w.step m c (.ipcSend pid handle data)).Inv c owner peer := by
  obtain heq | ⟨bytes, d, side, rfl, hlen, hfind, hside, hroom, heq⟩ :=
    nexusIpcSend_cases w.kernel pid handle data
  · refine h.frame (by simp [Watch.step, Core.step, heq]) ?_ rfl
    simp only [Watch.step, Watch.noteSend, heq, if_true]
    split <;> rfl
  by_cases hdc : d = c
  · subst hdc
    have hspeaks : speaks d w.kernel pid handle = some side := by simp [speaks, hfind, hside]
    have hch : (w.step m d (.ipcSend pid handle (some bytes))).kernel.channels d =
        enqueue (w.kernel.channels d) (other side) bytes := by
      simp [Watch.step, Core.step, heq]
    have hsent : (w.step m d (.ipcSend pid handle (some bytes))).sent =
        Function.update w.sent side (w.sent side ++ [bytes]) := by
      simp [Watch.step, Watch.noteSend, hspeaks, heq, hlen]
    refine ⟨hch ▸ h.active, hch ▸ h.pids, hch ▸ h.head_lt, fun s ↦ ?_, fun s ↦ ?_⟩
    · rw [hch]
      by_cases hs : s = other side
      · subst hs
        simpa [enqueue] using hroom
      · simpa [enqueue, hs] using h.count_le s
    obtain ⟨delivered, hd, hgot⟩ := h.history s
    refine ⟨delivered, ?_, hgot⟩
    rw [hch, hsent, pending_enqueue _ _ _ hroom]
    by_cases hs : s = other side
    · obtain rfl : other s = side := by rw [hs]; fin_cases side <;> rfl
      rw [if_pos hs, Function.update_self, hd, List.append_assoc]
    have hne : other s ≠ side := by
      intro heq
      exact hs (by rw [← heq]; fin_cases s <;> rfl)
    rw [if_neg hs, Function.update_of_ne hne, hd]
  · refine h.frame (by simp [Watch.step, Core.step, heq, Ne.symm hdc]) ?_ rfl
    have hspeaks : speaks c w.kernel pid handle = none := by
      simp [speaks, hfind, hdc]
    simp [Watch.step, Watch.noteSend, hspeaks]

theorem recv_inv (pid handle : ℕ) (buffers : Bool) (capacity : ℕ) :
    (w.step m c (.ipcRecv pid handle buffers capacity)).Inv c owner peer := by
  obtain heq | ⟨d, side, hfind, hside, hcount, heq⟩ :=
    nexusIpcRecv_cases w.kernel pid handle buffers capacity
  · refine h.frame (by simp [Watch.step, Core.step, heq]) rfl ?_
    simp [Watch.step, Watch.noteRecv, heq]
  by_cases hdc : d = c
  · subst hdc
    have hspeaks : speaks d w.kernel pid handle = some side := by simp [speaks, hfind, hside]
    have hch : (w.step m d (.ipcRecv pid handle buffers capacity)).kernel.channels d =
        dequeue (w.kernel.channels d) side := by
      simp [Watch.step, Core.step, heq]
    have hgot' : (w.step m d (.ipcRecv pid handle buffers capacity)).got =
        Function.update w.got side (w.got side ++ [(capacity, readMessage
          ((w.kernel.channels d).queue side ((w.kernel.channels d).queueHead side)) capacity)]) := by
      simp [Watch.step, Watch.noteRecv, hspeaks, heq]
    refine ⟨hch ▸ h.active, hch ▸ h.pids, fun s ↦ ?_, fun s ↦ ?_, fun s ↦ ?_⟩
    · rw [hch]
      by_cases hs : s = side
      · subst hs
        simpa [dequeue] using Nat.mod_lt _ (by decide)
      · simpa [dequeue, hs] using h.head_lt s
    · rw [hch]
      by_cases hs : s = side
      · subst hs
        simpa [dequeue] using (Nat.sub_le _ 1).trans (h.count_le s)
      · simpa [dequeue, hs] using h.count_le s
    obtain ⟨delivered, hd, hgot⟩ := h.history s
    rw [hch, hgot']
    by_cases hs : s = side
    · subst hs
      rw [pending_dequeue _ _ (h.head_lt s) hcount] at hd
      refine ⟨delivered ++ [contents ((w.kernel.channels d).queue s
        ((w.kernel.channels d).queueHead s))], ?_, ?_⟩
      · rw [List.append_assoc]
        exact hd
      · rw [Function.update_self]
        exact List.rel_append hgot (.cons (readMessage_eq _ _) .nil)
    · rw [Function.update_of_ne hs, pending_dequeue_of_ne _ hs]
      exact ⟨delivered, hd, hgot⟩
  · refine h.frame (by simp [Watch.step, Core.step, heq, Ne.symm hdc]) rfl ?_
    have hspeaks : speaks c w.kernel pid handle = none := by
      simp [speaks, hfind, hdc]
    simp [Watch.step, Watch.noteRecv, hspeaks]

theorem create_inv (a b : ℕ) (out : Bool) : (w.step m c (.ipcCreate a b out)).Inv c owner peer := by
  refine h.frame ?_ rfl rfl
  obtain heq | ⟨i, j, g, g', d, -, -, -, -, -, -, -, hfree, heq⟩ :=
    nexusIpcCreate_cases w.kernel a b out
  · simp [Watch.step, Core.step, heq]
  · have hcd : c ≠ d := by
      rintro rfl
      have := List.find?_some hfree
      simp [h.active] at this
    simp [Watch.step, Core.step, heq, hcd]

theorem close_inv (pid handle : ℕ) (hp : KeepsOpen c owner peer w (.ipcClose pid handle)) :
    (w.step m c (.ipcClose pid handle)).Inv c owner peer := by
  refine h.frame ?_ rfl rfl
  obtain heq | ⟨i, g, d, side, hi, hg, hd, hside, heq⟩ := nexusIpcClose_cases w.kernel pid handle
  · simp [Watch.step, Core.step, heq]
  have hcd : c ≠ d := by
    rintro rfl
    have hpid : pid = owner ∨ pid = peer := by
      rw [findSide_open h] at hside
      split_ifs at hside with h₁ h₂
      · exact .inl h₁.symm
      · exact .inr h₂.symm
    exact hp hpid (by simp [handleNames, hi, hg, hd])
  simp [Watch.step, Core.step, heq, hcd]

end

theorem watch_step_inv (op : Op) (h : w.Inv c owner peer) (hp : KeepsOpen c owner peer w op) :
    (w.step m c op).Inv c owner peer := by
  cases op with
  | processCreate ticks parentPid =>
    exact h.frame (congrFun (processCreate_channels m w.kernel ticks parentPid) c) rfl rfl
  | setCurrent pid => exact h.frame (congrFun (processSetCurrent_channels w.kernel pid) c) rfl rfl
  | clearCurrent => exact h.frame (congrFun (processClearCurrent_channels w.kernel) c) rfl rfl
  | ipcCreate a b out => exact create_inv h a b out
  | ipcClose pid handle => exact close_inv h pid handle hp
  | ipcSend pid handle data => exact send_inv h pid handle data
  | ipcRecv pid handle buffers capacity => exact recv_inv h pid handle buffers capacity
  | exitWithCode pid code reason =>
    have hside : findSide (w.kernel.channels c) pid = none := by
      rw [findSide_open h, if_neg (Ne.symm hp.1), if_neg (Ne.symm hp.2)]
    exact h.frame (processExitWithCode_channels hside code reason) rfl rfl
  | reap pid tid => exact h.frame (congrFun (processReap_channels m w.kernel pid tid) c) rfl rfl

theorem start_inv {k : Kernel V} {out : Bool} {handle : ℕ}
    (h : (nexusIpcCreate k owner peer out).1 = some handle) (hc : findFreeChannel k = some c) :
    (Watch.start (nexusIpcCreate k owner peer out).2).Inv c owner peer := by
  obtain heq | ⟨i, j, g, g', d, -, -, -, -, -, -, -, hd, heq⟩ := nexusIpcCreate_cases k owner peer out
  · simp [heq] at h
  obtain rfl : d = c := by simpa [hd] using hc
  have hch : (Watch.start (nexusIpcCreate k owner peer out).2).kernel.channels d =
      openChannel (k.channels d) owner peer := by
    simp [Watch.start, heq]
  refine ⟨by rw [hch]; rfl, by rw [hch]; exact ⟨rfl, rfl⟩, fun s ↦ ?_, fun s ↦ ?_, fun s ↦ ?_⟩
  · rw [hch]
    exact Nat.zero_lt_succ _
  · rw [hch]
    exact Nat.zero_le _
  rw [hch]
  exact ⟨[], rfl, .nil⟩

section Queue

variable {k : Kernel V} {pid handle : ℕ} {side : Fin 2}

theorem poll_eq (hs : speaks c k pid handle = some side) :
    nexusIpcPoll k pid handle = (pending (k.channels c) side).length := by
  unfold speaks at hs
  split_ifs at hs with hfind
  simp [nexusIpcPoll, hfind, hs, pending]

theorem send_full (hs : speaks c k pid handle = some (other side))
    (hfull : (pending (k.channels c) side).length = channelQueueDepth)
    (data : Option (List UInt8)) : nexusIpcSend k pid handle data = (0, k) := by
  unfold speaks at hs
  split_ifs at hs with hfind
  obtain heq | ⟨bytes, d, s, -, -, hfind', hside, hroom, -⟩ := nexusIpcSend_cases k pid handle data
  · exact heq
  obtain rfl : c = d := by simpa [hfind] using hfind'
  obtain rfl : other side = s := by simpa [hs] using hside
  have hother : other (other side) = side := by fin_cases side <;> rfl
  rw [hother] at hroom
  simp only [pending, List.length_map, length_ringView] at hfull
  omega

end Queue

/-- Until a side of a new channel closes it or exits, a side receives what the other side sent, in
order and once, cut to the capacity it asks with; the rest waits in the queue, whose length is what
`poll` answers, and a full queue refuses a message. -/
theorem ipc_fifo_exactly_once (m : Memory V) (k : Kernel V) (owner peer handle : ℕ)
    (hcreate : (nexusIpcCreate k owner peer true).1 = some handle) :
    ∃ c, findFreeChannel k = some c ∧ ∀ ops : List Op,
      Along (Watch.step m c) (KeepsOpen c owner peer)
        (Watch.start (nexusIpcCreate k owner peer true).2) ops →
      let w := ops.foldl (Watch.step m c) (Watch.start (nexusIpcCreate k owner peer true).2)
      ∀ side, ∃ delivered waiting, w.sent (other side) = delivered ++ waiting ∧
        List.Forall₂ (fun r d ↦ r.2 = d.take r.1) (w.got side) delivered ∧
        waiting.length ≤ channelQueueDepth ∧
        (∀ pid h, speaks c w.kernel pid h = some side →
          nexusIpcPoll w.kernel pid h = waiting.length) ∧
        (waiting.length = channelQueueDepth → ∀ pid h data,
          speaks c w.kernel pid h = some (other side) →
          nexusIpcSend w.kernel pid h data = (0, w.kernel)) := by
  obtain heq | ⟨i, j, g, g', c, -, -, -, -, -, -, -, hc, heq⟩ :=
    nexusIpcCreate_cases k owner peer true
  · simp [heq] at hcreate
  refine ⟨c, hc, ?_⟩
  intro ops hp w side
  have hinv : w.Inv c owner peer :=
    Along.invariant (fun w op ↦ watch_step_inv op) (start_inv hcreate hc) hp
  obtain ⟨delivered, hsent, hgot⟩ := hinv.history side
  have hlen : (pending (w.kernel.channels c) side).length ≤ channelQueueDepth := by
    simpa [pending] using hinv.count_le side
  exact ⟨delivered, pending (w.kernel.channels c) side, hsent, hgot, hlen,
    fun pid h hs ↦ poll_eq hs, fun hfull pid h data hs ↦ send_full hs hfull data⟩

section Sample

instance (w : Watch V) : (op : Op) → Decidable (KeepsOpen c owner peer w op)
  | .ipcClose pid handle => inferInstanceAs (Decidable
      (pid = owner ∨ pid = peer → handleNames w.kernel pid handle ≠ some c))
  | .exitWithCode pid _ _ => inferInstanceAs (Decidable (pid ≠ owner ∧ pid ≠ peer))
  | .processCreate _ _ => .isTrue trivial
  | .setCurrent _ => .isTrue trivial
  | .clearCurrent => .isTrue trivial
  | .ipcCreate _ _ _ => .isTrue trivial
  | .ipcSend _ _ _ => .isTrue trivial
  | .ipcRecv _ _ _ _ => .isTrue trivial
  | .reap _ _ => .isTrue trivial

def twoProcesses : Kernel Unit := [.processCreate 0 0, .processCreate 0 0].foldl
  (step sampleMemory) (bootKernel ())

/-- Two messages, of which the second is received in part and a third is waiting. -/
def sampleOps : List Op :=
  [.ipcSend 1 1 (some [5]), .ipcSend 1 1 (some [6, 7]), .ipcRecv 2 1 true 4,
    .ipcSend 1 1 (some [8]), .ipcRecv 2 1 true 1]

theorem ipc_fifo_sample :
    (nexusIpcCreate twoProcesses 1 2 true).1 = some 1 ∧
      ∃ c, findFreeChannel twoProcesses = some c ∧
        let w := sampleOps.foldl (Watch.step sampleMemory c)
          (Watch.start (nexusIpcCreate twoProcesses 1 2 true).2)
        w.got 1 = [(4, [5]), (1, [6])] ∧ nexusIpcPoll w.kernel 2 1 = 1 ∧
          ∃ delivered waiting, w.sent 0 = delivered ++ waiting ∧
            List.Forall₂ (fun r d ↦ r.2 = d.take r.1) (w.got 1) delivered := by
  have hcreate : (nexusIpcCreate twoProcesses 1 2 true).1 = some 1 := by decide +kernel
  obtain ⟨c, hc, hrun⟩ := ipc_fifo_exactly_once sampleMemory twoProcesses 1 2 1 hcreate
  obtain rfl : c = 0 := by
    have h0 : findFreeChannel twoProcesses = some 0 := by decide +kernel
    simpa [hc] using h0
  obtain ⟨delivered, waiting, hsent, hgot, -⟩ := hrun sampleOps (by decide +kernel) 1
  exact ⟨hcreate, 0, hc, by decide +kernel, by decide +kernel, delivered, waiting, hsent, hgot⟩

end Sample

end NexusOS.Core
