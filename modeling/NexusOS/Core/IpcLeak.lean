import NexusOS.Core.IpcLinked

namespace NexusOS.Core

open Lib

variable {V : Type*} {m : Memory V} {k k' : Kernel V} {i j : Fin 8} {c : Fin 16}

section Exit

variable {pid : ℕ}

theorem alive_iff {p : Process} : p.alive = true ↔ p.state ≠ .unused ∧ p.state ≠ .zombie := by
  simp [Process.alive]

/-- The peers of process `i` have closed their sides of the channels it has handles for. -/
def OthersClosed (k : Kernel V) (i : Fin 8) : Prop :=
  ∀ (h : Fin 8) (c : Fin 16) (s : Fin 2), (k.processes i).ipcHandles h = c + 1 →
    findSide (k.channels c) (k.processes i).pid = some s → (k.channels c).closed (other s) = true

/-- What the rounds of `nexus_ipc_process_terminate` keep while they drop the handles of `i`. -/
structure Leaving (pid : ℕ) (i : Fin 8) (k : Kernel V) : Prop where
  linked : Linked k
  alive : (k.processes i).alive = true
  pid_eq : (k.processes i).pid = pid
  others : OthersClosed k i

theorem closed_both {ch : IpcChannel} {s : Fin 2} (h : ch.closed (other s) = true) (t : Fin 2) :
    (closeSide ch s).closed t = true := by
  rw [closeSide_closed]
  split_ifs with hts
  · rfl
  rw [(eq_or_other t s).resolve_left hts]
  exact h

theorem Leaving.round (hl : Leaving pid i k) (h : Fin 8) :
    Leaving pid i (terminateHandle pid i k h) ∧
      ((terminateHandle pid i k h).processes i).ipcHandles h = 0 ∧
      ∀ g, (k.processes i).ipcHandles g = 0 →
        ((terminateHandle pid i k h).processes i).ipcHandles g = 0 := by
  by_cases hh : (k.processes i).ipcHandles h = 0
  · have hsame : terminateHandle pid i k h = k := by
      simp [terminateHandle, hh, channelIndex]
    rw [hsame]
    exact ⟨hl, hh, fun g hg ↦ hg⟩
  obtain ⟨c, hc, hca, s, hs, -⟩ := hl.linked.held i h hl.alive hh
  have hside : findSide (k.channels c) pid = some s :=
    findSide_of_pid hca (hl.linked.apart c hca) (hs.trans hl.pid_eq)
  have hboth := closed_both (hl.others h c s hc (by rw [hl.pid_eq, hside]))
  have hterm : terminateHandle pid i k h =
      (k.setChannel c (closeSide (k.channels c) s)).setHandle i h 0 := by
    simp only [terminateHandle, channelIndex_some.2 hc, hside]
    rw [if_pos]
    simp [hboth]
  have hzero : ∀ g, (k.processes i).ipcHandles g = 0 →
      ((terminateHandle pid i k h).processes i).ipcHandles g = 0 := by
    intro g hg
    simp [hterm, hg]
  refine ⟨⟨?_, ?_, ?_, ?_⟩, by simp [hterm], hzero⟩
  · rw [hterm]
    exact hl.linked.close hl.alive hc hca hs
  · simpa [hterm] using hl.alive
  · simpa [hterm] using hl.pid_eq
  intro g d t hg hd
  have hgh : g ≠ h := by
    rintro rfl
    simp [hterm] at hg
  have hg' : (k.processes i).ipcHandles g = d + 1 := by simpa [hterm, hgh] using hg
  have hdc : d ≠ c := by
    rintro rfl
    exact hgh (hl.linked.unique i g i h hl.alive hl.alive (by omega) (hg'.trans hc.symm) rfl).2
  have hd' : findSide (k.channels d) (k.processes i).pid = some t := by
    simpa [hterm, hdc] using hd
  simpa [hterm, hdc] using hl.others g d t hg' hd'

theorem Leaving.rounds (hs : List (Fin 8)) (hl : Leaving pid i k) :
    Leaving pid i (hs.foldl (terminateHandle pid i) k) ∧
      ∀ h, h ∈ hs ∨ (k.processes i).ipcHandles h = 0 →
        ((hs.foldl (terminateHandle pid i) k).processes i).ipcHandles h = 0 := by
  induction hs generalizing k with
  | nil => exact ⟨hl, fun h hh ↦ by simpa using hh⟩
  | cons g hs ih =>
    obtain ⟨hround, hg, hkeep⟩ := hl.round g
    obtain ⟨hend, hzero⟩ := ih hround
    refine ⟨hend, fun h hh ↦ hzero h ?_⟩
    rcases hh with hh | hh
    · rcases List.mem_cons.1 hh with rfl | hh
      · exact .inr hg
      · exact .inl hh
    · exact .inr (hkeep h hh)

theorem Linked.exit (hl : Linked k) (pid code reason : ℕ)
    (ho : ∀ i, processGet k pid = some i → (k.processes i).state ≠ .zombie → OthersClosed k i) :
    Linked (processExitWithCode k pid code reason).2 := by
  unfold processExitWithCode
  cases hi : processGet k pid with
  | none => exact hl
  | some i =>
    obtain ⟨hu, hpid⟩ := processGet_some hi
    dsimp only
    split_ifs with hz
    · exact hl
    have hleave : Leaving pid i k := ⟨hl, alive_iff.2 ⟨hu, hz⟩, hpid, ho i hi hz⟩
    obtain ⟨hend, hzero⟩ := hleave.rounds (List.finRange 8)
    have hnone : ∀ h, ((nexusIpcProcessTerminate k pid).processes i).ipcHandles h = 0 := by
      intro h
      simp only [nexusIpcProcessTerminate, hi]
      exact hzero h (.inl (List.mem_finRange h))
    have hlinked : Linked (nexusIpcProcessTerminate k pid) := by
      simp only [nexusIpcProcessTerminate, hi]
      exact hend.linked
    apply hlinked.replace (i := i)
    · intro j hj
      simp [hj]
    · rfl
    · exact fun _ ↦ hnone
    · exact .inr (by simpa using hnone)

end Exit

section Steps

theorem findUnused_some (h : findUnused k = some i) : (k.processes i).state = .unused := by
  have := List.find?_some h
  simpa using this

section

variable (hl : Linked k)
include hl

theorem Linked.processCreate (ticks parentPid : ℕ) :
    Linked (processCreate m k ticks parentPid).2 := by
  unfold NexusOS.Core.processCreate
  split_ifs
  · exact hl
  cases hi : findUnused k with
  | none => exact hl
  | some i =>
    have hbefore : (k.processes i).alive = true → ∀ h, (k.processes i).ipcHandles h = 0 := by
      simp [Process.alive, findUnused_some hi]
    dsimp only
    split_ifs
    · refine hl.replace (i := i) ?_ rfl hbefore (.inl (by simp))
      intro j hj
      simp [hj]
    refine hl.replace (i := i) ?_ rfl hbefore (.inr (by simp [created]))
    intro j hj
    simp [hj]

theorem Linked.setState {s : ProcessState} (hs : s = .ready ∨ s = .running)
    (hi : (k.processes i).alive = true) :
    Linked (k.setProcess i { k.processes i with state := s }) := by
  apply hl.congr
  · intro j
    by_cases hj : j = i
    · subst hj
      rcases hs with rfl | rfl <;> simp [hi, alive_iff]
    · simp [hj]
  · simp

theorem Linked.vary (hp : k'.processes = k.processes)
    (hc : k'.channels = k.channels) : Linked k' := by
  apply hl.congr <;> simp [hp, hc]

theorem Linked.processSetCurrent (pid : ℕ) : Linked (processSetCurrent k pid).2 := by
  unfold NexusOS.Core.processSetCurrent
  cases hi : processGet k pid with
  | none => exact hl
  | some i =>
    dsimp only
    split_ifs with hstate
    · exact hl
    have hi' : (k.processes i).alive = true := by
      rw [alive_iff]
      constructor <;> intro h <;> simp [h] at hstate
    cases hj : processGet k k.currentPid with
    | none => exact (hl.setState (.inr rfl) hi').vary rfl rfl
    | some j =>
      dsimp only
      split_ifs with hne
      · have hl' := hl.setState (i := j) (.inl rfl) (by simp [Process.alive, hne.2])
        refine (hl'.setState (i := i) (.inr rfl) ?_).vary rfl rfl
        simpa [Ne.symm hne.1] using hi'
      · exact (hl.setState (.inr rfl) hi').vary rfl rfl

theorem Linked.processClearCurrent : Linked (processClearCurrent k) := by
  unfold NexusOS.Core.processClearCurrent
  cases hj : processGet k k.currentPid with
  | none => exact hl.vary rfl rfl
  | some j =>
    dsimp only
    split_ifs with hrun
    · exact (hl.setState (.inl rfl) (by simp [Process.alive, hrun])).vary rfl rfl
    · exact hl.vary rfl rfl

theorem Linked.ipcCreate (ownerPid peerPid : ℕ) (outHandle : Bool) :
    Linked (nexusIpcCreate k ownerPid peerPid outHandle).2 := by
  obtain heq | ⟨i, j, h, g, c, hne, hi, hj, hiz, hjz, hh, hg, hc, heq⟩ :=
    nexusIpcCreate_cases k ownerPid peerPid outHandle
  · rwa [heq]
  · rw [heq]
    obtain ⟨hiu, hip⟩ := processGet_some hi
    obtain ⟨hju, hjp⟩ := processGet_some hj
    have hih := List.find?_some hh
    have hjg := List.find?_some hg
    have hca := List.find?_some hc
    exact hl.open hne (alive_iff.2 ⟨hiu, hiz⟩) (alive_iff.2 ⟨hju, hjz⟩) hip hjp
      (by simpa using hih) (by simpa using hjg) (by simpa using hca)

theorem Linked.ipcClose (pid handle : ℕ) : Linked (nexusIpcClose k pid handle).2 := by
  obtain heq | ⟨i, h, c, s, hi, -, hc, hs, heq⟩ := nexusIpcClose_cases k pid handle
  · rwa [heq]
  rw [heq]
  obtain ⟨hu, hpid⟩ := processGet_some hi
  have hh := channelIndex_some.1 hc
  obtain ⟨ha, hsp⟩ := findSide_some hs
  have hz : (k.processes i).state ≠ .zombie := fun hz ↦ by
    have := hl.dead i h hz
    omega
  exact hl.close (alive_iff.2 ⟨hu, hz⟩) hh ha (hsp.trans hpid.symm)

theorem Linked.queued {ch : IpcChannel} (ha : ch.active = (k.channels c).active)
    (hcl : ch.closed = (k.channels c).closed) (hp : ch.pid = (k.channels c).pid) :
    Linked (k.setChannel c ch) := by
  apply hl.congr
  · simp
  intro d
  by_cases hd : d = c
  · subst hd
    simp [ha, hcl, hp]
  · simp [hd]

theorem Linked.ipcSend (pid handle : ℕ) (data : Option (List UInt8)) :
    Linked (nexusIpcSend k pid handle data).2 := by
  obtain heq | ⟨bytes, c, side, -, -, -, -, -, heq⟩ := nexusIpcSend_cases k pid handle data
  · rwa [heq]
  rw [heq]
  exact hl.queued rfl rfl rfl

theorem Linked.ipcRecv (pid handle : ℕ) (buffers : Bool) (capacity : ℕ) :
    Linked (nexusIpcRecv k pid handle buffers capacity).2 := by
  obtain heq | ⟨c, side, -, -, -, heq⟩ := nexusIpcRecv_cases k pid handle buffers capacity
  · rwa [heq]
  rw [heq]
  exact hl.queued rfl rfl rfl

end

theorem processUnmapUserMemory_get (pid pid' : ℕ) :
    processGet (processUnmapUserMemory m k pid).2 pid' = processGet k pid' := by
  unfold processUnmapUserMemory
  cases processGet k pid with
  | none => rfl
  | some i =>
    apply processGet_congr
    · rfl
    intro j
    by_cases hj : j = i
    · simp [hj]
    · simp [hj]

theorem processUnmapUserMemory_processes {pid : ℕ} (hi : processGet k pid = some i) (hj : j ≠ i) :
    (processUnmapUserMemory m k pid).2.processes j = k.processes j := by
  simp [processUnmapUserMemory, hi, hj]

theorem processIpcResetHandles_processes {pid : ℕ} (hi : processGet k pid = some i) (hj : j ≠ i) :
    (processIpcResetHandles k pid).processes j = k.processes j := by
  simp [processIpcResetHandles, hi, hj]

theorem processReap_cases (k : Kernel V) (pid tid : ℕ) :
    processReap m k pid tid = (false, k) ∨ ∃ i, (k.processes i).state = .zombie ∧
      (∀ j, j ≠ i → (processReap m k pid tid).2.processes j = k.processes j) ∧
      ((processReap m k pid tid).2.processes i).state = .unused := by
  simp only [processReap]
  cases hi : processGet k pid with
  | none => exact .inl rfl
  | some i =>
    dsimp only
    split_ifs with hz hcr3
    · exact .inl rfl
    all_goals
      refine .inr ⟨i, by simpa using fun h ↦ hz (.inl h), fun j hj ↦ ?_, by simp [reaped]⟩
      simp only [setProcess_processes, if_neg hj]
      rw [processIpcResetHandles_processes (i := i) _ hj]
      · simp [hj, processUnmapUserMemory_processes hi hj]
      rw [← hi, ← processUnmapUserMemory_get (m := m) (k := k) pid]
      apply processGet_congr
      · rfl
      intro l
      by_cases hl : l = i
      · simp [hl]
      · simp [hl]

theorem Linked.reap (hl : Linked k) (pid tid : ℕ) : Linked (processReap m k pid tid).2 := by
  obtain heq | ⟨i, hz, hj, hu⟩ := processReap_cases (m := m) k pid tid
  · rwa [heq]
  · exact hl.replace hj (processReap_channels m k pid tid) (fun _ h ↦ hl.dead i h hz) (.inl hu)

end Steps

section Run

/-- A process exits only after the peers of its channels have closed their sides. -/
def ExitsLast (k : Kernel V) : Op → Prop
  | .exitWithCode pid _ _ =>
    ∀ i, processGet k pid = some i → (k.processes i).state ≠ .zombie → OthersClosed k i
  | _ => True

theorem Linked.step (hl : Linked k) (op : Op) (hop : ExitsLast k op) :
    Linked (Core.step m k op) := by
  cases op with
  | processCreate ticks parentPid => exact hl.processCreate ticks parentPid
  | setCurrent pid => exact hl.processSetCurrent pid
  | clearCurrent => exact hl.processClearCurrent
  | ipcCreate ownerPid peerPid outHandle => exact hl.ipcCreate ownerPid peerPid outHandle
  | ipcClose pid handle => exact hl.ipcClose pid handle
  | ipcSend pid handle data => exact hl.ipcSend pid handle data
  | ipcRecv pid handle buffers capacity => exact hl.ipcRecv pid handle buffers capacity
  | exitWithCode pid code reason => exact hl.exit pid code reason hop
  | reap pid tid => exact hl.reap pid tid

theorem bootKernel_linked (v : V) : Linked (bootKernel v) := by
  constructor <;> simp [bootKernel, nexusIpcInit, processInit, zeroProcess, Process.alive]

/-- In a run in which processes exit after their peers have closed, no channel is leaked and no
handle dangles. -/
theorem ipc_channels_not_leaked (m : Memory V) (v : V) (ops : List Op)
    (hops : Along (Core.step m) ExitsLast (bootKernel v) ops) :
    let k := ops.foldl (Core.step m) (bootKernel v)
    (∀ c, (k.channels c).active = true → ∃ i h, (k.processes i).alive = true ∧
      (k.processes i).ipcHandles h = c + 1) ∧
    (∀ i h, (k.processes i).alive = true → (k.processes i).ipcHandles h ≠ 0 →
      ∃ (c : Fin 16) (s : Fin 2), (k.processes i).ipcHandles h = c + 1 ∧ (k.channels c).active = true ∧
        (k.channels c).pid s = (k.processes i).pid ∧ (k.channels c).closed s = false) ∧
    ((∀ i h, (k.processes i).alive = true → (k.processes i).ipcHandles h = 0) →
      ∀ c, (k.channels c).active = false) := by
  intro k
  have hl : Linked k :=
    Along.invariant (fun k op hk hop ↦ hk.step op hop) (bootKernel_linked v) hops
  have hnamed : ∀ c, (k.channels c).active = true → ∃ i h, (k.processes i).alive = true ∧
      (k.processes i).ipcHandles h = c + 1 := by
    intro c hc
    obtain ⟨s, hs⟩ := hl.half c hc
    obtain ⟨i, h, hi, hh, -⟩ := hl.named c s hc hs
    exact ⟨i, h, hi, hh⟩
  refine ⟨hnamed, fun i h hi hh ↦ ?_, fun hnone c ↦ ?_⟩
  · obtain ⟨c, hc, ha, s, hp, hs⟩ := hl.held i h hi hh
    exact ⟨c, s, hc, ha, hp, hs⟩
  by_contra hc
  obtain ⟨i, h, hi, hh⟩ := hnamed c (by simpa using hc)
  have := hnone i h hi
  omega

instance (i : Fin 8) : Decidable (OthersClosed k i) :=
  inferInstanceAs (Decidable (∀ h : Fin 8, ∀ c : Fin 16, ∀ s : Fin 2,
    (k.processes i).ipcHandles h = c + 1 → findSide (k.channels c) (k.processes i).pid = some s →
      (k.channels c).closed (other s) = true))

instance (k : Kernel V) : (op : Op) → Decidable (ExitsLast k op)
  | .exitWithCode pid _ _ => inferInstanceAs (Decidable (∀ i, processGet k pid = some i →
      (k.processes i).state ≠ .zombie → OthersClosed k i))
  | .processCreate _ _ => .isTrue trivial
  | .setCurrent _ => .isTrue trivial
  | .clearCurrent => .isTrue trivial
  | .ipcCreate _ _ _ => .isTrue trivial
  | .ipcClose _ _ => .isTrue trivial
  | .ipcSend _ _ _ => .isTrue trivial
  | .ipcRecv _ _ _ _ => .isTrue trivial
  | .reap _ _ => .isTrue trivial

def exitsLastOps : List Op :=
  [.processCreate 0 0, .processCreate 0 0, .ipcCreate 1 2 true, .ipcClose 2 1,
    .exitWithCode 1 0 0, .reap 1 0]

theorem ipc_channels_not_leaked_sample :
    let k := exitsLastOps.foldl (Core.step sampleMemory) (bootKernel ())
    (k.processes 0).state = .unused ∧ ∀ c, (k.channels c).active = false :=
  ⟨by decide +kernel, (ipc_channels_not_leaked sampleMemory () exitsLastOps
    (by decide +kernel)).2.2 (by decide +kernel)⟩

/-- The owner of a channel exits while the peer still has it open. -/
def exitsFirstOps : List Op :=
  [.processCreate 0 0, .processCreate 0 0, .ipcCreate 1 2 true, .exitWithCode 1 0 0]

/-- No process has a handle, but the channel is still active. -/
theorem ipc_channel_leaked :
    let k := exitsFirstOps.foldl (Core.step sampleMemory) (bootKernel ())
    (k.channels 0).active = true ∧ ∀ i h, (k.processes i).ipcHandles h = 0 := by
  decide +kernel

end Run

end NexusOS.Core
