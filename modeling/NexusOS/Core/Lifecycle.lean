import NexusOS.Core.IpcLeak

namespace NexusOS.Core

open Lib

variable {V : Type*} {m : Memory V} {k k' k'' : Kernel V} {i j : Fin 8} {pid : ℕ}

section Ipc

structure SameButIpc (k k' : Kernel V) : Prop where
  process : ∀ j, ∃ handles, k'.processes j = { k.processes j with ipcHandles := handles }
  nextPid : k'.nextPid = k.nextPid
  currentPid : k'.currentPid = k.currentPid
  processCount : k'.processCount = k.processCount
  zombieCount : k'.zombieCount = k.zombieCount
  processReady : k'.processReady = k.processReady
  vm : k'.vm = k.vm

theorem SameButIpc.refl (k : Kernel V) : SameButIpc k k :=
  ⟨fun _ ↦ ⟨_, rfl⟩, rfl, rfl, rfl, rfl, rfl, rfl⟩

theorem SameButIpc.trans (h : SameButIpc k k') (h' : SameButIpc k' k'') : SameButIpc k k'' := by
  refine ⟨?_, h'.nextPid.trans h.nextPid, h'.currentPid.trans h.currentPid,
    h'.processCount.trans h.processCount, h'.zombieCount.trans h.zombieCount,
    h'.processReady.trans h.processReady, h'.vm.trans h.vm⟩
  intro j
  obtain ⟨handles, hj⟩ := h.process j
  obtain ⟨handles', hj'⟩ := h'.process j
  exact ⟨handles', by rw [hj', hj]⟩

theorem SameButIpc.setChannel (k : Kernel V) (c : Fin 16) (ch : IpcChannel) :
    SameButIpc k (k.setChannel c ch) :=
  ⟨fun _ ↦ ⟨_, rfl⟩, rfl, rfl, rfl, rfl, rfl, rfl⟩

theorem SameButIpc.setHandle (k : Kernel V) (i h : Fin 8) (id : ℕ) :
    SameButIpc k (k.setHandle i h id) := by
  refine ⟨?_, rfl, rfl, rfl, rfl, rfl, rfl⟩
  intro j
  by_cases hj : j = i
  · subst hj
    exact ⟨Function.update (k.processes j).ipcHandles h id, by simp [Kernel.setHandle]⟩
  · exact ⟨(k.processes j).ipcHandles, by simp [Kernel.setHandle, hj]⟩

theorem SameButIpc.dropHandle (k : Kernel V) (j : Fin 8) (id : ℕ) :
    SameButIpc k (dropHandle k j id) := by
  unfold Core.dropHandle
  split
  · exact .refl k
  · exact .setHandle k j _ 0

theorem SameButIpc.terminateHandle (k : Kernel V) (pid : ℕ) (i h : Fin 8) :
    SameButIpc k (terminateHandle pid i k h) := by
  unfold Core.terminateHandle
  dsimp only
  split
  · exact .refl k
  split
  · exact .refl k
  have hclose := fun c ch ↦ (SameButIpc.setChannel k c ch).trans (.setHandle _ i h 0)
  split_ifs
  · exact hclose _ _
  split
  · exact hclose _ _
  · exact (hclose _ _).trans (.dropHandle _ _ _)

theorem SameButIpc.terminate (k : Kernel V) (pid : ℕ) :
    SameButIpc k (nexusIpcProcessTerminate k pid) := by
  unfold nexusIpcProcessTerminate
  split
  · exact .refl k
  · exact foldl_invariant (fun k' h hk' ↦ hk'.trans (.terminateHandle k' pid _ h)) (.refl k) _

theorem SameButIpc.state (h : SameButIpc k k') (j : Fin 8) :
    (k'.processes j).state = (k.processes j).state ∧ (k'.processes j).pid = (k.processes j).pid := by
  obtain ⟨handles, hj⟩ := h.process j
  rw [hj]
  exact ⟨rfl, rfl⟩

end Ipc

section Calls

theorem processGet_of_unique (hready : k.processReady = true) (h0 : (k.processes i).pid ≠ 0)
    (hs : (k.processes i).state ≠ .unused)
    (hu : ∀ j, (k.processes j).state ≠ .unused → (k.processes j).pid = (k.processes i).pid → j = i) :
    processGet k (k.processes i).pid = some i := by
  cases hg : processGet k (k.processes i).pid with
  | some j =>
    obtain ⟨hj, hpid⟩ := processGet_some hg
    rw [hu j hj hpid]
  | none =>
    simp only [processGet, hready, Bool.not_true, Bool.false_eq_true, h0, or_self, if_false,
      List.find?_eq_none] at hg
    have := hg i (List.mem_finRange i)
    simp [hs] at this

theorem processCreate_cases (m : Memory V) (k : Kernel V) (ticks parentPid : ℕ) :
    processCreate m k ticks parentPid = (0, k) ∨ ∃ i, (k.processes i).state = .unused ∧
      k.processReady = true ∧
      ((∃ p, p.state = .unused ∧ processCreate m k ticks parentPid = (0, { k with
          processes := Function.update k.processes i p
          nextPid := (takePid k.nextPid).2
          vm := (m.pagingCreateAddressSpace k.vm).2 })) ∨
      ((m.pagingCreateAddressSpace k.vm).1 ≠ 0 ∧
        processCreate m k ticks parentPid = ((takePid k.nextPid).1, { k with
          processes := Function.update k.processes i (created (announced (k.processes i)
            (takePid k.nextPid).1 parentPid (parentCapabilities k parentPid) ticks)
            (m.pagingCreateAddressSpace k.vm).1)
          nextPid := (takePid k.nextPid).2
          processCount := (k.processCount + 1) % 2 ^ 64
          vm := (m.pagingCreateAddressSpace k.vm).2 }))) := by
  unfold processCreate
  cases hr : k.processReady with
  | false => exact .inl rfl
  | true =>
    simp only [Bool.not_true, Bool.false_eq_true, if_false]
    cases hi : findUnused k with
    | none => exact .inl rfl
    | some i =>
      refine .inr ⟨i, findUnused_some hi, trivial, ?_⟩
      dsimp only
      by_cases h0 : (m.pagingCreateAddressSpace k.vm).1 = 0
      · rw [if_pos h0]
        exact .inl ⟨_, rfl, rfl⟩
      rw [if_neg h0]
      exact .inr ⟨h0, rfl⟩

/-- The process that runs is set back to READY if it is not slot `i`. -/
def paused (k : Kernel V) (i : Option (Fin 8)) (j : Fin 8) : Process :=
  if processGet k k.currentPid = some j ∧ some j ≠ i ∧ (k.processes j).state = .running then
    { k.processes j with state := .ready } else k.processes j

theorem processSetCurrent_cases (k : Kernel V) (pid : ℕ) :
    processSetCurrent k pid = (false, k) ∨ ∃ i, processGet k pid = some i ∧
      ((k.processes i).state = .ready ∨ (k.processes i).state = .running) ∧
      processSetCurrent k pid = (true, { k with
        processes := Function.update (paused k (some i)) i
          { k.processes i with state := .running }
        currentPid := pid }) := by
  unfold processSetCurrent
  cases hi : processGet k pid with
  | none => exact .inl rfl
  | some i =>
    dsimp only
    split_ifs with hs
    · exact .inl rfl
    refine .inr ⟨i, rfl, by tauto, ?_⟩
    congr 1
    cases hj : processGet k k.currentPid with
    | none =>
      have hp : paused k (some i) = k.processes := by
        funext j
        simp [paused, hj]
      rw [hp]
      rfl
    | some j =>
      dsimp only
      split_ifs with hrun
      · have hp : paused k (some i) =
            Function.update k.processes j { k.processes j with state := .ready } := by
          funext l
          by_cases hl : l = j
          · subst hl
            simp [paused, hj, hrun]
          · simp [paused, hj, hl, Ne.symm hl]
        rw [hp]
        simp only [Kernel.setProcess, Function.update_of_ne hrun.1.symm]
      have hp : paused k (some i) = k.processes := by
        funext l
        simp only [paused, hj, Option.some.injEq]
        rw [if_neg]
        rintro ⟨rfl, hne, hr⟩
        exact hrun ⟨fun h ↦ hne (by rw [h]), hr⟩
      rw [hp]
      rfl

theorem processClearCurrent_eq (k : Kernel V) :
    processClearCurrent k = { k with processes := paused k none, currentPid := 0 } := by
  unfold processClearCurrent
  cases hj : processGet k k.currentPid with
  | none =>
    have hp : paused k none = k.processes := by
      funext j
      simp [paused, hj]
    rw [hp]
  | some j =>
    dsimp only
    split_ifs with hrun
    · have hp : paused k none =
          Function.update k.processes j { k.processes j with state := .ready } := by
        funext l
        by_cases hl : l = j
        · subst hl
          simp [paused, hj, hrun]
        · simp [paused, hj, hl, Ne.symm hl]
      rw [hp]
      rfl
    have hp : paused k none = k.processes := by
      funext l
      simp only [paused, hj, Option.some.injEq]
      rw [if_neg]
      rintro ⟨rfl, -, hr⟩
      exact hrun hr
    rw [hp]

theorem processExitWithCode_cases (k : Kernel V) (pid code reason : ℕ) :
    (processExitWithCode k pid code reason = (false, k) ∧
      ∀ i, processGet k pid = some i → (k.processes i).state = .zombie) ∨
    ∃ i k₁, processGet k pid = some i ∧ (k.processes i).state ≠ .zombie ∧ SameButIpc k k₁ ∧
      processExitWithCode k pid code reason = (true, { k₁ with
        processes := Function.update k₁.processes i
          { k₁.processes i with exitCode := code, exitReason := reason, state := .zombie }
        processCount := k.processCount - 1
        zombieCount := (k.zombieCount + 1) % 2 ^ 64 }) := by
  have hipc := SameButIpc.terminate k pid
  unfold processExitWithCode
  cases hi : processGet k pid with
  | none => exact .inl ⟨rfl, by simp⟩
  | some i =>
    dsimp only
    split_ifs with hz
    · exact .inl ⟨rfl, by simpa using hz⟩
    refine .inr ⟨i, nexusIpcProcessTerminate k pid, rfl, hz, hipc, ?_⟩
    rw [← hipc.processCount, ← hipc.zombieCount]
    rfl

/-- The memory after the pages of a process and its address space have been released. -/
def reapedVm (m : Memory V) (p : Process) (v : V) : V :=
  let v := p.userPages.foldl (releaseUserPage m p.addressSpaceCr3) v
  if p.addressSpaceCr3 ≠ 0 then m.pagingDestroyAddressSpace p.addressSpaceCr3 v else v

def stripped (p : Process) : Process :=
  { p with
    userPages := []
    userPageBase := 0
    userPagesReserved := 0
    flags := clearUserMemoryFlag p.flags
    addressSpaceCr3 := 0
    ipcHandles := fun _ ↦ 0 }

theorem processReap_eq (m : Memory V) (k : Kernel V) (pid tid : ℕ) :
    processReap m k pid tid = (false, k) ∨ ∃ i, processGet k pid = some i ∧
      (k.processes i).state = .zombie ∧
      processReap m k pid tid = (true, { k with
        processes := Function.update k.processes i (reaped (stripped (k.processes i)))
        zombieCount := k.zombieCount - 1
        vm := reapedVm m (k.processes i) k.vm }) := by
  unfold processReap
  cases hi : processGet k pid with
  | none => exact .inl rfl
  | some i =>
    dsimp only
    split_ifs with hz hcr3
    · exact .inl rfl
    all_goals
      refine .inr ⟨i, rfl, by simpa using fun h ↦ hz (.inl h), ?_⟩
      simp only [processUnmapUserMemory, hi, setProcess_processes, if_true] at hcr3 ⊢
      -- The lookups in between find the same slot.
      have hget : ∀ k' : Kernel V, k'.processReady = k.processReady →
          (∀ j, (k'.processes j).state = (k.processes j).state ∧
            (k'.processes j).pid = (k.processes j).pid) → processGet k' pid = some i := by
        intro k' hr hp
        rw [processGet_congr hr hp, hi]
      simp only [Kernel.setProcess, Function.update_idem, processIpcResetHandles, reapedVm]
      rw [hget]
      · simp [hcr3, stripped]
      · rfl
      intro j
      by_cases hj : j = i
      · simp [hj]
      · simp [hj]

end Calls

end NexusOS.Core
