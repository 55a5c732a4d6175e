import NexusOS.Core.Lifecycle

namespace NexusOS.Core

open Lib

variable {V : Type*} {m : Memory V} {k k' : Kernel V} {i j : Fin 8} {pid c c' : ℕ}
  {pids : List ℕ}

section Count

def countSlots (k : Kernel V) (p : Process → Bool) : ℕ :=
  (Finset.univ.filter fun i ↦ p (k.processes i) = true).card

def Process.isZombie (p : Process) : Bool := p.state = .zombie

theorem Process.alive_eq (p : Process) :
    p.alive = decide (p.state ≠ .unused ∧ p.state ≠ .zombie) := by
  rw [Bool.eq_iff_iff, alive_iff, decide_eq_true_iff]

theorem countSlots_congr {p : Process → Bool} (h : ∀ j, p (k'.processes j) = p (k.processes j)) :
    countSlots k' p = countSlots k p := by
  simp only [countSlots, h]

theorem countSlots_replace (k k' : Kernel V) (i : Fin 8) (p : Process → Bool)
    (h : ∀ j, j ≠ i → p (k'.processes j) = p (k.processes j)) :
    countSlots k' p + (p (k.processes i)).toNat = countSlots k p + (p (k'.processes i)).toNat := by
  have hsum : ∀ k : Kernel V, countSlots k p =
      (p (k.processes i)).toNat + ∑ j ∈ Finset.univ.erase i, (p (k.processes j)).toNat := by
    intro k
    rw [Finset.add_sum_erase _ (fun j ↦ (p (k.processes j)).toNat) (Finset.mem_univ i), countSlots,
      Finset.card_filter]
    apply Finset.sum_congr rfl
    intro j _
    cases p (k.processes j) <;> rfl
  have hrest : ∑ j ∈ Finset.univ.erase i, (p (k'.processes j)).toNat =
      ∑ j ∈ Finset.univ.erase i, (p (k.processes j)).toNat := by
    apply Finset.sum_congr rfl
    intro j hj
    rw [h j (Finset.ne_of_mem_erase hj)]
  rw [hsum k, hsum k', hrest]
  omega

theorem countSlots_le (k : Kernel V) (p : Process → Bool) : countSlots k p ≤ 8 :=
  (Finset.card_filter_le _ _).trans (by simp)

theorem countSlots_pos {p : Process → Bool} (h : p (k.processes i) = true) : 0 < countSlots k p :=
  Finset.card_pos.2 ⟨i, by simpa using h⟩

end Count

section Living

/-- The process table after `c` identifiers have been used up, of which `pids` were handed out. -/
structure Living (k : Kernel V) (pids : List ℕ) (c : ℕ) : Prop where
  ready : k.processReady = true
  next : k.nextPid = (1 + c) % 2 ^ 64
  count : k.processCount = countSlots k Process.alive
  zombies : k.zombieCount = countSlots k Process.isZombie
  pid : ∀ i, (k.processes i).state ≠ .unused → 0 < (k.processes i).pid ∧ (k.processes i).pid ≤ c
  distinct : ∀ i j, (k.processes i).state ≠ .unused → (k.processes j).state ≠ .unused →
    (k.processes i).pid = (k.processes j).pid → i = j
  running : ∀ i, (k.processes i).state = .running → (k.processes i).pid = k.currentPid
  handed : ∀ p ∈ pids, p ≤ c
  nodup : pids.Nodup

theorem Living.quiet (h : Living k pids c) (hs : ∀ j, (k'.processes j).state =
      (k.processes j).state ∧ (k'.processes j).pid = (k.processes j).pid)
    (hready : k'.processReady = k.processReady) (hnext : k'.nextPid = k.nextPid)
    (hcur : k'.currentPid = k.currentPid) (hcount : k'.processCount = k.processCount)
    (hz : k'.zombieCount = k.zombieCount) : Living k' pids c := by
  refine ⟨hready.trans h.ready, hnext.trans h.next, ?_, ?_, ?_, ?_, ?_, h.handed, h.nodup⟩
  · rw [hcount, h.count, countSlots_congr]
    intro j
    simp only [Process.alive, hs]
  · rw [hz, h.zombies, countSlots_congr]
    intro j
    simp only [Process.isZombie, hs]
  · intro i
    rw [(hs i).1, (hs i).2]
    exact h.pid i
  · intro i j
    rw [(hs i).1, (hs i).2, (hs j).1, (hs j).2]
    exact h.distinct i j
  intro i
  rw [(hs i).1, (hs i).2, hcur]
  exact h.running i

theorem Living.replace (h : Living k pids c) (hc : c ≤ c')
    (hj : ∀ j, j ≠ i → (k'.processes j).state = (k.processes j).state ∧
      (k'.processes j).pid = (k.processes j).pid)
    (hready : k'.processReady = k.processReady) (hcur : k'.currentPid = k.currentPid)
    (hnext : k'.nextPid = (1 + c') % 2 ^ 64)
    (hcount : k'.processCount + (k.processes i).alive.toNat =
      k.processCount + (k'.processes i).alive.toNat)
    (hz : k'.zombieCount + (k.processes i).isZombie.toNat =
      k.zombieCount + (k'.processes i).isZombie.toNat)
    (hrun : (k'.processes i).state ≠ .running)
    (hpid : (k'.processes i).state ≠ .unused →
      0 < (k'.processes i).pid ∧ (k'.processes i).pid ≤ c' ∧
        ∀ j, j ≠ i → (k.processes j).state ≠ .unused → (k.processes j).pid ≠ (k'.processes i).pid) :
    Living k' pids c' := by
  refine ⟨hready.trans h.ready, hnext, ?_, ?_, ?_, ?_, ?_, ?_, h.nodup⟩
  · have := countSlots_replace k k' i Process.alive fun j hji ↦ by
      simp only [Process.alive, hj j hji]
    have := h.count
    omega
  · have := countSlots_replace k k' i Process.isZombie fun j hji ↦ by
      simp only [Process.isZombie, hj j hji]
    have := h.zombies
    omega
  · intro l hl
    by_cases hli : l = i
    · subst hli
      exact ⟨(hpid hl).1, (hpid hl).2.1⟩
    rw [(hj l hli).1] at hl
    rw [(hj l hli).2]
    exact ⟨(h.pid l hl).1, (h.pid l hl).2.trans hc⟩
  · intro a b ha hb hab
    by_cases hai : a = i
    · by_cases hbi : b = i
      · rw [hai, hbi]
      · subst hai
        rw [(hj b hbi).1] at hb
        rw [(hj b hbi).2] at hab
        exact absurd hab.symm ((hpid ha).2.2 b hbi hb)
    rw [(hj a hai).1] at ha
    rw [(hj a hai).2] at hab
    by_cases hbi : b = i
    · subst hbi
      exact absurd hab ((hpid hb).2.2 a hai ha)
    rw [(hj b hbi).1] at hb
    rw [(hj b hbi).2] at hab
    exact h.distinct a b ha hb hab
  · intro l hl
    by_cases hli : l = i
    · subst hli
      exact absurd hl hrun
    rw [(hj l hli).1] at hl
    rw [(hj l hli).2, hcur]
    exact h.running l hl
  · exact fun p hp ↦ (h.handed p hp).trans hc

theorem Living.sameButIpc (h : Living k pids c) (hs : SameButIpc k k') : Living k' pids c :=
  h.quiet hs.state hs.processReady hs.nextPid hs.currentPid hs.processCount hs.zombieCount

theorem takePid_eq (hc : c < 2 ^ 64 - 1) :
    takePid ((1 + c) % 2 ^ 64) = (c + 1, (1 + (c + 1)) % 2 ^ 64) := by
  rw [takePid, Nat.mod_eq_of_lt (by omega), if_neg (by omega), add_comm 1 c, add_comm 1 (c + 1)]

section

variable (h : Living k pids c)
include h

theorem Living.create (hc : c < 2 ^ 64 - 1) (ticks parentPid : ℕ) :
    ∃ c' ≤ c + 1, Living (processCreate m k ticks parentPid).2
      (if (processCreate m k ticks parentPid).1 = 0 then pids
        else (processCreate m k ticks parentPid).1 :: pids) c' := by
  have hpid := takePid_eq hc
  rw [← h.next] at hpid
  rcases processCreate_cases m k ticks parentPid with heq | ⟨i, hi, -, ⟨p, hp, heq⟩ | ⟨-, heq⟩⟩
  · rw [heq]
    exact ⟨c, by omega, h⟩
  · rw [heq, hpid]
    refine ⟨c + 1, le_rfl, h.replace (i := i) (by omega) ?_ rfl rfl rfl ?_ ?_ ?_ ?_⟩
    · intro j hj
      simp only [Function.update_of_ne hj, and_self]
    · simp [Process.alive_eq, hi, hp]
    · simp [Process.isZombie, hi, hp]
    · simp [hp]
    · simp [hp]
  have hnew : Living (processCreate m k ticks parentPid).2 pids (c + 1) := by
    have hle := countSlots_le k Process.alive
    rw [← h.count] at hle
    rw [heq, hpid]
    refine h.replace (i := i) (by omega) ?_ rfl rfl rfl ?_ ?_ ?_ ?_
    · intro j hj
      simp only [Function.update_of_ne hj, and_self]
    · simp [Process.alive_eq, hi, created]
      omega
    · simp [Process.isZombie, hi, created]
    · simp [created]
    intro _
    simp only [Function.update_self, created, announced]
    refine ⟨by omega, le_rfl, ?_⟩
    intro j _ hj heq
    have := (h.pid j hj).2
    omega
  refine ⟨c + 1, le_rfl, ?_⟩
  rw [heq, hpid] at hnew ⊢
  rw [if_neg (by simp)]
  refine ⟨hnew.ready, hnew.next, hnew.count, hnew.zombies, hnew.pid, hnew.distinct, hnew.running,
    ?_, ?_⟩
  · intro p hp
    rcases List.mem_cons.1 hp with rfl | hp
    · exact le_rfl
    · exact hnew.handed p hp
  · refine List.nodup_cons.2 ⟨?_, h.nodup⟩
    intro hmem
    have := h.handed _ hmem
    omega

theorem Living.get (hs : (k.processes i).state ≠ .unused) :
    processGet k (k.processes i).pid = some i :=
  processGet_of_unique h.ready (h.pid i hs).1.ne' hs fun j hj hpid ↦ h.distinct j i hj hs hpid

theorem Living.paused (i : Option (Fin 8)) (j : Fin 8) :
    (paused k i j).pid = (k.processes j).pid ∧ (paused k i j).alive = (k.processes j).alive ∧
      (paused k i j).isZombie = (k.processes j).isZombie ∧
      ((paused k i j).state = .unused ↔ (k.processes j).state = .unused) ∧
      (some j ≠ i → (paused k i j).state ≠ .running) := by
  unfold Core.paused
  split_ifs with hp
  · simp [Process.alive_eq, Process.isZombie, hp.2.2]
  refine ⟨rfl, rfl, rfl, Iff.rfl, ?_⟩
  intro hne hrun
  apply hp
  refine ⟨?_, hne, hrun⟩
  rw [← h.running j hrun]
  apply h.get
  rw [hrun]
  decide

theorem Living.resume (hready : k'.processReady = k.processReady)
    (hnext : k'.nextPid = k.nextPid) (hcount : k'.processCount = k.processCount)
    (hz : k'.zombieCount = k.zombieCount)
    (hs : ∀ j, (k'.processes j).pid = (k.processes j).pid ∧
      (k'.processes j).alive = (k.processes j).alive ∧
      (k'.processes j).isZombie = (k.processes j).isZombie ∧
      ((k'.processes j).state = .unused ↔ (k.processes j).state = .unused) ∧
      ((k'.processes j).state = .running → (k.processes j).pid = k'.currentPid)) :
    Living k' pids c := by
  refine ⟨hready.trans h.ready, hnext.trans h.next, ?_, ?_, ?_, ?_, ?_, h.handed, h.nodup⟩
  · rw [hcount, h.count, countSlots_congr fun j ↦ (hs j).2.1]
  · rw [hz, h.zombies, countSlots_congr fun j ↦ (hs j).2.2.1]
  · intro i hi
    rw [(hs i).1]
    exact h.pid i (mt (hs i).2.2.2.1.2 hi)
  · intro i j hi hj hij
    rw [(hs i).1, (hs j).1] at hij
    exact h.distinct i j (mt (hs i).2.2.2.1.2 hi) (mt (hs j).2.2.2.1.2 hj) hij
  intro i hi
  rw [(hs i).1]
  exact (hs i).2.2.2.2 hi

theorem Living.setCurrent (pid : ℕ) : Living (processSetCurrent k pid).2 pids c := by
  rcases processSetCurrent_cases k pid with heq | ⟨i, hi, hs, heq⟩
  · rw [heq]
    exact h
  rw [heq]
  obtain ⟨-, hpid⟩ := processGet_some hi
  refine h.resume rfl rfl rfl rfl ?_
  intro j
  by_cases hj : j = i
  · subst hj
    simp only [Function.update_self]
    rcases hs with hs | hs <;> simp [Process.alive_eq, Process.isZombie, hs, hpid]
  simp only [Function.update_of_ne hj]
  obtain ⟨h1, h2, h3, h4, h5⟩ := h.paused (some i) j
  exact ⟨h1, h2, h3, h4, fun hr ↦ absurd hr (h5 fun he ↦ hj (Option.some.inj he))⟩

theorem Living.clearCurrent : Living (processClearCurrent k) pids c := by
  rw [processClearCurrent_eq]
  refine h.resume rfl rfl rfl rfl ?_
  intro j
  obtain ⟨h1, h2, h3, h4, h5⟩ := h.paused none j
  exact ⟨h1, h2, h3, h4, fun hr ↦ absurd hr (h5 (by simp))⟩

theorem Living.exit (pid code reason : ℕ) :
    Living (processExitWithCode k pid code reason).2 pids c := by
  rcases processExitWithCode_cases k pid code reason with ⟨heq, -⟩ | ⟨i, k₁, hi, hz, hipc, heq⟩
  · rw [heq]
    exact h
  rw [heq]
  obtain ⟨hs, -⟩ := processGet_some hi
  have h₁ := h.sameButIpc hipc
  have hs₁ : (k₁.processes i).state ≠ .unused := by rwa [(hipc.state i).1]
  have hz₁ : (k₁.processes i).state ≠ .zombie := by rwa [(hipc.state i).1]
  have halive : (k₁.processes i).alive = true := alive_iff.2 ⟨hs₁, hz₁⟩
  have hpos := countSlots_pos halive
  have hle := countSlots_le k₁ Process.isZombie
  rw [← h₁.count] at hpos
  rw [← h₁.zombies] at hle
  refine h₁.replace (i := i) le_rfl ?_ rfl rfl h₁.next ?_ ?_ ?_ ?_
  · intro j hj
    simp only [Function.update_of_ne hj, and_self]
  · rw [halive]
    simp only [Function.update_self, Process.alive_eq, ne_eq, not_true_eq_false, and_false,
      decide_false, Bool.toNat_true, Bool.toNat_false, ← hipc.processCount]
    omega
  · have hmod : (k.zombieCount + 1) % 2 ^ 64 = k₁.zombieCount + 1 := by
      rw [← hipc.zombieCount]
      exact Nat.mod_eq_of_lt (by omega)
    simpa [Process.isZombie, hz₁] using hmod
  · simp
  intro _
  simp only [Function.update_self]
  refine ⟨(h₁.pid i hs₁).1, (h₁.pid i hs₁).2, ?_⟩
  intro j hj hsj hpid
  exact hj (h₁.distinct j i hsj hs₁ hpid)

theorem Living.reap (pid tid : ℕ) : Living (processReap m k pid tid).2 pids c := by
  rcases processReap_eq m k pid tid with heq | ⟨i, hi, hz, heq⟩
  · rw [heq]
    exact h
  rw [heq]
  have hzombie : (k.processes i).isZombie = true := by simp [Process.isZombie, hz]
  have hpos := countSlots_pos hzombie
  rw [← h.zombies] at hpos
  refine h.replace (i := i) le_rfl ?_ rfl rfl h.next ?_ ?_ ?_ ?_
  · intro j hj
    simp only [Function.update_of_ne hj, and_self]
  · simp [Process.alive_eq, hz, reaped]
  · rw [hzombie]
    simp only [Function.update_self, Process.isZombie, reaped, reduceCtorEq, decide_false,
      Bool.toNat_true, Bool.toNat_false]
    omega
  · simp [reaped]
  · simp [reaped]

end

end Living

section Run

/-- The kernel and the identifiers that `process_create` has returned. -/
structure Life (V : Type*) where
  kernel : Kernel V
  handed : List ℕ

def lifeStep (m : Memory V) (l : Life V) (op : Op) : Life V where
  kernel := step m l.kernel op
  handed :=
    match op with
    | .processCreate ticks parentPid =>
      let pid := (processCreate m l.kernel ticks parentPid).1
      if pid = 0 then l.handed else pid :: l.handed
    | _ => l.handed

def Op.isCreate : Op → Bool
  | .processCreate _ _ => true
  | _ => false

def Op.isIpc : Op → Bool
  | .ipcCreate _ _ _ | .ipcClose _ _ | .ipcSend _ _ _ | .ipcRecv _ _ _ _ => true
  | _ => false

theorem step_ipc (m : Memory V) (k : Kernel V) {op : Op} (hop : op.isIpc = true) :
    SameButIpc k (step m k op) := by
  cases op with
  | ipcCreate ownerPid peerPid outHandle =>
    rcases nexusIpcCreate_cases k ownerPid peerPid outHandle with
      heq | ⟨i, j, h, g, c, -, -, -, -, -, -, -, -, heq⟩
    · rw [step, heq]
      exact .refl k
    · rw [step, heq]
      exact ((SameButIpc.setChannel k c _).trans (.setHandle _ i h _)).trans (.setHandle _ j g _)
  | ipcClose pid handle =>
    rcases nexusIpcClose_cases k pid handle with heq | ⟨i, h, c, side, -, -, -, -, heq⟩
    · rw [step, heq]
      exact .refl k
    rw [step, heq]
    exact (SameButIpc.setChannel k c _).trans (.setHandle _ i h _)
  | ipcSend pid handle data =>
    rcases nexusIpcSend_cases k pid handle data with heq | ⟨bytes, c, side, -, -, -, -, -, heq⟩
    · rw [step, heq]
      exact .refl k
    rw [step, heq]
    exact .setChannel k c _
  | ipcRecv pid handle buffers capacity =>
    rcases nexusIpcRecv_cases k pid handle buffers capacity with heq | ⟨c, side, -, -, -, heq⟩
    · rw [step, heq]
      exact .refl k
    rw [step, heq]
    exact .setChannel k c _
  | _ => cases hop

theorem Living.step {l : Life V} (h : Living l.kernel l.handed c) (op : Op)
    (hc : c + op.isCreate.toNat ≤ 2 ^ 64 - 1) :
    ∃ c' ≤ c + op.isCreate.toNat, Living (lifeStep m l op).kernel (lifeStep m l op).handed c' := by
  cases op with
  | processCreate ticks parentPid =>
    simp only [Op.isCreate, Bool.toNat_true] at hc ⊢
    exact h.create (by omega) ticks parentPid
  | setCurrent pid => exact ⟨c, by simp, h.setCurrent pid⟩
  | clearCurrent => exact ⟨c, by simp, h.clearCurrent⟩
  | exitWithCode pid code reason => exact ⟨c, by simp, h.exit pid code reason⟩
  | reap pid tid => exact ⟨c, by simp, h.reap pid tid⟩
  | ipcCreate | ipcClose | ipcSend | ipcRecv =>
    simp only [lifeStep]
    exact ⟨c, by simp, h.sameButIpc (step_ipc m l.kernel rfl)⟩

theorem Living.run {l : Life V} (h : Living l.kernel l.handed c) (ops : List Op)
    (hc : c + ops.countP Op.isCreate ≤ 2 ^ 64 - 1) :
    ∃ c', Living (ops.foldl (lifeStep m) l).kernel (ops.foldl (lifeStep m) l).handed c' := by
  induction ops generalizing l c with
  | nil => exact ⟨c, h⟩
  | cons op ops ih =>
    rw [List.countP_cons] at hc
    have hif : op.isCreate.toNat = if op.isCreate = true then 1 else 0 := by
      cases op.isCreate <;> rfl
    obtain ⟨c', hle, h'⟩ := h.step (m := m) op (by omega)
    exact ih h' (by omega)

def Follows (s s' : ProcessState) : Prop :=
  s' = s ∨ (s = .unused ∧ s' = .ready) ∨ (s = .ready ∧ s' = .running) ∨
    (s = .running ∧ s' = .ready) ∨ ((s = .ready ∨ s = .running) ∧ s' = .zombie) ∨
    (s = .zombie ∧ s' = .unused)

theorem paused_follows (k : Kernel V) (i : Option (Fin 8)) (j : Fin 8) :
    Follows (k.processes j).state (paused k i j).state := by
  unfold paused
  split_ifs with hp
  · exact .inr (.inr (.inr (.inl ⟨hp.2.2, rfl⟩)))
  · exact .inl rfl

theorem step_follows (k : Kernel V) (op : Op) (j : Fin 8) :
    Follows (k.processes j).state ((step m k op).processes j).state := by
  cases op with
  | processCreate ticks parentPid =>
    rw [step]
    rcases processCreate_cases m k ticks parentPid with
      heq | ⟨i, hi, -, ⟨p, hp, heq⟩ | ⟨-, heq⟩⟩
    · rw [heq]
      exact .inl rfl
    · rw [heq]
      left
      by_cases hj : j = i
      · simp [hj, hi, hp]
      · simp [hj]
    · rw [heq]
      by_cases hj : j = i
      · right
        left
        simp [hj, hi, created]
      · left
        simp [hj]
  | setCurrent pid =>
    rw [step]
    rcases processSetCurrent_cases k pid with heq | ⟨i, hi, hs, heq⟩
    · rw [heq]
      exact .inl rfl
    rw [heq]
    by_cases hj : j = i
    · subst hj
      simp only [Function.update_self]
      rcases hs with hs | hs
      · exact .inr (.inr (.inl ⟨hs, rfl⟩))
      · exact .inl hs.symm
    · simp only [Function.update_of_ne hj]
      exact paused_follows k (some i) j
  | clearCurrent =>
    rw [step, processClearCurrent_eq]
    exact paused_follows k none j
  | exitWithCode pid code reason =>
    rw [step]
    rcases processExitWithCode_cases k pid code reason with ⟨heq, -⟩ | ⟨i, k₁, hi, hz, hipc, heq⟩
    · rw [heq]
      exact .inl rfl
    rw [heq]
    by_cases hj : j = i
    · subst hj
      have hu := (processGet_some hi).1
      simp only [Function.update_self]
      refine .inr (.inr (.inr (.inr (.inl ⟨?_, rfl⟩))))
      cases hs : (k.processes j).state with
      | unused => exact absurd hs hu
      | ready => exact .inl rfl
      | running => exact .inr rfl
      | zombie => exact absurd hs hz
    · simp only [Function.update_of_ne hj]
      exact .inl (hipc.state j).1
  | reap pid tid =>
    rw [step]
    rcases processReap_eq m k pid tid with heq | ⟨i, hi, hz, heq⟩
    · rw [heq]
      exact .inl rfl
    rw [heq]
    by_cases hj : j = i
    · subst hj
      simp only [Function.update_self]
      exact .inr (.inr (.inr (.inr (.inr ⟨hz, rfl⟩))))
    · simp only [Function.update_of_ne hj]
      exact .inl rfl
  | ipcCreate | ipcClose | ipcSend | ipcRecv => exact .inl ((step_ipc m k rfl).state j).1

theorem processInit_living (k : Kernel V) : Living (processInit k) [] 0 := by
  refine ⟨rfl, by simp [processInit], ?_, ?_, by simp [processInit], by simp [processInit],
    by simp [processInit], by simp, List.nodup_nil⟩
  · simp [processInit, countSlots, Process.alive_eq]
  · simp [processInit, countSlots, Process.isZombie]

/-- The process table in every state that calls lead to, as long as `process_create` has been called
at most 2^64 - 1 times. -/
theorem process_lifecycle (m : Memory V) (k₀ : Kernel V) (ops : List Op)
    (hops : ops.countP Op.isCreate ≤ 2 ^ 64 - 1) :
    let l := ops.foldl (lifeStep m) ⟨processInit k₀, []⟩
    let k := l.kernel
    k.processCount = countSlots k Process.alive ∧ k.zombieCount = countSlots k Process.isZombie ∧
    (∀ i, (k.processes i).state ≠ .unused → (k.processes i).pid ≠ 0) ∧
    (∀ i j, (k.processes i).state ≠ .unused → (k.processes j).state ≠ .unused →
      (k.processes i).pid = (k.processes j).pid → i = j) ∧
    l.handed.Nodup ∧
    (∀ i, (k.processes i).state = .running → (k.processes i).pid = k.currentPid) ∧
    (∀ i j, (k.processes i).state = .running → (k.processes j).state = .running → i = j) ∧
    (∀ op i, Follows (k.processes i).state ((step m k op).processes i).state) ∧
    ∀ pid code reason, (∀ i, (k.processes i).alive = true → (k.processes i).pid ≠ pid) →
      (processExitWithCode k pid code reason).2 = k := by
  intro l k
  obtain ⟨c, h⟩ := (processInit_living k₀).run (m := m) (l := ⟨processInit k₀, []⟩) ops (by omega)
  have h : Living k l.handed c := h
  have hused : ∀ i, (k.processes i).state = .running → (k.processes i).state ≠ .unused := by
    intro i hi
    rw [hi]
    decide
  refine ⟨h.count, h.zombies, fun i hi ↦ (h.pid i hi).1.ne', h.distinct, h.nodup, h.running, ?_,
    step_follows k, ?_⟩
  · intro i j hi hj
    exact h.distinct i j (hused i hi) (hused j hj) ((h.running i hi).trans (h.running j hj).symm)
  · intro pid code reason hdead
    rcases processExitWithCode_cases k pid code reason with ⟨heq, -⟩ | ⟨i, k₁, hi, hz, -, -⟩
    · rw [heq]
    obtain ⟨hu, hpid⟩ := processGet_some hi
    exact absurd hpid (hdead i (alive_iff.2 ⟨hu, hz⟩))

/-- A process is made current, exits and is reaped, and another one takes its slot. -/
def reusedSlotOps : List Op :=
  [.processCreate 0 0, .setCurrent 1, .exitWithCode 1 0 0, .reap 1 0, .processCreate 0 0]

theorem process_lifecycle_reusedSlot :
    (reusedSlotOps.foldl (lifeStep sampleMemory) ⟨processInit (bootKernel ()), []⟩).handed = [2, 1] ∧
      (reusedSlotOps.foldl (lifeStep sampleMemory)
        ⟨processInit (bootKernel ()), []⟩).handed.Nodup := by
  obtain ⟨-, -, -, -, hnodup, -⟩ :=
    process_lifecycle sampleMemory (bootKernel ()) reusedSlotOps (by decide)
  exact ⟨by decide +kernel, hnodup⟩

end Run

section Wrap

/-- A memory that counts the address spaces it is asked for, and makes the first and the one with
number 2^64 - 1 only. -/
def countingMemory : Memory ℕ where
  pmmAllocPage v := (0, v)
  pmmFreePage _ v := v
  pagingCreateAddressSpace v := (if v = 0 ∨ v = 2 ^ 64 - 1 then 4096 else 0, v + 1)
  pagingDestroyAddressSpace _ v := v
  pagingMapPageInCr3 _ _ _ _ v := (0, v)
  pagingUnmapPageInCr3 _ _ v := (0, v)
  zeroPage _ v := v

/-- No process is left, and `v` address spaces have been asked for. -/
structure Waiting (k : Kernel ℕ) (v : ℕ) : Prop where
  ready : k.processReady = true
  unused : ∀ i, (k.processes i).state = .unused
  next : k.nextPid = (v + 1) % 2 ^ 64
  vm : k.vm = v

theorem Waiting.findUnused {k : Kernel ℕ} {v : ℕ} (h : Waiting k v) :
    findUnused k = some 0 := by
  simp [Core.findUnused, List.finRange_succ, h.unused]

theorem Waiting.fail {k : Kernel ℕ} {v : ℕ} (h : Waiting k v) (h0 : 0 < v) (hv : v < 2 ^ 64 - 1) :
    (processCreate countingMemory k 0 0).1 = 0 ∧
      Waiting (processCreate countingMemory k 0 0).2 (v + 1) := by
  have hcreate : countingMemory.pagingCreateAddressSpace k.vm = (0, v + 1) := by
    rw [h.vm]
    simp only [countingMemory, if_neg (show ¬ (v = 0 ∨ v = 2 ^ 64 - 1) by omega)]
  have hpid : takePid k.nextPid = (v + 1, (v + 1 + 1) % 2 ^ 64) := by
    rw [h.next, takePid, Nat.mod_eq_of_lt (by omega), if_neg (by omega)]
  simp only [processCreate, h.ready, Bool.not_true, Bool.false_eq_true, if_false, h.findUnused,
    hcreate, hpid, if_true, true_and]
  refine ⟨rfl, ?_, rfl, rfl⟩
  intro i
  by_cases hi : i = 0
  · simp [hi]
  · simp [hi, h.unused]

theorem Waiting.run {l : Life ℕ} {v : ℕ} (h : Waiting l.kernel v) (h0 : 0 < v) (n : ℕ)
    (hn : v + n ≤ 2 ^ 64 - 1) :
    Waiting ((List.replicate n (Op.processCreate 0 0)).foldl (lifeStep countingMemory) l).kernel
      (v + n) ∧
    ((List.replicate n (Op.processCreate 0 0)).foldl (lifeStep countingMemory) l).handed =
      l.handed := by
  induction n generalizing l v with
  | zero => exact ⟨h, rfl⟩
  | succ n ih =>
    obtain ⟨hpid, hnext⟩ := h.fail h0 (by omega)
    have hl : lifeStep countingMemory l (.processCreate 0 0) =
        ⟨(processCreate countingMemory l.kernel 0 0).2, l.handed⟩ := by
      simp only [lifeStep, step, hpid, if_true]
    rw [List.replicate_succ, List.foldl_cons, hl, ← Nat.succ_add_eq_add_succ]
    exact ih hnext (by omega) (by omega)

/-- One process comes and goes, and then `n + 1` more are asked for. -/
def askingOps (n : ℕ) : List Op :=
  [.processCreate 0 0, .exitWithCode 1 0 0, .reap 1 0] ++
    List.replicate n (.processCreate 0 0) ++ [.processCreate 0 0]

theorem handed_askingOps (n : ℕ) (hn : 1 + n = 2 ^ 64 - 1) :
    ((askingOps n).foldl (lifeStep countingMemory) ⟨processInit (bootKernel 0), []⟩).handed =
      [1, 1] := by
  have hstart : ([Op.processCreate 0 0, .exitWithCode 1 0 0, .reap 1 0].foldl
      (lifeStep countingMemory) ⟨processInit (bootKernel 0), []⟩).handed = [1] := by
    decide +kernel
  have hwait : Waiting ([Op.processCreate 0 0, .exitWithCode 1 0 0, .reap 1 0].foldl
      (lifeStep countingMemory) ⟨processInit (bootKernel 0), []⟩).kernel 1 :=
    ⟨by decide +kernel, by decide +kernel, by decide +kernel, by decide +kernel⟩
  rw [askingOps, List.foldl_append, List.foldl_append]
  obtain ⟨hlast, hhanded⟩ := hwait.run (by decide) n (by omega)
  rw [hstart] at hhanded
  rw [hn] at hlast
  generalize (List.replicate n (Op.processCreate 0 0)).foldl (lifeStep countingMemory) _ = l
    at hlast hhanded ⊢
  have hcreate : countingMemory.pagingCreateAddressSpace l.kernel.vm = (4096, 2 ^ 64) := by
    rw [hlast.vm]
    rfl
  have hpid : takePid l.kernel.nextPid = (1, 2) := by
    rw [hlast.next]
    rfl
  simp only [List.foldl_cons, List.foldl_nil, lifeStep, step, processCreate, hlast.ready,
    Bool.not_true, Bool.false_eq_true, if_false, hlast.findUnused, hcreate, hpid, hhanded]
  simp

/-- The counter of identifiers wraps round. -/
theorem pid_handed_out_twice :
    ∃ n, ((askingOps n).foldl (lifeStep countingMemory)
      ⟨processInit (bootKernel 0), []⟩).handed = [1, 1] :=
  ⟨2 ^ 64 - 2, handed_askingOps _ (by norm_num)⟩

end Wrap

end NexusOS.Core
