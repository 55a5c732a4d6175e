import Mathlib
import NexusOS.Lib.Ring
import NexusOS.Lib.Run
import NexusOS.Drivers.Nvme

namespace NexusOS.Drivers.Nvme

open Lib

section Source

def queueDepth : ℕ := 16

/-- The limits `NVME_ADMIN_TIMEOUT` and `NVME_IO_TIMEOUT` of the polling loops. -/
def pollLimit : ℕ := 10000000

/-- A submission entry; `serial` tells which submission wrote it. -/
structure Slot where
  cmd : Cmd
  serial : ℕ

/-- A completion entry; `origin` tells for which submission it is. Neither the driver nor the
controller reads the two marks. -/
structure Cqe where
  cid : ℕ
  status : ℕ
  origin : ℕ

structure Queue where
  sq : ℕ → Slot
  sqTail : ℕ
  cq : ℕ → Cqe
  cqHead : ℕ
  cqPhase : Bool

def Queue.submit (q : Queue) (slot : Slot) : Queue :=
  { q with
    sq := Function.update q.sq q.sqTail slot
    sqTail := (q.sqTail + 1) % queueDepth }

def completionOk (cqe : Cqe) : Bool := cqe.status / 2 % 2 ^ 11 = 0

def Queue.poll (q : Queue) : Option (Cqe × Queue) :=
  let cqe := q.cq q.cqHead
  if cqe.status % 2 = q.cqPhase.toNat then
    let head := (q.cqHead + 1) % queueDepth
    some (cqe, { q with
      cqHead := head
      cqPhase := if head = 0 then !q.cqPhase else q.cqPhase })
  else none

end Source

section Controller

inductive Qid
  | admin
  | io
  deriving DecidableEq

structure Engine where
  sqHead : ℕ
  executing : List Slot
  cqTail : ℕ
  phase : Bool

/-- Both sides, with the number of commands submitted and of completions consumed. -/
structure Pair where
  queue : Queue
  engine : Engine
  submitted : ℕ
  consumed : ℕ

def Pair.fetch (p : Pair) : Pair :=
  if p.engine.sqHead = p.queue.sqTail then p
  else { p with engine := { p.engine with
    sqHead := (p.engine.sqHead + 1) % queueDepth
    executing := p.engine.executing ++ [p.queue.sq p.engine.sqHead] } }

def Slot.cqe (slot : Slot) (status : ℕ) (phase : Bool) : Cqe :=
  ⟨slot.cmd.cid, 2 * status + phase.toNat, slot.serial⟩

/-- A command is finished, in any order, and its completion posted where the queue has room. -/
def Pair.post (p : Pair) (i status : ℕ) : Option (Slot × Pair) := do
  let slot ← p.engine.executing[i]?
  let tail := (p.engine.cqTail + 1) % queueDepth
  if tail = p.queue.cqHead then none
  else
    some (slot, { p with
      queue := { p.queue with
        cq := Function.update p.queue.cq p.engine.cqTail (slot.cqe status p.engine.phase) }
      engine := { p.engine with
        executing := p.engine.executing.eraseIdx i
        cqTail := tail
        phase := if tail = 0 then !p.engine.phase else p.engine.phase } })

end Controller

section System

/-- A call of `admin_submit` or `io_submit_read` in its polling loop. -/
structure Call where
  qid : Qid
  cid : ℕ
  serial : ℕ
  left : ℕ

structure Return where
  call : Call
  consumed : Option Cqe
  result : Bool

structure Sys where
  device : Device
  cid : ℕ
  pair : Qid → Pair
  call : Option Call
  serial : ℕ
  transferred : List ℕ
  returned : List Return

/-- What `admin_submit` and `io_submit_read` do before they poll. -/
def Sys.submit (s : Sys) (qid : Qid) (cmd : Cmd) : Sys :=
  { s with
    cid := (s.cid + 1) % 2 ^ 16
    pair := Function.update s.pair qid
      { s.pair qid with
        queue := (s.pair qid).queue.submit ⟨cmd, s.serial⟩
        submitted := (s.pair qid).submitted + 1 }
    call := some ⟨qid, s.cid, s.serial, pollLimit⟩
    serial := s.serial + 1 }

def Sys.adminSubmit (s : Sys) (cmd : Cmd) : Sys := s.submit .admin (cmd.withCid s.cid)

def Sys.ioSubmitRead (s : Sys) (lba count buf : ℕ) : Sys :=
  (readCommand s.device s.cid lba count buf).elim s fun r ↦
    { s with device := { s.device with mem := r.2 } }.submit .io r.1

def Sys.nvmeReadSectors (s : Sys) (lba count buf : ℕ) : Sys :=
  if ReadAccepted s.device lba count buf then s.ioSubmitRead lba count buf else s

/-- The call in progress polls `n` times while the controller posts nothing. -/
def Sys.poll (s : Sys) (n : ℕ) : Sys :=
  s.call.elim s fun call ↦
    if n = 0 then s
    else ((s.pair call.qid).queue.poll).elim
      (if call.left ≤ n then
        { s with call := none, returned := s.returned ++ [⟨call, none, false⟩] }
      else { s with call := some { call with left := call.left - n } })
      fun r ↦ { s with
        pair := Function.update s.pair call.qid
          { s.pair call.qid with queue := r.2, consumed := (s.pair call.qid).consumed + 1 }
        call := none
        returned := s.returned ++ [⟨call, some r.1, completionOk r.1⟩] }

inductive Op
  | adminSubmit (cmd : Cmd)
  | nvmeReadSectors (lba count buf : ℕ)
  | poll (n : ℕ)
  | fetch (qid : Qid)
  | post (qid : Qid) (i status : ℕ)

/-- The data of a command is there when it is finished without an error. -/
def Sys.post (s : Sys) (qid : Qid) (i status : ℕ) : Sys :=
  ((s.pair qid).post i status).elim s fun r ↦
    { s with
      pair := Function.update s.pair qid r.2
      transferred := if status % 2 ^ 11 = 0 then s.transferred ++ [r.1.serial] else s.transferred }

def Sys.step (s : Sys) : Op → Sys
  | .adminSubmit cmd => if s.call.isSome then s else s.adminSubmit cmd
  | .nvmeReadSectors lba count buf => if s.call.isSome then s else s.nvmeReadSectors lba count buf
  | .poll n => s.poll n
  | .fetch qid => { s with pair := Function.update s.pair qid (s.pair qid).fetch }
  | .post qid i status => s.post qid i status

def Return.Matched (r : Return) (transferred : List ℕ) : Prop :=
  r.result = true → ∃ cqe, r.consumed = some cqe ∧ cqe.cid = r.call.cid ∧
    completionOk cqe = true ∧ cqe.origin = r.call.serial ∧ r.call.serial ∈ transferred

def Sys.Matched (s : Sys) : Prop := ∀ r ∈ s.returned, r.Matched s.transferred

/-- A command is submitted when every earlier one of its queue has been answered. -/
def Sys.Answered (s : Sys) : Op → Prop
  | .adminSubmit _ => (s.pair .admin).submitted = (s.pair .admin).consumed
  | .nvmeReadSectors _ _ _ => (s.pair .io).submitted = (s.pair .io).consumed
  | _ => True

instance (s : Sys) (op : Op) : Decidable (s.Answered op) :=
  match op with
  | .adminSubmit _ => inferInstanceAs (Decidable (_ = _))
  | .nvmeReadSectors _ _ _ => inferInstanceAs (Decidable (_ = _))
  | .poll _ => inferInstanceAs (Decidable True)
  | .fetch _ => inferInstanceAs (Decidable True)
  | .post _ _ _ => inferInstanceAs (Decidable True)

end System

section Pairs

variable {p : Pair} {f n : ℕ} {last slot : Slot} {transferred : List ℕ}

/-- At most one command of the queue is not answered: `f` commands are fetched, `n` completions
posted, and `last` is the command submitted last. -/
structure Pair.Good (p : Pair) (f n : ℕ) (last : Slot) (transferred : List ℕ) : Prop where
  consumed : p.consumed ≤ n
  posted : n ≤ f
  fetched : f ≤ p.submitted
  single : p.submitted ≤ p.consumed + 1
  sqTail : p.queue.sqTail = p.submitted % 16
  sqHead : p.engine.sqHead = f % 16
  cqTail : p.engine.cqTail = n % 16
  enginePhase : p.engine.phase = lap 16 n
  cqHead : p.queue.cqHead = p.consumed % 16
  cqPhase : p.queue.cqPhase = lap 16 p.consumed
  phases : ∀ i < 16, (p.queue.cq i).status % 2 = (!lap 16 (n + 15 - i)).toNat
  slot : f < p.submitted → p.queue.sq (f % 16) = last
  executing : p.engine.executing = if n < f then [last] else []
  completion : p.consumed < n → (p.queue.cq (p.consumed % 16)).cid = last.cmd.cid ∧
    (p.queue.cq (p.consumed % 16)).origin = last.serial ∧
    (completionOk (p.queue.cq (p.consumed % 16)) = true → last.serial ∈ transferred)

theorem Pair.Good.submit (h : p.Good f n last transferred) (hanswered : p.submitted = p.consumed)
    (slot : Slot) :
    ({ p with queue := p.queue.submit slot, submitted := p.submitted + 1 } : Pair).Good
      f n slot transferred := by
  have h₁ := h.consumed
  have h₂ := h.posted
  have h₃ := h.fetched
  refine ⟨h₁, h₂, by dsimp only; omega, by dsimp only; omega, ?_, h.sqHead, h.cqTail,
    h.enginePhase, h.cqHead, h.cqPhase, h.phases, fun _ ↦ ?_, ?_, fun hlt ↦ ?_⟩
  · show (p.queue.sqTail + 1) % 16 = (p.submitted + 1) % 16
    rw [h.sqTail, Nat.mod_add_mod]
  · show Function.update p.queue.sq p.queue.sqTail slot (f % 16) = slot
    rw [h.sqTail, show f = p.submitted by omega, Function.update_self]
  · show p.engine.executing = _
    rw [h.executing, if_neg (by omega), if_neg (by omega)]
  · dsimp only at hlt
    omega

theorem Pair.Good.fetch (h : p.Good f n last transferred) :
    ∃ f', p.fetch.Good f' n last transferred := by
  have h₁ := h.consumed
  have h₂ := h.posted
  have h₃ := h.fetched
  have h₄ := h.single
  unfold Pair.fetch
  split_ifs with hempty
  · exact ⟨f, h⟩
  have hlt : f < p.submitted := by
    by_contra hge
    exact hempty (by rw [h.sqHead, h.sqTail, show f = p.submitted by omega])
  refine ⟨f + 1, h₁, by omega, hlt, h₄, h.sqTail, ?_, h.cqTail, h.enginePhase, h.cqHead,
    h.cqPhase, h.phases, fun hlt' ↦ ?_, ?_, h.completion⟩
  · show (p.engine.sqHead + 1) % 16 = (f + 1) % 16
    rw [h.sqHead, Nat.mod_add_mod]
  · dsimp only at hlt'
    omega
  · show p.engine.executing ++ [p.queue.sq p.engine.sqHead] = _
    rw [h.executing, if_neg (by omega), if_pos (by omega), h.sqHead, h.slot hlt]
    rfl

theorem lap_next {n i : ℕ} (hi : i < 16) (hne : i ≠ n % 16) :
    lap 16 (n + 1 + 15 - i) = lap 16 (n + 15 - i) := by
  simp only [lap, decide_eq_decide]
  omega

section

variable (h : p.Good f n last transferred)
include h

theorem Pair.Good.post {i status : ℕ} {slot : Slot} {p' : Pair}
    (hpost : p.post i status = some (slot, p')) :
    slot = last ∧ p'.submitted = p.submitted ∧ p'.consumed = p.consumed ∧
      p'.Good f (n + 1) last
        (if status % 2 ^ 11 = 0 then transferred ++ [slot.serial] else transferred) := by
  have h₁ := h.consumed
  have h₂ := h.posted
  have h₃ := h.fetched
  have h₄ := h.single
  unfold Pair.post at hpost
  obtain ⟨slot', hslot, hrest⟩ := Option.bind_eq_some_iff.1 hpost
  dsimp only at hrest
  split at hrest
  · exact absurd hrest (by simp)
  obtain ⟨rfl, rfl⟩ := Prod.mk.inj (Option.some.inj hrest)
  have hlt : n < f := by
    by_contra hge
    rw [h.executing, if_neg hge] at hslot
    exact absurd hslot (by simp)
  rw [h.executing, if_pos hlt] at hslot
  obtain ⟨rfl, hlast⟩ : i = 0 ∧ last = slot' := by
    cases i with
    | zero => exact ⟨rfl, Option.some.inj hslot⟩
    | succ i => exact absurd hslot (by simp)
  have hn : p.consumed = n := by omega
  refine ⟨hlast.symm, rfl, rfl, by dsimp only; omega, by omega, h₃, h₄, h.sqTail, h.sqHead, ?_, ?_,
    h.cqHead, h.cqPhase, fun i hi ↦ ?_, fun hlt' ↦ ?_, ?_, fun _ ↦ ?_⟩
  · show (p.engine.cqTail + 1) % 16 = (n + 1) % 16
    rw [h.cqTail, Nat.mod_add_mod]
  · show (if (p.engine.cqTail + 1) % 16 = 0 then _ else _) = lap 16 (n + 1)
    rw [h.cqTail, h.enginePhase, Nat.mod_add_mod]
    split_ifs with hwrap
    · simp only [lap, ← decide_not, decide_eq_decide]
      omega
    simp only [lap, decide_eq_decide]
    omega
  · show (Function.update p.queue.cq p.engine.cqTail _ i).status % 2 = _
    rw [h.cqTail]
    by_cases hin : i = n % 16
    · rw [hin, Function.update_self, h.enginePhase]
      have hlap : (!lap 16 (n + 1 + 15 - n % 16)) = lap 16 n := by
        simp only [lap, ← decide_not, decide_eq_decide]
        omega
      rw [hlap]
      show (2 * status + (lap 16 n).toNat) % 2 = (lap 16 n).toNat
      have := Bool.toNat_lt (lap 16 n)
      omega
    · rw [Function.update_of_ne hin, lap_next hi hin]
      exact h.phases i hi
  · dsimp only at hlt'
    omega
  · show p.engine.executing.eraseIdx 0 = _
    rw [h.executing, if_pos hlt, if_neg (by omega)]
    rfl
  · dsimp only
    rw [h.cqTail, h.enginePhase, hn, Function.update_self, hlast]
    refine ⟨rfl, rfl, fun hok ↦ ?_⟩
    have hstatus : status % 2 ^ 11 = 0 := by
      have hdiv : (2 * status + (lap 16 n).toNat) / 2 = status := by
        have := Bool.toNat_lt (lap 16 n)
        omega
      have hok' : (2 * status + (lap 16 n).toNat) / 2 % 2 ^ 11 = 0 := of_decide_eq_true hok
      rwa [hdiv] at hok'
    rw [if_pos hstatus]
    exact List.mem_append_right _ (List.mem_singleton_self _)

theorem Pair.Good.poll {cqe : Cqe} {q : Queue} (hpoll : p.queue.poll = some (cqe, q)) :
    p.submitted = p.consumed + 1 ∧ cqe.cid = last.cmd.cid ∧ cqe.origin = last.serial ∧
      (completionOk cqe = true → last.serial ∈ transferred) ∧
      ({ p with queue := q, consumed := p.consumed + 1 } : Pair).Good f n last transferred := by
  have h₁ := h.consumed
  have h₂ := h.posted
  have h₃ := h.fetched
  have h₄ := h.single
  have hphase := h.phases (p.consumed % 16) (Nat.mod_lt _ (by decide))
  unfold Queue.poll at hpoll
  dsimp only at hpoll
  rw [h.cqHead, hphase, h.cqPhase] at hpoll
  -- the entry at the head has the expected phase only when its completion was posted
  have hlt : p.consumed < n := by
    by_contra hge
    have hlap : (!lap 16 (n + 15 - p.consumed % 16)) = !lap 16 p.consumed := by
      simp only [lap, ← decide_not, decide_eq_decide]
      omega
    rw [hlap, if_neg] at hpoll
    · exact absurd hpoll (by simp)
    · cases lap 16 p.consumed <;> decide
  have hlap : (!lap 16 (n + 15 - p.consumed % 16)) = lap 16 p.consumed := by
    simp only [lap, ← decide_not, decide_eq_decide]
    omega
  rw [hlap, if_pos rfl] at hpoll
  obtain ⟨rfl, rfl⟩ := Prod.mk.inj (Option.some.inj hpoll)
  obtain ⟨hcid, horigin, hok⟩ := h.completion hlt
  refine ⟨by omega, hcid, horigin, hok, by dsimp only; omega, h₂, h₃, by dsimp only; omega,
    h.sqTail, h.sqHead, h.cqTail, h.enginePhase, ?_, ?_, h.phases, h.slot, h.executing,
    fun hlt' ↦ ?_⟩
  · show (p.consumed % 16 + 1) % 16 = (p.consumed + 1) % 16
    rw [Nat.mod_add_mod]
  · show (if (p.consumed % 16 + 1) % 16 = 0 then _ else _) = lap 16 (p.consumed + 1)
    rw [Nat.mod_add_mod]
    split_ifs with hwrap
    · simp only [lap, ← decide_not, decide_eq_decide]
      omega
    simp only [lap, decide_eq_decide]
    omega
  · dsimp only at hlt'
    omega

theorem Pair.Good.mono {transferred' : List ℕ}
    (hsub : ∀ k ∈ transferred, k ∈ transferred') : p.Good f n last transferred' :=
  { h with
    completion := fun hlt ↦ by
      obtain ⟨hcid, horigin, hok⟩ := h.completion hlt
      exact ⟨hcid, horigin, fun hc ↦ hsub _ (hok hc)⟩ }

end

end Pairs

section Run

variable {s : Sys} {last : Qid → Slot}

structure Sys.Good (s : Sys) (last : Qid → Slot) : Prop where
  cid : s.cid < 2 ^ 16
  pair : ∀ q, ∃ f n, (s.pair q).Good f n (last q) s.transferred
  call : ∀ call ∈ s.call, (s.pair call.qid).submitted = (s.pair call.qid).consumed + 1 ∧
    (last call.qid).serial = call.serial ∧ (last call.qid).cmd.cid = call.cid
  matched : s.Matched

theorem Sys.Good.submit (h : s.Good last) {q : Qid} {cmd : Cmd} (hcid : cmd.cid = s.cid)
    (hanswered : (s.pair q).submitted = (s.pair q).consumed) :
    (s.submit q cmd).Good (Function.update last q ⟨cmd, s.serial⟩) := by
  refine ⟨Nat.mod_lt _ (by decide), fun q' ↦ ?_, fun call hcall ↦ ?_, h.matched⟩
  · by_cases hq : q' = q
    · obtain ⟨f, n, hgood⟩ := h.pair q
      subst hq
      refine ⟨f, n, ?_⟩
      simp only [Sys.submit, Function.update_self]
      exact hgood.submit hanswered _
    · simp only [Sys.submit, Function.update_of_ne hq]
      exact h.pair q'
  obtain rfl := Option.some.inj hcall
  simp only [Sys.submit, Function.update_self, hanswered]
  exact ⟨trivial, trivial, hcid⟩

theorem Sys.Good.of_pair (h : s.Good last) {q : Qid} {p : Pair} {transferred : List ℕ} {f n : ℕ}
    (hsubmitted : p.submitted = (s.pair q).submitted)
    (hconsumed : p.consumed = (s.pair q).consumed) (hgood : p.Good f n (last q) transferred)
    (hsub : ∀ k ∈ s.transferred, k ∈ transferred) :
    ({ s with pair := Function.update s.pair q p, transferred := transferred } : Sys).Good last := by
  refine ⟨h.cid, fun q' ↦ ?_, fun call hcall ↦ ?_, fun r hr hresult ↦ ?_⟩
  · by_cases hq : q' = q
    · subst hq
      simp only [Function.update_self]
      exact ⟨f, n, hgood⟩
    · obtain ⟨f', n', hother⟩ := h.pair q'
      simp only [Function.update_of_ne hq]
      exact ⟨f', n', hother.mono hsub⟩
  · have hold := h.call call hcall
    by_cases hq : call.qid = q
    · subst hq
      simp only [Function.update_self, hsubmitted, hconsumed]
      exact hold
    · simp only [Function.update_of_ne hq]
      exact hold
  · obtain ⟨cqe, hcqe, hcid, hok, horigin, hmem⟩ := h.matched r hr hresult
    exact ⟨cqe, hcqe, hcid, hok, horigin, hsub _ hmem⟩

theorem Sys.Good.poll (h : s.Good last) (n : ℕ) : (s.poll n).Good last := by
  unfold Sys.poll
  cases hcall : s.call with
  | none => exact h
  | some call =>
    obtain ⟨hone, hserial, hcid⟩ := h.call call hcall
    rw [Option.elim_some]
    by_cases hzero : n = 0
    · rw [if_pos hzero]
      exact h
    rw [if_neg hzero]
    cases hpoll : (s.pair call.qid).queue.poll with
    | none =>
      rw [Option.elim_none]
      split_ifs with hleft
      · refine ⟨h.cid, h.pair, fun _ hc ↦ absurd hc (by simp), fun r hr ↦ ?_⟩
        rcases List.mem_append.1 hr with hr | hr
        · exact h.matched r hr
        rw [List.mem_singleton.1 hr]
        exact fun hfalse ↦ absurd hfalse Bool.false_ne_true
      refine ⟨h.cid, h.pair, fun c hc ↦ ?_, h.matched⟩
      obtain rfl := Option.some.inj hc
      exact ⟨hone, hserial, hcid⟩
    | some r =>
      obtain ⟨cqe, q⟩ := r
      obtain ⟨f, m, hgood⟩ := h.pair call.qid
      obtain ⟨-, hcqe, horigin, hdone, hgood'⟩ := hgood.poll hpoll
      rw [Option.elim_some]
      refine ⟨h.cid, fun q' ↦ ?_, fun _ hc ↦ absurd hc (by simp), fun r hr ↦ ?_⟩
      · by_cases hq : q' = call.qid
        · subst hq
          simp only [Function.update_self]
          exact ⟨f, m, hgood'⟩
        · simp only [Function.update_of_ne hq]
          exact h.pair q'
      rcases List.mem_append.1 hr with hr | hr
      · exact h.matched r hr
      rw [List.mem_singleton.1 hr]
      intro hok
      exact ⟨cqe, rfl, hcqe.trans hcid, hok, horigin.trans hserial, hserial ▸ hdone hok⟩

theorem withCid_cid (cmd : Cmd) (cid : ℕ) : (cmd.withCid cid).cid = cid := by
  unfold Cmd.cid Cmd.withCid
  rw [Function.update_self]
  omega

theorem readCommand_cid {dev : Device} {cid lba count buf : ℕ} {cmd : Cmd} {mem : ℕ → ℕ}
    (h : readCommand dev cid lba count buf = some (cmd, mem)) : cmd.cid = cid := by
  unfold readCommand at h
  dsimp only at h
  split_ifs at h
  obtain ⟨⟨second, mem'⟩, -, hcmd⟩ := Option.map_eq_some_iff.1 h
  obtain ⟨rfl, -⟩ := Prod.mk.inj hcmd
  show (ioRead + cid * 2 ^ 16) / 2 ^ 16 = cid
  unfold ioRead
  omega

theorem Sys.Good.step (h : s.Good last) {op : Op} (hop : s.Answered op) :
    ∃ last', (s.step op).Good last' := by
  cases op with
  | adminSubmit cmd =>
    unfold Sys.step
    dsimp only
    split_ifs
    · exact ⟨last, h⟩
    · exact ⟨_, h.submit (withCid_cid cmd s.cid) hop⟩
  | nvmeReadSectors lba count buf =>
    unfold Sys.step Sys.nvmeReadSectors Sys.ioSubmitRead
    dsimp only
    split_ifs
    · exact ⟨last, h⟩
    · cases hcmd : readCommand s.device s.cid lba count buf with
      | none => exact ⟨last, h⟩
      | some r =>
        have hdevice : ({ s with device := { s.device with mem := r.2 } } : Sys).Good last :=
          ⟨h.cid, h.pair, h.call, h.matched⟩
        exact ⟨_, hdevice.submit (readCommand_cid hcmd) hop⟩
    · exact ⟨last, h⟩
  | poll n => exact ⟨last, h.poll n⟩
  | fetch q =>
    obtain ⟨f, n, hgood⟩ := h.pair q
    obtain ⟨f', hfetch⟩ := hgood.fetch
    have hcounts : (s.pair q).fetch.submitted = (s.pair q).submitted ∧
        (s.pair q).fetch.consumed = (s.pair q).consumed := by
      unfold Pair.fetch
      split_ifs <;> exact ⟨rfl, rfl⟩
    exact ⟨last, h.of_pair hcounts.1 hcounts.2 hfetch fun _ hk ↦ hk⟩
  | post q i status =>
    unfold Sys.step Sys.post
    dsimp only
    cases hpost : (s.pair q).post i status with
    | none => exact ⟨last, h⟩
    | some r =>
      obtain ⟨slot, p⟩ := r
      obtain ⟨f, n, hgood⟩ := h.pair q
      obtain ⟨-, hsubmitted, hconsumed, hgood'⟩ := hgood.post hpost
      refine ⟨last, h.of_pair hsubmitted hconsumed hgood' fun k hk ↦ ?_⟩
      split_ifs
      · exact List.mem_append_left _ hk
      · exact hk

end Run

section Results

def Pair.start : Pair where
  queue := ⟨fun _ ↦ ⟨fun _ ↦ 0, 0⟩, 0, fun _ ↦ ⟨0, 0, 0⟩, 0, true⟩
  engine := ⟨0, [], 0, true⟩
  submitted := 0
  consumed := 0

def Sys.start (device : Device) : Sys := ⟨device, 1, fun _ ↦ .start, none, 0, [], []⟩

theorem Pair.start_good (last : Slot) : Pair.start.Good 0 0 last [] := by
  refine ⟨le_rfl, le_rfl, le_rfl, Nat.zero_le _, rfl, rfl, rfl, rfl, rfl, rfl, fun i hi ↦ ?_,
    fun hlt ↦ absurd hlt (lt_irrefl 0), rfl, fun hlt ↦ absurd hlt (lt_irrefl 0)⟩
  interval_cases i <;> rfl

theorem Sys.start_good (device : Device) (last : Qid → Slot) : (Sys.start device).Good last :=
  ⟨show 1 < 2 ^ 16 by decide, fun q ↦ ⟨0, 0, Pair.start_good (last q)⟩,
    fun _ hc ↦ absurd hc (by simp [Sys.start]), fun _ hr ↦ absurd hr (by simp [Sys.start])⟩

/-- As long as no command is submitted to a queue that still owes a completion, a result of 1 is
that of the command itself, whose data has been transferred. -/
theorem completions_matched (device : Device) (ops : List Op)
    (hanswered : Along Sys.step Sys.Answered (Sys.start device) ops) :
    (ops.foldl Sys.step (Sys.start device)).Matched := by
  have hstart : ∃ last, (Sys.start device).Good last :=
    ⟨fun _ ↦ ⟨fun _ ↦ 0, 0⟩, Sys.start_good device _⟩
  have hgood : ∃ last, (ops.foldl Sys.step (Sys.start device)).Good last :=
    Along.invariant (I := fun s ↦ ∃ last, s.Good last)
      (fun _ _ ⟨_, h⟩ hop ↦ h.step hop) hstart hanswered
  obtain ⟨last, hgood⟩ := hgood
  exact hgood.matched

/-- An admin command, a read, a read that the controller fails, and another admin command. -/
def answeredRun : List Op :=
  [.adminSubmit fun _ ↦ 6, .fetch .admin, .post .admin 0 0, .poll 1,
    .nvmeReadSectors 7 8 0x200000, .poll 3, .fetch .io, .post .io 0 0, .poll 1,
    .nvmeReadSectors 9 1 0x300000, .fetch .io, .post .io 0 2, .poll 2,
    .adminSubmit fun _ ↦ 6, .fetch .admin, .post .admin 0 0, .poll 1]

theorem completions_matched_answered :
    let s := answeredRun.foldl Sys.step (Sys.start sampleDevice)
    s.returned.map Return.result = [true, true, false, true] ∧ s.Matched :=
  ⟨by decide +kernel, completions_matched sampleDevice answeredRun (by decide +kernel)⟩

/-- The first read is answered after its call has given up, while the second call polls. -/
def lateRun : List Op :=
  [.nvmeReadSectors 7 8 0x200000, .fetch .io, .poll pollLimit, .nvmeReadSectors 100 8 0x300000,
    .post .io 0 0, .poll 1]

/-- The second call takes the first one's completion for its own. -/
theorem late_completion_mistaken :
    let s := lateRun.foldl Sys.step (Sys.start sampleDevice)
    s.returned.map (fun r ↦ (r.result, r.call.cid, r.consumed.map Cqe.cid)) =
      [(false, 1, none), (true, 2, some 1)] ∧ ¬ s.Matched := by
  intro s
  have hreturned : s.returned.map (fun r ↦ (r.result, r.call.cid, r.consumed.map Cqe.cid)) =
      [(false, 1, none), (true, 2, some 1)] := by
    decide +kernel
  refine ⟨hreturned, fun hm ↦ ?_⟩
  have hmem : (true, 2, some 1) ∈
      s.returned.map fun r ↦ (r.result, r.call.cid, r.consumed.map Cqe.cid) := by
    rw [hreturned]
    decide
  obtain ⟨r, hr, heq⟩ := List.mem_map.1 hmem
  simp only [Prod.mk.injEq] at heq
  obtain ⟨cqe, hcqe, hcid, -⟩ := hm r hr heq.1
  rw [hcqe, Option.map_some, hcid, heq.2.1] at heq
  exact absurd heq.2.2 (by decide)

end Results

end NexusOS.Drivers.Nvme
