import NexusOS.Core.WaitQueue

namespace NexusOS.Core.Sched

open Lib

section Source

structure Mutex where
  owner : ℕ
  locked : Bool
  waiters : WaitQueue

def mutexInit : Mutex := ⟨0, false, schedulerWaitQueueInit⟩

def mutexTryLock (m : Mutex) (tid : ℕ) : Bool × Mutex :=
  if m.locked then (false, m) else (true, { m with locked := true, owner := tid })

/-- The test that `mutex_lock` and `thread_block_on_wait_queue` make before they push. -/
def enqueue (q : WaitQueue) (tid : ℕ) : WaitQueue :=
  if schedulerWaitQueueContains q tid then q else schedulerWaitQueuePushLocked q tid

/-- One round of the loop of `mutex_lock`, to its return or to the switch to another thread. -/
def lockRound (m : Mutex) (tid : ℕ) : Bool × Mutex :=
  let r := mutexTryLock m tid
  if r.1 then r
  else if r.2.locked then (false, { r.2 with waiters := enqueue (enqueue r.2.waiters tid) tid })
  else (true, { r.2 with locked := true, owner := tid })

/-- The thread that is to be woken, 0 for none. -/
def mutexUnlock (m : Mutex) (tid : ℕ) : ℕ × Mutex :=
  if !m.locked || m.owner != tid then (0, m)
  else
    let r := schedulerWaitQueuePopLocked m.waiters
    if r.1 ≠ 0 then (r.1, ⟨r.1, true, r.2⟩) else (0, ⟨0, false, r.2⟩)

end Source

section System

/-- The ids of the threads; there are eight control blocks. -/
structure Threads where
  ids : List ℕ
  nonzero : 0 ∉ ids
  few : ids.length ≤ 8

/-- Where a thread is: outside, between its lock and its unlock, or in `mutex_lock` behind
`thread_block_on_wait_queue`, ready to run again or not. -/
inductive Phase
  | outside
  | holding
  | waiting (ready : Bool)
  deriving DecidableEq

/-- The threads that were put in the queue and those that an unlock gave the mutex to are written
down in order. -/
structure Sync where
  mutex : Mutex
  phase : ℕ → Phase
  queued : List ℕ
  granted : List ℕ

def Sync.move (s : Sync) (t : ℕ) (p : Phase) : Sync :=
  { s with phase := Function.update s.phase t p }

def Sync.wake (s : Sync) (t : ℕ) : Sync :=
  s.move t (if s.phase t = .waiting false then .waiting true else s.phase t)

def Sync.enter (s : Sync) (t : ℕ) : Sync :=
  let r := lockRound s.mutex t
  if r.1 then { s with mutex := r.2 }.move t .holding
  else
    { s with
      mutex := r.2
      queued := if schedulerWaitQueueContains s.mutex.waiters t then s.queued
        else s.queued ++ [t] }.move t (.waiting false)

inductive Act
  | lock
  | tryLock
  | unlock
  | resume
  | wake

/-- What thread `t` does up to its next switch, if it is where it can do so (it does not ask for a
mutex that it holds), and `scheduler_wake_thread` of `t` by anybody. -/
def Sync.step (s : Sync) (t : ℕ) : Act → Sync
  | .lock => if s.phase t = .outside then s.enter t else s
  | .tryLock =>
    if s.phase t = .outside then
      let r := mutexTryLock s.mutex t
      if r.1 then { s with mutex := r.2 }.move t .holding else s
    else s
  | .unlock =>
    if s.phase t = .outside ∨ s.phase t = .holding then
      let r := mutexUnlock s.mutex t
      let s := { s with mutex := r.2 }.move t .outside
      if r.1 = 0 then s else { s with granted := s.granted ++ [r.1] }.wake r.1
    else s
  | .resume =>
    if s.phase t = .waiting true then
      if s.mutex.locked ∧ s.mutex.owner = t then s.move t .holding else s.enter t
    else s
  | .wake => s.wake t

def Sync.start : Sync := ⟨mutexInit, fun _ ↦ .outside, [], []⟩

end System

section Safety

variable {T : Threads} {s : Sync} {l : Line} {t : ℕ}

@[grind cases]
structure Sync.Fair (T : Threads) (s : Sync) (l : Line) : Prop where
  shows : s.mutex.waiters.Shows l
  known : ∀ t, s.phase t ≠ .outside → t ∈ T.ids
  locked : s.mutex.locked = true ↔ s.mutex.owner ≠ 0
  held : ∀ t, s.phase t = .holding → s.mutex.owner = t
  owner : s.mutex.owner ≠ 0 →
    s.phase s.mutex.owner = .holding ∨ s.phase s.mutex.owner = .waiting true
  free : s.mutex.owner = 0 → l.ids = []
  line : ∀ t ∈ l.ids, (∃ b, s.phase t = .waiting b) ∧ s.mutex.owner ≠ t
  waits : ∀ t b, s.phase t = .waiting b → t ∈ l.ids ∨ s.mutex.owner = t
  order : s.queued = s.granted ++ l.ids

@[grind =]
theorem Sync.move_phase (s : Sync) (t u : ℕ) (p : Phase) :
    (s.move t p).phase u = if u = t then p else s.phase u :=
  Function.update_apply ..

@[grind =]
theorem Sync.move_mutex (s : Sync) (t : ℕ) (p : Phase) : (s.move t p).mutex = s.mutex := rfl

theorem Sync.Fair.wakes (h : s.Fair T l) (t : ℕ) : (s.wake t).Fair T l := by
  refine ⟨h.shows, ?_, h.locked, ?_, ?_, h.free, ?_, ?_, h.order⟩ <;> grind [Sync.wake]

theorem Sync.Fair.takes (h : s.Fair T l) (ht : t ∈ T.ids) (hfree : s.mutex.locked = false) :
    Fair T ({ s with mutex := { s.mutex with locked := true, owner := t } }.move t .holding) l := by
  have hnonzero := T.nonzero
  refine ⟨h.shows, ?_, ?_, ?_, ?_, ?_, ?_, ?_, h.order⟩ <;> grind

theorem WaitQueue.Shows.enqueue {q : WaitQueue} (h : q.Shows l) (t : ℕ) :
    (enqueue q t).Shows (l.push t) := by
  unfold Sched.enqueue
  split
  · rename_i hc
    rwa [Line.push_of_skip (.inr (.inl ((h.contains_iff t).1 hc)))]
  · exact h.push t

theorem Threads.push_ids (T : Threads) (hl : l.ids ⊆ T.ids) (ht : t ∈ T.ids) :
    (l.push t).ids = if t ∈ l.ids then l.ids else l.ids ++ [t] := by
  split
  · rw [Line.push_of_skip (.inr (.inl ‹_›))]
  rename_i hnew
  have hlen := (List.subperm_of_subset (List.nodup_cons.2 ⟨hnew, l.nodup⟩)
    (List.cons_subset.2 ⟨ht, hl⟩)).length_le
  have hfew := T.few
  have hnonzero := T.nonzero
  exact Line.push_ids (by grind)

theorem Sync.Fair.joins (h : s.Fair T l) (ht : t ∈ T.ids) (hlock : s.mutex.locked = true)
    (hp : s.phase t = .outside ∨ s.phase t = .waiting true ∧ s.mutex.owner ≠ t) :
    (s.enter t).Fair T (l.push t) := by
  have hids := T.push_ids (l := l) (fun u hu ↦ h.known u (by grind)) ht
  have hshows := (h.shows.enqueue t).enqueue t
  rw [Line.push_of_skip (l := l.push t) (.inr (.inl (by grind)))] at hshows
  have hcontains := h.shows.contains_iff t
  simp only [enter, lockRound, mutexTryLock, hlock, if_true, Bool.false_eq_true, if_false]
  refine ⟨hshows, ?_, ?_, ?_, ?_, ?_, ?_, ?_, ?_⟩ <;> grind [Sync.move]

theorem Sync.Fair.enters (h : s.Fair T l) (ht : t ∈ T.ids)
    (hp : s.phase t = .outside ∨ s.phase t = .waiting true ∧ s.mutex.owner ≠ t) :
    ∃ l, (s.enter t).Fair T l := by
  cases hlock : s.mutex.locked with
  | true => exact ⟨_, h.joins ht hlock hp⟩
  | false =>
    have htake := h.takes ht hlock
    simp only [enter, lockRound, mutexTryLock, hlock]
    exact ⟨l, htake⟩

theorem Line.pop_cases (l : Line) : l.pop.1 = 0 ∧ l.ids = [] ∧ l.pop.2.ids = [] ∨
    l.pop.1 ≠ 0 ∧ l.ids = l.pop.1 :: l.pop.2.ids := by
  obtain ⟨_ | ⟨id, ids⟩, hn, hz, hf⟩ := l
  · exact .inl ⟨rfl, rfl, rfl⟩
  · exact .inr ⟨fun h0 ↦ hz (List.mem_cons.2 (.inl h0.symm)), rfl⟩

theorem mutexUnlock_owner {m : Mutex} (h : m.waiters.Shows l)
    (hown : m.locked = true ∧ m.owner = t) : mutexUnlock m t =
      (l.pop.1, ⟨l.pop.1, l.pop.1 != 0, (schedulerWaitQueuePopLocked m.waiters).2⟩) := by
  rw [mutexUnlock, if_neg (by simp [hown]), ← h.pop.1]
  dsimp only
  split <;> simp_all

/-- An unlock gives the mutex to the first thread in line, which can run then. -/
theorem Sync.Fair.unlocks (h : s.Fair T l) (hp : s.phase t = .outside ∨ s.phase t = .holding) :
    ∃ l, (s.step t .unlock).Fair T l := by
  have hunlock := mutexUnlock_owner (t := t) h.shows
  have hpopped := h.shows.pop.2
  have hnodup := l.nodup
  by_cases hown : s.mutex.locked = true ∧ s.mutex.owner = t
  · simp only [step, if_pos hp, hunlock hown]
    rcases l.pop_cases with ⟨hn, hl, hl'⟩ | ⟨hn, hl⟩
    · rw [if_pos hn]
      refine ⟨_, hpopped, ?_, ?_, ?_, ?_, ?_, ?_, ?_, ?_⟩ <;> grind [Sync.move]
    have hnext : s.queued = s.granted ++ [l.pop.1] ++ l.pop.2.ids := by
      rw [h.order, hl, List.append_assoc, List.singleton_append]
    obtain ⟨⟨b, hb⟩, hne⟩ := h.line l.pop.1 (by simp [hl])
    rw [if_neg hn]
    dsimp only [wake, move]
    cases b <;> refine ⟨_, hpopped, ?_, ?_, ?_, ?_, ?_, ?_, ?_, hnext⟩ <;>
      grind [Function.update_apply]
  have hskip : mutexUnlock s.mutex t = (0, s.mutex) := if_pos (by grind)
  simp only [step, if_pos hp, hskip, if_true]
  refine ⟨l, h.shows, ?_, ?_, ?_, ?_, ?_, ?_, ?_, ?_⟩ <;> grind [Sync.move]

theorem Sync.Fair.steps (h : s.Fair T l) (ht : t ∈ T.ids) (a : Act) :
    ∃ l, (s.step t a).Fair T l := by
  cases a with
  | lock =>
    rw [step]
    split
    · exact h.enters ht (.inl ‹_›)
    · exact ⟨l, h⟩
  | tryLock =>
    have htake := h.takes ht
    rw [step, mutexTryLock]
    split_ifs with hp hlock
    · exact ⟨l, h⟩
    · exact ⟨l, htake (Bool.not_eq_true _ ▸ hlock)⟩
    · exact ⟨l, h⟩
  | unlock =>
    by_cases hp : s.phase t = .outside ∨ s.phase t = .holding
    · exact h.unlocks hp
    rw [step, if_neg hp]
    exact ⟨l, h⟩
  | resume =>
    rw [step]
    split_ifs with hp hown
    · refine ⟨l, h.shows, ?_, ?_, ?_, ?_, ?_, ?_, ?_, ?_⟩ <;> grind [Sync.move]
    · have hnonzero := T.nonzero
      exact h.enters ht (.inr ⟨hp, by grind⟩)
    · exact ⟨l, h⟩
  | wake => exact ⟨l, h.wakes t⟩

/-- Whatever the threads do and in whichever order: the thread that holds the mutex is its owner, a
free mutex has nobody waiting, the owner is never left asleep, and the threads get the mutex in the
order in which they were queued. -/
theorem mutex_safe (T : Threads) (acts : List ({t // t ∈ T.ids} × Act)) :
    let s := acts.foldl (fun s a ↦ s.step a.1 a.2) Sync.start
    (∀ t, s.phase t = .holding → s.mutex.locked = true ∧ s.mutex.owner = t) ∧
      (s.mutex.locked = false → ∀ t, s.phase t = .outside) ∧
      (s.mutex.locked = true →
        s.phase s.mutex.owner = .holding ∨ s.phase s.mutex.owner = .waiting true) ∧
      s.queued = s.granted ++
        ringView 8 s.mutex.waiters.ids s.mutex.waiters.head s.mutex.waiters.count := by
  intro s
  have hstart : Sync.start.Fair T .empty := by
    refine ⟨⟨by decide, rfl⟩, ?_, ?_, ?_, ?_, ?_, ?_, ?_, rfl⟩ <;>
      simp [Sync.start, mutexInit, Line.empty]
  obtain ⟨l, h⟩ : ∃ l, s.Fair T l := foldl_invariant (I := fun s ↦ ∃ l, Sync.Fair T s l)
    (fun s a ⟨_, h⟩ ↦ h.steps a.1.2 a.2) ⟨_, hstart⟩ acts
  have hnonzero := T.nonzero
  clear_value s
  refine ⟨?_, ?_, ?_, h.shows.view ▸ h.order⟩
  · grind
  · intro hfree' t
    cases hp : s.phase t <;> grind
  · grind

end Safety

end NexusOS.Core.Sched
