import NexusOS.Core.Mutex

namespace NexusOS.Core.Sched

open Lib

theorem popLocked_count {q : WaitQueue} (h : (schedulerWaitQueuePopLocked q).1 ≠ 0) :
    (schedulerWaitQueuePopLocked q).2.count < q.count := by
  unfold schedulerWaitQueuePopLocked at h ⊢
  split_ifs at h ⊢ with hempty
  · exact absurd rfl h
  · exact Nat.sub_one_lt hempty

/-- The threads that the loop takes from the queue and wakes. -/
def wakeEventWaitersLocked (q : WaitQueue) : List ℕ × WaitQueue :=
  let r := schedulerWaitQueuePopLocked q
  if h : r.1 = 0 then ([], r.2)
  else
    have := popLocked_count h
    (wakeEventWaitersLocked r.2).map (r.1 :: ·) id
termination_by q.count

/-- One event type. A thread in `kernel_events_wait` has read the number `before`, and is ready to
run or not. -/
structure Events where
  sequence : ℕ
  waiters : WaitQueue
  before : ℕ → ℕ
  ready : ℕ → Option Bool

/-- A round of `kernel_events_wait` up to its return or the switch to another thread. -/
def Events.round (s : Events) (t : ℕ) : Events :=
  let before := s.sequence
  if s.sequence ≠ before then { s with ready := Function.update s.ready t none }
  else
    { s with
      waiters := enqueue (schedulerWaitQueuePushLocked s.waiters t) t
      before := Function.update s.before t before
      ready := Function.update s.ready t (some false) }

/-- No event is processed between the two looks at the sequence number. -/
theorem Events.round_sleeps (s : Events) (t : ℕ) : s.round t =
    { s with
      waiters := enqueue (schedulerWaitQueuePushLocked s.waiters t) t
      before := Function.update s.before t s.sequence
      ready := Function.update s.ready t (some false) } :=
  if_neg fun h ↦ h rfl

def Events.wake (s : Events) (woken : List ℕ) : Events :=
  { s with ready := fun t ↦ if t ∈ woken ∧ s.ready t = some false then some true else s.ready t }

/-- What `kernel_events_process` does for an event of the type. -/
def Events.process (s : Events) : Events :=
  let r := wakeEventWaitersLocked s.waiters
  { s with sequence := (s.sequence + 1) % 2 ^ 64, waiters := r.2 }.wake r.1

inductive EventAct
  | wait
  | resume
  | wake
  | process

def Events.step (s : Events) (t : ℕ) : EventAct → Events
  | .wait => if s.ready t = none then s.round t else s
  | .resume =>
    if s.ready t = some true then
      if s.sequence ≠ s.before t then { s with ready := Function.update s.ready t none }
      else s.round t
    else s
  | .wake => s.wake [t]
  | .process => s.process

def Events.start : Events := ⟨0, schedulerWaitQueueInit, fun _ ↦ 0, fun _ ↦ none⟩

variable {T : Threads} {s : Events} {l : Line} {t : ℕ}

theorem WaitQueue.Shows.wakes {q : WaitQueue} (h : q.Shows l) :
    (wakeEventWaitersLocked q).1 = l.ids ∧ (wakeEventWaitersLocked q).2.Shows .empty := by
  obtain ⟨ids, hn, hz, hf⟩ := l
  induction ids generalizing q with
  | nil =>
    have hzero : (schedulerWaitQueuePopLocked q).1 = 0 := h.pop.1
    rw [wakeEventWaitersLocked, dif_pos hzero]
    exact ⟨rfl, h.pop.2⟩
  | cons id ids ih =>
    have hid : (schedulerWaitQueuePopLocked q).1 = id := h.pop.1
    have hne : (schedulerWaitQueuePopLocked q).1 ≠ 0 := fun h0 ↦ hz (by simp [← hid, h0])
    obtain ⟨hids, hshows⟩ := ih _ _ _ h.pop.2
    rw [wakeEventWaitersLocked, dif_neg hne]
    exact ⟨congrArg₂ _ hid hids, hshows⟩

structure Events.Heard (T : Threads) (s : Events) (l : Line) : Prop where
  shows : s.waiters.Shows l
  known : l.ids ⊆ T.ids
  asleep : ∀ t, s.ready t = some false → t ∈ l.ids ∧ s.before t = s.sequence

theorem Events.Heard.round (h : s.Heard T l) (ht : t ∈ T.ids) : (s.round t).Heard T (l.push t) := by
  have hids := T.push_ids h.known ht
  have hknown := h.known
  have hasleep := h.asleep
  have hshows := (h.shows.push t).enqueue t
  rw [Line.push_of_skip (l := l.push t) (.inr (.inl (by grind)))] at hshows
  rw [Events.round_sleeps]
  refine ⟨hshows, by grind, ?_⟩
  grind [Function.update_apply]

theorem Events.Heard.steps (h : s.Heard T l) (ht : t ∈ T.ids) (a : EventAct) :
    ∃ l, (s.step t a).Heard T l := by
  have hasleep := h.asleep
  cases a with
  | wait =>
    rw [step]
    split_ifs
    · exact ⟨_, h.round ht⟩
    · exact ⟨l, h⟩
  | resume =>
    rw [step]
    split_ifs
    · refine ⟨l, h.shows, h.known, ?_⟩
      grind [Function.update_apply]
    · exact ⟨_, h.round ht⟩
    · exact ⟨l, h⟩
  | wake =>
    refine ⟨l, h.shows, h.known, ?_⟩
    grind [Events.step, Events.wake]
  | process =>
    have hwoken := h.shows.wakes.1
    refine ⟨_, h.shows.wakes.2, List.nil_subset _, ?_⟩
    grind [Events.step, Events.process, Events.wake]

/-- A thread that sleeps has slept through no event: it has read the present number and is in the
queue, and the next event lets it return. -/
theorem no_event_slept_through (T : Threads) (acts : List ({t // t ∈ T.ids} × EventAct)) :
    let s := acts.foldl (fun s a ↦ s.step a.1 a.2) Events.start
    (∀ t, s.ready t = some false → s.before t = s.sequence ∧
      t ∈ ringView 8 s.waiters.ids s.waiters.head s.waiters.count) ∧
    ∀ t, s.ready t = some false → ((s.step t .process).step t .resume).ready t = none := by
  intro s
  obtain ⟨l, h⟩ : ∃ l, s.Heard T l := foldl_invariant (I := fun s ↦ ∃ l, Events.Heard T s l)
    (fun s a ⟨_, h⟩ ↦ h.steps a.1.2 a.2)
    ⟨.empty, ⟨by decide, rfl⟩, List.nil_subset _, by simp [Events.start]⟩ acts
  refine ⟨fun t ht ↦ (h.asleep t ht).symm.imp_right (h.shows.view ▸ ·), fun t ht ↦ ?_⟩
  obtain ⟨hmem, hnumber⟩ := h.asleep t ht
  rw [← h.shows.wakes.1] at hmem
  have hready : (s.step t .process).ready t = some true := if_pos ⟨hmem, ht⟩
  have hnew : (s.step t .process).sequence ≠ (s.step t .process).before t := by
    show (s.sequence + 1) % 2 ^ 64 ≠ s.before t
    omega
  rw [Events.step, if_pos hready, if_pos hnew]
  exact Function.update_self ..

end NexusOS.Core.Sched
