import NexusOS.Lib.Ring
import NexusOS.Lib.Run
import NexusOS.Core.Scheduler

namespace NexusOS.Core.Sched

open Lib

section Line

/-- Waiting threads in the order in which they are to be woken. -/
structure Line where
  ids : List ℕ
  nodup : ids.Nodup
  nonzero : 0 ∉ ids
  fits : ids.length ≤ 8

variable {l : Line} {id : ℕ}

def Line.empty : Line := ⟨[], List.nodup_nil, List.not_mem_nil, Nat.zero_le 8⟩

theorem Line.nodup_append (l : Line) (h : id ∉ l.ids) : (l.ids ++ [id]).Nodup :=
  List.nodup_append.2 ⟨l.nodup, List.nodup_singleton id, fun _ ha _ hb heq ↦
    h (List.eq_of_mem_singleton hb ▸ heq ▸ ha)⟩

def Line.push (l : Line) (id : ℕ) : Line :=
  if h : id = 0 ∨ id ∈ l.ids ∨ 8 ≤ l.ids.length then l
  else
    { ids := l.ids ++ [id]
      nodup := l.nodup_append fun hmem ↦ h (.inr (.inl hmem))
      nonzero := by
        rw [not_or] at h
        simpa using ⟨l.nonzero, fun heq ↦ h.1 heq.symm⟩
      fits := by
        rw [List.length_append, List.length_singleton]
        omega }

def Line.pop : Line → ℕ × Line
  | ⟨[], hn, hz, hf⟩ => (0, ⟨[], hn, hz, hf⟩)
  | ⟨id :: ids, hn, hz, hf⟩ => (id, ⟨ids, hn.of_cons, fun h ↦ hz (List.mem_cons_of_mem id h),
      (Nat.le_succ _).trans hf⟩)

theorem Line.push_of_skip (h : id = 0 ∨ id ∈ l.ids ∨ 8 ≤ l.ids.length) : l.push id = l :=
  dif_pos h

theorem Line.push_ids (h : ¬ (id = 0 ∨ id ∈ l.ids ∨ 8 ≤ l.ids.length)) :
    (l.push id).ids = l.ids ++ [id] := by
  rw [Line.push, dif_neg h]

end Line

section Refinement

inductive QueueOp
  | push (id : ℕ)
  | pop

/-- A call on the queue; the results of the pops are collected in order. -/
def queueStep (s : WaitQueue × List ℕ) : QueueOp → WaitQueue × List ℕ
  | .push id => (schedulerWaitQueuePushLocked s.1 id, s.2)
  | .pop => ((schedulerWaitQueuePopLocked s.1).2, s.2 ++ [(schedulerWaitQueuePopLocked s.1).1])

def lineStep (s : Line × List ℕ) : QueueOp → Line × List ℕ
  | .push id => (s.1.push id, s.2)
  | .pop => (s.1.pop.2, s.2 ++ [s.1.pop.1])

structure WaitQueue.Shows (q : WaitQueue) (l : Line) : Prop where
  head : q.head < 8
  view : ringView 8 q.ids q.head q.count = l.ids

variable {q : WaitQueue} {l : Line} {id : ℕ}

section

variable (h : q.Shows l)
include h

theorem WaitQueue.Shows.count : q.count = l.ids.length := by
  rw [← h.view, length_ringView]

theorem WaitQueue.Shows.slot {i : ℕ} (hi : i ≤ 8) :
    (q.head + i) % 2 ^ 32 % 8 = (q.head + i) % 8 := by
  have := h.head
  rw [Nat.mod_eq_of_lt (a := q.head + i) (by omega)]

theorem WaitQueue.Shows.contains_iff (id : ℕ) :
    schedulerWaitQueueContains q id = true ↔ id ∈ l.ids := by
  have hfits := l.fits
  have hcount := h.count
  have hmem : id ∈ l.ids ↔ ∃ i < q.count, q.ids ((q.head + i) % 2 ^ 32 % 8) = id := by
    rw [← h.view, ringView, List.mem_map]
    refine exists_congr fun i ↦ ?_
    rw [List.mem_range]
    exact and_congr_right fun hi ↦ by rw [h.slot (by omega)]
  rw [hmem, schedulerWaitQueueContains, Bool.and_eq_true, bne_iff_ne, List.any_eq_true]
  simp only [List.mem_range, beq_iff_eq]
  refine ⟨fun hc ↦ hc.2, fun hc ↦ ⟨fun hzero ↦ ?_, hc⟩⟩
  exact l.nonzero (hzero ▸ hmem.2 hc)

theorem WaitQueue.Shows.push (id : ℕ) : (schedulerWaitQueuePushLocked q id).Shows (l.push id) := by
  have htest : id = 0 ∨ 8 ≤ q.count ∨ schedulerWaitQueueContains q id = true ↔
      id = 0 ∨ id ∈ l.ids ∨ 8 ≤ l.ids.length := by
    rw [h.contains_iff, h.count, or_comm (b := id ∈ l.ids)]
  by_cases hskip : id = 0 ∨ id ∈ l.ids ∨ 8 ≤ l.ids.length
  · rw [schedulerWaitQueuePushLocked, if_pos (htest.2 hskip), Line.push_of_skip hskip]
    exact h
  rw [schedulerWaitQueuePushLocked, if_neg (hskip ∘ htest.1)]
  have hlt : q.count < 8 := by
    rw [h.count]
    omega
  refine ⟨h.head, ?_⟩
  rw [Line.push_ids hskip, ← h.view, h.slot hlt.le]
  exact ringView_push id hlt

theorem WaitQueue.Shows.pop : (schedulerWaitQueuePopLocked q).1 = l.pop.1 ∧
      (schedulerWaitQueuePopLocked q).2.Shows l.pop.2 := by
  have hcount := h.count
  obtain ⟨ids, hn, hz, hf⟩ := l
  cases ids with
  | nil =>
    have hzero : q.count = 0 := hcount
    rw [schedulerWaitQueuePopLocked, if_pos hzero]
    exact ⟨rfl, h⟩
  | cons id ids =>
    rw [List.length_cons] at hcount hf
    have hview := h.view
    rw [hcount, ringView_pop, List.cons_eq_cons, Nat.mod_eq_of_lt h.head] at hview
    rw [schedulerWaitQueuePopLocked, if_neg (by omega)]
    refine ⟨hview.1, Nat.mod_lt _ (by decide), ?_⟩
    show ringView 8 (Function.update q.ids q.head 0) ((q.head + 1) % 2 ^ 32 % 8) (q.count - 1) = ids
    rw [h.slot (by decide), hcount, Nat.add_sub_cancel]
    refine Eq.trans ?_ hview.2
    -- The cleared cell is the one that has just left the window.
    refine ringView_congr fun i hi ↦ Function.update_of_ne ?_ 0 q.ids
    have hne : (q.head + 0) % 8 ≠ (q.head + (i + 1)) % 8 := add_mod_ne (by omega) (by omega)
    rw [Nat.add_zero, Nat.mod_eq_of_lt h.head, add_comm i 1, ← add_assoc] at hne
    rw [Nat.mod_add_mod]
    exact hne.symm

end

theorem shows_step {s : WaitQueue × List ℕ} {t : Line × List ℕ} (h : s.1.Shows t.1 ∧ s.2 = t.2)
    (op : QueueOp) :
    (queueStep s op).1.Shows (lineStep t op).1 ∧ (queueStep s op).2 = (lineStep t op).2 := by
  cases op with
  | push id => exact ⟨h.1.push id, h.2⟩
  | pop => exact ⟨h.1.pop.2, congrArg₂ (· ++ [·]) h.2 h.1.pop.1⟩

theorem shows_run {s : WaitQueue × List ℕ} {t : Line × List ℕ} (h : s.1.Shows t.1 ∧ s.2 = t.2)
    (ops : List QueueOp) :
    (ops.foldl queueStep s).1.Shows (ops.foldl lineStep t).1 ∧
      (ops.foldl queueStep s).2 = (ops.foldl lineStep t).2 := by
  induction ops generalizing s t with
  | nil => exact h
  | cons op ops ih => exact ih (shows_step h op)

/-- Every run on the queue gives the results of the same run on the list, and leaves a window of
the ring that reads as that list. -/
theorem wait_queue_is_line (ops : List QueueOp) :
    let q := ops.foldl queueStep (schedulerWaitQueueInit, [])
    let l := ops.foldl lineStep (Line.empty, [])
    q.2 = l.2 ∧ ringView 8 q.1.ids q.1.head q.1.count = l.1.ids ∧
      ∀ id, schedulerWaitQueueContains q.1 id = true ↔ id ∈ l.1.ids := by
  have hinit : schedulerWaitQueueInit.Shows Line.empty := ⟨by decide, rfl⟩
  obtain ⟨hshows, hresults⟩ := shows_run (s := (schedulerWaitQueueInit, []))
    (t := (Line.empty, [])) ⟨hinit, rfl⟩ ops
  exact ⟨hresults, hshows.view, hshows.contains_iff⟩

end Refinement

end NexusOS.Core.Sched
