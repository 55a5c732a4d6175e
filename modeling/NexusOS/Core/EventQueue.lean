import NexusOS.Lib.Ring
import NexusOS.Lib.Run

namespace NexusOS.Core.Events

open Lib

structure Event where
  type : UInt32
  source : UInt32
  data : UInt64
  deriving DecidableEq

structure Queue where
  queue : ℕ → Event
  head : ℕ
  tail : ℕ
  pushed : ℕ
  dropped : ℕ
  popped : ℕ
  ready : Bool

def eventQueueInit (q : Queue) : Queue :=
  { q with head := 0, tail := 0, pushed := 0, dropped := 0, popped := 0, ready := true }

/-- A push runs with interrupts off, so that nothing comes between its accesses. -/
def eventQueuePush (q : Queue) (e : Event) : Bool × Queue :=
  if !q.ready ∨ e.type = 0 then (false, q)
  else
    let next := (q.head + 1) % 256
    if next = q.tail then (false, { q with dropped := (q.dropped + 1) % 2 ^ 64 })
    else (true, { q with
      queue := Function.update q.queue q.head e
      head := next
      pushed := (q.pushed + 1) % 2 ^ 64 })

def eventQueueCount (q : Queue) : ℕ :=
  if q.tail ≤ q.head then q.head - q.tail else 256 - q.tail + q.head

/-- Where the consumer is in `event_queue_pop`, with what it has read. -/
inductive Pop
  | idle
  | started
  | gotTail (tail : ℕ)
  | nonempty (tail : ℕ)
  | gotType (tail : ℕ) (type : UInt32)
  | gotSource (tail : ℕ) (type source : UInt32)
  | copied (tail : ℕ) (e : Event)
  | advanced (e : Event)
  | gotPopped (e : Event) (popped : ℕ)
  deriving DecidableEq

/-- What a call comes to: a push is accepted or not, a pop returns an event or fails. -/
inductive Outcome
  | accepted (e : Event)
  | refused (e : Event)
  | popped (result : Option Event)

/-- The next access of the consumer, and the result when the call returns. An idle consumer calls
`event_queue_pop`, with a null pointer or not. -/
def popStep (q : Queue) (event : Bool) : Pop → Pop × Queue × Option (Option Event)
  | .idle => if !q.ready ∨ !event then (.idle, q, some none) else (.started, q, none)
  | .started => (.gotTail q.tail, q, none)
  | .gotTail tail => if tail = q.head then (.idle, q, some none) else (.nonempty tail, q, none)
  | .nonempty tail => (.gotType tail (q.queue tail).type, q, none)
  | .gotType tail type => (.gotSource tail type (q.queue tail).source, q, none)
  | .gotSource tail type source => (.copied tail ⟨type, source, (q.queue tail).data⟩, q, none)
  | .copied tail e => (.advanced e, { q with tail := (tail + 1) % 256 }, none)
  | .advanced e => (.gotPopped e q.popped, q, none)
  | .gotPopped e popped =>
    (.idle, { q with popped := (popped + 1) % 2 ^ 64 }, some (some e))

/-- An interrupt pushes an event, or the consumer makes its next access. -/
inductive Access
  | push (e : Event)
  | pop (event : Bool)

structure State where
  q : Queue
  pc : Pop
  outcomes : List Outcome

def step (s : State) : Access → State
  | .push e =>
    let r := eventQueuePush s.q e
    { s with q := r.2, outcomes := s.outcomes ++ [if r.1 then .accepted e else .refused e] }
  | .pop event =>
    let r := popStep s.q event s.pc
    ⟨r.2.1, r.1, s.outcomes ++ (r.2.2.map .popped).toList⟩

def start (q : Queue) : State := ⟨eventQueueInit q, .idle, []⟩

def Outcome.accepted? : Outcome → Option Event
  | .accepted e => some e
  | _ => none

def Outcome.returned? : Outcome → Option Event
  | .popped result => result
  | _ => none

/-- An attempt to push an event of a type other than `NEXUS_EVENT_NONE`. -/
def Outcome.attempt : Outcome → Bool
  | .accepted e => e.type != 0
  | .refused e => e.type != 0
  | _ => false

def State.accepted (s : State) : List Event := s.outcomes.filterMap Outcome.accepted?

def State.returned (s : State) : List Event := s.outcomes.filterMap Outcome.returned?

def State.attempts (s : State) : ℕ := s.outcomes.countP Outcome.attempt

@[simp]
theorem accepted_snoc (s : State) (q : Queue) (pc : Pop) (o : Outcome) :
    State.accepted ⟨q, pc, s.outcomes ++ [o]⟩ = s.accepted ++ o.accepted?.toList := by
  rw [State.accepted, State.accepted, List.filterMap_append]
  cases h : o.accepted? <;> simp [h]

@[simp]
theorem returned_snoc (s : State) (q : Queue) (pc : Pop) (o : Outcome) :
    State.returned ⟨q, pc, s.outcomes ++ [o]⟩ = s.returned ++ o.returned?.toList := by
  rw [State.returned, State.returned, List.filterMap_append]
  cases h : o.returned? <;> simp [h]

@[simp]
theorem attempts_snoc (s : State) (q : Queue) (pc : Pop) (o : Outcome) :
    State.attempts ⟨q, pc, s.outcomes ++ [o]⟩ = s.attempts + if o.attempt then 1 else 0 := by
  rw [State.attempts, State.attempts, List.countP_append, List.countP_singleton]

section Invariant

def Pop.released : Pop → List Event
  | .advanced e => [e]
  | .gotPopped e _ => [e]
  | _ => []

/-- What the consumer has read is still true, where `view` is the content of the ring. -/
def Pop.Holds (q : Queue) (view : List Event) : Pop → Prop
  | .gotTail tail => tail = q.tail
  | .nonempty tail => tail = q.tail ∧ view ≠ []
  | .gotType tail type => tail = q.tail ∧ ∃ e, view.head? = some e ∧ e.type = type
  | .gotSource tail type source =>
    tail = q.tail ∧ ∃ e, view.head? = some e ∧ e.type = type ∧ e.source = source
  | .copied tail e => tail = q.tail ∧ view.head? = some e
  | .gotPopped _ popped => popped = q.popped
  | _ => True

/-- The invariant over every interleaving: `n` events are in the ring, and so far `acc` have been
accepted and `ret` returned. -/
structure Inv (q : Queue) (pc : Pop) (acc ret : List Event) (attempts n : ℕ) : Prop where
  ready : q.ready = true
  tail : q.tail < 256
  count : n < 256
  head : q.head = (q.tail + n) % 256
  content : acc = ret ++ pc.released ++ ringView 256 q.queue q.tail n
  holds : pc.Holds q (ringView 256 q.queue q.tail n)
  pushed : q.pushed = acc.length % 2 ^ 64
  popped : q.popped = ret.length % 2 ^ 64
  attempts : (q.pushed + q.dropped) % 2 ^ 64 = attempts % 2 ^ 64

variable {q : Queue} {pc : Pop} {acc ret : List Event} {k n : ℕ}

theorem eventQueueInit_inv (q : Queue) : Inv (eventQueueInit q) .idle [] [] 0 0 := by
  constructor <;> simp [eventQueueInit, Pop.released, Pop.Holds]

theorem Pop.Holds.push {q' : Queue} {view : List Event} (h : pc.Holds q view) (e : Event)
    (htail : q'.tail = q.tail) (hpopped : q'.popped = q.popped) : pc.Holds q' (view ++ [e]) := by
  have hhead {x : Event} (hx : view.head? = some x) : (view ++ [e]).head? = some x := by
    rw [List.head?_append, hx]
    rfl
  cases pc with
  | gotTail tail => exact h.trans htail.symm
  | nonempty tail => exact ⟨h.1.trans htail.symm, by simp⟩
  | gotType tail type =>
    obtain ⟨ht, x, hx, htype⟩ := h
    exact ⟨ht.trans htail.symm, x, hhead hx, htype⟩
  | gotSource tail type source =>
    obtain ⟨ht, x, hx, hrest⟩ := h
    exact ⟨ht.trans htail.symm, x, hhead hx, hrest⟩
  | copied tail x => exact ⟨h.1.trans htail.symm, hhead h.2⟩
  | gotPopped x popped => exact h.trans hpopped.symm
  | idle | started | advanced => trivial

section

variable (h : Inv q pc acc ret k n)
include h

theorem Inv.full_iff : (q.head + 1) % 256 = q.tail ↔ n = 255 := by
  have htail := h.tail
  have hcount := h.count
  rw [h.head]
  omega

theorem Inv.eventQueueCount : eventQueueCount q = n := by
  have htail := h.tail
  have hcount := h.count
  unfold Events.eventQueueCount
  rw [h.head]
  split_ifs <;> omega

theorem Inv.eventQueuePush {e : Event} (he : e.type ≠ 0) :
    if n = 255 then (eventQueuePush q e).1 = false ∧ Inv (eventQueuePush q e).2 pc acc ret (k + 1) n
    else (eventQueuePush q e).1 = true ∧
      Inv (eventQueuePush q e).2 pc (acc ++ [e]) ret (k + 1) (n + 1) := by
  have hattempts := h.attempts
  have hready : ¬(!q.ready ∨ e.type = 0) := by simp [h.ready, he]
  unfold Events.eventQueuePush
  rw [if_neg hready]
  dsimp only
  by_cases hfull : n = 255
  · rw [if_pos hfull, if_pos (h.full_iff.2 hfull)]
    refine ⟨rfl, { h with attempts := ?_ }⟩
    dsimp only
    omega
  rw [if_neg hfull, if_neg fun heq ↦ hfull (h.full_iff.1 heq)]
  have hcount := h.count
  have hview : ringView 256 (Function.update q.queue q.head e) q.tail (n + 1) =
      ringView 256 q.queue q.tail n ++ [e] := by
    rw [h.head]
    exact ringView_push e h.count
  refine ⟨rfl, h.ready, h.tail, by omega, ?_, ?_, ?_, ?_, h.popped, ?_⟩
  · have hhead := h.head
    dsimp only
    omega
  · dsimp only
    rw [hview, h.content, List.append_assoc]
  · dsimp only
    rw [hview]
    exact h.holds.push e rfl rfl
  · dsimp only
    rw [h.pushed, List.length_append, List.length_singleton]
    omega
  · dsimp only
    omega

theorem Inv.goto {pc' : Pop} (hreleased : pc'.released = pc.released)
    (hholds : pc'.Holds q (ringView 256 q.queue q.tail n)) : Inv q pc' acc ret k n :=
  { h with
    content := by rw [hreleased]; exact h.content
    holds := hholds }

theorem Inv.tailCell {e : Event}
    (he : (ringView 256 q.queue q.tail n).head? = some e) : q.queue q.tail = e := by
  cases n with
  | zero => cases he
  | succ n =>
    rw [ringView_pop, Nat.mod_eq_of_lt h.tail] at he
    exact Option.some.inj he

end

theorem Inv.advance {tail : ℕ} {e : Event} (h : Inv q (.copied tail e) acc ret k n) :
    ∃ n', Inv { q with tail := (tail + 1) % 256 } (.advanced e) acc ret k n' := by
  obtain ⟨rfl, he⟩ := h.holds
  cases n with
  | zero => cases he
  | succ n =>
    have hcell := h.tailCell he
    have hcount := h.count
    have hhead := h.head
    refine ⟨n, h.ready, Nat.mod_lt _ (by decide), by omega, ?_, ?_, trivial, h.pushed, h.popped,
      h.attempts⟩
    · dsimp only
      omega
    · rw [h.content, ringView_pop, Nat.mod_eq_of_lt h.tail, hcell]
      simp [Pop.released]

theorem Inv.finish {popped : ℕ} {e : Event} (h : Inv q (.gotPopped e popped) acc ret k n) :
    Inv { q with popped := (popped + 1) % 2 ^ 64 } .idle acc (ret ++ [e]) k n := by
  have hpopped : popped = q.popped := h.holds
  refine { h with content := ?_, holds := trivial, popped := ?_ }
  · rw [h.content]
    simp [Pop.released]
  dsimp only
  rw [hpopped, h.popped, List.length_append, List.length_singleton]
  omega

def returnedBy (result : Option (Option Event)) : List Event := result.join.toList

@[simp]
theorem append_returnedBy_none (ret : List Event) : ret ++ returnedBy none = ret :=
  List.append_nil ret

@[simp]
theorem append_returnedBy_failed (ret : List Event) : ret ++ returnedBy (some none) = ret :=
  List.append_nil ret

theorem Inv.popStep (h : Inv q pc acc ret k n) (event : Bool) :
    ∃ n', Inv (popStep q event pc).2.1 (popStep q event pc).1 acc
      (ret ++ returnedBy (popStep q event pc).2.2) k n' := by
  cases pc with
  | idle =>
    by_cases hrefused : !q.ready ∨ !event
    · have hstep : Events.popStep q event .idle = (.idle, q, some none) := if_pos hrefused
      rw [hstep, append_returnedBy_failed]
      exact ⟨n, h⟩
    have hstep : Events.popStep q event .idle = (.started, q, none) := if_neg hrefused
    rw [hstep, append_returnedBy_none]
    exact ⟨n, h.goto rfl trivial⟩
  | started =>
    rw [Events.popStep, append_returnedBy_none]
    exact ⟨n, h.goto rfl rfl⟩
  | gotTail tail =>
    have htail : tail = q.tail := h.holds
    by_cases hempty : tail = q.head
    · have hstep : Events.popStep q event (.gotTail tail) = (.idle, q, some none) :=
        if_pos hempty
      rw [hstep, append_returnedBy_failed]
      exact ⟨n, h.goto rfl trivial⟩
    have hstep : Events.popStep q event (.gotTail tail) = (.nonempty tail, q, none) :=
      if_neg hempty
    rw [hstep, append_returnedBy_none]
    refine ⟨n, h.goto rfl ⟨htail, ?_⟩⟩
    intro hnil
    have hn : n = 0 := by simpa using congrArg List.length hnil
    rw [htail, h.head, hn, Nat.add_zero, Nat.mod_eq_of_lt h.tail] at hempty
    exact hempty rfl
  | nonempty tail =>
    obtain ⟨rfl, hne⟩ := h.holds
    rw [Events.popStep, append_returnedBy_none]
    obtain ⟨e, he⟩ := Option.ne_none_iff_exists'.1 (mt List.head?_eq_none_iff.1 hne)
    exact ⟨n, h.goto rfl ⟨rfl, e, he, by rw [h.tailCell he]⟩⟩
  | gotType tail type =>
    obtain ⟨rfl, e, he, rfl⟩ := h.holds
    rw [Events.popStep, append_returnedBy_none]
    exact ⟨n, h.goto rfl ⟨rfl, e, he, rfl, by rw [h.tailCell he]⟩⟩
  | gotSource tail type source =>
    obtain ⟨rfl, e, he, rfl, rfl⟩ := h.holds
    rw [Events.popStep, append_returnedBy_none]
    refine ⟨n, h.goto rfl ⟨rfl, ?_⟩⟩
    rw [h.tailCell he]
    exact he
  | copied tail e =>
    rw [Events.popStep, append_returnedBy_none]
    exact h.advance
  | advanced e =>
    rw [Events.popStep, append_returnedBy_none]
    exact ⟨n, h.goto rfl rfl⟩
  | gotPopped e popped => exact ⟨n, h.finish⟩

end Invariant

def Safe (s : State) : Prop := ∃ n, Inv s.q s.pc s.accepted s.returned s.attempts n

theorem start_safe (q : Queue) : Safe (start q) := ⟨0, eventQueueInit_inv q⟩

theorem Safe.step {s : State} (h : Safe s) (a : Access) : Safe (step s a) := by
  obtain ⟨n, h⟩ := h
  cases a with
  | push e =>
    by_cases he : e.type = 0
    · have hpush : eventQueuePush s.q e = (false, s.q) := if_pos (.inr he)
      have hstep : Events.step s (.push e) = ⟨s.q, s.pc, s.outcomes ++ [.refused e]⟩ := by
        rw [Events.step, hpush]
        rfl
      rw [hstep]
      exact ⟨n, by simpa [Outcome.accepted?, Outcome.returned?, Outcome.attempt, he] using h⟩
    have hpush := h.eventQueuePush he
    split_ifs at hpush with hfull
    · have hstep : Events.step s (.push e) =
          ⟨(eventQueuePush s.q e).2, s.pc, s.outcomes ++ [.refused e]⟩ := by
        rw [Events.step, hpush.1]
        rfl
      rw [hstep]
      exact ⟨n, by simpa [Outcome.accepted?, Outcome.returned?, Outcome.attempt, he] using hpush.2⟩
    have hstep : Events.step s (.push e) =
        ⟨(eventQueuePush s.q e).2, s.pc, s.outcomes ++ [.accepted e]⟩ := by
      rw [Events.step, hpush.1]
      rfl
    rw [hstep]
    exact ⟨n + 1,
      by simpa [Outcome.accepted?, Outcome.returned?, Outcome.attempt, he] using hpush.2⟩
  | pop event =>
    obtain ⟨n', hpop⟩ := h.popStep event
    generalize hr : popStep s.q event s.pc = r at hpop
    obtain ⟨pc, q, result⟩ := r
    have hstep : Events.step s (.pop event) = ⟨q, pc, s.outcomes ++ (result.map .popped).toList⟩ := by
      rw [Events.step, hr]
    rw [hstep]
    cases result with
    | none => exact ⟨n', by simpa [State.accepted, State.returned, State.attempts] using hpop⟩
    | some e =>
      exact ⟨n', by simpa [Outcome.accepted?, Outcome.returned?, Outcome.attempt, returnedBy]
        using hpop⟩

/-- The queue is a bounded FIFO without loss over every interleaving of the pushes with the accesses
of the consumer. The counters are counted modulo `2 ^ 64`. -/
theorem event_queue_fifo (q : Queue) (accesses : List Access) :
    let s := accesses.foldl step (start q)
    s.returned <+: s.accepted ∧
    (s.pc = .idle → (s.q.pushed + (2 ^ 64 - s.q.popped)) % 2 ^ 64 = eventQueueCount s.q) ∧
    eventQueueCount s.q ≤ 255 ∧
    (∀ e : Event, e.type ≠ 0 → (eventQueuePush s.q e).1 = false → eventQueueCount s.q = 255) ∧
    (s.q.pushed + s.q.dropped) % 2 ^ 64 = s.attempts % 2 ^ 64 := by
  intro s
  obtain ⟨n, h⟩ : Safe s :=
    foldl_invariant (I := Safe) (fun s a hs ↦ hs.step a) (start_safe q) accesses
  have hcount := h.count
  refine ⟨?_, ?_, ?_, ?_, h.attempts⟩
  · rw [h.content, List.append_assoc]
    exact List.prefix_append _ _
  · intro hidle
    have hlength := congrArg List.length h.content
    rw [hidle] at hlength
    simp only [Pop.released, List.append_nil, List.length_append, length_ringView] at hlength
    rw [h.eventQueueCount, h.pushed, h.popped, hlength]
    omega
  · rw [h.eventQueueCount]
    omega
  intro e he hrefused
  have hpush := h.eventQueuePush he
  split_ifs at hpush with hfull
  · rw [h.eventQueueCount, hfull]
  rw [hpush.1] at hrefused
  cases hrefused

def zeroQueue : Queue := ⟨fun _ ↦ ⟨0, 0, 0⟩, 0, 0, 0, 0, 0, false⟩

/-- A scancode is pushed and popped; a mouse byte comes while the consumer copies it. -/
def scancodeRun : List Access :=
  [.push ⟨2, 1, 0x1E⟩, .pop true, .pop true, .pop true, .pop true, .push ⟨3, 2, 8⟩, .pop true,
    .pop true, .pop true, .pop true, .pop true]

theorem event_queue_fifo_scancode :
    let s := scancodeRun.foldl step (start zeroQueue)
    s.returned = [⟨2, 1, 0x1E⟩] ∧ s.accepted = [⟨2, 1, 0x1E⟩, ⟨3, 2, 8⟩] ∧
      (s.q.pushed + (2 ^ 64 - s.q.popped)) % 2 ^ 64 = eventQueueCount s.q := by
  refine ⟨by decide, by decide, ?_⟩
  exact (event_queue_fifo zeroQueue scancodeRun).2.1 (by decide)

end NexusOS.Core.Events
