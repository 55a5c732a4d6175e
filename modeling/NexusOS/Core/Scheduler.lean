import NexusOS.Core.Ipc

namespace NexusOS.Core.Sched

variable {V : Type*}

def threadMagic : ℕ := 0x4E58544852454144

def schedStackSize : ℕ := 16384

inductive ThreadState
  | unused
  | ready
  | running
  | sleeping
  | blocked
  | zombie
  deriving DecidableEq

/-- What a thread starts with: a function of the kernel or the bootstrap of a user process. -/
inductive Entry
  | function (address : ℕ)
  | userProcessBootstrap
  deriving DecidableEq

/-- A thread control block; pointers to other blocks are positions in the table. -/
structure Tcb where
  rsp : ℕ
  stackBase : ℕ
  stackSize : ℕ
  id : ℕ
  processPid : ℕ
  switches : ℕ
  runtimeTicks : ℕ
  wakeTick : ℕ
  magic : ℕ
  state : ThreadState
  entry : Option Entry
  arg : ℕ
  next : Option (Fin 8)
  waitNext : Option (Fin 8)
  deriving DecidableEq

structure Scheduler where
  ticks : ℕ
  quantumExpirations : ℕ
  contextSwitches : ℕ
  quantumTicks : ℕ
  quantumRemaining : ℕ
  timerHz : ℕ
  reschedulePending : Bool
  wakeupPending : Bool
  ready : Bool
  tcbs : Fin 8 → Tcb
  current : Option (Fin 8)
  readyHead : Option (Fin 8)
  readyTail : Option (Fin 8)
  sleepHead : Option (Fin 8)
  threadCount : ℕ
  readyCount : ℕ
  sleepingCount : ℕ
  nextTid : ℕ

/-- The processor stops for good, or a loop over a list that never ends. -/
inductive Stop
  | halted
  | spinning
  deriving DecidableEq

def Scheduler.modTcb (s : Scheduler) (t : Fin 8) (f : Tcb → Tcb) : Scheduler :=
  { s with tcbs := Function.update s.tcbs t (f (s.tcbs t)) }

@[simp]
theorem modTcb_tcbs (s : Scheduler) (t i : Fin 8) (f : Tcb → Tcb) :
    (s.modTcb t f).tcbs i = if i = t then f (s.tcbs t) else s.tcbs i := by
  simp [Scheduler.modTcb, Function.update_apply]

section Lists

def setNext (s : Scheduler) (t : Fin 8) (p : Option (Fin 8)) : Scheduler :=
  s.modTcb t fun tcb ↦ { tcb with next := p }

def setState (s : Scheduler) (t : Fin 8) (state : ThreadState) : Scheduler :=
  s.modTcb t fun tcb ↦ { tcb with state := state }

def setWakeTick (s : Scheduler) (t : Fin 8) (tick : ℕ) : Scheduler :=
  s.modTcb t fun tcb ↦ { tcb with wakeTick := tick }

variable (s : Scheduler) (t : Fin 8)

def linkReady : Scheduler :=
  match s.readyTail with
  | none => { s with readyHead := some t, readyTail := some t }
  | some tail => { setNext s tail (some t) with readyTail := some t }

def countReady : Scheduler := { s with readyCount := (s.readyCount + 1) % 2 ^ 32 }

def readyAppend : Scheduler := countReady (linkReady (setNext s t none) t)

def readyPop : Option (Fin 8) × Scheduler :=
  match s.readyHead with
  | none => (none, s)
  | some t =>
    let head := (s.tcbs t).next
    let tail := if head = none then none else s.readyTail
    (some t, { setNext s t none with
      readyHead := head
      readyTail := tail
      readyCount := s.readyCount - 1 })

/-- The cell behind which a thread that wakes at `tick` is linked in, looked for from `cursor` on. -/
def sleepCursor (tcbs : Fin 8 → Tcb) (tick : ℕ) : ℕ → Fin 8 → Except Stop (Fin 8)
  | 0, _ => .error .spinning
  | n + 1, cursor =>
    match (tcbs cursor).next with
    | none => .ok cursor
    | some c => if (tcbs c).wakeTick ≤ tick then sleepCursor tcbs tick n c else .ok cursor

def countSleeper : Scheduler := { s with sleepingCount := (s.sleepingCount + 1) % 2 ^ 32 }

def sleepInsert : Except Stop Scheduler :=
  let s := setNext s t none
  match s.sleepHead with
  | none => .ok (countSleeper { s with sleepHead := some t })
  | some head =>
    if (s.tcbs t).wakeTick < (s.tcbs head).wakeTick then
      .ok (countSleeper { setNext s t (some head) with sleepHead := some t })
    else
      match sleepCursor s.tcbs (s.tcbs t).wakeTick 8 head with
      | .error e => .error e
      | .ok cursor =>
        .ok (countSleeper (setNext (setNext s t (s.tcbs cursor).next) cursor (some t)))

def uncountSleeper : Scheduler := { s with sleepingCount := s.sleepingCount - 1 }

/-- The thread at the head of the sleep list moves to the end of the ready list. -/
def wakeHead : Scheduler :=
  let s := setNext { s with sleepHead := (s.tcbs t).next } t none
  readyAppend (setState (uncountSleeper s) t .ready) t

def due (head : Option (Fin 8)) : Bool :=
  match head with
  | none => false
  | some t => (s.tcbs t).wakeTick ≤ s.ticks

def wakeDueLoop : ℕ → Scheduler → Except Stop Scheduler
  | 0, _ => .error .spinning
  | n + 1, s =>
    match s.sleepHead with
    | none => .ok s
    | some t => if due s (some t) then wakeDueLoop n (wakeHead s t) else .ok s

def wakeDueThreads : Except Stop Scheduler :=
  match wakeDueLoop 9 s with
  | .error e => .error e
  | .ok s => .ok { s with wakeupPending := due s s.sleepHead }

/-- A link is the head of the sleep list or the `next` field of a cell. -/
def readLink : Option (Fin 8) → Option (Fin 8)
  | none => s.sleepHead
  | some c => (s.tcbs c).next

def writeLink (link p : Option (Fin 8)) : Scheduler :=
  match link with
  | none => { s with sleepHead := p }
  | some c => setNext s c p

/-- The first link from `link` on that is null or leads to `t`. -/
def findLink : ℕ → Option (Fin 8) → Except Stop (Option (Fin 8))
  | 0, _ => .error .spinning
  | n + 1, link =>
    match readLink s link with
    | none => .ok link
    | some c => if c = t then .ok link else findLink n (some c)

/-- The sleeper `t` behind `link` moves to the end of the ready list. -/
def wakeBehind (link : Option (Fin 8)) : Scheduler :=
  let s := uncountSleeper (setNext (writeLink s link (s.tcbs t).next) t none)
  readyAppend (setState (setWakeTick s t 0) t .ready) t

def wakeThreadLocked : Except Stop Scheduler :=
  if (s.tcbs t).state ≠ .sleeping then .ok s
  else
    match findLink s t 9 none with
    | .error e => .error e
    | .ok link => .ok (if readLink s link = some t then wakeBehind s t link else s)

end Lists

section WaitQueue

structure WaitQueue where
  ids : ℕ → ℕ
  head : ℕ
  count : ℕ

def schedulerWaitQueueInit : WaitQueue := ⟨fun _ ↦ 0, 0, 0⟩

def schedulerWaitQueueContains (q : WaitQueue) (id : ℕ) : Bool :=
  id != 0 && (List.range q.count).any fun i ↦ q.ids ((q.head + i) % 2 ^ 32 % 8) == id

def schedulerWaitQueuePushLocked (q : WaitQueue) (id : ℕ) : WaitQueue :=
  if id = 0 ∨ 8 ≤ q.count ∨ schedulerWaitQueueContains q id then q
  else { q with
    ids := Function.update q.ids ((q.head + q.count) % 2 ^ 32 % 8) id
    count := q.count + 1 }

def schedulerWaitQueuePopLocked (q : WaitQueue) : ℕ × WaitQueue :=
  if q.count = 0 then (0, q)
  else (q.ids q.head, { q with
    ids := Function.update q.ids q.head 0
    head := (q.head + 1) % 2 ^ 32 % 8
    count := q.count - 1 })

end WaitQueue

end NexusOS.Core.Sched
