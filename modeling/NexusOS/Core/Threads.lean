import NexusOS.Core.Scheduler

namespace NexusOS.Core.Sched

variable {V : Type*}

/-- What the scheduler calls of the heap, the page tables and the watchdog. -/
structure Platform (V : Type*) extends Memory V where
  heapIsReady : V → Bool
  kmalloc : ℕ → V → ℕ × V
  kfree : ℕ → V → V
  usermodeReady : V → Bool
  pagingKernelCr3 : V → ℕ
  pagingSwitchCr3 : ℕ → V → V
  nexusWatchdogTimerTick : V → V

/-- The scheduler with the process and IPC layers and the memory below them. -/
structure System (V : Type*) where
  sched : Scheduler
  kernel : Kernel V

def calculateQuantumTicks (timerHz : ℕ) : ℕ :=
  let ticks := timerHz * 100 / 1000
  min (if ticks = 0 then 1 else ticks) 0xFFFFFFFF

def clearedTcb (tcb : Tcb) : Tcb :=
  { tcb with magic := 0, state := .unused, next := none, waitNext := none, wakeTick := 0 }

def firstTcb (tcb : Tcb) (rsp : ℕ) : Tcb :=
  { tcb with
    magic := threadMagic
    id := 0
    processPid := 0
    rsp := rsp
    stackBase := 0
    stackSize := 0
    switches := 0
    runtimeTicks := 0
    wakeTick := 0
    state := .running
    entry := none
    arg := 0
    next := none
    waitNext := none }

def schedulerInit (s : Scheduler) (timerHz rsp : ℕ) : Scheduler :=
  let hz := if timerHz = 0 then 100 else timerHz
  { ticks := 0
    quantumExpirations := 0
    contextSwitches := 0
    quantumTicks := calculateQuantumTicks hz
    quantumRemaining := calculateQuantumTicks hz
    timerHz := hz
    reschedulePending := false
    wakeupPending := false
    ready := true
    tcbs := fun i ↦ if i = 0 then firstTcb (clearedTcb (s.tcbs i)) rsp else clearedTcb (s.tcbs i)
    current := some 0
    readyHead := none
    readyTail := none
    sleepHead := none
    threadCount := 1
    readyCount := 0
    sleepingCount := 0
    nextTid := 1 }

def findThreadById (s : Scheduler) (id : ℕ) : Option (Fin 8) :=
  (List.finRange 8).find? fun t ↦ (s.tcbs t).magic == threadMagic && (s.tcbs t).id == id

section Wake

def hintWakeup (s : Scheduler) : Scheduler :=
  { s with wakeupPending := true, reschedulePending := true }

def wakeBlocked (s : Scheduler) (t : Fin 8) : Scheduler :=
  hintWakeup (readyAppend (setState s t .ready) t)

def schedulerWakeThreadLocked (s : Scheduler) (id : ℕ) : Scheduler :=
  match findThreadById s id with
  | none => s
  | some t => if (s.tcbs t).state ≠ .blocked then s else wakeBlocked s t

def schedulerWakeThread (s : Scheduler) (id : ℕ) : Bool × Scheduler :=
  if !s.ready ∨ id = 0 then (false, s)
  else
    match findThreadById s id with
    | none => (false, s)
    | some t =>
      if (s.tcbs t).state ≠ .blocked then (false, s) else (true, schedulerWakeThreadLocked s id)

def threadWakeup (s : Scheduler) (id : ℕ) : Except Stop (Bool × Scheduler) :=
  if !s.ready then .ok (false, s)
  else
    match findThreadById s id with
    | none => .ok (false, s)
    | some t =>
      if (s.tcbs t).state ≠ .sleeping then .ok (false, s)
      else
        match wakeThreadLocked s t with
        | .error e => .error e
        | .ok s => .ok (true, hintWakeup s)

end Wake

section Process

variable (m : Platform V)

def processAccountCpuTick (k : Kernel V) (pid : ℕ) : Kernel V :=
  match processGet k pid with
  | none => k
  | some i =>
    if (k.processes i).state = .running then
      k.setProcess i { k.processes i with cpuTicks := ((k.processes i).cpuTicks + 1) % 2 ^ 64 }
    else k

def countTick (s : Scheduler) : Scheduler := { s with ticks := (s.ticks + 1) % 2 ^ 64 }

def chargeTick (s : System V) : System V :=
  match s.sched.current with
  | none => s
  | some c =>
    let pid := (s.sched.tcbs c).processPid
    ⟨s.sched.modTcb c fun tcb ↦ { tcb with runtimeTicks := (tcb.runtimeTicks + 1) % 2 ^ 64 },
      if pid ≠ 0 then processAccountCpuTick s.kernel pid else s.kernel⟩

def quantumTick (s : Scheduler) : Scheduler :=
  let remaining := s.quantumRemaining - 1
  if remaining = 0 then
    { s with
      quantumExpirations := (s.quantumExpirations + 1) % 2 ^ 64
      reschedulePending := true
      quantumRemaining := s.quantumTicks }
  else { s with quantumRemaining := remaining }

def schedulerTickIrq (s : System V) : System V :=
  if !s.sched.ready then s
  else
    let s := chargeTick { s with sched := countTick s.sched }
    let kernel := { s.kernel with vm := m.nexusWatchdogTimerTick s.kernel.vm }
    let sched := quantumTick s.sched
    ⟨if due sched sched.sleepHead then hintWakeup sched else sched, kernel⟩

def reapedTcb (tcb : Tcb) : Tcb :=
  { tcb with
    stackBase := 0
    stackSize := 0
    rsp := 0
    entry := none
    arg := 0
    next := none
    waitNext := none
    wakeTick := 0
    magic := 0
    state := .unused }

def releaseProcess (k : Kernel V) (pid tid : ℕ) : Bool × Kernel V :=
  if pid ≠ 0 then processReap m.toMemory k pid tid else (true, k)

def releaseStack (k : Kernel V) (stackBase : ℕ) : Kernel V :=
  if stackBase ≠ 0 then { k with vm := m.kfree stackBase k.vm } else k

def reapZombie (s : System V) (t : Fin 8) : System V :=
  let tcb := s.sched.tcbs t
  if some t = s.sched.current ∨ tcb.magic ≠ threadMagic ∨ tcb.state ≠ .zombie then s
  else
    let r := releaseProcess m s.kernel tcb.processPid tcb.id
    if !r.1 then ⟨s.sched, r.2⟩
    else ⟨s.sched.modTcb t reapedTcb, releaseStack m r.2 tcb.stackBase⟩

def reapZombies (s : System V) : System V := [1, 2, 3, 4, 5, 6, 7].foldl (reapZombie m) s

/-- The page tables to load for a thread of process `pid` and the process layer told of it, or
nothing when the process cannot run. -/
def enterProcess (k : Kernel V) (pid : ℕ) : Option (ℕ × Kernel V) :=
  if pid ≠ 0 then
    match processGet k pid with
    | none => none
    | some i =>
      let p := k.processes i
      if p.state ≠ .zombie ∧ p.addressSpaceCr3 ≠ 0 then
        some (p.addressSpaceCr3, (processSetCurrent k p.pid).2)
      else none
  else some (m.pagingKernelCr3 k.vm, processClearCurrent k)

def countSwitch (s : Scheduler) (old next : Fin 8) : Scheduler :=
  let s := s.modTcb old fun tcb ↦ { tcb with switches := (tcb.switches + 1) % 2 ^ 64 }
  let s := s.modTcb next fun tcb ↦ { tcb with switches := (tcb.switches + 1) % 2 ^ 64 }
  { s with contextSwitches := (s.contextSwitches + 1) % 2 ^ 64 }

/-- The end of `scheduler_process` once another thread than the old one has been picked. The flag
says that the processor has gone over to it. -/
def switchTo (s : System V) (old next : Fin 8) : Bool × System V :=
  let sched := { setState s.sched next .running with current := some next }
  match enterProcess m s.kernel (sched.tcbs next).processPid with
  | none =>
    (false, ⟨setState { setState sched next .zombie with current := some old } old .running,
      s.kernel⟩)
  | some (cr3, k) =>
    (true, ⟨countSwitch sched old next, { k with vm := m.pagingSwitchCr3 cr3 k.vm }⟩)

def resume (s : System V) (old next : Fin 8) : Bool × System V :=
  if next = old then (false, { s with sched := setState s.sched old .running })
  else switchTo m s old next

/-- The middle of `scheduler_process`: the old thread is queued again if it was running, and the
head of the ready list is picked. -/
def reschedule (s : System V) (old : Fin 8) : Except Stop (Bool × System V) :=
  let sched := if (s.sched.tcbs old).state = .running then
    readyAppend (setState s.sched old .ready) old else s.sched
  let r := readyPop sched
  match r.1 with
  | none =>
    if (r.2.tcbs old).state = .ready then
      .ok (false, { s with sched := setState r.2 old .running })
    else .error .halted
  | some next => .ok (resume m { s with sched := r.2 } old next)

def clearPending (s : Scheduler) : Scheduler :=
  { s with reschedulePending := false, wakeupPending := false }

def schedulerProcess (s : System V) : Except Stop (Bool × System V) :=
  if !s.sched.ready then .ok (false, s)
  else
    match wakeDueThreads s.sched with
    | .error e => .error e
    | .ok sched =>
      let s := reapZombies m { s with sched := sched }
      if !(s.sched.reschedulePending || s.sched.wakeupPending) then .ok (false, s)
      else
        let s := { s with sched := clearPending s.sched }
        match s.sched.current with
        | none => .ok (false, s)
        | some old => reschedule m s old

end Process

section Threads

variable (m : Platform V)

def initThreadStack (tcb : Tcb) : Tcb :=
  let top := (tcb.stackBase + tcb.stackSize) % 2 ^ 64 / 16 * 16
  { tcb with rsp := (top + 2 ^ 64 - 64) % 2 ^ 64 }

def createdTcb (tcb : Tcb) (id stack : ℕ) (entry : Entry) (arg : ℕ) : Tcb :=
  initThreadStack { tcb with
    magic := threadMagic
    id := id
    processPid := 0
    stackBase := stack
    stackSize := schedStackSize
    switches := 0
    runtimeTicks := 0
    wakeTick := 0
    state := .ready
    entry := some entry
    arg := arg
    next := none
    waitNext := none }

def findFreeTcb (s : Scheduler) : Option (Fin 8) :=
  [1, 2, 3, 4, 5, 6, 7].find? fun t ↦ (s.tcbs t).magic == 0

def threadCreate (s : System V) (entry : Option Entry) (arg : ℕ) : ℕ × System V :=
  match entry with
  | none => (0, s)
  | some entry =>
    if !s.sched.ready ∨ !m.heapIsReady s.kernel.vm then (0, s)
    else
      match findFreeTcb s.sched with
      | none => (0, s)
      | some t =>
        let r := m.kmalloc schedStackSize s.kernel.vm
        let k := { s.kernel with vm := r.2 }
        if r.1 = 0 then (0, { s with kernel := k })
        else
          let id := s.sched.nextTid
          let sched := { s.sched with nextTid := (id + 1) % 2 ^ 64 }
          let sched := sched.modTcb t fun tcb ↦ createdTcb tcb id r.1 entry arg
          let sched := readyAppend sched t
          (id, ⟨{ sched with threadCount := (sched.threadCount + 1) % 2 ^ 32 }, k⟩)

def bindProcess (s : System V) (t : Fin 8) (i : Fin 8) (pid tid : ℕ) : System V :=
  let sched := s.sched.modTcb t fun tcb ↦ { tcb with processPid := pid }
  let p := s.kernel.processes i
  ⟨sched, s.kernel.setProcess i { p with
    kernelStack := ((sched.tcbs t).stackBase + (sched.tcbs t).stackSize) % 2 ^ 64
    schedulerThreadId := tid
    flags := p.flags ||| 4 }⟩

def threadCreateUserProcess (s : System V) (pid : ℕ) : ℕ × System V :=
  if !s.sched.ready ∨ pid = 0 ∨ !m.heapIsReady s.kernel.vm ∨ !m.usermodeReady s.kernel.vm then
    (0, s)
  else
    match processGet s.kernel pid with
    | none => (0, s)
    | some i =>
      if (s.kernel.processes i).state = .zombie ∨ (s.kernel.processes i).schedulerThreadId ≠ 0 then
        (0, s)
      else
        let r := threadCreate m s (some .userProcessBootstrap) pid
        if r.1 = 0 then (0, r.2)
        else
          match [1, 2, 3, 4, 5, 6, 7].find? fun t ↦
              (r.2.sched.tcbs t).magic == threadMagic && (r.2.sched.tcbs t).id == r.1 with
          | none => (0, r.2)
          | some t => (r.1, bindProcess r.2 t i pid r.1)

def setPending (s : Scheduler) : Scheduler := { s with reschedulePending := true }

def dropThread (s : Scheduler) : Scheduler := { s with threadCount := s.threadCount - 1 }

def schedulerRequestReschedule (s : Scheduler) : Scheduler := if s.ready then setPending s else s

def threadYield (s : System V) : Except Stop (System V) :=
  if !s.sched.ready then .ok s
  else
    match schedulerProcess m { s with sched := schedulerRequestReschedule s.sched } with
    | .error e => .error e
    | .ok r => .ok r.2

def sleepTicks (timerHz milliseconds : ℕ) : ℕ :=
  let ticks := (milliseconds * timerHz + 999) % 2 ^ 64 / 1000
  if ticks = 0 then 1 else ticks

def threadSleepMs (s : System V) (milliseconds : ℕ) : Except Stop (System V) :=
  match s.sched.current with
  | none => .ok s
  | some c =>
    if !s.sched.ready ∨ (s.sched.tcbs c).id = 0 then .ok s
    else
      let tick := (s.sched.ticks + sleepTicks s.sched.timerHz milliseconds) % 2 ^ 64
      match sleepInsert (setState (setWakeTick s.sched c tick) c .sleeping) c with
      | .error e => .error e
      | .ok sched =>
        match schedulerProcess m { s with sched := setPending sched } with
        | .error e => .error e
        | .ok r => .ok r.2

/-- A null queue is `none`; the answer comes with the queue as the thread leaves it. -/
def threadBlockOnWaitQueue (s : System V) (queue : Option WaitQueue) :
    Except Stop (Bool × Option WaitQueue × System V) :=
  match queue, s.sched.current with
  | some q, some c =>
    let tid := (s.sched.tcbs c).id
    if !s.sched.ready ∨ tid = 0 then .ok (false, queue, s)
    else
      let q := if schedulerWaitQueueContains q tid then q else schedulerWaitQueuePushLocked q tid
      match schedulerProcess m { s with sched := setPending (setState s.sched c .blocked) } with
      | .error e => .error e
      | .ok r => .ok (true, some q, r.2)
  | _, _ => .ok (false, queue, s)

/-- A thread whose `scheduler_process` returns stops the processor. -/
def threadExit (s : System V) : Except Stop (System V) :=
  match s.sched.current with
  | none => .ok s
  | some c =>
    if !s.sched.ready ∨ (s.sched.tcbs c).id = 0 then .ok s
    else
      let sched := setPending (dropThread (setState s.sched c .zombie))
      match schedulerProcess m { s with sched := sched } with
      | .error e => .error e
      | .ok r => if r.1 then .ok r.2 else .error .halted

end Threads

end NexusOS.Core.Sched
