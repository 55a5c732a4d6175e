import NexusOS.Core.Threads

namespace NexusOS.Core.Sched

variable {V : Type*}

/-- The calls into the scheduler, and those into the process layer that change what it reads. -/
inductive Op
  | threadCreate (entry : Option Entry) (arg : ℕ)
  | threadCreateUserProcess (pid : ℕ)
  | threadYield
  | threadSleepMs (milliseconds : ℕ)
  | threadWakeup (id : ℕ)
  | threadBlockOnWaitQueue (queue : Option WaitQueue)
  | schedulerWakeThread (id : ℕ)
  | threadExit
  | schedulerTickIrq
  | schedulerRequestReschedule
  | schedulerProcess
  | processCreate (parentPid : ℕ)
  | processExit (pid : ℕ)

def call (m : Platform V) (s : System V) : Op → Except Stop (System V)
  | .threadCreate entry arg => .ok (threadCreate m s entry arg).2
  | .threadCreateUserProcess pid => .ok (threadCreateUserProcess m s pid).2
  | .threadYield => threadYield m s
  | .threadSleepMs milliseconds => threadSleepMs m s milliseconds
  | .threadWakeup id =>
    match threadWakeup s.sched id with
    | .error e => .error e
    | .ok r => .ok { s with sched := r.2 }
  | .threadBlockOnWaitQueue queue =>
    match threadBlockOnWaitQueue m s queue with
    | .error e => .error e
    | .ok r => .ok r.2.2
  | .schedulerWakeThread id => .ok { s with sched := (schedulerWakeThread s.sched id).2 }
  | .threadExit => threadExit m s
  | .schedulerTickIrq => .ok (schedulerTickIrq m s)
  | .schedulerRequestReschedule => .ok { s with sched := schedulerRequestReschedule s.sched }
  | .schedulerProcess =>
    match schedulerProcess m s with
    | .error e => .error e
    | .ok r => .ok r.2
  | .processCreate parentPid =>
    .ok { s with kernel := (Core.processCreate m.toMemory s.kernel s.sched.ticks parentPid).2 }
  | .processExit pid => .ok { s with kernel := (processExitWithCode s.kernel pid 0 0).2 }

/-- The system after `scheduler_init`, over any state of the other layers. -/
def initSystem (s : Scheduler) (k : Kernel V) (timerHz rsp : ℕ) : System V :=
  ⟨schedulerInit s timerHz rsp, k⟩

def zeroTcb : Tcb := ⟨0, 0, 0, 0, 0, 0, 0, 0, 0, .unused, none, 0, none, none⟩

def zeroScheduler : Scheduler :=
  ⟨0, 0, 0, 0, 0, 0, false, false, false, fun _ ↦ zeroTcb, none, none, none, none, 0, 0, 0, 1⟩

end NexusOS.Core.Sched
