import NexusOS.Core.SchedulerRun
import NexusOS.Core.SyscallEffects
import NexusOS.Fs.MountResolve

namespace NexusOS.Core

open Fs Sched
open Relation (ReflTransGen)

variable {V F : Type*} {m : Hardware V} {fat : Fat F} {g : Garbage} {s : Machine V F}
  {k k' k'' : Kernel V} {R : ℕ → Prop} {i : Fin 8} {pid : ℕ}

section Events

/-- What happens on the machine: a call into the scheduler or the process layer, a system call, or
an interrupt with which a process asks for one. -/
inductive Event
  | sched (op : Sched.Op)
  | dispatch (g : Garbage) (number a0 a1 a2 a3 : ℕ)
  | interrupt (g : Garbage) (f : Frame)

def Machine.call (m : Hardware V) (fat : Fat F) (s : Machine V F) :
    Event → Except Stop (Machine V F)
  | .sched op =>
    match Sched.call m.toPlatform s.system op with
    | .error e => .error e
    | .ok sys => .ok { s with system := sys }
  | .dispatch g number a0 a1 a2 a3 => .ok (syscallDispatch m fat g s number a0 a1 a2 a3).2
  | .interrupt g f =>
    match syscallInterruptHandler m fat g s f with
    | .error e => .error e
    | .ok r => .ok r.2.2

def Machine.run (m : Hardware V) (fat : Fat F) (s : Machine V F) (es : List Event) :
    Except Stop (Machine V F) :=
  es.foldlM (Machine.call m fat) s

theorem Machine.run_nil (s : Machine V F) : s.run m fat [] = .ok s := rfl

theorem Machine.run_cons {e : Event} {es : List Event} {s' : Machine V F} :
    s.run m fat (e :: es) = .ok s' ↔
      ∃ s₁, s.call m fat e = .ok s₁ ∧ s₁.run m fat es = .ok s' := by
  rw [run, List.foldlM_cons]
  cases s.call m fat e with
  | error e =>
    constructor
    · intro h
      cases h
    intro h
    obtain ⟨s₁, h, -⟩ := h
    cases h
  | ok s₁ =>
    constructor
    · intro h
      exact ⟨s₁, rfl, h⟩
    intro h
    obtain ⟨s₂, h, hrun⟩ := h
    obtain rfl := Except.ok.inj h
    exact hrun

theorem Machine.run_append {es es' : List Event} {s' : Machine V F} :
    s.run m fat (es ++ es') = .ok s' ↔
      ∃ s₁, s.run m fat es = .ok s₁ ∧ s₁.run m fat es' = .ok s' := by
  induction es generalizing s with
  | nil =>
    constructor
    · intro h
      exact ⟨s, rfl, h⟩
    intro h
    obtain ⟨s₁, h, hrun⟩ := h
    obtain rfl := Except.ok.inj h
    exact hrun
  | cons e es ih =>
    simp only [List.cons_append, run_cons, ih]
    constructor
    · intro h
      obtain ⟨s₁, hcall, s₂, hrun, hrest⟩ := h
      exact ⟨s₂, ⟨s₁, hcall, hrun⟩, hrest⟩
    intro h
    obtain ⟨s₂, ⟨s₁, hcall, hrun⟩, hrest⟩ := h
    exact ⟨s₁, hcall, s₂, hrun, hrest⟩

end Events

section Edits

/-- The changes of the process table other than a `process_create`; processes with an identifier in
`R` may be reaped. -/
inductive Edit (m : Memory V) (R : ℕ → Prop) : Kernel V → Kernel V → Prop
  | update {k k' : Kernel V} {P : List Str} (h : Update P k k') : Edit m R k k'
  | setCurrent (k : Kernel V) (pid : ℕ) : Edit m R k (processSetCurrent k pid).2
  | clearCurrent (k : Kernel V) : Edit m R k (processClearCurrent k)
  | exit (k : Kernel V) (pid code reason : ℕ) : Edit m R k (processExitWithCode k pid code reason).2
  | reap (k : Kernel V) (pid tid : ℕ) (h : R pid) : Edit m R k (processReap m k pid tid).2

def Edits (m : Memory V) (R : ℕ → Prop) : Kernel V → Kernel V → Prop := ReflTransGen (Edit m R)

theorem Edits.of_update {m : Memory V} {P : List Str} (h : Update P k k') :
    Edits m R k k' :=
  .single (.update h)

theorem Edits.trans {m : Memory V} (h : Edits m R k k') (h' : Edits m R k' k'') :
    Edits m R k k'' :=
  ReflTransGen.trans h h'

theorem Edits.invariant {m : Memory V} {I : Kernel V → Prop} (h : Edits m R k k')
    (hstep : ∀ k k', Edit m R k k' → I k → I k') (hk : I k) : I k' := by
  induction h with
  | refl => exact hk
  | tail _ hedit ih => exact hstep _ _ hedit ih

end Edits

section Scheduling

variable {m : Platform V} {sys sys' : System V}

/-- The processes of the threads that `reap_zombies` finds are those of `R`. -/
def ReapsOnly (R : ℕ → Prop) (s : Scheduler) : Prop :=
  ∀ t, some t ≠ s.current → (s.tcbs t).magic = threadMagic → (s.tcbs t).state = .zombie →
    (s.tcbs t).processPid ≠ 0 → R (s.tcbs t).processPid

/-- The current thread stays, and a thread that was not a zombie becomes one only if it is the
current one. -/
structure Awake (s s' : Scheduler) : Prop where
  current : s'.current = s.current
  magic : ∀ t, (s'.tcbs t).magic = (s.tcbs t).magic
  processPid : ∀ t, (s'.tcbs t).processPid = (s.tcbs t).processPid
  zombie : ∀ t, some t ≠ s.current → (s'.tcbs t).state = .zombie → (s.tcbs t).state = .zombie

theorem Awake.refl (s : Scheduler) : Awake s s := ⟨rfl, fun _ ↦ rfl, fun _ ↦ rfl, fun _ _ h ↦ h⟩

theorem Awake.trans {s s' s'' : Scheduler} (h : Awake s s') (h' : Awake s' s'') : Awake s s'' :=
  ⟨h'.current.trans h.current, fun t ↦ (h'.magic t).trans (h.magic t),
    fun t ↦ (h'.processPid t).trans (h.processPid t),
    fun t ht hz ↦ h.zombie t ht (h'.zombie t (by rwa [h.current]) hz)⟩

theorem Awake.reapsOnly {s s' : Scheduler} (h : Awake s s') (hR : ReapsOnly R s) :
    ReapsOnly R s' := by
  intro t ht hm hz h0
  rw [h.current] at ht
  rw [h.magic] at hm
  rw [h.processPid] at h0 ⊢
  exact hR t ht hm (h.zombie t ht hz) h0

theorem Awake.modTcb (s : Scheduler) (t : Fin 8) {f : Tcb → Tcb}
    (hm : (f (s.tcbs t)).magic = (s.tcbs t).magic)
    (hp : (f (s.tcbs t)).processPid = (s.tcbs t).processPid)
    (hz : some t ≠ s.current → (f (s.tcbs t)).state = .zombie → (s.tcbs t).state = .zombie) :
    Awake s (s.modTcb t f) := by
  refine ⟨rfl, ?_, ?_, ?_⟩
  · intro i
    by_cases hi : i = t <;> simp [hi, hm]
  · intro i
    by_cases hi : i = t <;> simp [hi, hp]
  intro i hi hzi
  by_cases hit : i = t
  · subst hit
    rw [modTcb_tcbs, if_pos rfl] at hzi
    exact hz hi hzi
  · rwa [modTcb_tcbs, if_neg hit] at hzi

theorem Awake.setNext (s : Scheduler) (t : Fin 8) (p : Option (Fin 8)) :
    Awake s (setNext s t p) :=
  .modTcb s t rfl rfl fun _ h ↦ h

theorem Awake.setState (s : Scheduler) (t : Fin 8) {x : ThreadState}
    (hx : x ≠ .zombie ∨ some t = s.current) : Awake s (setState s t x) :=
  .modTcb s t rfl rfl fun ht h ↦ absurd h (hx.resolve_right ht)

theorem Awake.of_tcbs {s s' : Scheduler} (hc : s'.current = s.current) (ht : s'.tcbs = s.tcbs) :
    Awake s s' := by
  refine ⟨hc, ?_, ?_, ?_⟩ <;> intro t <;> rw [ht]
  exact fun _ h ↦ h

theorem Awake.linkReady (s : Scheduler) (t : Fin 8) : Awake s (linkReady s t) := by
  unfold Sched.linkReady
  split
  · exact .of_tcbs rfl rfl
  · exact (Awake.setNext s _ _).trans (.of_tcbs rfl rfl)

theorem Awake.readyAppend (s : Scheduler) (t : Fin 8) : Awake s (readyAppend s t) :=
  ((Awake.setNext s t none).trans (.linkReady _ t)).trans (.of_tcbs rfl rfl)

theorem Awake.wakeHead (s : Scheduler) (t : Fin 8) : Awake s (wakeHead s t) := by
  have hhead : Awake s { s with sleepHead := (s.tcbs t).next } := .of_tcbs rfl rfl
  have hcount (q : Scheduler) : Awake q (uncountSleeper q) := .of_tcbs rfl rfl
  have hready : Awake s (Sched.setState (uncountSleeper
      (Sched.setNext { s with sleepHead := (s.tcbs t).next } t none)) t .ready) :=
    ((hhead.trans (.setNext _ t none)).trans (hcount _)).trans (.setState _ t (.inl (by decide)))
  exact hready.trans (.readyAppend _ t)

theorem Awake.wakeDueLoop {n : ℕ} {s s' : Scheduler} (h : wakeDueLoop n s = .ok s') :
    Awake s s' := by
  induction n generalizing s with
  | zero => cases h
  | succ n ih =>
    rw [Sched.wakeDueLoop] at h
    split at h
    · obtain rfl := Except.ok.inj h
      exact .refl s
    split at h
    · exact (Awake.wakeHead s _).trans (ih h)
    obtain rfl := Except.ok.inj h
    exact .refl s

theorem Awake.wakeDueThreads {s s' : Scheduler} (h : wakeDueThreads s = .ok s') : Awake s s' := by
  unfold Sched.wakeDueThreads at h
  split at h
  · cases h
  rename_i q hq
  obtain rfl := Except.ok.inj h
  exact (Awake.wakeDueLoop hq).trans (.of_tcbs rfl rfl)

theorem Awake.sleepInsert {s s' : Scheduler} {t : Fin 8} (h : sleepInsert s t = .ok s') :
    Awake s s' := by
  have hcut := Awake.setNext s t none
  unfold Sched.sleepInsert at h
  dsimp only at h
  split at h
  · obtain rfl := Except.ok.inj h
    exact hcut.trans (.of_tcbs rfl rfl)
  split at h
  · obtain rfl := Except.ok.inj h
    exact hcut.trans ((Awake.setNext _ t _).trans (.of_tcbs rfl rfl))
  split at h
  · cases h
  obtain rfl := Except.ok.inj h
  exact hcut.trans (((Awake.setNext _ t _).trans (.setNext _ _ _)).trans (.of_tcbs rfl rfl))

theorem reapZombie_edits (t : Fin 8) (hR : ReapsOnly R sys.sched) :
    Edits m.toMemory R sys.kernel (reapZombie m sys t).kernel ∧
      ReapsOnly R (reapZombie m sys t).sched := by
  unfold reapZombie
  dsimp only
  split_ifs with hskip hreap
  · exact ⟨.refl, hR⟩
  all_goals
    simp only [not_or, not_not] at hskip
    have hpid : Edits m.toMemory R sys.kernel
        (releaseProcess m sys.kernel (sys.sched.tcbs t).processPid (sys.sched.tcbs t).id).2 := by
      unfold releaseProcess
      split_ifs with h0
      · exact .single (.reap _ _ _ (hR t hskip.1 hskip.2.1 hskip.2.2 h0))
      · exact .refl
  · exact ⟨hpid, hR⟩
  · refine ⟨hpid.trans ?_, ?_⟩
    · unfold releaseStack
      split_ifs
      · exact .of_update (.vm (P := []) _ _)
      · exact .refl
    · intro u hu hm hz h0
      by_cases hut : u = t
      · subst hut
        simp [reapedTcb] at hz
      rw [modTcb_tcbs, if_neg hut] at hm hz h0 ⊢
      exact hR u hu hm hz h0

theorem reapZombies_edits (sys : System V) (hR : ReapsOnly R sys.sched) :
    Edits m.toMemory R sys.kernel (reapZombies m sys).kernel := by
  have hall : ∀ (ts : List (Fin 8)) (sys : System V), ReapsOnly R sys.sched →
      Edits m.toMemory R sys.kernel (ts.foldl (reapZombie m) sys).kernel := by
    intro ts
    induction ts with
    | nil => exact fun sys _ ↦ .refl
    | cons t ts ih =>
      intro sys hR
      obtain ⟨hone, hrest⟩ := reapZombie_edits (m := m) t hR
      exact hone.trans (ih _ hrest)
  exact hall _ _ hR

theorem switchTo_edits (sys : System V) (old next : Fin 8) :
    Edits m.toMemory R sys.kernel (switchTo m sys old next).2.kernel := by
  unfold switchTo
  dsimp only
  split
  · exact .refl
  rename_i cr3 k hk
  have henter : Edits m.toMemory R sys.kernel k := by
    unfold enterProcess at hk
    split at hk
    · split at hk
      · cases hk
      · dsimp only at hk
        split at hk
        · obtain ⟨-, rfl⟩ := Prod.mk.inj (Option.some.inj hk)
          exact .single (.setCurrent _ _)
        · cases hk
    · obtain ⟨-, rfl⟩ := Prod.mk.inj (Option.some.inj hk)
      exact .single (.clearCurrent _)
  exact henter.trans (.of_update (.vm (P := []) _ _))

theorem reschedule_edits {old : Fin 8} {r : Bool × System V} (h : reschedule m sys old = .ok r) :
    Edits m.toMemory R sys.kernel r.2.kernel := by
  unfold reschedule at h
  dsimp only at h
  generalize (if (sys.sched.tcbs old).state = .running then
    readyAppend (setState sys.sched old .ready) old else sys.sched) = q at h
  split at h
  · split at h
    · obtain rfl := Except.ok.inj h
      exact .refl
    · cases h
  rename_i next hnext
  obtain rfl := Except.ok.inj h
  have hswitch := switchTo_edits (m := m) (R := R) ⟨(readyPop q).2, sys.kernel⟩ old next
  unfold resume
  split
  · exact .refl
  · exact hswitch

theorem schedulerProcess_edits (sys : System V) {r : Bool × System V} (hR : ReapsOnly R sys.sched)
    (h : schedulerProcess m sys = .ok r) : Edits m.toMemory R sys.kernel r.2.kernel := by
  unfold schedulerProcess at h
  split at h
  · obtain rfl := Except.ok.inj h
    exact .refl
  split at h
  · cases h
  rename_i sched hsched
  have hreap := reapZombies_edits (m := m) { sys with sched := sched }
    ((Awake.wakeDueThreads hsched).reapsOnly hR)
  dsimp only at h
  split at h
  · obtain rfl := Except.ok.inj h
    exact hreap
  split at h
  · obtain rfl := Except.ok.inj h
    exact hreap
  have hnext := reschedule_edits (R := R) h
  exact hreap.trans hnext

theorem Awake.process_edits {q : Scheduler} {r : Bool × System V} (hq : Awake sys.sched q)
    (hR : ReapsOnly R sys.sched) (h : schedulerProcess m { sys with sched := q } = .ok r) :
    Edits m.toMemory R sys.kernel r.2.kernel :=
  schedulerProcess_edits { sys with sched := q } (hq.reapsOnly hR) h

def Sched.Op.reaps : Sched.Op → Bool
  | .threadYield | .threadSleepMs _ | .threadBlockOnWaitQueue _ | .threadExit
  | .schedulerProcess => true
  | _ => false

theorem Awake.setPending (s : Scheduler) : Awake s (setPending s) := .of_tcbs rfl rfl

section

variable (hR : ReapsOnly R sys.sched)
include hR

theorem threadYield_edits (h : threadYield m sys = .ok sys') :
    Edits m.toMemory R sys.kernel sys'.kernel := by
  unfold threadYield at h
  split at h
  · obtain rfl := Except.ok.inj h
    exact .refl
  split at h
  · cases h
  rename_i r hr
  obtain rfl := Except.ok.inj h
  have hpending : Awake sys.sched (schedulerRequestReschedule sys.sched) := by
    unfold schedulerRequestReschedule
    split
    · exact .setPending _
    · exact .refl _
  exact hpending.process_edits hR hr

theorem threadSleepMs_edits {milliseconds : ℕ} (h : threadSleepMs m sys milliseconds = .ok sys') :
    Edits m.toMemory R sys.kernel sys'.kernel := by
  unfold threadSleepMs at h
  split at h
  · obtain rfl := Except.ok.inj h
    exact .refl
  rename_i c hc
  split at h
  · obtain rfl := Except.ok.inj h
    exact .refl
  dsimp only at h
  split at h
  · cases h
  rename_i sched hsched
  split at h
  · cases h
  rename_i r hr
  obtain rfl := Except.ok.inj h
  have hstop := (Awake.modTcb sys.sched c rfl rfl fun _ h ↦ h).trans
    ((Awake.setState _ c (.inl (by decide))).trans (Awake.sleepInsert hsched))
  exact (hstop.trans (.setPending _)).process_edits hR hr

theorem threadBlockOnWaitQueue_edits {queue : Option WaitQueue}
    {r : Bool × Option WaitQueue × System V}
    (h : threadBlockOnWaitQueue m sys queue = .ok r) :
    Edits m.toMemory R sys.kernel r.2.2.kernel := by
  unfold threadBlockOnWaitQueue at h
  split at h
  · rename_i q c hc
    dsimp only at h
    split at h
    · obtain rfl := Except.ok.inj h
      exact .refl
    split at h
    · cases h
    rename_i r' hr
    obtain rfl := Except.ok.inj h
    have hstop := (Awake.setState sys.sched c (x := .blocked) (.inl (by decide))).trans
      (.setPending _)
    exact hstop.process_edits hR hr
  · obtain rfl := Except.ok.inj h
    exact .refl

end

theorem threadExit_edits (sys : System V) (hR : ReapsOnly R sys.sched)
    (h : threadExit m sys = .ok sys') : Edits m.toMemory R sys.kernel sys'.kernel := by
  unfold threadExit at h
  split at h
  · obtain rfl := Except.ok.inj h
    exact .refl
  rename_i c hc
  split at h
  · obtain rfl := Except.ok.inj h
    exact .refl
  dsimp only at h
  split at h
  · cases h
  rename_i r hr
  have hdrop (q : Scheduler) : Awake q (dropThread q) := .of_tcbs rfl rfl
  have hstop := ((Awake.setState sys.sched c (x := .zombie) (.inr hc.symm)).trans
    (hdrop _)).trans (.setPending _)
  have hrun := hstop.process_edits hR hr
  split at h
  · obtain rfl := Except.ok.inj h
    exact hrun
  · cases h

theorem schedulerTickIrq_update {P : List Str} :
    Update P sys.kernel (schedulerTickIrq m sys).kernel := by
  have hcharge (q : System V) : Update P q.kernel (chargeTick q).kernel := by
    unfold chargeTick
    split
    · exact .refl _ _
    dsimp only
    split
    · unfold processAccountCpuTick
      split
      · exact .refl _ _
      split
      · exact .write (by rfl)
      · exact .refl _ _
    · exact .refl _ _
  unfold schedulerTickIrq
  split
  · exact .refl _ _
  · exact (hcharge { sys with sched := countTick sys.sched }).trans (.vm _ _)

theorem schedCall_edits {op : Sched.Op} (hop : ∀ parent, op ≠ .processCreate parent)
    (hR : op.reaps = true → ReapsOnly R sys.sched) (h : Sched.call m sys op = .ok sys') :
    Edits m.toMemory R sys.kernel sys'.kernel := by
  cases op with
  | threadCreate entry arg =>
    obtain rfl := Except.ok.inj h
    exact .of_update (threadCreate_kernel (P := []) m sys entry arg)
  | threadCreateUserProcess pid =>
    obtain rfl := Except.ok.inj h
    exact .of_update (threadCreateUserProcess_kernel (P := []) m sys pid)
  | threadYield => exact threadYield_edits (hR rfl) h
  | threadSleepMs milliseconds => exact threadSleepMs_edits (hR rfl) h
  | threadWakeup id =>
    simp only [Sched.call] at h
    split at h
    · cases h
    obtain rfl := Except.ok.inj h
    exact .refl
  | threadBlockOnWaitQueue queue =>
    simp only [Sched.call] at h
    split at h
    · cases h
    rename_i r hr
    obtain rfl := Except.ok.inj h
    exact threadBlockOnWaitQueue_edits (hR rfl) hr
  | schedulerWakeThread id =>
    obtain rfl := Except.ok.inj h
    exact .refl
  | threadExit => exact threadExit_edits sys (hR rfl) h
  | schedulerTickIrq =>
    obtain rfl := Except.ok.inj h
    exact .of_update (schedulerTickIrq_update (P := []))
  | schedulerRequestReschedule =>
    obtain rfl := Except.ok.inj h
    exact .refl
  | schedulerProcess =>
    simp only [Sched.call] at h
    split at h
    · cases h
    rename_i r hr
    obtain rfl := Except.ok.inj h
    exact schedulerProcess_edits sys (hR rfl) hr
  | processCreate parent => exact absurd rfl (hop parent)
  | processExit pid =>
    obtain rfl := Except.ok.inj h
    exact .single (.exit _ pid 0 0)

end Scheduling

section Exec

variable {child : ℕ}

theorem startChild_edits (sys : System V) (hR : R child) :
    Edits m.toMemory R sys.kernel (startChild m sys child).2.kernel ∧
      ((startChild m sys child).1 = true →
        Update [] sys.kernel (startChild m sys child).2.kernel) := by
  have hthread := threadCreateUserProcess_kernel (P := []) m.toPlatform sys child
  have hnew : Edits m.toMemory R sys.kernel
      (threadCreateUserProcess m.toPlatform sys child).2.kernel := .of_update hthread
  unfold startChild
  dsimp only
  split
  · refine ⟨hnew.trans ?_, fun h ↦ by cases h⟩
    exact (ReflTransGen.single (.exit _ child 0 0)).tail (.reap _ child 0 hR)
  split
  · exact ⟨hnew.trans (.single (.exit _ child 0 0)), fun h ↦ by cases h⟩
  rename_i j hj
  have hprepare := usermodePrepare_update (m := m) (P := [])
    (threadCreateUserProcess m.toPlatform sys child).2.kernel child
    ((threadCreateUserProcess m.toPlatform sys child).2.kernel.processes j).userEntry
    ((threadCreateUserProcess m.toPlatform sys child).2.kernel.processes j).userStackBase
    ((threadCreateUserProcess m.toPlatform sys child).2.kernel.processes j).kernelStack
  have hready := hnew.trans (.of_update (m := m.toMemory) (R := R) hprepare)
  split
  · exact ⟨hready.trans (.single (.exit _ child 0 0)), fun h ↦ by cases h⟩
  · exact ⟨hready, fun _ ↦ hthread.trans hprepare⟩

theorem sysExec_edits (m : Hardware V) (fat : Fat F) (s : Machine V F) (pid a0 : ℕ)
    (hR : R (processCreate m.toMemory s.kernel s.sched.ticks pid).1) :
    let c := processCreate m.toMemory s.kernel s.sched.ticks pid
    let r := sysExec m fat s pid a0
    (r = (failed, s)) ∨ Edits m.toMemory R c.2 r.2.kernel ∧
      (r.1 = failed ∨ c.1 ≠ 0 ∧ r.1 = c.1 ∧ Update [] c.2 r.2.kernel) := by
  dsimp only
  unfold sysExec
  split
  · exact .inl rfl
  split
  · exact .inl rfl
  rename_i path hpath
  dsimp only
  split
  · exact .inr ⟨.refl, .inl rfl⟩
  rename_i h0
  have hload : Update [] (processCreate m.toMemory s.kernel s.sched.ticks pid).2
      (nexusElfLoadProcess m (processCreate m.toMemory s.kernel s.sched.ticks pid).1 fat
        (processCreate m.toMemory s.kernel s.sched.ticks pid).2 s.vfs path).2.1 :=
    nexusElfLoadProcess_update _ _ _ _
  have hloaded := Edits.of_update (m := m.toMemory) (R := R) hload
  split
  · refine .inr ⟨hloaded.trans ?_, .inl rfl⟩
    exact (ReflTransGen.single (.exit _ _ 0 0)).tail (.reap _ _ 0 hR)
  obtain ⟨hedits, hok⟩ := startChild_edits (m := m)
    { s.system with kernel := (nexusElfLoadProcess m
      (processCreate m.toMemory s.kernel s.sched.ticks pid).1 fat
      (processCreate m.toMemory s.kernel s.sched.ticks pid).2 s.vfs path).2.1 } hR
  refine .inr ⟨hloaded.trans hedits, ?_⟩
  split
  · rename_i hstart
    exact .inr ⟨h0, rfl, hload.trans (hok hstart)⟩
  · exact .inl rfl

end Exec

section Calls

theorem caller_get (hi : caller s = some i) :
    processGet s.kernel (s.kernel.processes i).pid = some i ∧
      (s.kernel.processes i).state = .running ∧
      (s.kernel.processes i).pid = s.kernel.currentPid := by
  unfold caller at hi
  split at hi
  · cases hi
  obtain ⟨hget, hrun⟩ := Option.filter_eq_some_iff.1 hi
  have hpid := (processGet_some hget).2
  rw [hpid]
  simp only [decide_eq_true_eq] at hrun
  exact ⟨hget, hrun.1, rfl⟩

theorem syscallDispatch_edits (m : Hardware V) (fat : Fat F) (g : Garbage) (s : Machine V F)
    (number a0 a1 a2 a3 : ℕ)
    (hR : ∀ i, caller s = some i →
      R (processCreate m.toMemory s.kernel s.sched.ticks (s.kernel.processes i).pid).1) :
    let r := syscallDispatch m fat g s number a0 a1 a2 a3
    Edits m.toMemory R s.kernel r.2.kernel ∨ ∃ i, caller s = some i ∧
      Edits m.toMemory R
        (processCreate m.toMemory s.kernel s.sched.ticks (s.kernel.processes i).pid).2
        r.2.kernel := by
  dsimp only
  unfold syscallDispatch
  cases hi : caller s with
  | none => exact .inl .refl
  | some i =>
    cases hc : sysNumbers[number]? with
    | none => exact .inl .refl
    | some c =>
      by_cases hexec : c = .exec
      · subst hexec
        rcases sysExec_edits m fat s (s.kernel.processes i).pid a0 (hR i hi) with heq | ⟨hedits, -⟩
        · left
          simp only [syscall, heq]
          exact .refl
        · exact .inr ⟨i, rfl, hedits⟩
      · exact .inl (.of_update (syscall_update hexec a0 a1 a2 a3))

theorem entering_caller {f : Frame} (hi : entering s f = some i) : caller s = some i := by
  unfold entering at hi
  split at hi
  · cases hi
  · exact (Option.filter_eq_some_iff.1 hi).1

theorem interrupt_edits {f : Frame} {r : Action × Frame × Machine V F}
    (hsched : f.rax = 1 → ReapsOnly R s.sched)
    (hR : ∀ i, caller s = some i →
      R (processCreate m.toMemory s.kernel s.sched.ticks (s.kernel.processes i).pid).1)
    (h : syscallInterruptHandler m fat g s f = .ok r) :
    Edits m.toMemory R s.kernel r.2.2.kernel ∨ ∃ i, caller s = some i ∧
      Edits m.toMemory R
        (processCreate m.toMemory s.kernel s.sched.ticks (s.kernel.processes i).pid).2
        r.2.2.kernel := by
  unfold syscallInterruptHandler at h
  split at h
  · obtain rfl := Except.ok.inj h
    exact .inl .refl
  rename_i i hi
  split at h
  · rename_i hexit
    have hend : Edits m.toMemory R s.kernel
        (processExitWithCode s.kernel (s.kernel.processes i).pid f.rdi 1).2 :=
      .single (.exit _ _ _ _)
    dsimp only at h
    split at h
    · obtain rfl := Except.ok.inj h
      exact .inl hend
    split at h
    · cases h
    rename_i sys hsys
    obtain rfl := Except.ok.inj h
    have hthread : Edits m.toMemory R
        (processExitWithCode s.kernel (s.kernel.processes i).pid f.rdi 1).2 sys.kernel :=
      threadExit_edits (m := m.toPlatform) { s.system with kernel := _ }
        (hsched hexit) hsys
    exact .inl (hend.trans hthread)
  · obtain rfl := Except.ok.inj h
    exact syscallDispatch_edits m fat g s _ _ _ _ _ hR

def Event.reaps : Event → Bool
  | .sched op => op.reaps
  | .dispatch _ _ _ _ _ _ => false
  | .interrupt _ f => f.rax = 1

theorem call_edits {e : Event} {s' : Machine V F}
    (hsched : e.reaps = true → ReapsOnly R s.sched)
    (hR : ∀ parent, R (processCreate m.toMemory s.kernel s.sched.ticks parent).1)
    (h : s.call m fat e = .ok s') :
    Edits m.toMemory R s.kernel s'.kernel ∨ ∃ parent,
      ((∃ i, caller s = some i ∧ parent = (s.kernel.processes i).pid) ∨
        e = .sched (.processCreate parent)) ∧
      Edits m.toMemory R (processCreate m.toMemory s.kernel s.sched.ticks parent).2 s'.kernel := by
  cases e with
  | sched op =>
    simp only [Machine.call] at h
    split at h
    · cases h
    rename_i sys hsys
    obtain rfl := Except.ok.inj h
    by_cases hop : ∃ parent, op = .processCreate parent
    · obtain ⟨parent, rfl⟩ := hop
      obtain rfl := Except.ok.inj hsys
      exact .inr ⟨parent, .inr rfl, .refl⟩
    · exact .inl (schedCall_edits (fun parent hp ↦ hop ⟨parent, hp⟩) hsched hsys)
  | dispatch g number a0 a1 a2 a3 =>
    obtain rfl := Except.ok.inj h
    rcases syscallDispatch_edits m fat g s number a0 a1 a2 a3 fun i _ ↦ hR _ with
      hedits | ⟨i, hi, hedits⟩
    · exact .inl hedits
    · exact .inr ⟨_, .inl ⟨i, hi, rfl⟩, hedits⟩
  | interrupt g f =>
    simp only [Machine.call] at h
    split at h
    · cases h
    rename_i r hr
    obtain rfl := Except.ok.inj h
    have hexit : f.rax = 1 → ReapsOnly R s.sched := fun h1 ↦ hsched (by simp [Event.reaps, h1])
    rcases interrupt_edits hexit (fun i _ ↦ hR _) hr with hedits | ⟨i, hi, hedits⟩
    · exact .inl hedits
    · exact .inr ⟨_, .inl ⟨i, hi, rfl⟩, hedits⟩

end Calls

section Sample

/-- An image of one page at `0x600000` that may be read, written and executed. It holds the path
`/c` behind its headers, where it also starts. -/
def tinyElf : List UInt8 :=
  elfIdent ++ List.replicate 10 0 ++ leBytes 2 2 ++ leBytes 2 62 ++ leBytes 4 1 ++
    leBytes 8 0x600078 ++ leBytes 8 64 ++ leBytes 8 0 ++ leBytes 4 0 ++ leBytes 2 64 ++
    leBytes 2 56 ++ leBytes 2 1 ++ leBytes 6 0 ++ leBytes 4 1 ++ leBytes 4 7 ++ leBytes 8 0 ++
    leBytes 8 0x600000 ++ leBytes 8 0 ++ leBytes 8 123 ++ leBytes 8 4096 ++ leBytes 8 4096 ++
    [47, 99, 0]

def programs : Fat Unit where
  isMounted _ := true
  isDirectory _ f := (false, f)
  mkdir _ f := (false, f)
  writeFile _ _ f := (false, f)
  readFile _ _ f := (some tinyElf, f)

def bootVfs : Vfs Unit :=
  vfsInit ⟨fun _ ↦ ⟨.free, [], some 0, fun _ ↦ 0, 0⟩, some 0, [], vfsMountInit, fun _ ↦ 0, ()⟩

/-- The first process has been loaded and has a thread; the first thread is still running. -/
def bootMachine : Machine (List (ℕ × UInt8)) Unit :=
  let sys := initSystem zeroScheduler (bootKernel []) 100 0
  let c := processCreate flatHardware.toMemory sys.kernel 0 0
  let l := nexusElfLoadProcess flatHardware c.1 programs c.2 bootVfs [47, 99]
  let r := startChild flatHardware { sys with kernel := l.2.1 } c.1
  ⟨r.2, l.2.2, [], true, true⟩

def cleanStack : Garbage := ⟨fun _ ↦ 0, fun _ ↦ 0, fun _ ↦ .clean⟩

def Machine.after (m : Hardware V) (fat : Fat F) (s : Machine V F) (es : List Event) :
    Machine V F :=
  match s.run m fat es with
  | .ok s' => s'
  | .error _ => s

theorem Machine.run_after {es : List Event} (h : (s.run m fat es).isOk = true) :
    s.run m fat es = .ok (s.after m fat es) := by
  unfold after
  cases hrun : s.run m fat es with
  | error e =>
    rw [hrun] at h
    cases h
  | ok s' => rfl

theorem Machine.call_after {e : Event} (h : (s.run m fat [e]).isOk = true) :
    s.call m fat e = .ok (s.after m fat [e]) := by
  obtain ⟨s₁, hcall, hrun⟩ := Machine.run_cons.1 (run_after h)
  rw [hcall]
  exact hrun

theorem exists_of_isOk {r : Except Stop (Machine V F)} (h : r.isOk = true) : ∃ s, r = .ok s := by
  cases r with
  | error e => cases h
  | ok s => exact ⟨s, rfl⟩

end Sample

end NexusOS.Core
