import NexusOS.Core.Capabilities

namespace NexusOS.Core

open Fs Sched

variable {V F : Type*} {m : Hardware V} {fat : Fat F} {s s' : Machine V F} {k k' : Kernel V}
  {R : ℕ → Prop} {c parent code pid : ℕ} {i j : Fin 8} {es : List Event}

section Along

/-- Every event of a run meets `P` in the state it happens in. -/
def Machine.Along (m : Hardware V) (fat : Fat F) (P : Machine V F → Event → Prop) :
    Machine V F → List Event → Prop
  | _, [] => True
  | s, e :: es => P s e ∧ ∀ s', s.call m fat e = .ok s' → Machine.Along m fat P s' es

instance Machine.Along.decidable (P : Machine V F → Event → Prop) [∀ s e, Decidable (P s e)] :
    (s : Machine V F) → (es : List Event) → Decidable (Machine.Along m fat P s es)
  | _, [] => .isTrue trivial
  | s, e :: es =>
    match h : s.call m fat e with
    | .error _ => decidable_of_iff (P s e) ⟨fun hp ↦ ⟨hp, fun _ hs ↦ nomatch h.symm.trans hs⟩, And.left⟩
    | .ok s₁ =>
      have := Machine.Along.decidable P s₁ es
      decidable_of_iff (P s e ∧ Machine.Along m fat P s₁ es)
        ⟨fun hp ↦ ⟨hp.1, fun _ hs ↦ Except.ok.inj (h.symm.trans hs) ▸ hp.2⟩,
          fun hp ↦ ⟨hp.1, hp.2 s₁ h⟩⟩

theorem Machine.Along.invariant {P : Machine V F → Event → Prop} {I : Machine V F → Prop}
    (hstep : ∀ s e s', I s → P s e → s.call m fat e = .ok s' → I s') (hs : I s)
    (h : Machine.Along m fat P s es) (hrun : s.run m fat es = .ok s') : I s' := by
  induction es generalizing s with
  | nil =>
    obtain rfl := Except.ok.inj hrun
    exact hs
  | cons e es ih =>
    obtain ⟨s₁, hcall, hrest⟩ := Machine.run_cons.1 hrun
    exact ih (hstep s e s₁ hs h.1 hcall) (h.2 s₁ hcall) hrest

end Along

section Child

/-- Only slot `i` may hold process `c`, as a child of `parent`. -/
def ChildAt (c parent : ℕ) (i : Fin 8) (k : Kernel V) : Prop :=
  ∀ j, (k.processes j).state ≠ .unused → (k.processes j).pid = c →
    j = i ∧ (k.processes j).parentPid = parent

theorem ChildAt.edits {m : Memory V} (h : ChildAt c parent i k) (hk : Edits m R k k') :
    ChildAt c parent i k' := by
  intro j hj hpid
  have hheir := hk.heir hj
  obtain ⟨hji, hparent⟩ := h j hheir.used (hheir.pid ▸ hpid)
  exact ⟨hji, hheir.parentPid.trans hparent⟩

structure EndedAt (c parent code : ℕ) (i : Fin 8) (k : Kernel V) : Prop where
  only : ChildAt c parent i k
  state : (k.processes i).state = .zombie
  pid : (k.processes i).pid = c
  exitCode : (k.processes i).exitCode = code

theorem EndedAt.parentPid (h : EndedAt c parent code i k) : (k.processes i).parentPid = parent :=
  (h.only i (by rw [h.state]; decide) h.pid).2

theorem paused_zombie (l : Option (Fin 8)) (h : (k.processes i).state = .zombie) :
    paused k l i = k.processes i := by
  unfold paused
  rw [if_neg]
  intro hp
  rw [h] at hp
  cases hp.2.2

theorem EndedAt.edit {m : Memory V} (h : EndedAt c parent code i k)
    (hk : Edit m (fun q ↦ q ≠ c) k k') : EndedAt c parent code i k' := by
  have honly := h.only.edits (.single hk)
  suffices hsame : (k'.processes i).state = .zombie ∧ (k'.processes i).pid = c ∧
      (k'.processes i).exitCode = code from ⟨honly, hsame.1, hsame.2.1, hsame.2.2⟩
  have hi : (k.processes i).state = .zombie ∧ (k.processes i).pid = c ∧
      (k.processes i).exitCode = code := ⟨h.state, h.pid, h.exitCode⟩
  cases hk with
  | update hu =>
    have hkept := hu.process i
    rw [hkept.state, hkept.pid, hkept.exitCode]
    exact hi
  | setCurrent pid =>
    rcases processSetCurrent_cases k pid with heq | ⟨l, hl, hs, heq⟩
    · rw [heq]
      exact hi
    have hil : i ≠ l := by
      intro hil
      rw [← hil, h.state] at hs
      rcases hs with hs | hs <;> cases hs
    rw [heq]
    simp only [Function.update_of_ne hil, paused_zombie _ h.state]
    exact hi
  | clearCurrent =>
    rw [processClearCurrent_eq]
    simp only [paused_zombie _ h.state]
    exact hi
  | exit pid code' reason =>
    rcases processExitWithCode_cases k pid code' reason with
      ⟨heq, -⟩ | ⟨l, k₁, hl, hz, hipc, heq⟩
    · rw [heq]
      exact hi
    · have hil : i ≠ l := by
        intro hil
        exact hz (hil ▸ h.state)
      obtain ⟨handles, hsame⟩ := hipc.process i
      rw [heq]
      simp only [Function.update_of_ne hil, hsame]
      exact hi
  | reap pid tid hne =>
    rcases processReap_eq m k pid tid with heq | ⟨l, hl, hz, heq⟩
    · rw [heq]
      exact hi
    have hil : i ≠ l := by
      intro hil
      apply hne
      rw [← (processGet_some hl).2, ← hil, h.pid]
    rw [heq]
    simp only [Function.update_of_ne hil]
    exact hi

theorem EndedAt.edits {m : Memory V} (h : EndedAt c parent code i k)
    (hk : Edits m (fun q ↦ q ≠ c) k k') : EndedAt c parent code i k' :=
  hk.invariant (fun _ _ hedit h ↦ h.edit hedit) h

theorem processCreate_other (m : Memory V) (ticks parent' : ℕ)
    (hfresh : (takePid k.nextPid).1 ≠ c) (j : Fin 8) :
    (processCreate m k ticks parent').2.processes j = k.processes j ∨
      (k.processes j).state = .unused ∧
      (((processCreate m k ticks parent').2.processes j).state ≠ .unused →
        ((processCreate m k ticks parent').2.processes j).pid ≠ c) := by
  rcases processCreate_cases m k ticks parent' with heq | ⟨l, hl, -, ⟨p, hp, heq⟩ | ⟨-, heq⟩⟩
  · rw [heq]
    exact .inl rfl
  · rw [heq]
    by_cases hjl : j = l
    · subst hjl
      exact .inr ⟨hl, by simp [hp]⟩
    · exact .inl (by simp only [Function.update_of_ne hjl])
  rw [heq]
  by_cases hjl : j = l
  · subst hjl
    exact .inr ⟨hl, by simpa [created, announced] using hfresh⟩
  · exact .inl (by simp only [Function.update_of_ne hjl])

theorem ChildAt.create {m : Memory V} {ticks parent' : ℕ} (h : ChildAt c parent i k)
    (hfresh : (takePid k.nextPid).1 ≠ c) :
    ChildAt c parent i (processCreate m k ticks parent').2 := by
  intro j hj hpid
  rcases processCreate_other m ticks parent' hfresh j with
    heq | ⟨-, hne⟩
  · rw [heq] at hj hpid ⊢
    exact h j hj hpid
  · exact absurd hpid (hne hj)

theorem EndedAt.create {m : Memory V} {ticks parent' : ℕ} (h : EndedAt c parent code i k)
    (hfresh : (takePid k.nextPid).1 ≠ c) :
    EndedAt c parent code i (processCreate m k ticks parent').2 := by
  rcases processCreate_other m ticks parent' hfresh i with
    heq | ⟨hunused, -⟩
  · exact ⟨h.only.create hfresh, by rw [heq, h.state], by rw [heq, h.pid], by rw [heq, h.exitCode]⟩
  · rw [h.state] at hunused
    cases hunused

theorem processCreate_answer (m : Memory V) (k : Kernel V) (ticks parent : ℕ) (hc : c ≠ 0)
    (hfresh : (takePid k.nextPid).1 ≠ c) : (processCreate m k ticks parent).1 ≠ c := by
  rcases processCreate_cases m k ticks parent with heq | ⟨l, -, -, ⟨p, -, heq⟩ | ⟨-, heq⟩⟩
  · rw [heq]
    exact hc.symm
  · rw [heq]
    exact hc.symm
  rw [heq]
  exact hfresh

end Child

section Events

instance [DecidablePred R] (s : Scheduler) : Decidable (ReapsOnly R s) :=
  inferInstanceAs (Decidable (∀ t, some t ≠ s.current → (s.tcbs t).magic = threadMagic →
    (s.tcbs t).state = .zombie → (s.tcbs t).processPid ≠ 0 → R (s.tcbs t).processPid))

/-- The next process to be created is not given the identifier `c`. -/
def Fresh (c : ℕ) (s : Machine V F) (_ : Event) : Prop := (takePid s.kernel.nextPid).1 ≠ c

/-- And no thread of process `c` is there to be reaped by the event. -/
def Spares (c : ℕ) (s : Machine V F) (e : Event) : Prop :=
  Fresh c s e ∧ (e.reaps = true → ReapsOnly (fun q ↦ q ≠ c) s.sched)

instance (s : Machine V F) (e : Event) : Decidable (Fresh c s e) :=
  inferInstanceAs (Decidable ((takePid s.kernel.nextPid).1 ≠ c))

instance (s : Machine V F) (e : Event) : Decidable (Spares c s e) :=
  inferInstanceAs (Decidable (Fresh c s e ∧
    (e.reaps = true → ReapsOnly (fun q ↦ q ≠ c) s.sched)))

theorem ChildAt.call {e : Event} (h : ChildAt c parent i s.kernel) (hfresh : Fresh c s e)
    (hcall : s.call m fat e = .ok s') : ChildAt c parent i s'.kernel := by
  rcases call_edits (R := fun _ ↦ True) (fun _ _ _ _ _ _ ↦ trivial) (fun _ ↦ trivial) hcall with
    hedits | ⟨parent', -, hedits⟩
  · exact h.edits hedits
  · exact (h.create hfresh).edits hedits

theorem EndedAt.call {e : Event} (hc : c ≠ 0) (h : EndedAt c parent code i s.kernel)
    (hspares : Spares c s e) (hcall : s.call m fat e = .ok s') :
    EndedAt c parent code i s'.kernel := by
  rcases call_edits hspares.2 (fun _ ↦ processCreate_answer _ _ _ _ hc hspares.1) hcall with
    hedits | ⟨parent', -, hedits⟩
  · exact h.edits hedits
  · exact (h.create hspares.1).edits hedits

theorem exec_childAt {g : Garbage} {p : Fin 8} {a0 a1 a2 a3 : ℕ} (hp : caller s = some p)
    (hunused : ∀ j, (s.kernel.processes j).state ≠ .unused → (s.kernel.processes j).pid ≠ c)
    (hexec : syscallDispatch m fat g s 23 a0 a1 a2 a3 = (c, s')) (hc : c ≠ failed) :
    c ≠ 0 ∧ ∃ i, ChildAt c (s.kernel.processes p).pid i s'.kernel := by
  have heq : syscallDispatch m fat g s 23 a0 a1 a2 a3 =
      sysExec m fat s (s.kernel.processes p).pid a0 := by
    unfold syscallDispatch
    rw [hp]
    rfl
  rw [hexec] at heq
  rcases sysExec_edits (R := fun _ ↦ True) m fat s (s.kernel.processes p).pid a0 trivial with
    hno | ⟨-, hno | ⟨h0, hanswer, hupdate⟩⟩
  · rw [← heq] at hno
    exact absurd (Prod.mk.inj hno).1 hc
  · rw [← heq] at hno
    exact absurd hno hc
  · rw [← heq] at hanswer hupdate
    rw [← hanswer] at h0
    refine ⟨h0, ?_⟩
    rcases processCreate_cases m.toMemory s.kernel s.sched.ticks (s.kernel.processes p).pid with
      hk | ⟨l, hl, -, ⟨q, -, hk⟩ | ⟨-, hk⟩⟩
    · rw [hk] at hanswer
      exact absurd hanswer h0
    · rw [hk] at hanswer
      exact absurd hanswer h0
    · refine ⟨l, ChildAt.edits (m := m.toMemory) (R := fun _ ↦ True) ?_ (.of_update hupdate)⟩
      rw [hk]
      intro j hj hpid
      by_cases hjl : j = l
      · subst hjl
        simp [created, announced]
      simp only [Function.update_of_ne hjl] at hj hpid
      exact absurd hpid (hunused j hj)

theorem exit_endedAt {g : Garbage} {f : Frame} (hi : entering s f = some j)
    (hpid : (s.kernel.processes j).pid = c) (hexit : f.rax = 1) (h : ChildAt c parent i s.kernel)
    (hreaps : ReapsOnly (fun q ↦ q ≠ c) s.sched)
    (hcall : s.call m fat (.interrupt g f) = .ok s') :
    EndedAt c parent f.rdi i s'.kernel := by
  obtain ⟨hget, hrun, -⟩ := caller_get (entering_caller hi)
  have hused : (s.kernel.processes j).state ≠ .unused := by
    rw [hrun]
    decide
  obtain ⟨rfl, hparent⟩ := h j hused hpid
  have hended : (processExitWithCode s.kernel (s.kernel.processes j).pid f.rdi 1).1 = true ∧
      EndedAt c parent f.rdi j
        (processExitWithCode s.kernel (s.kernel.processes j).pid f.rdi 1).2 := by
    have honly : ChildAt c parent j
        (processExitWithCode s.kernel (s.kernel.processes j).pid f.rdi 1).2 :=
      h.edits (m := m.toMemory) (R := fun _ ↦ True) (.single (.exit _ _ _ _))
    rcases processExitWithCode_cases s.kernel (s.kernel.processes j).pid f.rdi 1 with
      ⟨-, hz⟩ | ⟨l, k₁, hl, -, hipc, heq⟩
    · have := hz j hget
      rw [hrun] at this
      cases this
    · obtain rfl : j = l := Option.some.inj (hget.symm.trans hl)
      rw [heq] at honly ⊢
      refine ⟨rfl, honly, ?_, ?_, ?_⟩
      · simp only [Function.update_self]
      · simp only [Function.update_self, (hipc.state j).2, hpid]
      · simp only [Function.update_self]
  simp only [Machine.call, syscallInterruptHandler, hi, hexit, if_true, hended.1, Bool.not_true,
    Bool.false_eq_true, if_false] at hcall
  split at hcall
  · cases hcall
  rename_i r hr
  split at hr
  · cases hr
  rename_i sys hsys
  obtain rfl := Except.ok.inj hcall
  obtain rfl := Except.ok.inj hr
  exact hended.2.edits
    (threadExit_edits (m := m.toPlatform) { s.system with kernel := _ } hreaps hsys)

end Events

section Wait

theorem findSome?_unique {α β : Type*} {f : α → Option β} {l : List α} {a : α} {b : β}
    (ha : a ∈ l) (hf : f a = some b) (hne : ∀ x, x ≠ a → f x = none) :
    l.findSome? f = some b := by
  induction l with
  | nil => cases ha
  | cons x l ih =>
    by_cases hx : x = a
    · rw [List.findSome?_cons, hx, hf]
    rw [List.findSome?_cons, hne x hx]
    exact ih ((List.mem_cons.1 ha).resolve_left (Ne.symm hx))

theorem processGet_ready (h : processGet k pid = some i) : k.processReady = true := by
  unfold processGet at h
  split at h
  · cases h
  rename_i hready
  simp only [not_or, Bool.not_eq_true', Bool.not_eq_false] at hready
  exact hready.1

theorem EndedAt.endedChild (h : EndedAt c parent code i k) (hc : c ≠ 0) (hlt : c < 4096)
    (hready : k.processReady = true) : endedChild parent k c = some (c, i) := by
  have hget : processGet k c = some i := by
    rw [← h.pid]
    apply processGet_of_unique hready
    · rw [h.pid]
      exact hc
    · rw [h.state]
      decide
    intro j hj hpid
    exact (h.only j hj (hpid.trans h.pid)).1
  apply findSome?_unique (a := c)
  · rw [List.mem_range'_1]
    omega
  · simp [hget, h.parentPid, h.state]
  intro q hq
  split
  · rfl
  · rw [if_pos (.inr (.inl ⟨hc, Ne.symm hq⟩))]

theorem endedChild_none (hc : c ≠ 0)
    (h : ∀ j, (k.processes j).state = .zombie → (k.processes j).pid ≠ c) :
    endedChild parent k c = none := by
  apply List.findSome?_eq_none_iff.2
  intro q _
  split
  · rfl
  rename_i j hj
  rw [if_pos]
  by_cases hq : q = c
  · refine .inr (.inr fun hz ↦ h j hz ?_)
    rw [(processGet_some hj).2, hq]
  · exact .inr (.inl ⟨hc, Ne.symm hq⟩)

theorem EndedAt.waitpid {g : Garbage} {q : Fin 8} {a1 a2 a3 : ℕ} (h : EndedAt c parent code i s.kernel)
    (hc : c ≠ 0) (hlt : c < 4096) (hq : caller s = some q)
    (hpid : (s.kernel.processes q).pid = parent)
    (hstore : (processUserWrite m s.kernel parent a1 (leBytes 8 code)).1 = true) :
    syscallDispatch m fat g s 18 c a1 a2 a3 =
      (c, s.setKernel (processUserWrite m s.kernel parent a1 (leBytes 8 code)).2) := by
  have hready := processGet_ready (caller_get hq).1
  have heq : syscallDispatch m fat g s 18 c a1 a2 a3 = sysWaitpid m s parent c a1 := by
    unfold syscallDispatch
    rw [hq, ← hpid]
    rfl
  have hlen : (leBytes 8 code).length = 8 := rfl
  have hvalid : a1 ≠ 0 ∧ processUserRangeValid s.kernel parent a1 8 pageWritable = true := by
    unfold processUserWrite at hstore
    split at hstore
    · cases hstore
    dsimp only at hstore
    split at hstore
    · cases hstore
    rename_i hok
    simp only [not_or, hlen, Bool.not_eq_true', Bool.not_eq_false] at hok
    refine ⟨?_, hok.2.2.2⟩
    rintro rfl
    exact hok.2.2.1 (by decide)
  rw [heq, sysWaitpid, h.endedChild hc hlt hready]
  dsimp only
  rw [if_pos hvalid, h.exitCode]
  simp only [replyWith, putUser, hstore, if_true]

/-- Process `p` starts `c` with `EXEC`, `c` ends with `EXIT`, and `p` waits for it: the answer is `c`,
and the code it has given is stored. -/
theorem exit_code_delivered (m : Hardware V) (fat : Fat F) (s₀ s₁ s₂ s₃ s₄ : Machine V F)
    (p q j : Fin 8) (c : ℕ) (g₀ g₂ g₄ : Garbage) (a0 a1 a2 a3 b1 b2 b3 : ℕ) (f : Frame)
    (es es' : List Event) (hp : caller s₀ = some p)
    (hunused : ∀ l, (s₀.kernel.processes l).state ≠ .unused → (s₀.kernel.processes l).pid ≠ c)
    (hexec : syscallDispatch m fat g₀ s₀ 23 a0 a1 a2 a3 = (c, s₁)) (hc : c ≠ failed)
    (hlt : c < 4096) (hrun : s₁.run m fat es = .ok s₂) (hfresh : s₁.Along m fat (Fresh c) es)
    (hj : entering s₂ f = some j) (hpid : (s₂.kernel.processes j).pid = c) (hexit : f.rax = 1)
    (hreaps : Spares c s₂ (.interrupt g₂ f)) (hcall : s₂.call m fat (.interrupt g₂ f) = .ok s₃)
    (hrun' : s₃.run m fat es' = .ok s₄) (hspares : s₃.Along m fat (Spares c) es')
    (hq : caller s₄ = some q) (hqp : (s₄.kernel.processes q).pid = (s₀.kernel.processes p).pid)
    (hstore : (processUserWrite m s₄.kernel (s₀.kernel.processes p).pid b1
      (leBytes 8 f.rdi)).1 = true) :
    syscallDispatch m fat g₄ s₄ 18 c b1 b2 b3 =
      (c, s₄.setKernel (processUserWrite m s₄.kernel (s₀.kernel.processes p).pid b1
        (leBytes 8 f.rdi)).2) := by
  obtain ⟨h0, i, hchild⟩ := exec_childAt hp hunused hexec hc
  have hchild₂ : ChildAt c (s₀.kernel.processes p).pid i s₂.kernel :=
    hfresh.invariant (I := fun s ↦ ChildAt c (s₀.kernel.processes p).pid i s.kernel)
      (fun s e s' h hfresh hcall ↦ h.call hfresh hcall) hchild hrun
  have hended := exit_endedAt hj hpid hexit hchild₂ (hreaps.2 (by simp [Event.reaps, hexit])) hcall
  have hended₄ : EndedAt c (s₀.kernel.processes p).pid f.rdi i s₄.kernel :=
    hspares.invariant (I := fun s ↦ EndedAt c (s₀.kernel.processes p).pid f.rdi i s.kernel)
      (fun s e s' h hspares hcall ↦ h.call h0 hspares hcall) hended hrun'
  exact hended₄.waitpid h0 hlt hq hqp hstore

end Wait

section Sample

def parentRuns : Machine (List (ℕ × UInt8)) Unit :=
  bootMachine.after flatHardware programs [.sched .threadYield]

def childStarted : Machine (List (ℕ × UInt8)) Unit :=
  (syscallDispatch flatHardware programs cleanStack parentRuns 23 0x600078 0 0 0).2

/-- The parent and the first thread of the kernel give the processor away. -/
def childRuns : Machine (List (ℕ × UInt8)) Unit :=
  childStarted.after flatHardware programs [.sched .threadYield, .sched .threadYield]

def exitFrame : Frame := ⟨1, 7, 0, 0, 0, 0x600078, 0x23, 0x202, 0x600800, 0x1B⟩

def childExited : Machine (List (ℕ × UInt8)) Unit :=
  childRuns.after flatHardware programs [.interrupt cleanStack exitFrame]

theorem sample_facts :
    caller parentRuns = some 0 ∧
    (∀ l, (parentRuns.kernel.processes l).state ≠ .unused →
      (parentRuns.kernel.processes l).pid ≠ 2) ∧
    (syscallDispatch flatHardware programs cleanStack parentRuns 23 0x600078 0 0 0).1 = 2 ∧
    (childStarted.run flatHardware programs
      [.sched .threadYield, .sched .threadYield]).isOk = true ∧
    childStarted.Along flatHardware programs (Fresh 2) [.sched .threadYield, .sched .threadYield] ∧
    entering childRuns exitFrame = some 1 ∧ (childRuns.kernel.processes 1).pid = 2 ∧
    Spares 2 childRuns (.interrupt cleanStack exitFrame) ∧
    (childRuns.run flatHardware programs [.interrupt cleanStack exitFrame]).isOk = true ∧
    caller childExited = some 0 ∧
    (childExited.kernel.processes 0).pid = (parentRuns.kernel.processes 0).pid ∧
    (processUserWrite flatHardware childExited.kernel (parentRuns.kernel.processes 0).pid 0x600900
      (leBytes 8 exitFrame.rdi)).1 = true ∧
    flatHardware.readByte 0x600900 (processUserWrite flatHardware childExited.kernel
      (parentRuns.kernel.processes 0).pid 0x600900 (leBytes 8 exitFrame.rdi)).2.vm = 7 := by
  decide +kernel

theorem exit_code_delivered_at_once :
    let r := syscallDispatch flatHardware programs cleanStack childExited 18 2 0x600900 0 0
    r.1 = 2 ∧ flatHardware.readByte 0x600900 r.2.kernel.vm = 7 := by
  obtain ⟨hp, hunused, hanswer, hrun, hfresh, hj, hpid, hspares, hcall, hq, hqp, hstore, hbyte⟩ :=
    sample_facts
  have hexec : syscallDispatch flatHardware programs cleanStack parentRuns 23 0x600078 0 0 0 =
      (2, childStarted) := by rw [← hanswer, childStarted]
  have heq := exit_code_delivered flatHardware programs parentRuns childStarted childRuns childExited
    childExited 0 0 1 2 cleanStack cleanStack cleanStack 0x600078 0 0 0 0x600900 0 0 exitFrame
    [.sched .threadYield, .sched .threadYield] [] hp hunused hexec (by decide) (by decide)
    (Machine.run_after hrun) hfresh hj hpid rfl hspares (Machine.call_after hcall)
    (Machine.run_nil _) trivial hq hqp hstore
  dsimp only
  rw [heq, Machine.setKernel_kernel]
  exact ⟨rfl, hbyte⟩

/-- `scheduler_process` is called once before the parent waits. -/
def childReaped : Machine (List (ℕ × UInt8)) Unit :=
  childExited.after flatHardware programs [.sched .schedulerProcess]

theorem exit_code_lost :
    (childExited.kernel.processes 1).state = .zombie ∧
      (childExited.kernel.processes 1).exitCode = 7 ∧ caller childReaped = some 0 ∧
      (syscallDispatch flatHardware programs cleanStack childReaped 18 2 0x600900 0 0).1 = 0 := by
  have hfacts : ((childExited.kernel.processes 1).state = .zombie ∧
      (childExited.kernel.processes 1).exitCode = 7) ∧ caller childReaped = some 0 ∧
      ∀ j, (childReaped.kernel.processes j).state = .zombie →
        (childReaped.kernel.processes j).pid ≠ 2 := by decide +kernel
  obtain ⟨⟨hzombie, hcode⟩, hcaller, hgone⟩ := hfacts
  refine ⟨hzombie, hcode, hcaller, ?_⟩
  have heq : syscallDispatch flatHardware programs cleanStack childReaped 18 2 0x600900 0 0 =
      sysWaitpid flatHardware childReaped (childReaped.kernel.processes 0).pid 2 0x600900 := by
    unfold syscallDispatch
    rw [hcaller]
    rfl
  rw [heq, sysWaitpid, endedChild_none (by decide) hgone]

end Sample

end NexusOS.Core
