import NexusOS.Core.MachineSteps

namespace NexusOS.Core

open Fs Sched

variable {V F : Type*} {m : Memory V} {k k' : Kernel V} {R : ℕ → Prop} {j : Fin 8}

section Masks

def Submask (a b : ℕ) : Prop := a &&& b = a

instance (a b : ℕ) : Decidable (Submask a b) := inferInstanceAs (Decidable (a &&& b = a))

theorem Submask.refl (a : ℕ) : Submask a a := Nat.and_self a

theorem Submask.trans {a b c : ℕ} (h : Submask a b) (h' : Submask b c) : Submask a c := by
  unfold Submask at *
  rw [← h, Nat.and_assoc, h']

/-- The process of a slot is an earlier one, with no more capabilities. -/
structure Heir (p p' : Process) : Prop where
  used : p.state ≠ .unused
  pid : p'.pid = p.pid
  parentPid : p'.parentPid = p.parentPid
  capabilities : Submask p'.capabilities p.capabilities

theorem Heir.trans {p p' p'' : Process} (h : Heir p p') (h' : Heir p' p'') : Heir p p'' :=
  ⟨h.used, h'.pid.trans h.pid, h'.parentPid.trans h.parentPid,
    h'.capabilities.trans h.capabilities⟩

theorem Heir.of_eq {p p' : Process} (hp : p' = p) (h : p.state ≠ .unused) : Heir p p' := by
  subst hp
  exact ⟨h, rfl, rfl, .refl _⟩

theorem paused_heir (i : Option (Fin 8)) (h : (paused k i j).state ≠ .unused) :
    Heir (k.processes j) (paused k i j) := by
  unfold paused at h ⊢
  split_ifs with hp
  · refine ⟨?_, rfl, rfl, .refl _⟩
    rw [hp.2.2]
    decide
  · rw [if_neg hp] at h
    exact .of_eq rfl h

theorem Edit.heir (h : Edit m R k k') (hj : (k'.processes j).state ≠ .unused) :
    Heir (k.processes j) (k'.processes j) := by
  cases h with
  | update h =>
    have hkept := h.process j
    rw [hkept.state] at hj
    exact ⟨hj, hkept.pid, hkept.parentPid, hkept.capabilities⟩
  | setCurrent pid =>
    rcases processSetCurrent_cases k pid with heq | ⟨i, hi, hs, heq⟩
    · rw [heq] at hj ⊢
      exact .of_eq rfl hj
    rw [heq] at hj ⊢
    by_cases hji : j = i
    · subst hji
      simp only [Function.update_self] at hj ⊢
      exact ⟨(processGet_some hi).1, rfl, rfl, .refl _⟩
    · simp only [Function.update_of_ne hji] at hj ⊢
      exact paused_heir _ hj
  | clearCurrent =>
    rw [processClearCurrent_eq] at hj ⊢
    exact paused_heir _ hj
  | exit pid code reason =>
    rcases processExitWithCode_cases k pid code reason with
      ⟨heq, -⟩ | ⟨i, k₁, hi, hz, hipc, heq⟩
    · rw [heq] at hj ⊢
      exact .of_eq rfl hj
    · rw [heq] at hj ⊢
      obtain ⟨handles, hsame⟩ := hipc.process j
      by_cases hji : j = i
      · subst hji
        simp only [Function.update_self, hsame]
        exact ⟨(processGet_some hi).1, rfl, rfl, .refl _⟩
      · simp only [Function.update_of_ne hji, hsame] at hj ⊢
        exact ⟨hj, rfl, rfl, .refl _⟩
  | reap pid tid =>
    rcases processReap_eq m k pid tid with heq | ⟨i, hi, hz, heq⟩
    · rw [heq] at hj ⊢
      exact .of_eq rfl hj
    rw [heq] at hj ⊢
    by_cases hji : j = i
    · subst hji
      simp [reaped] at hj
    simp only [Function.update_of_ne hji] at hj ⊢
    exact .of_eq rfl hj

theorem Edits.heir (h : Edits m R k k') (hj : (k'.processes j).state ≠ .unused) :
    Heir (k.processes j) (k'.processes j) := by
  induction h with
  | refl => exact .of_eq rfl hj
  | tail _ hedit ih =>
    have hlast := hedit.heir hj
    exact (ih hlast.used).trans hlast

theorem processCreate_heir {ticks parent : ℕ} {i : Fin 8} (hi : processGet k parent = some i)
    (hj : ((processCreate m k ticks parent).2.processes j).state ≠ .unused) :
    Heir (k.processes j) ((processCreate m k ticks parent).2.processes j) ∨
      (k.processes j).state = .unused ∧
      ((processCreate m k ticks parent).2.processes j).parentPid = parent ∧
      Submask ((processCreate m k ticks parent).2.processes j).capabilities
        (k.processes i).capabilities := by
  rcases processCreate_cases m k ticks parent with heq | ⟨l, hl, -, ⟨p, hp, heq⟩ | ⟨-, heq⟩⟩
  · rw [heq] at hj ⊢
    exact .inl (.of_eq rfl hj)
  · rw [heq] at hj ⊢
    by_cases hjl : j = l
    · subst hjl
      simp [hp] at hj
    simp only [Function.update_of_ne hjl] at hj ⊢
    exact .inl (.of_eq rfl hj)
  rw [heq] at hj ⊢
  by_cases hjl : j = l
  · subst hjl
    have hcaps : parentCapabilities k parent = (k.processes i).capabilities := by
      simp [parentCapabilities, hi]
    simp only [Function.update_self, created, announced, hcaps]
    exact .inr ⟨hl, trivial, .refl _⟩
  · simp only [Function.update_of_ne hjl] at hj ⊢
    exact .inl (.of_eq rfl hj)

end Masks

section Runs

variable {m : Hardware V} {fat : Fat F} {s s' : Machine V F} {e : Event}

/-- A system call, or something else that is not a `process_create` of the kernel's own. -/
def Event.isCall : Event → Bool
  | .sched (.processCreate _) => false
  | _ => true

theorem call_heir (he : e.isCall = true) (h : s.call m fat e = .ok s')
    (hj : (s'.kernel.processes j).state ≠ .unused) :
    Heir (s.kernel.processes j) (s'.kernel.processes j) ∨
      (s.kernel.processes j).state = .unused ∧ ∃ i, caller s = some i ∧
        (s'.kernel.processes j).parentPid = (s.kernel.processes i).pid ∧
        Submask (s'.kernel.processes j).capabilities (s.kernel.processes i).capabilities := by
  rcases call_edits (R := fun _ ↦ True) (fun _ _ _ _ _ _ ↦ trivial) (fun _ ↦ trivial) h with
    hedits | ⟨parent, hparent, hedits⟩
  · exact .inl (hedits.heir hj)
  · rcases hparent with ⟨i, hi, rfl⟩ | rfl
    · have hlast := hedits.heir hj
      rcases processCreate_heir (caller_get hi).1 hlast.used with hfirst | ⟨hnew, hpid, hcaps⟩
      · exact .inl (hfirst.trans hlast)
      · exact .inr ⟨hnew, i, hi, hlast.parentPid.trans hpid, hlast.capabilities.trans hcaps⟩
    · cases he

/-- Slot `j` is in use in every state of a run. -/
def livesThrough (m : Hardware V) (fat : Fat F) (j : Fin 8) : Machine V F → List Event → Bool
  | s, [] => (s.kernel.processes j).state ≠ .unused
  | s, e :: es => (s.kernel.processes j).state ≠ .unused &&
      match s.call m fat e with
      | .error _ => true
      | .ok s' => livesThrough m fat j s' es

theorem livesThrough_used {es : List Event} (h : livesThrough m fat j s es = true) :
    (s.kernel.processes j).state ≠ .unused := by
  cases es with
  | nil => simpa [livesThrough] using h
  | cons e es =>
    simp only [livesThrough, Bool.and_eq_true, decide_eq_true_eq] at h
    exact h.1

theorem livesThrough_heir {es : List Event} (hes : ∀ e ∈ es, e.isCall = true)
    (hrun : s.run m fat es = .ok s') (h : livesThrough m fat j s es = true) :
    Heir (s.kernel.processes j) (s'.kernel.processes j) := by
  induction es generalizing s with
  | nil =>
    obtain rfl := Except.ok.inj hrun
    exact .of_eq rfl (livesThrough_used h)
  | cons e es ih =>
    obtain ⟨s₁, hcall, hrest⟩ := Machine.run_cons.1 hrun
    have hlives : livesThrough m fat j s₁ es = true := by
      simp only [livesThrough, hcall, Bool.and_eq_true] at h
      exact h.2
    rcases call_heir (hes e List.mem_cons_self) hcall (livesThrough_used hlives) with
      hone | ⟨hnew, -⟩
    · exact hone.trans (ih (fun e he ↦ hes e (List.mem_cons_of_mem _ he)) hrest hlives)
    · exact absurd hnew (livesThrough_used h)

/-- In a sequence of system calls by any processes, a process has no more capabilities at the end
than at the beginning, and one that is created has no more than its parent has then, and no more at
the end than after its creation. -/
theorem capabilities_only_shrink (m : Hardware V) (fat : Fat F) (s s' : Machine V F)
    (es : List Event) (hes : ∀ e ∈ es, e.isCall = true) (hrun : s.run m fat es = .ok s') :
    (∀ j, livesThrough m fat j s es = true →
      Submask (s'.kernel.processes j).capabilities (s.kernel.processes j).capabilities) ∧
    ∀ es₁ e es₂ s₁ s₂, es = es₁ ++ e :: es₂ → s.run m fat es₁ = .ok s₁ →
      s₁.call m fat e = .ok s₂ → ∀ j, (s₁.kernel.processes j).state = .unused →
      (s₂.kernel.processes j).state ≠ .unused →
      (∃ i, caller s₁ = some i ∧ (s₂.kernel.processes j).parentPid = (s₁.kernel.processes i).pid ∧
        Submask (s₂.kernel.processes j).capabilities (s₁.kernel.processes i).capabilities) ∧
      (livesThrough m fat j s₂ es₂ = true →
        Submask (s'.kernel.processes j).capabilities (s₂.kernel.processes j).capabilities) := by
  refine ⟨fun j hj ↦ (livesThrough_heir hes hrun hj).capabilities, ?_⟩
  intro es₁ e es₂ s₁ s₂ hsplit hrun₁ hcall j hunused hused
  subst hsplit
  have he : e.isCall = true := hes e (by simp)
  have hes₂ : ∀ e ∈ es₂, e.isCall = true := fun e he ↦ hes e (by simp [he])
  constructor
  · rcases call_heir he hcall hused with hheir | ⟨-, hnew⟩
    · exact absurd hunused hheir.used
    · exact hnew
  intro hlives
  obtain ⟨s₃, hrun₃, hrest⟩ := Machine.run_append.1 hrun
  obtain ⟨s₄, hcall₄, hrun₄⟩ := Machine.run_cons.1 hrest
  obtain rfl : s₁ = s₃ := Except.ok.inj (hrun₁.symm.trans hrun₃)
  obtain rfl : s₂ = s₄ := Except.ok.inj (hcall.symm.trans hcall₄)
  exact (livesThrough_heir hes₂ hrun₄ hlives).capabilities

def droppingRun : List Event :=
  [.sched .threadYield, .dispatch cleanStack 67 capFilesystemWrite 0 0 0,
    .dispatch cleanStack 23 0x600078 0 0 0]

theorem capabilities_only_shrink_exec :
    ∃ s', bootMachine.run flatHardware programs droppingRun = .ok s' ∧
      (s'.kernel.processes 1).state = .ready ∧ (s'.kernel.processes 1).capabilities = 0x7F7 ∧
      Submask (s'.kernel.processes 0).capabilities (bootMachine.kernel.processes 0).capabilities := by
  obtain ⟨s', hs'⟩ : ∃ s', bootMachine.run flatHardware programs droppingRun = .ok s' :=
    exists_of_isOk (by decide +kernel)
  have hchild : (bootMachine.run flatHardware programs droppingRun).toOption.map (fun s ↦
      ((s.kernel.processes 1).state, (s.kernel.processes 1).capabilities)) =
        some (.ready, 0x7F7) := by decide +kernel
  rw [hs'] at hchild
  obtain ⟨hstate, hcaps⟩ := Prod.mk.inj (Option.some.inj hchild)
  refine ⟨s', hs', hstate, hcaps, ?_⟩
  have hcalls : ∀ e ∈ droppingRun, e.isCall = true := by simp [droppingRun, Event.isCall]
  exact (capabilities_only_shrink flatHardware programs bootMachine s' droppingRun hcalls hs').1 0
    (by decide +kernel)

end Runs

end NexusOS.Core
