import NexusOS.Core.Lifecycle

namespace NexusOS.Core

open Relation (ReflTransGen)

variable {V : Type*} {m : Memory V} {k k' k'' : Kernel V} {i : Fin 8} {pid cr3 va flags : ℕ}
  {P : ℕ → V → Prop} {pages pages' : List UserPage} {u : UserPage} {v v' : V}

section Steps

/-- The mapping that `process_map_user_page` asks for, once it has a page. -/
def mapFresh (m : Memory V) (cr3 va flags : ℕ) (v : V) : ℤ × V :=
  m.pagingMapPageInCr3 cr3 va (m.pmmAllocPage v).1 (pagePresent ||| pageUser ||| flags)
    (m.pmmAllocPage v).2

structure Mappable (va : ℕ) (pages : List UserPage) : Prop where
  aligned : va % 4096 = 0
  base : processUserBase ≤ va
  limit : va < processUserLimit
  fresh : ∀ u ∈ pages, u.va ≠ va

/-- What can happen to the records of a process and to the memory. A mapping is asked for at
addresses and in memories with `P` only. -/
inductive PageStep (m : Memory V) (cr3 : ℕ) (P : ℕ → V → Prop) :
    List UserPage × V → List UserPage × V → Prop
  | exhausted (pages : List UserPage) (v : V) (h0 : (m.pmmAllocPage v).1 = 0) :
      PageStep m cr3 P (pages, v) (pages, (m.pmmAllocPage v).2)
  | returned (pages : List UserPage) (v : V) (va flags : ℕ) (hP : P va v)
      (hva : Mappable va pages) (h0 : (m.pmmAllocPage v).1 ≠ 0)
      (hmap : (mapFresh m cr3 va flags v).1 = 0) :
      PageStep m cr3 P (pages, v)
        (pages, m.pmmFreePage (m.pmmAllocPage v).1 (mapFresh m cr3 va flags v).2)
  | recorded (pages : List UserPage) (v : V) (va flags : ℕ) (hP : P va v)
      (hva : Mappable va pages) (h0 : (m.pmmAllocPage v).1 ≠ 0)
      (hmap : (mapFresh m cr3 va flags v).1 ≠ 0) :
      PageStep m cr3 P (pages, v) (pages ++ [⟨va, (m.pmmAllocPage v).1, flags⟩],
        m.zeroPage (m.pmmAllocPage v).1 (mapFresh m cr3 va flags v).2)
  | released (pages pages' : List UserPage) (v v' : V) (u : UserPage)
      (hpages : pages.Perm (u :: pages'))
      (hv : v' = (m.pagingUnmapPageInCr3 cr3 u.va v).2 ∨ v' = v ∧ (cr3 = 0 ∨ u.va = 0)) :
      PageStep m cr3 P (pages, v) (pages', if u.phys ≠ 0 then m.pmmFreePage u.phys v' else v')

/-- The user memory of the process in slot `i` has taken steps, and nothing else has changed that
its life depends on. -/
structure SlotRun (m : Memory V) (P : ℕ → V → Prop) (k k' : Kernel V) (i : Fin 8) : Prop where
  other : ∀ j, j ≠ i → k'.processes j = k.processes j
  state : (k'.processes i).state = (k.processes i).state
  pid : (k'.processes i).pid = (k.processes i).pid
  cr3 : (k'.processes i).addressSpaceCr3 = (k.processes i).addressSpaceCr3
  ready : k'.processReady = k.processReady
  run : ReflTransGen (PageStep m (k.processes i).addressSpaceCr3 P)
    ((k.processes i).userPages, k.vm) ((k'.processes i).userPages, k'.vm)

theorem SlotRun.refl (m : Memory V) (P : ℕ → V → Prop) (k : Kernel V) (i : Fin 8) :
    SlotRun m P k k i :=
  ⟨fun _ _ ↦ rfl, rfl, rfl, rfl, rfl, .refl⟩

theorem SlotRun.trans (h : SlotRun m P k k' i) (h' : SlotRun m P k' k'' i) :
    SlotRun m P k k'' i := by
  refine ⟨fun j hj ↦ (h'.other j hj).trans (h.other j hj), h'.state.trans h.state,
    h'.pid.trans h.pid, h'.cr3.trans h.cr3, h'.ready.trans h.ready, ?_⟩
  have hrun := h'.run
  rw [h.cr3] at hrun
  exact h.run.trans hrun

theorem SlotRun.get (h : SlotRun m P k k' i) (hi : processGet k pid = some i) :
    processGet k' pid = some i := by
  rw [← hi]
  apply processGet_congr h.ready
  intro j
  by_cases hj : j = i
  · subst hj
    exact ⟨h.state, h.pid⟩
  rw [h.other j hj]
  exact ⟨rfl, rfl⟩

theorem SlotRun.write {p : Process} (hs : p.state = (k.processes i).state)
    (hp : p.pid = (k.processes i).pid)
    (hc : p.addressSpaceCr3 = (k.processes i).addressSpaceCr3)
    (hrun : ReflTransGen (PageStep m (k.processes i).addressSpaceCr3 P)
      ((k.processes i).userPages, k.vm) (p.userPages, v)) :
    SlotRun m P k { k.setProcess i p with vm := v } i := by
  refine ⟨?_, ?_, ?_, ?_, rfl, ?_⟩
  · intro j hj
    simp [hj]
  · simpa using hs
  · simpa using hp
  · simpa using hc
  · simpa using hrun

end Steps

section Calls

/-- Process `pid` is asked to map `va`, and the call gets as far as the page allocator. -/
def Asks (k : Kernel V) (pid va : ℕ) : Prop :=
  k.processReady = true ∧ ∃ i, processGet k pid = some i ∧ (k.processes i).state ≠ .zombie ∧
    (k.processes i).userPages.length < processUserMaxPages ∧ Mappable va (k.processes i).userPages

theorem processMapUserPage_run (hi : processGet k pid = some i) (hP : Asks k pid va → P va k.vm) :
    SlotRun m P k (processMapUserPage m k pid va flags).2 i := by
  unfold processMapUserPage
  rw [hi]
  dsimp only
  split_ifs with hrange hslot hany h0 hmap
  · exact .refl m P k i
  · exact .refl m P k i
  · exact .refl m P k i
  · exact ⟨fun _ _ ↦ rfl, rfl, rfl, rfl, rfl, .single (.exhausted _ _ h0)⟩
  all_goals
    simp only [not_or, not_not, not_lt, not_le, Bool.not_eq_true', Bool.not_eq_false] at hrange hslot
    have hva : Mappable va (k.processes i).userPages :=
      ⟨hrange.2.1, hrange.2.2.1, hrange.2.2.2, by simpa using hany⟩
    have hPv : P va k.vm := hP ⟨hrange.1, i, hi, hslot.1, hslot.2, hva⟩
  · exact ⟨fun _ _ ↦ rfl, rfl, rfl, rfl, rfl, .single (.returned _ _ va flags hPv hva h0 hmap)⟩
  · exact SlotRun.write rfl rfl rfl (.single (.recorded _ _ va flags hPv hva h0 hmap))

def PagesMeet (m : Memory V) (P : ℕ → V → Prop) (pid base flags : ℕ) : ℕ → ℕ → Kernel V → Prop
  | 0, _, _ => True
  | n + 1, j, k =>
    let va := (base + j * 4096) % 2 ^ 64
    (Asks k pid va → P va k.vm) ∧
      ((processMapUserPage m k pid va flags).1 = true →
        PagesMeet m P pid base flags n (j + 1) (processMapUserPage m k pid va flags).2)

theorem mapPages_run {base n j : ℕ} (hi : processGet k pid = some i)
    (hP : PagesMeet m P pid base flags n j k) :
    (∀ k', mapPages m pid base flags n j k = .ok k' → SlotRun m P k k' i) ∧
      ∀ l k', mapPages m pid base flags n j k = .error (l, k') → SlotRun m P k k' i := by
  induction n generalizing j k with
  | zero =>
    refine ⟨?_, ?_⟩
    · intro k' h
      obtain rfl := Except.ok.inj h
      exact .refl m P k i
    · intro l k' h
      cases h
  | succ n ih =>
    have hone : SlotRun m P k
        (processMapUserPage m k pid ((base + j * 4096) % 2 ^ 64) flags).2 i :=
      processMapUserPage_run hi hP.1
    simp only [mapPages]
    split_ifs with hr
    · obtain ⟨hok, herr⟩ := ih (hone.get hi) (hP.2 hr)
      exact ⟨fun k' h ↦ hone.trans (hok k' h), fun l k' h ↦ hone.trans (herr l k' h)⟩
    refine ⟨?_, ?_⟩
    · intro k' h
      cases h
    intro l k' h
    obtain ⟨-, rfl⟩ := Prod.mk.inj (Except.error.inj h)
    exact hone

theorem releasePages_run (pages : List UserPage) (v : V) :
    ReflTransGen (PageStep m cr3 P) (pages, v) ([], pages.foldl (releaseUserPage m cr3) v) := by
  induction pages generalizing v with
  | nil => exact .refl
  | cons u pages ih =>
    refine .head (.released (u :: pages) pages v _ u (.refl _) ?_) (ih (releaseUserPage m cr3 v u))
    by_cases h : cr3 ≠ 0 ∧ u.va ≠ 0
    · exact .inl (if_pos h)
    · exact .inr ⟨if_neg h, by tauto⟩

theorem processUnmapUserMemory_run (hi : processGet k pid = some i) :
    SlotRun m P k (processUnmapUserMemory m k pid).2 i := by
  unfold processUnmapUserMemory
  rw [hi]
  exact SlotRun.write rfl rfl rfl (releasePages_run _ _)

theorem perm_dropLast_set {j : ℕ} (h : pages[j]? = some u) :
    pages.Perm (u :: (pages.set j (pages.getLastD u)).dropLast) := by
  induction pages generalizing j with
  | nil => cases h
  | cons w pages ih =>
    cases j with
    | zero =>
      obtain rfl : w = u := by simpa using h
      cases pages using List.reverseRecOn with
      | nil => simp
      | append_singleton pages x =>
        have hlast : (w :: (pages ++ [x])).getLastD w = x := by
          rw [List.getLastD_eq_getLast?, ← List.cons_append, List.getLast?_concat, Option.getD_some]
        have hdrop : (x :: (pages ++ [x])).dropLast = x :: pages := by
          rw [← List.cons_append, List.dropLast_concat]
        rw [hlast, List.set_cons_zero, hdrop]
        exact (List.perm_append_singleton x pages).cons w
    | succ j =>
      have hj : pages[j]? = some u := by simpa using h
      have hne : pages ≠ [] := by
        rintro rfl
        cases hj
      have hlast : (w :: pages).getLastD u = pages.getLastD u := by
        rw [List.getLastD_cons, List.getLastD_eq_getLast?, List.getLastD_eq_getLast?,
          List.getLast?_eq_getLast_of_ne_nil hne]
        rfl
      rw [hlast, List.set_cons_succ, List.dropLast_cons_of_ne_nil (by simpa using hne)]
      exact ((ih hj).cons w).trans (.swap u w _)

theorem unmapRangeLoop_run (base stop n j : ℕ) (pages : List UserPage) (v : V) :
    ReflTransGen (PageStep m cr3 P) (pages, v) (unmapRangeLoop m cr3 base stop n j pages v) := by
  induction n generalizing j pages v with
  | zero => exact .refl
  | succ n ih =>
    rw [unmapRangeLoop]
    cases hu : pages[j]? with
    | none => exact .refl
    | some u =>
      dsimp only
      by_cases hin : base ≤ u.va ∧ u.va < stop
      · rw [if_pos hin]
        refine .head (.released pages _ v _ u (perm_dropLast_set hu) ?_) (ih j _ _)
        by_cases hcr3 : cr3 ≠ 0
        · exact .inl (if_pos hcr3)
        · exact .inr ⟨if_neg hcr3, .inl (not_not.1 hcr3)⟩
      · rw [if_neg hin]
        exact ih (j + 1) pages v

section

variable (hi : processGet k pid = some i)
include hi

theorem processUnmapUserRange_run (base size : ℕ) :
    SlotRun m P k (processUnmapUserRange m k pid base size).2 i := by
  unfold processUnmapUserRange
  rw [hi]
  dsimp only
  split_ifs
  · exact .refl m P k i
  · exact SlotRun.write rfl rfl rfl (unmapRangeLoop_run _ _ _ _ _ _)

theorem processMapUserMemory_run {base n : ℕ} (hP : PagesMeet m P pid base pageWritable n 0 k) :
    SlotRun m P k (processMapUserMemory m k pid base n).2 i := by
  obtain ⟨hok, herr⟩ := mapPages_run hi hP
  unfold processMapUserMemory
  rw [hi]
  dsimp only
  split_ifs
  · exact .refl m P k i
  · exact .refl m P k i
  cases hmap : mapPages m pid base pageWritable n 0 k with
  | error e =>
    have hrun := herr e.1 e.2 hmap
    exact hrun.trans (processUnmapUserMemory_run (hrun.get hi))
  | ok k' => exact (hok k' hmap).trans (SlotRun.write rfl rfl rfl .refl)

theorem processAllocUserRange_run {n : ℕ}
    (hP : PagesMeet m P pid (heapStart (k.processes i)) flags n 0 k) :
    SlotRun m P k (processAllocUserRange m k pid n flags).2 i := by
  obtain ⟨hok, herr⟩ := mapPages_run hi hP
  unfold processAllocUserRange
  rw [hi]
  dsimp only
  split_ifs
  · exact .refl m P k i
  · exact .refl m P k i
  · exact .refl m P k i
  cases hmap : mapPages m pid (heapStart (k.processes i)) flags n 0 k with
  | error e =>
    have hrun := herr e.1 e.2 hmap
    exact hrun.trans (processUnmapUserRange_run (hrun.get hi) _ _)
  | ok k' => exact (hok k' hmap).trans (SlotRun.write rfl rfl rfl .refl)

end

end Calls

section Runs

inductive UserOp
  | mapUserPage (va flags : ℕ)
  | mapUserMemory (base pages : ℕ)
  | allocUserRange (pages flags : ℕ)
  | unmapUserRange (base size : ℕ)
  | unmapUserMemory

def userStep (m : Memory V) (pid : ℕ) (k : Kernel V) : UserOp → Kernel V
  | .mapUserPage va flags => (processMapUserPage m k pid va flags).2
  | .mapUserMemory base pages => (processMapUserMemory m k pid base pages).2
  | .allocUserRange pages flags => (processAllocUserRange m k pid pages flags).2
  | .unmapUserRange base size => (processUnmapUserRange m k pid base size).2
  | .unmapUserMemory => (processUnmapUserMemory m k pid).2

def UserOp.Meets (m : Memory V) (P : ℕ → V → Prop) (pid : ℕ) (k : Kernel V) : UserOp → Prop
  | .mapUserPage va _ => Asks k pid va → P va k.vm
  | .mapUserMemory base pages => PagesMeet m P pid base pageWritable pages 0 k
  | .allocUserRange pages flags =>
    ∀ i, processGet k pid = some i → PagesMeet m P pid (heapStart (k.processes i)) flags pages 0 k
  | _ => True

theorem userStep_run {op : UserOp} (hi : processGet k pid = some i) (hP : op.Meets m P pid k) :
    SlotRun m P k (userStep m pid k op) i := by
  cases op with
  | mapUserPage va flags => exact processMapUserPage_run hi hP
  | mapUserMemory base pages => exact processMapUserMemory_run hi hP
  | allocUserRange pages flags => exact processAllocUserRange_run hi (hP i hi)
  | unmapUserRange base size => exact processUnmapUserRange_run hi base size
  | unmapUserMemory => exact processUnmapUserMemory_run hi

theorem pagesMeet_true (base n j : ℕ) (k : Kernel V) :
    PagesMeet m (fun _ _ ↦ True) pid base flags n j k := by
  induction n generalizing j k with
  | zero => trivial
  | succ n ih => exact ⟨fun _ ↦ trivial, fun _ ↦ ih (j + 1) _⟩

theorem UserOp.meets_true (op : UserOp) (k : Kernel V) : op.Meets m (fun _ _ ↦ True) pid k := by
  cases op with
  | mapUserPage va flags => exact fun _ ↦ trivial
  | mapUserMemory base pages => exact pagesMeet_true base pages 0 k
  | allocUserRange pages flags => exact fun i _ ↦ pagesMeet_true _ pages 0 k
  | unmapUserRange base size => trivial
  | unmapUserMemory => trivial

theorem SlotRun.all (hi : processGet k pid = some i) (ops : List UserOp) :
    SlotRun m (fun _ _ ↦ True) k (ops.foldl (userStep m pid) k) i := by
  refine Lib.foldl_invariant (I := fun k' ↦ SlotRun m _ k k' i) ?_ (.refl m _ k i) ops
  intro k' op h
  exact h.trans (userStep_run (h.get hi) (op.meets_true k'))

theorem processCreate_found {ticks parentPid : ℕ}
    (h : (processCreate m k ticks parentPid).1 = pid) (hpid : pid ≠ 0)
    (hfresh : ∀ j, (k.processes j).state ≠ .unused → (k.processes j).pid ≠ pid) :
    let k₁ := (processCreate m k ticks parentPid).2
    ∃ i, processGet k₁ pid = some i ∧ (m.pagingCreateAddressSpace k.vm).1 ≠ 0 ∧
      k₁.vm = (m.pagingCreateAddressSpace k.vm).2 ∧ (∀ j, j ≠ i → k₁.processes j = k.processes j) ∧
      k₁.processes i = created (announced (k.processes i) pid parentPid
        (parentCapabilities k parentPid) ticks) (m.pagingCreateAddressSpace k.vm).1 := by
  intro k₁
  rcases processCreate_cases m k ticks parentPid with
    he | ⟨i, -, hready, ⟨p, -, he⟩ | ⟨h0, he⟩⟩
  · exact absurd (h.symm.trans (congrArg Prod.fst he)) hpid
  · exact absurd (h.symm.trans (congrArg Prod.fst he)) hpid
  · have hp := h.symm.trans (congrArg Prod.fst he)
    have hk := congrArg Prod.snd he
    change k₁ = _ at hk
    have hself : k₁.processes i = created (announced (k.processes i) pid parentPid
        (parentCapabilities k parentPid) ticks) (m.pagingCreateAddressSpace k.vm).1 := by
      rw [hk, hp]
      exact Function.update_self ..
    have hother : ∀ j, j ≠ i → k₁.processes j = k.processes j := by
      intro j hj
      rw [hk]
      exact Function.update_of_ne hj ..
    refine ⟨i, ?_, h0, by rw [hk], hother, hself⟩
    have hi : (k₁.processes i).pid = pid := by rw [hself]; rfl
    rw [← hi]
    apply processGet_of_unique
    · rw [hk]
      exact hready
    · rwa [hi]
    · rw [hself]
      exact ProcessState.noConfusion
    intro j hj hjpid
    by_contra hne
    rw [hother j hne] at hj hjpid
    exact hfresh j hj (hjpid.trans hi)

end Runs

end NexusOS.Core
