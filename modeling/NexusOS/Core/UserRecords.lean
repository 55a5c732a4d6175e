import NexusOS.Core.UserAccounting

namespace NexusOS.Core

open Relation (ReflTransGen)

variable {V : Type*} {m : Memory V} {k k' : Kernel V} {i : Fin 8} {pid cr3 va flags : ℕ}
  {P : ℕ → V → Prop} {pages pages' : List UserPage} {u : UserPage}

section Recorded

/-- The records fit in the table, and their addresses are distinct pages of the user space. -/
structure Recorded (pages : List UserPage) : Prop where
  count : pages.length ≤ processUserMaxPages
  distinct : (pages.map UserPage.va).Nodup
  inside : ∀ u ∈ pages, u.va % 4096 = 0 ∧ processUserBase ≤ u.va ∧ u.va < processUserLimit

theorem recorded_nil : Recorded [] := ⟨Nat.zero_le _, List.nodup_nil, by simp⟩

theorem Recorded.perm (h : Recorded pages) (hp : pages.Perm pages') : Recorded pages' :=
  ⟨hp.length_eq ▸ h.count, (hp.map UserPage.va).nodup_iff.1 h.distinct,
    fun u hu ↦ h.inside u (hp.mem_iff.2 hu)⟩

theorem Recorded.sublist (h : Recorded pages) (hs : pages'.Sublist pages) : Recorded pages' :=
  ⟨hs.length_le.trans h.count, (hs.map UserPage.va).nodup h.distinct,
    fun u hu ↦ h.inside u (hs.subset hu)⟩

theorem Recorded.append (h : Recorded pages) (hva : Mappable u.va pages)
    (hlt : pages.length < processUserMaxPages) : Recorded (pages ++ [u]) := by
  refine ⟨?_, ?_, ?_⟩
  · rw [List.length_append]
    exact hlt
  · rw [List.map_append, List.map_singleton, ← List.concat_eq_append, List.nodup_concat]
    refine ⟨?_, h.distinct⟩
    intro hmem
    obtain ⟨w, hw, heq⟩ := List.mem_map.1 hmem
    exact hva.fresh w hw heq
  intro w hw
  rcases List.mem_append.1 hw with hw | hw
  · exact h.inside w hw
  obtain rfl := List.mem_singleton.1 hw
  exact ⟨hva.aligned, hva.base, hva.limit⟩

end Recorded

section Mapping

/-- Only the records and the flags of slot `i` differ. -/
structure Regrown (k k' : Kernel V) (i : Fin 8) (pages : List UserPage) : Prop where
  other : ∀ j, j ≠ i → k'.processes j = k.processes j
  slot : ∃ flags, k'.processes i = { k.processes i with userPages := pages, flags := flags }
  ready : k'.processReady = k.processReady

theorem Regrown.same (k : Kernel V) (i : Fin 8) (v : V) :
    Regrown k { k with vm := v } i (k.processes i).userPages :=
  ⟨fun _ _ ↦ rfl, ⟨(k.processes i).flags, rfl⟩, rfl⟩

section

variable (h : Regrown k k' i pages)
include h

theorem Regrown.records : (k'.processes i).userPages = pages := by
  obtain ⟨flags, hslot⟩ := h.slot
  rw [hslot]

theorem Regrown.heapEnd : (k'.processes i).heapEnd = (k.processes i).heapEnd := by
  obtain ⟨flags, hslot⟩ := h.slot
  rw [hslot]

theorem Regrown.trans {k'' : Kernel V} (h' : Regrown k' k'' i pages') : Regrown k k'' i pages' := by
  obtain ⟨flags, hslot⟩ := h.slot
  obtain ⟨flags', hslot'⟩ := h'.slot
  refine ⟨fun j hj ↦ (h'.other j hj).trans (h.other j hj), ⟨flags', ?_⟩, h'.ready.trans h.ready⟩
  rw [hslot', hslot]

theorem Regrown.get (hi : processGet k pid = some i) : processGet k' pid = some i := by
  rw [← hi]
  apply processGet_congr h.ready
  intro j
  by_cases hj : j = i
  · subst hj
    obtain ⟨flags, hslot⟩ := h.slot
    rw [hslot]
    exact ⟨rfl, rfl⟩
  · rw [h.other j hj]
    exact ⟨rfl, rfl⟩

end

theorem processMapUserPage_records (hi : processGet k pid = some i) (va flags : ℕ) :
    ((processMapUserPage m k pid va flags).1 = false ∧
        Regrown k (processMapUserPage m k pid va flags).2 i (k.processes i).userPages) ∨
      ((processMapUserPage m k pid va flags).1 = true ∧ Mappable va (k.processes i).userPages ∧
        (k.processes i).userPages.length < processUserMaxPages ∧ ∃ phys,
          Regrown k (processMapUserPage m k pid va flags).2 i
            ((k.processes i).userPages ++ [⟨va, phys, flags⟩])) := by
  unfold processMapUserPage
  rw [hi]
  dsimp only
  split_ifs with hrange hslot hany h0 hmap
  · exact .inl ⟨rfl, Regrown.same k i k.vm⟩
  · exact .inl ⟨rfl, Regrown.same k i k.vm⟩
  · exact .inl ⟨rfl, Regrown.same k i k.vm⟩
  · exact .inl ⟨rfl, Regrown.same k i _⟩
  · exact .inl ⟨rfl, Regrown.same k i _⟩
  simp only [not_or, not_not, not_lt, not_le, Bool.not_eq_true', Bool.not_eq_false] at hrange hslot
  refine .inr ⟨rfl, ⟨hrange.2.1, hrange.2.2.1, hrange.2.2.2, by simpa using hany⟩, hslot.2,
    (m.pmmAllocPage k.vm).1, ?_, ⟨(k.processes i).flags ||| 2, ?_⟩, rfl⟩
  · intro j hj
    simp [hj]
  · simp

def pageRange (base j n : ℕ) : List ℕ := (List.range' j n).map fun l ↦ (base + l * 4096) % 2 ^ 64

theorem mapPages_records (hi : processGet k pid = some i)
    (hrec : Recorded (k.processes i).userPages) (base flags n j : ℕ) :
    (∀ k', mapPages m pid base flags n j k = .ok k' → ∃ new,
        Regrown k k' i ((k.processes i).userPages ++ new) ∧
          Recorded ((k.processes i).userPages ++ new) ∧
          new.map UserPage.va = pageRange base j n) ∧
      ∀ l k', mapPages m pid base flags n j k = .error (l, k') → ∃ new, j ≤ l ∧ l < j + n ∧
        Regrown k k' i ((k.processes i).userPages ++ new) ∧
          Recorded ((k.processes i).userPages ++ new) ∧
          new.map UserPage.va = pageRange base j (l - j) := by
  induction n generalizing j k with
  | zero =>
    refine ⟨?_, ?_⟩
    · intro k' h
      obtain rfl := Except.ok.inj h
      exact ⟨[], by simpa using Regrown.same k i k.vm, by simpa using hrec, rfl⟩
    · intro l k' h
      cases h
  | succ n ih =>
    rw [mapPages]
    rcases processMapUserPage_records (m := m) hi ((base + j * 4096) % 2 ^ 64) flags with
      ⟨hfalse, hsame⟩ | ⟨htrue, hva, hlt, phys, hgrown⟩
    · rw [if_neg (ne_true_of_eq_false hfalse)]
      refine ⟨?_, ?_⟩
      · intro k' h
        cases h
      intro l k' h
      obtain ⟨rfl, rfl⟩ := Prod.mk.inj (Except.error.inj h)
      exact ⟨[], le_rfl, by omega, by simpa using hsame, by simpa using hrec, by simp [pageRange]⟩
    · rw [if_pos htrue]
      have hrec' := hrec.append (u := ⟨_, phys, flags⟩) hva hlt
      rw [← hgrown.records] at hrec'
      obtain ⟨hok, herr⟩ := ih (j := j + 1) (hgrown.get hi) hrec'
      rw [hgrown.records] at hok herr
      refine ⟨?_, ?_⟩
      · intro k' h
        obtain ⟨new, hnew, hcount, hvas⟩ := hok k' h
        rw [List.append_assoc] at hnew hcount
        refine ⟨_, hgrown.trans hnew, hcount, ?_⟩
        rw [List.map_append, hvas, pageRange, pageRange, List.range'_succ]
        rfl
      intro l k' h
      obtain ⟨new, hle, hlt', hnew, hcount, hvas⟩ := herr l k' h
      rw [List.append_assoc] at hnew hcount
      refine ⟨_, by omega, by omega, hgrown.trans hnew, hcount, ?_⟩
      have hsteps : l - j = l - (j + 1) + 1 := by omega
      rw [List.map_append, hvas, pageRange, pageRange, hsteps, List.range'_succ]
      rfl

end Mapping

section Unmapping

theorem dropLast_set_append (before after : List UserPage) (u : UserPage) :
    ∃ rest, ((before ++ u :: after).set before.length ((before ++ u :: after).getLastD u)).dropLast =
      before ++ rest ∧ rest.Perm after := by
  cases after using List.reverseRecOn with
  | nil => exact ⟨[], by simp, .refl _⟩
  | append_singleton after w =>
    have hlast : (before ++ u :: (after ++ [w])).getLastD u = w := by
      rw [List.getLastD_eq_getLast?, ← List.cons_append, ← List.append_assoc, List.getLast?_concat]
      rfl
    refine ⟨w :: after, ?_, (List.perm_append_singleton w after).symm⟩
    rw [hlast, List.set_append_right _ _ le_rfl, Nat.sub_self, List.set_cons_zero,
      ← List.cons_append, ← List.append_assoc, List.dropLast_concat]

theorem unmapRangeLoop_records (cr3 base stop n : ℕ) (before after : List UserPage) (v : V)
    (hn : after.length ≤ n) :
    (unmapRangeLoop m cr3 base stop n before.length (before ++ after) v).1.Perm
      (before ++ after.filter fun u ↦ ¬(base ≤ u.va ∧ u.va < stop)) := by
  induction n generalizing before after v with
  | zero =>
    obtain rfl : after = [] := List.length_eq_zero_iff.1 (by omega)
    simp [unmapRangeLoop]
  | succ n ih =>
    rw [unmapRangeLoop]
    cases after with
    | nil => simp
    | cons u after =>
      have hget : (before ++ u :: after)[before.length]? = some u := by simp
      rw [List.length_cons] at hn
      rw [hget]
      dsimp only
      by_cases hin : base ≤ u.va ∧ u.va < stop
      · rw [if_pos hin]
        obtain ⟨rest, heq, hperm⟩ := dropLast_set_append before after u
        rw [heq]
        refine (ih before rest _ (by rw [hperm.length_eq]; omega)).trans ?_
        rw [List.filter_cons_of_neg (by simpa using hin)]
        exact (hperm.filter _).append_left before
      rw [if_neg hin]
      have hnext := ih (before ++ [u]) after v (by omega)
      rw [List.length_append, List.length_singleton, List.append_assoc, List.append_assoc] at hnext
      rw [List.filter_cons_of_pos (by simpa only [decide_eq_true_eq] using hin)]
      exact hnext

def RangeOk (base size : ℕ) : Prop :=
  size ≠ 0 ∧ base % 4096 = 0 ∧ size % 4096 = 0 ∧ base ≤ (base + size) % 2 ^ 64

instance (base size : ℕ) : Decidable (RangeOk base size) :=
  inferInstanceAs (Decidable (_ ∧ _ ∧ _ ∧ _))

theorem processUnmapUserRange_bad {base size : ℕ} (h : ¬ RangeOk base size) :
    processUnmapUserRange m k pid base size = (false, k) := by
  unfold processUnmapUserRange
  cases processGet k pid with
  | none => rfl
  | some i =>
    refine if_pos ?_
    unfold RangeOk at h
    omega

theorem processUnmapUserRange_records (hi : processGet k pid = some i) (base size : ℕ)
    (h : RangeOk base size) :
    (processUnmapUserRange m k pid base size).1 = true ∧
      ((processUnmapUserRange m k pid base size).2.processes i).userPages.Perm
        ((k.processes i).userPages.filter fun u ↦ ¬(base ≤ u.va ∧ u.va < (base + size) % 2 ^ 64)) ∧
      ((processUnmapUserRange m k pid base size).2.processes i).heapEnd =
        (k.processes i).heapEnd := by
  obtain ⟨hsize, hbase, hpages, hstop⟩ := h
  unfold processUnmapUserRange
  rw [hi]
  dsimp only
  rw [if_neg (by omega)]
  refine ⟨rfl, ?_, by simp⟩
  have hloop := unmapRangeLoop_records (m := m) (k.processes i).addressSpaceCr3 base
    ((base + size) % 2 ^ 64) (k.processes i).userPages.length [] (k.processes i).userPages k.vm le_rfl
  simpa using hloop

theorem processUnmapUserRange_recorded (hi : processGet k pid = some i)
    (hrec : Recorded (k.processes i).userPages) (base size : ℕ) :
    Recorded ((processUnmapUserRange m k pid base size).2.processes i).userPages := by
  by_cases h : RangeOk base size
  · exact (hrec.sublist List.filter_sublist).perm (processUnmapUserRange_records hi _ _ h).2.1.symm
  rw [processUnmapUserRange_bad h]
  exact hrec

theorem heapStart_inside (p : Process) :
    processUserBase ≤ heapStart p ∧ heapStart p < processUserLimit := by
  unfold heapStart
  split_ifs with h
  · exact ⟨by decide, by decide⟩
  · omega

theorem mem_pageRange {base n : ℕ} (hstop : base + n * 4096 < 2 ^ 64) :
    va ∈ pageRange base 0 n ↔ ∃ l < n, va = base + l * 4096 := by
  have hmod : ∀ l < n, (base + l * 4096) % 2 ^ 64 = base + l * 4096 := by
    intro l hl
    have hle : base + l * 4096 ≤ base + n * 4096 := by omega
    exact Nat.mod_eq_of_lt (hle.trans_lt hstop)
  simp only [pageRange, List.mem_map, List.mem_range'_1, Nat.zero_le, true_and, Nat.zero_add]
  constructor
  · rintro ⟨l, hl, rfl⟩
    exact ⟨l, hl, hmod l hl⟩
  rintro ⟨l, hl, rfl⟩
  exact ⟨l, hl, hmod l hl⟩

theorem filter_new_records {base n : ℕ} {new : List UserPage} (hrec : Recorded (pages ++ new))
    (hvas : new.map UserPage.va = pageRange base 0 n) (hbase : base % 4096 = 0)
    (hstop : base + n * 4096 < 2 ^ 64) :
    (pages ++ new).filter (fun u ↦ ¬(base ≤ u.va ∧ u.va < base + n * 4096)) = pages := by
  rw [List.filter_append]
  have hold : pages.filter (fun u ↦ ¬(base ≤ u.va ∧ u.va < base + n * 4096)) = pages := by
    rw [List.filter_eq_self]
    intro u hu
    rw [decide_eq_true_eq]
    rintro ⟨hle, hlt⟩
    have haligned := (hrec.inside u (List.mem_append_left _ hu)).1
    have hnew : u.va ∈ new.map UserPage.va :=
      hvas ▸ (mem_pageRange hstop).2 ⟨(u.va - base) / 4096, by omega, by omega⟩
    have hdistinct := hrec.distinct
    rw [List.map_append, List.nodup_append] at hdistinct
    exact hdistinct.2.2 u.va (List.mem_map_of_mem hu) u.va hnew rfl
  have hempty : new.filter (fun u ↦ ¬(base ≤ u.va ∧ u.va < base + n * 4096)) = [] := by
    rw [List.filter_eq_nil_iff]
    intro u hu
    have hnew : u.va ∈ new.map UserPage.va := List.mem_map_of_mem hu
    rw [hvas, mem_pageRange hstop] at hnew
    obtain ⟨l, hl, hva⟩ := hnew
    rw [decide_eq_true_eq, not_not]
    omega
  rw [hold, hempty, List.append_nil]

section

variable (hi : processGet k pid = some i)
include hi

theorem processAllocUserRange_records {n : ℕ} (hrec : Recorded (k.processes i).userPages) :
    Recorded ((processAllocUserRange m k pid n flags).2.processes i).userPages ∧
      ((processAllocUserRange m k pid n flags).1 = 0 →
        ((processAllocUserRange m k pid n flags).2.processes i).userPages.Perm
            (k.processes i).userPages ∧
          ((processAllocUserRange m k pid n flags).2.processes i).heapEnd =
            (k.processes i).heapEnd) := by
  obtain ⟨hbase, hlimit⟩ := heapStart_inside (k.processes i)
  obtain ⟨hok, herr⟩ := mapPages_records (m := m) hi hrec (heapStart (k.processes i)) flags n 0
  unfold processAllocUserRange
  rw [hi]
  dsimp only
  split_ifs with hzombie hmany hbytes
  · exact ⟨hrec, fun _ ↦ ⟨.refl _, rfl⟩⟩
  · exact ⟨hrec, fun _ ↦ ⟨.refl _, rfl⟩⟩
  · exact ⟨hrec, fun _ ↦ ⟨.refl _, rfl⟩⟩
  cases hmap : mapPages m pid (heapStart (k.processes i)) flags n 0 k with
  | ok k' =>
    obtain ⟨new, hgrown, hnew, -⟩ := hok k' hmap
    dsimp only
    refine ⟨?_, ?_⟩
    · simpa [hgrown.records] using hnew
    intro h0
    rw [h0] at hbase
    exact absurd hbase (by decide)
  | error e =>
    obtain ⟨l, k'⟩ := e
    obtain ⟨new, -, hl, hgrown, hnew, hvas⟩ := herr l k' hmap
    dsimp only
    have hrec' : Recorded (k'.processes i).userPages := hgrown.records ▸ hnew
    refine ⟨processUnmapUserRange_recorded (hgrown.get hi) hrec' _ _, fun _ ↦ ?_⟩
    rw [Nat.sub_zero] at hvas
    rcases Nat.eq_zero_or_pos l with rfl | hpos
    · obtain rfl : new = [] := by simpa [pageRange] using hvas
      rw [processUnmapUserRange_bad fun h ↦ h.1 (Nat.zero_mul _), hgrown.records, List.append_nil]
      exact ⟨.refl _, hgrown.heapEnd⟩
    have hcount := hnew.count
    have hnewcount : new.length = l := by
      rw [← List.length_map UserPage.va, hvas, pageRange, List.length_map, List.length_range']
    rw [List.length_append, hnewcount] at hcount
    have hmod : (heapStart (k.processes i) + l * 4096) % 2 ^ 64 =
        heapStart (k.processes i) + l * 4096 := by
      apply Nat.mod_eq_of_lt
      unfold processUserLimit at hlimit
      unfold processUserMaxPages at hcount
      omega
    have haligned : heapStart (k.processes i) % 4096 = 0 := by
      have hfirst : heapStart (k.processes i) ∈ new.map UserPage.va :=
        hvas ▸ (mem_pageRange (by omega)).2 ⟨0, hpos, by omega⟩
      obtain ⟨u, hu, hva⟩ := List.mem_map.1 hfirst
      exact hva ▸ (hnew.inside u (List.mem_append_right _ hu)).1
    obtain ⟨-, hperm, hheap⟩ := processUnmapUserRange_records (m := m) (hgrown.get hi)
      (heapStart (k.processes i)) (l * 4096)
      ⟨by omega, haligned, by omega, by omega⟩
    rw [hgrown.records, hmod, filter_new_records hnew hvas haligned (by omega)] at hperm
    exact ⟨hperm, hheap.trans hgrown.heapEnd⟩

theorem processUnmapUserMemory_records :
    ((processUnmapUserMemory m k pid).2.processes i).userPages = [] := by
  unfold processUnmapUserMemory
  rw [hi]
  simp

section

variable (hrec : Recorded (k.processes i).userPages)
include hrec

theorem processMapUserMemory_recorded (base n : ℕ) :
    Recorded ((processMapUserMemory m k pid base n).2.processes i).userPages := by
  obtain ⟨hok, herr⟩ := mapPages_records (m := m) hi hrec base pageWritable n 0
  unfold processMapUserMemory
  rw [hi]
  dsimp only
  split_ifs
  · exact hrec
  · exact hrec
  cases hmap : mapPages m pid base pageWritable n 0 k with
  | ok k' =>
    obtain ⟨new, hgrown, hnew, -⟩ := hok k' hmap
    simpa [hgrown.records] using hnew
  | error e =>
    obtain ⟨l, k'⟩ := e
    obtain ⟨new, -, -, hgrown, -⟩ := herr l k' hmap
    dsimp only
    rw [processUnmapUserMemory_records (hgrown.get hi)]
    exact recorded_nil

theorem userStep_recorded (op : UserOp) :
    Recorded ((userStep m pid k op).processes i).userPages := by
  cases op with
  | mapUserPage va flags =>
    rcases processMapUserPage_records (m := m) hi va flags with
      ⟨-, hsame⟩ | ⟨-, hva, hlt, phys, hgrown⟩
    · exact hsame.records.symm ▸ hrec
    · exact hgrown.records.symm ▸ hrec.append hva hlt
  | mapUserMemory base n => exact processMapUserMemory_recorded hi hrec base n
  | allocUserRange n flags => exact (processAllocUserRange_records hi hrec).1
  | unmapUserRange base size => exact processUnmapUserRange_recorded hi hrec base size
  | unmapUserMemory => exact (processUnmapUserMemory_records (m := m) hi).symm ▸ recorded_nil

theorem recorded_steps (ops : List UserOp) :
    Recorded ((ops.foldl (userStep m pid) k).processes i).userPages := by
  induction ops generalizing k with
  | nil => exact hrec
  | cons op ops ih =>
    have hstep : SlotRun m (fun _ _ ↦ True) k (userStep m pid k op) i :=
      userStep_run hi (op.meets_true k)
    exact ih (hstep.get hi) (userStep_recorded hi hrec op)

end

end

end Unmapping

section Life

open Mm.Paging

theorem processCreate_recorded {ticks parentPid : ℕ}
    (h : (processCreate m k ticks parentPid).1 = pid) (hpid : pid ≠ 0)
    (hfresh : ∀ j, (k.processes j).state ≠ .unused → (k.processes j).pid ≠ pid)
    (ops : List UserOp) :
    let k₂ := ops.foldl (userStep m pid) (processCreate m k ticks parentPid).2
    ∃ i, processGet k₂ pid = some i ∧ (k₂.processes i).state = .ready ∧
      Recorded (k₂.processes i).userPages := by
  intro k₂
  obtain ⟨i, hget, -, -, -, hself⟩ := processCreate_found h hpid hfresh
  have hrun : SlotRun m _ _ k₂ i := SlotRun.all hget ops
  refine ⟨i, hrun.get hget, ?_, recorded_steps hget ?_ ops⟩
  · rw [hrun.state, hself]
    rfl
  rw [hself]
  exact recorded_nil

/-- However the user memory of a new process changes, its records fit in the table and name distinct
pages of the user space and distinct taken pages of memory. Unmapping a range drops the records in
it and no other, and an allocation that fails changes neither the records nor the heap end. -/
theorem user_page_records {k : Kernel State} {pml4 ticks parentPid pid : ℕ}
    (hS : Space k.vm pml4) (hG : NoGiga k.vm.mem 4 pml4) (hok : Ok k.vm)
    (hcreate : (processCreate (pagingMemory pml4) k ticks parentPid).1 = pid) (hpid : pid ≠ 0)
    (hfresh : ∀ j, (k.processes j).state ≠ .unused → (k.processes j).pid ≠ pid)
    (ops : List UserOp) :
    let m := pagingMemory pml4
    let k₂ := ops.foldl (userStep m pid) (processCreate m k ticks parentPid).2
    ∃ i, processGet k₂ pid = some i ∧
      (k₂.processes i).userPages.length ≤ 16 ∧
      ((k₂.processes i).userPages.map UserPage.va).Nodup ∧
      (∀ u ∈ (k₂.processes i).userPages,
        u.va % 4096 = 0 ∧ processUserBase ≤ u.va ∧ u.va < processUserLimit) ∧
      ((k₂.processes i).userPages.map UserPage.phys).Nodup ∧
      (∀ u ∈ (k₂.processes i).userPages, Managed k₂.vm u.phys ∧ ¬ Free k₂.vm u.phys) ∧
      (∀ base < 2 ^ 64, ∀ size < 2 ^ 64,
        ((processUnmapUserRange m k₂ pid base size).1 = true ↔ RangeOk base size) ∧
        ((processUnmapUserRange m k₂ pid base size).1 = true →
          ((processUnmapUserRange m k₂ pid base size).2.processes i).userPages.Perm
            ((k₂.processes i).userPages.filter fun u ↦ ¬(base ≤ u.va ∧ u.va < base + size))) ∧
        ((processUnmapUserRange m k₂ pid base size).1 = false →
          (processUnmapUserRange m k₂ pid base size).2 = k₂)) ∧
      ∀ n flags, (processAllocUserRange m k₂ pid n flags).1 = 0 →
        ((processAllocUserRange m k₂ pid n flags).2.processes i).userPages.Perm
            (k₂.processes i).userPages ∧
          ((processAllocUserRange m k₂ pid n flags).2.processes i).heapEnd =
            (k₂.processes i).heapEnd := by
  intro m k₂
  obtain ⟨i, hget, -, -, howns⟩ := processCreate_owns hS hG hok hcreate hpid hfresh
  have hrun : SlotRun m _ _ k₂ i := SlotRun.all hget ops
  have howns₂ := Owns.run hok hrun.run howns
  have hget₂ := hrun.get hget
  obtain ⟨j, hj, -, hrec⟩ := processCreate_recorded hcreate hpid hfresh ops
  obtain rfl : i = j := Option.some.inj (hget₂.symm.trans hj)
  refine ⟨i, hget₂, hrec.count, hrec.distinct, hrec.inside, howns₂.nodup, ?_, ?_, ?_⟩
  · intro u hu
    have hheld : u.phys ∈ held (k₂.processes i).userPages := List.mem_map_of_mem hu
    exact ⟨howns₂.managed hok hheld, howns₂.used hheld⟩
  · intro base hbase size hsize
    by_cases h : RangeOk base size
    · obtain ⟨htrue, hperm, -⟩ := processUnmapUserRange_records (m := m) hget₂ _ _ h
      have hstop : (base + size) % 2 ^ 64 = base + size := by
        obtain ⟨-, -, -, hle⟩ := h
        omega
      rw [hstop] at hperm
      exact ⟨iff_of_true htrue h, fun _ ↦ hperm,
        fun hfalse ↦ absurd htrue (ne_true_of_eq_false hfalse)⟩
    rw [processUnmapUserRange_bad h]
    exact ⟨iff_of_false Bool.false_ne_true h, fun htrue ↦ absurd htrue Bool.false_ne_true,
      fun _ ↦ rfl⟩
  · intro n flags h0
    exact (processAllocUserRange_records hget₂ hrec).2 h0

theorem user_page_records_mappedTwice :
    let m := pagingMemory 0x1000
    let k := bootKernel (onePath tableFlags elevenPages)
    let k₂ := mappedTwice.foldl (userStep m 1) (processCreate m k 0 0).2
    ∃ i, processGet k₂ 1 = some i ∧ (k₂.processes i).userPages.length ≤ 16 ∧
      ∀ u ∈ (k₂.processes i).userPages, Managed k₂.vm u.phys ∧ ¬ Free k₂.vm u.phys := by
  intro m k k₂
  have hspace : Space k.vm 0x1000 := elevenPages_space (by decide)
  have hplain : NoGiga k.vm.mem 4 0x1000 := onePath_noGiga (by decide) (by decide)
  have hcreate : (processCreate m k 0 0).1 = 1 := by decide +kernel
  obtain ⟨i, hi, hcount, -, -, -, htaken, -⟩ := user_page_records hspace hplain
    ⟨by decide, by decide⟩ hcreate one_ne_zero (by decide +kernel) mappedTwice
  exact ⟨i, hi, hcount, htaken⟩

end Life

end NexusOS.Core
