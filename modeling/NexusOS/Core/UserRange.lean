import NexusOS.Core.UserAccess
import NexusOS.Core.UserRecords

namespace NexusOS.Core

variable {V : Type*} {m : Memory V} {k : Kernel V} {i : Fin 8} {pid va size required : ℕ}
  {pages : List UserPage}

def pageOf (b : ℕ) : ℕ := b / 4096 * 4096

section Chunks

theorem chunks_all (allows : ℕ → Bool) (n va size : ℕ)
    (hn : size ≠ 0 → va % 4096 + size ≤ n * 4096) (hwrap : va + size ≤ 2 ^ 64) :
    ((chunks n va size).all fun c ↦ allows (pageOf c.1)) = true ↔
      ∀ b, va ≤ b → b < va + size → allows (pageOf b) = true := by
  induction n generalizing va size with
  | zero =>
    refine ⟨fun _ b hle hlt ↦ ?_, fun _ ↦ rfl⟩
    omega
  | succ n ih =>
    rw [chunks]
    by_cases hsize : size = 0
    · rw [if_pos hsize]
      refine ⟨fun _ b hle hlt ↦ ?_, fun _ ↦ rfl⟩
      omega
    rw [if_neg hsize]
    dsimp only
    have hchunk : min (4096 - va % 4096) size = 4096 - va % 4096 ∨
        min (4096 - va % 4096) size = size := min_choice _ _
    have hle := min_le_left (4096 - va % 4096) size
    have hle' := min_le_right (4096 - va % 4096) size
    generalize min (4096 - va % 4096) size = chunk at hchunk hle hle' ⊢
    have hmod : va % 2 ^ 64 = va := Nat.mod_eq_of_lt (by omega)
    have hrest := ih (va + chunk) (size - chunk) (by omega) (by omega)
    rw [List.all_cons, Bool.and_eq_true, hrest, hmod]
    -- the first chunk lies in the page of `va`
    have hpage : ∀ b, va ≤ b → b < va + chunk → pageOf b = pageOf va := by
      intro b hle hlt
      unfold pageOf
      omega
    constructor
    · rintro ⟨hfirst, hrest⟩ b hle hlt
      by_cases hb : b < va + chunk
      · rw [hpage b hle hb]
        exact hfirst
      · exact hrest b (by omega) (by omega)
    intro h
    refine ⟨h va le_rfl (by omega), ?_⟩
    intro b hle hlt
    exact h b (by omega) (by omega)

theorem userChunks_all (allows : ℕ → Bool) (hwrap : va + size ≤ 2 ^ 64) :
    ((userChunks va size).all fun c ↦ allows (pageOf c.1)) = true ↔
      ∀ b, va ≤ b → b < va + size → allows (pageOf b) = true :=
  chunks_all allows _ va size (by omega) hwrap

theorem userChunks_first (allows : ℕ → Bool) (hva : va < 2 ^ 64) (hsize : size ≠ 0)
    (h : ((userChunks va size).all fun c ↦ allows (pageOf c.1)) = true) :
    allows (pageOf va) = true := by
  rw [userChunks, chunks, if_neg hsize, List.all_cons, Bool.and_eq_true, Nat.mod_eq_of_lt hva] at h
  exact h.1

end Chunks

section Validation

theorem pageAllows_iff {p : Process} (hrec : Recorded p.userPages) {b : ℕ} :
    pageAllows p required b = true ↔
      ∃ u ∈ p.userPages, u.va = pageOf b ∧ pageFlagsAllow required u.flags = true := by
  unfold pageAllows
  constructor
  · intro h
    cases hfind : p.userPages.find? (·.va == b / 4096 * 4096) with
    | none =>
      rw [hfind] at h
      cases h
    | some u =>
      rw [hfind] at h
      exact ⟨u, List.mem_of_find?_eq_some hfind, by simpa [pageOf] using List.find?_some hfind, h⟩
  rintro ⟨u, hu, hva, hflags⟩
  cases hfind : p.userPages.find? (·.va == b / 4096 * 4096) with
  | none =>
    rw [List.find?_eq_none] at hfind
    exact absurd (beq_iff_eq.2 hva) (hfind u hu)
  | some w =>
    have hw : w.va = u.va := by
      rw [hva]
      simpa [pageOf] using List.find?_some hfind
    obtain rfl := List.inj_on_of_nodup_map hrec.distinct (List.mem_of_find?_eq_some hfind) hu hw
    exact hflags

theorem pageAllows_pageOf (p : Process) (b : ℕ) :
    pageAllows p required b = pageAllows p required (pageOf b) := by
  have hpage : pageOf b / 4096 * 4096 = b / 4096 * 4096 := by
    unfold pageOf
    omega
  unfold pageAllows
  rw [hpage]

theorem Recorded.byte (hrec : Recorded pages) {u : UserPage} {b : ℕ} (hu : u ∈ pages)
    (hva : u.va = pageOf b) : processUserBase ≤ b ∧ b < processUserLimit := by
  obtain ⟨-, hbase, hlimit⟩ := hrec.inside u hu
  rw [hva] at hbase hlimit
  unfold pageOf processUserBase processUserLimit at *
  omega

theorem processUserRangeValid_iff (hi : processGet k pid = some i)
    (hlive : (k.processes i).state ≠ .zombie) (hrec : Recorded (k.processes i).userPages)
    (hva : va < 2 ^ 64) (hsize : size ≠ 0) :
    processUserRangeValid k pid va size required = true ↔
      ∀ b, va ≤ b → b < va + size → ∃ u ∈ (k.processes i).userPages,
        u.va = pageOf b ∧ pageFlagsAllow required u.flags = true := by
  have hpages : (fun c : ℕ × ℕ ↦ pageAllows (k.processes i) required c.1) =
      fun c ↦ pageAllows (k.processes i) required (pageOf c.1) :=
    funext fun c ↦ pageAllows_pageOf (k.processes i) c.1
  unfold processUserRangeValid
  rw [hi]
  dsimp only
  rw [hpages]
  by_cases hin : processUserBase ≤ va ∧ va + size ≤ processUserLimit
  · have hlimit : va + size ≤ 2 ^ 64 := hin.2.trans (by decide)
    have hinside : outsideUser va size = false := by
      unfold outsideUser
      have := hin.1
      have := hin.2
      unfold processUserBase processUserLimit at *
      simp only [Bool.or_eq_false_iff, decide_eq_false_iff_not]
      omega
    rw [if_neg (by simp [hlive, hsize, hinside]), userChunks_all _ hlimit]
    simp only [← pageAllows_pageOf, pageAllows_iff hrec]
  refine ⟨fun h ↦ absurd ?_ hin, fun h ↦ absurd ?_ hin⟩
  · split_ifs at h with hout
    -- a range above the limit passes the first test, and its first page is not recorded
    have hfirst := userChunks_first _ hva hsize h
    rw [← pageAllows_pageOf, pageAllows_iff hrec] at hfirst
    obtain ⟨u, hu, hpage, -⟩ := hfirst
    obtain ⟨hbase, hlimit⟩ := hrec.byte hu hpage
    simp only [not_or, outsideUser, Bool.or_eq_true, decide_eq_true_eq] at hout
    unfold processUserBase processUserLimit at *
    omega
  obtain ⟨u, hu, hpage, -⟩ := h va le_rfl (by omega)
  obtain ⟨w, hw, hlast, -⟩ := h (va + size - 1) (by omega) (by omega)
  have hbase := (hrec.byte hu hpage).1
  have hlimit := (hrec.byte hw hlast).2
  omega

/-- Every page of the range is recorded, with `ok`. -/
def EveryPage (pages : List UserPage) (va size : ℕ) (ok : UserPage → Prop) : Prop :=
  ∀ b, va ≤ b → b < va + size → ∃ u ∈ pages, u.va = pageOf b ∧ ok u

/-- No page of the range is recorded with `NX`. -/
def WithoutNx (pages : List UserPage) (va size : ℕ) : Prop :=
  ∀ b, va ≤ b → b < va + size → ∀ u ∈ pages, u.va = pageOf b → u.flags.testBit 63 = false

theorem pageFlagsAllow_readable (flags : ℕ) : pageFlagsAllow 0 flags = true ↔
    flags.testBit 63 = false := by
  simp [pageFlagsAllow]

theorem pageFlagsAllow_writable (flags : ℕ) : pageFlagsAllow pageWritable flags = true ↔
    flags.testBit 1 = true ∧ flags.testBit 63 = false := by
  have hbits : pageWritable.testBit 1 = true ∧ pageWritable.testBit 63 = false := by decide
  simp [pageFlagsAllow, hbits]

theorem everyPage_withoutNx (hrec : Recorded pages) (va size : ℕ)
    (ok : UserPage → Prop) :
    (EveryPage pages va size (fun u ↦ ok u ∧ u.flags.testBit 63 = false) ↔
        EveryPage pages va size ok) ↔
      (¬ EveryPage pages va size ok ∨ WithoutNx pages va size) := by
  constructor
  · intro h
    by_cases hall : EveryPage pages va size ok
    · refine .inr fun b hle hlt u hu hva ↦ ?_
      obtain ⟨w, hw, hwva, -, hnx⟩ := h.2 hall b hle hlt
      obtain rfl := List.inj_on_of_nodup_map hrec.distinct hw hu (hwva.trans hva.symm)
      exact hnx
    · exact .inl hall
  refine fun h ↦ ⟨fun hplain b hle hlt ↦ ?_, fun hall b hle hlt ↦ ?_⟩
  · obtain ⟨u, hu, hva, hok, -⟩ := hplain b hle hlt
    exact ⟨u, hu, hva, hok⟩
  obtain ⟨u, hu, hva, hok⟩ := hall b hle hlt
  exact ⟨u, hu, hva, hok, h.resolve_left (not_not.2 hall) b hle hlt u hu hva⟩

/-- A process is made and its user memory changes in any way. A range is accepted for reading just if
every page of it is recorded, and for writing just if every page of it is recorded as writable, when
either that is not so or no page of it is recorded with `NX`, and only then. -/
theorem user_range_valid {ticks parentPid : ℕ}
    (hcreate : (processCreate m k ticks parentPid).1 = pid) (hpid : pid ≠ 0)
    (hfresh : ∀ j, (k.processes j).state ≠ .unused → (k.processes j).pid ≠ pid)
    (ops : List UserOp) :
    let k₂ := ops.foldl (userStep m pid) (processCreate m k ticks parentPid).2
    ∃ i, processGet k₂ pid = some i ∧ ∀ va < 2 ^ 64, ∀ size < 2 ^ 64, size ≠ 0 →
      let pages := (k₂.processes i).userPages
      let recorded := EveryPage pages va size fun _ ↦ True
      let writable := EveryPage pages va size fun u ↦ u.flags.testBit 1 = true
      ((processUserRangeValid k₂ pid va size 0 = true ↔ recorded) ↔
        (¬ recorded ∨ WithoutNx pages va size)) ∧
      ((processUserRangeValid k₂ pid va size pageWritable = true ↔ writable) ↔
        (¬ writable ∨ WithoutNx pages va size)) := by
  intro k₂
  obtain ⟨i, hi, hready, hrec⟩ := processCreate_recorded hcreate hpid hfresh ops
  have hlive : (k₂.processes i).state ≠ .zombie := by
    rw [hready]
    exact ProcessState.noConfusion
  refine ⟨i, hi, ?_⟩
  intro va hva size _ hsize pages recorded writable
  rw [processUserRangeValid_iff hi hlive hrec hva hsize,
    processUserRangeValid_iff hi hlive hrec hva hsize]
  simp only [pageFlagsAllow_readable, pageFlagsAllow_writable]
  have hread := everyPage_withoutNx hrec va size fun _ ↦ True
  simp only [true_and] at hread
  exact ⟨hread, everyPage_withoutNx hrec va size _⟩

/-- A memory that hands out page after page and maps whatever it is asked to. -/
def obligingMemory : Memory ℕ where
  pmmAllocPage v := (v + 4096, v + 4096)
  pmmFreePage _ v := v
  pagingCreateAddressSpace v := (4096, v)
  pagingDestroyAddressSpace _ v := v
  pagingMapPageInCr3 _ _ _ _ v := (1, v)
  pagingUnmapPageInCr3 _ _ v := (1, v)
  zeroPage _ v := v

def twoPages : Kernel ℕ :=
  [UserOp.mapUserPage 0x400000 2, .mapUserPage 0x401000 0].foldl (userStep obligingMemory 1)
    (processCreate obligingMemory (bootKernel 0x8000) 0 0).2

theorem user_range_valid_twoPages :
    (processUserRangeValid twoPages 1 0x400FFF 2 0 = true ↔
      EveryPage (twoPages.processes 0).userPages 0x400FFF 2 fun _ ↦ True) ∧
      processUserRangeValid twoPages 1 0x400FFF 2 0 = true ∧
      processUserRangeValid twoPages 1 0x400FFF 2 pageWritable = false := by
  have hget : processGet twoPages 1 = some 0 := by decide +kernel
  have hflags : ∀ u ∈ (twoPages.processes 0).userPages, u.flags.testBit 63 = false := by
    decide +kernel
  have hcreate : (processCreate obligingMemory (bootKernel 0x8000) 0 0).1 = 1 := by decide +kernel
  obtain ⟨i, hi, hvalid⟩ := user_range_valid hcreate one_ne_zero (by decide +kernel)
    [.mapUserPage 0x400000 2, .mapUserPage 0x401000 0]
  obtain rfl : i = 0 := Option.some.inj (hi.symm.trans hget)
  have hiff := (hvalid 0x400FFF (by norm_num) 2 (by norm_num) two_ne_zero).1.2
    (.inr fun _ _ _ u hu _ ↦ hflags u hu)
  exact ⟨hiff, by decide +kernel, by decide +kernel⟩

/-- Memory that `MMAP` asks for is recorded, writable, and refused as a buffer. -/
theorem user_range_refused :
    let k := [UserOp.allocUserRange 1 (pageWritable ||| pageNx)].foldl
      (userStep obligingMemory 1) (processCreate obligingMemory (bootKernel 0x8000) 0 0).2
    (k.processes 0).userPages = [⟨0x10000000, 0x9000, pageWritable ||| pageNx⟩] ∧
      processGet k 1 = some 0 ∧ (k.processes 0).state = .ready ∧
      processUserRangeValid k 1 0x10000000 1 0 = false ∧
      processUserRangeValid k 1 0x10000000 1 pageWritable = false := by
  decide +kernel

end Validation

end NexusOS.Core
