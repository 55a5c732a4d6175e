import Mathlib.Logic.Relation
import Mathlib.Tactic
import NexusOS.Lib.Buffer

namespace NexusOS.Boot.Smbios

open Lib

section Source

/-- What the walk fills in, with the offsets from the start of the table that it has read. -/
structure Info where
  reads : List ℕ
  systemManufacturer : Buffer UInt8
  systemProduct : Buffer UInt8
  baseboardManufacturer : Buffer UInt8
  systemInfoValid : Bool

-- The memory from the start of the table on, and the length of the table.
variable (mem : ℕ → UInt8) (fin : ℕ)

/-- `while (p < end && *p) p++` with `k` bytes left. -/
def skipString : ℕ → ℕ → List ℕ → ℕ × List ℕ
  | 0, p, reads => (p, reads)
  | k + 1, p, reads =>
    if mem p = 0 then (p, p :: reads) else skipString k (p + 1) (p :: reads)

/-- `while (p < end && *p && n + 1 < out_size) out[n++] = *p++` with `k` bytes left, and the
terminator behind it. -/
def copyString (size : ℕ) : ℕ → ℕ → Buffer UInt8 → ℕ → List ℕ → Bool × Buffer UInt8 × List ℕ
  | 0, _, out, n, reads => (n ≠ 0, out.store n 0, reads)
  | k + 1, p, out, n, reads =>
    if mem p ≠ 0 ∧ n + 1 < size then
      copyString size k (p + 1) (out.store n (mem p)) (n + 1) (p :: reads)
    else (n ≠ 0, out.store n 0, p :: reads)

theorem skipString_gt {k p : ℕ} (hk : 0 < k) (hp : mem p ≠ 0) (reads : List ℕ) :
    p < (skipString mem k p reads).1 := by
  have hle : ∀ k p reads, p ≤ (skipString mem k p reads).1 := by
    intro k
    induction k with
    | zero => exact fun p _ ↦ le_refl p
    | succ k ih =>
      intro p reads
      rw [skipString]
      split
      · exact le_refl p
      · exact (Nat.le_succ p).trans (ih (p + 1) _)
  obtain ⟨k, rfl⟩ := Nat.exists_eq_succ_of_ne_zero hk.ne'
  rw [skipString, if_neg hp]
  exact hle k (p + 1) _

/-- The loop of `ascii_copy_smbios_string` over the strings of a structure. -/
def findString (wanted : UInt8) (size : ℕ) (out : Buffer UInt8) (p : ℕ) (index : UInt8)
    (reads : List ℕ) : Bool × Buffer UInt8 × List ℕ :=
  if h : p < fin then
    if hz : mem p = 0 then (false, out.store 0 0, p :: reads)
    else if index = wanted then copyString mem size (fin - p) p out 0 (p :: reads)
    else
      let r := skipString mem (fin - p) p (p :: reads)
      findString wanted size out (if r.1 < fin then r.1 + 1 else r.1) (index + 1) r.2
  else (false, out.store 0 0, reads)
termination_by fin - p
decreasing_by
  have := skipString_gt mem (Nat.sub_pos_of_lt h) hz (p :: reads)
  split <;> omega

def asciiCopySmbiosString (p : ℕ) (wanted : UInt8) (out : Buffer UInt8) (size : ℕ)
    (reads : List ℕ) : Bool × Buffer UInt8 × List ℕ :=
  if wanted = 0 ∨ size = 0 then (false, out, reads) else findString mem fin wanted size out p 1 reads

/-- The fields of a structure of type 1 or 2 at `p`. -/
def readStructure (p : ℕ) (s : Info) : Info :=
  let strings := p + (mem (p + 1)).toNat
  if mem p = 1 then
    let r := asciiCopySmbiosString mem fin strings (mem (p + 4)) s.systemManufacturer 64
      ((p + 5) :: (p + 4) :: s.reads)
    let t := asciiCopySmbiosString mem fin strings (mem (p + 5)) s.systemProduct 96 r.2.2
    { s with
      systemManufacturer := r.2.1, systemProduct := t.2.1, reads := t.2.2
      systemInfoValid := s.systemInfoValid || r.1 || t.1 }
  else if mem p = 2 then
    let r := asciiCopySmbiosString mem fin strings (mem (p + 4)) s.baseboardManufacturer 64
      ((p + 4) :: s.reads)
    { s with baseboardManufacturer := r.2.1, reads := r.2.2 }
  else s

/-- `while (q + 1 < end && !(q[0] == 0 && q[1] == 0)) q++` with `k` bytes left behind `q`. -/
def findEnd : ℕ → ℕ → List ℕ → ℕ × List ℕ
  | 0, q, reads => (q, reads)
  | k + 1, q, reads =>
    if mem q = 0 then
      if mem (q + 1) = 0 then (q, (q + 1) :: q :: reads)
      else findEnd k (q + 1) ((q + 1) :: q :: reads)
    else findEnd k (q + 1) (q :: reads)

theorem le_findEnd (k q : ℕ) (reads : List ℕ) : q ≤ (findEnd mem k q reads).1 := by
  induction k generalizing q reads with
  | zero => exact le_refl q
  | succ k ih =>
    rw [findEnd]
    split
    · split
      · exact le_refl q
      · exact (Nat.le_succ q).trans (ih _ _)
    · exact (Nat.le_succ q).trans (ih _ _)

/-- The structure at `p` and the mark behind its strings; where the next one is, if there is one. -/
def turn (p : ℕ) (s : Info) : Option ℕ × Info :=
  if p + 4 ≤ fin then
    let t := { s with reads := (p + 1) :: p :: s.reads }
    let q := p + (mem (p + 1)).toNat
    if (mem (p + 1)).toNat < 4 ∨ q > fin then (none, t)
    else
      let u := readStructure mem fin p t
      let r := findEnd mem (fin - (q + 1)) q u.reads
      (if r.1 + 1 ≥ fin then none else some (r.1 + 2), { u with reads := r.2 })
  else (none, s)

theorem turn_some {p q : ℕ} {s : Info} (h : (turn mem fin p s).1 = some q) :
    p < q ∧ q ≤ fin := by
  unfold turn at h
  dsimp only at h
  split at h
  · split at h
    · exact absurd h (by simp)
    · have hle := le_findEnd mem (fin - (p + (mem (p + 1)).toNat + 1)) (p + (mem (p + 1)).toNat)
        (readStructure mem fin p { s with reads := (p + 1) :: p :: s.reads }).reads
      split at h
      · exact absurd h (by simp)
      have := Option.some.inj h
      omega
  · exact absurd h (by simp)

/-- The loop of `detect_system_identity` over the structures. -/
def walk (p : ℕ) (s : Info) : Info :=
  match _h : (turn mem fin p s).1 with
  | none => (turn mem fin p s).2
  | some q => walk q (turn mem fin p s).2
termination_by fin - p
decreasing_by
  have := turn_some mem fin _h
  omega

/-- The strings begin as empty ones. -/
def detectSystemIdentity (manufacturer product baseboard : ℕ → UInt8) : Info :=
  let s : Info := ⟨[], (Buffer.mk manufacturer []).store 0 0, (Buffer.mk product []).store 0 0,
    (Buffer.mk baseboard []).store 0 0, false⟩
  if fin < 4 then s else walk mem fin 0 s

end Source

section Layout

variable (mem : ℕ → UInt8) (fin : ℕ)

/-- A structure that is in the table with its formatted part. -/
def Whole (p : ℕ) : Prop :=
  p + 4 ≤ fin ∧ 4 ≤ (mem (p + 1)).toNat ∧ p + (mem (p + 1)).toNat ≤ fin

/-- The two zero bytes behind the strings that begin at `q`. -/
structure EndsAt (q r : ℕ) : Prop where
  le : q ≤ r
  lt : r + 1 < fin
  mark : mem r = 0 ∧ mem (r + 1) = 0
  first : ∀ i, q ≤ i → i < r → ¬ (mem i = 0 ∧ mem (i + 1) = 0)

def Next (p q : ℕ) : Prop :=
  Whole mem fin p ∧ ∃ r, EndsAt mem fin (p + (mem (p + 1)).toNat) r ∧ q = r + 2

/-- A structure of type 1 or 2 whose string numbers are in the table. -/
def Numbered (p : ℕ) : Prop := (mem p = 1 → p + 6 ≤ fin) ∧ (mem p = 2 → p + 5 ≤ fin)

end Layout

section Bounds

variable {mem : ℕ → UInt8} {fin p q k n size : ℕ} {reads : List ℕ} {out : Buffer UInt8} {s : Info}

def Below (m : ℕ) (reads : List ℕ) : Prop := ∀ i ∈ reads, i < m

theorem below_cons {m i : ℕ} : Below m (i :: reads) ↔ i < m ∧ Below m reads :=
  List.forall_mem_cons

/-- A destination that has been written only inside, and holds a terminated string. -/
structure Sound (size : ℕ) (out : Buffer UInt8) : Prop where
  within : out.Within size
  terminated : ∃ n < size, out.cell n = 0

theorem skipString_below (h : p + k ≤ fin) :
    Below fin (skipString mem k p reads).2 ↔ Below fin reads := by
  induction k generalizing p reads with
  | zero => rfl
  | succ k ih =>
    rw [skipString]
    split
    · rw [below_cons, and_iff_right (by omega)]
    · rw [ih (by omega), below_cons, and_iff_right (by omega)]

theorem Sound.terminate (h : out.Within size) (hn : n < size) : Sound size (out.store n 0) :=
  ⟨Buffer.store_within.2 ⟨hn, h⟩, n, hn, by simp [Buffer.store]⟩

theorem copyString_sound (hout : out.Within size) (hn : n < size) :
    Sound size (copyString mem size k p out n reads).2.1 := by
  induction k generalizing p out n reads with
  | zero => exact .terminate hout hn
  | succ k ih =>
    rw [copyString]
    split
    · rename_i hc
      exact ih (Buffer.store_within.2 ⟨hn, hout⟩) hc.2
    · exact .terminate hout hn

theorem copyString_below (h : p + k ≤ fin) :
    Below fin (copyString mem size k p out n reads).2.2 ↔ Below fin reads := by
  induction k generalizing p out n reads with
  | zero => rfl
  | succ k ih =>
    rw [copyString]
    split
    · rw [ih (by omega), below_cons, and_iff_right (by omega)]
    · rw [below_cons, and_iff_right (by omega)]

theorem findString_sound (wanted index : UInt8) (hout : out.Within size) (hsize : 0 < size) :
    Sound size (findString mem fin wanted size out p index reads).2.1 := by
  fun_induction findString mem fin wanted size out p index reads with
  | case1 => exact .terminate hout hsize
  | case2 => exact copyString_sound hout hsize
  | case3 p index reads h hz hne r ih => exact ih
  | case4 => exact .terminate hout hsize

theorem findString_below (wanted index : UInt8) :
    Below fin (findString mem fin wanted size out p index reads).2.2 ↔ Below fin reads := by
  fun_induction findString mem fin wanted size out p index reads with
  | case1 p index reads h hz => rw [below_cons, and_iff_right h]
  | case2 p reads h hz => rw [copyString_below (by omega), below_cons, and_iff_right h]
  | case3 p index reads h hz hne r ih =>
    refine ih.trans ?_
    rw [skipString_below (by omega), below_cons, and_iff_right h]
  | case4 => rfl

theorem asciiCopy_sound (wanted : UInt8) (hout : Sound size out) :
    Sound size (asciiCopySmbiosString mem fin p wanted out size reads).2.1 := by
  unfold asciiCopySmbiosString
  split
  · exact hout
  · exact findString_sound wanted 1 hout.within (by omega)

theorem asciiCopy_below (wanted : UInt8) :
    Below fin (asciiCopySmbiosString mem fin p wanted out size reads).2.2 ↔ Below fin reads := by
  unfold asciiCopySmbiosString
  split
  · rfl
  · exact findString_below wanted 1

theorem EndsAt.succ_iff (h : ¬ (mem q = 0 ∧ mem (q + 1) = 0)) (r : ℕ) :
    EndsAt mem fin q r ↔ EndsAt mem fin (q + 1) r := by
  constructor
  · intro he
    have hne : q ≠ r := by
      rintro rfl
      exact h he.mark
    have hle := he.le
    exact ⟨by omega, he.lt, he.mark, fun i hi ↦ he.first i (by omega)⟩
  intro he
  refine ⟨(Nat.le_succ q).trans he.le, he.lt, he.mark, fun i hi hir ↦ ?_⟩
  rcases hi.eq_or_lt with rfl | hlt
  · exact h
  · exact he.first i hlt hir

theorem EndsAt.unique {r r' : ℕ} (h : EndsAt mem fin q r) (h' : EndsAt mem fin q r') : r = r' := by
  rcases Nat.lt_trichotomy r r' with hlt | heq | hgt
  · exact absurd h.mark (h'.first r h.le hlt)
  · exact heq
  · exact absurd h'.mark (h.first r' h'.le hgt)

theorem findEnd_spec (h : k = fin - (q + 1)) :
    (Below fin (findEnd mem k q reads).2 ↔ Below fin reads) ∧
      (fin ≤ (findEnd mem k q reads).1 + 1 ∧ (∀ r, ¬ EndsAt mem fin q r) ∨
        EndsAt mem fin q (findEnd mem k q reads).1) := by
  induction k generalizing q reads with
  | zero =>
    refine ⟨Iff.rfl, .inl ⟨by rw [findEnd]; omega, fun r hr ↦ ?_⟩⟩
    have := hr.le
    have := hr.lt
    omega
  | succ k ih =>
    rw [findEnd]
    by_cases hmark : mem q = 0 ∧ mem (q + 1) = 0
    · rw [if_pos hmark.1, if_pos hmark.2]
      refine ⟨?_, .inr ⟨le_refl q, by omega, hmark, fun i hi hlt ↦ by omega⟩⟩
      rw [below_cons, below_cons, and_iff_right (by omega), and_iff_right (by omega)]
    have hnext : k = fin - (q + 1 + 1) := by omega
    simp only [EndsAt.succ_iff hmark]
    split
    · rename_i hz
      rw [if_neg fun hz' ↦ hmark ⟨hz, hz'⟩]
      refine ⟨(ih hnext).1.trans ?_, (ih hnext).2⟩
      rw [below_cons, below_cons, and_iff_right (by omega), and_iff_right (by omega)]
    · refine ⟨(ih hnext).1.trans ?_, (ih hnext).2⟩
      rw [below_cons, and_iff_right (by omega)]

structure Info.Sound (s : Info) : Prop where
  manufacturer : Smbios.Sound 64 s.systemManufacturer
  product : Smbios.Sound 96 s.systemProduct
  baseboard : Smbios.Sound 64 s.baseboardManufacturer

theorem readStructure_sound (h : s.Sound) (p : ℕ) : (readStructure mem fin p s).Sound := by
  unfold readStructure
  dsimp only
  split
  · exact ⟨asciiCopy_sound _ h.manufacturer, asciiCopy_sound _ h.product, h.baseboard⟩
  split
  · exact ⟨h.manufacturer, h.product, asciiCopy_sound _ h.baseboard⟩
  · exact h

theorem readStructure_below (p : ℕ) :
    Below fin (readStructure mem fin p s).reads ↔ Numbered mem fin p ∧ Below fin s.reads := by
  unfold readStructure Numbered
  dsimp only
  split
  · rename_i hsystem
    have hboard : mem p ≠ 2 := hsystem ▸ by decide
    rw [asciiCopy_below, asciiCopy_below, below_cons, below_cons, ← and_assoc]
    refine and_congr_left fun _ ↦ ⟨fun h ↦ ⟨fun _ ↦ h.1, fun h₂ ↦ absurd h₂ hboard⟩, fun h ↦ ?_⟩
    have := h.1 hsystem
    omega
  rename_i hsystem
  split
  · rename_i hboard
    rw [asciiCopy_below, below_cons]
    exact and_congr_left fun _ ↦ ⟨fun h ↦ ⟨fun h₁ ↦ absurd h₁ hsystem, fun _ ↦ h⟩,
      fun h ↦ h.2 hboard⟩
  · rename_i hboard
    exact ⟨fun h ↦ ⟨⟨fun h₁ ↦ absurd h₁ hsystem, fun h₂ ↦ absurd h₂ hboard⟩, h⟩, And.right⟩

theorem turn_sound (h : s.Sound) (p : ℕ) : (turn mem fin p s).2.Sound := by
  unfold turn
  dsimp only
  split
  · split
    · exact ⟨h.manufacturer, h.product, h.baseboard⟩
    · have hread : (readStructure mem fin p { s with reads := (p + 1) :: p :: s.reads }).Sound :=
        readStructure_sound (s := { s with reads := (p + 1) :: p :: s.reads })
          ⟨h.manufacturer, h.product, h.baseboard⟩ p
      exact ⟨hread.manufacturer, hread.product, hread.baseboard⟩
  · exact h

theorem turn_spec (mem : ℕ → UInt8) (fin p : ℕ) (s : Info) :
    (Below fin (turn mem fin p s).2.reads ↔
        (Whole mem fin p → Numbered mem fin p) ∧ Below fin s.reads) ∧
      ∀ q, (turn mem fin p s).1 = some q ↔ Next mem fin p q := by
  unfold turn Next Whole
  dsimp only
  by_cases hhead : p + 4 ≤ fin
  · rw [if_pos hhead]
    by_cases hshort : (mem (p + 1)).toNat < 4 ∨ p + (mem (p + 1)).toNat > fin
    · rw [if_pos hshort, below_cons, below_cons]
      refine ⟨?_, fun q ↦ iff_of_false (by simp) fun h ↦ by omega⟩
      rw [and_iff_right (by omega), and_iff_right (by omega)]
      exact ⟨fun h ↦ ⟨fun hw ↦ by omega, h⟩, And.right⟩
    rw [if_neg hshort]
    rw [not_or, not_lt, not_lt] at hshort
    have hread : Below fin
        (readStructure mem fin p { s with reads := (p + 1) :: p :: s.reads }).reads ↔ _ :=
      readStructure_below p
    rw [below_cons, below_cons, and_iff_right (show p + 1 < fin by omega),
      and_iff_right (show p < fin by omega)] at hread
    generalize readStructure mem fin p { s with reads := (p + 1) :: p :: s.reads } = u at hread ⊢
    obtain ⟨hbelow, hend⟩ := @findEnd_spec mem fin (p + (mem (p + 1)).toNat) _ u.reads rfl
    generalize findEnd mem (fin - (p + (mem (p + 1)).toNat + 1)) (p + (mem (p + 1)).toNat)
      u.reads = r at hbelow hend ⊢
    refine ⟨?_, fun q ↦ ?_⟩
    · rw [hbelow, hread]
      exact and_congr_left fun _ ↦ ⟨fun h _ ↦ h, fun h ↦ h ⟨hhead, hshort⟩⟩
    rcases hend with ⟨hlast, hnone⟩ | hmark
    · rw [if_pos hlast]
      exact iff_of_false (by simp) fun ⟨_, x, hx, _⟩ ↦ hnone x hx
    have hlt := hmark.lt
    rw [if_neg (by omega), Option.some_inj]
    constructor
    · rintro rfl
      exact ⟨⟨hhead, hshort⟩, r.1, hmark, rfl⟩
    rintro ⟨-, x, hx, rfl⟩
    rw [hmark.unique hx]
  · rw [if_neg hhead]
    exact ⟨⟨fun h ↦ ⟨fun hw ↦ absurd hw.1 hhead, h⟩, And.right⟩,
      fun q ↦ iff_of_false (by simp) fun h ↦ hhead h.1.1⟩

theorem walk_sound (h : s.Sound) (p : ℕ) : (walk mem fin p s).Sound := by
  fun_induction walk mem fin p s with
  | case1 p s hnone => exact turn_sound h p
  | case2 p s q hsome ih => exact ih (turn_sound h p)

theorem walk_below (p : ℕ) (s : Info) :
    Below fin (walk mem fin p s).reads ↔ (∀ q, Relation.ReflTransGen (Next mem fin) p q →
      Whole mem fin q → Numbered mem fin q) ∧ Below fin s.reads := by
  fun_induction walk mem fin p s with
  | case1 p s hnone =>
    obtain ⟨hbelow, hnext⟩ := turn_spec mem fin p s
    rw [hbelow]
    refine and_congr_left fun _ ↦ ⟨fun h q hq ↦ ?_, fun h ↦ h p .refl⟩
    rcases hq.cases_head with rfl | ⟨c, hc, -⟩
    · exact h
    · exact absurd ((hnext c).2 hc) (by simp [hnone])
  | case2 p s c hsome ih =>
    obtain ⟨hbelow, hnext⟩ := turn_spec mem fin p s
    rw [ih, hbelow, ← and_assoc]
    refine and_congr_left fun _ ↦ ⟨fun ⟨hlater, hhere⟩ q hq ↦ ?_, fun h ↦ ⟨fun q hq ↦ ?_, h p .refl⟩⟩
    · rcases hq.cases_head with rfl | ⟨d, hd, hrest⟩
      · exact hhere
      · have hcd : c = d := Option.some.inj (hsome.symm.trans ((hnext d).2 hd))
        exact hlater q (hcd ▸ hrest)
    · exact h q (.head ((hnext c).1 hsome) hq)

/-- The walk reads in the table only if and only if no structure of type 1 or 2 that it reaches
lacks its string numbers; the strings are always written inside their arrays and terminated. -/
theorem smbios_walk_iff (mem : ℕ → UInt8) (fin : ℕ) (manufacturer product baseboard : ℕ → UInt8) :
    (Below fin (detectSystemIdentity mem fin manufacturer product baseboard).reads ∧
        (detectSystemIdentity mem fin manufacturer product baseboard).Sound) ↔
      ∀ p, Relation.ReflTransGen (Next mem fin) 0 p → Whole mem fin p → Numbered mem fin p := by
  have hstart : ∀ (a : ℕ → UInt8) (size : ℕ), 0 < size → Sound size ((Buffer.mk a []).store 0 0) :=
    fun a size hsize ↦ .terminate (fun i hi ↦ absurd hi List.not_mem_nil) hsize
  have hempty : Below fin [] := fun i hi ↦ absurd hi List.not_mem_nil
  unfold detectSystemIdentity
  dsimp only
  split
  · rename_i hshort
    refine iff_of_true ⟨hempty, hstart _ 64 (by decide), hstart _ 96 (by decide),
      hstart _ 64 (by decide)⟩ fun p _ hp ↦ ?_
    have := hp.1
    omega
  rw [walk_below, and_iff_left hempty]
  refine and_iff_left (walk_sound ?_ 0)
  exact ⟨hstart _ 64 (by decide), hstart _ 96 (by decide), hstart _ 64 (by decide)⟩

/-- A table that ends with a structure of type 1 of four bytes. -/
theorem smbios_short_structure :
    ¬ Below 4 (detectSystemIdentity (fun i ↦ [1, 4, 0, 0].getD i 0) 4
      (fun _ ↦ 0) (fun _ ↦ 0) (fun _ ↦ 0)).reads := by
  unfold detectSystemIdentity
  rw [if_neg (by decide), walk_below]
  rintro ⟨hall, -⟩
  have hnumbered := hall 0 .refl ⟨by decide, by decide, by decide⟩
  exact absurd (hnumbered.1 rfl) (by decide)

end Bounds

end NexusOS.Boot.Smbios
