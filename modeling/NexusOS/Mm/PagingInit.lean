import NexusOS.Mm.PagingWalk

namespace NexusOS.Mm.Paging

open Lib
open Pmm (BootInfo EfiMmapEntry)

section Init

inductive TableId
  | pml4
  | pdpt
  | pdBase (i : Fin 4)
  | pdExtra (i : Fin 512)
  deriving DecidableEq

/-- Where the linker and the loader have put them: at distinct pages below 4 GiB. -/
structure Tables where
  addr : TableId → ℕ
  injective : Function.Injective addr
  aligned : ∀ id, addr id % 4096 = 0
  low : ∀ id, TableAt (addr id)

/-- The tables in memory, `extra_slot_owner` and `extra_slots_used`. -/
structure Boot where
  state : State
  owner : Fin 512 → ℕ
  used : ℕ

def hugeFlags : ℕ := 0x83

variable (t : Tables)

def pdTableFor (phys : ℕ) (b : Boot) : Option ℕ × Boot :=
  let i := tableIndex 3 phys
  if h : i.val < 4 then
    let pd := t.addr (.pdBase ⟨i, h⟩)
    (some pd, if present (b.state.mem (t.addr .pdpt) i) then b
      else { b with state := setEntry b.state (t.addr .pdpt) i (pd ||| tableFlags) })
  else
    match (List.finRange 512).find? fun j ↦ j.val < b.used ∧ b.owner j = i with
    | some j => (some (t.addr (.pdExtra j)), b)
    | none =>
      if h : b.used < 512 then
        let pd := t.addr (.pdExtra ⟨b.used, h⟩)
        (some pd, {
          state := setEntry (zeroTable b.state pd) (t.addr .pdpt) i (pd ||| tableFlags)
          owner := Function.update b.owner ⟨b.used, h⟩ i
          used := b.used + 1 })
      else (none, b)

def map2mPage (phys extraFlags : ℕ) (b : Boot) : Boot :=
  match pdTableFor t phys b with
  | (none, b) => b
  | (some pd, b) =>
    { b with state := setEntry b.state pd (tableIndex 2 phys) (phys ||| hugeFlags ||| extraFlags) }

/-- The numbers of the 2 MiB pages of a range, whose ends are rounded outwards. -/
def regionPages (start stop : ℕ) : List ℕ :=
  if stop ≤ start then []
  else
    let first := start / 2 ^ 21
    List.range' first ((stop + 2 ^ 21 - 1) % 2 ^ 64 / 2 ^ 21 - first)

def mapRegion (start stop extraFlags : ℕ) (b : Boot) : Boot :=
  (regionPages start stop).foldl (fun b n ↦ map2mPage t (n * 2 ^ 21) extraFlags b) b

def descriptors (bi : BootInfo) : List EfiMmapEntry :=
  if bi.descriptorSize ≠ 0 ∧ bi.mapBase ≠ 0 then
    (List.range (bi.mapSize / bi.descriptorSize)).map bi.entry
  else []

def mapDescriptor (b : Boot) (e : EfiMmapEntry) : Boot :=
  mapRegion t e.physicalStart ((e.physicalStart + e.numberOfPages * 4096) % 2 ^ 64) 0 b

/-- The tables are cleared; `extra_slot_owner` keeps what it holds. -/
def clearTables (b : Boot) : Boot :=
  { b with
    state := (List.finRange 4).foldl (fun s i ↦ zeroTable s (t.addr (.pdBase i)))
      (zeroTable (zeroTable b.state (t.addr .pml4)) (t.addr .pdpt))
    used := 0 }

/-- The state when `paging_init` loads CR3. -/
def pagingInit (bi : Option BootInfo) (b : Boot) : Boot :=
  let b := clearTables t b
  let b := { b with
    state := setEntry b.state (t.addr .pml4) 0 (t.addr .pdpt ||| tableFlags) }
  let b := mapRegion t 0 (4 * 2 ^ 30) 0 b
  match bi with
  | none => b
  | some bi =>
    let b := (descriptors bi).foldl (mapDescriptor t) b
    if bi.fbBase ≠ 0 ∧ bi.fbSize ≠ 0 then
      mapRegion t bi.fbBase ((bi.fbBase + bi.fbSize) % 2 ^ 64) 0 b
    else b

end Init

section Represents

variable {t : Tables} {b b' : Boot} {f : ℕ → Option ℕ} {i : Fin 512} {id : TableId}

def served (b : Boot) (i : Fin 512) : Option TableId :=
  if h : i.val < 4 then some (.pdBase ⟨i, h⟩)
  else ((List.finRange 512).find? fun j ↦ j.val < b.used ∧ b.owner j = i).map .pdExtra

def entryOf : Option ℕ → ℕ
  | none => 0
  | some n => n * 2 ^ 21 ||| hugeFlags

/-- The tables map slot `n` of 2 MiB to the page `f n`, and nothing else. -/
structure Represents (t : Tables) (b : Boot) (f : ℕ → Option ℕ) : Prop where
  root : ∀ l, b.state.mem (t.addr .pml4) l = if l = 0 then t.addr .pdpt ||| tableFlags else 0
  dirs : ∀ i, (b.state.mem (t.addr .pdpt) i = 0 ∧ (∀ l : Fin 512, f (i * 512 + l) = none) ∧
      (4 ≤ i.val → served b i = none)) ∨
    ∃ id, served b i = some id ∧ b.state.mem (t.addr .pdpt) i = t.addr id ||| tableFlags
  rows : ∀ i id, served b i = some id → ∀ l : Fin 512,
    b.state.mem (t.addr id) l = entryOf (f (i * 512 + l))
  owner_mem : ∀ j : Fin 512, j.val < b.used → b.owner j ∈ Finset.Ico 4 512
  owner_inj : ∀ j j' : Fin 512, j.val < b.used → j'.val < b.used → b.owner j = b.owner j' → j = j'

theorem zeroTable_self (s : State) (q : ℕ) : (zeroTable s q).mem q = fun _ ↦ 0 := by
  simp [zeroTable, fillPage]

theorem zeroTable_of_ne {s : State} {q q' : ℕ} (h : q' ≠ q) :
    (zeroTable s q).mem q' = s.mem q' := by
  simp [zeroTable, fillPage, h]

theorem foldl_zeroTable {α : Type*} (a : α → ℕ) {is : List α} {s : State} {q : ℕ}
    (h : s.mem q = (fun _ ↦ 0) ∨ ∃ i ∈ is, a i = q) :
    (is.foldl (fun s i ↦ zeroTable s (a i)) s).mem q = fun _ ↦ 0 := by
  induction is generalizing s with
  | nil => simpa using h
  | cons i is ih =>
    apply ih
    by_cases hi : q = a i
    · left
      rw [hi, zeroTable_self]
    rw [zeroTable_of_ne hi]
    refine h.imp_right ?_
    rintro ⟨j, hj, rfl⟩
    rcases List.mem_cons.1 hj with rfl | hj
    · exact absurd rfl hi
    · exact ⟨j, hj, rfl⟩

theorem served_extra {j : Fin 512} (h : served b i = some (.pdExtra j)) :
    j.val < b.used ∧ b.owner j = i := by
  unfold served at h
  split_ifs at h with hi
  · cases h
  obtain ⟨j', hj', he⟩ := Option.map_eq_some_iff.1 h
  obtain rfl := TableId.pdExtra.inj he
  simpa using List.find?_some hj'

theorem served_ne (h : served b i = some id) : id ≠ .pml4 ∧ id ≠ .pdpt := by
  unfold served at h
  split_ifs at h
  · obtain rfl := Option.some.inj h
    simp
  obtain ⟨j, -, rfl⟩ := Option.map_eq_some_iff.1 h
  simp

theorem served_inj {i' : Fin 512} (h : served b i = some id) (h' : served b i' = some id) :
    i = i' := by
  cases id with
  | pml4 => exact absurd rfl (served_ne h).1
  | pdpt => exact absurd rfl (served_ne h).2
  | pdBase j =>
    unfold served at h h'
    split_ifs at h h' with hi hi'
    · have := TableId.pdBase.inj ((Option.some.inj h).trans (Option.some.inj h').symm)
      exact Fin.ext (Fin.mk.inj this)
    all_goals simp at h h'
  | pdExtra j => exact Fin.ext ((served_extra h).2.symm.trans (served_extra h').2)

theorem served_of_lt (hi : i.val < 4) : served b i = some (.pdBase ⟨i, hi⟩) := dif_pos hi

theorem Represents.used_lt (h : Represents t b f) : b.used < 512 := by
  by_contra hused
  have hcard : (Finset.univ : Finset (Fin 512)).card ≤ (Finset.Ico 4 512).card := by
    apply Finset.card_le_card_of_injOn b.owner
    · intro j _
      exact h.owner_mem j (by omega)
    intro j _ j' _ hjj
    exact h.owner_inj j j' (by omega) (by omega) hjj
  simp at hcard

section Allot

variable {j₀ : Fin 512} (hj₀ : j₀.val = b.used) (howner : b'.owner = Function.update b.owner j₀ i)
  (hused : b'.used = b.used + 1)

include hj₀ howner hused

theorem owner_allot (j : Fin 512) (n : ℕ) : (j.val < b'.used ∧ b'.owner j = n) ↔
    (j = j₀ ∧ i.val = n) ∨ (j.val < b.used ∧ b.owner j = n) := by
  rw [hused, howner]
  by_cases hj : j = j₀
  · subst hj
    simp [hj₀]
  have : j.val ≠ b.used := fun h ↦ hj (Fin.ext (h.trans hj₀.symm))
  rw [Function.update_of_ne hj]
  simp only [hj, false_and, false_or]
  omega

theorem served_allot (hi : 4 ≤ i.val)
    (hnone : ∀ j : Fin 512, ¬ (j.val < b.used ∧ b.owner j = i)) :
    served b' i = some (.pdExtra j₀) ∧ ∀ i', i' ≠ i → served b' i' = served b i' := by
  refine ⟨?_, ?_⟩
  · rw [served, dif_neg (by omega)]
    cases hj : (List.finRange 512).find? fun j ↦ j.val < b'.used ∧ b'.owner j = i with
    | none =>
      rw [List.find?_eq_none] at hj
      have := hj j₀ (List.mem_finRange j₀)
      rw [decide_eq_true_iff, owner_allot hj₀ howner hused] at this
      exact absurd (.inl ⟨rfl, rfl⟩) this
    | some j =>
      have hf := List.find?_some hj
      rw [decide_eq_true_iff, owner_allot hj₀ howner hused] at hf
      rcases hf with ⟨rfl, -⟩ | hf
      · rfl
      · exact absurd hf (hnone j)
  · intro i' hi'
    have hpred : (fun j : Fin 512 ↦ decide (j.val < b'.used ∧ b'.owner j = i'.val)) =
        fun j ↦ decide (j.val < b.used ∧ b.owner j = i'.val) := by
      funext j
      rw [decide_eq_decide, owner_allot hj₀ howner hused]
      have : i.val ≠ i'.val := fun h ↦ hi' (Fin.ext h.symm)
      tauto
    rw [served, served, hpred]

end Allot

theorem addr_ne {id' : TableId} (h : id' ≠ id) : t.addr id' ≠ t.addr id :=
  fun he ↦ h (t.injective he)

theorem Represents.link (h : Represents t b f) (hid : served b' i = some id)
    (hother : ∀ i', i' ≠ i → served b' i' = served b i')
    (hempty : ∀ l : Fin 512, f (i * 512 + l) = none)
    (hpdpt : ∀ l, b'.state.mem (t.addr .pdpt) l =
      if l = i then t.addr id ||| tableFlags else b.state.mem (t.addr .pdpt) l)
    (hrow : ∀ l, b'.state.mem (t.addr id) l = 0)
    (hframe : ∀ id', id' ≠ .pdpt → id' ≠ id →
      b'.state.mem (t.addr id') = b.state.mem (t.addr id'))
    (hmem : ∀ j : Fin 512, j.val < b'.used → b'.owner j ∈ Finset.Ico 4 512)
    (hinj : ∀ j j' : Fin 512, j.val < b'.used → j'.val < b'.used → b'.owner j = b'.owner j' →
      j = j') : Represents t b' f := by
  refine ⟨?_, ?_, ?_, hmem, hinj⟩
  · rw [hframe .pml4 (by simp) (served_ne hid).1.symm]
    exact h.root
  · intro i'
    rw [hpdpt]
    by_cases hi : i' = i
    · rw [if_pos hi, hi]
      exact .inr ⟨id, hid, rfl⟩
    rw [if_neg hi, hother i' hi]
    exact h.dirs i'
  intro i' id' hid' l
  by_cases hi : i' = i
  · subst hi
    obtain rfl := Option.some.inj (hid'.symm.trans hid)
    rw [hrow, hempty]
    rfl
  have hne : id' ≠ id := by
    rintro rfl
    exact hi (served_inj hid' hid)
  rw [hframe id' (served_ne hid').2 hne]
  exact h.rows i' id' (hother i' hi ▸ hid') l

theorem present_table (id : TableId) : present (t.addr id ||| tableFlags) = true :=
  (isTableEntry (t.aligned id)).present

theorem Represents.linked (h : Represents t b f) (hid : served b i = some id)
    (hi : present (b.state.mem (t.addr .pdpt) i) = true ∨ 4 ≤ i.val) :
    b.state.mem (t.addr .pdpt) i = t.addr id ||| tableFlags := by
  rcases h.dirs i with ⟨h0, -, hnone⟩ | ⟨id', hid', he⟩
  · rcases hi with hi | hi
    · rw [h0] at hi
      cases hi
    · cases (hnone hi).symm.trans hid
  · rw [he, Option.some.inj (hid'.symm.trans hid)]

theorem pdTableFor_spec (h : Represents t b f) (phys : ℕ) :
    ∃ id b', pdTableFor t phys b = (some (t.addr id), b') ∧ Represents t b' f ∧
      served b' (tableIndex 3 phys) = some id ∧
      b'.state.mem (t.addr .pdpt) (tableIndex 3 phys) = t.addr id ||| tableFlags := by
  unfold pdTableFor
  generalize tableIndex 3 phys = i
  by_cases hi : i.val < 4
  · have hid : served b i = some (.pdBase ⟨i, hi⟩) := served_of_lt hi
    simp only [hi, dif_pos]
    by_cases hp : present (b.state.mem (t.addr .pdpt) i) = true
    · rw [if_pos hp]
      exact ⟨_, b, rfl, h, hid, h.linked hid (.inl hp)⟩
    rw [if_neg hp]
    refine ⟨_, _, rfl, ?_, hid, setEntry_self ..⟩
    have hempty : ∀ l : Fin 512, f (i * 512 + l) = none := by
      rcases h.dirs i with ⟨-, hempty, -⟩ | ⟨id, -, he⟩
      · exact hempty
      rw [he] at hp
      exact absurd (present_table id) hp
    refine h.link hid (fun _ _ ↦ rfl) hempty ?_ ?_ ?_ h.owner_mem h.owner_inj
    · intro l
      split_ifs with hl
      · rw [hl, setEntry_self]
      · exact setEntry_row hl
    · intro l
      rw [setEntry_of_ne (addr_ne (by simp)), h.rows i _ hid, hempty]
      rfl
    · intro id' hne _
      exact setEntry_of_ne (addr_ne hne)
  · simp only [hi, dif_neg, not_false_eq_true]
    cases hj : (List.finRange 512).find? fun j ↦ j.val < b.used ∧ b.owner j = i with
    | some j =>
      have hid : served b i = some (.pdExtra j) := by
        rw [served, dif_neg hi, hj]
        rfl
      exact ⟨_, b, rfl, h, hid, h.linked hid (.inr (by omega))⟩
    | none =>
      have hused := h.used_lt
      simp only [hused, dif_pos]
      have hnone : ∀ j : Fin 512, ¬ (j.val < b.used ∧ b.owner j = i) := by
        intro j
        simpa using List.find?_eq_none.1 hj j (List.mem_finRange j)
      have hserved : served b i = none := by
        rw [served, dif_neg hi, hj]
        rfl
      have hempty : ∀ l : Fin 512, f (i * 512 + l) = none := by
        rcases h.dirs i with ⟨-, hempty, -⟩ | ⟨id, hid, -⟩
        · exact hempty
        · cases hserved.symm.trans hid
      generalize hb' : Boot.mk _ _ _ = b'
      have howner : b'.owner = Function.update b.owner ⟨b.used, hused⟩ i := by rw [← hb']
      have hcount : b'.used = b.used + 1 := by rw [← hb']
      have hstate : b'.state = setEntry (zeroTable b.state (t.addr (.pdExtra ⟨b.used, hused⟩)))
          (t.addr .pdpt) i (t.addr (.pdExtra ⟨b.used, hused⟩) ||| tableFlags) := by rw [← hb']
      generalize hj₀ : (⟨b.used, hused⟩ : Fin 512) = j₀ at howner hstate ⊢
      have hj₀ : j₀.val = b.used := by rw [← hj₀]
      obtain ⟨hself, hother⟩ := served_allot hj₀ howner hcount (by omega) hnone
      refine ⟨_, b', rfl, h.link hself hother hempty ?_ ?_ ?_ ?_ ?_, hself, ?_⟩
      · intro l
        rw [hstate]
        split_ifs with hl
        · rw [hl, setEntry_self]
        · rw [setEntry_row hl, zeroTable_of_ne (addr_ne (by simp))]
      · intro l
        rw [hstate, setEntry_of_ne (addr_ne (by simp)), zeroTable_self]
      · intro id' hne hne'
        rw [hstate, setEntry_of_ne (addr_ne hne), zeroTable_of_ne (addr_ne hne')]
      · intro j hlt
        rcases (owner_allot hj₀ howner hcount j (b'.owner j)).1 ⟨hlt, rfl⟩ with ⟨-, he⟩ | ⟨hlt', he⟩
        · rw [← he, Finset.mem_Ico]
          omega
        rw [← he]
        exact h.owner_mem j hlt'
      · intro j j' hlt hlt' he
        rcases (owner_allot hj₀ howner hcount j (b'.owner j)).1 ⟨hlt, rfl⟩ with ⟨rfl, h1⟩ | ⟨h1, h2⟩
        · rcases (owner_allot hj₀ howner hcount j' (b'.owner j)).1 ⟨hlt', he.symm⟩ with
            ⟨rfl, -⟩ | h3
          · rfl
          · exact absurd (h1 ▸ h3) (hnone j')
        rcases (owner_allot hj₀ howner hcount j' (b'.owner j)).1 ⟨hlt', he.symm⟩ with
          ⟨rfl, h3⟩ | ⟨h3, h4⟩
        · exact absurd ⟨h1, h2.trans h3.symm⟩ (hnone j)
        · exact h.owner_inj j j' h1 h3 (h2.trans h4.symm)
      · rw [hstate, setEntry_self]

/-- One more page of 2 MiB is mapped, in the slot that its number names modulo 512 GiB. -/
def place (f : ℕ → Option ℕ) (n : ℕ) : ℕ → Option ℕ := Function.update f (n % 2 ^ 18) (some n)

theorem slot_eq (n : ℕ) : (tableIndex 3 (n * 2 ^ 21)).val * 512 + (tableIndex 2 (n * 2 ^ 21)).val =
    n % 2 ^ 18 := by
  simp only [tableIndex]
  omega

theorem Represents.write (h : Represents t b f) (hid : served b i = some id)
    (hlink : b.state.mem (t.addr .pdpt) i = t.addr id ||| tableFlags) (l₀ : Fin 512) (n : ℕ) :
    Represents t { b with state := setEntry b.state (t.addr id) l₀ (entryOf (some n)) }
      (Function.update f (i * 512 + l₀) (some n)) := by
  have hother : ∀ i' l : Fin 512, i' ≠ i ∨ l ≠ l₀ →
      Function.update f (i * 512 + l₀) (some n) (i' * 512 + l) = f (i' * 512 + l) := by
    intro i' l hne
    apply Function.update_of_ne
    omega
  refine ⟨?_, ?_, ?_, h.owner_mem, h.owner_inj⟩
  · intro l
    rw [setEntry_of_ne (addr_ne (served_ne hid).1.symm)]
    exact h.root l
  · intro i'
    rw [setEntry_of_ne (addr_ne (served_ne hid).2.symm)]
    by_cases hi : i' = i
    · subst hi
      exact .inr ⟨id, hid, hlink⟩
    refine (h.dirs i').imp_left ?_
    intro hempty
    refine ⟨hempty.1, ?_, hempty.2.2⟩
    intro l
    rw [hother i' l (.inl hi)]
    exact hempty.2.1 l
  intro i' id' hid' l
  by_cases hi : i' = i
  · subst hi
    obtain rfl := Option.some.inj (hid'.symm.trans hid)
    by_cases hl : l = l₀
    · subst hl
      rw [setEntry_self, Function.update_self]
    rw [setEntry_row hl, hother i' l (.inr hl)]
    exact h.rows i' id' hid' l
  have hne : id' ≠ id := by
    rintro rfl
    exact hi (served_inj hid' hid)
  rw [setEntry_of_ne (addr_ne hne), hother i' l (.inl hi)]
  exact h.rows i' id' hid' l

theorem Represents.map2mPage (h : Represents t b f) (n : ℕ) :
    Represents t (map2mPage t (n * 2 ^ 21) 0 b) (place f n) := by
  obtain ⟨id, b', he, hb', hid, hlink⟩ := pdTableFor_spec h (n * 2 ^ 21)
  have hwrite := hb'.write hid hlink (tableIndex 2 (n * 2 ^ 21)) n
  rw [slot_eq, entryOf] at hwrite
  rw [Paging.map2mPage, he]
  dsimp only
  rw [Nat.or_zero]
  exact hwrite

theorem Represents.mapRegion (h : Represents t b f) (start stop : ℕ) :
    Represents t (mapRegion t start stop 0 b) ((regionPages start stop).foldl place f) := by
  unfold Paging.mapRegion
  generalize regionPages start stop = pages
  induction pages generalizing b f with
  | nil => exact h
  | cons n pages ih => exact ih (h.map2mPage n)

/-- The pages of 2 MiB that `paging_init` maps, in this order. -/
def bootPages (bi : Option BootInfo) : List ℕ :=
  regionPages 0 (4 * 2 ^ 30) ++ bi.elim [] fun bi ↦
    ((descriptors bi).flatMap fun e ↦
      regionPages e.physicalStart ((e.physicalStart + e.numberOfPages * 4096) % 2 ^ 64)) ++
    if bi.fbBase ≠ 0 ∧ bi.fbSize ≠ 0 then
      regionPages bi.fbBase ((bi.fbBase + bi.fbSize) % 2 ^ 64) else []

theorem Represents.mapDescriptors (h : Represents t b f) (es : List EfiMmapEntry) :
    Represents t (es.foldl (mapDescriptor t) b) ((es.flatMap fun e ↦
      regionPages e.physicalStart ((e.physicalStart + e.numberOfPages * 4096) % 2 ^ 64)).foldl
        place f) := by
  induction es generalizing b f with
  | nil => exact h
  | cons e es ih =>
    rw [List.flatMap_cons, List.foldl_append]
    exact ih (h.mapRegion _ _)

theorem clearTables_represents (t : Tables) (b : Boot) :
    let b' := clearTables t b
    Represents t { b' with
      state := setEntry b'.state (t.addr .pml4) 0 (t.addr .pdpt ||| tableFlags) } fun _ ↦ none := by
  intro b'
  have hpml4 : b'.state.mem (t.addr .pml4) = fun _ ↦ 0 :=
    foldl_zeroTable _ (.inl (by rw [zeroTable_of_ne (addr_ne (by simp)), zeroTable_self]))
  have hpdpt : b'.state.mem (t.addr .pdpt) = fun _ ↦ 0 :=
    foldl_zeroTable _ (.inl (zeroTable_self _ _))
  have hbase : ∀ i, b'.state.mem (t.addr (.pdBase i)) = fun _ ↦ 0 :=
    fun i ↦ foldl_zeroTable _ (.inr ⟨i, List.mem_finRange i, rfl⟩)
  have hused : ∀ n, ¬ n < b'.used := fun n ↦ Nat.not_lt_zero n
  have hnone : ∀ i : Fin 512, 4 ≤ i.val → served b' i = none := by
    intro i hi
    rw [served, dif_neg (by omega), Option.map_eq_none_iff, List.find?_eq_none]
    intro j _
    simp [hused]
  refine ⟨?_, ?_, ?_, fun j hj ↦ absurd hj (hused j), fun j _ hj ↦ absurd hj (hused j)⟩
  · intro l
    split_ifs with hl
    · rw [hl, setEntry_self]
    · rw [setEntry_row hl, hpml4]
  · intro i
    rw [setEntry_of_ne (addr_ne (by simp)), hpdpt]
    exact .inl ⟨rfl, fun _ ↦ rfl, hnone i⟩
  intro i id hid l
  by_cases hi : i.val < 4
  · obtain rfl := Option.some.inj ((served_of_lt hi).symm.trans hid)
    rw [setEntry_of_ne (addr_ne (by simp)), hbase]
    rfl
  · cases (hnone i (by omega)).symm.trans hid

theorem pagingInit_represents (t : Tables) (bi : Option BootInfo) (b : Boot) :
    Represents t (pagingInit t bi b) ((bootPages bi).foldl place fun _ ↦ none) := by
  have hbase := (clearTables_represents t b).mapRegion 0 (4 * 2 ^ 30)
  unfold pagingInit bootPages
  rw [List.foldl_append]
  dsimp only at hbase ⊢
  generalize regionPages 0 (4 * 2 ^ 30) = pages at hbase ⊢
  generalize mapRegion t 0 (4 * 2 ^ 30) 0 _ = b₁ at hbase ⊢
  cases bi with
  | none => exact hbase
  | some bi =>
    have hmaps := hbase.mapDescriptors (descriptors bi)
    dsimp only [Option.elim_some]
    rw [List.foldl_append]
    split_ifs
    · exact hmaps.mapRegion _ _
    · exact hmaps

end Represents

section Walk

variable {t : Tables} {b : Boot} {f : ℕ → Option ℕ} {va n : ℕ}

theorem hugeEntry_testBit {i : ℕ} (hi : i < 12) :
    (n * 2 ^ 21 ||| hugeFlags).testBit i = hugeFlags.testBit i :=
  testBit_aligned_or (by omega) hi

theorem entryOf_present : present (entryOf (some n)) = true := by
  rw [entryOf, present, hugeEntry_testBit (by decide)]
  rfl

theorem entryOf_writable : writable (entryOf (some n)) = true := by
  rw [entryOf, writable, hugeEntry_testBit (by decide)]
  rfl

theorem hugeBase_entryOf (hn : n < 2 ^ 27) : hugeBase (entryOf (some n)) = n * 2 ^ 21 := by
  rw [entryOf, aligned_or (by omega) (by decide), hugeBase, hugeFlags]
  omega

theorem childOf_entryOf {level : ℕ} (h : level < 4) : childOf level (entryOf (some n)) = none := by
  have hh : huge (entryOf (some n)) = true := by
    rw [entryOf, huge, hugeEntry_testBit (by decide)]
    rfl
  rw [childOf, if_neg]
  intro hc
  exact hc.2.2 ⟨h, hh⟩

theorem childOf_table (id : TableId) {level : ℕ} (h : 1 < level) :
    childOf level (t.addr id ||| tableFlags) = some (t.addr id) :=
  (isTableEntry (t.aligned id)).child h

section

variable (h : Represents t b f)
include h

theorem Represents.child_pml4 {i : Fin 512} {c : ℕ}
    (hc : childOf 4 (b.state.mem (t.addr .pml4) i) = some c) : i = 0 ∧ c = t.addr .pdpt := by
  rw [h.root] at hc
  split_ifs at hc with hi
  · rw [childOf_table _ (by decide)] at hc
    exact ⟨hi, (Option.some.inj hc).symm⟩
  rw [childOf_of_not_present rfl] at hc
  cases hc

theorem Represents.child_pdpt {i : Fin 512} {c : ℕ}
    (hc : childOf 3 (b.state.mem (t.addr .pdpt) i) = some c) :
    ∃ id, served b i = some id ∧ c = t.addr id := by
  rcases h.dirs i with ⟨h0, -, -⟩ | ⟨id, hid, he⟩
  · rw [h0, childOf_of_not_present rfl] at hc
    cases hc
  rw [he, childOf_table _ (by decide)] at hc
  exact ⟨id, hid, (Option.some.inj hc).symm⟩

theorem Represents.child_pd {i : Fin 512} {id : TableId}
    (hid : served b i = some id) (l : Fin 512) :
    childOf 2 (b.state.mem (t.addr id) l) = none := by
  rw [h.rows i id hid l]
  cases f (i * 512 + l) with
  | none => exact childOf_of_not_present rfl
  | some n => exact childOf_entryOf (by decide)

theorem Represents.pages_pd {i : Fin 512} {id : TableId} (hid : served b i = some id) :
    Radix.Pages childOf b.state.mem 2 (t.addr id) = {t.addr id} := by
  ext q
  simp only [Radix.Pages, h.child_pd hid]
  simp

theorem Represents.mem_pages_pdpt {q : ℕ}
    (hq : q ∈ Radix.Pages childOf b.state.mem 3 (t.addr .pdpt)) :
    ∃ id, id ≠ .pml4 ∧ q = t.addr id := by
  rcases hq with rfl | ⟨i, c, hc, hq⟩
  · exact ⟨.pdpt, by simp, rfl⟩
  obtain ⟨id, hid, rfl⟩ := h.child_pdpt hc
  rw [h.pages_pd hid] at hq
  exact ⟨id, (served_ne hid).1, hq⟩

theorem Represents.mem_pages {q : ℕ}
    (hq : q ∈ pagesOf b.state (t.addr .pml4)) : ∃ id, q = t.addr id := by
  rcases hq with rfl | ⟨i, c, hc, hq⟩
  · exact ⟨.pml4, rfl⟩
  obtain ⟨-, rfl⟩ := h.child_pml4 hc
  obtain ⟨id, -, he⟩ := h.mem_pages_pdpt hq
  exact ⟨id, he⟩

theorem Represents.low : ∀ q ∈ pagesOf b.state (t.addr .pml4), TableAt q := by
  intro q hq
  obtain ⟨id, rfl⟩ := h.mem_pages hq
  exact t.low id

theorem Represents.top (hva : va < 2 ^ 39) :
    b.state.mem (t.addr .pml4) (path va 4) = t.addr .pdpt ||| tableFlags := by
  have h4 : path va 4 = 0 := by
    apply Fin.ext
    simp only [path, tableIndex, Fin.val_zero]
    omega
  rw [h4, h.root, if_pos rfl]

end

theorem slot_of_lt (hva : va < 2 ^ 39) : (path va 3).val * 512 + (path va 2).val = va / 2 ^ 21 := by
  simp only [path, tableIndex]
  omega

section

variable (h : Represents t b f)
include h

section

variable (hva : va < 2 ^ 39)
include hva

theorem Represents.leaf {id : TableId} (hid : served b (path va 3) = some id) :
    b.state.mem (t.addr id) (path va 2) = entryOf (f (va / 2 ^ 21)) := by
  rw [h.rows _ id hid, slot_of_lt hva]

theorem Represents.trail_pdpt : trailOf b.state (t.addr .pml4) va = (t.addr .pdpt ||| tableFlags) ::
      Radix.trail childOf b.state.mem (path va) 3 (t.addr .pdpt) := by
  have hc : childOf 4 (b.state.mem (t.addr .pml4) (path va 4)) = some (t.addr .pdpt) := by
    rw [h.top hva]
    exact childOf_table _ (by decide)
  rw [trailOf, Radix.trail_child hc, h.top hva]

theorem Represents.trail_table {id : TableId} (hid : served b (path va 3) = some id)
    (he : b.state.mem (t.addr .pdpt) (path va 3) = t.addr id ||| tableFlags) :
    trailOf b.state (t.addr .pml4) va = [t.addr .pdpt ||| tableFlags, t.addr id ||| tableFlags,
      entryOf (f (va / 2 ^ 21))] := by
  have hc : childOf 3 (b.state.mem (t.addr .pdpt) (path va 3)) = some (t.addr id) := by
    rw [he]
    exact childOf_table _ (by decide)
  rw [h.trail_pdpt hva, Radix.trail_child hc, Radix.trail_leaf (h.child_pd hid _), he,
    h.leaf hva hid]

theorem Represents.trail_some
    (hf : f (va / 2 ^ 21) = some n) : ∃ id, trailOf b.state (t.addr .pml4) va =
      [t.addr .pdpt ||| tableFlags, t.addr id ||| tableFlags, entryOf (some n)] := by
  rcases h.dirs (path va 3) with ⟨-, hempty, -⟩ | ⟨id, hid, he⟩
  · have := hempty (path va 2)
    rw [slot_of_lt hva, hf] at this
    cases this
  · exact ⟨id, hf ▸ h.trail_table hva hid he⟩

theorem Represents.trail_none
    (hf : f (va / 2 ^ 21) = none) : 0 ∈ trailOf b.state (t.addr .pml4) va := by
  rcases h.dirs (path va 3) with ⟨h0, -, -⟩ | ⟨id, hid, he⟩
  · have hc : childOf 3 (b.state.mem (t.addr .pdpt) (path va 3)) = none := by
      rw [h0]
      exact childOf_of_not_present rfl
    rw [h.trail_pdpt hva, Radix.trail_leaf hc, h0]
    exact List.mem_cons_of_mem _ List.mem_cons_self
  · rw [h.trail_table hva hid he, hf]
    exact List.mem_cons_of_mem _ (List.mem_cons_of_mem _ List.mem_cons_self)

end

end

theorem translate_huge (x y : ℕ) {e : ℕ} (hp : present e = true) :
    translate [x, y, e] va = hugeBase e + va % 2 ^ 21 := by
  simp [translate, leafAddress, hp]

theorem Represents.virtToPhysRoot (h : Represents t b f) (hva : va < 2 ^ 39)
    (hf : f (va / 2 ^ 21) = some n) (hn : n < 2 ^ 27) :
    virtToPhysRoot (t.addr .pml4) va b.state = n * 2 ^ 21 + va % 2 ^ 21 := by
  obtain ⟨id, htrail⟩ := h.trail_some hva hf
  rw [virtToPhysRoot_eq h.low, htrail, translate_huge _ _ entryOf_present, hugeBase_entryOf hn]

end Walk

section Identity

variable {pages : List ℕ} {bi : BootInfo} {n p : ℕ}

/-- The last of the pages that are entered in slot `n`. -/
def lastIn (pages : List ℕ) (n : ℕ) : Option ℕ := (pages.filter (· % 2 ^ 18 = n)).getLast?

theorem foldl_place (pages : List ℕ) : pages.foldl place (fun _ ↦ none) = lastIn pages := by
  induction pages using List.reverseRecOn with
  | nil => rfl
  | append_singleton pages q ih =>
    funext n
    rw [List.foldl_append, List.foldl_cons, List.foldl_nil, place, ih, Function.update_apply]
    unfold lastIn
    rw [List.filter_append, List.getLast?_append]
    split_ifs with hn
    · rw [List.filter_singleton, decide_eq_true hn.symm]
      rfl
    rw [List.filter_singleton, decide_eq_false (Ne.symm hn)]
    rfl

theorem lastIn_some (h : lastIn pages n = some p) : p ∈ pages ∧ p % 2 ^ 18 = n := by
  simpa using List.mem_filter.1 (List.mem_of_getLast? h)

theorem lastIn_isSome (h : p ∈ pages) : ∃ q, lastIn pages (p % 2 ^ 18) = some q := by
  have hne : pages.filter (· % 2 ^ 18 = p % 2 ^ 18) ≠ [] :=
    List.ne_nil_of_mem (List.mem_filter.2 ⟨h, by simp⟩)
  exact ⟨_, List.getLast?_eq_some_getLast hne⟩

theorem regionPages_of_le {start stop : ℕ} (h : stop ≤ start) : regionPages start stop = [] :=
  if_pos h

theorem mem_regionPages_of_lt {start stop : ℕ} (h : start < stop) (hstop : stop ≤ 2 ^ 39) :
    n ∈ regionPages start stop ↔ start / 2 ^ 21 ≤ n ∧ n < (stop + (2 ^ 21 - 1)) / 2 ^ 21 := by
  have hmod : (stop + 2 ^ 21 - 1) % 2 ^ 64 = stop + (2 ^ 21 - 1) := by omega
  have hle : start / 2 ^ 21 ≤ (stop + (2 ^ 21 - 1)) / 2 ^ 21 := Nat.div_le_div_right (by omega)
  unfold regionPages
  rw [if_neg (by omega), hmod]
  dsimp only
  rw [List.mem_range'_1, Nat.add_sub_cancel' hle]

theorem mem_regionPages {start len : ℕ} (hstart : start < 2 ^ 64)
    (hend : len ≠ 0 → start + len ≤ 2 ^ 39) : n ∈ regionPages start ((start + len) % 2 ^ 64) ↔
      len ≠ 0 ∧ start / 2 ^ 21 ≤ n ∧ n < (start + len + (2 ^ 21 - 1)) / 2 ^ 21 := by
  by_cases hlen : len = 0
  · subst hlen
    have hstop : (start + 0) % 2 ^ 64 ≤ start := by omega
    rw [regionPages_of_le hstop]
    simp
  have hstop := hend hlen
  have hmod : (start + len) % 2 ^ 64 = start + len := Nat.mod_eq_of_lt (by omega)
  rw [hmod, mem_regionPages_of_lt (by omega) hstop]
  exact (and_iff_right hlen).symm

/-- The descriptors and the framebuffer end below 512 GiB, and a framebuffer at address 0, which
`paging_init` takes for none, lies in the first 4 GiB. -/
structure BelowLimit (bi : BootInfo) : Prop where
  descriptors : ∀ e ∈ descriptors bi, e.numberOfPages ≠ 0 →
    e.physicalStart + e.numberOfPages * 4096 ≤ 2 ^ 39
  framebuffer : bi.fbBase ≠ 0 → bi.fbSize ≠ 0 → bi.fbBase + bi.fbSize ≤ 2 ^ 39
  zero : bi.fbBase = 0 → bi.fbSize ≤ 4 * 2 ^ 30

/-- An address in the first 4 GiB, in a descriptor or in the framebuffer. -/
def Described (bi : Option BootInfo) (a : ℕ) : Prop :=
  a < 4 * 2 ^ 30 ∨ ∃ i ∈ bi, (∃ e ∈ descriptors i, e.physicalStart ≤ a ∧
    a < e.physicalStart + e.numberOfPages * 4096) ∨ (i.fbBase ≤ a ∧ a < i.fbBase + i.fbSize)

theorem mem_basePages : n ∈ regionPages 0 (4 * 2 ^ 30) ↔ n < 2 ^ 11 := by
  rw [mem_regionPages_of_lt (by decide) (by decide)]
  omega

theorem bootPages_lt {bi : Option BootInfo} (hbi : ∀ i ∈ bi, BelowLimit i) (h : n ∈ bootPages bi) :
    n < 2 ^ 18 := by
  rcases List.mem_append.1 h with h | h
  · have := mem_basePages.1 h
    omega
  cases bi with
  | none => cases h
  | some bi =>
    have hlim := hbi bi rfl
    rcases List.mem_append.1 h with h | h
    · obtain ⟨e, he, hn⟩ := List.mem_flatMap.1 h
      rw [mem_regionPages e.physicalStart_lt (by
        intro h0
        exact hlim.descriptors e he fun hz ↦ h0 (by rw [hz, Nat.zero_mul]))] at hn
      have := hlim.descriptors e he fun hz ↦ hn.1 (by rw [hz, Nat.zero_mul])
      omega
    split_ifs at h with hfb
    · have := hlim.framebuffer hfb.1 hfb.2
      rw [mem_regionPages (by omega) fun _ ↦ this] at h
      omega
    · cases h

theorem bootPages_described {bi : Option BootInfo} (hbi : ∀ i ∈ bi, BelowLimit i) {a : ℕ}
    (h : Described bi a) : a / 2 ^ 21 ∈ bootPages bi := by
  by_cases hbase : a < 4 * 2 ^ 30
  · exact List.mem_append_left _ (mem_basePages.2 (by omega))
  rcases h with h | ⟨i, rfl, h⟩
  · exact absurd h hbase
  have hlim := hbi i rfl
  apply List.mem_append_right
  rcases h with ⟨e, he, hle, hlt⟩ | ⟨hle, hlt⟩
  · apply List.mem_append_left
    have hend := hlim.descriptors e he fun hz ↦ by
      rw [hz, Nat.zero_mul] at hlt
      omega
    refine List.mem_flatMap.2 ⟨e, he, (mem_regionPages e.physicalStart_lt fun _ ↦ hend).2 ?_⟩
    omega
  apply List.mem_append_right
  have hsize : i.fbSize ≠ 0 := by omega
  have hfb : i.fbBase ≠ 0 := by
    intro h0
    have := hlim.zero h0
    omega
  have hend := hlim.framebuffer hfb hsize
  rw [if_pos ⟨hfb, hsize⟩, mem_regionPages (by omega) fun _ ↦ hend]
  omega

/-- In each slot below 512 GiB the page that is entered last is the one of the slot. -/
def Undisturbed (bi : Option BootInfo) : Prop :=
  ∀ n < 2 ^ 18, ∀ p, lastIn (bootPages bi) n = some p → p = n

/-- Each address below 512 GiB that is to be mapped has its slot entered. Not so for a framebuffer at
address 0, which is taken for none, and for a region that ends in the last 2 MiB of all. -/
def Covered (bi : Option BootInfo) : Prop :=
  ∀ a < 2 ^ 39, Described bi a → ∃ p ∈ bootPages bi, p % 2 ^ 18 = a / 2 ^ 21

theorem undisturbed_covered {bi : Option BootInfo} (hbi : ∀ i ∈ bi, BelowLimit i) :
    Undisturbed bi ∧ Covered bi := by
  refine ⟨fun n _ p hp ↦ ?_, fun a ha h ↦ ⟨_, bootPages_described hbi h, by omega⟩⟩
  obtain ⟨hp, hmod⟩ := lastIn_some hp
  have := bootPages_lt hbi hp
  omega

/-- An address is mapped to itself, by an entry with its own frame. -/
def Identity (t : Tables) (s : State) (a : ℕ) : Prop :=
  pagingVirtToPhys (t.addr .pml4) a s = a ∧
    (trailOf s (t.addr .pml4) a).getLast? = some (a / 2 ^ 21 * 2 ^ 21 ||| hugeFlags)

theorem Represents.entries {t : Tables} {b : Boot} {f : ℕ → Option ℕ} {a : ℕ}
    (h : Represents t b f) (ha : a < 2 ^ 39) (hf : f (a / 2 ^ 21) = some n) :
    ∀ e ∈ trailOf b.state (t.addr .pml4) a, present e = true ∧ writable e = true := by
  have htable : ∀ id, IsTableEntry (t.addr id ||| tableFlags) (t.addr id) :=
    fun id ↦ isTableEntry (t.aligned id)
  obtain ⟨id, htrail⟩ := h.trail_some ha hf
  intro e he
  rw [htrail] at he
  rcases List.mem_cons.1 he with rfl | he
  · exact ⟨(htable _).present, (htable _).writable⟩
  rcases List.mem_cons.1 he with rfl | he
  · exact ⟨(htable _).present, (htable _).writable⟩
  rw [List.mem_singleton.1 he]
  exact ⟨entryOf_present, entryOf_writable⟩

/-- A slot maps its addresses to themselves just if its page is its own. -/
theorem Represents.identity_iff {t : Tables} {b : Boot} {f : ℕ → Option ℕ} {a : ℕ}
    (h : Represents t b f) (ha : a < 2 ^ 39) (hf : f (a / 2 ^ 21) = some n) :
    Identity t b.state a ↔ n = a / 2 ^ 21 := by
  obtain ⟨id, htrail⟩ := h.trail_some ha hf
  unfold Identity
  rw [htrail, entryOf, List.getLast?_cons_cons, List.getLast?_cons_cons, List.getLast?_singleton]
  constructor
  · rintro ⟨-, hlast⟩
    have hentry := Option.some.inj hlast
    rw [aligned_or (by omega) (by decide), aligned_or (by omega) (by decide)] at hentry
    omega
  · rintro rfl
    exact ⟨(h.virtToPhysRoot ha hf (by omega)).trans (by omega), rfl⟩

/-- Boot maps the first 4 GiB, the descriptors and the framebuffer to themselves, and maps what it
maps below 512 GiB to itself, just if no page takes the slot of another for good and all are
entered. -/
theorem boot_identity_map (t : Tables) (bi : Option BootInfo) (b : Boot) :
    let s := (pagingInit t bi b).state
    ((∀ a < 2 ^ 39, Described bi a → Identity t s a ∧
        ∀ e ∈ trailOf s (t.addr .pml4) a, present e = true ∧ writable e = true) ∧
      ∀ a < 2 ^ 39, (∀ e ∈ trailOf s (t.addr .pml4) a, present e = true) → Identity t s a) ↔
    Undisturbed bi ∧ Covered bi := by
  intro s
  have hrep := pagingInit_represents t bi b
  rw [foldl_place] at hrep
  constructor
  · rintro ⟨hdescribed, hmapped⟩
    refine ⟨fun n hn p hp ↦ ?_, fun a ha h ↦ ?_⟩
    · have hslot : n * 2 ^ 21 / 2 ^ 21 = n := by omega
      rw [← hslot] at hp ⊢
      exact (hrep.identity_iff (by omega) hp).1
        (hmapped _ (by omega) fun e he ↦ (hrep.entries (by omega) hp e he).1)
    cases hf : lastIn (bootPages bi) (a / 2 ^ 21) with
    | some p => exact ⟨p, lastIn_some hf⟩
    | none => exact absurd ((hdescribed a ha h).2 0 (hrep.trail_none ha hf)).1 (by decide)
  · rintro ⟨hundisturbed, hcovered⟩
    have hself : ∀ a < 2 ^ 39, ∀ p, lastIn (bootPages bi) (a / 2 ^ 21) = some p →
        Identity t s a :=
      fun a ha p hp ↦ (hrep.identity_iff ha hp).2 (hundisturbed _ (by omega) p hp)
    refine ⟨fun a ha h ↦ ?_, fun a ha hpresent ↦ ?_⟩
    · obtain ⟨p, hp, hslot⟩ := hcovered a ha h
      obtain ⟨q, hq⟩ := lastIn_isSome hp
      rw [hslot] at hq
      exact ⟨hself a ha q hq, hrep.entries ha hq⟩
    cases hf : lastIn (bootPages bi) (a / 2 ^ 21) with
    | some p => exact hself a ha p hf
    | none => exact absurd (hpresent 0 (hrep.trail_none ha hf)) (by decide)

/-- The static tables one after the other, from the third megabyte on. -/
def sampleTables : Tables where
  addr
    | .pml4 => 0x300000
    | .pdpt => 0x301000
    | .pdBase i => 0x302000 + i * 4096
    | .pdExtra i => 0x306000 + i * 4096
  injective := by
    intro id id' h
    cases id <;> cases id' <;> simp only at h <;> first | rfl | (congr 1; omega)
  aligned := by
    intro id
    cases id <;> simp only <;> omega
  low := by
    intro id
    cases id <;> simp only [TableAt] <;> omega

theorem one_lt_word : 1 < 2 ^ 64 := by decide

def onePageAt (start : ℕ) (h : start < 2 ^ 64) : BootInfo where
  base := 0
  fbBase := 0
  fbSize := 0
  mapBase := 0x8000
  mapSize := 48
  descriptorSize := 48
  kernelPhysBase := 0
  kernelPhysEnd := 0
  entry _ := ⟨7, start, 1, h, one_lt_word⟩

theorem descriptors_onePageAt {start : ℕ} (h : start < 2 ^ 64) :
    descriptors (onePageAt start h) = [⟨7, start, 1, h, one_lt_word⟩] := by
  simp [descriptors, onePageAt]

def emptyBoot : Boot := ⟨⟨fun _ _ ↦ 0, ⟨fun _ ↦ 0, 0, 0, 0, false⟩, 0⟩, fun _ ↦ 0, 0⟩

theorem boot_identity_map_five_gib :
    pagingVirtToPhys 0x300000 (5 * 2 ^ 30 + 7)
      (pagingInit sampleTables (some (onePageAt (5 * 2 ^ 30) (by decide))) emptyBoot).state =
        5 * 2 ^ 30 + 7 := by
  have hbi : BelowLimit (onePageAt (5 * 2 ^ 30) (by decide)) := by
    refine ⟨?_, fun h ↦ absurd rfl h, fun _ ↦ by decide⟩
    intro e he _
    rw [descriptors_onePageAt, List.mem_singleton] at he
    rw [he]
    decide
  refine (((boot_identity_map sampleTables _ emptyBoot).2 (undisturbed_covered fun i hi ↦
    Option.some.inj hi ▸ hbi)).1 (5 * 2 ^ 30 + 7) (by decide)
      (.inr ⟨_, rfl, .inl ⟨⟨7, 5 * 2 ^ 30, 1, by decide, by decide⟩, ?_, ?_, ?_⟩⟩)).1.1
  · rw [descriptors_onePageAt]
    exact List.mem_singleton.2 rfl
  · decide
  · decide

/-- A page at 512 GiB takes the slot of the page at 0. -/
theorem boot_maps_zero_high :
    pagingVirtToPhys 0x300000 0
      (pagingInit sampleTables (some (onePageAt (2 ^ 39) (by decide))) emptyBoot).state = 2 ^ 39 := by
  have hrep := pagingInit_represents sampleTables (some (onePageAt (2 ^ 39) (by decide))) emptyBoot
  rw [foldl_place] at hrep
  have hpages : bootPages (some (onePageAt (2 ^ 39) (by decide))) =
      regionPages 0 (4 * 2 ^ 30) ++ [2 ^ 18] := by
    have hlast : regionPages (2 ^ 39) ((2 ^ 39 + 1 * 4096) % 2 ^ 64) = [2 ^ 18] := by decide
    rw [bootPages, Option.elim_some, descriptors_onePageAt, List.flatMap_singleton, hlast,
      if_neg fun h ↦ h.1 rfl, List.append_nil]
  have hzero : lastIn (bootPages (some (onePageAt (2 ^ 39) (by decide)))) (0 / 2 ^ 21) =
      some (2 ^ 18) := by
    rw [hpages, lastIn, List.filter_append, List.filter_singleton]
    simp
  rw [pagingVirtToPhys, show 0x300000 = sampleTables.addr .pml4 from rfl,
    hrep.virtToPhysRoot (by decide) hzero (by decide)]
  decide

end Identity

end NexusOS.Mm.Paging
