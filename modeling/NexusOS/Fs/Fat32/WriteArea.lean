import NexusOS.Lib.Links
import NexusOS.Fs.Fat32.Sectors

namespace NexusOS.Fs.Fat32

open Lib

section Entries

variable {g : Geometry} {d d' : Disk} {start stop c : ℕ}

def InRange (g : Geometry) (c : ℕ) : Prop := 2 ≤ c ∧ c ≤ g.maxCluster

theorem fatLba_zero : fatLba g 0 = g.fatStartLba := by simp [fatLba]

theorem fat32ReadEntry_set (hg : g.Sound start stop) (hc : InRange g c) {value : ℕ}
    (hvalue : value < 2 ^ 28) (h : (fat32SetEntry g c value d).1 = true) :
    fat32ReadEntry g (fat32SetEntry g c value d).2 =
      Function.update (fat32ReadEntry g d) c (some value) := by
  have hset := fat32SetEntry_set hg hc.2 h
  have hread := (fat32SetEntry_confined (d := d) hg hc.2 value).1
  funext c'
  rw [Function.update_apply, fat32ReadEntry_eq hg.bytes, fat32ReadEntry_eq hg.bytes, hread]
  by_cases hcc : c' = c
  · subst hcc
    have hword := hset.words 0 hg.fats c' hc.2
    have hfirst := hset.readable 0 (List.mem_range.2 hg.fats)
    rw [if_pos ⟨List.mem_range.2 hg.fats, rfl⟩, fatLba_zero] at hword
    rw [fatLba_zero] at hfirst
    rw [if_pos ⟨hc, hfirst⟩, if_pos rfl, hword, merged_low, Nat.mod_eq_of_lt hvalue]
  rw [if_neg hcc]
  by_cases hrange : InRange g c'
  · have hword := hset.words 0 hg.fats c' hrange.2
    rw [if_neg (fun h ↦ hcc h.2), fatLba_zero] at hword
    rw [hword]
  · rw [if_neg (fun h ↦ hrange h.1), if_neg (fun h ↦ hrange h.1)]

theorem fatWord_writeCluster (hg : g.Sound start stop) (hc : InRange g c) (buf : Buf) {k c' : ℕ}
    (hk : k < g.fatCount) (hc' : c' ≤ g.maxCluster) :
    fatWord (writeCluster g d c buf).2 (fatLba g k) c' = fatWord d (fatLba g k) c' := by
  unfold fatWord writeCluster
  rw [ahciWriteSectors_bytes]
  split
  · apply get32_stored
    have hheap := clusterToLba_inside hc
    have hfirst := fatLba_start (g := g) (k := k)
    have hlast := fatLba_end hk
    have hentries := hg.entries
    have hapart := hg.apart
    omega
  · rfl

theorem fat32ReadEntry_writeCluster (hg : g.Sound start stop) (hc : InRange g c) (buf : Buf) :
    fat32ReadEntry g (writeCluster g d c buf).2 = fat32ReadEntry g d := by
  funext c'
  rw [fat32ReadEntry_eq hg.bytes, fat32ReadEntry_eq hg.bytes,
    (writeCluster_confined (d := d) hc buf).1]
  split_ifs with hreadable
  · have hword := fatWord_writeCluster (d := d) hg hc buf hg.fats hreadable.1.2
    rw [fatLba_zero] at hword
    rw [hword]
  · rfl

theorem fat32ReadEntry_range {value : ℕ} (h : fat32ReadEntry g d c = some value) : InRange g c := by
  unfold fat32ReadEntry at h
  split_ifs at h with hrange
  exact ⟨by omega, by omega⟩

end Entries

section Kept

/-- The bytes of a cluster, and whether they can be read, are as before. -/
def Same (g : Geometry) (d d' : Disk) (c : ℕ) : Prop :=
  d'.readable = d.readable ∧ ∀ i < clusterBytes g,
    d'.bytes (512 * clusterToLba g c + i) = d.bytes (512 * clusterToLba g c + i)

/-- The entries and the bytes of all clusters but `cs` are as before. -/
def Kept (g : Geometry) (cs : List ℕ) (d d' : Disk) : Prop := ∀ c, InRange g c → c ∉ cs →
  fat32ReadEntry g d' c = fat32ReadEntry g d c ∧ Same g d d' c

variable {g : Geometry} {d d' d'' : Disk} {start stop c : ℕ} {cs cs' : List ℕ}

theorem Kept.refl (d : Disk) : Kept g cs d d := fun _ _ _ ↦ ⟨rfl, rfl, fun _ _ ↦ rfl⟩

theorem Kept.trans (h : Kept g cs d d') (h' : Kept g cs d' d'') : Kept g cs d d'' := by
  intro c hc hnotin
  obtain ⟨hentry, hread, hbytes⟩ := h c hc hnotin
  obtain ⟨hentry', hread', hbytes'⟩ := h' c hc hnotin
  exact ⟨hentry'.trans hentry, hread'.trans hread, fun i hi ↦ (hbytes' i hi).trans (hbytes i hi)⟩

theorem Kept.mono (h : Kept g cs d d') (hsub : cs ⊆ cs') : Kept g cs' d d' :=
  fun c hc hnotin ↦ h c hc fun hmem ↦ hnotin (hsub hmem)

theorem kept_set (hg : g.Sound start stop) (hc : InRange g c) {value : ℕ} (hvalue : value < 2 ^ 28)
    (h : (fat32SetEntry g c value d).1 = true) : Kept g [c] d (fat32SetEntry g c value d).2 := by
  intro x hx hne
  refine ⟨?_, (fat32SetEntry_confined hg hc.2 value).1, ?_⟩
  · rw [fat32ReadEntry_set hg hc hvalue h, Function.update_of_ne (by simpa using hne)]
  intro i hi
  refine (fat32SetEntry_set hg hc.2 h).heap _ ?_
  obtain ⟨hfirst, hlast⟩ := clusterToLba_inside hx
  have hapart := hg.apart
  rw [clusterBytes, hg.bytes] at hi
  omega

theorem clusterToLba_le (hc : 2 ≤ c) {c' : ℕ} (h : c < c') :
    clusterToLba g c + g.sectorsPerCluster ≤ clusterToLba g c' := by
  have hmul : (c - 2 + 1) * g.sectorsPerCluster ≤ (c' - 2) * g.sectorsPerCluster :=
    Nat.mul_le_mul_right _ (by omega)
  rw [Nat.add_mul, Nat.one_mul] at hmul
  unfold clusterToLba
  omega

theorem kept_write (hg : g.Sound start stop) (hc : InRange g c) (buf : Buf) :
    Kept g [c] d (writeCluster g d c buf).2 := by
  intro x hx hne
  refine ⟨?_, ahciWriteSectors_readable, ?_⟩
  · rw [fat32ReadEntry_writeCluster hg hc]
  intro i hi
  rw [clusterBytes, hg.bytes] at hi
  unfold writeCluster
  rw [ahciWriteSectors_bytes]
  split
  · refine if_neg ?_
    rcases Nat.lt_or_gt_of_ne (fun h ↦ hne (List.mem_singleton.2 h) : x ≠ c) with hlt | hlt
    · have hle := clusterToLba_le (g := g) hx.1 hlt
      omega
    have hle := clusterToLba_le (g := g) hc.1 hlt
    omega
  · rfl

end Kept

section Allocation

variable {g : Geometry} {d d' : Disk} {start stop c fresh : ℕ}

section

variable (hg : g.Sound start stop)
include hg

theorem takeCluster_confined (hc : InRange g c) : Confined g d (takeCluster g c d).2 := by
  have hset := fat32SetEntry_confined (d := d) hg hc.2 0x0FFFFFFF
  unfold takeCluster fat32ZeroCluster
  dsimp only
  split_ifs
  · exact hset.trans (writeCluster_confined hc _)
  · exact (hset.trans (writeCluster_confined hc _)).trans (fat32SetEntry_confined hg hc.2 0)
  · exact hset

theorem takeCluster_some (hc : InRange g c) (h : takeCluster g c d = (some fresh, d')) :
    fresh = c ∧ Kept g [c] d d' ∧ fat32ReadEntry g d' =
      Function.update (fat32ReadEntry g d) c (some 0x0FFFFFFF) := by
  unfold takeCluster fat32ZeroCluster at h
  dsimp only at h
  split_ifs at h with hset hzero
  · cases h
    refine ⟨rfl, (kept_set hg hc (by decide) hset).trans (kept_write hg hc _), ?_⟩
    rw [fat32ReadEntry_writeCluster hg hc, fat32ReadEntry_set hg hc (by decide) hset]
  · cases h
  · cases h

theorem allocFrom_confined (cs : List ℕ) : Confined g d (allocFrom g cs d).2 := by
  induction cs with
  | nil => exact .refl d
  | cons c cs ih =>
    rw [allocFrom]
    split
    · exact .refl d
    next value hvalue =>
    split
    · exact takeCluster_confined hg (fat32ReadEntry_range hvalue)
    · exact ih

theorem allocFrom_some {cs : List ℕ} (h : allocFrom g cs d = (some fresh, d')) :
    fat32ReadEntry g d fresh = some 0 ∧ Kept g [fresh] d d' ∧
      fat32ReadEntry g d' = Function.update (fat32ReadEntry g d) fresh (some 0x0FFFFFFF) := by
  induction cs with
  | nil => cases h
  | cons c cs ih =>
    rw [allocFrom] at h
    split at h
    · cases h
    next value hvalue =>
    split_ifs at h with hzero
    · obtain ⟨rfl, hspec⟩ := takeCluster_some hg (fat32ReadEntry_range hvalue) h
      exact ⟨hzero ▸ hvalue, hspec⟩
    · exact ih h

theorem fat32AllocCluster_confined : Confined g d (fat32AllocCluster g d).2 :=
  allocFrom_confined hg _

theorem fat32AllocCluster_some (h : fat32AllocCluster g d = (some fresh, d')) :
    InRange g fresh ∧ fat32ReadEntry g d fresh = some 0 ∧ Kept g [fresh] d d' ∧
      fat32ReadEntry g d' = Function.update (fat32ReadEntry g d) fresh (some 0x0FFFFFFF) :=
  have hspec := allocFrom_some hg h
  ⟨fat32ReadEntry_range hspec.1, hspec⟩

theorem freeChainLoop_confined (n c : ℕ) (d : Disk) : Confined g d (freeChainLoop g n c d).2 := by
  induction n generalizing c d with
  | zero => exact .refl d
  | succ n ih =>
    rw [freeChainLoop]
    split_ifs with hrange
    · exact .refl d
    split
    · exact .refl d
    next next hnext =>
    have hset := fat32SetEntry_confined (d := d) hg (fat32ReadEntry_range hnext).2 0
    dsimp only
    split_ifs
    · exact hset
    · exact hset
    · exact hset.trans (ih next _)

theorem fat32FreeChain_confined (c : ℕ) (d : Disk) : Confined g d (fat32FreeChain g c d).2 :=
  freeChainLoop_confined hg _ c d

theorem freeUnlessZero_confined (c : ℕ) (d : Disk) : Confined g d (freeUnlessZero g c d) := by
  unfold freeUnlessZero
  split_ifs
  · exact fat32FreeChain_confined hg c d
  · exact .refl d

end

end Allocation

section Chains

variable {g : Geometry} {d d' : Disk} {start stop c fresh : ℕ}

def link (entry : ℕ → Option ℕ) (c : ℕ) : Option ℕ :=
  (entry c).bind fun next ↦ if isEndOfChain next then none else some next

/-- The clusters from `first` on, as far as they are linked, are clusters of the volume. -/
def Chained (g : Geometry) (entry : ℕ → Option ℕ) (first : ℕ) (cs : List ℕ) : Prop :=
  Seg (link entry) (some first) cs none ∧ ∀ c ∈ cs, InRange g c

theorem link_some {entry : ℕ → Option ℕ} {next : ℕ} (h : entry c = some next)
    (hend : isEndOfChain next = false) : link entry c = some next := by
  simp [link, h, hend]

theorem link_end {entry : ℕ → Option ℕ} {next : ℕ} (h : entry c = some next)
    (hend : isEndOfChain next = true) : link entry c = none := by
  simp [link, h, hend]

theorem link_congr {entry entry' : ℕ → Option ℕ} (h : entry' c = entry c) :
    link entry' c = link entry c := by
  rw [link, link, h]

theorem Chained.ne_zero {entry : ℕ → Option ℕ} {first : ℕ} {cs : List ℕ}
    (h : Chained g entry first cs) (hc : c ∈ cs) : entry c ≠ some 0 := by
  intro hzero
  have hlink : link entry c = some 0 := link_some hzero (by decide)
  obtain ⟨l₁, l₂, rfl⟩ := List.append_of_mem hc
  obtain ⟨-, -, -, hseg⟩ := seg_append.1 h.1
  rw [hlink] at hseg
  cases l₂ with
  | nil => cases hseg
  | cons a l₂ =>
    have hrange := h.2 a (by simp)
    obtain rfl : 0 = a := Option.some.inj hseg.1
    exact absurd hrange.1 (by decide)

theorem Chained.extend {entry entry' : ℕ → Option ℕ} {first last : ℕ} {cs : List ℕ}
    (h : Chained g entry first (cs ++ [last])) (hfree : entry fresh = some 0)
    (hfresh : InRange g fresh) (hmax : g.maxCluster ≤ 0x0FFFFFF6)
    (heq : entry' = Function.update (Function.update entry fresh (some 0x0FFFFFFF)) last
      (some fresh)) :
    Chained g entry' first (cs ++ [last] ++ [fresh]) := by
  have hnotin : fresh ∉ cs ++ [last] := fun hmem ↦ h.ne_zero hmem hfree
  have hlast : last ≠ fresh := fun heq ↦ hnotin (by simp [heq])
  have hnodup := h.1.nodup
  have hnotlast : ∀ a ∈ cs, a ≠ last := by
    rintro a ha rfl
    exact List.disjoint_of_nodup_append hnodup ha (List.mem_singleton.2 rfl)
  have hend : isEndOfChain fresh = false := by
    simp only [isEndOfChain, decide_eq_false_iff_not]
    have := hfresh.2
    omega
  refine ⟨?_, ?_⟩
  · rw [List.append_assoc]
    refine Seg.snoc h.1 ?_ ?_ ?_
    · intro a ha
      apply link_congr
      have hne : a ≠ fresh := fun heq ↦ hnotin (by simp [← heq, ha])
      rw [heq, Function.update_of_ne (hnotlast a ha), Function.update_of_ne hne]
    · apply link_some _ hend
      rw [heq, Function.update_self]
    · apply link_end _ (by decide : isEndOfChain 0x0FFFFFFF = true)
      rw [heq, Function.update_of_ne hlast.symm, Function.update_self]
  intro c hc
  rcases List.mem_append.1 hc with hc | hc
  · exact h.2 c hc
  rw [List.mem_singleton.1 hc]
  exact hfresh

theorem Chained.single {entry : ℕ → Option ℕ} (hfresh : InRange g fresh)
    (h : entry fresh = some 0x0FFFFFFF) : Chained g entry fresh [fresh] := by
  refine ⟨⟨rfl, link_end h (by decide)⟩, ?_⟩
  intro c hc
  rw [List.mem_singleton.1 hc]
  exact hfresh

/-- What `allocChain` has so far: nothing, or a chain from `first` to `last`. -/
def Partial (g : Geometry) (d : Disk) (first last : ℕ) : Prop :=
  (first = 0 ∧ last = 0) ∨
    ∃ cs, Chained g (fat32ReadEntry g d) first (cs ++ [last]) ∧ first ≠ 0 ∧ last ≠ 0

theorem allocChain_spec (hg : g.Sound start stop) (needed first last : ℕ) (d : Disk)
    (h : Partial g d first last) :
    Confined g d (allocChain g needed first last d).2 ∧
      ∀ first', (allocChain g needed first last d).1 = some first' →
        (needed = 0 ∧ first = 0) ∨
          ∃ cs, Chained g (fat32ReadEntry g (allocChain g needed first last d).2) first' cs := by
  induction needed generalizing first last d with
  | zero =>
    refine ⟨.refl d, ?_⟩
    intro first' hfirst
    obtain rfl : first = first' := Option.some.inj hfirst
    rcases h with ⟨hfirst, -⟩ | ⟨cs, hchain, -⟩
    · exact .inl ⟨rfl, hfirst⟩
    · exact .inr ⟨_, hchain⟩
  | succ needed ih =>
    have hconfined := fat32AllocCluster_confined (d := d) hg
    rw [allocChain]
    rcases halloc : fat32AllocCluster g d with ⟨_ | fresh, d₁⟩
    · rw [halloc] at hconfined
      exact ⟨hconfined.trans (freeUnlessZero_confined hg _ _), by simp⟩
    rw [halloc] at hconfined
    obtain ⟨hrange, hfree, -, hread⟩ := fat32AllocCluster_some hg halloc
    have hne : fresh ≠ 0 := by
      have := hrange.1
      omega
    dsimp only at hconfined ⊢
    rcases h with ⟨rfl, rfl⟩ | ⟨cs, hchain, hfirst, hlast⟩
    · have hpartial : Partial g d₁ fresh fresh := by
        refine .inr ⟨[], Chained.single hrange ?_, hne, hne⟩
        rw [hread, Function.update_self]
      obtain ⟨hrest, hresult⟩ := ih fresh fresh d₁ hpartial
      rw [if_pos rfl, if_pos rfl]
      refine ⟨hconfined.trans hrest, ?_⟩
      intro first' hfirst'
      exact .inr ((hresult first' hfirst').resolve_left fun h ↦ hne h.2)
    have hlastRange : InRange g last := hchain.2 last (by simp)
    have hset := hconfined.trans (fat32SetEntry_confined hg hlastRange.2 fresh)
    rw [if_neg hlast, if_neg hfirst]
    split_ifs with hlinked
    · have hpartial : Partial g (fat32SetEntry g last fresh d₁).2 first fresh := by
        refine .inr ⟨cs ++ [last], ?_, hfirst, hne⟩
        refine hchain.extend hfree hrange hg.clusters.2 ?_
        have hsmall : fresh < 2 ^ 28 := by
          have := hrange.2
          have := hg.clusters.2
          omega
        rw [fat32ReadEntry_set hg hlastRange hsmall hlinked, hread]
      obtain ⟨hrest, hresult⟩ := ih first fresh _ hpartial
      refine ⟨hset.trans hrest, ?_⟩
      intro first' hfirst'
      exact .inr ((hresult first' hfirst').resolve_left fun h ↦ hfirst h.2)
    · refine ⟨?_, by simp⟩
      exact (hset.trans (fat32FreeChain_confined hg _ _)).trans (freeUnlessZero_confined hg _ _)

theorem writeData_spec (hg : g.Sound start stop) (first n : ℕ) {cluster : ℕ} {cs : List ℕ}
    (data : List UInt8) (d : Disk) (h : Chained g (fat32ReadEntry g d) cluster cs) :
    Confined g d (writeData g first n cluster data d).2 ∧
      ((writeData g first n cluster data d).1 = true →
        Kept g cs d (writeData g first n cluster data d).2 ∧
        fat32ReadEntry g (writeData g first n cluster data d).2 = fat32ReadEntry g d) := by
  induction n generalizing cluster cs data d with
  | zero => exact ⟨.refl d, fun _ ↦ ⟨.refl d, rfl⟩⟩
  | succ n ih =>
    rw [writeData]
    split
    · exact ⟨.refl d, fun _ ↦ ⟨.refl d, rfl⟩⟩
    cases cs with
    | nil => exact absurd h.1 (by simp [Seg])
    | cons a cs =>
      obtain rfl : cluster = a := Option.some.inj h.1.1
      have hrange : InRange g cluster := h.2 cluster List.mem_cons_self
      have hwrite := fun buf ↦ writeCluster_confined (d := d) hrange buf
      have hentries := fun buf ↦ fat32ReadEntry_writeCluster (d := d) hg hrange buf
      have hkept := fun buf ↦ (kept_write (d := d) hg hrange buf).mono
        (List.cons_subset_cons _ (List.nil_subset cs))
      dsimp only
      split
      · exact ⟨(hwrite _).trans (freeUnlessZero_confined hg _ _), by simp⟩
      split
      · exact ⟨hwrite _, fun _ ↦ ⟨hkept _, hentries _⟩⟩
      split
      · exact ⟨(hwrite _).trans (fat32FreeChain_confined hg _ _), by simp⟩
      next next hnext =>
      split
      · exact ⟨(hwrite _).trans (fat32FreeChain_confined hg _ _), by simp⟩
      next hend =>
      have htail : Chained g (fat32ReadEntry g (writeCluster g d cluster
          fun i ↦ (data.take (clusterBytes g)).getD i 0).2) next cs := by
        rw [hentries] at hnext ⊢
        refine ⟨?_, fun c hc ↦ h.2 c (List.mem_cons_of_mem _ hc)⟩
        rw [← link_some hnext (by simpa using hend)]
        exact h.1.2
      obtain ⟨hconfined, hrest⟩ := ih (data.drop (clusterBytes g)) _ htail
      refine ⟨(hwrite _).trans hconfined, fun hdone ↦ ⟨?_, (hrest hdone).2.trans (hentries _)⟩⟩
      exact (hkept _).trans ((hrest hdone).1.mono (List.subset_cons_self _ _))

end Chains

section Directories

variable {g : Geometry} {d : Disk} {start stop c : ℕ}

theorem writeDirent_confined (hc : InRange g c) (index : ℕ) (e : Dirent) :
    Confined g d (writeDirent g d c index e).2 := by
  unfold writeDirent
  split
  · exact .refl d
  split_ifs
  · exact .refl d
  · exact writeCluster_confined hc _

theorem deleteDirent_confined (hc : InRange g c) (index : ℕ) :
    Confined g d (deleteDirent g d c index).2 := by
  unfold deleteDirent
  split
  · exact .refl d
  · exact writeCluster_confined hc _

theorem searchChain_range {name : Name} {n : ℕ} {slot : ℕ × ℕ × Dirent}
    (h : searchChain g d name g.maxCluster n c = some (some slot)) : InRange g slot.1 := by
  induction n generalizing c with
  | zero => cases h
  | succ n ih =>
    rw [searchChain] at h
    split at h
    · cases h
    next hrange =>
    split at h
    · cases h
    split at h
    · cases h
    · cases h
      exact ⟨by omega, by omega⟩
    · exact ih h

theorem growDirectory_spec (hg : g.Sound start stop) (hc : InRange g c) :
    Confined g d (growDirectory g c d).2 ∧
      ∀ slot, (growDirectory g c d).1 = some slot → InRange g slot.1 := by
  have hconfined := fat32AllocCluster_confined (d := d) hg
  unfold growDirectory
  rcases halloc : fat32AllocCluster g d with ⟨_ | fresh, d₁⟩
  · rw [halloc] at hconfined
    exact ⟨hconfined, by simp⟩
  rw [halloc] at hconfined
  obtain ⟨hrange, -⟩ := fat32AllocCluster_some hg halloc
  have hset := hconfined.trans (fat32SetEntry_confined hg hc.2 fresh)
  dsimp only
  split_ifs
  · refine ⟨hset, ?_⟩
    intro slot hslot
    obtain rfl : (fresh, 0) = slot := Option.some.inj hslot
    exact hrange
  · exact ⟨hset.trans (fat32FreeChain_confined hg _ _), by simp⟩

theorem freeSlotLoop_spec (hg : g.Sound start stop) (n c : ℕ) :
    Confined g d (freeSlotLoop g n c d).2 ∧
      ∀ slot, (freeSlotLoop g n c d).1 = some slot → InRange g slot.1 := by
  induction n generalizing c with
  | zero => exact ⟨.refl d, by simp [freeSlotLoop]⟩
  | succ n ih =>
    rw [freeSlotLoop]
    split_ifs with hrange
    · exact ⟨.refl d, by simp⟩
    have hc : InRange g c := ⟨by omega, by omega⟩
    split
    · exact ⟨.refl d, by simp⟩
    split
    · refine ⟨.refl d, ?_⟩
      intro slot hslot
      cases hslot
      exact hc
    split
    · exact ⟨.refl d, by simp⟩
    split_ifs
    · exact growDirectory_spec hg hc
    · exact ih _

theorem fileSlot_spec (hg : g.Sound start stop) (found : Bool) (parent : ℕ) (name : Name) :
    Confined g d (fileSlot g found parent name d).2 ∧
      ∀ slot, (fileSlot g found parent name d).1 = some (some slot) → InRange g slot.1 := by
  unfold fileSlot
  split_ifs
  · refine ⟨.refl d, ?_⟩
    intro slot hslot
    obtain ⟨r, hr, hslot⟩ := Option.map_eq_some_iff.1 hslot
    obtain ⟨x, rfl, rfl⟩ := Option.map_eq_some_iff.1 hslot
    exact searchChain_range hr
  · obtain ⟨hconfined, hrange⟩ := freeSlotLoop_spec (d := d) hg (g.maxCluster + 1) parent
    exact ⟨hconfined, fun slot hslot ↦ hrange slot (Option.some.inj hslot)⟩

end Directories

section Calls

variable {g : Geometry} {d : Disk} {start stop : ℕ}

section

variable (hg : g.Sound start stop)
include hg

theorem mkdirIn_confined (parent : ℕ) (name : Name) : Confined g d (mkdirIn g parent name d).2 := by
  have hconfined := fat32AllocCluster_confined (d := d) hg
  unfold mkdirIn
  rcases halloc : fat32AllocCluster g d with ⟨_ | fresh, d₁⟩
  · rw [halloc] at hconfined
    exact hconfined
  rw [halloc] at hconfined
  obtain ⟨hrange, -⟩ := fat32AllocCluster_some hg halloc
  have hfree := fun d' ↦ fat32FreeChain_confined hg fresh d'
  dsimp only
  split
  · exact hconfined.trans (hfree _)
  have hdots := hconfined.trans
    (writeCluster_confined (d := d₁) hrange (dotEntries fresh parent))
  split_ifs
  · exact hdots.trans (hfree _)
  obtain ⟨hsearch, hslot⟩ := freeSlotLoop_spec
    (d := (writeCluster g d₁ fresh (dotEntries fresh parent)).2) hg (g.maxCluster + 1) parent
  unfold findFreeDirSlot
  rcases hfound : freeSlotLoop g (g.maxCluster + 1) parent
    (writeCluster g d₁ fresh (dotEntries fresh parent)).2 with ⟨_ | ⟨slotCluster, slot⟩, d₂⟩
  · rw [hfound] at hsearch
    exact (hdots.trans hsearch).trans (hfree _)
  · rw [hfound] at hsearch hslot
    have hentry := (hdots.trans hsearch).trans (writeDirent_confined (hslot _ rfl) slot
      (setDirentCluster (newDirent name 0x10 0) fresh))
    dsimp only
    split_ifs
    · exact hentry
    · exact hentry.trans (hfree _)

theorem freeOld_confined (old : Option Dirent) : Confined g d (freeOld g old d) := by
  unfold freeOld
  split
  · exact .refl d
  split_ifs
  · exact fat32FreeChain_confined hg _ _
  · exact .refl d

theorem publishFile_confined (parent : ℕ) (name : Name) (old : Option Dirent) (first size : ℕ) :
    Confined g d (publishFile g parent name old first size d).2 := by
  obtain ⟨hsearch, hslot⟩ := fileSlot_spec (d := d) hg old.isSome parent name
  unfold publishFile
  rcases hfound : fileSlot g old.isSome parent name d with ⟨_ | _ | ⟨slotCluster, slot⟩, d₁⟩
  · rw [hfound] at hsearch
    exact hsearch
  · rw [hfound] at hsearch
    exact hsearch.trans (freeUnlessZero_confined hg _ _)
  rw [hfound] at hsearch hslot
  have hentry := hsearch.trans (writeDirent_confined (d := d₁) (hslot _ rfl) slot
    (setDirentCluster (newDirent name 0x20 size) first))
  dsimp only
  split_ifs
  · exact hentry.trans (freeOld_confined hg old)
  · exact hentry.trans (freeUnlessZero_confined hg _ _)

theorem clustersNeeded_pos {size : ℕ} (h : size ≠ 0) : clustersNeeded g size ≠ 0 := by
  have hpos : 0 < clusterBytes g := by
    have hsectors := hg.sectors.1
    rw [clusterBytes, hg.bytes]
    omega
  rw [clustersNeeded, if_neg h]
  exact (Nat.div_pos (by omega) hpos).ne'

theorem clustersNeeded_zero {size : ℕ} (h : clustersNeeded g size = 0) : size = 0 := by
  by_contra hne
  exact clustersNeeded_pos hg hne h

theorem writeFileIn_confined (parent : ℕ) (name : Name) (old : Option Dirent) (data : List UInt8) :
    Confined g d (writeFileIn g parent name old data d).2 := by
  obtain ⟨halloc, hchain⟩ := allocChain_spec hg (clustersNeeded g data.length) 0 0 d (.inl ⟨rfl, rfl⟩)
  unfold writeFileIn
  rcases hfound : allocChain g (clustersNeeded g data.length) 0 0 d with ⟨_ | first, d₁⟩
  · rw [hfound] at halloc
    exact halloc
  rw [hfound] at halloc hchain
  have hdata : Confined g d₁ (writeData g first data.length first data d₁).2 := by
    rcases hchain first rfl with ⟨hneeded, -⟩ | ⟨cs, hcs⟩
    · rw [clustersNeeded_zero hg hneeded]
      exact .refl d₁
    · exact (writeData_spec hg first _ data d₁ hcs).1
  dsimp only
  split_ifs
  · exact (halloc.trans hdata).trans (publishFile_confined hg _ _ _ _ _)
  · exact halloc.trans hdata

end

variable {s : Volume}

section

variable (hg : s.geometry.Sound start stop)
include hg

theorem fat32Mkdir_confined (path : Str) :
    Confined s.geometry s.disk (fat32Mkdir s path).2.disk := by
  unfold fat32Mkdir
  split
  · exact .refl _
  split
  · exact .refl _
  · exact .refl _
  split
  · exact .refl _
  · exact .refl _
  · exact mkdirIn_confined hg _ _

theorem fat32WriteFile_confined (path : Str)
    (data : List UInt8) : Confined s.geometry s.disk (fat32WriteFile s path data).2.disk := by
  unfold fat32WriteFile
  split
  · exact .refl _
  split
  · exact .refl _
  split
  · exact .refl _
  · exact .refl _
  split
  · exact .refl _
  split
  · exact .refl _
  · exact writeFileIn_confined hg _ _ _ _

theorem fat32RemoveFile_confined (path : Str) :
    Confined s.geometry s.disk (fat32RemoveFile s path).2.disk := by
  unfold fat32RemoveFile
  split
  · exact .refl _
  split
  · exact .refl _
  · exact .refl _
  split
  · exact .refl _
  · exact .refl _
  next slotCluster slot entry hfound =>
  have hdelete := deleteDirent_confined (d := s.disk) (searchChain_range hfound) slot
  dsimp only
  split
  · exact .refl _
  split
  · exact hdelete
  split
  · exact hdelete.trans (fat32FreeChain_confined hg _ _)
  · exact hdelete

theorem fat32RemoveEmptyDir_confined (path : Str) :
    Confined s.geometry s.disk (fat32RemoveEmptyDir s path).2.disk := by
  unfold fat32RemoveEmptyDir
  split
  · exact .refl _
  split
  · exact .refl _
  · exact .refl _
  split
  · exact .refl _
  · exact .refl _
  next slotCluster slot entry hfound =>
  have hdelete := deleteDirent_confined (d := s.disk) (searchChain_range hfound) slot
  dsimp only
  split
  · exact .refl _
  split
  · exact .refl _
  split
  · exact hdelete
  · exact hdelete.trans (fat32FreeChain_confined hg _ _)

end

end Calls

/-- Whatever the disk holds, no call writes outside the FATs and the cluster heap. -/
theorem calls_write_inside (s : Volume) (start stop : ℕ) (hg : s.geometry.Sound start stop)
    (call : FatCall) :
    ∃ new, (call.run s).2.disk.writes = new ++ s.disk.writes ∧
      ∀ w ∈ new, InArea s.geometry w.1 w.2.1 := by
  have hconfined : Confined s.geometry s.disk (call.run s).2.disk := by
    cases call with
    | writeFile path data => exact fat32WriteFile_confined hg path data
    | mkdir path => exact fat32Mkdir_confined hg path
    | removeFile path => exact fat32RemoveFile_confined hg path
    | removeEmptyDir path => exact fat32RemoveEmptyDir_confined hg path
  exact hconfined.2

/-- A volume of two FATs of one sector and 100 clusters of one sector. -/
def smallGeometry : Geometry := ⟨512, 1, 2, 101, 2, 1, 32, 34⟩

theorem smallGeometry_sound : smallGeometry.Sound 0 134 := by
  constructor <;> decide

theorem calls_write_inside_mkdir :
    ∃ new, ((FatCall.mkdir [slash, 65]).run
        ⟨true, smallGeometry, bootDisk 2 1 134⟩).2.disk.writes = new ++ [] ∧
      ∀ w ∈ new, InArea smallGeometry w.1 w.2.1 :=
  calls_write_inside ⟨true, smallGeometry, bootDisk 2 1 134⟩ 0 134 smallGeometry_sound _

end NexusOS.Fs.Fat32
