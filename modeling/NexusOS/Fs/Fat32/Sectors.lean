import NexusOS.Fs.Fat32.Mount
import NexusOS.Fs.Fat32.Files

namespace NexusOS.Fs.Fat32

def fatWord (d : Disk) (lba c : ℕ) : ℕ := get32 d.bytes (512 * lba + 4 * c)

def fatLba (g : Geometry) (k : ℕ) : ℕ := g.fatStartLba + k * g.fatSizeSectors

def merged (old value : ℕ) : ℕ := old / 2 ^ 28 * 2 ^ 28 + value % 2 ^ 28

theorem merged_low (old value : ℕ) : merged old value % 2 ^ 28 = value % 2 ^ 28 := by
  unfold merged
  omega

theorem merged_lt {old : ℕ} (value : ℕ) (h : old < 2 ^ 32) : merged old value < 2 ^ 32 := by
  unfold merged
  omega

section Transfers

variable {d : Disk} {lba count : ℕ} {buf : Buf}

theorem ahciReadSectors_some (h : ahciReadSectors d lba count = some buf) :
    d.readable lba count = true ∧ buf = fun i ↦ d.bytes (512 * lba + i) := by
  unfold ahciReadSectors at h
  split_ifs at h with hread
  exact ⟨hread.2.2, (Option.some.inj h).symm⟩

@[simp]
theorem ahciWriteSectors_readable : (ahciWriteSectors d lba count buf).2.readable = d.readable := by
  unfold ahciWriteSectors
  dsimp only
  split <;> rfl

@[simp]
theorem ahciWriteSectors_writes :
    (ahciWriteSectors d lba count buf).2.writes = (lba, count, buf) :: d.writes := by
  unfold ahciWriteSectors
  dsimp only
  split <;> rfl

theorem ahciWriteSectors_bytes : (ahciWriteSectors d lba count buf).2.bytes =
    if (ahciWriteSectors d lba count buf).1 then stored d.bytes lba count buf else d.bytes := by
  unfold ahciWriteSectors
  dsimp only
  split <;> rfl

theorem stored_put32 (bytes : ℕ → UInt8) (sector value : ℕ) {off : ℕ} (hoff : off + 4 ≤ 512) :
    stored bytes sector 1 (put32 (fun i ↦ bytes (512 * sector + i)) off value) =
      put32 bytes (512 * sector + off) value := by
  funext i
  by_cases hin : 512 * sector ≤ i ∧ i < 512 * (sector + 1)
  · rw [stored, if_pos hin]
    unfold put32
    by_cases hword : 512 * sector + off ≤ i ∧ i < 512 * sector + off + 4
    · rw [if_pos hword, if_pos (by omega), Nat.sub_sub]
    rw [if_neg hword, if_neg (by omega)]
    exact congrArg bytes (Nat.add_sub_cancel' hin.1)
  · rw [stored, if_neg hin, put32, if_neg (by omega)]

theorem get32_stored {bytes : ℕ → UInt8} {off : ℕ}
    (h : off + 4 ≤ 512 * lba ∨ 512 * (lba + count) ≤ off) :
    get32 (stored bytes lba count buf) off = get32 bytes off := by
  refine get32_congr ?_
  intro j hj
  exact if_neg (by omega)

end Transfers

section Entries

variable {g : Geometry} {d : Disk} {lba c value : ℕ}

theorem word_place (lba c : ℕ) : 512 * (lba + c * 4 / 512) + c * 4 % 512 = 512 * lba + 4 * c := by
  omega

theorem get32_sector (bytes : ℕ → UInt8) (lba c : ℕ) :
    get32 (fun i ↦ bytes (512 * (lba + c * 4 / 512) + i)) (c * 4 % 512) =
      get32 bytes (512 * lba + 4 * c) := by
  refine get32_congr ?_
  intro j _
  rw [← word_place lba c, Nat.add_assoc]

theorem getNextCluster_eq (hbytes : g.bytesPerSector = 512) : getNextCluster g d c =
    if d.readable (g.fatStartLba + c * 4 / 512) 1 then fatWord d g.fatStartLba c % 2 ^ 28
    else 0x0FFFFFFF := by
  unfold getNextCluster ahciReadSectors
  rw [hbytes]
  by_cases hread : d.readable (g.fatStartLba + c * 4 / 512) 1 = true
  · simp only [hread, if_true, Nat.zero_lt_one, Nat.one_le_ofNat, and_self]
    rw [get32_sector]
    rfl
  · simp only [hread, and_false, if_false, Bool.false_eq_true]

theorem fat32ReadEntry_eq (hbytes : g.bytesPerSector = 512) : fat32ReadEntry g d c =
    if (2 ≤ c ∧ c ≤ g.maxCluster) ∧ d.readable (g.fatStartLba + c * 4 / 512) 1 then
      some (fatWord d g.fatStartLba c % 2 ^ 28)
    else none := by
  unfold fat32ReadEntry ahciReadSectors
  rw [hbytes]
  by_cases hrange : 2 ≤ c ∧ c ≤ g.maxCluster
  · rw [if_neg (by omega), if_neg (by omega)]
    by_cases hread : d.readable (g.fatStartLba + c * 4 / 512) 1 = true
    · rw [if_pos ⟨by omega, by omega, hread⟩, if_pos ⟨hrange, hread⟩]
      dsimp only
      rw [get32_sector]
      rfl
    · rw [if_neg (fun h ↦ hread h.2.2), if_neg (fun h ↦ hread h.2)]
  · rw [if_pos (by omega), if_neg (fun h ↦ hrange h.1)]

@[simp]
theorem fat32WriteEntryOne_readable :
    (fat32WriteEntryOne g lba c value d).2.readable = d.readable := by
  unfold fat32WriteEntryOne
  dsimp only
  split
  · rfl
  split
  · rfl
  · exact ahciWriteSectors_readable

theorem fat32WriteEntryOne_bytes (hbytes : g.bytesPerSector = 512)
    (h : (fat32WriteEntryOne g lba c value d).1 = true) :
    d.readable (lba + c * 4 / 512) 1 = true ∧
      (fat32WriteEntryOne g lba c value d).2.bytes =
        put32 d.bytes (512 * lba + 4 * c) (merged (fatWord d lba c) value) := by
  unfold fat32WriteEntryOne at h ⊢
  rw [hbytes] at h ⊢
  dsimp only at h ⊢
  have hoff : ¬508 < c * 4 % 512 := by omega
  rw [if_neg hoff] at h ⊢
  cases hread : ahciReadSectors d (lba + c * 4 / 512) 1 with
  | none => simp [hread] at h
  | some buf =>
    obtain ⟨hreadable, rfl⟩ := ahciReadSectors_some hread
    rw [hread] at h
    dsimp only at h ⊢
    refine ⟨hreadable, ?_⟩
    rw [ahciWriteSectors_bytes, if_pos h, stored_put32 _ _ _ (by omega), word_place, get32_sector]
    rfl

end Entries

section Areas

variable (g : Geometry)

/-- The sectors lie in the copies of the FAT or in the cluster heap. -/
def InArea (lba count : ℕ) : Prop :=
  (g.fatStartLba ≤ lba ∧ lba + count ≤ g.fatStartLba + g.fatCount * g.fatSizeSectors) ∨
    (g.clusterHeapStartLba ≤ lba ∧
      lba + count ≤ g.clusterHeapStartLba + (g.maxCluster - 1) * g.sectorsPerCluster)

def Issued (d d' : Disk) (new : List (ℕ × ℕ × Buf)) : Prop := d'.writes = new ++ d.writes

/-- All writes issued from `d` to `d'` stay inside the volume. -/
def Confined (d d' : Disk) : Prop :=
  d'.readable = d.readable ∧ ∃ new, Issued d d' new ∧ ∀ w ∈ new, InArea g w.1 w.2.1

variable {g} {d d' d'' : Disk} {start stop c c' k k' : ℕ}

theorem Confined.refl (d : Disk) : Confined g d d := ⟨rfl, [], rfl, by simp⟩

theorem Confined.trans (h : Confined g d d') (h' : Confined g d' d'') : Confined g d d'' := by
  obtain ⟨hread, new, hnew, hall⟩ := h
  obtain ⟨hread', new', hnew', hall'⟩ := h'
  refine ⟨hread'.trans hread, new' ++ new, ?_, ?_⟩
  · rw [Issued, hnew', hnew, List.append_assoc]
  intro w hw
  rcases List.mem_append.1 hw with hw | hw
  · exact hall' w hw
  · exact hall w hw

theorem confined_write {lba count : ℕ} (buf : Buf) (h : InArea g lba count) :
    Confined g d (ahciWriteSectors d lba count buf).2 := by
  refine ⟨ahciWriteSectors_readable, [(lba, count, buf)], ahciWriteSectors_writes, ?_⟩
  simpa using h

theorem fatLba_le (hk : k < k') : fatLba g k + g.fatSizeSectors ≤ fatLba g k' := by
  have hmul := Nat.mul_le_mul_right g.fatSizeSectors (Nat.succ_le_of_lt hk)
  rw [Nat.succ_mul] at hmul
  unfold fatLba
  omega

theorem fatLba_end (hk : k < g.fatCount) :
    fatLba g k + g.fatSizeSectors ≤ g.fatStartLba + g.fatCount * g.fatSizeSectors :=
  fatLba_le hk

theorem fatLba_start : g.fatStartLba ≤ fatLba g k := Nat.le_add_right _ _

theorem fatLbas_eq (hfats : 0 < g.fatCount) : fatLbas g = (List.range g.fatCount).map (fatLba g) := by
  obtain ⟨n, hn⟩ : ∃ n, g.fatCount = n + 1 := ⟨g.fatCount - 1, by omega⟩
  rw [fatLbas, List.range_eq_range', hn, List.range'_succ, Nat.add_sub_cancel]
  simp [fatLba]

theorem fatWord_put (hg : g.Sound start stop) (hc : c ≤ g.maxCluster) (hc' : c' ≤ g.maxCluster)
    (bytes : ℕ → UInt8) {value : ℕ} (hvalue : value < 2 ^ 32) :
    get32 (put32 bytes (512 * fatLba g k + 4 * c) value) (512 * fatLba g k' + 4 * c') =
      if k' = k ∧ c' = c then value else get32 bytes (512 * fatLba g k' + 4 * c') := by
  have hentries := hg.entries
  split_ifs with heq
  · obtain ⟨rfl, rfl⟩ := heq
    rw [get32_put32, Nat.mod_eq_of_lt hvalue]
  apply get32_put32_of_ne
  rcases Nat.lt_trichotomy k k' with hlt | rfl | hlt
  · have := fatLba_le (g := g) hlt
    omega
  · have : c' ≠ c := fun h ↦ heq ⟨rfl, h⟩
    omega
  have := fatLba_le (g := g) hlt
  omega

/-- Entry `c` of every copy is set to `value`, and nothing else is changed. -/
structure FatSet (g : Geometry) (c value : ℕ) (ks : List ℕ) (d d' : Disk) : Prop where
  words : ∀ k < g.fatCount, ∀ c' ≤ g.maxCluster, fatWord d' (fatLba g k) c' =
    if k ∈ ks ∧ c' = c then merged (fatWord d (fatLba g k) c) value
    else fatWord d (fatLba g k) c'
  heap : ∀ a, (a < 512 * g.fatStartLba ∨
    512 * (g.fatStartLba + g.fatCount * g.fatSizeSectors) ≤ a) → d'.bytes a = d.bytes a
  readable : ∀ k ∈ ks, d.readable (fatLba g k + c * 4 / 512) 1 = true

theorem fatSet_one (hg : g.Sound start stop) (hc : c ≤ g.maxCluster) (hk : k < g.fatCount)
    {value : ℕ} (h : (fat32WriteEntryOne g (fatLba g k) c value d).1 = true) :
    FatSet g c value [k] d (fat32WriteEntryOne g (fatLba g k) c value d).2 := by
  obtain ⟨hread, hbytes⟩ := fat32WriteEntryOne_bytes hg.bytes h
  have hentries := hg.entries
  refine ⟨?_, ?_, ?_⟩
  · intro k' _ c' hc'
    unfold fatWord at *
    rw [hbytes, fatWord_put hg hc hc' _ (merged_lt _ (get32_lt _ _))]
    simp only [List.mem_singleton]
    split_ifs with heq
    · rw [heq.1]
    · rfl
  · intro a ha
    have hfirst := fatLba_start (g := g) (k := k)
    have hlast := fatLba_end hk
    rw [hbytes, put32, if_neg (by omega)]
  · simpa using hread

theorem fatSet_cons {ks : List ℕ} {value : ℕ} (hks : k ∉ ks) (h : FatSet g c value [k] d d')
    (h' : FatSet g c value ks d' d'') (hc : c ≤ g.maxCluster) (hread : d'.readable = d.readable) :
    FatSet g c value (k :: ks) d d'' := by
  refine ⟨?_, ?_, ?_⟩
  · intro k' hk' c' hc'
    rw [h'.words k' hk' c' hc', h.words k' hk' c' hc', h.words k' hk' c hc]
    by_cases hcc : c' = c
    · subst hcc
      by_cases hkk : k' = k
      · subst hkk
        simp [hks]
      · simp [hkk]
    · simp [hcc]
  · intro a ha
    rw [h'.heap a ha, h.heap a ha]
  intro k' hk'
  rcases List.mem_cons.1 hk' with rfl | hk'
  · exact h.readable k' (List.mem_singleton.2 rfl)
  rw [← hread]
  exact h'.readable k' hk'

theorem writeEntries_set (hg : g.Sound start stop) (hc : c ≤ g.maxCluster) {value : ℕ}
    {ks : List ℕ} (hks : ks.Nodup) (hlt : ∀ k ∈ ks, k < g.fatCount)
    (h : (writeEntries g c value (ks.map (fatLba g)) d).1 = true) :
    FatSet g c value ks d (writeEntries g c value (ks.map (fatLba g)) d).2 := by
  induction ks generalizing d with
  | nil => exact ⟨by simp [writeEntries], by simp [writeEntries], by simp⟩
  | cons k ks ih =>
    rw [List.map_cons, writeEntries] at h ⊢
    split_ifs at h ⊢ with hone
    have hk := hlt k List.mem_cons_self
    have hlt' : ∀ k ∈ ks, k < g.fatCount := fun k hk ↦ hlt k (List.mem_cons_of_mem _ hk)
    obtain ⟨hnotin, hnodup⟩ := List.nodup_cons.1 hks
    exact fatSet_cons hnotin (fatSet_one hg hc hk hone) (ih hnodup hlt' h) hc
      fat32WriteEntryOne_readable

theorem fat32SetEntry_set (hg : g.Sound start stop) (hc : c ≤ g.maxCluster) {value : ℕ}
    (h : (fat32SetEntry g c value d).1 = true) :
    FatSet g c value (List.range g.fatCount) d (fat32SetEntry g c value d).2 := by
  unfold fat32SetEntry at h ⊢
  rw [fatLbas_eq hg.fats] at h ⊢
  exact writeEntries_set hg hc List.nodup_range (fun k hk ↦ List.mem_range.1 hk) h

end Areas

section Confinement

variable {g : Geometry} {d : Disk} {start stop c : ℕ}

theorem fat32WriteEntryOne_confined (hg : g.Sound start stop) (hc : c ≤ g.maxCluster) {k : ℕ}
    (hk : k < g.fatCount) (value : ℕ) :
    Confined g d (fat32WriteEntryOne g (fatLba g k) c value d).2 := by
  unfold fat32WriteEntryOne
  rw [hg.bytes]
  dsimp only
  split
  · exact .refl d
  split
  · exact .refl d
  refine confined_write _ (Or.inl ⟨?_, ?_⟩)
  · exact fatLba_start.trans (Nat.le_add_right _ _)
  have hlast := fatLba_end hk
  have hentries := hg.entries
  omega

theorem writeEntries_confined (hg : g.Sound start stop) (hc : c ≤ g.maxCluster) (value : ℕ)
    {ks : List ℕ} (hlt : ∀ k ∈ ks, k < g.fatCount) :
    Confined g d (writeEntries g c value (ks.map (fatLba g)) d).2 := by
  induction ks generalizing d with
  | nil => exact .refl d
  | cons k ks ih =>
    have hk := hlt k List.mem_cons_self
    have hone := fat32WriteEntryOne_confined (d := d) hg hc hk value
    rw [List.map_cons, writeEntries]
    split
    · exact hone.trans (ih fun k hk ↦ hlt k (List.mem_cons_of_mem _ hk))
    · exact hone

theorem fat32SetEntry_confined (hg : g.Sound start stop) (hc : c ≤ g.maxCluster) (value : ℕ) :
    Confined g d (fat32SetEntry g c value d).2 := by
  unfold fat32SetEntry
  rw [fatLbas_eq hg.fats]
  exact writeEntries_confined hg hc value fun k hk ↦ List.mem_range.1 hk

theorem writeCluster_confined (hc : 2 ≤ c ∧ c ≤ g.maxCluster) (buf : Buf) :
    Confined g d (writeCluster g d c buf).2 :=
  confined_write buf (Or.inr (clusterToLba_inside hc))

end Confinement

end NexusOS.Fs.Fat32
