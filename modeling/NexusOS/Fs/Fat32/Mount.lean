import NexusOS.Fs.Fat32.Driver

namespace NexusOS.Fs.Fat32

/-- The fields of the boot sector that `fat32_mount` reads. -/
structure Bpb where
  bytesPerSector : ℕ
  sectorsPerCluster : ℕ
  reservedSectors : ℕ
  numFats : ℕ
  fatSize16 : ℕ
  totalSectors32 : ℕ
  fatSize32 : ℕ
  rootCluster : ℕ

def bpbOf (vbr : Buf) : Bpb where
  bytesPerSector := get16 vbr 11
  sectorsPerCluster := (vbr 13).toNat
  reservedSectors := get16 vbr 14
  numFats := (vbr 16).toNat
  fatSize16 := get16 vbr 22
  totalSectors32 := get32 vbr 32
  fatSize32 := get32 vbr 36
  rootCluster := get32 vbr 44

/-- The sectors before the cluster heap, in `uint32_t`. -/
def Bpb.used (b : Bpb) : ℕ := (b.reservedSectors + b.numFats * b.fatSize32 % 2 ^ 32) % 2 ^ 32

def Bpb.clusterCount (b : Bpb) : ℕ := (b.totalSectors32 - b.used) / b.sectorsPerCluster

def Bpb.geometry (b : Bpb) (partitionLba : ℕ) (old : Geometry) : Geometry where
  bytesPerSector := b.bytesPerSector
  sectorsPerCluster := b.sectorsPerCluster
  rootCluster := b.rootCluster
  maxCluster := old.maxCluster
  fatCount := b.numFats
  fatSizeSectors := b.fatSize32
  fatStartLba := (partitionLba + b.reservedSectors) % 2 ^ 64
  clusterHeapStartLba :=
    ((partitionLba + b.reservedSectors) % 2 ^ 64 + b.numFats * b.fatSize32) % 2 ^ 64

def mountBpb (b : Bpb) (partitionLba : ℕ) (s : Volume) : Bool × Volume :=
  if b.fatSize16 ≠ 0 ∨ b.fatSize32 = 0 then (false, s)
  else if b.bytesPerSector ≠ 512 then (false, s)
  else if b.sectorsPerCluster = 0 ∨ 128 < b.sectorsPerCluster then (false, s)
  else
    let g := b.geometry partitionLba s.geometry
    let s := { s with geometry := g }
    if b.totalSectors32 < b.used then (false, s)
    else if b.clusterCount < 1 ∨ 0x0FFFFFF5 < b.clusterCount then (false, s)
    else (true, { s with mounted := true, geometry := { g with maxCluster := b.clusterCount + 1 } })

def fat32Mount (s : Volume) (partitionLba : ℕ) : Bool × Volume :=
  let s := { s with mounted := false }
  match ahciReadSectors s.disk partitionLba 1 with
  | none => (false, s)
  | some vbr =>
    if vbr 510 ≠ 0x55 ∨ vbr 511 ≠ 0xAA then (false, s) else mountBpb (bpbOf vbr) partitionLba s

/-- The geometry of a volume in the sectors from `start` up to `stop`: the copies of the FAT and
the clusters do not overlap, and every cluster has its entry. -/
structure Geometry.Sound (g : Geometry) (start stop : ℕ) : Prop where
  bytes : g.bytesPerSector = 512
  sectors : 0 < g.sectorsPerCluster ∧ g.sectorsPerCluster ≤ 128
  clusters : 2 ≤ g.maxCluster ∧ g.maxCluster ≤ 0x0FFFFFF6
  fats : 0 < g.fatCount
  fatArea : start ≤ g.fatStartLba ∧ g.fatStartLba + g.fatCount * g.fatSizeSectors ≤ stop
  heapArea : start ≤ g.clusterHeapStartLba ∧
    g.clusterHeapStartLba + (g.maxCluster - 1) * g.sectorsPerCluster ≤ stop
  apart : g.fatStartLba + g.fatCount * g.fatSizeSectors ≤ g.clusterHeapStartLba ∨
    g.clusterHeapStartLba + (g.maxCluster - 1) * g.sectorsPerCluster ≤ g.fatStartLba
  entries : 4 * g.maxCluster + 4 ≤ 512 * g.fatSizeSectors

/-- The boot sectors whose FATs exist, fit into `uint32_t` and have an entry for every cluster. -/
def Bpb.Fits (b : Bpb) : Prop :=
  0 < b.numFats ∧ b.reservedSectors + b.numFats * b.fatSize32 < 2 ^ 32 ∧
    4 * b.clusterCount + 8 ≤ 512 * b.fatSize32

theorem clusterToLba_inside {g : Geometry} {c : ℕ} (hc : 2 ≤ c ∧ c ≤ g.maxCluster) :
    g.clusterHeapStartLba ≤ clusterToLba g c ∧
      clusterToLba g c + g.sectorsPerCluster ≤
        g.clusterHeapStartLba + (g.maxCluster - 1) * g.sectorsPerCluster := by
  refine ⟨Nat.le_add_right _ _, ?_⟩
  have hmul : (c - 2 + 1) * g.sectorsPerCluster ≤ (g.maxCluster - 1) * g.sectorsPerCluster :=
    Nat.mul_le_mul_right _ (by omega)
  rw [Nat.add_mul, Nat.one_mul] at hmul
  unfold clusterToLba
  omega

theorem mountBpb_true {b : Bpb} {partitionLba : ℕ} {s : Volume}
    (h : (mountBpb b partitionLba s).1 = true) :
    b.fatSize32 ≠ 0 ∧ b.bytesPerSector = 512 ∧
      (0 < b.sectorsPerCluster ∧ b.sectorsPerCluster ≤ 128) ∧ b.used ≤ b.totalSectors32 ∧
      (1 ≤ b.clusterCount ∧ b.clusterCount ≤ 0x0FFFFFF5) ∧
      (mountBpb b partitionLba s).2.geometry =
        { b.geometry partitionLba s.geometry with maxCluster := b.clusterCount + 1 } := by
  unfold mountBpb at h ⊢
  split_ifs at h ⊢ with hsize hbytes hsectors hused hcount
  refine ⟨?_, ?_, ?_, ?_, ?_, rfl⟩ <;> omega

theorem fat32Mount_true {s : Volume} {partitionLba : ℕ} {vbr : Buf}
    (hread : ahciReadSectors s.disk partitionLba 1 = some vbr)
    (h : (fat32Mount s partitionLba).1 = true) :
    fat32Mount s partitionLba = mountBpb (bpbOf vbr) partitionLba { s with mounted := false } := by
  unfold fat32Mount at h ⊢
  dsimp only at h ⊢
  rw [hread] at h ⊢
  dsimp only at h ⊢
  split_ifs at h ⊢
  rfl

theorem mountBpb_sound_iff {b : Bpb} {partitionLba : ℕ} {s : Volume}
    (h : (mountBpb b partitionLba s).1 = true) (hreserved : b.reservedSectors < 2 ^ 16)
    (htotal : b.totalSectors32 < 2 ^ 32) (hroom : partitionLba + b.totalSectors32 < 2 ^ 64) :
    (mountBpb b partitionLba s).2.geometry.Sound partitionLba (partitionLba + b.totalSectors32) ↔
      b.Fits := by
  obtain ⟨hsize, hbytes, hsectors, hused, hcount, hgeometry⟩ := mountBpb_true h
  rw [hgeometry]
  constructor
  · rintro ⟨-, -, -, hfats, ⟨hstart, hend⟩, -, -, hentries⟩
    simp only [Bpb.geometry] at hfats hstart hend hentries
    -- Had the start of the FAT wrapped, it would lie before the partition.
    have hwrap : (partitionLba + b.reservedSectors) % 2 ^ 64 = partitionLba + b.reservedSectors := by
      omega
    exact ⟨hfats, by omega, by omega⟩
  rintro ⟨hfats, hsmall, hentries⟩
  have husedEq : b.used = b.reservedSectors + b.numFats * b.fatSize32 := by
    unfold Bpb.used
    rw [Nat.mod_eq_of_lt (a := b.numFats * b.fatSize32) (by omega), Nat.mod_eq_of_lt hsmall]
  have hclusters : b.clusterCount * b.sectorsPerCluster ≤ b.totalSectors32 - b.used :=
    Nat.div_mul_le_self _ _
  have hstart : (partitionLba + b.reservedSectors) % 2 ^ 64 = partitionLba + b.reservedSectors :=
    Nat.mod_eq_of_lt (by omega)
  have hheap : (partitionLba + b.reservedSectors + b.numFats * b.fatSize32) % 2 ^ 64 =
      partitionLba + b.reservedSectors + b.numFats * b.fatSize32 := Nat.mod_eq_of_lt (by omega)
  constructor <;> simp only [Bpb.geometry, hstart, hheap, Nat.add_sub_cancel] <;> omega

/-- A mounted volume lies inside its partition just if its boot sector says what `fat32_mount` does
not check. -/
theorem mount_geometry (s : Volume) (partitionLba : ℕ) (vbr : Buf)
    (hread : ahciReadSectors s.disk partitionLba 1 = some vbr)
    (hmount : (fat32Mount s partitionLba).1 = true)
    (hroom : partitionLba + (bpbOf vbr).totalSectors32 < 2 ^ 64) :
    let g := (fat32Mount s partitionLba).2.geometry
    let stop := partitionLba + (bpbOf vbr).totalSectors32
    (g.Sound partitionLba stop ∧
      ∀ c, 2 ≤ c → c ≤ g.maxCluster →
        (g.clusterHeapStartLba ≤ clusterToLba g c ∧ clusterToLba g c + g.sectorsPerCluster ≤ stop) ∧
          4 * c + 4 ≤ 512 * g.fatSizeSectors) ↔ (bpbOf vbr).Fits := by
  intro g stop
  have hiff : g.Sound partitionLba stop ↔ (bpbOf vbr).Fits := by
    have heq := fat32Mount_true hread hmount
    simp only [g, stop, heq] at hmount ⊢
    exact mountBpb_sound_iff hmount (get16_lt _ _) (get32_lt _ _) hroom
  refine ⟨fun h ↦ hiff.1 h.1, fun hfits ↦ ⟨hiff.2 hfits, ?_⟩⟩
  have hsound := hiff.2 hfits
  intro c hlow hhigh
  obtain ⟨hfirst, hlast⟩ := clusterToLba_inside ⟨hlow, hhigh⟩
  exact ⟨⟨hfirst, hlast.trans hsound.heapArea.2⟩, by have := hsound.entries; omega⟩

/-- A disk whose first sector is a boot sector of 512-byte sectors, one per cluster, with 32
reserved ones. -/
def bootDisk (numFats : UInt8) (fatSize total : ℕ) : Disk where
  bytes := put32 (put32 (fun i ↦
    if i = 510 then 0x55 else if i = 511 then 0xAA else if i = 12 then 2 else if i = 13 then 1
    else if i = 14 then 32 else if i = 16 then numFats else 0) 32 total) 36 fatSize
  readable := fun _ _ ↦ true
  writable := fun _ _ ↦ true
  writes := []

def unmounted (d : Disk) : Volume := ⟨false, ⟨0, 0, 0, 0, 0, 0, 0, 0⟩, d⟩

theorem mount_geometry_two_fats :
    (fat32Mount (unmounted (bootDisk 2 8 1000)) 0).2.geometry.Sound 0 1000 :=
  ((mount_geometry (unmounted (bootDisk 2 8 1000)) 0 (bootDisk 2 8 1000).bytes (by
    rw [ahciReadSectors, if_pos (by decide)]
    simp [unmounted]) (by decide +kernel) (by decide +kernel)).2
    (by unfold Bpb.Fits; decide +kernel)).1

/-- No FAT at all, FATs whose size wraps around to nothing, and a FAT of one sector for 967
clusters. -/
theorem mount_accepts_unsound :
    ((fat32Mount (unmounted (bootDisk 0 8 1000)) 0).1 = true ∧
      (fat32Mount (unmounted (bootDisk 0 8 1000)) 0).2.geometry.fatCount = 0) ∧
    ((fat32Mount (unmounted (bootDisk 2 0x80000000 1000)) 0).1 = true ∧
      1000 < (fat32Mount (unmounted (bootDisk 2 0x80000000 1000)) 0).2.geometry.clusterHeapStartLba) ∧
    ((fat32Mount (unmounted (bootDisk 1 1 1000)) 0).1 = true ∧
      512 * (fat32Mount (unmounted (bootDisk 1 1 1000)) 0).2.geometry.fatSizeSectors <
        4 * (fat32Mount (unmounted (bootDisk 1 1 1000)) 0).2.geometry.maxCluster) := by
  decide +kernel

end NexusOS.Fs.Fat32
