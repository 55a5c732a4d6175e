import NexusOS.Tools.CreateIso
import NexusOS.Tools.Fat16Reader

namespace NexusOS.Tools.CreateIso

open Lib

variable {bootloader kernel img : List UInt8} {name : List UInt8} {attr : UInt8}
  {a c n cluster size : ℕ}

theorem espLength : espSectors * fatSector = 16777216 := by
  decide +kernel

theorem clusterOff_eq (c : ℕ) : clusterOff c = (289 + (c - 2)) * 512 := by
  have hstart : dataStart = 289 := rfl
  rw [clusterOff, hstart, fatSector]

section Boot

def bootBytes : List UInt8 :=
  lay (List.replicate 512 0) [(0, [0xEB, 0x3C, 0x90]), (3, ascii "NEXUSOS "), (11, toLe 2 512),
    (13, [1]), (14, toLe 2 1), (16, [2]), (17, toLe 2 512), (19, toLe 2 32768), (21, [0xF8]),
    (22, toLe 2 128), (24, toLe 2 63), (26, toLe 2 255), (28, toLe 4 0), (32, toLe 4 0), (36, [0]),
    (38, [0x29]), (39, toLe 4 0x4E58534F), (43, ascii "NEXUS EFI  "), (54, ascii "FAT16   "),
    (510, [0x55, 0xAA])]

theorem bootSector_eq : bootSector (List.replicate 512 0) = .ok bootBytes := by
  decide +kernel

end Boot

section Entries

theorem length_short (name : List UInt8) : (short name).length = 11 := by
  rw [short, List.length_append, length_ljust _ (List.length_take_le _ _),
    length_ljust _ (List.length_take_le _ _)]

def entryBytes (name : List UInt8) (attr : UInt8) (cluster size : ℕ) : List UInt8 :=
  lay (List.replicate 32 0) [(0, short name), (11, [attr]), (26, toLe 2 cluster), (28, toLe 4 size)]

theorem fit_entryHead (name : List UInt8) (attr : UInt8) :
    Fit (List.replicate 32 (0 : UInt8)).length [(0, short name), (11, [attr])] := by
  simp [Fit, length_short]

theorem entry_eq (hc : cluster < 2 ^ 16) (hs : size < 2 ^ 32) :
    entry name attr cluster size = .ok (entryBytes name attr cluster size) := by
  have hlen := length_lay (fit_entryHead name attr)
  rw [List.length_replicate] at hlen
  have hcluster := length_overwrite (i := 26) (d := toLe 2 cluster)
    (show 26 + (toLe 2 cluster).length ≤ _ by rw [hlen, length_toLe]; omega)
  rw [entry, put16, put_eq (by omega) (by omega), ok_bind, put32,
    put_eq (by omega) (by omega)]
  rfl

theorem entry_error (h : ¬(cluster < 2 ^ 16 ∧ size < 2 ^ 32)) :
    entry name attr cluster size = .error .structError := by
  have hlen := length_lay (fit_entryHead name attr)
  rw [List.length_replicate] at hlen
  rw [entry, put16, put32]
  by_cases hc : cluster < 2 ^ 16
  · rw [put_eq (by omega) (by omega), ok_bind, put_error (by omega)]
  rw [put_error (by omega)]
  rfl

end Entries

section Tables

theorem fst_mem_of_links {chain : List ℕ} {p : ℕ × ℕ} (hchain : chain ≠ []) (h : p ∈ links chain) :
    p.1 ∈ chain := by
  rcases List.mem_append.1 h with h | h
  · exact (List.of_mem_zip (b := p.2) h).1
  rw [List.mem_singleton.1 h, List.getLastD_eq_getLast?, List.getLast?_eq_some_getLast hchain]
  exact List.getLast_mem hchain

def tablePieces (bootloader kernel : List UInt8) : List (ℕ × List UInt8) :=
  (fatSets (List.range' 4 (need bootloader))
    (List.range' (4 + need bootloader) (need kernel))).flatMap fun p ↦ fatPieces p.1 p.2

theorem fatSets_eq (img : List UInt8) (sets : List (ℕ × ℕ)) :
    sets.foldlM (fun img p ↦ fatSet img p.1 p.2) img =
      (sets.flatMap fun p ↦ fatPieces p.1 p.2).foldlM (fun img p ↦ packInto img p.1 p.2) img := by
  induction sets generalizing img with
  | nil => rfl
  | cons p sets ih =>
    rw [List.foldlM_cons, List.flatMap_cons, List.foldlM_append, ← fatSet]
    congr 1
    funext img
    exact ih img

theorem need_pos (data : List UInt8) : 0 < need data := le_max_left 1 _

theorem fit_fatPieces (c v : ℕ) : Fit n (fatPieces c v) ↔ 66050 + c * 2 ≤ n := by
  simp only [Fit, fatPieces, List.forall_mem_cons, length_toLe, fatOff, reserved, fatSector, fatSecs]
  constructor
  · intro h
    omega
  intro h
  refine ⟨by omega, by omega, fun p hp ↦ absurd hp List.not_mem_nil⟩

theorem fit_tablePieces :
    Fit n (tablePieces bootloader kernel) ↔ 66056 + (need bootloader + need kernel) * 2 ≤ n := by
  have hboot := need_pos bootloader
  have hkernel := need_pos kernel
  have hflat : Fit n (tablePieces bootloader kernel) ↔
      ∀ p ∈ fatSets (List.range' 4 (need bootloader))
        (List.range' (4 + need bootloader) (need kernel)), 66050 + p.1 * 2 ≤ n := by
    simp only [Fit, tablePieces, List.mem_flatMap, forall_exists_index, and_imp]
    constructor
    · intro h p hp
      exact (fit_fatPieces p.1 p.2).1 fun f hf ↦ h f p hp hf
    intro h f p hp hf
    exact (fit_fatPieces p.1 p.2).2 (h p hp) f hf
  rw [hflat]
  constructor
  · intro h
    have hlast := h (3 + need bootloader + need kernel, 0xFFFF) (by
      refine List.mem_append_right _ (List.mem_append_right _ (List.mem_singleton.2 ?_))
      rw [List.getLastD_eq_getLast?, List.getLast?_range', if_neg hkernel.ne']
      congr 1
      dsimp only [Option.getD_some]
      omega)
    omega
  intro h p hp
  rw [fatSets, List.mem_append, List.mem_append] at hp
  rcases hp with (hp | hp) | hp
  · simp only [List.mem_cons, List.not_mem_nil, or_false] at hp
    rcases hp with rfl | rfl <;> dsimp only <;> omega
  · have hmem := fst_mem_of_links ((List.range'_ne_nil_iff _).2 hboot.ne') hp
    rw [List.mem_range'_1] at hmem
    omega
  have hmem := fst_mem_of_links ((List.range'_ne_nil_iff _).2 hkernel.ne') hp
  rw [List.mem_range'_1] at hmem
  omega

end Tables

section Image

/-- The sizes of files for which no number is too large for its field or its place. -/
def Small (bootloader kernel : List UInt8) : Prop :=
  need bootloader < 65532 ∧ need bootloader + need kernel < 8355581

instance : Decidable (Small bootloader kernel) := inferInstanceAs (Decidable (_ ∧ _))

theorem length_lt_of_need {data : List UInt8} (h : need data < 8355581) : data.length < 2 ^ 32 := by
  have hneed : (data.length + fatSector - 1) / fatSector ≤ need data := le_max_right 1 _
  unfold fatSector at hneed
  omega

def headPieces : List (ℕ × List UInt8) :=
  [(fatOff, toLe 2 0xFFF8 ++ toLe 2 0xFFFF),
    (fatOff + fatSecs * fatSector, toLe 2 0xFFF8 ++ toLe 2 0xFFFF)]

def dirPieces (bootloader kernel : List UInt8) : List (ℕ × List UInt8) :=
  [dirPiece 2 [entryBytes (ascii ".") 0x10 2 0, entryBytes (ascii "..") 0x10 0 0,
      entryBytes (ascii "BOOT") 0x10 3 0],
    dirPiece 3 [entryBytes (ascii ".") 0x10 3 0, entryBytes (ascii "..") 0x10 2 0,
      entryBytes (ascii "BOOTX64.EFI") 0x20 4 bootloader.length],
    (rootOff, entryBytes (ascii "NEXUSOS") 0x08 0 0 ++ entryBytes (ascii "EFI") 0x10 2 0 ++
      entryBytes (ascii "KERNEL.ELF") 0x20 (4 + need bootloader) kernel.length ++
      List.replicate 32 0)]

def filePieces (bootloader kernel : List UInt8) : List (ℕ × List UInt8) :=
  chunks (List.range' 4 (need bootloader)) bootloader ++
    chunks (List.range' (4 + need bootloader) (need kernel)) kernel

/-- The image as pieces over zeros, in the order in which they are written. -/
def espPieces (bootloader kernel : List UInt8) : List (ℕ × List UInt8) :=
  headPieces ++ (tablePieces bootloader kernel ++ (dirPieces bootloader kernel ++
    filePieces bootloader kernel))

theorem fit_headPieces : Fit (espSectors * fatSector) headPieces := by
  rw [espLength]
  simp [Fit, headPieces, fatOff, fatSecs, fatSector, reserved]

theorem heads_eq :
    [fatOff, fatOff + fatSecs * fatSector].foldlM
      (fun img off ↦ packInto img off (toLe 2 0xFFF8 ++ toLe 2 0xFFFF))
      (List.replicate (espSectors * fatSector) 0) =
    .ok (lay (List.replicate (espSectors * fatSector) 0) headPieces) := by
  have hpacks := packs_eq (b := List.replicate (espSectors * fatSector) 0)
    headPieces (by rw [List.length_replicate]; exact fit_headPieces)
  rw [← hpacks]
  rfl

theorem length_heads : (lay (List.replicate (espSectors * fatSector) (0 : UInt8)) headPieces).length =
    espSectors * fatSector := by
  rw [length_lay, List.length_replicate]
  rw [List.length_replicate]
  exact fit_headPieces

theorem take_zeros : (List.replicate (espSectors * fatSector) (0 : UInt8)).take fatSector =
    List.replicate 512 0 := by
  rw [List.take_replicate, espLength, fatSector]
  congr 1

theorem directories_eq (hboot : bootloader.length < 2 ^ 32) (hkernel : kernel.length < 2 ^ 32)
    (hneed : need bootloader < 65532) :
    directories bootloader kernel = .ok (dirPieces bootloader kernel) := by
  have hzero : 0 < 2 ^ 32 := by norm_num
  rw [directories, entry_eq (by norm_num) hzero, ok_bind, entry_eq (by norm_num) hzero, ok_bind,
    entry_eq (by norm_num) hzero, ok_bind, entry_eq (by norm_num) hzero, ok_bind,
    entry_eq (by norm_num) hzero, ok_bind, entry_eq (by norm_num) hboot, ok_bind,
    entry_eq (by norm_num) hzero, ok_bind, entry_eq (by norm_num) hzero, ok_bind,
    entry_eq (by omega) hkernel, ok_bind, pure_eq_ok, dirPieces]

theorem directories_error (h : 65532 ≤ need bootloader) :
    directories bootloader kernel = .error .structError := by
  have hzero : 0 < 2 ^ 32 := by norm_num
  rw [directories, entry_eq (by norm_num) hzero, ok_bind, entry_eq (by norm_num) hzero, ok_bind,
    entry_eq (by norm_num) hzero, ok_bind, entry_eq (by norm_num) hzero, ok_bind,
    entry_eq (by norm_num) hzero, ok_bind]
  by_cases hboot : bootloader.length < 2 ^ 32
  · rw [entry_eq (by norm_num) hboot, ok_bind, entry_eq (by norm_num) hzero, ok_bind,
      entry_eq (by norm_num) hzero, ok_bind, entry_error (by omega)]
    rfl
  · rw [entry_error (by omega)]
    rfl

theorem fat16Image_eq (h : Small bootloader kernel) : fat16Image bootloader kernel =
    .ok (lay (List.replicate (espSectors * fatSector) 0) (espPieces bootloader kernel)) := by
  obtain ⟨hboot, hsum⟩ := h
  have hdirs : directories bootloader kernel = .ok (dirPieces bootloader kernel) :=
    directories_eq (length_lt_of_need (by omega)) (length_lt_of_need (by omega)) hboot
  have htables := packs_eq (b := lay (List.replicate (espSectors * fatSector) 0) headPieces)
    (tablePieces bootloader kernel)
    (by rw [length_heads, espLength]; exact fit_tablePieces.2 (by omega))
  rw [fat16Image, if_neg (by decide +kernel)]
  dsimp only
  rw [take_zeros, bootSector_eq, ok_bind, heads_eq, ok_bind, fatSets_eq, ← tablePieces, htables,
    ok_bind, hdirs, ok_bind, pure_eq_ok, ← filePieces, ← lay_append, ← lay_append, espPieces]

theorem fat16Image_error (h : ¬ Small bootloader kernel) :
    fat16Image bootloader kernel = .error .structError := by
  rw [fat16Image, if_neg (by decide +kernel)]
  dsimp only
  rw [take_zeros, bootSector_eq, ok_bind, heads_eq, ok_bind, fatSets_eq, ← tablePieces]
  by_cases hfit : need bootloader + need kernel < 8355581
  · have htables := packs_eq (b := lay (List.replicate (espSectors * fatSector) 0) headPieces)
      (tablePieces bootloader kernel)
      (by rw [length_heads, espLength]; exact fit_tablePieces.2 (by omega))
    have hneed : 65532 ≤ need bootloader := Nat.le_of_not_lt fun hlt ↦ h ⟨hlt, hfit⟩
    rw [htables, ok_bind, directories_error hneed]
    rfl
  have htables := packs_error (b := lay (List.replicate (espSectors * fatSector) 0) headPieces)
    (tablePieces bootloader kernel)
    (by rw [length_heads, espLength, fit_tablePieces]; omega)
  rw [htables]
  rfl

theorem espPieces_ge {p : ℕ × List UInt8} (hp : p ∈ espPieces bootloader kernel) : 512 ≤ p.1 := by
  rw [espPieces, List.mem_append, List.mem_append, List.mem_append] at hp
  rcases hp with hp | hp | hp | hp
  · simp only [headPieces, List.mem_cons, List.not_mem_nil, or_false, fatOff, reserved, fatSecs,
      fatSector] at hp
    rcases hp with rfl | rfl <;> norm_num
  · obtain ⟨q, -, hq⟩ := List.mem_flatMap.1 hp
    simp only [fatPieces, List.mem_cons, List.not_mem_nil, or_false, fatOff, reserved, fatSecs,
      fatSector] at hq
    rcases hq with rfl | rfl <;> dsimp only <;> omega
  · simp only [dirPieces, dirPiece, List.mem_cons, List.not_mem_nil, or_false, clusterOff_eq,
      rootOff, reserved, fatSecs, fatSector] at hp
    rcases hp with rfl | rfl | rfl <;> norm_num
  have hchunk : ∀ chain data, p ∈ chunks chain data → 512 ≤ p.1 := by
    intro chain data hmem
    obtain ⟨i, hi, rfl⟩ := List.mem_mapIdx.1 hmem
    dsimp only
    rw [clusterOff_eq]
    omega
  rcases List.mem_append.1 hp with hp | hp
  · exact hchunk _ _ hp
  · exact hchunk _ _ hp

theorem take_fat16Image (h : fat16Image bootloader kernel = .ok img) :
    img.take 512 = List.replicate 512 0 := by
  by_cases hsmall : Small bootloader kernel
  · rw [fat16Image_eq hsmall] at h
    rw [← Except.ok.inj h, take_lay, List.take_replicate, espLength]
    · congr 1
    · rw [List.length_replicate, espLength]
      norm_num
    · exact fun p hp ↦ espPieces_ge hp
  · rw [fat16Image_error hsmall] at h
    cases h

end Image

section Volume

/-- `EFI/BOOT/BOOTX64.EFI`. -/
def bootPath : List (List UInt8) :=
  [short (ascii "EFI"), short (ascii "BOOT"), short (ascii "BOOTX64.EFI")]

/-- `KERNEL.ELF`. -/
def kernelPath : List (List UInt8) := [short (ascii "KERNEL.ELF")]

/-- A volume of 16 MiB with the two files, as a reader finds them. -/
structure BootVolume (bootloader kernel img : List UInt8) : Prop where
  length : img.length = 16 * 1024 * 1024
  bootloader : Fat16.readFile img bootPath = some bootloader
  kernel : Fat16.readFile img kernelPath = some kernel
  chains : Fat16.Disjoint img [bootPath.take 1, bootPath.take 2, bootPath, kernelPath]

theorem readFile_of_zero (h : img.take 512 = List.replicate 512 0) (path : List (List UInt8)) :
    Fat16.readFile img path = none := by
  have hslice : ∀ off n, off + n ≤ 512 → slice img off n = List.replicate n 0 := by
    intro off n hfit
    rw [← slice_replicate 0 hfit, ← h, slice, slice, List.drop_take, List.take_take]
    congr 1
    omega
  have hroot : (Fat16.bpbOf img).rootEntries = 0 := by
    change ofLe (slice img 17 2) = 0
    rw [hslice 17 2 (by omega)]
    rfl
  have hentry : Fat16.entryAt img path = none := by
    rw [Fat16.entryAt, hroot, Nat.zero_mul, slice, List.take_zero]
    cases path with
    | nil => rfl
    | cons name path => cases path <;> rfl
  rw [Fat16.readFile, hentry]
  rfl

/-- The image is never a volume: it is well made only where none is made. -/
theorem fat16_image_volume (bootloader kernel : List UInt8) :
    (∀ img, fat16Image bootloader kernel = .ok img → BootVolume bootloader kernel img) ↔
      65532 ≤ need bootloader ∨ 8355581 ≤ need bootloader + need kernel := by
  constructor
  · intro h
    by_contra hsmall
    have himage := fat16Image_eq (show Small bootloader kernel from ⟨by omega, by omega⟩)
    have hread := (h _ himage).kernel
    rw [readFile_of_zero (take_fat16Image himage)] at hread
    cases hread
  intro hlarge img himage
  rw [fat16Image_error fun hsmall : Small bootloader kernel ↦ by
    obtain ⟨hboot, hsum⟩ := hsmall
    omega] at himage
  cases himage

/-- One byte each: an image is returned, and it has no boot sector. -/
theorem fat16_image_no_bpb : ∃ img, fat16Image [1] [1] = .ok img ∧
    img.take 512 = List.replicate 512 0 ∧ ¬ BootVolume [1] [1] img := by
  have himage := fat16Image_eq (show Small [1] [1] by decide)
  have hzero := take_fat16Image himage
  refine ⟨_, himage, hzero, fun hvolume ↦ ?_⟩
  have hread := hvolume.kernel
  rw [readFile_of_zero hzero] at hread
  cases hread

end Volume

end NexusOS.Tools.CreateIso
