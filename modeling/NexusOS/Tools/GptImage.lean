import NexusOS.Fs.Gpt
import NexusOS.Tools.Python

namespace NexusOS.Tools

open Lib Fs Fs.Gpt Fs.Fat32

section Builder

structure Uuid where
  bytes : List UInt8
  length : bytes.length = 16
  deriving DecidableEq

def Uuid.bytesLe (g : Uuid) : List UInt8 :=
  (slice g.bytes 0 4).reverse ++ (slice g.bytes 4 2).reverse ++ (slice g.bytes 6 2).reverse ++
    g.bytes.drop 8

def Uuid.hex (g : Uuid) : Str := g.bytes.flatMap hexByte

/-- The partitions that the builder is asked for. The name is in ASCII, without a NUL. -/
structure PartitionSpec where
  typeGuid : Uuid
  uniqueGuid : Uuid
  first : ℕ
  last : ℕ
  name : Str
  used : typeGuid.bytes ≠ List.replicate 16 0
  first_lt : first < 2 ^ 64
  last_lt : last < 2 ^ 64
  named : name ≠ []
  short : name.length ≤ 36
  ascii : ∀ c ∈ name, 0 < c.toNat ∧ c.toNat < 128

def utf16le (name : Str) : List UInt8 := name.flatMap fun c ↦ [c, 0]

def gptEntryFields (p : PartitionSpec) : List (ℕ × List UInt8) :=
  [(0, p.typeGuid.bytesLe), (16, p.uniqueGuid.bytesLe), (32, toLe 8 p.first), (40, toLe 8 p.last),
    (48, toLe 8 0), (56, ljust ((utf16le p.name).take 72) 72 0)]

def gptPartitionEntry (p : PartitionSpec) : List UInt8 :=
  lay (List.replicate 128 0) (gptEntryFields p)

/-- `EFI PART`. -/
def gptMagic : List UInt8 := [69, 70, 73, 32, 80, 65, 82, 84]

def gptHeaderFields (current backup firstUsable lastUsable : ℕ) (diskGuid : Uuid)
    (entriesLba entriesCrc : ℕ) : List (ℕ × List UInt8) :=
  [(0, gptMagic), (8, toLe 4 0x10000), (12, toLe 4 92), (16, toLe 4 0), (20, toLe 4 0),
    (24, toLe 8 current), (32, toLe 8 backup), (40, toLe 8 firstUsable), (48, toLe 8 lastUsable),
    (56, diskGuid.bytesLe), (72, toLe 8 entriesLba), (80, toLe 4 128), (84, toLe 4 128),
    (88, toLe 4 entriesCrc)]

/-- The header sector; `crc32` is the checksum of `zlib`. -/
def gptHeader (crc32 : List UInt8 → ℕ) (current backup firstUsable lastUsable : ℕ) (diskGuid : Uuid)
    (entriesLba entriesCrc : ℕ) : List UInt8 :=
  let h := lay (List.replicate 512 0)
    (gptHeaderFields current backup firstUsable lastUsable diskGuid entriesLba entriesCrc)
  overwrite h 16 (toLe 4 (crc32 (h.take 92)))

def gptEntries (parts : List PartitionSpec) : List UInt8 :=
  parts.flatMap gptPartitionEntry ++ List.replicate ((128 - parts.length) * 128) 0

end Builder

section Lengths

theorem Uuid.length_bytesLe (g : Uuid) : g.bytesLe.length = 16 := by
  have h := g.length
  simp only [bytesLe, List.length_append, List.length_reverse, List.length_drop]
  rw [length_slice (by omega), length_slice (by omega), length_slice (by omega)]
  omega

theorem length_name72 (name : Str) : (ljust ((utf16le name).take 72) 72 0).length = 72 :=
  length_ljust 0 (List.length_take_le _ _)

theorem fit_entry (p : PartitionSpec) :
    Fit (List.replicate 128 (0 : UInt8)).length (gptEntryFields p) := by
  simp [Fit, gptEntryFields, Uuid.length_bytesLe, length_name72]

theorem length_gptPartitionEntry (p : PartitionSpec) : (gptPartitionEntry p).length = 128 := by
  rw [gptPartitionEntry, length_lay (fit_entry p), List.length_replicate]

end Lengths

section Fields

variable {e : Buf} {p : PartitionSpec}

theorem window_entry (j : ℕ) {i n : ℕ} {bytes : List UInt8}
    (he : ∀ k < 128, e k = (gptPartitionEntry p).getD k 0) (hin : i + n ≤ 128)
    (hj : (gptEntryFields p)[j]? = some (i, bytes))
    (ha : Avoid i n ((gptEntryFields p).drop (j + 1)))
    (hn : bytes.length = n) : window e i n = bytes := by
  have hcongr : window e i n = window (fun k ↦ (gptPartitionEntry p).getD k 0) i n :=
    window_congr fun k hk ↦ he (i + k) (by omega)
  rw [hcongr, window_getD 0 (by rw [length_gptPartitionEntry]; exact hin), gptPartitionEntry]
  exact slice_lay j (fit_entry p) hj ha hn

section

variable (he : ∀ k < 128, e k = (gptPartitionEntry p).getD k 0)
include he

theorem entry_first : le64 e 32 = p.first := by
  rw [le64, window_entry 2 he (by norm_num) rfl (by simp [Avoid, gptEntryFields]) (length_toLe _ _)]
  exact ofLe_toLe p.first_lt

theorem entry_last : le64 e 40 = p.last := by
  rw [le64, window_entry 3 he (by norm_num) rfl (by simp [Avoid, gptEntryFields]) (length_toLe _ _)]
  exact ofLe_toLe p.last_lt

theorem entry_attributes : le64 e 48 = 0 := by
  rw [le64, window_entry 4 he (by norm_num) rfl (by simp [Avoid, gptEntryFields]) (length_toLe _ _)]
  rfl

theorem entry_guid : window e 0 16 = p.typeGuid.bytesLe :=
  window_entry 0 he (by norm_num) rfl (by simp [Avoid, gptEntryFields])
    (Uuid.length_bytesLe _)

theorem entry_name : window e 56 72 = ljust ((utf16le p.name).take 72) 72 0 :=
  window_entry 5 he (by norm_num) rfl (by simp [Avoid, gptEntryFields]) (length_name72 _)

end

theorem window_zero_getD {k n : ℕ} (hk : k < n) : e k = (window e 0 n).getD k 0 := by
  rw [window, List.getD_eq_getElem?_getD, List.getElem?_map, List.getElem?_range hk]
  simp

theorem guidToText_bytesLe (g : Uuid) (hg : window e 0 16 = g.bytesLe) : guidToText e = g.hex := by
  have horder : guidToText e = guidOrder.flatMap fun i ↦ hexByte (g.bytesLe.getD i 0) := by
    rw [← hg]
    have hk : ∀ i ∈ guidOrder, i < 16 := by decide
    refine List.flatMap_congr fun i hi ↦ ?_
    rw [← window_zero_getD (hk i hi)]
  rw [horder]
  obtain ⟨bytes, hlen⟩ := g
  match bytes, hlen with
  | [b0, b1, b2, b3, b4, b5, b6, b7, b8, b9, b10, b11, b12, b13, b14, b15], _ => rfl

theorem guidZero_bytesLe (g : Uuid) (hg : window e 0 16 = g.bytesLe)
    (hused : g.bytes ≠ List.replicate 16 0) : guidZero e = false := by
  by_contra hzero
  rw [Bool.not_eq_false, guidZero, List.all_eq_true] at hzero
  have hall : window e 0 16 = List.replicate 16 0 := by
    rw [List.eq_replicate_iff, length_window]
    refine ⟨rfl, fun b hb ↦ ?_⟩
    obtain ⟨k, hk, rfl⟩ := List.mem_map.1 hb
    rw [Nat.zero_add]
    exact beq_iff_eq.1 (hzero k hk)
  apply hused
  rw [hg] at hall
  obtain ⟨bytes, hlen⟩ := g
  match bytes, hlen with
  | [b0, b1, b2, b3, b4, b5, b6, b7, b8, b9, b10, b11, b12, b13, b14, b15], _ =>
    simp_all [Uuid.bytesLe, Lib.slice]

theorem decodeNameLoop_eq {q : Buf} {name : Str} {rounds i n : ℕ}
    (hascii : ∀ c ∈ name, 0 < c.toNat ∧ c.toNat < 128)
    (hq : ∀ k < rounds, get16 q (i + 2 * k) = (name.getD k 0).toNat) (hn : n + rounds ≤ 39) :
    decodeNameLoop q 40 rounds i n = name.take rounds := by
  induction rounds generalizing name i n with
  | zero => rw [decodeNameLoop, List.take_zero]
  | succ rounds ih =>
    have hfirst := hq 0 (by omega)
    rw [decodeNameLoop, if_pos (by omega)]
    dsimp only
    rw [Nat.mul_zero, Nat.add_zero] at hfirst
    cases name with
    | nil =>
      rw [hfirst, if_pos (by rfl), List.take_nil]
    | cons c name =>
      obtain ⟨hpos, hlt⟩ := hascii c List.mem_cons_self
      rw [hfirst, List.getD_cons_zero, if_neg (by omega), if_pos hlt, UInt8.ofNat_toNat,
        List.take_succ_cons]
      congr 1
      refine ih (fun x hx ↦ hascii x (List.mem_cons_of_mem c hx)) ?_ (by omega)
      intro k hk
      have hnext := hq (k + 1) (by omega)
      rw [List.getD_cons_succ] at hnext
      rw [← hnext]
      congr 1
      omega

theorem getD_replicate_zero (m k : ℕ) : (List.replicate m (0 : UInt8)).getD k 0 = 0 := by
  rw [List.getD_eq_getElem?_getD]
  exact List.getElem?_getD_replicate_default_eq 0 m k

theorem getD_utf16le (name : Str) (m k : ℕ) :
    (utf16le name ++ List.replicate m 0).getD (2 * k) 0 = name.getD k 0 ∧
      (utf16le name ++ List.replicate m 0).getD (2 * k + 1) 0 = 0 := by
  induction name generalizing k with
  | nil => exact ⟨getD_replicate_zero m (2 * k), getD_replicate_zero m (2 * k + 1)⟩
  | cons c name ih =>
    cases k with
    | zero => exact ⟨rfl, rfl⟩
    | succ k => exact ih k

theorem entry_decodeName (he : ∀ k < 128, e k = (gptPartitionEntry p).getD k 0) :
    decodeName (fun j ↦ e (56 + j)) 40 = p.name.take 18 := by
  refine decodeNameLoop_eq p.ascii ?_ (by norm_num)
  intro k hk
  have hlen : (utf16le p.name).length ≤ 72 := by
    have hshort := p.short
    simp only [utf16le, List.length_flatMap, List.length_cons, List.length_nil, List.map_const',
      List.sum_replicate, smul_eq_mul]
    omega
  have hname : window e 56 72 = utf16le p.name ++ List.replicate (72 - (utf16le p.name).length) 0 := by
    rw [entry_name he, List.take_of_length_le hlen, ljust]
  have hbyte : ∀ j < 72, e (56 + j) = (window e 56 72).getD j 0 := by
    intro j hj
    rw [window, List.getD_eq_getElem?_getD, List.getElem?_map, List.getElem?_range hj]
    rfl
  obtain ⟨hlow, hhigh⟩ := getD_utf16le p.name (72 - (utf16le p.name).length) k
  rw [get16, Nat.zero_add, hbyte (2 * k) (by omega), hbyte (2 * k + 1) (by omega), hname, hlow, hhigh]
  rfl

theorem readEntry_eq (he : ∀ k < 128, e k = (gptPartitionEntry p).getD k 0) (i : ℕ) :
    readEntry e i = ⟨i + 1, p.first, p.last, 0, p.typeGuid.hex, p.name.take 18⟩ := by
  rw [readEntry, entry_first he, entry_last he, entry_attributes he, entry_decodeName he,
    guidToText_bytesLe p.typeGuid (entry_guid he)]

end Fields

section RoundTrip

variable {d : Disk} {parts : List PartitionSpec} {crc32 : List UInt8 → ℕ} {diskGuid : Uuid}
  {current backup firstUsable lastUsable entriesCrc : ℕ}

/-- What the kernel reports for a partition in entry `i`. -/
def reported (i : ℕ) (p : PartitionSpec) : Gpt.Partition :=
  ⟨i + 1, p.first, p.last, 0, p.typeGuid.hex, p.name.take 18⟩

theorem entry_bytes
    (hentries : ∀ i < 16384, d.bytes (1024 + i) = (gptEntries parts).getD i 0) {i : ℕ} (hi : i < 128)
    {k : ℕ} (hk : k < 128) :
    d.bytes (512 * ((2 + i * 128 / 512) % 2 ^ 64) + (i * 128 % 512 + k)) =
      (slice (gptEntries parts) (i * 128) 128).getD k 0 := by
  have hpos : 512 * ((2 + i * 128 / 512) % 2 ^ 64) + (i * 128 % 512 + k) = 1024 + (i * 128 + k) := by
    omega
  rw [hpos, hentries _ (by omega), List.getD_eq_getElem?_getD, List.getD_eq_getElem?_getD,
    getElem?_slice, if_pos hk]

theorem slice_gptEntries (hcount : parts.length ≤ 128) {i : ℕ} (hi : i < 128) :
    slice (gptEntries parts) (i * 128) 128 =
      (parts[i]?.map gptPartitionEntry).getD (List.replicate 128 0) := by
  have hlen : (parts.flatMap gptPartitionEntry).length = parts.length * 128 := by
    rw [List.length_flatMap, List.map_congr_left fun p _ ↦ length_gptPartitionEntry p]
    simp
  by_cases hused : i < parts.length
  · rw [gptEntries, slice_append_left (by omega),
      slice_flatMap (fun p _ ↦ length_gptPartitionEntry p) (List.getElem?_eq_getElem hused),
      List.getElem?_eq_getElem hused, Option.map_some, Option.getD_some]
  · rw [gptEntries, slice_append_right (by omega), hlen, List.getElem?_eq_none (by omega),
      slice_replicate _ (by omega), Option.map_none, Option.getD_none]

theorem guidZero_of_zero {e : Buf} (he : ∀ k < 128, e k = (List.replicate 128 0).getD k 0) :
    guidZero e = true := by
  rw [guidZero, List.all_eq_true]
  intro k hk
  rw [List.mem_range] at hk
  rw [he k (by omega), getD_replicate_zero, beq_self_eq_true]

theorem scanLoop_eq (hcount : parts.length ≤ 16) (hread : ∀ lba, d.readable lba 1 = true)
    (hentries : ∀ i < 16384, d.bytes (1024 + i) = (gptEntries parts).getD i 0) (rounds i : ℕ)
    (hrounds : i + rounds = 128) :
    scanLoop d 2 128 rounds i ((parts.take i).mapIdx reported) = parts.mapIdx reported := by
  induction rounds generalizing i with
  | zero => rw [scanLoop, List.take_of_length_le (by omega)]
  | succ rounds ih =>
    have hnext := ih (i + 1) (by omega)
    have hslice := slice_gptEntries (show parts.length ≤ 128 by omega) (show i < 128 by omega)
    have hbytes : ∀ k < 128, d.bytes (512 * ((2 + i * 128 / 512) % 2 ^ 64) + (i * 128 % 512 + k)) =
        (slice (gptEntries parts) (i * 128) 128).getD k 0 :=
      fun k hk ↦ entry_bytes hentries (by omega) hk
    rw [hslice] at hbytes
    rw [scanLoop]
    split_ifs with hfull
    · dsimp only
      have hsector : ahciReadSectors d ((2 + i * 128 / 512) % 2 ^ 64) 1 =
          some fun j ↦ d.bytes (512 * ((2 + i * 128 / 512) % 2 ^ 64) + j) := by
        simp [ahciReadSectors, hread]
      rw [if_neg (by omega), hsector]
      dsimp only
      by_cases hused : i < parts.length
      · rw [List.getElem?_eq_getElem hused, Option.map_some, Option.getD_some] at hbytes
        rw [guidZero_bytesLe _ (entry_guid hbytes) parts[i].used, readEntry_eq hbytes]
        rw [List.take_add_one, List.getElem?_eq_getElem hused, Option.toList_some,
          List.mapIdx_append] at hnext
        simpa [reported, Nat.min_eq_left hused.le] using hnext
      rw [List.getElem?_eq_none (by omega), Option.map_none, Option.getD_none] at hbytes
      rw [guidZero_of_zero hbytes, if_pos rfl, List.take_of_length_le (by omega)]
      rwa [List.take_of_length_le (by omega)] at hnext
    · rw [List.length_mapIdx, List.length_take] at hfull
      unfold maxPartitions at hfull
      rw [List.take_of_length_le (by omega)]

theorem get32_eq (buf : Buf) (off : ℕ) : get32 buf off = ofLe (window buf off 4) := by
  simp only [get32, window, List.range_succ, List.range_zero, List.nil_append, List.map_cons,
    List.map_nil, List.cons_append, ofLe, Nat.add_zero, Nat.mul_zero]
  omega

variable (current backup firstUsable lastUsable diskGuid entriesCrc) in
theorem fit_header : Fit (List.replicate 512 (0 : UInt8)).length
    (gptHeaderFields current backup firstUsable lastUsable diskGuid 2 entriesCrc) := by
  simp only [Fit, gptHeaderFields, List.forall_mem_cons, List.length_replicate, length_toLe,
    Uuid.length_bytesLe, List.not_mem_nil, false_imp_iff, implies_true, and_true, gptMagic,
    List.length_cons, List.length_nil]
  norm_num

theorem window_header (j : ℕ) {i n : ℕ} {bytes : List UInt8} {sector : Buf}
    (hsector : ∀ k < 512, sector k =
      (gptHeader crc32 current backup firstUsable lastUsable diskGuid 2 entriesCrc).getD k 0)
    (hin : i + n ≤ 512) (hcrc : i + n ≤ 16 ∨ 20 ≤ i)
    (hj : (gptHeaderFields current backup firstUsable lastUsable diskGuid 2 entriesCrc)[j]? =
      some (i, bytes))
    (ha : Avoid i n ((gptHeaderFields current backup firstUsable lastUsable diskGuid 2
      entriesCrc).drop (j + 1)))
    (hn : bytes.length = n) : window sector i n = bytes := by
  have hfit := fit_header diskGuid current backup firstUsable lastUsable entriesCrc
  have hlen := (length_lay hfit).trans List.length_replicate
  have hcrcfit : 16 + (toLe 4 (crc32 ((lay (List.replicate 512 0) (gptHeaderFields current backup
      firstUsable lastUsable diskGuid 2 entriesCrc)).take 92))).length ≤
      (lay (List.replicate 512 (0 : UInt8)) (gptHeaderFields current backup firstUsable lastUsable
        diskGuid 2 entriesCrc)).length := by
    rw [hlen, length_toLe]
    norm_num
  have hcongr : window sector i n = window (fun k ↦
      (gptHeader crc32 current backup firstUsable lastUsable diskGuid 2 entriesCrc).getD k 0) i n :=
    window_congr fun k hk ↦ hsector (i + k) (by omega)
  rw [hcongr, gptHeader, window_getD 0 (by rw [length_overwrite hcrcfit, hlen]; exact hin),
    slice_overwrite_of_disjoint hcrcfit (by rw [length_toLe]; omega)]
  exact slice_lay j hfit hj ha hn

theorem gptScan_image (hcount : parts.length ≤ 16) (hread : ∀ lba, d.readable lba 1 = true)
    (hheader : ∀ i < 512, d.bytes (512 + i) =
      (gptHeader crc32 current backup firstUsable lastUsable diskGuid 2 entriesCrc).getD i 0)
    (hentries : ∀ i < 16384, d.bytes (1024 + i) = (gptEntries parts).getD i 0) :
    gptScan true d = parts.mapIdx reported := by
  have hsector : ahciReadSectors d 1 1 = some fun i ↦ d.bytes (512 * 1 + i) := by
    simp [ahciReadSectors, hread]
  have hscan := scanLoop_eq hcount hread hentries 128 0 rfl
  rw [List.take_zero, List.mapIdx_nil] at hscan
  have hfields : ∀ k < 512, d.bytes (512 * 1 + k) =
      (gptHeader crc32 current backup firstUsable lastUsable diskGuid 2 entriesCrc).getD k 0 := hheader
  have hsignature : le64 (fun i ↦ d.bytes (512 * 1 + i)) 0 = signature := by
    rw [le64, window_header 0 hfields (by norm_num) (by norm_num) rfl
      (by simp [Avoid, gptHeaderFields]) (show gptMagic.length = 8 from rfl)]
    rfl
  have hsize : get32 (fun i ↦ d.bytes (512 * 1 + i)) 12 = 92 := by
    rw [get32_eq, window_header 2 hfields (by norm_num) (by norm_num) rfl
      (by simp [Avoid, gptHeaderFields]) (length_toLe _ _)]
    exact ofLe_toLe (by norm_num)
  have hlba : le64 (fun i ↦ d.bytes (512 * 1 + i)) 72 = 2 := by
    rw [le64, window_header 10 hfields (by norm_num) (by norm_num) rfl
      (by simp [Avoid, gptHeaderFields]) (length_toLe _ _)]
    exact ofLe_toLe (by norm_num)
  have hentrycount : get32 (fun i ↦ d.bytes (512 * 1 + i)) 80 = 128 := by
    rw [get32_eq, window_header 11 hfields (by norm_num) (by norm_num) rfl
      (by simp [Avoid, gptHeaderFields]) (length_toLe _ _)]
    exact ofLe_toLe (by norm_num)
  have hentrysize : get32 (fun i ↦ d.bytes (512 * 1 + i)) 84 = 128 := by
    rw [get32_eq, window_header 12 hfields (by norm_num) (by norm_num) rfl
      (by simp [Avoid, gptHeaderFields]) (length_toLe _ _)]
    exact ofLe_toLe (by norm_num)
  unfold gptScan
  rw [hsector]
  dsimp only
  rw [hsignature, hsize, hlba, hentrycount, hentrysize, hscan]
  rw [if_neg (by decide), if_neg (by decide), if_neg (by decide)]

/-- The kernel reads back the partitions that the image builder writes, of which there are at most
16, just if no name has more than 18 characters. -/
theorem gpt_round_trip (hcount : parts.length ≤ 16) (hread : ∀ lba, d.readable lba 1 = true)
    (hheader : ∀ i < 512, d.bytes (512 + i) =
      (gptHeader crc32 current backup firstUsable lastUsable diskGuid 2 entriesCrc).getD i 0)
    (hentries : ∀ i < 16384, d.bytes (1024 + i) = (gptEntries parts).getD i 0) :
    gptScan true d = parts.mapIdx (fun i p ↦
      ⟨i + 1, p.first, p.last, 0, p.typeGuid.hex, p.name⟩) ↔ ∀ p ∈ parts, p.name.length ≤ 18 := by
  rw [gptScan_image hcount hread hheader hentries, List.mapIdx_eq_mapIdx_iff]
  constructor
  · intro h p hp
    obtain ⟨i, hi, rfl⟩ := List.getElem_of_mem hp
    exact (List.take_eq_self_iff _).1 (congrArg Partition.name (h i hi))
  · intro hnames i hi
    rw [reported, List.take_of_length_le (hnames _ (List.getElem_mem hi))]

/-- A disk with a table of the builder; the checksums are not looked at. -/
def tableDisk (parts : List PartitionSpec) (diskGuid : Uuid) : Disk where
  bytes i := if i < 1024 then (gptHeader (fun _ ↦ 0) 1 2047 34 2014 diskGuid 2 0).getD (i - 512) 0
    else (gptEntries parts).getD (i - 1024) 0
  readable _ _ := true
  writable _ _ := true
  writes := []

theorem tableDisk_header (parts : List PartitionSpec) (diskGuid : Uuid) :
    ∀ i < 512, (tableDisk parts diskGuid).bytes (512 + i) =
      (gptHeader (fun _ ↦ 0) 1 2047 34 2014 diskGuid 2 0).getD i 0 := by
  intro i hi
  rw [tableDisk]
  dsimp only
  rw [if_pos (by omega), Nat.add_sub_cancel_left]

theorem tableDisk_entries (parts : List PartitionSpec) (diskGuid : Uuid) :
    ∀ i < 16384, (tableDisk parts diskGuid).bytes (1024 + i) = (gptEntries parts).getD i 0 := by
  intro i _
  rw [tableDisk]
  dsimp only
  rw [if_neg (by omega), Nat.add_sub_cancel_left]

def espGuid : Uuid where
  bytes := [0xC1, 0x2A, 0x73, 0x28, 0xF8, 0x1F, 0x11, 0xD2, 0xBA, 0x4B, 0, 0xA0, 0xC9, 0x3E, 0xC9, 0x3B]
  length := rfl

theorem espGuid_used : espGuid.bytes ≠ List.replicate 16 0 := by decide

theorem letters_ascii (n : ℕ) : ∀ c ∈ List.replicate n (65 : UInt8), 0 < c.toNat ∧ c.toNat < 128 := by
  intro c hc
  obtain rfl := List.eq_of_mem_replicate hc
  decide

theorem sample_lbas_lt : 2048 < 2 ^ 64 ∧ 133119 < 2 ^ 64 := by norm_num

/-- A partition whose name is `n + 1` times the letter `A`. -/
def lettersPartition (n : ℕ) (hn : (List.replicate (n + 1) (65 : UInt8)).length ≤ 36) :
    PartitionSpec where
  typeGuid := espGuid
  uniqueGuid := espGuid
  first := 2048
  last := 133119
  name := List.replicate (n + 1) 65
  used := espGuid_used
  first_lt := sample_lbas_lt.1
  last_lt := sample_lbas_lt.2
  named := List.cons_ne_nil 65 (List.replicate n 65)
  short := hn
  ascii := letters_ascii (n + 1)

theorem gpt_round_trip_letters :
    gptScan true (tableDisk [lettersPartition 3 (by norm_num)] espGuid) =
      [⟨1, 2048, 133119, 0, espGuid.hex, [65, 65, 65, 65]⟩] :=
  (gpt_round_trip (by norm_num) (fun _ ↦ rfl) (tableDisk_header _ espGuid)
    (tableDisk_entries _ espGuid)).2 (by simp [lettersPartition])

/-- A name of 19 characters loses the last one. -/
theorem gpt_name_cut :
    (lettersPartition 18 (by norm_num)).name = List.replicate 19 65 ∧
      gptScan true (tableDisk [lettersPartition 18 (by norm_num)] espGuid) =
        [⟨1, 2048, 133119, 0, espGuid.hex, List.replicate 18 65⟩] :=
  ⟨rfl, gptScan_image (by norm_num) (fun _ ↦ rfl) (tableDisk_header _ espGuid)
    (tableDisk_entries _ espGuid)⟩

end RoundTrip

end NexusOS.Tools
