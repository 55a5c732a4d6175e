import Mathlib
import NexusOS.Tools.Python

namespace NexusOS.Tools

open Lib

section Source

def lfnChecksum (short11 : List UInt8) : ℕ :=
  short11.foldl (fun checksum b ↦
    ((((checksum &&& 1) <<< 7) ||| (checksum >>> 1)) + b.toNat) &&& 0xFF) 0

/-- The tuple `positions`, as the offsets that the two loops go through. -/
def lfnOffsets : List ℕ :=
  [(1, 5), (14, 6), (28, 2)].flatMap fun (offset, amount) ↦
    (List.range amount).map fun j ↦ offset + j * 2

def lfnValue (chunk : List ℕ) (ordinal pos : ℕ) : ℕ :=
  chunk[pos]?.getD (if pos = chunk.length ∧ ordinal = 1 then 0x0000 else 0xFFFF)

/-- The record with a first byte, a checksum and thirteen characters. -/
def lfnPack (first checksum : ℕ) (value : ℕ → ℕ) : Except Stop (List UInt8) := do
  let e ← put 1 (List.replicate 32 0) 0 first
  let e ← put 1 e 11 0x0F
  let e ← put 1 e 12 0
  let e ← put 1 e 13 checksum
  let e ← packInto e 26 [0, 0]
  (lfnOffsets.zipIdx.map fun (offset, pos) ↦ (offset, value pos)).foldlM
    (fun e p ↦ put16 e p.1 p.2) e

/-- The record of one ordinal; a name is the list of its code points. -/
def lfnEntry (name : List ℕ) (count checksum ordinal : ℕ) : Except Stop (List UInt8) :=
  let chunk := slice name ((ordinal - 1) * 13) 13
  lfnPack (ordinal ||| if ordinal = count then 0x40 else 0) checksum (lfnValue chunk ordinal)

def lfnCount (name : List ℕ) : ℕ := max 1 ((name.length + 12) / 13)

def lfnEntries (name : List ℕ) (short11 : List UInt8) : Except Stop (List (List UInt8)) :=
  ((List.range (lfnCount name)).reverse.map (· + 1)).mapM
    (lfnEntry name (lfnCount name) (lfnChecksum short11))

end Source

section Format

def lfnUnits (record : List UInt8) : List ℕ := lfnOffsets.map fun o ↦ ofLe (slice record o 2)

def vfatUnits (name : List ℕ) : List ℕ :=
  if 13 ∣ name.length then name
  else name ++ 0x0000 :: List.replicate (13 * lfnCount name - name.length - 1) 0xFFFF

def vfatChecksum (short11 : List UInt8) : BitVec 8 :=
  short11.foldl (fun c b ↦ c.rotateRight 1 + b.toBitVec) 0

structure Vfat (name : List ℕ) (short11 : List UInt8) (records : List (List UInt8)) : Prop where
  ordinals : records.map (·.getD 0 0) =
    (List.range (lfnCount name)).reverse.map fun k ↦
      UInt8.ofNat (k + 1) ||| if k + 1 = lfnCount name then 0x40 else 0
  checksum : ∀ e ∈ records, (e.getD 13 0).toBitVec = vfatChecksum short11
  units : records.reverse.flatMap lfnUnits = vfatUnits name

end Format

section Record

variable {name : List ℕ} {count checksum ordinal : ℕ}

def lfnFields (first checksum : ℕ) (value : ℕ → ℕ) : List (ℕ × List UInt8) :=
  [(0, toLe 1 first), (11, toLe 1 0x0F), (12, toLe 1 0), (13, toLe 1 checksum), (26, [0, 0])] ++
    (lfnOffsets.zipIdx.map fun (offset, pos) ↦ (offset, value pos)).map fun p ↦ (p.1, toLe 2 p.2)

def lfnRecord (first checksum : ℕ) (value : ℕ → ℕ) : List UInt8 :=
  lay (List.replicate 32 0) (lfnFields first checksum value)

theorem lfnOffsets_eq : lfnOffsets = [1, 3, 5, 7, 9, 14, 16, 18, 20, 22, 24, 28, 30] := rfl

theorem lfnFields_places (first checksum : ℕ) (value : ℕ → ℕ) :
    (lfnFields first checksum value).map (fun f ↦ (f.1, f.2.length)) =
      [(0, 1), (11, 1), (12, 1), (13, 1), (26, 2)] ++ lfnOffsets.map fun o ↦ (o, 2) := by
  simp [lfnFields, lfnOffsets_eq]

theorem lfnFields_fit (first checksum : ℕ) (value : ℕ → ℕ) :
    Fit 32 (lfnFields first checksum value) := by
  have hplaces : ∀ q ∈ (lfnFields first checksum value).map fun f ↦ (f.1, f.2.length),
      q.1 + q.2 ≤ 32 := by
    rw [lfnFields_places]
    decide
  exact fun f hf ↦ hplaces _ (List.mem_map_of_mem hf)

theorem lfnFields_apart (first checksum : ℕ) (value : ℕ → ℕ) :
    (lfnFields first checksum value).Pairwise
      fun f g ↦ f.1 + f.2.length ≤ g.1 ∨ g.1 + g.2.length ≤ f.1 := by
  have hplaces : ((lfnFields first checksum value).map fun f ↦ (f.1, f.2.length)).Pairwise
      fun f g ↦ f.1 + f.2 ≤ g.1 ∨ g.1 + g.2 ≤ f.1 := by
    rw [lfnFields_places]
    decide
  exact List.pairwise_map.1 hplaces

theorem slice_lfnRecord {first checksum offset : ℕ} {value : ℕ → ℕ} {d : List UInt8}
    (hmem : (offset, d) ∈ lfnFields first checksum value) :
    slice (lfnRecord first checksum value) offset d.length = d := by
  refine slice_lay_of_mem ?_ (lfnFields_apart first checksum value) hmem
  rw [List.length_replicate]
  exact lfnFields_fit first checksum value

theorem lfnUnits_record (first checksum : ℕ) {value : ℕ → ℕ} (hvalue : ∀ k, value k < 2 ^ 16) :
    lfnUnits (lfnRecord first checksum value) = (List.range 13).map value := by
  have hunit (k : ℕ) (hk : k < 13) :
      ofLe (slice (lfnRecord first checksum value) (lfnOffsets.getD k 0) 2) = value k := by
    have hmem : (lfnOffsets.getD k 0, toLe 2 (value k)) ∈ lfnFields first checksum value := by
      refine List.mem_append_right _ ?_
      interval_cases k <;> simp [lfnOffsets_eq]
    have hslice := slice_lfnRecord hmem
    rw [length_toLe] at hslice
    rw [hslice, ofLe_toLe (hvalue k)]
  have hoffsets : lfnOffsets = (List.range 13).map fun k ↦ lfnOffsets.getD k 0 := by decide
  calc lfnUnits (lfnRecord first checksum value)
      = ((List.range 13).map fun k ↦ lfnOffsets.getD k 0).map
          fun o ↦ ofLe (slice (lfnRecord first checksum value) o 2) := by rw [← hoffsets, lfnUnits]
    _ = (List.range 13).map value := by
      rw [List.map_map]
      exact List.map_congr_left fun k hk ↦ hunit k (List.mem_range.1 hk)

theorem toLe_one (x : ℕ) : toLe 1 x = [UInt8.ofNat x] := by
  have hbyte : UInt8.ofNat (x % 256) = UInt8.ofNat x := UInt8.toNat_inj.1 (by simp)
  rw [toLe, toLe, hbyte]

theorem getD_of_slice_one {l : List UInt8} {i : ℕ} {b : UInt8} (h : slice l i 1 = [b]) :
    l.getD i 0 = b := by
  have hget : (slice l i 1)[0]? = if 0 < 1 then l[i + 0]? else none := getElem?_slice
  rw [h, if_pos Nat.zero_lt_one, add_zero] at hget
  rw [List.getD_eq_getElem?_getD, ← hget]
  rfl

theorem lfnRecord_first (first checksum : ℕ) (value : ℕ → ℕ) :
    (lfnRecord first checksum value).getD 0 0 = UInt8.ofNat first := by
  have hmem : (0, toLe 1 first) ∈ lfnFields first checksum value := by simp [lfnFields]
  have hslice := slice_lfnRecord hmem
  rw [length_toLe, toLe_one] at hslice
  exact getD_of_slice_one hslice

theorem lfnRecord_checksum (first checksum : ℕ) (value : ℕ → ℕ) :
    (lfnRecord first checksum value).getD 13 0 = UInt8.ofNat checksum := by
  have hmem : (13, toLe 1 checksum) ∈ lfnFields first checksum value := by simp [lfnFields]
  have hslice := slice_lfnRecord hmem
  rw [length_toLe, toLe_one] at hslice
  exact getD_of_slice_one hslice

def lfnPlace (name : List ℕ) (i : ℕ) : ℕ :=
  name[i]?.getD (if i = name.length ∧ i < 13 then 0x0000 else 0xFFFF)

theorem lfnValue_eq (name : List ℕ) {k pos : ℕ} (hpos : pos < 13) :
    lfnValue (slice name (k * 13) 13) (k + 1) pos = lfnPlace name (13 * k + pos) := by
  unfold lfnValue lfnPlace
  rw [getElem?_slice, if_pos hpos, mul_comm k 13]
  cases hget : name[13 * k + pos]? with
  | some v => rfl
  | none =>
    have hlen := List.getElem?_eq_none_iff.1 hget
    have hchunk : (slice name (13 * k) 13).length = min 13 (name.length - 13 * k) := by
      rw [slice, List.length_take, List.length_drop]
    rw [Option.getD_none, Option.getD_none, hchunk]
    refine if_congr ?_ rfl rfl
    omega

end Record

section Results

variable {name : List ℕ} {short11 : List UInt8}

theorem lfnValue_lt (hname : ∀ v ∈ name, v < 2 ^ 16) (i ordinal pos : ℕ) :
    lfnValue (slice name i 13) ordinal pos < 2 ^ 16 := by
  unfold lfnValue
  cases hget : (slice name i 13)[pos]? with
  | some v =>
    have hmem : v ∈ slice name i 13 := List.mem_of_getElem? hget
    exact hname v (List.mem_of_mem_drop (List.mem_of_mem_take hmem))
  | none =>
    rw [Option.getD_none]
    split_ifs <;> decide

theorem lfnPack_eq {first checksum : ℕ} {value : ℕ → ℕ} (hfirst : first < 256)
    (hchecksum : checksum < 256) (hvalue : ∀ k, value k < 2 ^ 16) :
    lfnPack first checksum value = .ok (lfnRecord first checksum value) := by
  have hfit (j : ℕ) : Fit (List.replicate 32 (0 : UInt8)).length
      ((lfnFields first checksum value).take j) := by
    rw [List.length_replicate]
    exact fun f hf ↦ lfnFields_fit first checksum value f (List.mem_of_mem_take hf)
  have h₀ := put_lay [] (show first < 256 ^ 1 by omega)
    (show 0 + 1 ≤ (List.replicate 32 (0 : UInt8)).length by decide) (hfit 0)
  have h₁₁ := put_lay [(0, toLe 1 first)] (show 0x0F < 256 ^ 1 by decide)
    (show 11 + 1 ≤ (List.replicate 32 (0 : UInt8)).length by decide) (hfit 1)
  have h₁₂ := put_lay [(0, toLe 1 first), (11, toLe 1 0x0F)] (show 0 < 256 ^ 1 by decide)
    (show 12 + 1 ≤ (List.replicate 32 (0 : UInt8)).length by decide) (hfit 2)
  have h₁₃ := put_lay [(0, toLe 1 first), (11, toLe 1 0x0F), (12, toLe 1 0)]
    (show checksum < 256 ^ 1 by omega)
    (show 13 + 1 ≤ (List.replicate 32 (0 : UInt8)).length by decide) (hfit 3)
  have h₂₆ : packInto (lay (List.replicate 32 0)
      [(0, toLe 1 first), (11, toLe 1 0x0F), (12, toLe 1 0), (13, toLe 1 checksum)]) 26 [0, 0] =
      .ok (lay (List.replicate 32 0) ((lfnFields first checksum value).take 5)) := by
    have hlen := length_lay (hfit 4)
    refine packInto_eq ?_
    exact (show 26 + 2 ≤ 32 by decide).trans_eq (hlen.trans List.length_replicate).symm
  have hunits : ∀ p ∈ lfnOffsets.zipIdx.map (fun (offset, pos) ↦ (offset, value pos)),
      p.2 < 256 ^ 2 ∧ p.1 + 2 ≤ (List.replicate 32 (0 : UInt8)).length := by
    intro p hp
    obtain ⟨⟨offset, pos⟩, hmem, rfl⟩ := List.mem_map.1 hp
    have hoffset : ∀ q ∈ lfnOffsets.zipIdx, q.1 + 2 ≤ 32 := by decide
    rw [List.length_replicate]
    exact ⟨hvalue pos, hoffset (offset, pos) hmem⟩
  have hputs := puts_eq ((lfnFields first checksum value).take 5) hunits (hfit 5)
  have hstart : put 1 (List.replicate 32 0) 0 first =
      .ok (lay (List.replicate 32 0) [(0, toLe 1 first)]) := h₀
  simp only [List.cons_append, List.nil_append] at h₁₁ h₁₂ h₁₃
  rw [lfnPack, hstart, ok_bind, h₁₁, ok_bind, h₁₂, ok_bind, h₁₃, ok_bind, h₂₆, ok_bind]
  exact hputs

theorem lfnEntry_eq {count checksum k : ℕ} (hname : ∀ v ∈ name, v < 2 ^ 16) (hk : k < 63)
    (hchecksum : checksum < 256) :
    lfnEntry name count checksum (k + 1) = .ok (lfnRecord
      ((k + 1) ||| if k + 1 = count then 0x40 else 0) checksum
      (lfnValue (slice name (k * 13) 13) (k + 1))) := by
  refine lfnPack_eq ?_ hchecksum (lfnValue_lt hname (k * 13) (k + 1))
  split_ifs
  · exact Nat.or_lt_two_pow (n := 8) (by omega) (by decide)
  rw [Nat.or_zero]
  omega

theorem flatMap_places (f : ℕ → ℕ) (count : ℕ) :
    ((List.range count).flatMap fun k ↦ (List.range 13).map fun pos ↦ f (13 * k + pos)) =
      (List.range (13 * count)).map f := by
  induction count with
  | zero => rfl
  | succ count ih =>
    rw [List.range_succ (n := count), List.flatMap_append, ih, Nat.mul_succ, List.range_add,
      List.map_append, List.map_map, List.flatMap_singleton]
    rfl

theorem lfnChecksum_step (c : ℕ) (b : UInt8) (hc : c < 256) :
    ((((c &&& 1) <<< 7) ||| (c >>> 1)) + b.toNat) &&& 0xFF =
      ((BitVec.ofNat 8 c).rotateRight 1 + b.toBitVec).toNat := by
  have hrotate : ∀ c < 256, ((c &&& 1) <<< 7) ||| (c >>> 1) =
      ((BitVec.ofNat 8 c).rotateRight 1).toNat := by decide +kernel
  rw [hrotate c hc, BitVec.toNat_add]
  exact Nat.and_two_pow_sub_one_eq_mod _ 8

theorem lfnChecksum_eq (short11 : List UInt8) :
    lfnChecksum short11 = (vfatChecksum short11).toNat := by
  have hfold (bytes : List UInt8) (c : BitVec 8) :
      bytes.foldl (fun checksum b ↦
        ((((checksum &&& 1) <<< 7) ||| (checksum >>> 1)) + b.toNat) &&& 0xFF) c.toNat =
      (bytes.foldl (fun c b ↦ c.rotateRight 1 + b.toBitVec) c).toNat := by
    induction bytes generalizing c with
    | nil => rfl
    | cons b bytes ih =>
      rw [List.foldl_cons, List.foldl_cons, lfnChecksum_step c.toNat b c.isLt, BitVec.ofNat_toNat,
        BitVec.setWidth_eq]
      exact ih _
  exact hfold short11 0

def nameRecord (name : List ℕ) (short11 : List UInt8) (k : ℕ) : List UInt8 :=
  lfnRecord ((k + 1) ||| if k + 1 = lfnCount name then 0x40 else 0) (lfnChecksum short11)
    (lfnValue (slice name (k * 13) 13) (k + 1))

theorem lfnEntries_eq (hname : ∀ v ∈ name, v < 2 ^ 16) (hlen : name.length ≤ 255)
    (short11 : List UInt8) : lfnEntries name short11 =
      .ok ((List.range (lfnCount name)).reverse.map (nameRecord name short11)) := by
  have hcount : lfnCount name < 63 := by
    unfold lfnCount
    omega
  have hchecksum : lfnChecksum short11 < 256 := by
    rw [lfnChecksum_eq]
    exact (vfatChecksum short11).isLt
  have hmap (ks : List ℕ) (hks : ∀ k ∈ ks, k < 63) :
      (ks.map (· + 1)).mapM (lfnEntry name (lfnCount name) (lfnChecksum short11)) =
        .ok (ks.map (nameRecord name short11)) := by
    induction ks with
    | nil => rfl
    | cons k ks ih =>
      obtain ⟨hk, hrest⟩ := List.forall_mem_cons.1 hks
      rw [List.map_cons, List.mapM_cons, lfnEntry_eq hname hk hchecksum, ok_bind, ih hrest, ok_bind]
      rfl
  refine hmap _ fun k hk ↦ ?_
  have := List.mem_range.1 (List.mem_reverse.1 hk)
  omega

theorem records_units (hname : ∀ v ∈ name, v < 2 ^ 16) (short11 : List UInt8) :
    ((List.range (lfnCount name)).reverse.map (nameRecord name short11)).reverse.flatMap lfnUnits =
      (List.range (13 * lfnCount name)).map (lfnPlace name) := by
  rw [← List.map_reverse, List.reverse_reverse, List.flatMap_map, ← flatMap_places]
  refine List.flatMap_congr fun k _ ↦ ?_
  rw [nameRecord, lfnUnits_record _ _ (lfnValue_lt hname (k * 13) (k + 1))]
  exact List.map_congr_left fun pos hpos ↦ lfnValue_eq name (List.mem_range.1 hpos)

theorem vfatUnits_eq (hpos : 1 ≤ name.length) :
    vfatUnits name = (List.range (13 * lfnCount name)).map fun i ↦
      name[i]?.getD (if i = name.length then 0x0000 else 0xFFFF) := by
  have hcount : lfnCount name = (name.length + 12) / 13 := max_eq_right (by omega)
  apply List.ext_getElem?
  intro i
  rw [List.getElem?_map]
  by_cases hi : i < 13 * lfnCount name
  · rw [List.getElem?_range hi, Option.map_some]
    unfold vfatUnits
    split_ifs with hdvd hend hend
    · omega
    · rw [List.getElem?_eq_getElem (by omega)]
      rfl
    · rw [hend, List.getElem?_append_right le_rfl, Nat.sub_self, List.getElem?_eq_none le_rfl]
      rfl
    by_cases hlt : i < name.length
    · rw [List.getElem?_append_left hlt, List.getElem?_eq_getElem hlt]
      rfl
    obtain ⟨j, hj⟩ : ∃ j, i - name.length = j + 1 := ⟨i - name.length - 1, by omega⟩
    rw [List.getElem?_append_right (by omega), hj, List.getElem?_cons_succ,
      List.getElem?_replicate, if_pos (by omega), List.getElem?_eq_none (by omega)]
    rfl
  · rw [List.getElem?_eq_none (l := List.range _) (by rw [List.length_range]; omega),
      Option.map_none]
    refine List.getElem?_eq_none ?_
    unfold vfatUnits
    split_ifs with hdvd
    · omega
    rw [List.length_append, List.length_cons, List.length_replicate]
    omega

theorem units_iff (hpos : 1 ≤ name.length) :
    (List.range (13 * lfnCount name)).map (lfnPlace name) = vfatUnits name ↔
      name.length ≤ 13 ∨ 13 ∣ name.length := by
  have hcount : lfnCount name = (name.length + 12) / 13 := max_eq_right (by omega)
  rw [vfatUnits_eq hpos, List.map_inj_left]
  constructor
  · intro hplaces
    by_contra hlong
    have hend := hplaces name.length (List.mem_range.2 (by omega))
    rw [lfnPlace, List.getElem?_eq_none le_rfl, Option.getD_none, Option.getD_none,
      if_neg (by omega), if_pos rfl] at hend
    exact absurd hend (by decide)
  intro hshort i hi
  have hlt := List.mem_range.1 hi
  unfold lfnPlace
  congr 1
  refine if_congr ?_ rfl rfl
  omega

theorem records_ordinals (hlen : name.length ≤ 255) (short11 : List UInt8) :
    ((List.range (lfnCount name)).reverse.map (nameRecord name short11)).map (·.getD 0 0) =
      (List.range (lfnCount name)).reverse.map fun k ↦
        UInt8.ofNat (k + 1) ||| if k + 1 = lfnCount name then 0x40 else 0 := by
  have hmark : ∀ k < 63, UInt8.ofNat ((k + 1) ||| 0x40) = UInt8.ofNat (k + 1) ||| 0x40 := by decide
  rw [List.map_map]
  refine List.map_congr_left fun k hk ↦ ?_
  have hcount : lfnCount name < 63 := by
    unfold lfnCount
    omega
  have hk' := List.mem_range.1 (List.mem_reverse.1 hk)
  rw [Function.comp_apply, nameRecord, lfnRecord_first]
  split_ifs
  · exact hmark k (by omega)
  · rw [Nat.or_zero, UInt8.or_zero]

theorem records_checksum (name : List ℕ) (short11 : List UInt8) :
    ∀ e ∈ (List.range (lfnCount name)).reverse.map (nameRecord name short11),
      (e.getD 13 0).toBitVec = vfatChecksum short11 := by
  intro e he
  obtain ⟨k, -, rfl⟩ := List.mem_map.1 he
  rw [nameRecord, lfnRecord_checksum, lfnChecksum_eq]
  exact BitVec.eq_of_toNat_eq (by simp)

/-- The records are those of the format exactly for a name of at most 13 characters or of a
multiple of 13. -/
theorem long_name_encoded (name : List ℕ) (short11 : List UInt8) (hpos : 1 ≤ name.length)
    (hlen : name.length ≤ 255) (hname : ∀ v ∈ name, v < 2 ^ 16) :
    ∃ records, lfnEntries name short11 = .ok records ∧
      (Vfat name short11 records ↔ name.length ≤ 13 ∨ 13 ∣ name.length) := by
  refine ⟨_, lfnEntries_eq hname hlen short11, ?_⟩
  rw [← units_iff hpos, ← records_units hname short11]
  exact ⟨fun h ↦ h.units, fun h ↦
    ⟨records_ordinals hlen short11, records_checksum name short11, h⟩⟩

theorem long_name_encoded_short :
    ∃ records, lfnEntries [107, 101, 114, 110, 101, 108] (ascii "KERNEL     ") = .ok records ∧
      (Vfat [107, 101, 114, 110, 101, 108] (ascii "KERNEL     ") records ↔
        [107, 101, 114, 110, 101, 108].length ≤ 13 ∨ 13 ∣ [107, 101, 114, 110, 101, 108].length) :=
  long_name_encoded _ _ (by decide) (by decide) (by decide)

/-- A name of fourteen characters: the second record has no end. -/
theorem long_name_unterminated :
    (lfnEntries (List.replicate 14 97) (ascii "AAAAAA~1   ")).toOption.map
        (fun records ↦ records.reverse.flatMap lfnUnits) =
      some (List.replicate 14 97 ++ List.replicate 12 0xFFFF) ∧
    vfatUnits (List.replicate 14 97) =
      List.replicate 14 97 ++ 0x0000 :: List.replicate 11 0xFFFF := by
  refine ⟨?_, by decide⟩
  rw [lfnEntries_eq (by decide) (by decide)]
  refine congrArg some ((records_units (by decide) _).trans ?_)
  decide

end Results

end NexusOS.Tools
