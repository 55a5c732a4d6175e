import NexusOS.Boot.LoadElf

namespace NexusOS.Boot

open Lib

variable {file : List UInt8} {eh : Ehdr} {ph : Phdr} {phs : List Phdr} {s s' : Scan} {g : Region}
  {mem mem₀ mem' : Mem} {img : Mem} {off n : ℕ} {bytes : List UInt8}

section Headers

/-- The program headers at a distance of `stride` from each other. -/
def phdrsAt (file : List UInt8) (eh : Ehdr) (stride : ℕ) : List Phdr :=
  (List.range eh.phnum).map fun i ↦ phdrOf (slice file (eh.phoff + i * stride) 56)

theorem fileAt_eq (h : off + n ≤ file.length) : fileAt file off n = .ok (slice file off n) := if_pos h

theorem checkEhdr_ensures (file : List UInt8) :
    Ensures (· ≠ Fault.wild) (checkEhdr file) fun eh ↦ eh = ehdrOf (slice file 0 64) ∧
      56 ≤ eh.phentsize ∧ eh.phoff + eh.phnum * eh.phentsize ≤ file.length := by
  unfold checkEhdr
  refine .ite (fun _ ↦ .error (by simp)) fun hlen ↦ ?_
  rw [fileAt_eq (by omega)]
  refine .ite (fun _ ↦ .error (by simp)) fun _ ↦ ?_
  refine .ite (fun _ ↦ .error (by simp)) fun _ ↦ ?_
  refine .ite (fun _ ↦ .error (by simp)) fun _ ↦ ?_
  refine .ite (fun _ ↦ .error (by simp)) fun hent ↦ ?_
  refine .ite (fun _ ↦ .error (by simp)) fun hoff ↦ ?_
  refine .ok ⟨rfl, by omega, ?_⟩
  have hfit := Nat.mul_le_of_le_div _ _ _ (show _ ≤ _ by omega : (ehdrOf (slice file 0 64)).phnum ≤
    (file.length - (ehdrOf (slice file 0 64)).phoff) / (ehdrOf (slice file 0 64)).phentsize)
  omega

theorem phdrs_eq (hent : 56 ≤ eh.phentsize)
    (hfit : eh.phoff + eh.phnum * eh.phentsize ≤ file.length) :
    phdrs file eh = .ok (phdrsAt file eh 56) := by
  have hread : ∀ i ∈ List.range eh.phnum, (do
      let b ← fileAt file (eh.phoff + i * 56) 56
      return phdrOf b : Except Fault Phdr) = .ok (phdrOf (slice file (eh.phoff + i * 56) 56)) := by
    intro i hi
    have hle : (i + 1) * 56 ≤ eh.phnum * eh.phentsize := Nat.mul_le_mul (List.mem_range.1 hi) hent
    rw [fileAt_eq (by omega)]
    rfl
  rw [phdrs, phdrsAt]
  generalize List.range eh.phnum = l at hread ⊢
  induction l with
  | nil => rfl
  | cons i l ih =>
    rw [List.mapM_cons, hread i List.mem_cons_self, ih fun j hj ↦ hread j (List.mem_cons_of_mem i hj)]
    rfl

end Headers

section Scan

structure Phdr.Sound (fileSize : ℕ) (ph : Phdr) : Prop where
  inFile : ph.offset + ph.filesz ≤ fileSize
  filesz : ph.filesz ≤ ph.memsz

def dynamicOf (phs : List Phdr) : ℕ × ℕ :=
  phs.foldl (fun d ph ↦ if ph.type = ptDynamic then (ph.vaddr, ph.memsz) else d) (0, 0)

structure Scanned (fileSize : ℕ) (phs : List Phdr) (s : Scan) : Prop where
  loads : ∀ ph ∈ phs, ph.type = ptLoad →
    ph.Sound fileSize ∧ s.minVaddr ≤ ph.vaddr ∧ ph.vaddr + ph.memsz ≤ s.maxVaddr
  dynamic : (s.dynVaddr, s.dynSize) = dynamicOf phs

theorem alignUp4kChecked_ge {x : ℕ} (h : alignUp4kChecked x ≠ 0) : x ≤ alignUp4kChecked x := by
  unfold alignUp4kChecked at h ⊢
  split_ifs at h ⊢
  all_goals omega

theorem scanPhdr_ensures {fileSize : ℕ} (h : Scanned fileSize phs s) (ph : Phdr) :
    Ensures (· ≠ Fault.wild) (scanPhdr fileSize s ph) (Scanned fileSize (phs ++ [ph])) := by
  have hdynamic := h.dynamic
  have hnext : dynamicOf (phs ++ [ph]) =
      if ph.type = ptDynamic then (ph.vaddr, ph.memsz) else dynamicOf phs := by
    rw [dynamicOf, List.foldl_append]
    rfl
  unfold scanPhdr
  refine .ite (fun htype ↦ .ok ⟨?_, ?_⟩) fun htype ↦ ?_
  · intro q hq hload
    rcases List.mem_append.1 hq with hq | hq
    · exact h.loads q hq hload
    rw [List.mem_singleton.1 hq, htype] at hload
    exact absurd hload (by decide)
  · rw [hnext, if_pos htype]
  rw [if_neg htype] at hnext
  refine .ite (fun hskip ↦ .ok ⟨?_, hdynamic.trans hnext.symm⟩) fun _ ↦ ?_
  · intro q hq hload
    rcases List.mem_append.1 hq with hq | hq
    · exact h.loads q hq hload
    rw [List.mem_singleton.1 hq] at hload
    exact absurd hload hskip
  refine .ite (fun _ ↦ .error (by simp)) fun hsizes ↦ ?_
  refine .ite (fun _ ↦ .error (by simp)) fun hrange ↦ ?_
  refine .ok ⟨?_, hdynamic.trans hnext.symm⟩
  intro q hq hload
  dsimp only
  rcases List.mem_append.1 hq with hq | hq
  · obtain ⟨hsound, hmin, hmax⟩ := h.loads q hq hload
    exact ⟨hsound, (min_le_right _ _).trans hmin, hmax.trans (le_max_right _ _)⟩
  obtain rfl := List.mem_singleton.1 hq
  rw [not_or] at hrange
  have hend := alignUp4kChecked_ge hrange.1
  have hstart : alignDown4k q.vaddr ≤ q.vaddr := Nat.div_mul_le_self _ _
  exact ⟨⟨by omega, by omega⟩, (min_le_left _ _).trans hstart, hend.trans (le_max_left _ _)⟩

theorem scanPhdrs_ensures (fileSize : ℕ) (phs : List Phdr) :
    Ensures (· ≠ Fault.wild) (phs.foldlM (scanPhdr fileSize) ⟨0, 2 ^ 64 - 1, 0, 0, 0⟩)
      (Scanned fileSize phs) :=
  Ensures.foldlM (I := Scanned fileSize) ⟨by simp, rfl⟩ fun _ ph _ _ _ hs ↦ scanPhdr_ensures hs ph

theorem imageSize_ensures (s : Scan) :
    Ensures (· ≠ Fault.wild) (imageSize s) fun size ↦ s.minVaddr = kernelLinkBase ∧
      size = s.maxVaddr - s.minVaddr ∧ 4096 ≤ size ∧ size < 2 ^ 32 ∧ size / 4096 * 4096 = size := by
  unfold imageSize
  refine .ite (fun _ ↦ .error (by simp)) fun _ ↦ ?_
  refine .ite (fun _ ↦ .error (by simp)) fun hlayout ↦ ?_
  refine .ite (fun _ ↦ .error (by simp)) fun hsize ↦ ?_
  refine .ok ⟨by omega, rfl, by omega, by omega, by omega⟩

end Scan

section Memory

/-- The region holds the image, and the rest of the memory is as it was. -/
structure Holds (g : Region) (mem₀ img mem : Mem) : Prop where
  inside : ∀ off < g.size, mem (g.base + off) = img off
  outside : ∀ a, a < g.base ∨ g.base + g.size ≤ a → mem a = mem₀ a

theorem Holds.read (h : Holds g mem₀ img mem) (hfit : off + n ≤ g.size) :
    g.read mem (g.base + off) n = .ok (window img off n) := by
  rw [Region.read, if_pos (by omega)]
  congr 1
  refine window_congr fun k hk ↦ ?_
  rw [Nat.add_assoc]
  exact h.inside (off + k) (by omega)

theorem Holds.write (h : Holds g mem₀ img mem) (off : ℕ) (bytes : List UInt8)
    (hfit : off + bytes.length ≤ g.size) :
    Ensures (· ≠ Fault.wild) (g.write mem (g.base + off) bytes)
      (Holds g mem₀ (overlay img off bytes)) := by
  rw [Region.write, if_pos (by omega)]
  refine .ok ⟨?_, ?_⟩
  · intro k hk
    have hshift := congrFun (overlay_shift mem g.base off bytes) k
    rw [hshift]
    by_cases hin : off ≤ k ∧ k < off + bytes.length
    · obtain ⟨j, rfl⟩ := Nat.exists_eq_add_of_le hin.1
      rw [overlay_add (by omega), overlay_add (by omega)]
    rw [overlay_of_not_mem (by omega), overlay_of_not_mem (by omega)]
    exact h.inside k hk
  intro a ha
  rw [overlay_of_not_mem (by omega)]
  exact h.outside a ha

theorem Region.clear (g : Region) (mem : Mem) :
    Ensures (· ≠ Fault.wild) (g.write mem g.base (List.replicate g.size 0))
      (Holds g mem fun _ ↦ 0) := by
  rw [Region.write, if_pos (by simp)]
  refine .ok ⟨?_, ?_⟩
  · intro k hk
    rw [overlay_add (by rwa [List.length_replicate]), List.getElem_replicate]
  intro a ha
  exact overlay_of_not_mem (by rwa [List.length_replicate])

end Memory

section Segments

/-- The image that the segments describe: each one contributes its bytes, over those before it. -/
def segmentImage (file : List UInt8) (phs : List Phdr) : Mem :=
  phs.foldl (fun img ph ↦ if ph.type = ptLoad then
    overlay img (ph.vaddr - kernelLinkBase) (slice file ph.offset ph.filesz) else img) fun _ ↦ 0

theorem segmentImage_snoc (file : List UInt8) (phs : List Phdr) (ph : Phdr) :
    segmentImage file (phs ++ [ph]) = if ph.type = ptLoad then
      overlay (segmentImage file phs) (ph.vaddr - kernelLinkBase) (slice file ph.offset ph.filesz)
      else segmentImage file phs := by
  rw [segmentImage, List.foldl_append]
  rfl

theorem copySegment_ensures (hbase : g.base + g.size < 2 ^ 64)
    (hload : ph.type = ptLoad → ph.Sound file.length ∧ kernelLinkBase ≤ ph.vaddr ∧
      ph.vaddr + ph.memsz ≤ kernelLinkBase + g.size)
    (h : Holds g mem₀ (segmentImage file phs) mem) :
    Ensures (· ≠ Fault.wild) (copySegment file g kernelLinkBase mem ph)
      (Holds g mem₀ (segmentImage file (phs ++ [ph]))) := by
  rw [segmentImage_snoc]
  unfold copySegment
  refine .ite (fun hskip ↦ .ok ?_) fun hcopy ↦ ?_
  · split_ifs with htype
    · have hempty : ph.filesz = 0 := hskip.resolve_left fun hne ↦ hne htype
      rwa [hempty, slice, List.take_zero, overlay_nil]
    · exact h
  rw [not_or, not_not] at hcopy
  have hchecked := hload hcopy.1
  have hmin := hchecked.2.1
  have hmax := hchecked.2.2
  have hinFile := hchecked.1.inFile
  have hfilesz := hchecked.1.filesz
  have hoffset : (ph.vaddr + 2 ^ 64 - kernelLinkBase) % 2 ^ 64 = ph.vaddr - kernelLinkBase := by
    omega
  have haddr : (g.base + (ph.vaddr - kernelLinkBase)) % 2 ^ 64 =
      g.base + (ph.vaddr - kernelLinkBase) := Nat.mod_eq_of_lt (by omega)
  dsimp only
  rw [hoffset, haddr]
  refine .ite (fun _ ↦ .error (by simp)) fun _ ↦ ?_
  have hlen : (slice file ph.offset ph.filesz).length = ph.filesz := length_slice hinFile
  rw [if_pos hcopy.1, fileAt_eq hinFile, ok_bind]
  exact h.write (ph.vaddr - kernelLinkBase) (slice file ph.offset ph.filesz) (by omega)

theorem copySegments_ensures (hbase : g.base + g.size < 2 ^ 64)
    (hload : ∀ ph ∈ phs, ph.type = ptLoad → ph.Sound file.length ∧ kernelLinkBase ≤ ph.vaddr ∧
      ph.vaddr + ph.memsz ≤ kernelLinkBase + g.size)
    (h : Holds g mem₀ (fun _ ↦ 0) mem) :
    Ensures (· ≠ Fault.wild) (phs.foldlM (copySegment file g kernelLinkBase) mem)
      (Holds g mem₀ (segmentImage file phs)) := by
  refine Ensures.foldlM (I := fun phs ↦ Holds g mem₀ (segmentImage file phs)) h ?_
  intro before ph after mem hphs hmem
  refine copySegment_ensures hbase (hload ph ?_) hmem
  rw [hphs]
  exact List.mem_append_right before List.mem_cons_self

end Segments

section Relocations

/-- The entries of a dynamic section up to its end, as tags and values. -/
def dynEntries (img : Mem) (off n : ℕ) : List (ℕ × ℕ) :=
  ((List.range n).map fun i ↦ (field (window img (off + i * 16) 16) 0 8,
    field (window img (off + i * 16) 16) 8 8)).takeWhile (·.1 ≠ 0)

def relaOf (img : Mem) (off n : ℕ) : Rela :=
  (dynEntries img off n).foldl (fun r e ↦ r.tag e.1 e.2) ⟨0, 0, 24⟩

theorem dynEntries_succ (img : Mem) (off n : ℕ) :
    dynEntries img off (n + 1) =
      if field (window img off 16) 0 8 = 0 then []
      else (field (window img off 16) 0 8, field (window img off 16) 8 8) ::
        dynEntries img (off + 16) n := by
  rw [dynEntries, List.range_succ_eq_map, List.map_cons, List.takeWhile_cons, List.map_map,
    Nat.zero_mul, Nat.add_zero]
  by_cases hzero : field (window img off 16) 0 8 = 0
  · rw [if_pos hzero, if_neg (by simp [hzero])]
  have hnext (i : ℕ) : off + i.succ * 16 = off + 16 + i * 16 := by omega
  simp only [Function.comp_def, hnext]
  rw [if_neg hzero, if_pos (by simp [hzero]), dynEntries]

theorem dynLoop_eq (h : Holds g mem₀ img mem) (r : Rela) (hfit : off + n * 16 ≤ g.size) :
    dynLoop g mem n (g.base + off) r =
      .ok ((dynEntries img off n).foldl (fun r e ↦ r.tag e.1 e.2) r) := by
  induction n generalizing off r with
  | zero => rfl
  | succ n ih =>
    rw [dynLoop, h.read (by omega), ok_bind, dynEntries_succ]
    split_ifs with hzero
    · rfl
    · rw [Nat.add_assoc, ih _ (by omega), List.foldl_cons]

variable {link : ℕ}

def relocValue (base link : ℕ) (e : List UInt8) : ℕ :=
  (base + 2 ^ 64 - link + field e 16 8) % 2 ^ 64

def relocStep (base link : ℕ) (img : Mem) (e : List UInt8) : Mem :=
  overlay img (field e 0 8 - link) (toLe 8 (relocValue base link e))

/-- The image after the `n` relocations at `off`, each taken as it stands when its turn comes. -/
def relocate (base link : ℕ) : ℕ → ℕ → Mem → Mem
  | 0, _, img => img
  | n + 1, off, img => relocate base link n (off + 24) (relocStep base link img (window img off 24))

/-- A relocation of the supported type whose target is in the image. -/
structure Relative (link size : ℕ) (e : List UInt8) : Prop where
  type : field e 8 8 % 2 ^ 32 = 8
  low : link ≤ field e 0 8
  high : field e 0 8 - link + 8 ≤ size

/-- All relocations of the table are supported when their turn comes. -/
def AllRelative (base link size : ℕ) : ℕ → ℕ → Mem → Prop
  | 0, _, _ => True
  | n + 1, off, img => Relative link size (window img off 24) ∧
      AllRelative base link size n (off + 24) (relocStep base link img (window img off 24))

theorem relaLoop_ensures (hbase : g.base + g.size < 2 ^ 64) (hsize : 8 ≤ g.size)
    (h : Holds g mem₀ img mem) (hfit : off + n * 24 ≤ g.size) :
    Ensures (· ≠ Fault.wild) (relaLoop g link link n (g.base + off) mem)
      fun r ↦ r.1 = true → AllRelative g.base link g.size n off img ∧
        Holds g mem₀ (relocate g.base link n off img) r.2 := by
  induction n generalizing off img mem with
  | zero => exact .ok fun _ ↦ ⟨trivial, h⟩
  | succ n ih =>
    rw [relaLoop, h.read (by omega), ok_bind]
    refine .ite (fun _ ↦ .error (by simp)) fun htype ↦ ?_
    refine .ite (fun _ ↦ .ok fun hfalse ↦ (Bool.false_ne_true hfalse).elim) fun htarget ↦ ?_
    have hrelative : Relative link g.size (window img off 24) := ⟨by omega, by omega, by omega⟩
    have haddr : (g.base + (field (window img off 24) 0 8 - link)) % 2 ^ 64 =
        g.base + (field (window img off 24) 0 8 - link) := Nat.mod_eq_of_lt (by omega)
    rw [haddr]
    refine (h.write _ _ (by rw [length_toLe]; omega)).bind fun mem' hmem' ↦ ?_
    rw [Nat.add_assoc]
    refine (ih hmem' (by omega)).mono fun r hr htrue ↦ ?_
    obtain ⟨hall, hholds⟩ := hr htrue
    exact ⟨⟨hrelative, hall⟩, hholds⟩

def relaEntries (img : Mem) (off n : ℕ) : List (List UInt8) :=
  (List.range n).map fun i ↦ window img (off + i * 24) 24

theorem relaEntries_succ (img : Mem) (off n : ℕ) :
    relaEntries img off (n + 1) = window img off 24 :: relaEntries img (off + 24) n := by
  have hnext (i : ℕ) : off + i.succ * 24 = off + 24 + i * 24 := by omega
  rw [relaEntries, List.range_succ_eq_map, List.map_cons, List.map_map, Nat.zero_mul, Nat.add_zero]
  simp only [Function.comp_def, hnext]
  rw [relaEntries]

theorem relocate_eq_foldl {base : ℕ} (h : ∀ e ∈ relaEntries img off n,
    field e 0 8 - link + 8 ≤ off ∨ off + n * 24 ≤ field e 0 8 - link) :
    relocate base link n off img = (relaEntries img off n).foldl (relocStep base link) img := by
  induction n generalizing off img with
  | zero => rfl
  | succ n ih =>
    rw [relaEntries_succ] at h ⊢
    have hfirst := h _ List.mem_cons_self
    have hsame : relaEntries (relocStep base link img (window img off 24)) (off + 24) n =
        relaEntries img (off + 24) n := by
      refine List.map_congr_left fun i hi ↦ window_overlay_of_disjoint ?_
      have hlt := List.mem_range.1 hi
      rw [length_toLe]
      omega
    rw [relocate, List.foldl_cons, ← hsame]
    refine ih ?_
    intro e he
    rw [hsame] at he
    have htarget := h e (List.mem_cons_of_mem _ he)
    omega

section Table

variable (base link size : ℕ) (dyn : ℕ × ℕ) (img : Mem)

/-- The table of relocations that the dynamic section `dyn` of an image names. -/
def relaTable : Rela := relaOf img (dyn.1 - link) (dyn.2 / 16)

def relocated : Mem :=
  relocate base link ((relaTable link dyn img).size / 24) ((relaTable link dyn img).vaddr - link) img

def Supported : Prop :=
  AllRelative base link size ((relaTable link dyn img).size / 24)
    ((relaTable link dyn img).vaddr - link) img

def tableEntries : List (List UInt8) :=
  relaEntries img ((relaTable link dyn img).vaddr - link) ((relaTable link dyn img).size / 24)

def Apart : Prop :=
  ∀ e ∈ tableEntries link dyn img, field e 0 8 - link + 8 ≤ (relaTable link dyn img).vaddr - link ∨
    (relaTable link dyn img).vaddr - link + (relaTable link dyn img).size / 24 * 24 ≤
      field e 0 8 - link

end Table

theorem applyRelativeRelocations_ensures (dyn : ℕ × ℕ) (hbase : g.base + g.size < 2 ^ 64)
    (hsize : 8 ≤ g.size) (h : Holds g mem₀ img mem) :
    Ensures (· ≠ Fault.wild) (applyRelativeRelocations g link dyn.1 dyn.2 link mem)
      fun r ↦ r.1 = true → Supported g.base link g.size dyn img ∧
        Holds g mem₀ (relocated g.base link dyn img) r.2 := by
  have hrefused : Ensures (· ≠ Fault.wild) (.ok (false, mem))
      fun r : Bool × Mem ↦ r.1 = true → Supported g.base link g.size dyn img ∧
        Holds g mem₀ (relocated g.base link dyn img) r.2 :=
    .ok fun hfalse ↦ (Bool.false_ne_true hfalse).elim
  rw [applyRelativeRelocations]
  refine .ite (fun _ ↦ hrefused) fun _ ↦ ?_
  refine .ite (fun _ ↦ hrefused) fun hlow ↦ ?_
  refine .ite (fun _ ↦ hrefused) fun hhigh ↦ ?_
  have hdyn : (g.base + (dyn.1 - link)) % 2 ^ 64 = g.base + (dyn.1 - link) :=
    Nat.mod_eq_of_lt (by omega)
  rw [hdyn, dynLoop_eq h _ (by omega), ok_bind, ← relaOf, ← relaTable]
  rw [Supported, relocated] at hrefused ⊢
  generalize relaTable link dyn img = r at hrefused ⊢
  refine .ite (fun hzero ↦ .ok fun _ ↦ ?_) fun _ ↦ ?_
  · rw [hzero]
    exact ⟨trivial, h⟩
  refine .ite (fun _ ↦ hrefused) fun hent ↦ ?_
  refine .ite (fun _ ↦ hrefused) fun hlow' ↦ ?_
  refine .ite (fun _ ↦ hrefused) fun hhigh' ↦ ?_
  have htable : (g.base + (r.vaddr - link)) % 2 ^ 64 = g.base + (r.vaddr - link) :=
    Nat.mod_eq_of_lt (by omega)
  have hent' : r.ent = 24 := by omega
  rw [htable, hent']
  exact relaLoop_ensures hbase hsize h (by omega)

end Relocations

section Load

def ehdr (file : List UInt8) : Ehdr := ehdrOf (slice file 0 64)

def described (file : List UInt8) : List Phdr := phdrsAt file (ehdr file) (ehdr file).phentsize

def describedImage (file : List UInt8) : Mem := segmentImage file (described file)

/-- The headers that the loader takes, at a distance of `sizeof(Elf64_Phdr)`. -/
def taken (file : List UInt8) : List Phdr := phdrsAt file (ehdr file) 56

/-- The headers that the loader does something with. -/
def kept (phs : List Phdr) : List Phdr := phs.filter fun ph ↦ ph.type = ptLoad ∨ ph.type = ptDynamic

theorem segmentImage_kept (file : List UInt8) (phs : List Phdr) :
    segmentImage file (kept phs) = segmentImage file phs := by
  rw [segmentImage, segmentImage, kept, List.foldl_filter]
  congr
  funext img ph
  by_cases hload : ph.type = ptLoad
  · simp [hload]
  · simp [hload]

theorem dynamicOf_kept (phs : List Phdr) : dynamicOf (kept phs) = dynamicOf phs := by
  rw [dynamicOf, dynamicOf, kept, List.foldl_filter]
  congr
  funext d ph
  by_cases hdynamic : ph.type = ptDynamic
  · simp [hdynamic]
  · simp [hdynamic]

/-- What the loader leaves in memory and returns, of the file and the memory it started with. -/
structure Built (allocatePages : ℕ → Option ℕ) (file : List UInt8) (mem₀ : Mem) (r : LoadResult)
    (mem : Mem) : Prop where
  pages : allocatePages (r.imageSize / 4096) = some r.physBase
  link : r.linkBase = kernelLinkBase
  physEnd : r.physEnd = r.physBase + r.imageSize
  outside : ∀ a, a < r.physBase ∨ r.physEnd ≤ a → mem a = mem₀ a
  entryOffset : r.linkBase ≤ (ehdr file).entry ∧ (ehdr file).entry - r.linkBase < r.imageSize
  entry : r.entry = r.physBase + ((ehdr file).entry - r.linkBase)
  supported : Supported r.physBase r.linkBase r.imageSize (dynamicOf (taken file))
    (segmentImage file (taken file))
  image : ∀ off < r.imageSize, mem (r.physBase + off) =
    relocated r.physBase r.linkBase (dynamicOf (taken file)) (segmentImage file (taken file)) off

/-- The image is the one that the file describes. -/
structure AsDescribed (file : List UInt8) (r : LoadResult) (mem : Mem) : Prop where
  supported : Supported r.physBase r.linkBase r.imageSize (dynamicOf (described file))
    (describedImage file)
  image : ∀ off < r.imageSize, mem (r.physBase + off) =
    relocated r.physBase r.linkBase (dynamicOf (described file)) (describedImage file) off
  inOrder : Apart r.linkBase (dynamicOf (described file)) (describedImage file) →
    ∀ off < r.imageSize, mem (r.physBase + off) =
      (tableEntries r.linkBase (dynamicOf (described file)) (describedImage file)).foldl
        (relocStep r.physBase r.linkBase) (describedImage file) off

theorem Built.asDescribed {allocatePages : ℕ → Option ℕ} {r : LoadResult}
    (h : Built allocatePages file mem₀ r mem) (hkept : kept (taken file) = kept (described file)) :
    AsDescribed file r mem := by
  have hsupported := h.supported
  have himage := h.image
  rw [← segmentImage_kept, ← dynamicOf_kept, hkept, segmentImage_kept, dynamicOf_kept,
    ← describedImage] at hsupported himage
  refine ⟨hsupported, himage, fun hapart off hoff ↦ ?_⟩
  rw [himage off hoff, relocated, relocate_eq_foldl hapart, tableEntries]

theorem allocateLowPages_eq_some {allocatePages : ℕ → Option ℕ} {base : ℕ}
    (h : allocateLowPages allocatePages n = some base) : allocatePages n = some base :=
  (Option.filter_eq_some_iff.1 h).1

theorem loadElf_ensures {allocatePages : ℕ → Option ℕ}
    (halloc : ∀ n base, allocatePages n = some base → base + n * 4096 ≤ 2 ^ 32)
    (file : List UInt8) (mem₀ : Mem) :
    Ensures (· ≠ Fault.wild) (loadElf allocatePages file mem₀)
      fun r ↦ Built allocatePages file mem₀ r.1 r.2 := by
  unfold loadElf
  refine (checkEhdr_ensures file).bind fun eh heh ↦ ?_
  obtain ⟨heh, hent, hfit⟩ := heh
  rw [← ehdr] at heh
  rw [phdrs_eq hent hfit, ok_bind]
  refine (scanPhdrs_ensures file.length _).bind fun s hs ↦ ?_
  refine (imageSize_ensures s).bind fun size hsize ↦ ?_
  obtain ⟨hmin, hmax, hpos, -, hpages⟩ := hsize
  cases hbase : allocateLowPages allocatePages (size / 4096) with
  | none => exact .error (by simp)
  | some base =>
    have hpage := allocateLowPages_eq_some hbase
    have hlow := halloc _ _ hpage
    rw [hpages] at hlow
    have hloads := hs.loads
    rw [hmin] at hloads hmax
    dsimp only
    rw [hmin]
    refine (Region.clear ⟨base, size⟩ mem₀).bind fun mem hmem ↦ ?_
    refine (copySegments_ensures (by dsimp only; omega) (fun ph hph hload ↦ ?_) hmem).bind ?_
    · obtain ⟨hsound, hfirst, hlast⟩ := hloads ph hph hload
      exact ⟨hsound, hfirst, by dsimp only; omega⟩
    intro mem hmem
    refine .ite (fun _ ↦ .error (by simp)) fun _ ↦ ?_
    refine (applyRelativeRelocations_ensures (s.dynVaddr, s.dynSize) (by dsimp only; omega)
      (by dsimp only; omega) hmem).bind fun r hr ↦ ?_
    refine .ite (fun _ ↦ .error (by simp)) fun hdone ↦ ?_
    refine .ite (fun _ ↦ .error (by simp)) fun hentry ↦ ?_
    obtain ⟨hsupported, hholds⟩ := hr (by simpa using hdone)
    subst heh
    rw [hs.dynamic] at hsupported hholds
    refine .ok ⟨hpage, rfl, rfl, hholds.outside, ?_, rfl, hsupported, hholds.inside⟩
    dsimp only
    omega

/-- The loader stays inside the file and the image. What it accepts is loaded as the headers that it
takes describe it, so as the file does when these are the headers of the file. -/
theorem load_elf_image {allocatePages : ℕ → Option ℕ}
    (halloc : ∀ n base, allocatePages n = some base → base + n * 4096 ≤ 2 ^ 32)
    (file : List UInt8) (mem₀ : Mem) :
    loadElf allocatePages file mem₀ ≠ .error .wild ∧
      ∀ r mem, loadElf allocatePages file mem₀ = .ok (r, mem) →
        Built allocatePages file mem₀ r mem ∧
        (kept (taken file) = kept (described file) → AsDescribed file r mem) := by
  have hload := loadElf_ensures halloc file mem₀
  refine ⟨fun hwild ↦ hload.failure hwild rfl, fun r mem hr ↦ ?_⟩
  have hbuilt : Built allocatePages file mem₀ r mem := hload.result hr
  exact ⟨hbuilt, hbuilt.asDescribed⟩

def onePage (n : ℕ) : Option ℕ := if n = 1 then some 0x100000 else none

theorem onePage_low : ∀ n base, onePage n = some base → base + n * 4096 ≤ 2 ^ 32 := by
  intro n base h
  obtain ⟨hn, hbase⟩ := (Option.ite_none_right_eq_some).1 h
  subst hn
  rw [← Option.some.inj hbase]
  norm_num

/-- A file with two program headers of the given size and a relocation. A third header stands where
the second one would be at size 112. -/
def smallKernel (phentsize : ℕ) : List UInt8 :=
  lay (List.replicate 448 0) [(0, [0x7F, 69, 76, 70, 2, 1]), (16, [3, 0, 62, 0]),
    (24, toLe 8 0x200000), (32, toLe 8 64), (54, toLe 2 phentsize), (56, toLe 2 2),
    (64, toLe 4 ptLoad), (72, toLe 8 288), (80, toLe 8 0x200000), (96, toLe 8 160),
    (104, toLe 8 4096),
    (120, toLe 4 ptDynamic), (136, toLe 8 0x200010), (160, toLe 8 64),
    (176, toLe 4 ptLoad), (192, toLe 8 0x200100), (208, toLe 8 1), (216, toLe 8 1),
    (304, toLe 8 7), (312, toLe 8 0x200080), (320, toLe 8 8), (328, toLe 8 24),
    (416, toLe 8 0x2000C0), (424, toLe 8 8), (432, toLe 8 0x200010)]

def loadedByte (x : Except Fault (LoadResult × Mem)) (off : ℕ) : Option UInt8 :=
  match x with
  | .ok r => some (r.2 (r.1.physBase + off))
  | .error _ => none

theorem loadedByte_eq_some {x : Except Fault (LoadResult × Mem)} {b : UInt8}
    (h : loadedByte x off = some b) : ∃ r mem, x = .ok (r, mem) ∧ mem (r.physBase + off) = b := by
  cases x with
  | ok r => exact ⟨r.1, r.2, rfl, Option.some.inj h⟩
  | error e => cases h

/-- The relocated value stands in the image of the small kernel. -/
theorem load_elf_image_smallKernel : ∃ r mem,
    loadElf onePage (smallKernel 56) (fun _ ↦ 0) = .ok (r, mem) ∧
      Built onePage (smallKernel 56) (fun _ ↦ 0) r mem ∧ AsDescribed (smallKernel 56) r mem ∧
      mem (r.physBase + 0xC2) = 0x10 := by
  have hbyte : loadedByte (loadElf onePage (smallKernel 56) (fun _ ↦ 0)) 0xC2 = some 0x10 := by
    decide +kernel
  have hstride : (ehdr (smallKernel 56)).phentsize = 56 := by decide +kernel
  obtain ⟨r, mem, hload, hmem⟩ := loadedByte_eq_some hbyte
  obtain ⟨hbuilt, hdescribed⟩ := (load_elf_image onePage_low _ _).2 r mem hload
  exact ⟨r, mem, hload, hbuilt, hdescribed (by rw [described, hstride, taken]), hmem⟩

/-- Larger program headers are not taken where the file has them. -/
theorem load_elf_stride : ∃ r mem,
    loadElf onePage (smallKernel 112) (fun _ ↦ 0) = .ok (r, mem) ∧
      mem (r.physBase + 0x100) = 0 ∧ describedImage (smallKernel 112) 0x100 = 0x7F ∧
      relocated 0x100000 kernelLinkBase (dynamicOf (described (smallKernel 112)))
        (describedImage (smallKernel 112)) 0x100 = 0x7F := by
  have hbyte : loadedByte (loadElf onePage (smallKernel 112) (fun _ ↦ 0)) 0x100 = some 0 := by
    decide +kernel
  obtain ⟨r, mem, hload, hmem⟩ := loadedByte_eq_some hbyte
  exact ⟨r, mem, hload, hmem, by decide +kernel, by decide +kernel⟩

end Load

end NexusOS.Boot
