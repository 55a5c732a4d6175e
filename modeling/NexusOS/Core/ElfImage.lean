import NexusOS.Core.ElfLoader

namespace NexusOS.Core

variable {file : List UInt8} {image : Image} {p : Phdr} {ps : List Phdr} {e e' : Extent}
  {x fileSize : ℕ}

section Segments

theorem alignUp_eq (hx : x ≤ processUserLimit) : alignUp x = (x + 4095) / 4096 * 4096 := by
  unfold alignUp
  rw [if_neg]
  unfold processUserLimit at hx
  omega

structure Phdr.Sound (fileSize : ℕ) (p : Phdr) : Prop where
  memsz : p.memsz ≠ 0
  filesz : p.filesz ≤ p.memsz
  inFile : p.offset + p.filesz ≤ fileSize
  base : processUserBase ≤ p.vaddr
  limit : p.vaddr + p.memsz ≤ processUserLimit

theorem checkPhdr_cases (h : checkPhdr fileSize e p = some e') :
    (p.type ≠ ptLoad ∧ e' = e) ∨ (p.type = ptLoad ∧ p.Sound fileSize ∧
      e' = ⟨e.loads + 1, min (alignDown p.vaddr) e.start,
        max (alignUp (p.vaddr + p.memsz)) e.stop⟩) := by
  unfold checkPhdr at h
  dsimp only at h
  split_ifs at h with htype hsizes hvaddr hlimit hpages
  · exact .inl ⟨htype, (Option.some.inj h).symm⟩
  refine .inr ⟨not_not.1 htype, ⟨?_, ?_, ?_, ?_, ?_⟩, (Option.some.inj h).symm⟩
  all_goals omega

def Extent.Sound (e : Extent) : Prop :=
  (e.loads = 0 ∧ e.start = 2 ^ 64 - 1 ∧ e.stop = 0) ∨
    (e.start % 4096 = 0 ∧ e.stop % 4096 = 0 ∧ processUserBase ≤ e.start ∧
      e.start < e.stop ∧ e.stop ≤ processUserLimit)

theorem Phdr.Sound.pages (h : p.Sound fileSize) :
    alignDown p.vaddr % 4096 = 0 ∧ processUserBase ≤ alignDown p.vaddr ∧
      alignDown p.vaddr ≤ p.vaddr ∧ p.vaddr < alignDown p.vaddr + 4096 ∧
      alignUp (p.vaddr + p.memsz) % 4096 = 0 ∧ p.vaddr + p.memsz ≤ alignUp (p.vaddr + p.memsz) ∧
      alignUp (p.vaddr + p.memsz) < p.vaddr + p.memsz + 4096 ∧
      alignUp (p.vaddr + p.memsz) ≤ processUserLimit := by
  have hbase := h.base
  have hlimit := h.limit
  rw [alignUp_eq hlimit]
  unfold alignDown processUserBase processUserLimit at *
  omega

theorem Extent.Sound.step (he : e.Sound) (h : checkPhdr fileSize e p = some e') : e'.Sound := by
  rcases checkPhdr_cases h with ⟨-, rfl⟩ | ⟨-, hp, rfl⟩
  · exact he
  have hpages := hp.pages
  have hmem := hp.memsz
  have hlimit := hp.limit
  right
  rcases he with ⟨-, hstart, hstop⟩ | he
  · unfold processUserLimit at *
    dsimp only
    rw [hstart, hstop]
    omega
  · dsimp only
    omega

theorem checkPhdrs_sound (he : e.Sound) (h : ps.foldlM (checkPhdr fileSize) e = some e') :
    e'.Sound := by
  induction ps generalizing e with
  | nil => exact Option.some.inj h ▸ he
  | cons p ps ih =>
    rw [List.foldlM_cons] at h
    obtain ⟨e₁, h₁, h⟩ := Option.bind_eq_some_iff.1 h
    exact ih (he.step h₁) h

theorem checkPhdrs_covers (h : ps.foldlM (checkPhdr fileSize) e = some e') :
    e'.start ≤ e.start ∧ e.stop ≤ e'.stop ∧ ∀ p ∈ ps, p.type = ptLoad →
      p.Sound fileSize ∧ e'.start ≤ alignDown p.vaddr ∧ alignUp (p.vaddr + p.memsz) ≤ e'.stop := by
  induction ps generalizing e with
  | nil =>
    obtain rfl := Option.some.inj h
    exact ⟨le_rfl, le_rfl, by simp⟩
  | cons p ps ih =>
    rw [List.foldlM_cons] at h
    obtain ⟨e₁, h₁, h⟩ := Option.bind_eq_some_iff.1 h
    obtain ⟨hstart, hstop, hall⟩ := ih h
    rcases checkPhdr_cases h₁ with ⟨htype, rfl⟩ | ⟨-, hp, rfl⟩
    · refine ⟨hstart, hstop, ?_⟩
      intro q hq hload
      rcases List.mem_cons.1 hq with rfl | hq
      · exact absurd hload htype
      · exact hall q hq hload
    dsimp only at hstart hstop
    refine ⟨by omega, by omega, ?_⟩
    intro q hq hload
    rcases List.mem_cons.1 hq with rfl | hq
    · exact ⟨hp, by omega, by omega⟩
    · exact hall q hq hload

end Segments

section Place

theorem leNat_lt (file : List UInt8) (offset n : ℕ) : leNat file offset n < 256 ^ n := by
  induction n generalizing offset with
  | zero => exact Nat.one_pos
  | succ n ih =>
    have hbyte := (file.getD offset 0).toNat_lt
    have hrest := ih (offset + 1)
    rw [leNat, pow_succ]
    omega

/-- An image whose pages and segments lie where they may. The bias only moves downwards. -/
structure Image.Placed (fileSize : ℕ) (image : Image) : Prop where
  startAligned : image.start % 4096 = 0
  stopAligned : image.stop % 4096 = 0
  base : processUserBase ≤ image.start
  nonempty : image.start < image.stop
  belowStack : image.stop < stackBase
  pages : (image.stop - image.start) / 4096 ≤ 12
  downwards : image.bias ≤ 0
  biasAligned : image.bias % 4096 = 0
  original : image.stop - image.bias ≤ processUserLimit
  segments : ∀ p ∈ image.phdrs, p.type = ptLoad → p.Sound fileSize ∧
    image.start - image.bias ≤ alignDown p.vaddr ∧
    (alignUp (p.vaddr + p.memsz) : ℤ) ≤ image.stop - image.bias

theorem biased_eq {bias : ℤ} (h0 : 0 ≤ x + bias) (h : x + bias < 2 ^ 64) :
    (biased bias x : ℤ) = x + bias := by
  unfold biased
  omega

theorem Extent.Sound.biased (he : e.Sound) (hloads : e.loads ≠ 0) {bias : ℤ}
    (hbias : bias = imageBase - e.start ∨ bias = 0) :
    (Core.biased bias e.start : ℤ) = e.start + bias ∧
      (Core.biased bias e.stop : ℤ) = e.stop + bias := by
  obtain ⟨hnone, -⟩ | ⟨-, -, hbase, hlt, hstop⟩ := he
  · exact absurd hnone hloads
  have hbase' : (imageBase : ℤ) = processUserBase := rfl
  have hlimit : processUserLimit < 2 ^ 64 := by decide
  exact ⟨biased_eq (by omega) (by omega), biased_eq (by omega) (by omega)⟩

theorem placeImage_placed {eh : Ehdr} (he : e.Sound)
    (hcover : ∀ p ∈ ps, p.type = ptLoad →
      p.Sound fileSize ∧ e.start ≤ alignDown p.vaddr ∧ alignUp (p.vaddr + p.memsz) ≤ e.stop)
    (h : placeImage eh ps e = some image) :
    image.Placed fileSize ∧ image.phdrs = ps ∧ image.entry = biased image.bias eh.entry := by
  unfold placeImage at h
  dsimp only at h
  have hbias : (if eh.type = 3 then (imageBase : ℤ) - e.start else 0) = imageBase - e.start ∨
      (if eh.type = 3 then (imageBase : ℤ) - e.start else 0) = 0 := by
    split_ifs
    · exact .inl rfl
    · exact .inr rfl
  generalize (if eh.type = 3 then (imageBase : ℤ) - e.start else 0) = bias at h hbias
  split_ifs at h with hloads hwrap hrange hpages hstack
  obtain rfl := Option.some.inj h
  obtain ⟨hstart', hstop'⟩ := he.biased (fun h ↦ hloads (.inl h)) hbias
  obtain ⟨hnone, -⟩ | ⟨haligned, haligned', hbase, hlt, hstop⟩ := he
  · exact absurd (.inl hnone) hloads
  have hbase' : (imageBase : ℤ) = processUserBase := rfl
  have hpage : processUserBase % 4096 = 0 := by decide
  refine ⟨?_, rfl, rfl⟩
  constructor
  case segments =>
    intro p hp hload
    obtain ⟨hsound, hfirst, hlast⟩ := hcover p hp hload
    refine ⟨hsound, ?_, ?_⟩
    all_goals
      dsimp only
      omega
  all_goals
    dsimp only
    omega

theorem parseElf_placed (h : parseElf file = some image) :
    image.Placed file.length ∧ image.phdrs = readPhdrs file (readEhdr file) ∧
      image.entry = biased image.bias (readEhdr file).entry := by
  unfold parseElf at h
  dsimp only at h
  split_ifs at h
  cases hphdrs : (readPhdrs file (readEhdr file)).foldlM (checkPhdr file.length) ⟨0, 2 ^ 64 - 1, 0⟩
    with
  | none =>
    rw [hphdrs] at h
    cases h
  | some e =>
    rw [hphdrs] at h
    exact placeImage_placed (checkPhdrs_sound (.inl ⟨rfl, rfl, rfl⟩) hphdrs)
      (checkPhdrs_covers hphdrs).2.2 h

end Place

section Buffer

variable {buf : List UInt8} {offset n : ℕ}

/-- A number in the load buffer. There is no value when the read goes past the end of the file. -/
def readAt (buf : List UInt8) (fileSize offset n : ℕ) : Option ℕ :=
  if offset + n ≤ fileSize then some (leNat buf offset n) else none

def bytesAt (buf : List UInt8) (fileSize offset n : ℕ) : Option (List UInt8) :=
  if offset + n ≤ fileSize then some ((buf.drop offset).take n) else none

def ehdrAt (buf : List UInt8) (fileSize : ℕ) : Option Ehdr := do
  let type ← readAt buf fileSize 16 2
  let machine ← readAt buf fileSize 18 2
  let entry ← readAt buf fileSize 24 8
  let phoff ← readAt buf fileSize 32 8
  let phentsize ← readAt buf fileSize 54 2
  let phnum ← readAt buf fileSize 56 2
  return ⟨type, machine, entry, phoff, phentsize, phnum⟩

def phdrAt (buf : List UInt8) (fileSize at_ : ℕ) : Option Phdr := do
  let type ← readAt buf fileSize at_ 4
  let flags ← readAt buf fileSize (at_ + 4) 4
  let offset ← readAt buf fileSize (at_ + 8) 8
  let vaddr ← readAt buf fileSize (at_ + 16) 8
  let filesz ← readAt buf fileSize (at_ + 32) 8
  let memsz ← readAt buf fileSize (at_ + 40) 8
  return ⟨type, flags, offset, vaddr, filesz, memsz⟩

/-- The checks of the loader on the load buffer, of which the file fills the first `fileSize` bytes.
There is no value when one of the reads goes past the end of the file. -/
def parseBuffer (buf : List UInt8) (fileSize : ℕ) : Option (Option Image) :=
  if fileSize < 64 then some none
  else do
    let ident ← bytesAt buf fileSize 0 6
    let eh ← ehdrAt buf fileSize
    if ident ≠ elfIdent ∨ eh.machine ≠ 62 ∨ (eh.type ≠ 2 ∧ eh.type ≠ 3) ∨ !phdrBounds eh fileSize then
      return none
    else
      let phdrs ← (List.range eh.phnum).mapM fun i ↦ phdrAt buf fileSize (eh.phoff + i * 56)
      return (phdrs.foldlM (checkPhdr fileSize) ⟨0, 2 ^ 64 - 1, 0⟩).bind (placeImage eh phdrs)

section

variable (h : offset + n ≤ fileSize)
include h

theorem leNat_take : leNat (buf.take fileSize) offset n = leNat buf offset n := by
  induction n generalizing offset with
  | zero => rfl
  | succ n ih =>
    rw [leNat, leNat, ih (by omega), List.getD_eq_getElem?_getD, List.getD_eq_getElem?_getD,
      List.getElem?_take_of_lt (by omega)]

theorem readAt_eq : readAt buf fileSize offset n = some (leNat (buf.take fileSize) offset n) := by
  rw [readAt, if_pos h, leNat_take h]

theorem bytesAt_eq :
    bytesAt buf fileSize offset n = some (((buf.take fileSize).drop offset).take n) := by
  rw [bytesAt, if_pos h, List.drop_take, List.take_take, min_eq_left (by omega)]

end

theorem ehdrAt_eq (h : 64 ≤ fileSize) :
    ehdrAt buf fileSize = some (readEhdr (buf.take fileSize)) := by
  simp (disch := omega) only [ehdrAt, readAt_eq]
  rfl

theorem phdrAt_eq {at_ : ℕ} (h : at_ + 56 ≤ fileSize) :
    phdrAt buf fileSize at_ = some (readPhdr (buf.take fileSize) at_) := by
  simp (disch := omega) only [phdrAt, readAt_eq]
  rfl

theorem mapM_eq_some_map {α β : Type*} {f : α → Option β} {g : α → β} {l : List α}
    (h : ∀ a ∈ l, f a = some (g a)) : l.mapM f = some (l.map g) := by
  induction l with
  | nil => rfl
  | cons a l ih =>
    rw [List.mapM_cons, h a List.mem_cons_self, ih fun b hb ↦ h b (List.mem_cons_of_mem a hb)]
    rfl

theorem phdrsAt_eq {eh : Ehdr} (h : phdrBounds eh fileSize = true) :
    (List.range eh.phnum).mapM (fun i ↦ phdrAt buf fileSize (eh.phoff + i * 56)) =
      some (readPhdrs (buf.take fileSize) eh) := by
  apply mapM_eq_some_map
  intro i hi
  apply phdrAt_eq
  rw [List.mem_range] at hi
  simp only [phdrBounds, decide_eq_true_eq] at h
  obtain ⟨hent, -, -, hoff, hbytes⟩ := h
  rw [hent] at hbytes
  omega

theorem parseBuffer_eq (hsize : fileSize ≤ buf.length) :
    parseBuffer buf fileSize = some (parseElf (buf.take fileSize)) := by
  have hlen : (buf.take fileSize).length = fileSize := by
    rw [List.length_take, min_eq_left hsize]
  unfold parseBuffer parseElf
  rw [hlen]
  dsimp only
  by_cases hshort : fileSize < 64
  · rw [if_pos hshort, if_pos (.inl hshort)]
  rw [if_neg hshort, bytesAt_eq (by omega), ehdrAt_eq (by omega), Option.bind_eq_bind,
    Option.bind_some, Option.bind_eq_bind, Option.bind_some, List.drop_zero]
  generalize readEhdr (buf.take fileSize) = eh
  by_cases hbad : (buf.take fileSize).take 6 ≠ elfIdent ∨ eh.machine ≠ 62 ∨
      (eh.type ≠ 2 ∧ eh.type ≠ 3) ∨ !phdrBounds eh fileSize
  · rw [if_pos hbad, if_pos (.inr hbad)]
    rfl
  · have hbounds : phdrBounds eh fileSize = true := by
      by_contra h
      exact hbad (by simp [h])
    rw [if_neg hbad, if_neg (by rw [not_or]; exact ⟨hshort, hbad⟩), phdrsAt_eq hbounds,
      Option.bind_eq_bind, Option.bind_some]
    cases (readPhdrs (buf.take fileSize) eh).foldlM (checkPhdr fileSize) ⟨0, 2 ^ 64 - 1, 0⟩ <;> rfl

end Buffer

end NexusOS.Core
