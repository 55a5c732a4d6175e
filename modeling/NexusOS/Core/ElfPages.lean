import NexusOS.Core.ElfImage
import NexusOS.Core.Syscall
import NexusOS.Core.UserRange
import NexusOS.Fs.VfsRun

namespace NexusOS.Core

open Fs

variable {V F : Type*} {m : Hardware V} {k : Kernel V} {i : Fin 8} {pid fileSize : ℕ}
  {file buf : List UInt8} {image : Image} {p : Phdr}

section Calls

inductive LoadCall
  | map (va flags : ℕ)
  | zero (va : ℕ)
  | copy (va : ℕ) (bytes : List UInt8)
  deriving DecidableEq

def LoadCall.run (m : Hardware V) (pid : ℕ) (k : Kernel V) : LoadCall → Bool × Kernel V
  | .map va flags => processMapUserPage m.toMemory k pid va flags
  | .zero va => processUserZero m k pid va 4096
  | .copy va bytes => processUserCopy m k pid va bytes

def Image.page (image : Image) (j : ℕ) : ℕ := image.start + j * 4096

def Image.flags (image : Image) (j : ℕ) : ℕ :=
  pageFlagsFor image.phdrs (biased (-image.bias) (image.page j))

def imageCalls (image : Image) : List LoadCall :=
  (List.range ((image.stop - image.start) / 4096)).flatMap fun j ↦
    [.map (image.page j) (image.flags j), .zero (image.page j)]

def stackCalls : List LoadCall :=
  (List.range elfStackPages).flatMap fun j ↦
    [.map (stackBase + j * 4096) (pageWritable ||| pageNx), .zero (stackBase + j * 4096)]

def copyCalls (file : List UInt8) (image : Image) : List LoadCall :=
  (image.phdrs.filter fun p ↦ p.type = ptLoad ∧ p.filesz ≠ 0).map fun p ↦
    .copy (biased image.bias p.vaddr) ((file.drop p.offset).take p.filesz)

def loadCalls (file : List UInt8) (image : Image) : List LoadCall :=
  imageCalls image ++ stackCalls ++ copyCalls file image

section Run

variable {α : Type*} {f : Kernel V → α → Bool × Kernel V}

theorem untilFailure_append (as bs : List α) (k : Kernel V) :
    untilFailure f (as ++ bs) k =
      if (untilFailure f as k).1 then untilFailure f bs (untilFailure f as k).2
      else untilFailure f as k := by
  induction as generalizing k with
  | nil => rfl
  | cons a as ih =>
    rw [List.cons_append, untilFailure, untilFailure]
    by_cases ha : (f k a).1 = true
    · simp only [if_pos ha, ih]
    · simp only [if_neg ha, Bool.false_eq_true, if_false]

theorem untilFailure_mapCleared {as : List α} {va flags : α → ℕ} (k : Kernel V) :
    untilFailure (fun k a ↦ mapCleared m pid k (va a) (flags a)) as k =
      untilFailure (LoadCall.run m pid)
        (as.flatMap fun a ↦ [.map (va a) (flags a), .zero (va a)]) k := by
  induction as generalizing k with
  | nil => rfl
  | cons a as ih =>
    rw [List.flatMap_cons, untilFailure_append, untilFailure, ← ih]
    simp only [mapCleared, untilFailure, LoadCall.run]
    split_ifs <;> simp_all

theorem untilFailure_map {β : Type*} (g : β → α) (bs : List β) (k : Kernel V) :
    untilFailure f (bs.map g) k = untilFailure (fun k b ↦ f k (g b)) bs k := by
  induction bs generalizing k with
  | nil => rfl
  | cons b bs ih =>
    rw [List.map_cons, untilFailure, untilFailure, ih]

end Run

theorem loadImage_calls (file : List UInt8) (image : Image) (k : Kernel V) :
    loadImage m pid file image k =
      let r := untilFailure (LoadCall.run m pid) (loadCalls file image) k
      if !r.1 then r else (image.start ≤ image.entry ∧ image.entry < image.stop, r.2) := by
  have himage : ∀ k, mapImage m pid image k = untilFailure (LoadCall.run m pid) (imageCalls image) k :=
    fun k ↦ untilFailure_mapCleared k
  have hstack : ∀ k, mapStack m pid k = untilFailure (LoadCall.run m pid) stackCalls k :=
    fun k ↦ untilFailure_mapCleared k
  have hcopy : ∀ k, copySegments m pid file image k =
      untilFailure (LoadCall.run m pid) (copyCalls file image) k := by
    intro k
    rw [copyCalls, untilFailure_map]
    rfl
  simp only [loadImage, loadCalls, untilFailure_append, himage, hstack, hcopy]
  split_ifs <;> simp_all

end Calls

section Records

def LoadCall.adds : LoadCall → List (ℕ × ℕ)
  | .map va flags => [(va, flags)]
  | _ => []

def UserPage.mapping (u : UserPage) : ℕ × ℕ := (u.va, u.flags)

theorem processUserCopy_records (va : ℕ) (src : List UInt8) :
    Regrown k (processUserCopy m k pid va src).2 i (k.processes i).userPages := by
  unfold processUserCopy
  cases processGet k pid with
  | none => exact Regrown.same k i k.vm
  | some j =>
    dsimp only
    split_ifs
    · exact Regrown.same k i k.vm
    · exact Regrown.same k i _

theorem LoadCall.run_records (hi : processGet k pid = some i) (call : LoadCall) :
    ∃ new, Regrown k (call.run m pid k).2 i ((k.processes i).userPages ++ new) ∧
      ((call.run m pid k).1 = true → new.map UserPage.mapping = call.adds) := by
  cases call with
  | map va flags =>
    rcases processMapUserPage_records (m := m.toMemory) hi va flags with
      ⟨hfalse, hsame⟩ | ⟨-, -, -, phys, hgrown⟩
    · refine ⟨[], by rwa [List.append_nil], fun htrue ↦ ?_⟩
      exact absurd htrue (ne_true_of_eq_false hfalse)
    · exact ⟨[⟨va, phys, flags⟩], hgrown, fun _ ↦ rfl⟩
  | zero va =>
    refine ⟨[], ?_, fun _ ↦ rfl⟩
    rw [List.append_nil]
    exact processUserCopy_records va _
  | copy va bytes =>
    refine ⟨[], ?_, fun _ ↦ rfl⟩
    rw [List.append_nil]
    exact processUserCopy_records va bytes

theorem untilFailure_records (hi : processGet k pid = some i) (calls : List LoadCall) :
    ∃ new, Regrown k (untilFailure (LoadCall.run m pid) calls k).2 i
        ((k.processes i).userPages ++ new) ∧
      ((untilFailure (LoadCall.run m pid) calls k).1 = true →
        new.map UserPage.mapping = calls.flatMap LoadCall.adds) := by
  induction calls generalizing k with
  | nil =>
    refine ⟨[], ?_, fun _ ↦ rfl⟩
    rw [List.append_nil]
    exact Regrown.same k i k.vm
  | cons call calls ih =>
    obtain ⟨new, hgrown, hadds⟩ := call.run_records (m := m) hi
    rw [untilFailure]
    split_ifs with hcall
    · obtain ⟨more, hmore, hrest⟩ := ih (hgrown.get hi)
      rw [hgrown.records, List.append_assoc] at hmore
      refine ⟨new ++ more, hgrown.trans hmore, ?_⟩
      intro htrue
      rw [List.map_append, hadds hcall, hrest htrue, List.flatMap_cons]
    · exact ⟨new, hgrown, False.elim⟩

theorem adds_loadCalls (file : List UInt8) (image : Image) :
    (loadCalls file image).flatMap LoadCall.adds =
      ((List.range ((image.stop - image.start) / 4096)).map fun j ↦ (image.page j, image.flags j)) ++
        (List.range elfStackPages).map fun j ↦ (stackBase + j * 4096, pageWritable ||| pageNx) := by
  have hcopy : (copyCalls file image).flatMap LoadCall.adds = [] := by
    simp [copyCalls, LoadCall.adds, List.flatMap_map]
  rw [loadCalls, List.flatMap_append, List.flatMap_append, hcopy, List.append_nil, imageCalls,
    stackCalls, List.flatMap_assoc, List.flatMap_assoc, ← List.flatMap_pure_eq_map,
    ← List.flatMap_pure_eq_map]
  rfl

theorem loadImage_records (hi : processGet k pid = some i) (file : List UInt8) (image : Image) :
    ∃ new, Regrown k (loadImage m pid file image k).2 i ((k.processes i).userPages ++ new) ∧
      ((loadImage m pid file image k).1 = true →
        new.map UserPage.mapping = (loadCalls file image).flatMap LoadCall.adds ∧
          image.start ≤ image.entry ∧ image.entry < image.stop) := by
  obtain ⟨new, hgrown, hadds⟩ := untilFailure_records (m := m) hi (loadCalls file image)
  refine ⟨new, ?_⟩
  rw [loadImage_calls]
  dsimp only
  split_ifs with hfalse
  · refine ⟨hgrown, fun htrue ↦ ?_⟩
    rw [htrue] at hfalse
    cases hfalse
  · refine ⟨hgrown, fun hentry ↦ ⟨hadds ?_, of_decide_eq_true hentry⟩⟩
    simpa using hfalse

variable {fat : Fat F} {v : Vfs F} {path : Str}

theorem nexusElfLoadProcess_true (h : (nexusElfLoadProcess m pid fat k v path).1 = true) :
    ∃ i file image new, processGet (nexusElfLoadProcess m pid fat k v path).2.1 pid = some i ∧
      (fat.readFile path 65536 v.fat).1 = some file ∧ parseElf file = some image ∧
      ((nexusElfLoadProcess m pid fat k v path).2.1.processes i).userPages = new ∧
      ((nexusElfLoadProcess m pid fat k v path).2.1.processes i).userEntry = image.entry ∧
      new.map UserPage.mapping = (loadCalls file image).flatMap LoadCall.adds ∧
      image.start ≤ image.entry ∧ image.entry < image.stop := by
  unfold nexusElfLoadProcess at h ⊢
  cases hi : processGet k pid with
  | none =>
    rw [hi] at h
    cases h
  | some i =>
    rw [hi] at h
    dsimp only at h ⊢
    split_ifs at h ⊢ with hbad
    rw [not_or, not_not] at hbad
    cases hfile : (fat.readFile path 65536 v.fat).1 with
    | none =>
      rw [hfile] at h
      cases h
    | some file =>
      rw [hfile] at h
      dsimp only at h ⊢
      cases himage : parseElf file with
      | none =>
        rw [himage] at h
        cases h
      | some image =>
        rw [himage] at h
        dsimp only at h ⊢
        obtain ⟨new, hgrown, hload⟩ := loadImage_records (m := m) hi file image
        rw [hbad.2, List.nil_append] at hgrown
        rw [hgrown.get hi] at h ⊢
        split_ifs at h ⊢ with hfailed
        have hdone : (loadImage m pid file image k).1 = true := by simpa using hfailed
        obtain ⟨hadds, hentry⟩ := hload hdone
        refine ⟨i, file, image, new, ?_, rfl, himage, ?_, ?_, hadds, hentry⟩
        · dsimp only
          rw [← hgrown.get hi]
          apply processGet_congr
          · rfl
          intro j
          by_cases hj : j = i
          · subst hj
            simp [loaded]
          · simp [hj]
        · simp [loaded, hgrown.records]
        · simp [loaded]

theorem nexusElfLoadProcess_false (hi : processGet k pid = some i)
    (hnone : (k.processes i).userPages = [])
    (h : (nexusElfLoadProcess m pid fat k v path).1 = false) :
    ((nexusElfLoadProcess m pid fat k v path).2.1.processes i).userPages = [] := by
  unfold nexusElfLoadProcess at h ⊢
  rw [hi] at h ⊢
  dsimp only at h ⊢
  split_ifs at h ⊢
  · exact hnone
  cases hfile : (fat.readFile path 65536 v.fat).1 with
  | none => exact hnone
  | some file =>
    rw [hfile] at h
    dsimp only at h ⊢
    cases himage : parseElf file with
    | none => exact hnone
    | some image =>
      rw [himage] at h
      dsimp only at h ⊢
      obtain ⟨new, hgrown, -⟩ := loadImage_records (m := m) hi file image
      rw [hgrown.get hi] at h ⊢
      split_ifs at h ⊢
      exact processUnmapUserMemory_records (hgrown.get hi)

end Records

section Flags

/-- The segment, as it is loaded, and the page at `va` have a byte in common. -/
def Phdr.Overlaps (bias : ℤ) (p : Phdr) (va : ℕ) : Prop :=
  ∃ b : ℤ, p.vaddr + bias ≤ b ∧ b < p.vaddr + bias + p.memsz ∧ va ≤ b ∧ b < va + 4096

theorem overlaps_iff {bias : ℤ} {va : ℕ} (hmem : p.memsz ≠ 0) :
    p.Overlaps bias va ↔
      (p.vaddr : ℤ) + bias < va + 4096 ∧ (va : ℤ) < p.vaddr + bias + p.memsz := by
  constructor
  · rintro ⟨b, h₁, h₂, h₃, h₄⟩
    omega
  rintro ⟨h₁, h₂⟩
  exact ⟨max (p.vaddr + bias) va, by omega, by omega, by omega, by omega⟩

/-- A segment with the bit `bit` among its flags overlaps the page at `va`. -/
def Image.Grants (image : Image) (bit va : ℕ) : Prop :=
  ∃ p ∈ image.phdrs, p.type = ptLoad ∧ p.flags.testBit bit = true ∧ p.Overlaps image.bias va

theorem covering_iff (h : image.Placed fileSize) {va : ℕ} (hva : va % 4096 = 0)
    (hstop : va < image.stop) (hp : p ∈ image.phdrs) :
    (p.type = ptLoad ∧ p.memsz ≠ 0 ∧ alignUp ((p.vaddr + p.memsz) % 2 ^ 64) ≠ 0 ∧
      alignDown p.vaddr ≤ alignDown (biased (-image.bias) va) ∧
      alignDown (biased (-image.bias) va) < alignUp ((p.vaddr + p.memsz) % 2 ^ 64)) ↔
      p.type = ptLoad ∧ p.Overlaps image.bias va := by
  have hdown := h.downwards
  have haligned := h.biasAligned
  have horiginal := h.original
  have hbase := h.base
  have hlimit : processUserLimit < 2 ^ 64 := by decide
  have hmoved : (biased (-image.bias) va : ℤ) = va + -image.bias := biased_eq (by omega) (by omega)
  have hpage : alignDown (biased (-image.bias) va) = biased (-image.bias) va := by
    unfold alignDown
    omega
  rw [hpage]
  refine and_congr_right fun hload ↦ ?_
  obtain ⟨hsound, hfirst, hlast⟩ := h.segments p hp hload
  have hpages := hsound.pages
  have hmem := hsound.memsz
  have hend := hsound.limit
  have hmod : (p.vaddr + p.memsz) % 2 ^ 64 = p.vaddr + p.memsz := Nat.mod_eq_of_lt (by omega)
  rw [overlaps_iff hmem, hmod]
  constructor
  · rintro ⟨-, -, hle, hlt⟩
    omega
  rintro ⟨hle, hlt⟩
  refine ⟨hmem, ?_, ?_, ?_⟩
  all_goals omega

theorem truncated_flags (writable executable : Bool) :
    let flags := ((if writable then pageWritable else 0) ||| (if executable then 0 else pageNx)) %
      2 ^ 32
    flags.testBit 1 = writable ∧ flags.testBit 63 = false := by
  cases writable <;> cases executable <;> decide

theorem pageFlagsFor_bits (h : image.Placed fileSize) {va : ℕ} (hva : va % 4096 = 0)
    (hstop : va < image.stop) :
    ((pageFlagsFor image.phdrs (biased (-image.bias) va)).testBit 1 = true ↔ image.Grants 1 va) ∧
      (pageFlagsFor image.phdrs (biased (-image.bias) va)).testBit 63 = false := by
  obtain ⟨hwritable, hnx⟩ := truncated_flags
    ((image.phdrs.filter fun p ↦ p.type = ptLoad ∧ p.memsz ≠ 0 ∧
      alignUp ((p.vaddr + p.memsz) % 2 ^ 64) ≠ 0 ∧
      alignDown p.vaddr ≤ alignDown (biased (-image.bias) va) ∧
      alignDown (biased (-image.bias) va) < alignUp ((p.vaddr + p.memsz) % 2 ^ 64)).any
        fun p ↦ p.flags.testBit 1)
    ((image.phdrs.filter fun p ↦ p.type = ptLoad ∧ p.memsz ≠ 0 ∧
      alignUp ((p.vaddr + p.memsz) % 2 ^ 64) ≠ 0 ∧
      alignDown p.vaddr ≤ alignDown (biased (-image.bias) va) ∧
      alignDown (biased (-image.bias) va) < alignUp ((p.vaddr + p.memsz) % 2 ^ 64)).any
        fun p ↦ p.flags.testBit 0)
  refine ⟨?_, hnx⟩
  have hbit : (pageFlagsFor image.phdrs (biased (-image.bias) va)).testBit 1 = _ := hwritable
  rw [hbit, List.any_eq_true]
  constructor
  · rintro ⟨p, hmem, hflag⟩
    obtain ⟨hp, hcover⟩ := List.mem_filter.1 hmem
    obtain ⟨hload, hover⟩ := (covering_iff h hva hstop hp).1 (of_decide_eq_true hcover)
    exact ⟨p, hp, hload, hflag, hover⟩
  rintro ⟨p, hp, hload, hflag, hover⟩
  refine ⟨p, List.mem_filter.2 ⟨hp, decide_eq_true ?_⟩, hflag⟩
  exact (covering_iff h hva hstop hp).2 ⟨hload, hover⟩

end Flags

section Safety

def LoadCall.Inside : LoadCall → Prop
  | .map va _ => va % 4096 = 0 ∧ processUserBase ≤ va ∧ va + 4096 ≤ processUserLimit
  | .zero va => va % 4096 = 0 ∧ processUserBase ≤ va ∧ va + 4096 ≤ processUserLimit
  | .copy va bytes => processUserBase ≤ va ∧ va + bytes.length ≤ processUserLimit

theorem Image.Placed.page (h : image.Placed fileSize) {j : ℕ}
    (hj : j < (image.stop - image.start) / 4096) :
    image.page j % 4096 = 0 ∧ processUserBase ≤ image.page j ∧ image.page j + 4096 ≤ image.stop := by
  have hstart := h.startAligned
  have hstop := h.stopAligned
  have hbase := h.base
  unfold Image.page
  omega

theorem Image.Placed.segment (h : image.Placed fileSize) (hp : p ∈ image.phdrs)
    (hload : p.type = ptLoad) :
    (biased image.bias p.vaddr : ℤ) = p.vaddr + image.bias ∧
      image.start ≤ biased image.bias p.vaddr ∧
      biased image.bias p.vaddr + p.filesz ≤ image.stop := by
  obtain ⟨hsound, hfirst, hlast⟩ := h.segments p hp hload
  have hpages := hsound.pages
  have hfilesz := hsound.filesz
  have hdown := h.downwards
  have hbase := h.base
  have hlimit : processUserLimit < 2 ^ 64 := by decide
  have hmoved : (biased image.bias p.vaddr : ℤ) = p.vaddr + image.bias :=
    biased_eq (by omega) (by omega)
  refine ⟨hmoved, ?_, ?_⟩
  all_goals omega

theorem mem_copyCalls {call : LoadCall} (hcall : call ∈ copyCalls file image) :
    ∃ p ∈ image.phdrs, p.type = ptLoad ∧
      call = .copy (biased image.bias p.vaddr) ((file.drop p.offset).take p.filesz) := by
  obtain ⟨p, hp, rfl⟩ := List.mem_map.1 hcall
  obtain ⟨hmem, hload⟩ := List.mem_filter.1 hp
  exact ⟨p, hmem, (of_decide_eq_true hload).1, rfl⟩

section

variable (h : image.Placed file.length)
include h

theorem loadCalls_inside : ∀ call ∈ loadCalls file image, call.Inside := by
  have hbelow : image.stop ≤ processUserLimit := h.belowStack.le.trans (by decide)
  intro call hcall
  rw [loadCalls, List.mem_append, List.mem_append] at hcall
  rcases hcall with (hcall | hcall) | hcall
  · obtain ⟨j, hj, hmem⟩ := List.mem_flatMap.1 hcall
    obtain ⟨haligned, hbase, hstop⟩ := h.page (List.mem_range.1 hj)
    have hinside : image.page j % 4096 = 0 ∧ processUserBase ≤ image.page j ∧
        image.page j + 4096 ≤ processUserLimit := ⟨haligned, hbase, by omega⟩
    simp only [List.mem_cons, List.not_mem_nil, or_false] at hmem
    rcases hmem with rfl | rfl
    · exact hinside
    · exact hinside
  · obtain ⟨j, hj, hmem⟩ := List.mem_flatMap.1 hcall
    have hinside : (stackBase + j * 4096) % 4096 = 0 ∧ processUserBase ≤ stackBase + j * 4096 ∧
        stackBase + j * 4096 + 4096 ≤ processUserLimit := by
      rw [List.mem_range] at hj
      unfold stackBase userStackTop elfStackPages processUserBase processUserLimit at *
      omega
    simp only [List.mem_cons, List.not_mem_nil, or_false] at hmem
    rcases hmem with rfl | rfl
    · exact hinside
    · exact hinside
  obtain ⟨p, hp, hload, rfl⟩ := mem_copyCalls hcall
  obtain ⟨-, hstart, hstop⟩ := h.segment hp hload
  have hbase := h.base
  have hlen := List.length_take_le p.filesz (file.drop p.offset)
  exact ⟨by omega, by omega⟩

theorem loadCalls_copies {before after : List LoadCall} {va : ℕ}
    {bytes : List UInt8} (hcalls : loadCalls file image = before ++ .copy va bytes :: after) {b : ℕ}
    (hle : va ≤ b) (hlt : b < va + bytes.length) : ∃ flags, .map (pageOf b) flags ∈ before := by
  have hcopy : .copy va bytes ∉ imageCalls image ++ stackCalls := by
    simp [imageCalls, stackCalls]
  have hmem : .copy va bytes ∈ copyCalls file image := by
    have hall : .copy va bytes ∈ loadCalls file image := by
      rw [hcalls]
      exact List.mem_append_right _ List.mem_cons_self
    rw [loadCalls, List.mem_append] at hall
    exact hall.resolve_left hcopy
  obtain ⟨rest, hbefore⟩ : ∃ rest, before = imageCalls image ++ stackCalls ++ rest := by
    rw [loadCalls] at hcalls
    rcases List.append_eq_append_iff.1 hcalls with ⟨rest, hrest, -⟩ | ⟨rest, hrest, htail⟩
    · exact ⟨rest, hrest⟩
    cases rest with
    | nil => exact ⟨[], by rw [hrest, List.append_nil, List.append_nil]⟩
    | cons c rest =>
      obtain rfl := (List.cons.inj htail).1
      exact absurd (hrest ▸ List.mem_append_right _ List.mem_cons_self) hcopy
  obtain ⟨p, hp, hload, heq⟩ := mem_copyCalls hmem
  obtain ⟨rfl, rfl⟩ := LoadCall.copy.inj heq
  obtain ⟨-, hstart, hstop⟩ := h.segment hp hload
  have hlen := List.length_take_le p.filesz (file.drop p.offset)
  have haligned := h.startAligned
  have haligned' := h.stopAligned
  have hpage : pageOf b = image.page ((b - image.start) / 4096) := by
    unfold pageOf Image.page
    omega
  refine ⟨image.flags ((b - image.start) / 4096), ?_⟩
  rw [hbefore, hpage]
  refine List.mem_append_left _ (List.mem_append_left _
    (List.mem_flatMap.2 ⟨_, ?_, List.mem_cons_self⟩))
  rw [List.mem_range]
  omega

theorem loadCalls_pages : (((loadCalls file image).flatMap LoadCall.adds).map Prod.fst).Nodup ∧
      ((loadCalls file image).flatMap LoadCall.adds).length ≤ processUserMaxPages := by
  have hpages := h.pages
  have hbelow := h.belowStack
  rw [adds_loadCalls]
  constructor
  · rw [List.map_append, List.map_map, List.map_map, List.nodup_append]
    refine ⟨?_, ?_, ?_⟩
    · refine List.Nodup.map ?_ List.nodup_range
      intro i j hij
      simp only [Function.comp_apply, Image.page] at hij
      omega
    · refine List.Nodup.map ?_ List.nodup_range
      intro i j hij
      simp only [Function.comp_apply] at hij
      omega
    intro a ha b hb
    obtain ⟨j, hj, rfl⟩ := List.mem_map.1 ha
    obtain ⟨l, hl, rfl⟩ := List.mem_map.1 hb
    have hpage := h.page (List.mem_range.1 hj)
    simp only [Function.comp_apply]
    omega
  · rw [List.length_append, List.length_map, List.length_map, List.length_range, List.length_range]
    unfold elfStackPages processUserMaxPages
    omega

end

/-- The copies of the segments out of the load buffer. There is no value when a read goes past the
end of the file. -/
def copyBuffer (m : Hardware V) (pid : ℕ) (buf : List UInt8) (fileSize : ℕ) (bias : ℤ) :
    List Phdr → Kernel V → Option (Bool × Kernel V)
  | [], k => some (true, k)
  | p :: ps, k =>
    match bytesAt buf fileSize p.offset p.filesz with
    | none => none
    | some bytes =>
      let r := processUserCopy m k pid (biased bias p.vaddr) bytes
      if r.1 then copyBuffer m pid buf fileSize bias ps r.2 else some (false, r.2)

theorem copyBuffer_eq {bias : ℤ} {ps : List Phdr} (h : ∀ p ∈ ps, p.offset + p.filesz ≤ fileSize)
    (k : Kernel V) :
    copyBuffer m pid buf fileSize bias ps k =
      some (untilFailure (fun k p ↦ processUserCopy m k pid (biased bias p.vaddr)
        (((buf.take fileSize).drop p.offset).take p.filesz)) ps k) := by
  induction ps generalizing k with
  | nil => rfl
  | cons p ps ih =>
    rw [copyBuffer, untilFailure, bytesAt_eq (h p List.mem_cons_self)]
    dsimp only
    rw [ih fun q hq ↦ h q (List.mem_cons_of_mem p hq)]
    split_ifs <;> rfl

end Safety

section Loaded

variable {fat : Fat F} {v : Vfs F} {path : Str}

theorem mem_mappings {new : List UserPage}
    (hnew : new.map UserPage.mapping = (loadCalls file image).flatMap LoadCall.adds) (va flags : ℕ) :
    (∃ u ∈ new, u.va = va ∧ u.flags = flags) ↔
      (∃ j < (image.stop - image.start) / 4096, va = image.page j ∧ flags = image.flags j) ∨
        ∃ j < elfStackPages, va = stackBase + j * 4096 ∧ flags = pageWritable ||| pageNx := by
  have hmem : (∃ u ∈ new, u.va = va ∧ u.flags = flags) ↔ (va, flags) ∈ new.map UserPage.mapping := by
    simp [UserPage.mapping]
  rw [hmem, hnew, adds_loadCalls]
  simp only [List.mem_append, List.mem_map, List.mem_range, Prod.mk.injEq]
  refine or_congr ?_ ?_
  · refine exists_congr fun j ↦ and_congr_right fun _ ↦ ?_
    exact and_congr eq_comm eq_comm
  refine exists_congr fun j ↦ and_congr_right fun _ ↦ ?_
  exact and_congr eq_comm eq_comm

/-- A file is loaded. Every page of the image is recorded, and it is writable exactly if a writable
segment overlaps it. With `NX` it is as it should be just if an executable segment overlaps it, as no
page is mapped with `NX`. -/
theorem elf_page_flags (h : (nexusElfLoadProcess m pid fat k v path).1 = true) :
    ∃ i file image, processGet (nexusElfLoadProcess m pid fat k v path).2.1 pid = some i ∧
      (fat.readFile path 65536 v.fat).1 = some file ∧ parseElf file = some image ∧
      ∀ va, va % 4096 = 0 → image.start ≤ va → va < image.stop →
        (∃ u ∈ ((nexusElfLoadProcess m pid fat k v path).2.1.processes i).userPages, u.va = va) ∧
        ∀ u ∈ ((nexusElfLoadProcess m pid fat k v path).2.1.processes i).userPages, u.va = va →
          (u.flags.testBit 1 = true ↔ image.Grants 1 va) ∧
          ((u.flags.testBit 63 = true ↔ ¬ image.Grants 0 va) ↔ image.Grants 0 va) := by
  obtain ⟨i, file, image, new, hget, hfile, himage, hpages, -, hnew, -⟩ := nexusElfLoadProcess_true h
  have hplaced := (parseElf_placed himage).1
  refine ⟨i, file, image, hget, hfile, himage, ?_⟩
  rw [hpages]
  intro va hva hstart hstop
  have hstart' := hplaced.startAligned
  have hstop' := hplaced.stopAligned
  have hj : va = image.page ((va - image.start) / 4096) := by
    unfold Image.page
    omega
  refine ⟨?_, ?_⟩
  · obtain ⟨u, hu, hpage, -⟩ := (mem_mappings hnew va _).2
      (.inl ⟨(va - image.start) / 4096, by omega, hj, rfl⟩)
    exact ⟨u, hu, hpage⟩
  intro u hu hpage
  have hflags : u.flags = pageFlagsFor image.phdrs (biased (-image.bias) va) := by
    rcases (mem_mappings hnew _ _).1 ⟨u, hu, rfl, rfl⟩ with ⟨j, -, hj, hflags⟩ | ⟨j, -, hj, -⟩
    · rw [hflags, Image.flags, ← hj, hpage]
    have := hplaced.belowStack
    omega
  rw [hflags]
  obtain ⟨hwritable, hnx⟩ := pageFlagsFor_bits hplaced hva hstop
  exact ⟨hwritable, by simp [hnx]⟩

theorem Image.Placed.entry (h : image.Placed fileSize) {entry : ℕ} (hentry : entry < 2 ^ 64)
    (hstop : biased image.bias entry < image.stop) :
    (biased image.bias entry : ℤ) = entry + image.bias := by
  have hdown := h.downwards
  have horiginal := h.original
  have hbelow := h.belowStack
  have hlimit : processUserLimit < 2 ^ 63 ∧ stackBase < 2 ^ 63 := by decide
  unfold biased at *
  omega

/-- The process loader on a buffer that holds any bytes, `fileSize` of them read from a file, reads
only these; it asks for at most 16 distinct pages of the user space and clears and copies only
there; its addresses do not wrap, except that of an entry that is refused. A load that succeeds
records an entry in the image, and one that fails leaves no page. -/
theorem elf_load_safe (hbuf : buf.length = 65536) (hsize : fileSize ≤ 65536)
    (hfile : (fat.readFile path 65536 v.fat).1 = some (buf.take fileSize)) :
    let file := buf.take fileSize
    let r := nexusElfLoadProcess m pid fat k v path
    parseBuffer buf fileSize = some (parseElf file) ∧
      (∀ e, (readPhdrs file (readEhdr file)).foldlM (checkPhdr file.length) ⟨0, 2 ^ 64 - 1, 0⟩ =
        some e → e.loads ≠ 0 → ∀ bias : ℤ, bias = imageBase - e.start ∨ bias = 0 →
          (biased bias e.start : ℤ) = e.start + bias ∧ (biased bias e.stop : ℤ) = e.stop + bias) ∧
      (∀ image, parseElf file = some image →
        (∀ k, copyBuffer m pid buf fileSize image.bias
            (image.phdrs.filter fun p ↦ p.type = ptLoad ∧ p.filesz ≠ 0) k =
          some (copySegments m pid file image k)) ∧
        (∀ k, loadImage m pid file image k =
          let r := untilFailure (LoadCall.run m pid) (loadCalls file image) k
          if !r.1 then r else (image.start ≤ image.entry ∧ image.entry < image.stop, r.2)) ∧
        (∀ call ∈ loadCalls file image, call.Inside) ∧
        (∀ before va bytes after, loadCalls file image = before ++ .copy va bytes :: after →
          ∀ b, va ≤ b → b < va + bytes.length → ∃ flags, .map (pageOf b) flags ∈ before) ∧
        (((loadCalls file image).flatMap LoadCall.adds).map Prod.fst).Nodup ∧
        ((loadCalls file image).flatMap LoadCall.adds).length ≤ 16 ∧
        (∀ p ∈ image.phdrs, p.type = ptLoad → p.vaddr + p.memsz < 2 ^ 64 ∧
          p.offset + p.filesz ≤ fileSize ∧
          (biased image.bias p.vaddr : ℤ) = p.vaddr + image.bias) ∧
        (∀ va, image.start ≤ va → va < image.stop →
          (biased (-image.bias) va : ℤ) = va - image.bias) ∧
        image.entry = biased image.bias (readEhdr file).entry ∧
        (image.start ≤ image.entry → image.entry < image.stop →
          (image.entry : ℤ) = (readEhdr file).entry + image.bias)) ∧
      (r.1 = true → ∃ i image, processGet r.2.1 pid = some i ∧ parseElf file = some image ∧
        image.start ≤ (r.2.1.processes i).userEntry ∧ (r.2.1.processes i).userEntry < image.stop) ∧
      (r.1 = false → ∀ i, processGet k pid = some i → (k.processes i).userPages = [] →
        (r.2.1.processes i).userPages = []) := by
  intro file r
  have hlen : file.length = fileSize := by
    rw [List.length_take]
    omega
  refine ⟨parseBuffer_eq (by omega), ?_, ?_, ?_, ?_⟩
  · intro e he hloads bias hbias
    exact (checkPhdrs_sound (.inl ⟨rfl, rfl, rfl⟩) he).biased hloads hbias
  · intro image himage
    obtain ⟨hplaced, -, hentry⟩ := parseElf_placed himage
    have hlimit : processUserLimit < 2 ^ 64 := by decide
    obtain ⟨hnodup, hcount⟩ := loadCalls_pages hplaced
    refine ⟨?_, loadImage_calls file image, loadCalls_inside hplaced, ?_, hnodup, hcount, ?_, ?_,
      hentry, ?_⟩
    · intro k
      refine copyBuffer_eq (fun p hp ↦ ?_) k
      obtain ⟨hmem, hload⟩ := List.mem_filter.1 hp
      exact hlen ▸ (hplaced.segments p hmem (of_decide_eq_true hload).1).1.inFile
    · intro before va bytes after hcalls b hle hlt
      exact loadCalls_copies hplaced hcalls hle hlt
    · intro p hp hload
      have hsound := (hplaced.segments p hp hload).1
      exact ⟨hsound.limit.trans_lt hlimit, hlen ▸ hsound.inFile, (hplaced.segment hp hload).1⟩
    · intro va hstart hstop
      have hdown := hplaced.downwards
      have horiginal := hplaced.original
      exact biased_eq (by omega) (by omega)
    · intro _ hstop
      rw [hentry] at hstop ⊢
      exact hplaced.entry (leNat_lt file 24 8) hstop
  · intro htrue
    obtain ⟨i, file', image, new, hget, hfile', himage, -, huser, -, hentry⟩ :=
      nexusElfLoadProcess_true htrue
    obtain rfl : file = file' := Option.some.inj (hfile.symm.trans hfile')
    exact ⟨i, image, hget, himage, huser ▸ hentry.1, huser ▸ hentry.2⟩
  · intro hfalse i hi hnone
    exact nexusElfLoadProcess_false hi hnone hfalse

def oneSegment (type flags entry vaddr : ℕ) : List UInt8 :=
  elfIdent ++ leBytes 10 0 ++ leBytes 2 type ++ leBytes 2 62 ++ leBytes 4 1 ++ leBytes 8 entry ++
    leBytes 8 64 ++ leBytes 14 0 ++ leBytes 2 56 ++ leBytes 2 1 ++ leBytes 6 0 ++
    leBytes 4 1 ++ leBytes 4 flags ++ leBytes 8 0 ++ leBytes 8 vaddr ++ leBytes 8 0 ++
    leBytes 8 0 ++ leBytes 8 16 ++ leBytes 8 4096

def holding (file : List UInt8) : Fat Unit := { noFat with readFile := fun _ _ _ ↦ (some file, ()) }

def loadedFrom (file : List UInt8) : Bool × Kernel (List (ℕ × UInt8)) × Vfs Unit :=
  nexusElfLoadProcess flatHardware 1 (holding file)
    (processCreate flatHardware.toMemory (bootKernel []) 0 0).2 storage []

theorem elf_page_flags_code :
    (loadedFrom (oneSegment 2 5 0x400000 0x400000)).1 = true ∧
      ∃ i file image, processGet (loadedFrom (oneSegment 2 5 0x400000 0x400000)).2.1 1 = some i ∧
        parseElf file = some image ∧ ∀ va, va % 4096 = 0 → image.start ≤ va → va < image.stop →
          ∃ u ∈ ((loadedFrom (oneSegment 2 5 0x400000 0x400000)).2.1.processes i).userPages,
            u.va = va := by
  have hload : (loadedFrom (oneSegment 2 5 0x400000 0x400000)).1 = true := by decide +kernel
  unfold loadedFrom at hload ⊢
  obtain ⟨i, file, image, hget, -, himage, hpages⟩ := elf_page_flags hload
  exact ⟨hload, i, file, image, hget, himage, fun va hva hstart hstop ↦ (hpages va hva hstart hstop).1⟩

/-- The page of a segment that is writable and not executable is mapped without `NX`. -/
theorem elf_data_executable :
    let file := oneSegment 2 6 0x400000 0x400000
    (loadedFrom file).1 = true ∧
      ((loadedFrom file).2.1.processes 0).userPages.head?.map UserPage.mapping =
        some (0x400000, pageWritable) ∧
      ((parseElf file).map fun image ↦ (image.start, image.stop)) = some (0x400000, 0x401000) ∧
      ∀ image, parseElf file = some image → ¬ image.Grants 0 0x400000 := by
  intro file
  refine ⟨by decide +kernel, by decide +kernel, by decide +kernel, ?_⟩
  rintro image himage ⟨p, hp, -, hexec, -⟩
  have hflags : ((parseElf file).map fun image ↦ image.phdrs.map Phdr.flags) = some [6] := by
    decide +kernel
  rw [himage, Option.map_some, Option.some.injEq] at hflags
  have hp : p.flags ∈ [6] := hflags ▸ List.mem_map_of_mem hp
  rw [List.mem_singleton.1 hp] at hexec
  exact absurd hexec (by decide)

def bufferOf (file : List UInt8) : List UInt8 := file ++ List.replicate (65536 - file.length) 0

theorem elf_load_safe_code :
    let file := oneSegment 2 5 0x400000 0x400000
    parseBuffer (bufferOf file) 120 = some (parseElf file) ∧
      (loadedFrom file).1 = true ∧ ∃ i image, processGet (loadedFrom file).2.1 1 = some i ∧
        parseElf file = some image ∧ image.start ≤ ((loadedFrom file).2.1.processes i).userEntry ∧
        ((loadedFrom file).2.1.processes i).userEntry < image.stop := by
  intro file
  have hlen : file.length = 120 := by decide +kernel
  have htake : (bufferOf file).take 120 = file := List.take_left' hlen
  have hbuf : (bufferOf file).length = 65536 := by
    rw [bufferOf, List.length_append, List.length_replicate, hlen]
  have hload : (loadedFrom file).1 = true := by decide +kernel
  have hfile : ((holding file).readFile [] 65536 storage.fat).1 =
      some ((bufferOf file).take 120) := by
    rw [htake]
    rfl
  have hsafe := @elf_load_safe _ _ flatHardware (processCreate flatHardware.toMemory
    (bootKernel []) 0 0).2 1 120 (bufferOf file) (holding file) storage [] hbuf (by norm_num) hfile
  rw [htake] at hsafe
  unfold loadedFrom at hload ⊢
  obtain ⟨hparse, -, -, hdone, -⟩ := hsafe
  exact ⟨hparse, hload, hdone hload⟩

/-- The entry of a file that is moved down wraps past 0. -/
theorem elf_entry_wraps :
    ((parseElf (oneSegment 3 5 0 0x401000)).map fun image ↦ (image.bias, image.entry)) =
      some (-0x1000, 2 ^ 64 - 0x1000) ∧ (readEhdr (oneSegment 3 5 0 0x401000)).entry = 0 := by
  decide +kernel

end Loaded

end NexusOS.Core
