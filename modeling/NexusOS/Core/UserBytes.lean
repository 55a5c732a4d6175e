import NexusOS.Core.UserRange

namespace NexusOS.Core

variable {V : Type*} {m : Hardware V} {k : Kernel V} {i : Fin 8} {pid cr3 va size b : ℕ}
  {pages : List UserPage} {u : UserPage} {v v' : V}

section Mapped

/-- The frame to which the page tables lead; it need not be the recorded one. -/
def frame (m : Hardware V) (cr3 : ℕ) (v : V) (u : UserPage) : ℕ :=
  m.pagingVirtToPhysInCr3 cr3 u.va v

/-- The page tables lead from the bytes of a recorded page to those of one frame. -/
structure MapsPage (m : Hardware V) (cr3 : ℕ) (v : V) (u : UserPage) : Prop where
  aligned : frame m cr3 v u % 4096 = 0
  used : frame m cr3 v u ≠ 0
  bytes : ∀ o < 4096, m.pagingVirtToPhysInCr3 cr3 (u.va + o) v = frame m cr3 v u + o

/-- The recorded pages are in the page tables, with frames of their own. -/
structure Installed (m : Hardware V) (cr3 : ℕ) (pages : List UserPage) (v : V) : Prop where
  maps : ∀ u ∈ pages, MapsPage m cr3 v u
  frames : ∀ u ∈ pages, ∀ w ∈ pages, frame m cr3 v u = frame m cr3 v w → u.va = w.va

def userByte (m : Hardware V) (cr3 : ℕ) (v : V) (b : ℕ) : UInt8 :=
  m.readByte (m.pagingVirtToPhysInCr3 cr3 b v) v

def userBytes (m : Hardware V) (cr3 : ℕ) (v : V) (va size : ℕ) : List UInt8 :=
  (List.range size).map fun j ↦ userByte m cr3 v (va + j)

def InPages (pages : List UserPage) (va size : ℕ) : Prop :=
  ∀ b, va ≤ b → b < va + size → ∃ u ∈ pages, u.va = pageOf b

@[simp]
theorem length_userBytes (m : Hardware V) (cr3 : ℕ) (v : V) (va size : ℕ) :
    (userBytes m cr3 v va size).length = size := by
  simp [userBytes]

theorem userBytes_add (m : Hardware V) (cr3 : ℕ) (v : V) (va a c : ℕ) :
    userBytes m cr3 v va (a + c) = userBytes m cr3 v va a ++ userBytes m cr3 v (va + a) c := by
  rw [userBytes, List.range_add, List.map_append, List.map_map]
  congr 1
  apply List.map_congr_left
  intro j _
  rw [Function.comp_apply, add_assoc]

theorem MapsPage.translate (h : MapsPage m cr3 v u) (hb : u.va = pageOf b) :
    m.pagingVirtToPhysInCr3 cr3 b v = frame m cr3 v u + b % 4096 := by
  have hsplit : b = u.va + b % 4096 := by
    rw [hb, pageOf]
    omega
  have htrans := h.bytes (b % 4096) (Nat.mod_lt _ (by decide))
  rw [← hsplit] at htrans
  exact htrans

theorem MapsPage.physOf (h : MapsPage m cr3 v u) (hb : u.va = pageOf b) :
    physOf m cr3 b v = some (frame m cr3 v u + b % 4096) := by
  have haligned := h.aligned
  have hused := h.used
  unfold Core.physOf
  rw [h.translate hb, if_neg (by omega)]
  congr 1
  omega

theorem pageOf_add {j : ℕ} (hj : va % 4096 + j < 4096) : pageOf (va + j) = pageOf va := by
  unfold pageOf
  omega

section

variable (h : InPages pages va size)
include h

theorem InPages.byte (hrec : Recorded pages) (hle : va ≤ b)
    (hlt : b < va + size) : processUserBase ≤ b ∧ b < processUserLimit := by
  obtain ⟨u, hu, hva⟩ := h b hle hlt
  exact hrec.byte hu hva

theorem InPages.drop {n : ℕ} (hn : n ≤ size) : InPages pages (va + n) (size - n) :=
  fun b hle hlt ↦ h b (by omega) (by omega)

theorem InPages.wrap (hrec : Recorded pages) (hsize : size ≠ 0) : va + size ≤ 2 ^ 64 := by
  have hlast := (h.byte hrec (b := va + size - 1) (by omega) (by omega)).2
  have hlimit : processUserLimit < 2 ^ 64 := by decide
  omega

end

end Mapped

section Read

theorem readChunks_chunks (hmaps : ∀ u ∈ pages, MapsPage m cr3 v u) (n va size : ℕ)
    (hn : size ≠ 0 → va % 4096 + size ≤ n * 4096) (hwrap : va + size ≤ 2 ^ 64)
    (hin : InPages pages va size) :
    readChunks m cr3 v (chunks n va size) = some (userBytes m cr3 v va size) := by
  induction n generalizing va size with
  | zero =>
    obtain rfl : size = 0 := by omega
    rfl
  | succ n ih =>
    rw [chunks]
    by_cases hsize : size = 0
    · rw [if_pos hsize, hsize]
      rfl
    rw [if_neg hsize]
    dsimp only
    have hchunk : min (4096 - va % 4096) size = 4096 - va % 4096 ∨
        min (4096 - va % 4096) size = size := min_choice _ _
    have hle := min_le_left (4096 - va % 4096) size
    have hle' := min_le_right (4096 - va % 4096) size
    generalize min (4096 - va % 4096) size = chunk at hchunk hle hle' ⊢
    have hmod : va % 2 ^ 64 = va := Nat.mod_eq_of_lt (by omega)
    obtain ⟨u, hu, hpage⟩ := hin va le_rfl (by omega)
    have hrest := ih (va + chunk) (size - chunk) (by omega) (by omega) (hin.drop hle')
    -- the first chunk lies in the frame of its page
    have hfirst : (List.range chunk).map (fun j ↦ m.readByte (frame m cr3 v u + va % 4096 + j) v) =
        userBytes m cr3 v va chunk := by
      apply List.map_congr_left
      intro j hj
      have hj := List.mem_range.1 hj
      have hpage' : u.va = pageOf (va + j) := by rw [pageOf_add (by omega), hpage]
      rw [userByte, (hmaps u hu).translate hpage']
      congr 1
      omega
    simp only [readChunks, hmod, (hmaps u hu).physOf hpage, hrest]
    rw [hfirst, ← userBytes_add, Nat.add_sub_cancel' hle']

end Read

section Write

/-- Memory that holds what is written to it, in which the frames of the pages are no page tables. -/
structure Ram (m : Hardware V) (cr3 : ℕ) (pages : List UserPage) (v : V) : Prop where
  read_write : ∀ v a a' x, m.readByte a (m.writeByte a' x v) = if a = a' then x else m.readByte a v
  tables : ∀ v', ∀ u ∈ pages, ∀ o < 4096, ∀ x b,
    m.pagingVirtToPhysInCr3 cr3 b (m.writeByte (frame m cr3 v u + o) x v') =
      m.pagingVirtToPhysInCr3 cr3 b v'

theorem storeBytes_read (hram : Ram m cr3 pages v') (src : List UInt8) (addr a : ℕ) (v : V) :
    m.readByte a (storeBytes m addr src v) =
      if addr ≤ a ∧ a < addr + src.length then src.getD (a - addr) 0 else m.readByte a v := by
  induction src generalizing addr v with
  | nil => rw [storeBytes, if_neg (by simp)]
  | cons x src ih =>
    rw [storeBytes, ih, hram.read_write, List.length_cons]
    by_cases hlater : addr + 1 ≤ a ∧ a < addr + 1 + src.length
    · rw [if_pos hlater, if_pos (by omega), show a - addr = a - (addr + 1) + 1 by omega,
        List.getD_cons_succ]
    rw [if_neg hlater]
    by_cases ha : a = addr
    · rw [if_pos ha, if_pos (by omega), ha, Nat.sub_self, List.getD_cons_zero]
    · rw [if_neg ha, if_neg (by omega)]

theorem storeBytes_tables (hram : Ram m cr3 pages v) (hu : u ∈ pages) (src : List UInt8) (o b : ℕ)
    (ho : o + src.length ≤ 4096) (v' : V) :
    m.pagingVirtToPhysInCr3 cr3 b (storeBytes m (frame m cr3 v u + o) src v') =
      m.pagingVirtToPhysInCr3 cr3 b v' := by
  induction src generalizing o v' with
  | nil => rfl
  | cons x src ih =>
    rw [List.length_cons] at ho
    rw [storeBytes, add_assoc, ih (o + 1) (by omega), hram.tables v' u hu o (by omega)]

/-- What a write to a range leaves: the same translation, and the bytes of the pages changed in the
range only. -/
structure Wrote (m : Hardware V) (cr3 : ℕ) (pages : List UserPage) (va : ℕ) (src : List UInt8)
    (v v' : V) : Prop where
  tables : ∀ b, m.pagingVirtToPhysInCr3 cr3 b v' = m.pagingVirtToPhysInCr3 cr3 b v
  bytes : ∀ b, (∃ u ∈ pages, u.va = pageOf b) → userByte m cr3 v' b =
    if va ≤ b ∧ b < va + src.length then src.getD (b - va) 0 else userByte m cr3 v b

theorem Wrote.installed (h : Wrote m cr3 pages va src v v') (hin : Installed m cr3 pages v) :
    Installed m cr3 pages v' := by
  have hframe : frame m cr3 v' = frame m cr3 v := funext fun u ↦ h.tables u.va
  refine ⟨fun u hu ↦ ?_, hframe ▸ hin.frames⟩
  have hu := hin.maps u hu
  exact ⟨hframe ▸ hu.aligned, hframe ▸ hu.used,
    fun o ho ↦ (h.tables _).trans (hframe ▸ hu.bytes o ho)⟩

theorem Wrote.ram (h : Wrote m cr3 pages va src v v') (hram : Ram m cr3 pages v) :
    Ram m cr3 pages v' := by
  have hframe : frame m cr3 v' = frame m cr3 v := funext fun u ↦ h.tables u.va
  exact ⟨hram.read_write, hframe ▸ hram.tables⟩

theorem storeBytes_wrote (hram : Ram m cr3 pages v) (hin : Installed m cr3 pages v) (hu : u ∈ pages)
    (hpage : u.va = pageOf va) (src : List UInt8) (hfits : va % 4096 + src.length ≤ 4096) :
    Wrote m cr3 pages va src v (storeBytes m (frame m cr3 v u + va % 4096) src v) := by
  have htables := fun b ↦ storeBytes_tables hram hu src (va % 4096) b hfits v
  refine ⟨htables, fun b hb ↦ ?_⟩
  obtain ⟨w, hw, hwpage⟩ := hb
  have hualigned := (hin.maps u hu).aligned
  have hmod : b % 4096 < 4096 := Nat.mod_lt _ (by decide)
  rw [userByte, userByte, htables, storeBytes_read hram]
  by_cases hsame : pageOf b = pageOf va
  · rw [(hin.maps u hu).translate (hpage.trans hsame.symm)]
    have hoffset : b + va % 4096 = va + b % 4096 := by
      unfold pageOf at hsame
      omega
    by_cases hrange : va ≤ b ∧ b < va + src.length
    · rw [if_pos hrange, if_pos (by omega)]
      congr 1
      omega
    · rw [if_neg hrange, if_neg (by omega)]
  -- another page has another frame
  have hwmap := hin.maps w hw
  have hwaligned := hwmap.aligned
  have hframe : frame m cr3 v w ≠ frame m cr3 v u := by
    intro heq
    rw [hin.frames w hw u hu heq, hpage] at hwpage
    exact hsame hwpage.symm
  rw [hwmap.translate hwpage, if_neg (by omega)]
  rw [if_neg]
  unfold pageOf at hsame
  omega

theorem Wrote.trans {n : ℕ} {src : List UInt8} {v'' : V} (hn : n ≤ src.length)
    (h : Wrote m cr3 pages va (src.take n) v v')
    (h' : Wrote m cr3 pages (va + n) (src.drop n) v' v'') : Wrote m cr3 pages va src v v'' := by
  refine ⟨fun b ↦ (h'.tables b).trans (h.tables b), fun b hb ↦ ?_⟩
  rw [h'.bytes b hb, h.bytes b hb, List.length_drop, List.length_take, min_eq_left hn]
  by_cases hfirst : b < va + n
  · rw [if_neg (by omega)]
    by_cases hle : va ≤ b
    · rw [if_pos ⟨hle, hfirst⟩, if_pos (by omega), List.getD_eq_getElem?_getD,
        List.getElem?_take_of_lt (by omega), ← List.getD_eq_getElem?_getD]
    · rw [if_neg (by omega), if_neg (by omega)]
  by_cases hlt : b < va + src.length
  · rw [if_pos (by omega), if_pos (by omega), List.getD_eq_getElem?_getD, List.getElem?_drop,
      ← List.getD_eq_getElem?_getD]
    congr 1
    omega
  · rw [if_neg (by omega), if_neg (by omega), if_neg (by omega)]

theorem writeChunks_chunks (n va : ℕ) (src : List UInt8) (v : V) (hram : Ram m cr3 pages v)
    (hn : src.length ≠ 0 → va % 4096 + src.length ≤ n * 4096) (hwrap : va + src.length ≤ 2 ^ 64)
    (hin : InPages pages va src.length) (hinst : Installed m cr3 pages v) :
    (writeChunks m cr3 (chunks n va src.length) src v).1 = true ∧
      Wrote m cr3 pages va src v (writeChunks m cr3 (chunks n va src.length) src v).2 := by
  have hnone : ∀ (v : V) (va : ℕ), Wrote m cr3 pages va [] v v := fun v va ↦
    ⟨fun _ ↦ rfl, fun b _ ↦ by rw [if_neg (by simp)]⟩
  induction n generalizing va src v with
  | zero =>
    obtain rfl : src = [] := List.length_eq_zero_iff.1 (by omega)
    exact ⟨rfl, hnone v va⟩
  | succ n ih =>
    rw [chunks]
    by_cases hsize : src.length = 0
    · obtain rfl := List.length_eq_zero_iff.1 hsize
      rw [if_pos hsize]
      exact ⟨rfl, hnone v va⟩
    rw [if_neg hsize]
    dsimp only
    have hchunk : min (4096 - va % 4096) src.length = 4096 - va % 4096 ∨
        min (4096 - va % 4096) src.length = src.length := min_choice _ _
    have hle := min_le_left (4096 - va % 4096) src.length
    have hle' := min_le_right (4096 - va % 4096) src.length
    generalize min (4096 - va % 4096) src.length = chunk at hchunk hle hle' ⊢
    have hmod : va % 2 ^ 64 = va := Nat.mod_eq_of_lt (by omega)
    obtain ⟨u, hu, hpage⟩ := hin va le_rfl (by omega)
    have hlen : (src.drop chunk).length = src.length - chunk := List.length_drop
    have htake : (src.take chunk).length = chunk := List.length_take_of_le hle'
    have hfirst := storeBytes_wrote hram hinst hu hpage (src.take chunk) (by omega)
    have hin' : InPages pages (va + chunk) (src.drop chunk).length := by
      rw [hlen]
      exact hin.drop hle'
    obtain ⟨hok, hrest⟩ := ih (va + chunk) (src.drop chunk) _ (hfirst.ram hram) (by omega)
      (by omega) hin' (hfirst.installed hinst)
    rw [hlen] at hok hrest
    simp only [writeChunks, hmod, (hinst.maps u hu).physOf hpage]
    exact ⟨hok, hfirst.trans hle' hrest⟩

end Write

section Calls

structure UserSpace (m : Hardware V) (k : Kernel V) (pid : ℕ) (i : Fin 8) : Prop where
  get : processGet k pid = some i
  records : Recorded (k.processes i).userPages
  installed : Installed m (k.processes i).addressSpaceCr3 (k.processes i).userPages k.vm

theorem outsideUser_eq_false (hrec : Recorded pages) (hin : InPages pages va size)
    (hsize : size ≠ 0) : outsideUser va size = false := by
  have hfirst := (hin.byte hrec (b := va) le_rfl (by omega)).1
  have hlast := (hin.byte hrec (b := va + size - 1) (by omega) (by omega)).2
  unfold outsideUser
  unfold processUserBase processUserLimit at *
  simp only [Bool.or_eq_false_iff, decide_eq_false_iff_not]
  omega

section

variable (h : UserSpace m k pid i)
include h

theorem inPages_of_valid {required : ℕ}
    (hvalid : processUserRangeValid k pid va size required = true) (hva : va < 2 ^ 64) :
    InPages (k.processes i).userPages va size ∧ (k.processes i).state ≠ .zombie ∧ size ≠ 0 := by
  have hguard : (k.processes i).state ≠ .zombie ∧ size ≠ 0 := by
    unfold processUserRangeValid at hvalid
    rw [h.get] at hvalid
    dsimp only at hvalid
    split_ifs at hvalid with hbad
    rw [not_or, not_or] at hbad
    exact ⟨hbad.1, hbad.2.1⟩
  refine ⟨fun b hle hlt ↦ ?_, hguard⟩
  obtain ⟨u, hu, hpage, -⟩ :=
    (processUserRangeValid_iff h.get hguard.1 h.records hva hguard.2).1 hvalid b hle hlt
  exact ⟨u, hu, hpage⟩

theorem processUserRead_valid (hva : va < 2 ^ 64)
    (hvalid : processUserRangeValid k pid va size 0 = true) : processUserRead m k pid va size =
      some (userBytes m (k.processes i).addressSpaceCr3 k.vm va size) := by
  obtain ⟨hin, hlive, hsize⟩ := inPages_of_valid h hvalid hva
  have hinside := outsideUser_eq_false h.records hin hsize
  unfold processUserRead
  rw [h.get]
  dsimp only
  rw [if_neg (by simp [hlive, hsize, hinside, hvalid])]
  exact readChunks_chunks h.installed.maps _ va size (by omega) (hin.wrap h.records hsize) hin

theorem processUserWrite_valid {src : List UInt8}
    (hram : Ram m (k.processes i).addressSpaceCr3 (k.processes i).userPages k.vm)
    (hva : va < 2 ^ 64)
    (hvalid : processUserRangeValid k pid va src.length pageWritable = true) :
    ∃ v', processUserWrite m k pid va src = (true, { k with vm := v' }) ∧
      Wrote m (k.processes i).addressSpaceCr3 (k.processes i).userPages va src k.vm v' := by
  obtain ⟨hin, hlive, hsize⟩ := inPages_of_valid h hvalid hva
  have hinside := outsideUser_eq_false h.records hin hsize
  have hsrc : src ≠ [] := fun hnil ↦ hsize (by rw [hnil]; rfl)
  obtain ⟨hok, hwrote⟩ := writeChunks_chunks (src.length / 4096 + 2) va src k.vm hram (by omega)
    (hin.wrap h.records hsize) hin h.installed
  refine ⟨_, ?_, hwrote⟩
  unfold processUserWrite
  rw [h.get]
  dsimp only
  rw [if_neg (by simp [hlive, hsrc, hinside, hvalid]), userChunks, hok]

theorem processUserRangeValid_mono {required n : ℕ} (hva : va < 2 ^ 64)
    (hvalid : processUserRangeValid k pid va size required = true) (hn : n ≤ size) (h0 : n ≠ 0) :
    processUserRangeValid k pid va n required = true := by
  obtain ⟨-, hlive, hsize⟩ := inPages_of_valid h hvalid hva
  rw [processUserRangeValid_iff h.get hlive h.records hva hsize] at hvalid
  rw [processUserRangeValid_iff h.get hlive h.records hva h0]
  intro b hle hlt
  exact hvalid b hle (by omega)

end

theorem Wrote.userBytes {src : List UInt8} (h : Wrote m cr3 pages va src v v')
    (hin : InPages pages va src.length) : userBytes m cr3 v' va src.length = src := by
  apply List.ext_getElem
  · simp
  intro j h₁ h₂
  simp only [Core.userBytes, List.getElem_map, List.getElem_range]
  rw [h.bytes _ (hin _ (by omega) (by omega)), if_pos (by omega), Nat.add_sub_cancel_left,
    List.getD_eq_getElem _ _ h₂]

end Calls

end NexusOS.Core
