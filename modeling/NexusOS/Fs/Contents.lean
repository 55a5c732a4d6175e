import NexusOS.Fs.Normalize

namespace NexusOS.Fs

open Lib

variable {F : Type*} {fat : Fat F} {f : F} {v : Vfs F} {i : Fin 48} {node : Node} {b : Buffer UInt8}

section Arrays

def Node.array (node : Node) : Buffer UInt8 := ⟨node.content, []⟩

/-- `copy_truncate` of a string and `local_strlen` of the result. -/
def writtenInto (b : Buffer UInt8) (s : Str) : Buffer UInt8 × ℕ :=
  Buffer.scan 0 200 (copyTruncateInto b s 200) 0

def appendedInto (b : Buffer UInt8) (len : ℕ) (s : Str) : Buffer UInt8 × ℕ :=
  let r := Buffer.fill 199 b len s
  (r.1.store r.2 0, r.2)

/-- `copy_truncate` from one content array to another. -/
def copiedInto (src dst : Buffer UInt8) : Buffer UInt8 × Buffer UInt8 :=
  ((Buffer.scan 0 199 src 0).1, copyTruncateInto dst (src.string 0 199) 200)

/-- The loop of `vfs_write_path`, the new length and the terminator behind it. -/
def overwrittenInto (b : Buffer UInt8) (len : ℕ) (bytes : List UInt8) (offset : ℕ) :
    Buffer UInt8 × ℕ :=
  let r := Buffer.fill (offset + bytes.length) b offset bytes
  let len := max len (offset + bytes.length)
  (r.1.store len 0, len)

theorem array_within (node : Node) (m : ℕ) : node.array.Within m := by
  simp [Node.array, Buffer.Within]

theorem copyTruncateInto_cell (b : Buffer UInt8) (s : Str) (m : ℕ) :
    (copyTruncateInto b s m).cell = writeString b.cell (copyTruncate s m) := by
  have hlen : (copyTruncate s m).length = min s.length (m - 1) :=
    List.length_take.trans (Nat.min_comm ..)
  funext i
  refine (Buffer.fill_store_cell ..).trans ?_
  rw [writeString, hlen, Nat.sub_zero, Nat.zero_add, Nat.sub_zero]
  simp only [Nat.zero_le, true_and]
  split_ifs with hlt
  · rw [List.getD_eq_getElem?_getD, copyTruncate, List.getElem?_take_of_lt (by omega)]
  · rfl
  · rfl

/-- The loops leave in the array of a node what `vfsWrite` says. -/
theorem writtenInto_eq (node : Node) {s : Str} (h0 : 0 ∉ s) :
    (writtenInto node.array s).1.cell = writeString node.content (copyTruncate s 200) ∧
      (writtenInto node.array s).2 = (copyTruncate s 200).length := by
  refine ⟨(Buffer.scan_cell ..).trans (copyTruncateInto_cell _ s _), ?_⟩
  have hholds := (copyTruncateInto_spec (array_within node 200) (by decide) s).1
  have hlen : (copyTruncate s 200).length ≤ 199 := List.length_take_le _ _
  exact hholds.scan (fun hmem ↦ h0 (List.mem_of_mem_take hmem)) (Nat.zero_le _) (by omega)

theorem appendedInto_eq (node : Node) (s : Str) :
    (appendedInto node.array node.contentLen s).1.cell = (appended node s).content ∧
      (appendedInto node.array node.contentLen s).2 = (appended node s).contentLen := by
  have hlen : (s.take (199 - node.contentLen)).length = min s.length (199 - node.contentLen) :=
    List.length_take.trans (Nat.min_comm ..)
  refine ⟨?_, (Buffer.fill_pos ..).trans (congrArg _ hlen.symm)⟩
  funext i
  refine (Buffer.fill_store_cell ..).trans ?_
  simp only [appended, writeString, hlen]
  by_cases hle : node.contentLen ≤ i
  · rw [if_neg (Nat.not_lt_of_le hle), Nat.add_sub_cancel' hle]
    rcases Nat.lt_trichotomy i (node.contentLen + min s.length (199 - node.contentLen)) with
      hlt | heq | hlt
    · rw [if_pos ⟨hle, hlt⟩, if_pos (by omega), List.getD_eq_getElem?_getD,
        List.getElem?_take_of_lt (by omega)]
    · rw [if_neg (by omega), if_pos heq, if_neg (by omega), if_pos (by omega)]
    · rw [if_neg (by omega), if_neg (by omega), if_neg (by omega), if_neg (by omega)]
      rfl
  · rw [if_neg (by omega), if_neg (by omega), if_pos (by omega)]
    rfl

theorem copiedInto_eq (src dst : Node) : (copiedInto src.array dst.array).2.cell =
    writeString dst.content (readString src.content 199) := by
  have hlen : (readString src.content 199).length ≤ 199 :=
    (List.takeWhile_prefix _).length_le.trans (by simp)
  refine (copyTruncateInto_cell _ _ _).trans ?_
  exact congrArg _ (List.take_of_length_le hlen)

/-- A terminator behind the array is not one of the array. -/
theorem overwrittenInto_eq (node : Node) (bytes : List UInt8) {offset i : ℕ} (hi : i < 200) :
    (overwrittenInto node.array node.contentLen bytes offset).1.cell i =
      (overwritten node bytes offset).content i := by
  have hfill : (Buffer.fill (offset + bytes.length) node.array offset bytes).1.cell i =
      if offset ≤ i ∧ i < offset + bytes.length then bytes.getD (i - offset) 0
      else node.content i := by
    rw [Buffer.fill_cell]
    split_ifs with hin
    · rw [List.getD_eq_getElem?_getD, List.getElem?_eq_getElem (by omega)]
      rfl
    · rfl
  refine (Function.update_apply ..).trans ?_
  simp only [overwritten, terminate, hfill]
  split_ifs with hend <;> simp only [Function.update_apply] <;> grind

end Arrays

section Calls

inductive FileCall
  | touch (name : Str)
  | write (name content : Str)
  | append (name content : Str)
  | cp (src dst : Str)
  | writePath (path : Str) (buffer : Option (List UInt8)) (offset : ℕ) (junk : Stale)
  | readPath (path : Str) (buffer : Bool) (capacity offset : ℕ) (junk : Stale)

variable (fat) (v)

def FileCall.step : FileCall → Vfs F
  | .touch name => (vfsTouch fat v name).2
  | .write name content => (vfsWrite fat v name content).2
  | .append name content => (vfsAppend v name content).2
  | .cp src dst => (vfsCp v src dst).2
  | .writePath path buffer offset junk => (vfsWritePath fat v path buffer offset junk).2
  | .readPath path buffer capacity offset junk =>
    (vfsReadPath fat v path buffer capacity offset junk).2

/-- The content array of the file that `fileNode` gives, and its length; a new one is first passed
to `clear`. -/
def fileArray (c : Fin 48) (name : Str) (clear : Buffer UInt8 → Buffer UInt8) :
    Option (Buffer UInt8 × ℕ) :=
  match findChild v (some c) name with
  | some i => if (v.nodes i).type = .file then some ((v.nodes i).array, (v.nodes i).contentLen)
      else none
  | none => (findFreeNode v).map fun i ↦ (clear (v.nodes i).array, 0)

def touchArrays (name : Str) : List (Buffer UInt8) :=
  match v.cwd with
  | none => []
  | some c =>
    if name = [] ∨ findChild v (some c) name ≠ none then []
    else ((findFreeNode v).map fun i ↦ (v.nodes i).array.store 0 0).toList

def writeArrays (name content : Str) : List (Buffer UInt8) :=
  match v.cwd with
  | none => []
  | some c => ((fileArray v c name id).map fun r ↦ (writtenInto r.1 content).1).toList

def appendArrays (name content : Str) : List (Buffer UInt8) :=
  match v.cwd with
  | none => []
  | some c => ((fileArray v c name (·.store 0 0)).map fun r ↦
      (appendedInto r.1 r.2 content).1).toList

def cpArrays (src dst : Str) : List (Buffer UInt8) :=
  match v.cwd with
  | none => []
  | some c =>
    match findChild v (some c) src, findFreeNode v with
    | some s, some d =>
      if (v.nodes s).type ≠ .file ∨ findChild v (some c) dst ≠ none then []
      else
        let r := copiedInto (v.nodes s).array (v.nodes d).array
        [r.1, r.2]
    | _, _ => []

def writePathArrays (abs : Str) (bytes : List UInt8) (offset : ℕ) : List (Buffer UInt8) :=
  match fileAtPath v abs with
  | none => []
  | some (i, v') =>
    let b := if (v.nodes i).type = .free then (v.nodes i).array.store 0 0 else (v.nodes i).array
    if (v'.nodes i).type ≠ .file ∨ 200 ≤ offset then [b]
    else [(overwrittenInto b (v'.nodes i).contentLen (bytes.take (200 - offset)) offset).1]

def readPathArrays (abs : Str) (capacity offset : ℕ) : List (Buffer UInt8) :=
  match resolveRamPath v abs with
  | none => []
  | some i =>
    if (v.nodes i).type ≠ .file then []
    else [(v.nodes i).array.loads offset (min capacity ((v.nodes i).contentLen - offset))]

/-- The content arrays of the tree that a call uses, with the indices it uses. -/
def FileCall.arrays : FileCall → List (Buffer UInt8)
  | .touch name => if fatTarget fat v name = none then touchArrays v name else []
  | .write name content => if fatTarget fat v name = none then writeArrays v name content else []
  | .append name content => appendArrays v name content
  | .cp src dst => cpArrays v src dst
  | .writePath path buffer offset junk =>
    match buffer, normalizeAbsolute v path with
    | some bytes, some abs =>
      if fatRoute fat v abs junk = none then writePathArrays v abs bytes offset else []
    | _, _ => []
  | .readPath path buffer capacity offset junk =>
    if !buffer ∨ capacity = 0 then []
    else
      match normalizeAbsolute v path with
      | none => []
      | some abs => if fatRoute fat v abs junk = none then readPathArrays v abs capacity offset else []

/-- A write by path stops before the last byte of the array, unless it reaches no file. -/
def WriteFits : FileCall → Prop
  | .writePath path (some bytes) offset _ => 200 ≤ offset ∨ offset + bytes.length < 200 ∨
      ∀ abs ∈ normalizeAbsolute v path, ∀ r ∈ fileAtPath v abs, (r.2.nodes r.1).type ≠ .file
  | _ => True

/-- Lengths leave room for the terminator, which is there, and free nodes have not been used. -/
structure Terminated (f : F) (v : Vfs F) : Prop where
  fat : v.fat = f
  root : v.typeOf 0 = .dir
  unused : ∀ i, v.typeOf i = .free → ∀ k, (v.nodes i).content k = 0
  fits : ∀ i, v.typeOf i = .file → (v.nodes i).contentLen ≤ 199
  ends : ∀ i, v.typeOf i = .file → (v.nodes i).content (v.nodes i).contentLen = 0

variable {fat} {v}

theorem Terminated.setNode (h : Terminated f v) (hi : v.typeOf i ≠ .dir) (hfile : node.type = .file)
    (hfits : node.contentLen ≤ 199) (hends : node.content node.contentLen = 0) :
    Terminated f (v.setNode i node) := by
  have h0 : (0 : Fin 48) ≠ i := by
    intro h0
    rw [← h0, h.root] at hi
    exact hi rfl
  have hnew : ∀ j, j = i → (v.setNode i node).nodes j = node := by
    intro j hj
    rw [setNode_nodes, if_pos hj]
  have hold : ∀ j, j ≠ i → (v.setNode i node).nodes j = v.nodes j := by
    intro j hj
    rw [setNode_nodes, if_neg hj]
  refine ⟨h.fat, by rw [Vfs.typeOf, hold 0 h0]; exact h.root, ?_, ?_, ?_⟩
  · intro j hj k
    by_cases hji : j = i
    · rw [Vfs.typeOf, hnew j hji, hfile] at hj
      cases hj
    rw [Vfs.typeOf, hold j hji] at hj
    rw [hold j hji]
    exact h.unused j hj k
  · intro j hj
    by_cases hji : j = i
    · rwa [hnew j hji]
    rw [Vfs.typeOf, hold j hji] at hj
    rw [hold j hji]
    exact h.fits j hj
  intro j hj
  by_cases hji : j = i
  · rwa [hnew j hji]
  rw [Vfs.typeOf, hold j hji] at hj
  rw [hold j hji]
  exact h.ends j hj

theorem not_dir_of_free (hi : v.typeOf i = .free) : v.typeOf i ≠ .dir := by
  rw [hi]
  decide

theorem not_dir_of_file (hi : v.typeOf i = .file) : v.typeOf i ≠ .dir := by
  rw [hi]
  decide

theorem Terminated.touch (h : Terminated f v) (hf : fat.isMounted f = false) (name : Str) :
    Terminated f (vfsTouch fat v name).2 := by
  simp only [vfsTouch, fatTarget_unmounted (show fat.isMounted v.fat = false by rw [h.fat, hf]),
    createNode]
  split
  · exact h
  split
  · exact h
  cases hi : findFreeNode v with
  | none => exact h
  | some i =>
    exact h.setNode (not_dir_of_free (findFreeNode_some hi).2) rfl (Nat.zero_le _) rfl

theorem fileNode_some {c : Fin 48} {name : Str} {make : Node → Node}
    (hmake : ∀ node, (make node).type = node.type) (hi : fileNode v c name make = some (i, node)) :
    v.typeOf i ≠ .dir ∧ node.type = .file ∧ (node = v.nodes i ∧ v.typeOf i = .file ∨
      v.typeOf i = .free ∧ node = make (newNode (v.nodes i) .file c name)) := by
  unfold fileNode at hi
  split at hi
  · split_ifs at hi with hfile
    simp only [Option.some.injEq, Prod.mk.injEq] at hi
    obtain ⟨rfl, rfl⟩ := hi
    exact ⟨not_dir_of_file hfile, hfile, .inl ⟨rfl, hfile⟩⟩
  obtain ⟨j, hj, heq⟩ := Option.map_eq_some_iff.1 hi
  simp only [Prod.mk.injEq] at heq
  obtain ⟨rfl, rfl⟩ := heq
  have hfree := (findFreeNode_some hj).2
  exact ⟨not_dir_of_free hfree, (hmake _).trans rfl, .inr ⟨hfree, rfl⟩⟩

theorem Terminated.write (h : Terminated f v) (hf : fat.isMounted f = false) (name content : Str) :
    Terminated f (vfsWrite fat v name content).2 := by
  simp only [vfsWrite, fatTarget_unmounted (show fat.isMounted v.fat = false by rw [h.fat, hf])]
  split
  · exact h
  split
  · exact h
  rename_i i node hi
  obtain ⟨hdir, hfile, -⟩ := fileNode_some (fun _ ↦ rfl) hi
  refine h.setNode hdir hfile (List.length_take_le _ _) ?_
  simp [writeString]

theorem appended_spec (hlen : node.contentLen ≤ 199) (s : Str) :
    (appended node s).contentLen ≤ 199 ∧
      (appended node s).content (appended node s).contentLen = 0 := by
  refine ⟨?_, ?_⟩
  · simp only [appended, List.length_take]
    omega
  simp only [appended]
  rw [if_neg (by omega), Nat.add_sub_cancel_left]
  simp [writeString]

theorem Terminated.append (h : Terminated f v) (name content : Str) :
    Terminated f (vfsAppend v name content).2 := by
  simp only [vfsAppend]
  split
  · exact h
  split
  · exact h
  rename_i i node hi
  have hclear : ∀ node : Node, (emptied node).type = node.type := fun _ ↦ rfl
  obtain ⟨hdir, hfile, hnode⟩ := fileNode_some hclear hi
  have hlen : node.contentLen ≤ 199 := by
    rcases hnode with ⟨rfl, hold⟩ | ⟨-, rfl⟩
    · exact h.fits i hold
    · exact Nat.zero_le _
  obtain ⟨hfits, hends⟩ := appended_spec hlen content
  exact h.setNode hdir hfile hfits hends

theorem length_readString_le {content : ℕ → UInt8} {n k : ℕ} (hk : content k = 0) :
    (readString content n).length ≤ k := by
  by_contra hlt
  rw [Nat.not_le] at hlt
  have hsub : readString content n <+: (List.range n).map content := List.takeWhile_prefix _
  have hlen : k < ((List.range n).map content).length := hlt.trans_le hsub.length_le
  have hget : (readString content n)[k] = content k := by
    rw [hsub.getElem hlt, List.getElem_map, List.getElem_range]
  have hne := List.mem_takeWhile_imp (List.getElem_mem hlt)
  rw [hget, hk] at hne
  simp at hne

theorem Terminated.cp (h : Terminated f v) (src dst : Str) : Terminated f (vfsCp v src dst).2 := by
  simp only [vfsCp]
  split
  · exact h
  split
  · exact h
  rename_i s hs
  split
  · exact h
  rename_i hfile
  rw [not_or, not_not] at hfile
  cases hd : findFreeNode v with
  | none => exact h
  | some d =>
    have hfree := (findFreeNode_some hd).2
    have hle := length_readString_le (n := 199) (h.ends s hfile.1)
    refine h.setNode (not_dir_of_free hfree) rfl (h.fits s hfile.1) ?_
    change writeString (v.nodes d).content (readString (v.nodes s).content 199)
      (v.nodes s).contentLen = 0
    rw [writeString, if_neg (by omega)]
    split
    · rfl
    · exact h.unused d hfree _

theorem overwritten_fits {bytes : List UInt8} {offset : ℕ} (hlen : node.contentLen ≤ 199)
    (hend : offset + bytes.length < 200) : (overwritten node bytes offset).contentLen ≤ 199 ∧
      (overwritten node bytes offset).content (overwritten node bytes offset).contentLen = 0 := by
  have hmax : max node.contentLen (offset + bytes.length) < 200 := by omega
  simp only [overwritten, terminate, if_pos hmax]
  exact ⟨by omega, by simp⟩

section

variable (h : Terminated f v)
include h

theorem Terminated.fileAtPath {abs : Str} {v' : Vfs F}
    (hi : fileAtPath v abs = some (i, v')) : Terminated f v' := by
  rcases fileAtPath_some hi with rfl | ⟨p, -, hfree, -, -, rfl⟩
  · exact h
  · exact h.setNode (not_dir_of_free hfree) rfl (Nat.zero_le _) rfl

theorem Terminated.writePath (hf : fat.isMounted f = false) {path : Str}
    {buffer : Option (List UInt8)} {offset : ℕ} {junk : Stale}
    (hfits : WriteFits v (.writePath path buffer offset junk)) :
    Terminated f (vfsWritePath fat v path buffer offset junk).2 := by
  unfold vfsWritePath
  split
  · rename_i bytes abs habs
    simp only [fatRoute_unmounted (show fat.isMounted v.fat = false by rw [h.fat, hf]), writeRamPath]
    split
    · exact h
    rename_i i v' hi
    have h' := h.fileAtPath hi
    split
    · exact h'
    rename_i hwrite
    rw [not_or, not_not, Nat.not_le] at hwrite
    have hend : offset + bytes.length < 200 :=
      (hfits.resolve_left (Nat.not_le_of_lt hwrite.2)).resolve_right
        fun hno ↦ hno abs habs (i, v') hi hwrite.1
    rw [List.take_of_length_le (by omega)]
    obtain ⟨hlen, hzero⟩ := overwritten_fits (h'.fits i hwrite.1) hend
    exact h'.setNode (not_dir_of_file hwrite.1) ((overwritten_type _ _ _).trans hwrite.1) hlen hzero
  · exact h

theorem Terminated.readPath (hf : fat.isMounted f = false) (path : Str)
    (buffer : Bool) (capacity offset : ℕ) (junk : Stale) :
    Terminated f (vfsReadPath fat v path buffer capacity offset junk).2 := by
  unfold vfsReadPath
  split
  · exact h
  split
  · exact h
  simp only [fatRoute_unmounted (show fat.isMounted v.fat = false by rw [h.fat, hf])]
  split
  · exact h
  split
  · exact h
  · exact h

theorem Terminated.step (hf : fat.isMounted f = false) (c : FileCall)
    (hc : WriteFits v c) : Terminated f (c.step fat v) := by
  cases c with
  | touch name => exact h.touch hf name
  | write name content => exact h.write hf name content
  | append name content => exact h.append name content
  | cp src dst => exact h.cp src dst
  | writePath path buffer offset junk => exact h.writePath hf hc
  | readPath path buffer capacity offset junk => exact h.readPath hf path buffer capacity offset junk

end

theorem forall_mem_toList {α β : Type*} {P : β → Prop} {g : α → β} {o : Option α}
    (h : ∀ a, o = some a → P (g a)) : ∀ b ∈ (o.map g).toList, P b := by
  cases o with
  | none => simp
  | some a => simpa using h a rfl

theorem fileArray_some (h : Terminated f v) {c : Fin 48} {name : Str}
    {clear : Buffer UInt8 → Buffer UInt8} (hclear : ∀ b, b.Within 200 → (clear b).Within 200)
    {r : Buffer UInt8 × ℕ} (hr : fileArray v c name clear = some r) :
    r.1.Within 200 ∧ r.2 ≤ 199 := by
  unfold fileArray at hr
  split at hr
  · split_ifs at hr with hfile
    obtain rfl := Option.some.inj hr
    exact ⟨array_within _ _, h.fits _ hfile⟩
  · obtain ⟨j, -, rfl⟩ := Option.map_eq_some_iff.1 hr
    exact ⟨hclear _ (array_within _ _), Nat.zero_le _⟩

theorem writtenInto_within (hb : b.Within 200) (s : Str) : (writtenInto b s).1.Within 200 := by
  obtain ⟨hholds, hwithin⟩ := copyTruncateInto_spec hb (by omega) s
  have hlen : (copyTruncate s 200).length ≤ 199 := List.length_take_le _ _
  exact Buffer.scan_within_of_stop hwithin hholds.ends (Nat.zero_le _) (by omega)

theorem appendedInto_within (hb : b.Within 200) {len : ℕ} (hlen : len ≤ 199) (s : Str) :
    (appendedInto b len s).1.Within 200 := by
  have hfill := Buffer.fill_pos 199 b len s
  exact Buffer.store_within.2 ⟨by omega, Buffer.fill_within hb (by omega)⟩

theorem overwrittenInto_within (hb : b.Within 200) {len : ℕ} (hlen : len ≤ 199)
    (bytes : List UInt8) {offset : ℕ} (hoffset : offset < 200) :
    (overwrittenInto b len (bytes.take (200 - offset)) offset).1.Within 200 ↔
      offset + bytes.length < 200 := by
  have htake : (bytes.take (200 - offset)).length = min (200 - offset) bytes.length :=
    List.length_take
  rw [overwrittenInto, Buffer.store_within]
  constructor
  · intro hstore
    omega
  intro hend
  exact ⟨by omega, Buffer.fill_within hb (by omega)⟩

theorem writePathArrays_fit (h : Terminated f v) {path abs : Str}
    (habs : normalizeAbsolute v path = some abs) (bytes : List UInt8) (offset : ℕ) (junk : Stale) :
    (∀ b ∈ writePathArrays v abs bytes offset, b.Within 200) ↔
      WriteFits v (.writePath path (some bytes) offset junk) := by
  unfold writePathArrays WriteFits
  cases hi : fileAtPath v abs with
  | none =>
    refine iff_of_true (by simp) (.inr (.inr ?_))
    intro abs' habs' r hr
    rw [← Option.some.inj (habs.symm.trans habs'), hi] at hr
    cases hr
  | some r =>
    obtain ⟨i, v'⟩ := r
    have hb : (if (v.nodes i).type = .free then (v.nodes i).array.store 0 0
        else (v.nodes i).array).Within 200 := by
      split_ifs
      · exact Buffer.store_within.2 ⟨by omega, array_within _ _⟩
      · exact array_within _ _
    dsimp only
    by_cases hstay : (v'.nodes i).type ≠ .file ∨ 200 ≤ offset
    · rw [if_pos hstay]
      refine iff_of_true (by simpa using hb) ?_
      rcases hstay with htype | hoffset
      · refine .inr (.inr ?_)
        intro abs' habs' r hr
        rw [← Option.some.inj (habs.symm.trans habs'), hi] at hr
        rwa [← Option.some.inj hr]
      · exact .inl hoffset
    rw [if_neg hstay, List.forall_mem_singleton]
    rw [not_or, not_not, Nat.not_le] at hstay
    rw [overwrittenInto_within hb ((h.fileAtPath hi).fits i hstay.1) bytes hstay.2]
    constructor
    · intro hend
      exact .inr (.inl hend)
    intro hfits
    exact (hfits.resolve_left (Nat.not_le_of_lt hstay.2)).resolve_right
      fun hno ↦ hno abs habs (i, v') hi hstay.1

theorem Terminated.arrays (h : Terminated f v) (hf : fat.isMounted f = false) (c : FileCall) :
    (∀ b ∈ c.arrays fat v, b.Within 200) ↔ WriteFits v c := by
  have hm : fat.isMounted v.fat = false := by rw [h.fat, hf]
  cases c with
  | touch name =>
    refine iff_of_true ?_ trivial
    rw [FileCall.arrays, if_pos (fatTarget_unmounted hm name), touchArrays]
    split
    · simp
    split_ifs
    · simp
    · exact forall_mem_toList fun i _ ↦ Buffer.store_within.2 ⟨by omega, array_within _ _⟩
  | write name content =>
    refine iff_of_true ?_ trivial
    rw [FileCall.arrays, if_pos (fatTarget_unmounted hm name), writeArrays]
    split
    · simp
    exact forall_mem_toList fun r hr ↦
      writtenInto_within (fileArray_some h (fun _ hb ↦ hb) hr).1 content
  | append name content =>
    refine iff_of_true ?_ trivial
    rw [FileCall.arrays, appendArrays]
    split
    · simp
    refine forall_mem_toList fun r hr ↦ ?_
    obtain ⟨hb, hlen⟩ := fileArray_some h
      (fun _ hb ↦ Buffer.store_within.2 ⟨by omega, hb⟩) hr
    exact appendedInto_within hb hlen content
  | cp src dst =>
    refine iff_of_true ?_ trivial
    rw [FileCall.arrays, cpArrays]
    split
    · simp
    split
    · split_ifs
      · simp
      · have hsrc : ∀ node : Node, (Buffer.scan 0 199 node.array 0).1.Within 200 := fun node ↦
          Buffer.scan_within (array_within _ _) (by omega)
        have hdst : ∀ (node : Node) (s : Str), (copyTruncateInto node.array s 200).Within 200 :=
          fun node s ↦ (copyTruncateInto_spec (array_within _ _) (by omega) s).2
        simp [copiedInto, hsrc, hdst]
    · simp
  | writePath path buffer offset junk =>
    cases buffer with
    | none => exact iff_of_true (by simp [FileCall.arrays]) trivial
    | some bytes =>
      cases habs : normalizeAbsolute v path with
      | none =>
        refine iff_of_true (by simp [FileCall.arrays, habs]) (.inr (.inr ?_))
        rw [habs]
        intro abs hnone
        cases hnone
      | some abs =>
        simp only [FileCall.arrays, habs, fatRoute_unmounted hm abs junk, if_true]
        exact writePathArrays_fit h habs bytes offset junk
  | readPath path buffer capacity offset junk =>
    refine iff_of_true ?_ trivial
    rw [FileCall.arrays]
    split_ifs
    · simp
    cases normalizeAbsolute v path with
    | none => simp
    | some abs =>
      dsimp only
      rw [if_pos (fatRoute_unmounted hm abs junk), readPathArrays]
      split
      · simp
      split_ifs with hfile
      · simp
      rename_i i _
      have hlen := h.fits i (not_not.1 hfile)
      rw [List.forall_mem_singleton]
      exact Buffer.loads_within (array_within _ _) (by omega)

theorem vfsInit_terminated (v : Vfs F) : Terminated v.fat (vfsInit (zeroed v)) := by
  have htype : ∀ i : Fin 48, (vfsInit (zeroed v)).typeOf i ≠ .file := by
    intro i
    by_cases h2 : i = 2
    · simp [vfsInit, Vfs.typeOf, h2]
    by_cases h1 : i = 1
    · simp [vfsInit, Vfs.typeOf, h1]
    by_cases h0 : i = 0
    · simp [vfsInit, Vfs.typeOf, h0]
    · simp [vfsInit, Vfs.typeOf, h0, h1, h2]
  have hcontent : ∀ (i : Fin 48) (k : ℕ), ((vfsInit (zeroed v)).nodes i).content k = 0 := by
    intro i k
    by_cases h2 : i = 2
    · simp [vfsInit, zeroed, h2]
    by_cases h1 : i = 1
    · simp [vfsInit, zeroed, h1]
    by_cases h0 : i = 0
    · simp [vfsInit, zeroed, h0]
    · simp [vfsInit, zeroed, h0, h1, h2]
  exact ⟨rfl, rfl, fun i _ ↦ hcontent i, fun i hi ↦ absurd hi (htype i),
    fun i hi ↦ absurd hi (htype i)⟩

/-- Without a FAT32 volume, and as long as no write by path reaches the last byte of a file, every
file has a terminator behind its length and inside its array; and a call stays inside the arrays
just if it is not such a write. -/
theorem ram_contents_bounded (fat : Fat F) (v : Vfs F) (hf : fat.isMounted v.fat = false)
    (calls : List FileCall) (hcalls : Along (fun v (c : FileCall) ↦ c.step fat v) WriteFits
      (vfsInit (zeroed v)) calls) :
    let w := calls.foldl (fun v c ↦ c.step fat v) (vfsInit (zeroed v))
    (∀ i, (w.nodes i).type = .file → (w.nodes i).contentLen ≤ 199 ∧
      (w.nodes i).content (w.nodes i).contentLen = 0) ∧
    ∀ c : FileCall, (∀ b ∈ c.arrays fat w, b.Within 200) ↔ WriteFits w c := by
  intro w
  have h : Terminated v.fat w :=
    Along.invariant (fun v c hv hc ↦ hv.step hf c hc) (vfsInit_terminated v) hcalls
  exact ⟨fun i hi ↦ ⟨h.fits i hi, h.ends i hi⟩, h.arrays hf⟩

instance (v : Vfs F) : (c : FileCall) → Decidable (WriteFits v c)
  | .writePath path (some bytes) offset _ => inferInstanceAs (Decidable (200 ≤ offset ∨
      offset + bytes.length < 200 ∨ ∀ abs ∈ normalizeAbsolute v path, ∀ r ∈ fileAtPath v abs,
        (r.2.nodes r.1).type ≠ .file))
  | .writePath _ none _ _ => .isTrue trivial
  | .touch _ => .isTrue trivial
  | .write _ _ => .isTrue trivial
  | .append _ _ => .isTrue trivial
  | .cp _ _ => .isTrue trivial
  | .readPath _ _ _ _ _ => .isTrue trivial

/-- `write a; append a; cp a b`, and a write to "/mnt/f" at offset 3. -/
def contentCalls : List FileCall :=
  [.write [97] [120, 121], .append [97] [122], .cp [97] [98],
    .writePath [47, 109, 110, 116, 47, 102] (some [65, 0, 66]) 3 .clean]

theorem ram_contents_bounded_sample :
    let w := contentCalls.foldl (fun v c ↦ c.step noFat v) bootVfs
    (w.nodes 5).type = .file ∧ (w.nodes 5).contentLen = 6 ∧ (w.nodes 5).content 6 = 0 := by
  intro w
  have h := ram_contents_bounded noFat storage rfl contentCalls (by decide +kernel)
  have hfile : (w.nodes 5).type = .file := by decide +kernel
  have hlen : (w.nodes 5).contentLen = 6 := by decide +kernel
  have hend : (w.nodes 5).content (w.nodes 5).contentLen = 0 := (h.1 5 hfile).2
  rw [hlen] at hend
  exact ⟨hfile, hlen, hend⟩

def fullWrite : FileCall :=
  .writePath [47, 109, 110, 116, 47, 102] (some (List.replicate 200 120)) 0 .clean

/-- The terminator goes to the byte behind the array, which is the lowest one of the length: the
file has length 0 and does not begin with a terminator. -/
theorem ram_content_overrun :
    let w := fullWrite.step noFat bootVfs
    (∃ b ∈ fullWrite.arrays noFat bootVfs, 200 ∈ b.used) ∧ (w.nodes 3).type = .file ∧
      (w.nodes 3).contentLen = 0 ∧ (w.nodes 3).content 0 = 120 := by
  refine ⟨?_, ?_, ?_, ?_⟩ <;> decide +kernel

end Calls

end NexusOS.Fs
