import NexusOS.Fs.VfsTree

namespace NexusOS.Fs

open Lib Relation

variable {F : Type*} {fat : Fat F} {f : F} {v : Vfs F} {i c p : Fin 48}

/-- The tree, with the FAT32 driver in state `f`. -/
structure RamTree (f : F) (v : Vfs F) : Prop extends Tree v where
  fat : v.fat = f

section Nodes

section

variable (h : RamTree f v)
include h

theorem RamTree.create {node : Node} (hi : v.typeOf i = .free)
    (hp : v.typeOf p = .dir) (hused : node.type ≠ .free) (hparent : node.parent = some p) :
    RamTree f (v.setNode i node) := by
  refine ⟨h.toTree.create hi hp (fun j hj ↦ by simp [hj]) ?_ ?_ rfl, h.fat⟩
  · simp [Vfs.parentOf, hparent]
  · simpa [Vfs.typeOf] using hused

theorem RamTree.replace {node : Node} (htype : node.type = v.typeOf i)
    (hparent : node.parent = v.parentOf i) : RamTree f (v.setNode i node) := by
  refine ⟨h.toTree.congr (fun j ↦ ?_) (fun j ↦ ?_) rfl, h.fat⟩
  · by_cases hj : j = i
    · subst hj
      simpa [Vfs.typeOf] using htype
    · simp [Vfs.typeOf, hj]
  by_cases hj : j = i
  · subst hj
    simpa [Vfs.parentOf] using hparent
  · simp [Vfs.parentOf, hj]

theorem RamTree.chdir (path : Str) (hc : v.typeOf c = .dir) :
    RamTree f { v with cwdPath := path, cwd := some c } :=
  ⟨h.toTree.chdir rfl rfl hc, h.fat⟩

theorem RamTree.childless (hi : ¬ (v.typeOf i = .dir ∧ hasChildren v i = true)) (j : Fin 48)
    (hj : v.typeOf j ≠ .free) : v.parentOf j ≠ some i := by
  intro hji
  have hj0 : j ≠ 0 := by
    rintro rfl
    simp [h.root_parent] at hji
  obtain ⟨q, hq, hdir⟩ := h.parent j hj0 hj
  obtain rfl : i = q := Option.some.inj (hji.symm.trans hq)
  exact hasChildren_eq_false (by simpa [hdir] using hi) j hj hji

theorem RamTree.parent_ne (hi : v.parentOf i = some p) : i ≠ p := by
  rintro rfl
  have h0 : (0 : Fin 48) = i := (h.climbs i).eq_of_loop hi
  simp [← h0, h.root_parent] at hi

end

end Nodes

section Shell

theorem fatTarget_unmounted (hm : fat.isMounted v.fat = false) (name : Str) :
    fatTarget fat v name = none := by
  unfold Fs.fatTarget
  simp only [hm]
  split <;> simp

theorem fatRoute_unmounted (hm : fat.isMounted v.fat = false) (path : Str) (junk : Stale) :
    fatRoute fat v path junk = none := by
  simp [Fs.fatRoute, hm]

variable (hf : fat.isMounted f = false)

include hf in
theorem RamTree.fatTarget (h : RamTree f v) (name : Str) : fatTarget fat v name = none :=
  fatTarget_unmounted (by rw [h.fat, hf]) name

include hf in
theorem RamTree.fatRoute (h : RamTree f v) (path : Str) (junk : Stale) :
    fatRoute fat v path junk = none :=
  fatRoute_unmounted (by rw [h.fat, hf]) path junk

theorem RamTree.createNode (h : RamTree f v) (name : Str) {make : Node → Fin 48 → Node}
    (hmake : ∀ node c, (make node c).type ≠ .free ∧ (make node c).parent = some c) :
    RamTree f (createNode v name make).2 := by
  obtain ⟨c, hc, hdir⟩ := h.cwd
  simp only [Fs.createNode, hc]
  split
  · exact h
  cases hi : findFreeNode v with
  | none => exact h
  | some i =>
    apply h.create (findFreeNode_some hi).2 hdir (hmake _ c).1 (hmake _ c).2

include hf in
theorem RamTree.vfsMkdir (h : RamTree f v) (name : Str) : RamTree f (vfsMkdir fat v name).2 := by
  simp only [Fs.vfsMkdir, h.fatTarget hf]
  apply h.createNode
  simp [newNode]

include hf in
theorem RamTree.vfsTouch (h : RamTree f v) (name : Str) : RamTree f (vfsTouch fat v name).2 := by
  simp only [Fs.vfsTouch, h.fatTarget hf]
  apply h.createNode
  simp [newNode, emptied]

theorem RamTree.freeChild (h : RamTree f v) {name : Str} (hc : v.cwd = some c)
    (hi : findChild v (some c) name = some i)
    (hchild : ¬ (v.typeOf i = .dir ∧ hasChildren v i = true)) : RamTree f (freeNode v i) := by
  have hparent := (findChild_some hi).2
  refine ⟨h.toTree.free ?_ (h.childless hchild) ?_, h.fat⟩
  · rintro rfl
    simp [h.root_parent] at hparent
  rw [hc]
  intro hci
  exact h.parent_ne hparent (Option.some.inj hci).symm

theorem RamTree.vfsRm (h : RamTree f v) (name : Str) : RamTree f (vfsRm v name).2 := by
  obtain ⟨c, hc, -⟩ := h.cwd
  simp only [Fs.vfsRm, hc]
  split
  · exact h
  cases hi : findChild v (some c) name with
  | none => exact h
  | some i =>
    dsimp only
    split
    · exact h
    rename_i hchild
    exact h.freeChild hc hi hchild

theorem RamTree.vfsRmdir (h : RamTree f v) (name : Str) : RamTree f (vfsRmdir v name).2 := by
  obtain ⟨c, hc, -⟩ := h.cwd
  simp only [Fs.vfsRmdir, hc]
  split
  · exact h
  cases hi : findChild v (some c) name with
  | none => exact h
  | some i =>
    dsimp only
    split
    · exact h
    rename_i hchild
    exact h.freeChild hc hi fun hdir ↦ hchild (.inr hdir.2)

/-- The path above the current one leads to a directory, if anywhere. -/
def UpIsDir (v : Vfs F) : Prop :=
  v.cwd ≠ some 0 → ∀ i, walk v 0 (cdComponents (parentPath v.cwdPath).tail) = some i →
    v.typeOf i = .dir

theorem RamTree.vfsCdUp (h : RamTree f v) (hup : UpIsDir v) : RamTree f (vfsCdUp v).2 := by
  unfold Fs.vfsCdUp
  split
  · exact h
  rename_i h0
  split
  · exact h
  dsimp only
  cases hi : walk v 0 (cdComponents (parentPath v.cwdPath).tail) with
  | none =>
    obtain ⟨c, hc, hdir⟩ := h.cwd
    simp only [if_true, hc]
    exact h.chdir _ hdir
  | some i => exact h.chdir _ (hup h0 i hi)

include hf in
theorem RamTree.vfsCd (h : RamTree f v) (name : Str) (junk : Stale)
    (hup : name = [dot, dot] → UpIsDir v) : RamTree f (vfsCd fat v name junk).2 := by
  unfold Fs.vfsCd
  split
  · exact h
  split
  · rename_i hname
    exact h.vfsCdUp (hup hname)
  have hm : fat.isMounted v.fat = false := by rw [h.fat, hf]
  simp only [hm, Bool.false_eq_true, and_false, if_false]
  obtain ⟨c, hc, hdir⟩ := h.cwd
  split
  · exact h
  rename_i i hi
  refine h.chdir _ ?_
  split_ifs at hi
  · exact walkDirs_dir h.root hi
  · exact walkDirs_dir (by simpa [hc] using hdir) hi

theorem RamTree.fileNode (h : RamTree f v) {name : Str} {make : Node → Node} {node node' : Node}
    (hc : v.typeOf c = .dir) (hi : fileNode v c name make = some (i, node))
    (hmake : ∀ node, (make node).type = node.type ∧ (make node).parent = node.parent)
    (htype : node'.type = node.type) (hparent : node'.parent = node.parent) :
    RamTree f (v.setNode i node') := by
  unfold Fs.fileNode at hi
  split at hi
  · split_ifs at hi
    simp only [Option.some.injEq, Prod.mk.injEq] at hi
    obtain ⟨rfl, rfl⟩ := hi
    exact h.replace htype hparent
  obtain ⟨j, hj, heq⟩ := Option.map_eq_some_iff.1 hi
  simp only [Prod.mk.injEq] at heq
  obtain ⟨rfl, rfl⟩ := heq
  refine h.create (findFreeNode_some hj).2 hc ?_ ?_
  · rw [htype, (hmake _).1]
    simp [newNode]
  rw [hparent, (hmake _).2]
  rfl

include hf in
theorem RamTree.vfsWrite (h : RamTree f v) (name content : Str) :
    RamTree f (vfsWrite fat v name content).2 := by
  obtain ⟨c, hc, hdir⟩ := h.cwd
  simp only [Fs.vfsWrite, h.fatTarget hf, hc]
  split
  · exact h
  rename_i i node hi
  exact h.fileNode hdir hi (by simp) rfl rfl

theorem RamTree.vfsAppend (h : RamTree f v) (name content : Str) :
    RamTree f (vfsAppend v name content).2 := by
  obtain ⟨c, hc, hdir⟩ := h.cwd
  simp only [Fs.vfsAppend, hc]
  split
  · exact h
  rename_i i node hi
  exact h.fileNode hdir hi (by simp [emptied]) rfl rfl

theorem RamTree.vfsCp (h : RamTree f v) (src dst : Str) : RamTree f (vfsCp v src dst).2 := by
  obtain ⟨c, hc, hdir⟩ := h.cwd
  simp only [Fs.vfsCp, hc]
  split
  · exact h
  split
  · exact h
  cases hd : findFreeNode v with
  | none => exact h
  | some d =>
    apply h.create (findFreeNode_some hd).2 hdir
    · simp [newNode]
    · rfl

theorem RamTree.vfsMv (h : RamTree f v) (src dst : Str) : RamTree f (vfsMv v src dst).2 := by
  obtain ⟨c, hc, -⟩ := h.cwd
  simp only [Fs.vfsMv, hc]
  split
  · exact h
  split
  · exact h
  · exact h.replace rfl rfl

end Shell

section Paths

variable (hf : fat.isMounted f = false)

include hf in
theorem RamTree.vfsMkdirPath (h : RamTree f v) (path : Str) :
    RamTree f (vfsMkdirPath fat v path).2 := by
  unfold Fs.vfsMkdirPath
  split
  · exact h
  split
  · exact h
  split
  · exact h.vfsMkdir hf _
  cases hp : resolveParentDir v _ with
  | none => exact h
  | some p =>
    dsimp only
    split
    · exact h
    cases hi : findFreeNode v with
    | none => exact h
    | some i =>
      apply h.create (findFreeNode_some hi).2 (resolveParentDir_dir hp)
      · simp [newNode]
      · rfl

theorem RamTree.fileAtPath (h : RamTree f v) {abs : Str} {v' : Vfs F}
    (hi : fileAtPath v abs = some (i, v')) : RamTree f v' := by
  unfold Fs.fileAtPath at hi
  split at hi
  · simp only [Option.some.injEq, Prod.mk.injEq] at hi
    exact hi.2 ▸ h
  split at hi
  · contradiction
  split at hi
  · contradiction
  rename_i p hp
  split at hi
  · simp only [Option.some.injEq, Prod.mk.injEq] at hi
    exact hi.2 ▸ h
  obtain ⟨j, hj, heq⟩ := Option.map_eq_some_iff.1 hi
  simp only [Prod.mk.injEq] at heq
  rw [← heq.2]
  apply h.create (findFreeNode_some hj).2 (resolveParentDir_dir hp)
  · simp [newNode, emptied]
  · rfl

theorem overwritten_type (node : Node) (bytes : List UInt8) (offset : ℕ) :
    (overwritten node bytes offset).type = node.type := by
  simp only [overwritten, terminate]
  split <;> rfl

theorem overwritten_parent (node : Node) (bytes : List UInt8) (offset : ℕ) :
    (overwritten node bytes offset).parent = node.parent := by
  simp only [overwritten, terminate]
  split <;> rfl

include hf in
theorem RamTree.vfsWritePath (h : RamTree f v) (path : Str) (buffer : Option (List UInt8))
    (offset : ℕ) (junk : Stale) : RamTree f (vfsWritePath fat v path buffer offset junk).2 := by
  unfold Fs.vfsWritePath
  split
  · simp only [h.fatRoute hf, writeRamPath]
    split
    · exact h
    rename_i i v' hi
    have h' := h.fileAtPath hi
    split
    · exact h'
    · exact h'.replace (overwritten_type _ _ _) (overwritten_parent _ _ _)
  · exact h

/-- The current directory is not the node that `vfs_unlink_path` frees. -/
def UnlinksOther (v : Vfs F) (path : Str) : Prop :=
  ∀ i, (normalizeAbsolute v path).bind (resolveRamPath v) = some i → 2 < i →
    hasChildren v i = false → v.cwd ≠ some i

theorem RamTree.vfsUnlinkPath (h : RamTree f v) (path : Str) (hcwd : UnlinksOther v path) :
    RamTree f (vfsUnlinkPath v path).2 := by
  unfold Fs.vfsUnlinkPath
  split
  · exact h
  rename_i i hi
  split
  · exact h
  rename_i hkeep
  rw [not_or, not_le] at hkeep
  split
  · exact h
  rename_i hchild
  have hnone := h.childless hchild
  refine ⟨h.toTree.free ?_ hnone (hcwd i hi hkeep.1 ?_), h.fat⟩
  · rintro rfl
    exact absurd hkeep.1 (by decide)
  rw [Bool.eq_false_iff]
  intro hany
  obtain ⟨j, -, hj⟩ := List.any_eq_true.1 hany
  simp only [Bool.and_eq_true, bne_iff_ne, beq_iff_eq] at hj
  exact hnone j hj.1 hj.2

def MovesOut (v : Vfs F) (src dst : Str) : Prop :=
  ∀ i p name, renamePlan v src dst = some (i, p, name) → p ≠ i ∧ isUnder v p (some i) = some false

theorem renamePlan_some {src dst name : Str} (h : renamePlan v src dst = some (i, p, name)) :
    2 < i ∧ v.typeOf p = .dir := by
  simp only [renamePlan, Option.bind_eq_bind, Option.bind_eq_some_iff] at h
  obtain ⟨-, -, -, -, j, -, ⟨parent, base⟩, -, q, hq, hrest⟩ := h
  split_ifs at hrest with hj
  simp only [Option.some.injEq, Prod.mk.injEq] at hrest
  obtain ⟨rfl, rfl, -⟩ := hrest
  rw [not_or, not_le] at hj
  exact ⟨hj.1, resolveParentDir_dir hq⟩

theorem RamTree.vfsRenamePath (h : RamTree f v) (src dst : Str) (hout : MovesOut v src dst) :
    RamTree f (vfsRenamePath v src dst).2 := by
  unfold Fs.vfsRenamePath
  split
  · exact h
  rename_i i p name hplan
  obtain ⟨hi, hdir⟩ := renamePlan_some hplan
  obtain ⟨hpi, hunder⟩ := hout i p name hplan
  obtain ⟨b, hb, habove⟩ := h.isUnder p (some i)
  have hbf : b = false := Option.some.inj (hb.symm.trans hunder)
  have hnot : ¬ Climbs v.parentOf p i := habove hbf (by simpa using hpi) i rfl
  refine ⟨h.toTree.move ?_ hdir hnot (fun j ↦ ?_) (fun j hj ↦ ?_) ?_ rfl, h.fat⟩
  · rintro rfl
    exact absurd hi (by decide)
  · by_cases hj : j = i <;> simp [Vfs.typeOf, hj]
  · simp [Vfs.parentOf, hj]
  · simp [Vfs.parentOf]

end Paths

end NexusOS.Fs
