import NexusOS.Fs.VfsSteps
import NexusOS.Lib.Run

namespace NexusOS.Fs

open Lib Relation

variable {F : Type*} {fat : Fat F} {f : F} {v : Vfs F}

/-- Static storage before the first `vfs_init`. -/
def zeroed (v : Vfs F) : Vfs F :=
  { v with nodes := fun _ ↦ ⟨.free, [], some 0, fun _ ↦ 0, 0⟩ }

inductive Op
  | init
  | mkdir (name : Str)
  | touch (name : Str)
  | rm (name : Str)
  | rmdir (name : Str)
  | cd (name : Str) (junk : Stale)
  | write (name content : Str)
  | append (name content : Str)
  | cp (src dst : Str)
  | mv (src dst : Str)
  | mkdirPath (path : Str)
  | writePath (path : Str) (buffer : Option (List UInt8)) (offset : ℕ) (junk : Stale)
  | unlinkPath (path : Str)
  | renamePath (src dst : Str)

def step (fat : Fat F) (v : Vfs F) : Op → Vfs F
  | .init => vfsInit v
  | .mkdir name => (vfsMkdir fat v name).2
  | .touch name => (vfsTouch fat v name).2
  | .rm name => (vfsRm v name).2
  | .rmdir name => (vfsRmdir v name).2
  | .cd name junk => (vfsCd fat v name junk).2
  | .write name content => (vfsWrite fat v name content).2
  | .append name content => (vfsAppend v name content).2
  | .cp src dst => (vfsCp v src dst).2
  | .mv src dst => (vfsMv v src dst).2
  | .mkdirPath path => (vfsMkdirPath fat v path).2
  | .writePath path buffer offset junk => (vfsWritePath fat v path buffer offset junk).2
  | .unlinkPath path => (vfsUnlinkPath v path).2
  | .renamePath src dst => (vfsRenamePath v src dst).2

def Guarded (v : Vfs F) : Op → Prop
  | .cd name _ => name = [dot, dot] → UpIsDir v
  | .unlinkPath path => UnlinksOther v path
  | .renamePath src dst => MovesOut v src dst
  | _ => True

theorem vfsInit_tree (h : ∀ i, Climbs v.parentOf i 0) : RamTree v.fat (vfsInit v) := by
  have h0 : (vfsInit v).nodes 0 = { v.nodes 0 with type := .dir, parent := none, name := [slash] } :=
    rfl
  have h1 : (vfsInit v).parentOf 1 = some 0 := rfl
  have h2 : (vfsInit v).parentOf 2 = some 1 := rfl
  have hother : ∀ i : Fin 48, 2 < i →
      (vfsInit v).typeOf i = .free ∧ (vfsInit v).parentOf i = v.parentOf i := by
    intro i hi
    have hi0 : i ≠ 0 := by rintro rfl; exact absurd hi (by decide)
    have hi1 : i ≠ 1 := by rintro rfl; exact absurd hi (by decide)
    simp [vfsInit, Vfs.typeOf, Vfs.parentOf, hi0, hi1, hi.ne']
  have hsmall : ∀ i : Fin 48, ¬ 2 < i → i = 0 ∨ i = 1 ∨ i = 2 := by decide
  have hone : Climbs (vfsInit v).parentOf 1 0 := Climbs.step h1 ReflTransGen.refl
  refine ⟨⟨rfl, rfl, fun i hi hused ↦ ?_, fun i ↦ ?_, 0, rfl, rfl⟩, rfl⟩
  · by_cases hi2 : 2 < i
    · exact absurd (hother i hi2).1 hused
    · rcases hsmall i hi2 with rfl | rfl | rfl
      · contradiction
      · exact ⟨0, h1, rfl⟩
      · exact ⟨1, h2, rfl⟩
  induction h i using ReflTransGen.head_induction_on with
  | refl => exact ReflTransGen.refl
  | @head a b hab _ ih =>
    by_cases ha : 2 < a
    · exact Climbs.step ((hother a ha).2.trans hab) ih
    rcases hsmall a ha with rfl | rfl | rfl
    · exact ReflTransGen.refl
    · exact hone
    · exact Climbs.step h2 hone

theorem RamTree.step (hf : fat.isMounted f = false) (h : RamTree f v) (op : Op)
    (hop : Guarded v op) : RamTree f (step fat v op) := by
  cases op with
  | init =>
    obtain rfl := h.fat
    exact vfsInit_tree h.climbs
  | mkdir name => exact h.vfsMkdir hf name
  | touch name => exact h.vfsTouch hf name
  | rm name => exact h.vfsRm name
  | rmdir name => exact h.vfsRmdir name
  | cd name junk => exact h.vfsCd hf name junk hop
  | write name content => exact h.vfsWrite hf name content
  | append name content => exact h.vfsAppend name content
  | cp src dst => exact h.vfsCp src dst
  | mv src dst => exact h.vfsMv src dst
  | mkdirPath path => exact h.vfsMkdirPath hf path
  | writePath path buffer offset junk => exact h.vfsWritePath hf path buffer offset junk
  | unlinkPath path => exact h.vfsUnlinkPath path hop
  | renamePath src dst => exact h.vfsRenamePath src dst hop

theorem Tree.vfsDu (h : Tree v) : ∃ usage, vfsDu v = some usage := by
  unfold Fs.vfsDu
  generalize ((0, 0) : ℕ × ℕ) = acc
  induction List.finRange 48 generalizing acc with
  | nil => exact ⟨acc, rfl⟩
  | cons i l ih =>
    rw [List.foldlM_cons]
    split
    · obtain ⟨b, hb, -⟩ := h.isUnder i v.cwd
      rw [hb]
      exact ih _
    · exact ih _

/-- Without a FAT32 volume the nodes stay a tree, as long as nothing is moved below itself, the
current directory is not unlinked and `cd ..` does not lead to a file. -/
theorem vfs_tree_run (fat : Fat F) (v : Vfs F) (hf : fat.isMounted v.fat = false) (ops : List Op)
    (hops : Along (Fs.step fat) Guarded (vfsInit (zeroed v)) ops) :
    let w := ops.foldl (Fs.step fat) (vfsInit (zeroed v))
    (w.nodes 0).type = .dir ∧
    (∀ i, i ≠ 0 → (w.nodes i).type ≠ .free →
      ∃ p, (w.nodes i).parent = some p ∧ (w.nodes p).type = .dir) ∧
    (∀ i, Climbs (fun i ↦ (w.nodes i).parent) i 0) ∧
    (∃ c, w.cwd = some c ∧ (w.nodes c).type = .dir) ∧
    (∀ i root, (isUnder w i root).isSome) ∧ (vfsDu w).isSome := by
  intro w
  have hstart : RamTree v.fat (vfsInit (zeroed v)) :=
    vfsInit_tree (v := zeroed v) fun i ↦ Climbs.step rfl ReflTransGen.refl
  have h : RamTree v.fat w :=
    Along.invariant (fun v op hv hop ↦ hv.step hf op hop) hstart hops
  refine ⟨h.root, h.parent, h.climbs, h.cwd, fun i root ↦ ?_, ?_⟩
  · obtain ⟨b, hb, -⟩ := h.isUnder i root
    simp [hb]
  obtain ⟨usage, husage⟩ := h.vfsDu
  simp [husage]

instance (v : Vfs F) : Decidable (UpIsDir v) :=
  inferInstanceAs (Decidable (v.cwd ≠ some 0 →
    ∀ i, walk v 0 (cdComponents (parentPath v.cwdPath).tail) = some i → v.typeOf i = .dir))

instance (v : Vfs F) (path : Str) : Decidable (UnlinksOther v path) :=
  inferInstanceAs (Decidable (∀ i, (normalizeAbsolute v path).bind (resolveRamPath v) = some i →
    2 < i → hasChildren v i = false → v.cwd ≠ some i))

instance (v : Vfs F) (src dst : Str) : Decidable (MovesOut v src dst) :=
  match h : renamePlan v src dst with
  | none => .isTrue (by simp [MovesOut, h])
  | some (i, p, name) => decidable_of_iff (p ≠ i ∧ isUnder v p (some i) = some false)
      ⟨fun hout _ _ _ heq ↦ by cases h.symm.trans heq; exact hout, fun hout ↦ hout i p name h⟩

instance (v : Vfs F) : (op : Op) → Decidable (Guarded v op)
  | .cd name _ => inferInstanceAs (Decidable (name = [dot, dot] → UpIsDir v))
  | .unlinkPath path => inferInstanceAs (Decidable (UnlinksOther v path))
  | .renamePath src dst => inferInstanceAs (Decidable (MovesOut v src dst))
  | .init => .isTrue trivial
  | .mkdir _ => .isTrue trivial
  | .touch _ => .isTrue trivial
  | .rm _ => .isTrue trivial
  | .rmdir _ => .isTrue trivial
  | .write _ _ => .isTrue trivial
  | .append _ _ => .isTrue trivial
  | .cp _ _ => .isTrue trivial
  | .mv _ _ => .isTrue trivial
  | .mkdirPath _ => .isTrue trivial
  | .writePath _ _ _ _ => .isTrue trivial

def noFat : Fat Unit where
  isMounted _ := false
  isDirectory _ _ := (false, ())
  mkdir _ _ := (false, ())
  writeFile _ _ _ := (false, ())
  readFile _ _ _ := (none, ())

def storage : Vfs Unit :=
  ⟨fun _ ↦ ⟨.free, [], some 0, fun _ ↦ 0, 0⟩, some 0, [], fun _ ↦ ⟨false, [], [], [], 0⟩, fun _ ↦ 0,
    ()⟩

def bootVfs : Vfs Unit := vfsInit (zeroed storage)

/-- `mkdir a; mkdir b; mv /a /b/c; cd b; cd ..; write /b/f; rm /b/c`, by the path-based calls. -/
def guardedOps : List Op :=
  [.mkdir [97], .mkdir [98], .renamePath [47, 97] [47, 98, 47, 99], .cd [98] .clean,
    .cd [46, 46] .clean, .writePath [47, 98, 47, 102] (some [120]) 0 .clean,
    .unlinkPath [47, 98, 47, 99]]

theorem vfs_tree_run_sample :
    let w := guardedOps.foldl (Fs.step noFat) bootVfs
    (w.nodes 5).type = .file ∧ (w.nodes 5).parent = some 4 ∧
    (∀ i, Climbs (fun i ↦ (w.nodes i).parent) i 0) ∧ (vfsDu w).isSome := by
  have h := vfs_tree_run noFat storage rfl guardedOps (by decide +kernel)
  exact ⟨by decide +kernel, by decide +kernel, h.2.2.1, h.2.2.2.2.2⟩

/-- `mkdir a; write /a/f; mv /a /a/b`. -/
def loopOps : List Op :=
  [.mkdir [97], .writePath [47, 97, 47, 102] (some [120]) 0 .clean,
    .renamePath [47, 97] [47, 97, 47, 98]]

/-- The directory becomes its own parent, and the walk of `is_under` from the file does not end. -/
theorem vfs_rename_loop :
    let w := loopOps.foldl (Fs.step noFat) bootVfs
    (w.nodes 3).type = .dir ∧ (w.nodes 3).parent = some 3 ∧
    ¬ Climbs (fun i ↦ (w.nodes i).parent) 3 0 ∧
    (w.nodes 4).type = .file ∧ ∀ n, isUnderLoop w w.cwd n (w.nodes 4).parent = none := by
  intro w
  have hloop : (w.nodes 3).parent = some 3 := by decide +kernel
  have hfile : (w.nodes 4).parent = some 3 := by decide +kernel
  have hcwd : w.cwd = some 0 := by decide +kernel
  refine ⟨by decide +kernel, hloop, fun h ↦ ?_, by decide +kernel, fun n ↦ ?_⟩
  · exact absurd (h.eq_of_loop hloop) (by decide)
  rw [hfile, hcwd]
  induction n with
  | zero => rfl
  | succ n ih => rwa [isUnderLoop, if_neg (by decide), hloop]

end NexusOS.Fs
