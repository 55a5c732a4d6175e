import NexusOS.Fs.VfsPath
import NexusOS.Lib.Parents

namespace NexusOS.Fs

open Lib Relation

variable {F : Type*} {fat : Fat F} {v v' : Vfs F} {i c p : Fin 48}

def Vfs.parentOf (v : Vfs F) (i : Fin 48) : Option (Fin 48) := (v.nodes i).parent

def Vfs.typeOf (v : Vfs F) (i : Fin 48) : NodeType := (v.nodes i).type

/-- The used nodes form a tree of directories below node 0, one of which is the current one. The
parents left in free nodes lead there too. -/
structure Tree (v : Vfs F) : Prop where
  root : v.typeOf 0 = .dir
  root_parent : v.parentOf 0 = none
  parent : ∀ i, i ≠ 0 → v.typeOf i ≠ .free → ∃ p, v.parentOf i = some p ∧ v.typeOf p = .dir
  climbs : ∀ i, Climbs v.parentOf i 0
  cwd : ∃ c, v.cwd = some c ∧ v.typeOf c = .dir

theorem Tree.above_used (h : Tree v) (hi : v.typeOf i ≠ .free) (hp : Climbs v.parentOf i p) :
    v.typeOf p ≠ .free := by
  induction hp with
  | refl => exact hi
  | @tail b d _ hbc ih =>
    have hb0 : b ≠ 0 := by
      rintro rfl
      simp [h.root_parent] at hbc
    obtain ⟨q, hq, hdir⟩ := h.parent b hb0 ih
    obtain rfl : q = d := Option.some.inj (hq.symm.trans hbc)
    simp [hdir]

section Edits

theorem Tree.congr (h : Tree v) (htype : ∀ i, v'.typeOf i = v.typeOf i)
    (hparent : ∀ i, v'.parentOf i = v.parentOf i) (hcwd : v'.cwd = v.cwd) : Tree v' := by
  have hfun : v'.parentOf = v.parentOf := funext hparent
  refine ⟨by rw [htype, h.root], by rw [hparent, h.root_parent], ?_, ?_, ?_⟩
  · intro i hi hused
    rw [htype] at hused
    obtain ⟨p, hp, hdir⟩ := h.parent i hi hused
    exact ⟨p, by rw [hparent, hp], by rw [htype, hdir]⟩
  · rw [hfun]
    exact h.climbs
  · obtain ⟨c, hc, hdir⟩ := h.cwd
    exact ⟨c, by rw [hcwd, hc], by rw [htype, hdir]⟩

theorem Tree.create (h : Tree v) (hi : v.typeOf i = .free) (hp : v.typeOf p = .dir)
    (hother : ∀ j, j ≠ i → v'.nodes j = v.nodes j) (hnew : v'.parentOf i = some p)
    (hused : v'.typeOf i ≠ .free) (hcwd : v'.cwd = v.cwd) : Tree v' := by
  have htype : ∀ j, j ≠ i → v'.typeOf j = v.typeOf j := fun j hj ↦
    congrArg Node.type (hother j hj)
  have hparent : ∀ j, j ≠ i → v'.parentOf j = v.parentOf j := fun j hj ↦
    congrArg Node.parent (hother j hj)
  have hne : ∀ j, v.typeOf j ≠ .free → j ≠ i := by
    rintro j hj rfl
    exact hj hi
  have hdir : ∀ j, v.typeOf j = .dir → v'.typeOf j = .dir := fun j hj ↦
    (htype j (hne j (by simp [hj]))).trans hj
  have hpi : ¬ Climbs v.parentOf p i := fun hpi ↦ h.above_used (by simp [hp]) hpi hi
  have h0 : (0 : Fin 48) ≠ i := hne 0 (by simp [h.root])
  refine ⟨hdir 0 h.root, (hparent 0 h0).trans h.root_parent, fun j hj hju ↦ ?_, fun j ↦ ?_, ?_⟩
  · by_cases hji : j = i
    · subst hji
      exact ⟨p, hnew, hdir p hp⟩
    · rw [htype j hji] at hju
      obtain ⟨q, hq, hqd⟩ := h.parent j hj hju
      exact ⟨q, (hparent j hji).trans hq, hdir q hqd⟩
  · exact (h.climbs j).redirect (h.climbs p) hpi hnew hparent
  · obtain ⟨c, hc, hcd⟩ := h.cwd
    exact ⟨c, hcwd.trans hc, hdir c hcd⟩

theorem Tree.free (h : Tree v) (hi0 : i ≠ 0) (hchild : ∀ j, v.typeOf j ≠ .free →
    v.parentOf j ≠ some i) (hcwd : v.cwd ≠ some i) : Tree (freeNode v i) := by
  have htype : ∀ j, j ≠ i → (freeNode v i).typeOf j = v.typeOf j := fun j hj ↦ by
    simp [freeNode, Vfs.typeOf, hj]
  have hfree : (freeNode v i).typeOf i = .free := by
    simp [freeNode, Vfs.typeOf]
  have hparent : (freeNode v i).parentOf = v.parentOf := by
    funext j
    by_cases hj : j = i <;> simp [freeNode, Vfs.parentOf, hj]
  have hused : ∀ j, (freeNode v i).typeOf j ≠ .free → j ≠ i ∧ v.typeOf j ≠ .free := by
    intro j hj
    have hji : j ≠ i := by
      rintro rfl
      exact hj hfree
    exact ⟨hji, by rwa [← htype j hji]⟩
  refine ⟨(htype 0 (Ne.symm hi0)).trans h.root, by rw [hparent, h.root_parent], fun j hj hju ↦ ?_,
    fun j ↦ ?_, ?_⟩
  · have hju := (hused j hju).2
    obtain ⟨q, hq, hqd⟩ := h.parent j hj hju
    have hqi : q ≠ i := by
      intro hqi
      exact hchild j hju (hqi ▸ hq)
    exact ⟨q, by rw [hparent, hq], (htype q hqi).trans hqd⟩
  · rw [hparent]
    exact h.climbs j
  · obtain ⟨c, hc, hcd⟩ := h.cwd
    have hci : c ≠ i := by
      rintro rfl
      exact hcwd hc
    exact ⟨c, hc, (htype c hci).trans hcd⟩

theorem Tree.move (h : Tree v) (hi0 : i ≠ 0) (hp : v.typeOf p = .dir)
    (hpi : ¬ Climbs v.parentOf p i) (htype : ∀ j, v'.typeOf j = v.typeOf j)
    (hother : ∀ j, j ≠ i → v'.parentOf j = v.parentOf j) (hnew : v'.parentOf i = some p)
    (hcwd : v'.cwd = v.cwd) : Tree v' := by
  refine ⟨by rw [htype, h.root], by rw [hother 0 (Ne.symm hi0), h.root_parent], fun j hj hju ↦ ?_,
    fun j ↦ ?_, ?_⟩
  · by_cases hji : j = i
    · subst hji
      exact ⟨p, hnew, by rw [htype, hp]⟩
    · rw [htype] at hju
      obtain ⟨q, hq, hqd⟩ := h.parent j hj hju
      exact ⟨q, (hother j hji).trans hq, by rw [htype, hqd]⟩
  · exact (h.climbs j).redirect (h.climbs p) hpi hnew hother
  · obtain ⟨c, hc, hcd⟩ := h.cwd
    exact ⟨c, hcwd.trans hc, by rw [htype, hcd]⟩

theorem Tree.chdir (h : Tree v) (hnodes : v'.nodes = v.nodes) (hc : v'.cwd = some c)
    (hdir : v.typeOf c = .dir) : Tree v' := by
  have htype : v'.typeOf = v.typeOf := by
    funext j
    simp [Vfs.typeOf, hnodes]
  have hparent : v'.parentOf = v.parentOf := by
    funext j
    simp [Vfs.parentOf, hnodes]
  refine ⟨by rw [htype, h.root], by rw [hparent, h.root_parent], ?_, ?_, c, hc, by rw [htype, hdir]⟩
  · rw [htype, hparent]
    exact h.parent
  rw [hparent]
  exact h.climbs

end Edits

section Lookup

theorem findChild_some {parent : Option (Fin 48)} {name : Str} (h : findChild v parent name = some i) :
    v.typeOf i ≠ .free ∧ v.parentOf i = parent := by
  have hsome := List.find?_some h
  simp only [Bool.and_eq_true, bne_iff_ne, beq_iff_eq] at hsome
  exact ⟨hsome.1.1, hsome.1.2⟩

theorem findFreeNode_some (h : findFreeNode v = some i) : i ≠ 0 ∧ v.typeOf i = .free := by
  have hsome := List.find?_some h
  simpa [Vfs.typeOf] using hsome

theorem hasChildren_eq_false (h : hasChildren v i = false) (j : Fin 48)
    (hj : v.typeOf j ≠ .free) : v.parentOf j ≠ some i := by
  intro hji
  have hall := List.any_eq_false.1 h j (List.mem_finRange j)
  simp only [Bool.and_eq_true, bne_iff_ne, beq_iff_eq, not_and] at hall
  exact hall hj hji

theorem walk_used {start : Fin 48} {comps : List Str} (hs : v.typeOf start ≠ .free)
    (h : walk v start comps = some i) : v.typeOf i ≠ .free := by
  induction comps generalizing start with
  | nil =>
    obtain rfl : start = i := Option.some.inj h
    exact hs
  | cons comp comps ih =>
    simp only [walk, List.foldlM_cons, Option.bind_eq_bind, Option.bind_eq_some_iff] at h
    obtain ⟨j, hj, hrest⟩ := h
    exact ih (findChild_some hj).1 hrest

theorem walkDirs_dir {start : Fin 48} {comps : List Str} (hs : v.typeOf start = .dir)
    (h : walkDirs v start comps = some i) : v.typeOf i = .dir := by
  induction comps generalizing start with
  | nil =>
    obtain rfl : start = i := Option.some.inj h
    exact hs
  | cons comp comps ih =>
    simp only [walkDirs, List.foldlM_cons, Option.bind_eq_bind, Option.bind_eq_some_iff,
      Option.filter_eq_some_iff, decide_eq_true_eq] at h
    obtain ⟨j, ⟨-, hj⟩, hrest⟩ := h
    exact ih hj hrest

theorem resolveParentDir_dir {parent : Str} (h : resolveParentDir v parent = some p) :
    v.typeOf p = .dir := by
  simp only [resolveParentDir, Option.filter_eq_some_iff, decide_eq_true_eq] at h
  exact h.2

theorem isUnderLoop_seg (root : Option (Fin 48)) {p : Option (Fin 48)} {l : List (Fin 48)} {n : ℕ}
    (h : Seg v.parentOf p l none) (hn : l.length < n) :
    ∃ b, isUnderLoop v root n p = some b ∧ (b = true ↔ ∃ r ∈ l, some r = root) := by
  induction l generalizing p n with
  | nil =>
    obtain rfl : p = none := h
    obtain ⟨n, rfl⟩ : ∃ m, n = m + 1 := ⟨n - 1, by omega⟩
    exact ⟨false, rfl, by simp⟩
  | cons a l ih =>
    obtain ⟨rfl, hseg⟩ := h
    obtain ⟨n, rfl⟩ : ∃ m, n = m + 1 := ⟨n - 1, by omega⟩
    by_cases ha : some a = root
    · exact ⟨true, by simp [isUnderLoop, ha], by simp [ha]⟩
    obtain ⟨b, hb, hiff⟩ := ih hseg (by simpa using hn)
    refine ⟨b, ?_, by simp [hiff, ha]⟩
    simp only [isUnderLoop, if_neg ha]
    exact hb

theorem Tree.isUnder (h : Tree v) (i : Fin 48) (root : Option (Fin 48)) :
    ∃ b, isUnder v i root = some b ∧ (b = false → some i ≠ root →
      ∀ r, some r = root → ¬ Climbs v.parentOf i r) := by
  obtain ⟨l, hl, hmem⟩ := (h.climbs i).seg h.root_parent
  have hle := hl.length_le
  cases l with
  | nil => simp [Seg] at hl
  | cons a l =>
    obtain rfl : i = a := Option.some.inj hl.1
    obtain ⟨b, hb, hiff⟩ := isUnderLoop_seg root (n := 49) hl.2 (by
      simp only [List.length_cons, Fintype.card_fin] at hle
      omega)
    refine ⟨b, hb, fun hbf hir r hr hclimb ↦ ?_⟩
    rcases List.mem_cons.1 ((hmem r).2 hclimb) with rfl | hrl
    · exact hir hr
    have := hiff.2 ⟨r, hrl, hr⟩
    simp [hbf] at this

end Lookup

end NexusOS.Fs
