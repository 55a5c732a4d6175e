import NexusOS.Fs.VfsRun

namespace NexusOS.Fs

open Lib Relation

variable {F : Type*} {fat : Fat F} {v v' : Vfs F} {i j c p : Fin 48} {name : Str}

def Vfs.nameOf (v : Vfs F) (i : Fin 48) : Str := (v.nodes i).name

/-- A name that stays as it is and that a path can lead through. -/
structure GoodName (name : Str) : Prop where
  nonempty : name ≠ []
  no_slash : slash ∉ name
  not_dot : name ≠ [dot]
  not_dots : name ≠ [dot, dot]
  fits : name.length ≤ 23

instance (name : Str) : Decidable (GoodName name) :=
  decidable_of_iff (name ≠ [] ∧ slash ∉ name ∧ name ≠ [dot] ∧ name ≠ [dot, dot] ∧ name.length ≤ 23)
    ⟨fun h ↦ ⟨h.1, h.2.1, h.2.2.1, h.2.2.2.1, h.2.2.2.2⟩,
      fun h ↦ ⟨h.nonempty, h.no_slash, h.not_dot, h.not_dots, h.fits⟩⟩

theorem GoodName.copyTruncate (h : GoodName name) : copyTruncate name 24 = name :=
  List.take_of_length_le h.fits

/-- Every node but the root is in a directory, under a good name that no sibling has. -/
structure Named (v : Vfs F) : Prop where
  root : v.typeOf 0 = .dir
  root_parent : v.parentOf 0 = none
  parent : ∀ i, i ≠ 0 → v.typeOf i ≠ .free → ∃ p, v.parentOf i = some p ∧ v.typeOf p = .dir
  good : ∀ i, i ≠ 0 → v.typeOf i ≠ .free → GoodName (v.nameOf i)
  unique : ∀ i j, v.typeOf i ≠ .free → v.typeOf j ≠ .free → v.parentOf i = v.parentOf j →
    v.nameOf i = v.nameOf j → i = j

section Lookup

theorem findChild_name {parent : Option (Fin 48)} (h : findChild v parent name = some i) :
    v.nameOf i = name := by
  have hsome := List.find?_some h
  simp only [Bool.and_eq_true, beq_iff_eq] at hsome
  exact hsome.2

theorem findChild_none {parent : Option (Fin 48)} (h : findChild v parent name = none)
    (hj : v.typeOf j ≠ .free) (hparent : v.parentOf j = parent) : v.nameOf j ≠ name := by
  intro hname
  have hnone := List.find?_eq_none.1 h j (List.mem_finRange j)
  simp only [Bool.and_eq_true, bne_iff_ne, beq_iff_eq, not_and] at hnone
  exact hnone ⟨hj, hparent⟩ hname

theorem Named.findChild (h : Named v) (hi : v.typeOf i ≠ .free) :
    findChild v (v.parentOf i) (v.nameOf i) = some i := by
  cases hj : Fs.findChild v (v.parentOf i) (v.nameOf i) with
  | none => exact absurd rfl (findChild_none hj hi rfl)
  | some j =>
    obtain ⟨hused, hparent⟩ := findChild_some hj
    rw [h.unique j i hused hi hparent (findChild_name hj)]

theorem Named.ne_root (h : Named v) (hi : v.parentOf i = some p) : i ≠ 0 := by
  intro h0
  rw [h0, h.root_parent] at hi
  cases hi

theorem Named.childless (h : Named v) (hi : ¬ (v.typeOf i = .dir ∧ hasChildren v i = true))
    (hj : v.typeOf j ≠ .free) : v.parentOf j ≠ some i := by
  intro hji
  obtain ⟨q, hq, hdir⟩ := h.parent j (h.ne_root hji) hj
  obtain rfl : i = q := Option.some.inj (hji.symm.trans hq)
  exact hasChildren_eq_false (by simpa [hdir] using hi) j hj hji

theorem Named.above_used (h : Named v) (hi : v.typeOf i ≠ .free) (hp : Climbs v.parentOf i p) :
    v.typeOf p ≠ .free := by
  induction hp with
  | refl => exact hi
  | tail _ hbc ih =>
    obtain ⟨q, hq, hdir⟩ := h.parent _ (h.ne_root hbc) ih
    rw [Option.some.inj (hbc.symm.trans hq), hdir]
    simp

end Lookup

/-- What a call does to the nodes. The names it gives out meet `N`, the nodes it gives up or moves
meet `K`. -/
inductive Edit (N : Str → Prop) (K : Fin 48 → Prop) (v : Vfs F) : Vfs F → Prop
  | refl : Edit N K v v
  | replace {i : Fin 48} {node : Node} (htype : node.type = v.typeOf i)
      (hparent : node.parent = v.parentOf i) (hname : node.name = v.nameOf i) :
      Edit N K v (v.setNode i node)
  | create {i p : Fin 48} {name : Str} {node : Node} (h0 : i ≠ 0) (hi : v.typeOf i = .free)
      (hp : v.typeOf p = .dir) (hnew : findChild v (some p) name = none) (hN : N name)
      (hparent : node.parent = some p) (hname : node.name = copyTruncate name 24) :
      Edit N K v (v.setNode i node)
  | free {i : Fin 48} (h0 : i ≠ 0)
      (hchild : ∀ j, v.typeOf j ≠ .free → v.parentOf j ≠ some i) (hK : K i) :
      Edit N K v (freeNode v i)
  | move {i p : Fin 48} {name : Str} (h0 : i ≠ 0) (hp : v.typeOf p = .dir)
      (hnew : findChild v (some p) name = none) (hN : N name) (hK : K i) :
      Edit N K v (v.setNode i { v.nodes i with parent := some p, name := copyTruncate name 24 })

section Keeps

theorem Named.place (h : Named v) (h0 : i ≠ 0) (hother : ∀ j, j ≠ i → v'.nodes j = v.nodes j)
    (hdir : v.typeOf i = .dir → v'.typeOf i = .dir) (hp : v.typeOf p = .dir)
    (hparent : v'.parentOf i = some p) (hname : v'.nameOf i = name) (hgood : GoodName name)
    (hnew : Fs.findChild v (some p) name = none) : Named v' := by
  have htype : ∀ j, j ≠ i → v'.typeOf j = v.typeOf j := fun j hj ↦
    congrArg Node.type (hother j hj)
  have hpar : ∀ j, j ≠ i → v'.parentOf j = v.parentOf j := fun j hj ↦
    congrArg Node.parent (hother j hj)
  have hnam : ∀ j, j ≠ i → v'.nameOf j = v.nameOf j := fun j hj ↦
    congrArg Node.name (hother j hj)
  have hdirs : ∀ q, v.typeOf q = .dir → v'.typeOf q = .dir := by
    intro q hq
    by_cases hqi : q = i
    · rw [hqi] at hq ⊢
      exact hdir hq
    · rw [htype q hqi, hq]
  -- the place is not that of another node
  have hfree : ∀ j, j ≠ i → v'.typeOf j ≠ .free → v'.parentOf j = some p → v'.nameOf j ≠ name := by
    intro j hj hju hjp
    rw [htype j hj] at hju
    rw [hpar j hj] at hjp
    rw [hnam j hj]
    exact findChild_none hnew hju hjp
  refine ⟨hdirs 0 h.root, by rw [hpar 0 h0.symm, h.root_parent], ?_, ?_, ?_⟩
  · intro j hj hju
    by_cases hji : j = i
    · rw [hji]
      exact ⟨p, hparent, hdirs p hp⟩
    rw [htype j hji] at hju
    obtain ⟨q, hq, hqd⟩ := h.parent j hj hju
    exact ⟨q, by rw [hpar j hji, hq], hdirs q hqd⟩
  · intro j hj hju
    by_cases hji : j = i
    · rw [hji, hname]
      exact hgood
    rw [htype j hji] at hju
    rw [hnam j hji]
    exact h.good j hj hju
  intro j k hju hku hjk hname'
  by_cases hji : j = i
  · by_contra hne
    rw [hji] at hne hjk hname'
    exact hfree k (Ne.symm hne) hku (by rw [← hjk, hparent]) (by rw [← hname', hname])
  by_cases hki : k = i
  · rw [hki] at hjk hname'
    exact absurd (by rw [hname', hname]) (hfree j hji hju (by rw [hjk, hparent]))
  rw [htype j hji] at hju
  rw [htype k hki] at hku
  rw [hpar j hji, hpar k hki] at hjk
  rw [hnam j hji, hnam k hki] at hname'
  exact h.unique j k hju hku hjk hname'

theorem Named.replace {node : Node} (h : Named v) (htype : node.type = v.typeOf i)
    (hparent : node.parent = v.parentOf i) (hname : node.name = v.nameOf i) :
    Named (v.setNode i node) := by
  have ht : (v.setNode i node).typeOf = v.typeOf := by
    funext j
    by_cases hj : j = i <;> simp [Vfs.typeOf, hj, htype]
  have hp : (v.setNode i node).parentOf = v.parentOf := by
    funext j
    by_cases hj : j = i <;> simp [Vfs.parentOf, hj, hparent]
  have hn : (v.setNode i node).nameOf = v.nameOf := by
    funext j
    by_cases hj : j = i <;> simp [Vfs.nameOf, hj, hname]
  refine ⟨by rw [ht, h.root], by rw [hp, h.root_parent], ?_, ?_, ?_⟩
  · rw [ht, hp]
    exact h.parent
  · rw [ht, hn]
    exact h.good
  rw [ht, hp, hn]
  exact h.unique

theorem Named.free (h : Named v) (h0 : i ≠ 0)
    (hchild : ∀ j, v.typeOf j ≠ .free → v.parentOf j ≠ some i) : Named (freeNode v i) := by
  have htype : ∀ j, j ≠ i → (freeNode v i).typeOf j = v.typeOf j := by
    intro j hj
    simp [freeNode, Vfs.typeOf, hj]
  have hparent : (freeNode v i).parentOf = v.parentOf := by
    funext j
    by_cases hj : j = i <;> simp [freeNode, Vfs.parentOf, hj]
  have hname : (freeNode v i).nameOf = v.nameOf := by
    funext j
    by_cases hj : j = i <;> simp [freeNode, Vfs.nameOf, hj]
  have hused : ∀ j, (freeNode v i).typeOf j ≠ .free → v.typeOf j ≠ .free := by
    intro j hj
    by_cases hji : j = i
    · rw [hji] at hj
      exact absurd (by simp [freeNode, Vfs.typeOf]) hj
    · rwa [← htype j hji]
  refine ⟨by rw [htype 0 h0.symm, h.root], by rw [hparent, h.root_parent], ?_, ?_, ?_⟩
  · intro j hj hju
    obtain ⟨q, hq, hqd⟩ := h.parent j hj (hused j hju)
    have hqi : q ≠ i := by
      intro hqi
      exact hchild j (hused j hju) (hqi ▸ hq)
    exact ⟨q, by rw [hparent, hq], by rw [htype q hqi, hqd]⟩
  · intro j hj hju
    rw [hname]
    exact h.good j hj (hused j hju)
  intro j k hj hk hjk hname'
  rw [hparent] at hjk
  rw [hname] at hname'
  exact h.unique j k (hused j hj) (hused k hk) hjk hname'

theorem Named.edit {K : Fin 48 → Prop} (h : Named v) (he : Edit GoodName K v v') : Named v' := by
  cases he with
  | refl => exact h
  | replace htype hparent hname => exact h.replace htype hparent hname
  | @create i p name node h0 hi hp hnew hgood hparent hname =>
    refine h.place h0 (fun j hj ↦ by simp [hj]) ?_ hp ?_ ?_ hgood hnew
    · intro hdir
      rw [hi] at hdir
      cases hdir
    · simpa [Vfs.parentOf] using hparent
    · simp [Vfs.nameOf, hname, hgood.copyTruncate]
  | free h0 hchild _ => exact h.free h0 hchild
  | @move i p name h0 hp hnew hgood _ =>
    refine h.place h0 (fun j hj ↦ by simp [hj]) ?_ hp ?_ ?_ hgood hnew
    · intro hdir
      simpa [Vfs.typeOf] using hdir
    · simp [Vfs.parentOf]
    · simp [Vfs.nameOf, hgood.copyTruncate]

end Keeps

section Calls

variable {N : Str → Prop} {K : Fin 48 → Prop}

section Shell

variable (h : Named v) (hc : v.cwd = some c) (hdir : v.typeOf c = .dir)

include hc hdir in
theorem createNode_edit {make : Node → Fin 48 → Node} (hN : N name)
    (hmake : ∀ node c, (make node c).parent = some c ∧ (make node c).name = copyTruncate name 24) :
    Edit N K v (createNode v name make).2 := by
  simp only [createNode, hc]
  split
  · exact .refl
  rename_i hname
  rw [not_or, not_not] at hname
  cases hi : findFreeNode v with
  | none => exact .refl
  | some i =>
    obtain ⟨h0, hfree⟩ := findFreeNode_some hi
    exact .create h0 hfree hdir hname.2 hN (hmake _ c).1 (hmake _ c).2

include hc hdir in
theorem vfsMkdir_edit (hm : fat.isMounted v.fat = false) (hN : N name) :
    Edit N K v (vfsMkdir fat v name).2 := by
  simp only [vfsMkdir, fatTarget_unmounted hm]
  apply createNode_edit hc hdir hN
  intro node c
  exact ⟨rfl, rfl⟩

include hc hdir in
theorem vfsTouch_edit (hm : fat.isMounted v.fat = false) (hN : N name) :
    Edit N K v (vfsTouch fat v name).2 := by
  simp only [vfsTouch, fatTarget_unmounted hm]
  apply createNode_edit hc hdir hN
  intro node c
  exact ⟨rfl, rfl⟩

section Children

variable (hchildren : ∀ i, v.parentOf i = some c → K i)

include h hchildren in
theorem freeChild_edit (hi : findChild v (some c) name = some i)
    (hchild : ¬ (v.typeOf i = .dir ∧ hasChildren v i = true)) : Edit N K v (freeNode v i) := by
  have hparent := (findChild_some hi).2
  exact .free (h.ne_root hparent) (fun j hj ↦ h.childless hchild hj) (hchildren i hparent)

include h hc hchildren in
theorem vfsRm_edit (name : Str) : Edit N K v (vfsRm v name).2 := by
  simp only [vfsRm, hc]
  split
  · exact .refl
  cases hi : findChild v (some c) name with
  | none => exact .refl
  | some i =>
    dsimp only
    split
    · exact .refl
    rename_i hchild
    exact freeChild_edit h hchildren hi hchild

include h hc hchildren in
theorem vfsRmdir_edit (name : Str) : Edit N K v (vfsRmdir v name).2 := by
  simp only [vfsRmdir, hc]
  split
  · exact .refl
  cases hi : findChild v (some c) name with
  | none => exact .refl
  | some i =>
    dsimp only
    split
    · exact .refl
    rename_i hchild
    exact freeChild_edit h hchildren hi fun hdir ↦ hchild (.inr hdir.2)

include h hc hdir hchildren in
theorem vfsMv_edit (src : Str) {dst : Str} (hN : N dst) : Edit N K v (vfsMv v src dst).2 := by
  simp only [vfsMv, hc]
  cases hi : findChild v (some c) src with
  | none => exact .refl
  | some i =>
    dsimp only
    split
    · exact .refl
    rename_i hdst
    have hparent := (findChild_some hi).2
    have hmove := Edit.move (h.ne_root hparent) hdir (not_not.1 hdst) hN (hchildren i hparent)
    rwa [← hparent] at hmove

end Children

theorem fileNode_edit {make : Node → Node} {node node' : Node} (hdir : v.typeOf c = .dir)
    (hN : N name) (hi : fileNode v c name make = some (i, node))
    (hmake : ∀ node, (make node).parent = node.parent ∧ (make node).name = node.name)
    (htype : node'.type = node.type) (hparent : node'.parent = node.parent)
    (hname : node'.name = node.name) : Edit N K v (v.setNode i node') := by
  unfold fileNode at hi
  split at hi
  · split_ifs at hi
    simp only [Option.some.injEq, Prod.mk.injEq] at hi
    obtain ⟨rfl, rfl⟩ := hi
    exact .replace htype hparent hname
  rename_i hnone
  obtain ⟨j, hj, heq⟩ := Option.map_eq_some_iff.1 hi
  simp only [Prod.mk.injEq] at heq
  obtain ⟨rfl, rfl⟩ := heq
  obtain ⟨h0, hfree⟩ := findFreeNode_some hj
  refine .create h0 hfree hdir hnone hN ?_ ?_
  · rw [hparent, (hmake _).1]
    rfl
  rw [hname, (hmake _).2]
  rfl

include hc hdir in
theorem vfsWrite_edit (hm : fat.isMounted v.fat = false) (hN : N name) (content : Str) :
    Edit N K v (vfsWrite fat v name content).2 := by
  simp only [vfsWrite, fatTarget_unmounted hm, hc]
  split
  · exact .refl
  rename_i i node hi
  exact fileNode_edit hdir hN hi (by simp) rfl rfl rfl

include hc hdir in
theorem vfsAppend_edit (hN : N name) (content : Str) :
    Edit N K v (vfsAppend v name content).2 := by
  simp only [vfsAppend, hc]
  split
  · exact .refl
  rename_i i node hi
  exact fileNode_edit hdir hN hi (by simp [emptied]) rfl rfl rfl

include hc hdir in
theorem vfsCp_edit (src : Str) {dst : Str} (hN : N dst) : Edit N K v (vfsCp v src dst).2 := by
  simp only [vfsCp, hc]
  split
  · exact .refl
  split
  · exact .refl
  rename_i hdst
  rw [not_or, not_not, not_not] at hdst
  cases hd : findFreeNode v with
  | none => exact .refl
  | some d =>
    obtain ⟨h0, hfree⟩ := findFreeNode_some hd
    exact .create h0 hfree hdir hdst.2 hN rfl rfl

end Shell

section Paths

def lastName (abs : Str) : Str :=
  match splitLast abs with
  | none => abs.tail
  | some (_, name) => name

theorem vfsMkdirPath_edit (hc : v.cwd = some c) (hdir : v.typeOf c = .dir)
    (hm : fat.isMounted v.fat = false) {path : Str}
    (hN : ∀ abs ∈ normalizeAbsolute v path, N (lastName abs)) :
    Edit N K v (vfsMkdirPath fat v path).2 := by
  unfold vfsMkdirPath
  split
  · exact .refl
  rename_i abs habs
  have hlast := hN abs habs
  unfold lastName at hlast
  split
  · exact .refl
  cases hsplit : splitLast abs with
  | none =>
    rw [hsplit] at hlast
    exact vfsMkdir_edit hc hdir hm hlast
  | some parts =>
    rw [hsplit] at hlast
    dsimp only
    cases hp : resolveParentDir v parts.1 with
    | none => exact .refl
    | some p =>
      dsimp only
      split
      · exact .refl
      rename_i hnone
      cases hi : findFreeNode v with
      | none => exact .refl
      | some i =>
        obtain ⟨h0, hfree⟩ := findFreeNode_some hi
        exact .create h0 hfree (resolveParentDir_dir hp) (not_not.1 hnone) hlast rfl rfl

theorem fileAtPath_some {abs : Str} (hi : fileAtPath v abs = some (i, v')) :
    v' = v ∨ ∃ p, i ≠ 0 ∧ v.typeOf i = .free ∧ v.typeOf p = .dir ∧
      findChild v (some p) (lastName abs) = none ∧
      v' = v.setNode i (emptied (newNode (v.nodes i) .file p (lastName abs))) := by
  unfold fileAtPath at hi
  split at hi
  · simp only [Option.some.injEq, Prod.mk.injEq] at hi
    exact .inl hi.2.symm
  split at hi
  · contradiction
  rename_i parent base hsplit
  have hlast : lastName abs = base := by rw [lastName, hsplit]
  split at hi
  · contradiction
  rename_i p hp
  split at hi
  · simp only [Option.some.injEq, Prod.mk.injEq] at hi
    exact .inl hi.2.symm
  rename_i hnone
  obtain ⟨j, hj, heq⟩ := Option.map_eq_some_iff.1 hi
  simp only [Prod.mk.injEq] at heq
  obtain ⟨rfl, rfl⟩ := heq
  obtain ⟨h0, hfree⟩ := findFreeNode_some hj
  rw [hlast]
  exact .inr ⟨p, h0, hfree, resolveParentDir_dir hp, hnone, rfl⟩

theorem overwritten_name (node : Node) (bytes : List UInt8) (offset : ℕ) :
    (overwritten node bytes offset).name = node.name := by
  simp only [overwritten, terminate]
  split <;> rfl

theorem setNode_setNode (v : Vfs F) (i : Fin 48) (node node' : Node) :
    (v.setNode i node).setNode i node' = v.setNode i node' := by
  simp [Vfs.setNode]

theorem vfsWritePath_edit (hm : fat.isMounted v.fat = false) {path : Str}
    (hN : ∀ abs ∈ normalizeAbsolute v path, N (lastName abs)) (buffer : Option (List UInt8))
    (offset : ℕ) (junk : Stale) : Edit N K v (vfsWritePath fat v path buffer offset junk).2 := by
  unfold vfsWritePath
  split
  · rename_i bytes abs habs
    have hlast := hN abs habs
    simp only [fatRoute_unmounted hm, writeRamPath]
    split
    · exact .refl
    rename_i i v' hi
    rcases fileAtPath_some hi with rfl | ⟨p, h0, hfree, hp, hnone, rfl⟩
    · split
      · exact .refl
      · exact .replace (overwritten_type _ _ _) (overwritten_parent _ _ _)
          (overwritten_name _ _ _)
    split
    · exact .create h0 hfree hp hnone hlast rfl rfl
    rw [setNode_setNode, setNode_nodes, if_pos rfl]
    exact .create h0 hfree hp hnone hlast (overwritten_parent _ _ _)
      (overwritten_name _ _ _)
  · exact .refl

/-- The node that `vfs_unlink_path` frees, if it frees one. -/
def unlinkPlan (v : Vfs F) (path : Str) : Option (Fin 48) :=
  ((normalizeAbsolute v path).bind (resolveRamPath v)).filter fun i ↦
    2 < i ∧ hasChildren v i = false

theorem vfsUnlinkPath_edit (h : Named v) {path : Str} (hK : ∀ i ∈ unlinkPlan v path, K i) :
    Edit N K v (vfsUnlinkPath v path).2 := by
  unfold vfsUnlinkPath
  split
  · exact .refl
  rename_i i hi
  split
  · exact .refl
  rename_i hkeep
  rw [not_or, not_le] at hkeep
  split
  · exact .refl
  rename_i hchild
  have hnone : ∀ j, v.typeOf j ≠ .free → v.parentOf j ≠ some i := fun j hj ↦
    h.childless hchild hj
  have hno : hasChildren v i = false := by
    rw [Bool.eq_false_iff]
    intro hany
    obtain ⟨j, -, hj⟩ := List.any_eq_true.1 hany
    simp only [Bool.and_eq_true, bne_iff_ne, beq_iff_eq] at hj
    exact hnone j hj.1 hj.2
  refine .free ?_ hnone (hK i ?_)
  · intro h0
    rw [h0] at hkeep
    exact absurd hkeep.1 (by decide)
  · simp [unlinkPlan, hi, hkeep.1, hno]

theorem renamePlan_new {src dst : Str} (h : renamePlan v src dst = some (i, p, name)) :
    findChild v (some p) name = none := by
  simp only [renamePlan, Option.bind_eq_bind, Option.bind_eq_some_iff] at h
  obtain ⟨-, -, -, -, j, -, ⟨parent, base⟩, -, q, -, hrest⟩ := h
  split_ifs at hrest with hj
  simp only [Option.some.injEq, Prod.mk.injEq] at hrest
  obtain ⟨-, rfl, rfl⟩ := hrest
  rw [not_or, not_not] at hj
  exact hj.2

theorem vfsRenamePath_edit {src dst : Str}
    (hplan : ∀ r ∈ renamePlan v src dst, N r.2.2 ∧ K r.1) :
    Edit N K v (vfsRenamePath v src dst).2 := by
  unfold vfsRenamePath
  split
  · exact .refl
  rename_i i p name hr
  obtain ⟨hi, hdir⟩ := renamePlan_some hr
  obtain ⟨hN, hK⟩ := hplan _ hr
  refine .move ?_ hdir (renamePlan_new hr) hN hK
  intro h0
  rw [h0] at hi
  exact absurd hi (by decide)

end Paths

def givenName (v : Vfs F) : Op → Option Str
  | .mkdir name | .touch name | .write name _ | .append name _ => some name
  | .cp _ dst | .mv _ dst => some dst
  | .mkdirPath path | .writePath path _ _ _ => (normalizeAbsolute v path).map lastName
  | .renamePath src dst => (renamePlan v src dst).map fun r ↦ r.2.2
  | _ => none

def uprooted (v : Vfs F) : Op → Option (Fin 48)
  | .unlinkPath path => unlinkPlan v path
  | .renamePath src dst => (renamePlan v src dst).map Prod.fst
  | _ => none

/-- The calls that leave the current directory to `vfs_cd` and `vfs_init`. -/
def Op.inPlace : Op → Bool
  | .cd _ _ | .init => false
  | _ => true

theorem step_edit (hm : fat.isMounted v.fat = false) (h : Named v) (hc : v.cwd = some c)
    (hdir : v.typeOf c = .dir) (hchildren : ∀ i, v.parentOf i = some c → K i) {op : Op}
    (hop : op.inPlace = true) (hN : ∀ n ∈ givenName v op, N n) (hK : ∀ i ∈ uprooted v op, K i) :
    Edit N K v (step fat v op) := by
  cases op with
  | init | cd => cases hop
  | mkdir name => exact vfsMkdir_edit hc hdir hm (hN name rfl)
  | touch name => exact vfsTouch_edit hc hdir hm (hN name rfl)
  | rm name => exact vfsRm_edit h hc hchildren name
  | rmdir name => exact vfsRmdir_edit h hc hchildren name
  | write name content => exact vfsWrite_edit hc hdir hm (hN name rfl) content
  | append name content => exact vfsAppend_edit hc hdir (hN name rfl) content
  | cp src dst => exact vfsCp_edit hc hdir src (hN dst rfl)
  | mv src dst => exact vfsMv_edit h hc hdir hchildren src (hN dst rfl)
  | mkdirPath path =>
    apply vfsMkdirPath_edit hc hdir hm
    intro abs habs
    exact hN _ (Option.mem_map_of_mem lastName habs)
  | writePath path buffer offset junk =>
    apply vfsWritePath_edit hm
    intro abs habs
    exact hN _ (Option.mem_map_of_mem lastName habs)
  | unlinkPath path => exact vfsUnlinkPath_edit h hK
  | renamePath src dst =>
    apply vfsRenamePath_edit
    intro r hr
    exact ⟨hN _ (Option.mem_map_of_mem (fun r ↦ r.2.2) hr), hK _ (Option.mem_map_of_mem Prod.fst hr)⟩

end Calls

end NexusOS.Fs
