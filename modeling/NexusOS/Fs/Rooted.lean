import NexusOS.Fs.Normalize

namespace NexusOS.Fs

open Lib

variable {F : Type*} {fat : Fat F} {f : F} {v v' : Vfs F} {i c p : Fin 48} {name path : Str}
  {l l' : List Str}

/-- What every call keeps as long as no volume is mounted: the root, and a current directory with
an absolute path that fits its array. -/
structure Rooted (f : F) (v : Vfs F) : Prop where
  fat : v.fat = f
  root : v.typeOf 0 = .dir
  root_parent : v.parentOf 0 = none
  cwd : v.cwd ≠ none
  absolute : v.cwdPath.head? = some slash
  fits : v.cwdPath.length ≤ 255

section Steps

section

variable (h : Rooted f v)
include h

theorem Rooted.setNode {node : Node} (hi : i ≠ 0) : Rooted f (v.setNode i node) := by
  refine ⟨h.fat, ?_, ?_, h.cwd, h.absolute, h.fits⟩
  · rw [Vfs.typeOf, setNode_nodes, if_neg hi.symm]
    exact h.root
  rw [Vfs.parentOf, setNode_nodes, if_neg hi.symm]
  exact h.root_parent

theorem Rooted.child_ne (hi : findChild v (some c) name = some i) : i ≠ 0 := by
  intro h0
  have hparent := (findChild_some hi).2
  rw [h0, h.root_parent] at hparent
  cases hparent

theorem Rooted.createNode (name : Str) (make : Node → Fin 48 → Node) :
    Rooted f (createNode v name make).2 := by
  unfold Fs.createNode
  split
  · exact h
  split
  · exact h
  cases hi : findFreeNode v with
  | none => exact h
  | some i => exact h.setNode (findFreeNode_some hi).1

theorem Rooted.fileNode {node node' : Node} {make : Node → Node}
    (hi : fileNode v c name make = some (i, node)) : Rooted f (v.setNode i node') := by
  unfold Fs.fileNode at hi
  split at hi
  · rename_i j hj
    split_ifs at hi
    simp only [Option.some.injEq, Prod.mk.injEq] at hi
    exact h.setNode (hi.1 ▸ h.child_ne hj)
  obtain ⟨j, hj, heq⟩ := Option.map_eq_some_iff.1 hi
  simp only [Prod.mk.injEq] at heq
  exact h.setNode (heq.1 ▸ (findFreeNode_some hj).1)

theorem Rooted.fileAtPath {abs : Str} (hi : fileAtPath v abs = some (i, v')) : Rooted f v' := by
  rcases fileAtPath_some hi with rfl | ⟨p, h0, -, -, -, rfl⟩
  · exact h
  · exact h.setNode h0

theorem Rooted.file_ne (hi : (v.nodes i).type = .file) : i ≠ 0 := by
  intro h0
  have hroot := h.root
  rw [Vfs.typeOf, ← h0, hi] at hroot
  cases hroot

end

theorem not_le_two (hi : 2 < i) : i ≠ 0 := by
  intro h0
  rw [h0] at hi
  exact absurd hi (by decide)

theorem pathJoin_shape {base : Str} (habs : base.head? = some slash) (hfits : base.length ≤ 255)
    (name : Str) : ∃ rest, pathJoin base name = slash :: rest ∧
      (rest.length ≤ 254 ∨ rest.length = 255 ∧ rest.getLast? = some slash) := by
  obtain ⟨b, rfl⟩ := absolute_eq_cons habs
  by_cases hname : name.head? = some slash
  · obtain ⟨n, rfl⟩ := absolute_eq_cons hname
    exact ⟨n.take 254, by rw [pathJoin, if_pos hname]; rfl, .inl (List.length_take_le _ _)⟩
  have hne : slash :: b ≠ [] := List.cons_ne_nil _ _
  rw [List.length_cons] at hfits
  simp only [pathJoin, if_neg hname, List.take_of_length_le (show (slash :: b).length ≤ 255 by
    rw [List.length_cons]; omega), if_neg hne]
  by_cases hsep : 1 < (slash :: b).length ∧ (slash :: b).getLast? ≠ some slash
  · rw [if_pos hsep]
    refine ⟨b ++ [slash] ++ name.take (255 - ((slash :: b) ++ [slash]).length), by simp, ?_⟩
    simp only [List.length_append, List.length_cons, List.length_nil, List.length_take]
    by_cases hfull : b.length = 254
    · refine .inr ⟨by omega, ?_⟩
      rw [hfull]
      simp
    · exact .inl (by omega)
  rw [if_neg hsep]
  refine ⟨b ++ name.take (255 - (slash :: b).length), by simp, .inl ?_⟩
  simp only [List.length_append, List.length_cons, List.length_take]
  omega

theorem Rooted.chdir (h : Rooted f v) (hc : c ∈ v'.cwd) (hnodes : v'.nodes = v.nodes)
    (hfat : v'.fat = v.fat) (habs : v'.cwdPath.head? = some slash) (hfits : v'.cwdPath.length ≤ 255) :
    Rooted f v' := by
  refine ⟨hfat.trans h.fat, ?_, ?_, ?_, habs, hfits⟩
  · rw [Vfs.typeOf, hnodes]
    exact h.root
  · rw [Vfs.parentOf, hnodes]
    exact h.root_parent
  rw [hc]
  simp

theorem Rooted.vfsCdUp (h : Rooted f v) : Rooted f (vfsCdUp v).2 := by
  unfold Fs.vfsCdUp
  split
  · exact h
  split
  · exact h
  have hlen := (parentPath_isPrefix v.cwdPath).length_le
  have hhead := parentPath_head h.absolute
  obtain ⟨c, hc⟩ := Option.ne_none_iff_exists'.1 h.cwd
  cases hidx : walk v 0 (cdComponents (parentPath v.cwdPath).tail) with
  | none => exact h.chdir (c := c) (by simpa [hidx] using hc) rfl rfl hhead (hlen.trans h.fits)
  | some i => exact h.chdir (c := i) (by simp [hidx]) rfl rfl hhead (hlen.trans h.fits)

theorem Rooted.vfsCd (h : Rooted f v) (hf : fat.isMounted f = false) (name : Str) (junk : Stale) :
    Rooted f (vfsCd fat v name junk).2 := by
  unfold Fs.vfsCd
  split
  · exact h
  split
  · exact h.vfsCdUp
  have hm : fat.isMounted v.fat = false := by rw [h.fat, hf]
  simp only [hm, Bool.false_eq_true, and_false, if_false]
  split
  · exact h
  rename_i i _
  obtain ⟨rest, hrest, -⟩ := pathJoin_shape h.absolute h.fits name
  refine h.chdir (c := i) rfl rfl rfl ?_ (List.length_take_le _ _)
  rw [hrest]
  rfl

theorem vfsInit_rooted (v : Vfs F) : Rooted v.fat (vfsInit v) :=
  ⟨rfl, rfl, rfl, by simp [vfsInit, Vfs.setNode], rfl, by simp [vfsInit, Vfs.setNode]⟩

theorem Rooted.step (h : Rooted f v) (hf : fat.isMounted f = false) (op : Op) :
    Rooted f (Fs.step fat v op) := by
  have hm : fat.isMounted v.fat = false := by rw [h.fat, hf]
  cases op with
  | init =>
    rw [← h.fat]
    exact vfsInit_rooted v
  | mkdir name =>
    simp only [Fs.step, vfsMkdir, fatTarget_unmounted hm]
    exact h.createNode _ _
  | touch name =>
    simp only [Fs.step, vfsTouch, fatTarget_unmounted hm]
    exact h.createNode _ _
  | rm name =>
    simp only [Fs.step, vfsRm]
    split
    · exact h
    split
    · exact h
    split
    · exact h
    rename_i i hi
    split
    · exact h
    · exact h.setNode (h.child_ne hi)
  | rmdir name =>
    simp only [Fs.step, vfsRmdir]
    split
    · exact h
    split
    · exact h
    split
    · exact h
    rename_i i hi
    split
    · exact h
    · exact h.setNode (h.child_ne hi)
  | cd name junk => exact h.vfsCd hf name junk
  | write name content =>
    simp only [Fs.step, vfsWrite, fatTarget_unmounted hm]
    split
    · exact h
    split
    · exact h
    rename_i hi
    exact h.fileNode hi
  | append name content =>
    simp only [Fs.step, vfsAppend]
    split
    · exact h
    split
    · exact h
    rename_i hi
    exact h.fileNode hi
  | cp src dst =>
    simp only [Fs.step, vfsCp]
    split
    · exact h
    split
    · exact h
    split
    · exact h
    cases hd : findFreeNode v with
    | none => exact h
    | some d => exact h.setNode (findFreeNode_some hd).1
  | mv src dst =>
    simp only [Fs.step, vfsMv]
    split
    · exact h
    split
    · exact h
    rename_i i hi
    split
    · exact h
    · exact h.setNode (h.child_ne hi)
  | mkdirPath path =>
    simp only [Fs.step, vfsMkdirPath]
    split
    · exact h
    split
    · exact h
    split
    · simp only [vfsMkdir, fatTarget_unmounted hm]
      exact h.createNode _ _
    split
    · exact h
    split
    · exact h
    cases hi : findFreeNode v with
    | none => exact h
    | some i => exact h.setNode (findFreeNode_some hi).1
  | writePath path buffer offset junk =>
    simp only [Fs.step, vfsWritePath]
    split
    · simp only [fatRoute_unmounted hm, writeRamPath]
      split
      · exact h
      rename_i i v' hi
      have h' := h.fileAtPath hi
      split
      · exact h'
      rename_i hfile
      rw [not_or, not_not] at hfile
      exact h'.setNode (h'.file_ne hfile.1)
    · exact h
  | unlinkPath path =>
    simp only [Fs.step, vfsUnlinkPath]
    split
    · exact h
    split
    · exact h
    rename_i hi
    rw [not_or, not_le] at hi
    split
    · exact h
    · exact h.setNode (not_le_two hi.1)
  | renamePath src dst =>
    simp only [Fs.step, vfsRenamePath]
    split
    · exact h
    rename_i hplan
    exact h.setNode (not_le_two (renamePlan_some hplan).1)

theorem rooted_run (fat : Fat F) (v : Vfs F) (hf : fat.isMounted v.fat = false) (ops : List Op) :
    Rooted v.fat (ops.foldl (Fs.step fat) (vfsInit (zeroed v))) :=
  foldl_invariant (fun _ op h ↦ h.step hf op) (vfsInit_rooted (zeroed v)) ops

end Steps

section Names

structure Spelled (l : List Str) : Prop where
  good : ∀ n ∈ l, GoodName n
  depth : l.length ≤ 32
  fits : (absPath l).length ≤ 255

theorem Spelled.take_left (h : Spelled (l ++ l')) : Spelled l := by
  refine ⟨fun n hn ↦ h.good n (List.mem_append_left _ hn), ?_, ?_⟩
  · have hdepth := h.depth
    rw [List.length_append] at hdepth
    omega
  by_cases hl : l = []
  · rw [hl]
    decide
  have hfits := h.fits
  rw [length_absPath (by simp [hl]), room_append] at hfits
  rw [length_absPath hl]
  omega

theorem Spelled.room_le (h : Spelled l) : room l ≤ 255 := by
  by_cases hl : l = []
  · rw [hl]
    decide
  rw [← length_absPath hl]
  exact h.fits

theorem Spelled.normalize (h : Spelled l) (v : Vfs F) :
    normalizeAbsolute v (absPath l) = some (absPath l) :=
  normalizeAbsolute_absPath v h.good h.depth h.room_le

theorem normalizeAbsolute_eq (v : Vfs F) (path : Str) : normalizeAbsolute v path =
    ((cutComponents (if path.head? = some slash then copyTruncate path 256
      else pathJoin v.cwdPath path)).foldlM pushComponent []).map
        fun stack ↦ stack.foldl writeComponent [slash] := by
  unfold normalizeAbsolute
  dsimp only
  cases hfold : (cutComponents (if path.head? = some slash then copyTruncate path 256
    else pathJoin v.cwdPath path)).foldlM pushComponent [] with
  | none => simp only [cutComponents] at hfold; simp only [hfold, Option.map_none]
  | some stack => simp only [cutComponents] at hfold; simp only [hfold, Option.map_some]

theorem normalizeAbsolute_spelled {abs rest : Str} (hn : normalizeAbsolute v path = some abs)
    (hrest : (if path.head? = some slash then copyTruncate path 256
      else pathJoin v.cwdPath path) = slash :: rest)
    (hlen : rest.length ≤ 254 ∨ rest.length = 255 ∧ rest.getLast? = some slash) :
    ∃ l, abs = absPath l ∧ Spelled l := by
  rw [normalizeAbsolute_eq, hrest] at hn
  obtain ⟨stack, hfold, hstack⟩ := Option.map_eq_some_iff.1 hn
  obtain ⟨-, hdepth, hgood, hroom, hout⟩ := normalize_combined hlen hfold
  exact ⟨stack, hstack.symm.trans hout, hgood, hdepth, length_absPath_le hroom⟩

theorem normalizeAbsolute_names {abs : Str} (hn : normalizeAbsolute v path = some abs)
    (habs : path.head? = some slash) : ∃ l, abs = absPath l ∧ Spelled l := by
  obtain ⟨rest, rfl⟩ := absolute_eq_cons habs
  exact normalizeAbsolute_spelled (v := v) hn (if_pos habs)
    (.inl (List.length_take_le _ _))

theorem Rooted.normalize {abs : Str} (h : Rooted f v) (hn : normalizeAbsolute v path = some abs) :
    ∃ l, abs = absPath l ∧ Spelled l := by
  by_cases habs : path.head? = some slash
  · exact normalizeAbsolute_names hn habs
  obtain ⟨rest, hrest, hlen⟩ := pathJoin_shape h.absolute h.fits path
  exact normalizeAbsolute_spelled hn ((if_neg habs).trans hrest) hlen

theorem resolveRamPath_absPath (v : Vfs F) (hgood : ∀ n ∈ l, GoodName n) :
    resolveRamPath v (absPath l) = walk v 0 l := by
  rw [resolveRamPath, if_neg (by simp [absPath]), ramComponents_absPath hgood]

theorem absPath_eq_root (hgood : ∀ n ∈ l, GoodName n) : absPath l = [slash] ↔ l = [] := by
  refine ⟨fun heq ↦ ?_, fun hl ↦ by rw [hl]; rfl⟩
  by_contra hl
  have hone := (absPath_getLast hgood hl).1
  rw [heq] at hone
  exact absurd hone (by decide)

theorem absPath_injective (hl : ∀ n ∈ l, GoodName n) (hl' : ∀ n ∈ l', GoodName n)
    (h : absPath l = absPath l') : l = l' := by
  rw [← ramComponents_absPath hl, ← ramComponents_absPath hl', h]

theorem splitLast_absPath {n : Str} (hn : slash ∉ n) :
    splitLast (absPath (l ++ [n])) = if l = [] then none else some (absPath l, n) := by
  have htake : ∀ front : Str,
      ((front ++ slash :: n).reverse.takeWhile (· ≠ slash)).reverse = n := by
    intro front
    have hall : ∀ a ∈ n.reverse, decide (a ≠ slash) = true := by
      intro a ha
      rw [decide_eq_true_eq]
      intro heq
      rw [heq, List.mem_reverse] at ha
      exact hn ha
    rw [List.reverse_append, List.reverse_cons, List.append_assoc, List.takeWhile_append_of_pos hall]
    simp
  have hfront : ∀ front : Str, (front ++ slash :: n).take
      ((front ++ slash :: n).length - n.length - 1) = front := by
    intro front
    have hlen : (front ++ slash :: n).length - n.length - 1 = front.length := by
      rw [List.length_append, List.length_cons]
      omega
    rw [hlen, List.take_left]
  split_ifs with hl
  · have hpath : absPath (l ++ [n]) = [] ++ slash :: n := by
      rw [hl, List.nil_append, absPath_singleton, List.nil_append]
    rw [splitLast, hpath, htake, hfront]
    rfl
  · rw [splitLast, absPath_snoc hl, htake, hfront]
    exact if_neg (List.cons_ne_nil _ _)

def isDirAt (v : Vfs F) (l : List Str) : Bool := (walk v 0 l).any fun i ↦ v.typeOf i == .dir

def sizeAt (v : Vfs F) (l : List Str) : Option ℕ :=
  (walk v 0 l).bind fun i ↦ if v.typeOf i = .file then some (v.nodes i).contentLen else none

theorem vfsIsDirPath_names (hm : fat.isMounted v.fat = false) (hroot : v.typeOf 0 = .dir)
    (hgood : ∀ n ∈ l, GoodName n) (hn : normalizeAbsolute v path = some (absPath l)) (junk : Stale) :
    (vfsIsDirPath fat v path junk).1 = isDirAt v l := by
  simp only [vfsIsDirPath, hn, fatRoute_unmounted hm, resolveRamPath_absPath v hgood, isDirAt]
  by_cases hl : l = []
  · rw [if_pos ((absPath_eq_root hgood).2 hl), hl]
    simp [walk, hroot]
  rw [if_neg (mt (absPath_eq_root hgood).1 hl)]
  cases walk v 0 l with
  | none => rfl
  | some i => rfl

theorem vfsFileSizePath_names (hm : fat.isMounted v.fat = false) (hgood : ∀ n ∈ l, GoodName n)
    (hn : normalizeAbsolute v path = some (absPath l)) (junk : Stale) :
    (vfsFileSizePath fat v path junk).1 = sizeAt v l := by
  simp only [vfsFileSizePath, hn, fatRoute_unmounted hm, resolveRamPath_absPath v hgood, sizeAt]
  cases walk v 0 l with
  | none => rfl
  | some i =>
    dsimp only [Option.bind_some]
    exact ite_not _ _ _

end Names

section Walks

theorem walk_unique (hroot : v.parentOf 0 = none) (h : walk v 0 l = some i)
    (h' : walk v 0 l' = some i) : l = l' := by
  have hlast : ∀ {l : List Str} {n : Str} {i : Fin 48}, walk v 0 (l ++ [n]) = some i →
      ∃ q, walk v 0 l = some q ∧ v.parentOf i = some q ∧ v.nameOf i = n := by
    intro l n i hi
    rw [walk_append, Option.bind_eq_some_iff] at hi
    obtain ⟨q, hq, hchild⟩ := hi
    rw [walk_singleton] at hchild
    exact ⟨q, hq, (findChild_some hchild).2, findChild_name hchild⟩
  induction l using List.reverseRecOn generalizing l' i with
  | nil =>
    obtain rfl : 0 = i := Option.some.inj h
    rcases List.eq_nil_or_concat' l' with rfl | ⟨l', n, rfl⟩
    · rfl
    obtain ⟨q, -, hparent, -⟩ := hlast h'
    rw [hroot] at hparent
    cases hparent
  | append_singleton l n ih =>
    obtain ⟨q, hq, hparent, hname⟩ := hlast h
    rcases List.eq_nil_or_concat' l' with rfl | ⟨l', n', rfl⟩
    · obtain rfl : 0 = i := Option.some.inj h'
      rw [hroot] at hparent
      cases hparent
    obtain ⟨q', hq', hparent', hname'⟩ := hlast h'
    obtain rfl := Option.some.inj (hparent.symm.trans hparent')
    rw [ih hq hq', ← hname, hname']

/-- Names that go down from `p` by `name`. -/
def Passes (v : Vfs F) (p : Fin 48) (name : Str) (l : List Str) : Prop :=
  ∃ l₁ l₂, l = l₁ ++ name :: l₂ ∧ walk v 0 l₁ = some p

theorem find?_of_only {js : List (Fin 48)} {t : Fin 48 → Bool} (ht : ∀ j ∈ js, t j = (j == i))
    (hi : i ∈ js) : js.find? t = some i := by
  induction js with
  | nil => cases hi
  | cons j js ih =>
    have hj := ht j List.mem_cons_self
    by_cases hji : j = i
    · rw [List.find?_cons_of_pos (by rw [hj]; simp [hji]), hji]
    rw [List.find?_cons_of_neg (by rw [hj]; simp [hji])]
    exact ih (fun k hk ↦ ht k (List.mem_cons_of_mem _ hk))
      ((List.mem_cons.1 hi).resolve_left (Ne.symm hji))

variable {node : Node}

theorem findChild_create (hi : v.typeOf i = .free) (hnew : findChild v (some p) name = none)
    (hused : node.type ≠ .free) (hparent : node.parent = some p) (hname : node.name = name)
    (q : Fin 48) (n : Str) : findChild (v.setNode i node) (some q) n =
      if q = p ∧ n = name then some i else findChild v (some q) n := by
  have htest : ∀ j : Fin 48, j ≠ i → (((v.setNode i node).nodes j).type != .free &&
      ((v.setNode i node).nodes j).parent == some q && ((v.setNode i node).nodes j).name == n) =
      ((v.nodes j).type != .free && (v.nodes j).parent == some q && (v.nodes j).name == n) := by
    intro j hj
    rw [setNode_nodes, if_neg hj]
  have hself : (((v.setNode i node).nodes i).type != .free &&
      ((v.setNode i node).nodes i).parent == some q && ((v.setNode i node).nodes i).name == n) =
      decide (q = p ∧ n = name) := by
    rw [setNode_nodes, if_pos rfl, hparent, hname]
    have hty : (node.type != .free) = true := by simpa using hused
    rw [hty, Bool.true_and, Bool.eq_iff_iff]
    simp only [Bool.and_eq_true, beq_iff_eq, Option.some.injEq, decide_eq_true_eq]
    exact ⟨fun ⟨h₁, h₂⟩ ↦ ⟨h₁.symm, h₂.symm⟩, fun ⟨h₁, h₂⟩ ↦ ⟨h₁.symm, h₂.symm⟩⟩
  have hold : ((v.nodes i).type != .free && (v.nodes i).parent == some q &&
      (v.nodes i).name == n) = false := by
    have hfree : (v.nodes i).type = .free := hi
    have hty : ((v.nodes i).type != .free) = false := by rw [hfree]; rfl
    rw [hty, Bool.false_and, Bool.false_and]
  split_ifs with hplace
  · obtain ⟨rfl, rfl⟩ := hplace
    have hnone := List.find?_eq_none.1 hnew
    -- the new node is the only one there
    have honly : ∀ j ∈ List.finRange 48, (((v.setNode i node).nodes j).type != .free &&
        ((v.setNode i node).nodes j).parent == some q &&
        ((v.setNode i node).nodes j).name == n) = (j == i) := by
      intro j hj
      by_cases hji : j = i
      · rw [hji, hself]
        simp
      rw [htest j hji, Bool.eq_false_iff.2 (hnone j hj)]
      simp [hji]
    exact find?_of_only honly (List.mem_finRange i)
  · refine List.find?_congr fun j _ ↦ ?_
    by_cases hji : j = i
    · rw [hji, hself, hold]
      simpa using hplace
    · exact htest j hji

theorem walk_create (hi : v.typeOf i = .free) (hnew : findChild v (some p) name = none)
    (hused : node.type ≠ .free) (hparent : node.parent = some p) (hname : node.name = name)
    (hpass : ¬ Passes v p name l) : walk (v.setNode i node) 0 l = walk v 0 l := by
  induction l using List.reverseRecOn with
  | nil => rfl
  | append_singleton l n ih =>
    have hshort : ¬ Passes v p name l := by
      rintro ⟨l₁, l₂, rfl, hp⟩
      exact hpass ⟨l₁, l₂ ++ [n], by simp, hp⟩
    rw [walk_append, walk_append, ih hshort]
    cases hq : walk v 0 l with
    | none => rfl
    | some q =>
      rw [Option.bind_some, Option.bind_some, walk_singleton, walk_singleton,
        findChild_create hi hnew hused hparent hname, if_neg]
      rintro ⟨rfl, rfl⟩
      exact hpass ⟨l, [], rfl, hq⟩

theorem walk_new (hi : v.typeOf i = .free) (hnew : findChild v (some p) name = none)
    (hused : node.type ≠ .free) (hparent : node.parent = some p) (hname : node.name = name)
    (hp : walk v 0 l = some p) : walk (v.setNode i node) 0 (l ++ [name]) = some i := by
  have hpass : ¬ Passes v p name l := by
    rintro ⟨l₁, l₂, rfl, hp'⟩
    rw [walk_append, hp', Option.bind_some] at hp
    change ((name :: l₂).foldlM (fun parent comp ↦ findChild v (some parent) comp) p) = some p at hp
    rw [List.foldlM_cons, hnew] at hp
    cases hp
  rw [walk_append, walk_create hi hnew hused hparent hname hpass, hp, Option.bind_some,
    walk_singleton, findChild_create hi hnew hused hparent hname, if_pos ⟨rfl, rfl⟩]

theorem walk_ne_free (hroot : v.typeOf 0 = .dir) (hi : v.typeOf i = .free) :
    walk v 0 l ≠ some i := by
  intro hw
  exact walk_used (by simp [hroot]) hw hi

theorem Rooted.at_create (h : Rooted f v) (hi : v.typeOf i = .free)
    (hnew : findChild v (some p) name = none) (hused : node.type ≠ .free)
    (hparent : node.parent = some p) (hname : node.name = name) (hpass : ¬ Passes v p name l) :
    isDirAt (v.setNode i node) l = isDirAt v l ∧ sizeAt (v.setNode i node) l = sizeAt v l := by
  rw [isDirAt, sizeAt, walk_create hi hnew hused hparent hname hpass, isDirAt, sizeAt]
  cases hj : walk v 0 l with
  | none => exact ⟨rfl, rfl⟩
  | some j =>
    have hji : j ≠ i := by
      intro heq
      exact walk_ne_free h.root hi (hj.trans (congrArg some heq))
    have hsame : (v.setNode i node).nodes j = v.nodes j := by rw [setNode_nodes, if_neg hji]
    rw [Option.any_some, Option.any_some, Option.bind_some, Option.bind_some, Vfs.typeOf, hsame]
    exact ⟨rfl, rfl⟩

end Walks

end NexusOS.Fs
