import NexusOS.Fs.Rooted

namespace NexusOS.Fs

open Lib

variable {F : Type*} {fat : Fat F} {f : F} {v : Vfs F} {i c p : Fin 48} {name path : Str}
  {l l' : List Str}

section Inside

theorem absPath_append (hl : l ≠ []) (hl' : l' ≠ []) :
    absPath (l ++ l') = absPath l ++ absPath l' := by
  induction l' using List.reverseRecOn with
  | nil => exact absurd rfl hl'
  | append_singleton l' n ih =>
    by_cases hnil : l' = []
    · rw [hnil, List.nil_append, absPath_snoc hl, absPath_singleton]
    rw [← List.append_assoc, absPath_snoc (by simp [hl]), ih hnil, absPath_snoc hnil,
      List.append_assoc]

theorem covers_absPath (hl : ∀ n ∈ l, GoodName n) (hl' : ∀ n ∈ l', GoodName n) (hne : l ≠ []) :
    Covers (absPath l) (absPath l') ↔ l <+: l' := by
  constructor
  · rintro (⟨hroot, -⟩ | heq | ⟨rest, hrest⟩)
    · exact absurd ((absPath_eq_root hl).1 hroot) hne
    · rw [absPath_injective hl' hl heq]
    · have hne' : l' ≠ [] := by
        rintro rfl
        have hlen := congrArg List.length hrest
        simp [absPath] at hlen
      have hsplit := splitOn_absPath hl' hne'
      have htail : (absPath l').tail = (absPath l).tail ++ slash :: rest := by
        rw [← hrest]
        simp [absPath]
      rw [htail, splitOn_append_cons, splitOn_absPath hl hne] at hsplit
      exact ⟨_, hsplit⟩
  · rintro ⟨rest, rfl⟩
    by_cases hrest : rest = []
    · rw [hrest, List.append_nil]
      exact .inr (.inl rfl)
    rw [absPath_append hne hrest]
    exact .inr (.inr ⟨(absPath rest).tail, by simp [absPath]⟩)

end Inside

/-- A path that leads to the directory of another path or below it. -/
def Inside (v : Vfs F) (path q : Str) : Prop :=
  ∃ abs ∈ normalizeAbsolute v path, ∃ abs' ∈ normalizeAbsolute v q, Covers abs abs'

/-- Creation by path makes the directory of that path and nothing else, and succeeds where there is
room for it. -/
structure CreatesPath (fat : Fat F) (v : Vfs F) (path : Str) : Prop where
  made : (vfsMkdirPath fat v path).1 = true → ∀ junk,
    (vfsIsDirPath fat (vfsMkdirPath fat v path).2 path junk).1 = true
  frame : (vfsMkdirPath fat v path).1 = true → ∀ q junk, ¬ Inside v path q →
    (vfsIsDirPath fat (vfsMkdirPath fat v path).2 q junk).1 = (vfsIsDirPath fat v q junk).1 ∧
    (vfsFileSizePath fat (vfsMkdirPath fat v path).2 q junk).1 = (vfsFileSizePath fat v q junk).1
  succeeds : ∀ abs junk, normalizeAbsolute v path = some abs →
    (vfsIsDirPath fat v (parentPath abs) junk).1 = true → resolveRamPath v abs = none →
    findFreeNode v ≠ none → (vfsMkdirPath fat v path).1 = true

/-- A directory made in `c` instead of the root makes no difference to what is promised of the
root: nothing can be made, the name is taken in both, or it is there in the root and no path outside
of it leads to the new one. -/
def Unseen (v : Vfs F) (c : Fin 48) (name : Str) : Prop :=
  findFreeNode v = none ∨ findChild v (some c) name ≠ none ∧ findChild v (some 0) name ≠ none ∨
    findChild v (some c) name = none ∧ isDirAt v [name] = true ∧
      ∀ l, walk v 0 l = some c → Spelled (l ++ [name]) → l.head? = some name

section Create

variable {node : Node}

theorem normalizeAbsolute_setNode (v : Vfs F) (i : Fin 48) (node : Node) (path : Str) :
    normalizeAbsolute (v.setNode i node) path = normalizeAbsolute v path := rfl

theorem newNode_name (hname : GoodName name) (node : Node) (type : NodeType) (p : Fin 48) :
    (newNode node type p name).name = name := hname.copyTruncate

theorem Rooted.frame_create (h : Rooted f v) (hm : fat.isMounted v.fat = false)
    (hi : v.typeOf i = .free) (hnew : findChild v (some p) name = none) (hused : node.type ≠ .free)
    (hparent : node.parent = some p) (hname : node.name = name) (q : Str) (junk : Stale)
    (hpass : ∀ l, normalizeAbsolute v q = some (absPath l) → Spelled l → ¬ Passes v p name l) :
    (vfsIsDirPath fat (v.setNode i node) q junk).1 = (vfsIsDirPath fat v q junk).1 ∧
    (vfsFileSizePath fat (v.setNode i node) q junk).1 = (vfsFileSizePath fat v q junk).1 := by
  cases hq : normalizeAbsolute v q with
  | none =>
    have hq' := (normalizeAbsolute_setNode v i node q).trans hq
    simp only [vfsIsDirPath, vfsFileSizePath, hq, hq', and_self]
  | some abs =>
    obtain ⟨l, rfl, hl⟩ := h.normalize hq
    have hq' := (normalizeAbsolute_setNode v i node q).trans hq
    have hi0 : i ≠ 0 := by
      intro h0
      have hroot := h.root
      rw [← h0, hi] at hroot
      cases hroot
    have hm' : fat.isMounted (v.setNode i node).fat = false := hm
    obtain ⟨hdir, hsize⟩ := h.at_create hi hnew hused hparent hname (hpass l hq hl)
    rw [vfsIsDirPath_names hm' (h.setNode hi0).root hl.good hq',
      vfsIsDirPath_names hm h.root hl.good hq, vfsFileSizePath_names hm' hl.good hq',
      vfsFileSizePath_names hm hl.good hq]
    exact ⟨hdir, hsize⟩

theorem isDirAt_new (hi : v.typeOf i = .free) (hnew : findChild v (some p) name = none)
    (htype : node.type = .dir) (hparent : node.parent = some p) (hname : node.name = name)
    (hp : walk v 0 l = some p) : isDirAt (v.setNode i node) (l ++ [name]) = true := by
  rw [isDirAt, walk_new hi hnew (by simp [htype]) hparent hname hp, Option.any_some, Vfs.typeOf,
    setNode_nodes, if_pos rfl, htype]
  rfl

theorem Rooted.made_there (h : Rooted f v) (hm : fat.isMounted v.fat = false)
    (hl : Spelled (l ++ [name])) (hn : normalizeAbsolute v path = some (absPath (l ++ [name])))
    (hp : walk v 0 l = some p) (hnew : findChild v (some p) name = none)
    (hi : findFreeNode v = some i)
    (hmade : vfsMkdirPath fat v path = (true, v.setNode i (newNode (v.nodes i) .dir p name))) :
    CreatesPath fat v path := by
  obtain ⟨hi0, hfree⟩ := findFreeNode_some hi
  have hname := newNode_name (hl.good name (by simp)) (v.nodes i) .dir p
  refine ⟨fun _ junk ↦ ?_, fun _ q junk hout ↦ ?_, fun _ _ _ _ _ _ ↦ by rw [hmade]⟩
  · have hm' : fat.isMounted (vfsMkdirPath fat v path).2.fat = false := by
      rw [hmade]
      exact hm
    have hroot : (vfsMkdirPath fat v path).2.typeOf 0 = .dir := by
      rw [hmade]
      exact (h.setNode hi0).root
    rw [vfsIsDirPath_names hm' hroot hl.good (by rw [hmade]; exact hn), hmade]
    exact isDirAt_new hfree hnew rfl rfl hname hp
  rw [hmade]
  refine h.frame_create hm hfree hnew (by simp [newNode]) rfl hname q junk fun l' hq hl' ↦ ?_
  rintro ⟨l₁, l₂, rfl, hp'⟩
  -- names lead to the parent in one way, so these pass through the new directory
  obtain rfl := walk_unique h.root_parent hp hp'
  refine hout ⟨_, hn, _, hq, (covers_absPath hl.good hl'.good (by simp)).2 ⟨l₂, ?_⟩⟩
  rw [List.append_assoc, List.singleton_append]

end Create

section Iff

theorem Rooted.succeeds_names (h : Rooted f v) (hm : fat.isMounted v.fat = false)
    (hl : Spelled (l ++ [name])) (hn : normalizeAbsolute v path = some (absPath (l ++ [name]))) :
    (∀ abs junk, normalizeAbsolute v path = some abs →
      (vfsIsDirPath fat v (parentPath abs) junk).1 = true → resolveRamPath v abs = none →
      findFreeNode v ≠ none → (vfsMkdirPath fat v path).1 = true) ↔
    (isDirAt v l = true → walk v 0 (l ++ [name]) = none → findFreeNode v ≠ none →
      (vfsMkdirPath fat v path).1 = true) := by
  have hfront := hl.take_left
  have hparent := parentPath_absPath (l := l) (hl.good name (by simp)).no_slash
  have hdir : ∀ junk, (vfsIsDirPath fat v (parentPath (absPath (l ++ [name]))) junk).1 =
      isDirAt v l := by
    intro junk
    rw [hparent, vfsIsDirPath_names hm h.root hfront.good (hfront.normalize v)]
  have hres := resolveRamPath_absPath v hl.good
  constructor
  · intro hall hd hw hfree
    exact hall _ .clean hn (by rw [hdir, hd]) (by rw [hres, hw]) hfree
  intro hone abs junk habs hd hw hfree
  obtain rfl := Option.some.inj (hn.symm.trans habs)
  rw [hdir] at hd
  rw [hres] at hw
  exact hone hd hw hfree

theorem Rooted.creates_of_failed (h : Rooted f v) (hm : fat.isMounted v.fat = false)
    (hl : Spelled (l ++ [name])) (hn : normalizeAbsolute v path = some (absPath (l ++ [name])))
    (hfail : vfsMkdirPath fat v path = (false, v)) : CreatesPath fat v path ↔
      (isDirAt v l = true → walk v 0 (l ++ [name]) = none → findFreeNode v = none) := by
  have hfalse : (vfsMkdirPath fat v path).1 ≠ true := by simp [hfail]
  constructor
  · intro hc hd hw
    by_contra hfree
    exact hfalse ((h.succeeds_names hm hl hn).1 hc.succeeds hd hw hfree)
  intro hno
  refine ⟨fun ht ↦ absurd ht hfalse, fun ht ↦ absurd ht hfalse, ?_⟩
  exact (h.succeeds_names hm hl hn).2 fun hd hw hfree ↦ absurd (hno hd hw) hfree

theorem resolveParentDir_names (hgood : ∀ n ∈ l, GoodName n) (hdir : isDirAt v l = true) :
    ∃ p, resolveParentDir v (absPath l) = some p := by
  rw [isDirAt] at hdir
  rw [resolveParentDir, resolveRamPath_absPath v hgood]
  cases hp : walk v 0 l with
  | none => rw [hp] at hdir; cases hdir
  | some p =>
    rw [hp, Option.any_some, beq_iff_eq] at hdir
    exact ⟨p, Option.filter_eq_some_iff.2 ⟨rfl, decide_eq_true hdir⟩⟩

theorem Rooted.creates_below (h : Rooted f v) (hm : fat.isMounted v.fat = false) (hne : l ≠ [])
    (hl : Spelled (l ++ [name])) (hn : normalizeAbsolute v path = some (absPath (l ++ [name]))) :
    CreatesPath fat v path := by
  have hfront := hl.take_left
  have hroot : absPath (l ++ [name]) ≠ [slash] := by
    rw [ne_eq, absPath_eq_root hl.good]
    simp
  have hsplit := splitLast_absPath (l := l) (hl.good name (by simp)).no_slash
  rw [if_neg hne] at hsplit
  cases hp : resolveParentDir v (absPath l) with
  | none =>
    refine (h.creates_of_failed hm hl hn ?_).2 fun hdir _ ↦ ?_
    · simp only [vfsMkdirPath, hn, if_neg hroot, hsplit, hp]
    obtain ⟨p, hsome⟩ := resolveParentDir_names hfront.good hdir
    rw [hp] at hsome
    cases hsome
  | some p =>
    have hw : walk v 0 l = some p := by
      rw [← resolveRamPath_absPath v hfront.good]
      exact (Option.filter_eq_some_iff.1 hp).1
    by_cases hnew : findChild v (some p) name = none
    · cases hi : findFreeNode v with
      | none =>
        refine (h.creates_of_failed hm hl hn ?_).2 fun _ _ ↦ hi
        simp only [vfsMkdirPath, hn, if_neg hroot, hsplit, hp, hnew, ne_eq, not_true_eq_false,
          if_false, hi]
      | some i =>
        refine h.made_there hm hl hn hw hnew hi ?_
        simp only [vfsMkdirPath, hn, if_neg hroot, hsplit, hp, hnew, ne_eq, not_true_eq_false,
          if_false, hi]
    refine (h.creates_of_failed hm hl hn ?_).2 fun _ hres ↦ ?_
    · simp only [vfsMkdirPath, hn, if_neg hroot, hsplit, hp, if_pos hnew]
    rw [walk_append, hw, Option.bind_some, walk_singleton] at hres
    exact absurd hres hnew

theorem vfsMkdirPath_single (hm : fat.isMounted v.fat = false) (hname : GoodName name)
    (hn : normalizeAbsolute v path = some (absPath [name])) :
    vfsMkdirPath fat v path = createNode v name fun node c ↦ newNode node .dir c name := by
  have hroot : absPath [name] ≠ [slash] := by
    rw [absPath_singleton]
    simpa using hname.nonempty
  have hsplit := splitLast_absPath (l := []) hname.no_slash
  rw [if_pos rfl, List.nil_append] at hsplit
  have htail : (absPath [name]).tail = name := by rw [absPath_singleton, List.tail_cons]
  simp only [vfsMkdirPath, hn, if_neg hroot, hsplit, vfsMkdir, fatTarget_unmounted hm, htail]

theorem Rooted.made_elsewhere (h : Rooted f v) (hm : fat.isMounted v.fat = false)
    (hl : Spelled [name]) (hn : normalizeAbsolute v path = some (absPath [name])) (hc : c ≠ 0)
    (hnew : findChild v (some c) name = none) (hi : findFreeNode v = some i)
    (hmade : vfsMkdirPath fat v path = (true, v.setNode i (newNode (v.nodes i) .dir c name))) :
    CreatesPath fat v path ↔ isDirAt v [name] = true ∧
      ∀ l, walk v 0 l = some c → Spelled (l ++ [name]) → l.head? = some name := by
  obtain ⟨hi0, hfree⟩ := findFreeNode_some hi
  have hname := newNode_name (hl.good name (by simp)) (v.nodes i) .dir c
  have hused : (newNode (v.nodes i) .dir c name).type ≠ .free := by simp [newNode]
  have hm' : fat.isMounted (v.setNode i (newNode (v.nodes i) .dir c name)).fat = false := hm
  have hroot : (v.setNode i (newNode (v.nodes i) .dir c name)).typeOf 0 = .dir :=
    (h.setNode hi0).root
  have htrue : (vfsMkdirPath fat v path).1 = true := by rw [hmade]
  -- the path itself does not go through the new directory
  have hself : ¬ Passes v c name [name] := by
    rintro ⟨l₁, l₂, heq, hw⟩
    have hnil : l₁ = [] := by
      have hlen := congrArg List.length heq
      rw [List.length_append, List.length_singleton, List.length_cons] at hlen
      exact List.length_eq_zero_iff.1 (by omega)
    rw [hnil] at hw
    exact hc (Option.some.inj hw).symm
  have hthere : ∀ junk, (vfsIsDirPath fat (vfsMkdirPath fat v path).2 path junk).1 =
      isDirAt v [name] := by
    intro junk
    rw [hmade, vfsIsDirPath_names hm' hroot hl.good hn,
      (h.at_create hfree hnew hused rfl hname hself).1]
  constructor
  · intro hcreates
    refine ⟨by rw [← hthere .clean, hcreates.made htrue], fun l hw hspelled ↦ ?_⟩
    by_contra hhead
    have hq := hspelled.normalize v
    have hframe := (hcreates.frame htrue (absPath (l ++ [name])) .clean ?_).1
    · rw [hmade, vfsIsDirPath_names hm' hroot hspelled.good hq,
        vfsIsDirPath_names hm h.root hspelled.good hq,
        isDirAt_new hfree hnew rfl rfl hname hw, isDirAt, walk_append, hw, Option.bind_some,
        walk_singleton, hnew] at hframe
      cases hframe
    rintro ⟨abs, habs, abs', habs', hcov⟩
    obtain rfl := Option.some.inj (hn.symm.trans habs)
    obtain rfl := Option.some.inj (hq.symm.trans habs')
    obtain ⟨rest, hrest⟩ := (covers_absPath hl.good hspelled.good (by simp)).1 hcov
    cases l with
    | nil => exact hc (Option.some.inj hw).symm
    | cons first l =>
      rw [List.singleton_append, List.cons_append, List.cons.injEq] at hrest
      exact hhead (congrArg some hrest.1.symm)
  · rintro ⟨hdir, hseen⟩
    refine ⟨fun _ junk ↦ by rw [hthere, hdir], fun _ q junk hout ↦ ?_, fun _ _ _ _ _ _ ↦ htrue⟩
    rw [hmade]
    refine h.frame_create hm hfree hnew hused rfl hname q junk fun l hq hspelled ↦ ?_
    rintro ⟨l₁, l₂, rfl, hw⟩
    have hupto : Spelled (l₁ ++ [name] ++ l₂) := by
      rw [List.append_assoc, List.singleton_append]
      exact hspelled
    obtain ⟨rest, rfl⟩ := List.head?_eq_some_iff.1 (hseen l₁ hw hupto.take_left)
    refine hout ⟨_, hn, _, hq, (covers_absPath hl.good hspelled.good (by simp)).2 ?_⟩
    exact ⟨rest ++ name :: l₂, rfl⟩

theorem Rooted.creates_single (h : Rooted f v) (hm : fat.isMounted v.fat = false)
    (hc : v.cwd = some c) (hl : Spelled [name])
    (hn : normalizeAbsolute v path = some (absPath [name])) :
    CreatesPath fat v path ↔ (c ≠ 0 → Unseen v c name) := by
  have hname := hl.good name (by simp)
  have hcall := vfsMkdirPath_single hm hname hn
  by_cases hnew : findChild v (some c) name = none
  · cases hi : findFreeNode v with
    | none =>
      have hfail : vfsMkdirPath fat v path = (false, v) := by
        simp only [hcall, Fs.createNode, hc, hname.nonempty, hnew, ne_eq, not_true_eq_false, or_self,
          if_false, hi]
      refine iff_of_true ?_ fun _ ↦ .inl hi
      exact (h.creates_of_failed (l := []) hm hl hn hfail).2 fun _ _ ↦ hi
    | some i =>
      have hmade : vfsMkdirPath fat v path =
          (true, v.setNode i (newNode (v.nodes i) .dir c name)) := by
        simp only [hcall, Fs.createNode, hc, hname.nonempty, hnew, ne_eq, not_true_eq_false, or_self,
          if_false, hi]
      by_cases hc0 : c = 0
      · refine iff_of_true ?_ fun hne ↦ absurd hc0 hne
        rw [hc0] at hnew hmade
        exact h.made_there (l := []) hm hl hn rfl hnew hi hmade
      · rw [h.made_elsewhere hm hl hn hc0 hnew hi hmade]
        simp [Unseen, hc0, hnew, hi]
  · have hfail : vfsMkdirPath fat v path = (false, v) := by
      simp only [hcall, Fs.createNode, hc, if_pos (Or.inr hnew)]
    have hrootdir : isDirAt v [] = true := by simp [isDirAt, walk, h.root]
    rw [h.creates_of_failed (l := []) hm hl hn hfail, List.nil_append, walk_singleton]
    constructor
    · intro hno _
      by_cases hroot : findChild v (some 0) name = none
      · exact .inl (hno hrootdir hroot)
      · exact .inr (.inl ⟨hnew, hroot⟩)
    intro hunseen _ hroot
    have hc0 : c ≠ 0 := by
      intro h0
      rw [h0] at hnew
      exact hnew hroot
    rcases hunseen hc0 with hi | ⟨-, htaken⟩ | ⟨hfree, -⟩
    · exact hi
    · exact absurd hroot htaken
    · exact absurd hfree hnew

end Iff

/-- Where creation by path goes right: anywhere but for a path of one name while the current
directory is another one than the root, and there if it makes no difference. -/
def MadeInRoot (v : Vfs F) (path : Str) : Prop :=
  ∀ abs c, normalizeAbsolute v path = some abs → abs ≠ [slash] → splitLast abs = none →
    v.cwd = some c → c ≠ 0 → Unseen v c abs.tail

theorem Rooted.creates_iff (h : Rooted f v) (hm : fat.isMounted v.fat = false) :
    CreatesPath fat v path ↔ MadeInRoot v path := by
  cases hn : normalizeAbsolute v path with
  | none =>
    have hfail : (vfsMkdirPath fat v path).1 ≠ true := by simp [vfsMkdirPath, hn]
    refine iff_of_true ⟨fun ht ↦ absurd ht hfail, fun ht ↦ absurd ht hfail, ?_⟩ ?_
    · intro abs junk habs
      rw [hn] at habs
      cases habs
    intro abs c habs
    rw [hn] at habs
    cases habs
  | some abs =>
    obtain ⟨l, rfl, hl⟩ := h.normalize hn
    rcases List.eq_nil_or_concat' l with rfl | ⟨l, name, rfl⟩
    · have hfail : (vfsMkdirPath fat v path).1 ≠ true := by
        have hroot : absPath [] = [slash] := rfl
        simp only [vfsMkdirPath, hn, if_pos hroot]
        exact Bool.false_ne_true
      refine iff_of_true ⟨fun ht ↦ absurd ht hfail, fun ht ↦ absurd ht hfail, ?_⟩ ?_
      · intro abs junk habs _ hres
        obtain rfl := Option.some.inj (hn.symm.trans habs)
        cases hres
      · intro abs c habs hroot
        exact absurd (Option.some.inj (hn.symm.trans habs)).symm hroot
    have hsplit := splitLast_absPath (l := l) (hl.good name (by simp)).no_slash
    by_cases hnil : l = []
    · obtain ⟨c, hc⟩ := Option.ne_none_iff_exists'.1 h.cwd
      rw [hnil, List.nil_append] at hl hn hsplit
      rw [if_pos rfl] at hsplit
      rw [h.creates_single hm hc hl hn]
      have htail : (absPath [name]).tail = name := by rw [absPath_singleton, List.tail_cons]
      constructor
      · intro hunseen abs c' habs _ _ hc' hne
        obtain rfl := Option.some.inj (hn.symm.trans habs)
        obtain rfl := Option.some.inj (hc.symm.trans hc')
        rw [htail]
        exact hunseen hne
      intro hall hne
      have hunseen := hall _ c hn (mt (absPath_eq_root hl.good).1 (by simp)) hsplit hc hne
      rw [htail] at hunseen
      exact hunseen
    · rw [if_neg hnil] at hsplit
      refine iff_of_true (h.creates_below hm hnil hl hn) fun abs c habs _ hnone ↦ ?_
      obtain rfl := Option.some.inj (hn.symm.trans habs)
      rw [hsplit] at hnone
      cases hnone

/-- In any state without a FAT32 volume, creation by path does what it promises unless the path has
one name and a directory of that name in the current directory is not one in the root. -/
theorem mkdir_path_creates (fat : Fat F) (v : Vfs F) (hf : fat.isMounted v.fat = false)
    (ops : List Op) (path : Str) :
    let w := ops.foldl (Fs.step fat) (vfsInit (zeroed v))
    CreatesPath fat w path ↔ MadeInRoot w path := by
  intro w
  have h : Rooted v.fat w := rooted_run fat v hf ops
  exact h.creates_iff (by rw [h.fat, hf])

/-- `mkdir a; cd a`. -/
def belowOps : List Op := [.mkdir [97], .cd [97] .clean]

/-- "/a/x" is made in the directory it names. -/
theorem mkdir_path_creates_below :
    let w := belowOps.foldl (Fs.step noFat) bootVfs
    (vfsMkdirPath noFat w [47, 97, 47, 120]).1 = true ∧ CreatesPath noFat w [47, 97, 47, 120] := by
  intro w
  refine ⟨by decide +kernel, (mkdir_path_creates noFat storage rfl belowOps _).2 ?_⟩
  intro abs c habs _ hnone
  have hn : normalizeAbsolute w [47, 97, 47, 120] = some [47, 97, 47, 120] := by decide +kernel
  obtain rfl := Option.some.inj (hn.symm.trans habs)
  exact absurd hnone (by decide)

/-- "/x" is made as "/a/x". -/
theorem mkdir_path_misplaced :
    let w := belowOps.foldl (Fs.step noFat) bootVfs
    let r := vfsMkdirPath noFat w [47, 120]
    r.1 = true ∧ (vfsIsDirPath noFat r.2 [47, 120] .clean).1 = false ∧
      (vfsIsDirPath noFat w [47, 97, 47, 120] .clean).1 = false ∧
      (vfsIsDirPath noFat r.2 [47, 97, 47, 120] .clean).1 = true := by
  decide +kernel

end NexusOS.Fs
