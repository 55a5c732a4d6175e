import NexusOS.Fs.VfsWay

namespace NexusOS.Fs

open Lib Relation

variable {F : Type*} {fat : Fat F} {v v' : Vfs F} {i c p : Fin 48} {name : Str}
  {l l' : List Str}

section Paths

theorem intercalate_snoc (hl : l ≠ []) (n : Str) :
    [slash].intercalate (l ++ [n]) = [slash].intercalate l ++ slash :: n := by
  induction l with
  | nil => contradiction
  | cons a l ih =>
    cases l with
    | nil => simp [List.intercalate_cons_cons]
    | cons b l =>
      rw [List.intercalate_cons_cons, List.cons_append, List.cons_append,
        List.intercalate_cons_cons, ← List.cons_append, ih (List.cons_ne_nil _ _)]
      simp only [List.append_assoc]

theorem absPath_snoc (hl : l ≠ []) (n : Str) : absPath (l ++ [n]) = absPath l ++ slash :: n := by
  rw [absPath, intercalate_snoc hl, absPath, List.cons_append]

theorem absPath_singleton (n : Str) : absPath [n] = slash :: n := by
  rw [absPath, List.intercalate_singleton]

theorem absPath_getLast (hl : ∀ n ∈ l, GoodName n) (hne : l ≠ []) :
    1 < (absPath l).length ∧ (absPath l).getLast? ≠ some slash := by
  obtain ⟨front, n, rfl⟩ := List.eq_nil_or_concat' l |>.resolve_left hne
  have hn := hl n (by simp)
  obtain ⟨a, ha⟩ := Option.ne_none_iff_exists'.1 (mt List.getLast?_eq_none_iff.1 hn.nonempty)
  have hslash : a ≠ slash := by
    intro h
    rw [h] at ha
    exact hn.no_slash (List.mem_of_getLast? ha)
  have hpos := List.length_pos_iff.2 hn.nonempty
  have hend : ∃ start, absPath (front ++ [n]) = start ++ slash :: n := by
    by_cases hfront : front = []
    · rw [hfront, List.nil_append, absPath_singleton]
      exact ⟨[], rfl⟩
    · exact ⟨_, absPath_snoc hfront n⟩
  obtain ⟨start, hstart⟩ := hend
  rw [hstart]
  constructor
  · simp only [List.length_append, List.length_cons]
    omega
  rw [List.getLast?_append, List.getLast?_cons, ha]
  simpa using hslash

theorem pathJoin_absPath (hl : ∀ n ∈ l, GoodName n) (hname : name.head? ≠ some slash)
    (hfits : (absPath l).length + 1 + name.length ≤ 255) :
    pathJoin (absPath l) name = absPath (l ++ [name]) := by
  have htake : (absPath l).take 255 = absPath l := List.take_of_length_le (by omega)
  have hne : absPath l ≠ [] := List.cons_ne_nil _ _
  simp only [pathJoin, if_neg hname, htake, if_neg hne]
  by_cases hroot : l = []
  · have hlen : (absPath ([] : List Str)).length = 1 := rfl
    rw [hroot] at hfits
    rw [hroot, if_neg (by simp [hlen]), hlen, List.take_of_length_le (by omega), List.nil_append,
      absPath_singleton]
    rfl
  rw [if_pos (absPath_getLast hl hroot), List.length_append, List.length_singleton,
    List.take_of_length_le (by omega), absPath_snoc hroot, List.append_assoc]
  rfl

theorem parentPath_absPath {n : Str} (hn : slash ∉ n) :
    parentPath (absPath (l ++ [n])) = absPath l := by
  have hdrop : ∀ front : Str,
      ((front ++ slash :: n).reverse.dropWhile (· ≠ slash)).reverse = front ++ [slash] := by
    intro front
    have hall : ∀ a ∈ n.reverse, (decide (a ≠ slash)) = true := by
      intro a ha
      rw [decide_eq_true_eq]
      intro h
      rw [h, List.mem_reverse] at ha
      exact hn ha
    rw [List.reverse_append, List.reverse_cons, List.append_assoc, List.dropWhile_append_of_pos hall]
    simp
  by_cases hl : l = []
  · rw [hl, List.nil_append, absPath_singleton, parentPath]
    have hroot := hdrop []
    rw [List.nil_append, List.nil_append] at hroot
    simp only [hroot]
    rfl
  rw [absPath_snoc hl, parentPath]
  simp only [hdrop]
  rw [if_pos (by simp [absPath]), List.dropLast_concat]

theorem cdComponents_absPath (hl : ∀ n ∈ l, GoodName n) : cdComponents (absPath l).tail = l := by
  by_cases hne : l = []
  · rw [hne]
    rfl
  rw [cdComponents, splitOn_absPath hl hne]
  apply if_neg
  intro hlast
  exact (hl [] (List.mem_of_getLast? hlast)).nonempty rfl

theorem absPath_cdComponents (rest : Str)
    (hlast : slash :: rest = [slash] ∨ (slash :: rest).getLast? ≠ some slash) :
    absPath (cdComponents rest) = slash :: rest := by
  by_cases hrest : rest = []
  · rw [hrest]
    rfl
  have hend : (rest.splitOn slash).getLast? ≠ some [] := by
    intro hnil
    obtain ⟨front, hfront⟩ := List.getLast?_eq_some_iff.1 hnil
    have hjoin : [slash].intercalate (rest.splitOn slash) = rest := List.intercalate_splitOn slash
    rw [hfront] at hjoin
    by_cases hf : front = []
    · rw [hf, List.nil_append, List.intercalate_singleton] at hjoin
      exact hrest hjoin.symm
    rw [intercalate_snoc hf] at hjoin
    rcases hlast with hroot | hlast
    · exact hrest (List.cons.inj hroot).2
    rw [← hjoin, ← List.cons_append, List.getLast?_append] at hlast
    exact hlast (by simp)
  rw [absPath, cdComponents, if_neg hend, List.intercalate_splitOn]

end Paths

/-- The current directory is node `c`, and the path kept for it is made of the names `l` on the way
there. -/
structure Coherent (v : Vfs F) (c : Fin 48) (l : List Str) : Prop extends Named v where
  cwd : v.cwd = some c
  dir : v.typeOf c = .dir
  way : Way v c l
  path : v.cwdPath = absPath l

section Edits

theorem Way.congr (h : Way v i l) (hsame : ∀ x, Climbs v.parentOf i x →
    v'.typeOf x = v.typeOf x ∧ v'.parentOf x = v.parentOf x ∧ v'.nameOf x = v.nameOf x) :
    Way v' i l := by
  induction h with
  | root => exact .root
  | child hp hi hparent ih =>
    obtain ⟨ht, hpar, hn⟩ := hsame _ ReflTransGen.refl
    rw [← hn]
    exact (ih fun x hx ↦ hsame x (Climbs.step hparent hx)).child (by rwa [ht]) (by rwa [hpar])

theorem same_of_ne {node : Node} {x : Fin 48} (hx : x ≠ i) :
    (v.setNode i node).typeOf x = v.typeOf x ∧ (v.setNode i node).parentOf x = v.parentOf x ∧
      (v.setNode i node).nameOf x = v.nameOf x := by
  simp [Vfs.typeOf, Vfs.parentOf, Vfs.nameOf, hx]

theorem Coherent.edit (h : Coherent v c l)
    (he : Edit GoodName (fun i ↦ ¬ Climbs v.parentOf c i) v v') : Coherent v' c l := by
  have hnamed := h.toNamed.edit he
  obtain ⟨hcwd, hpath, -⟩ := he.keeps
  have hsame : ∀ x, Climbs v.parentOf c x →
      v'.typeOf x = v.typeOf x ∧ v'.parentOf x = v.parentOf x ∧ v'.nameOf x = v.nameOf x := by
    intro x hx
    cases he with
    | refl => exact ⟨rfl, rfl, rfl⟩
    | @replace i node htype hparent hname =>
      by_cases hxi : x = i
      · rw [hxi]
        simp [Vfs.typeOf, Vfs.parentOf, Vfs.nameOf, htype, hparent, hname]
      · exact same_of_ne hxi
    | @create i p name node h0 hi hp hnew hgood hparent hname =>
      apply same_of_ne
      intro hxi
      rw [hxi] at hx
      exact h.above_used (by simp [h.dir]) hx hi
    | @free i h0 hchild hK =>
      apply same_of_ne
      intro hxi
      exact hK (hxi ▸ hx)
    | @move i p name h0 hp hnew hgood hK =>
      apply same_of_ne
      intro hxi
      exact hK (hxi ▸ hx)
  exact ⟨hnamed, hcwd.trans h.cwd, (hsame c ReflTransGen.refl).1.trans h.dir, h.way.congr hsame,
    hpath.trans h.path⟩

end Edits

section Cd

theorem Coherent.chdir (h : Coherent v c l) {path : Str} (hway : Way v i l')
    (hdir : v.typeOf i = .dir) (hpath : path = absPath l') :
    Coherent { v with cwd := some i, cwdPath := path } i l' :=
  ⟨⟨h.root, h.root_parent, h.parent, h.good, h.unique⟩, rfl, hdir,
    hway.congr fun _ _ ↦ ⟨rfl, rfl, rfl⟩, hpath⟩

theorem Coherent.vfsCdUp (h : Coherent v c l) :
    (c = 0 ∧ (vfsCdUp v).2 = v) ∨ ∃ p l', v.parentOf c = some p ∧ Way v p l' ∧
      v.typeOf p = .dir ∧ (vfsCdUp v).2 = { v with cwd := some p, cwdPath := absPath l' } := by
  obtain ⟨hnamed, hcwd, hdir, hway, hpath⟩ := h
  cases hway with
  | root => exact .inl ⟨rfl, by simp [Fs.vfsCdUp, hcwd]⟩
  | @child p _ l hp hi hparent =>
    have h0 : v.cwd ≠ some 0 := by
      intro h0
      exact hnamed.ne_root hparent (Option.some.inj (hcwd.symm.trans h0))
    have hup : parentPath v.cwdPath = absPath l := by
      rw [hpath, parentPath_absPath (hnamed.good c (hnamed.ne_root hparent) hi).no_slash]
    have hwalk : walk v 0 (cdComponents (absPath l).tail) = some p := by
      rw [cdComponents_absPath (hp.good hnamed), hp.walk hnamed]
    obtain ⟨q, hq, hqdir⟩ := hnamed.parent c (hnamed.ne_root hparent) hi
    obtain rfl := Option.some.inj (hparent.symm.trans hq)
    refine .inr ⟨p, l, hparent, hp, hqdir, ?_⟩
    have hhead : ¬ v.cwdPath.head? ≠ some slash := by simp [hpath, absPath]
    simp only [Fs.vfsCdUp, if_neg h0, if_neg hhead, hup, hwalk]
    rfl

theorem Way.walkDirs (hway : Way v i l) {comps : List Str}
    (hwalk : walkDirs v i comps = some p) : Way v p (l ++ comps) := by
  induction comps generalizing i l with
  | nil =>
    obtain rfl : i = p := Option.some.inj hwalk
    rwa [List.append_nil]
  | cons comp comps ih =>
    simp only [Fs.walkDirs, List.foldlM_cons, Option.bind_eq_bind, Option.bind_eq_some_iff,
      Option.filter_eq_some_iff, decide_eq_true_eq] at hwalk
    obtain ⟨j, ⟨hj, -⟩, hrest⟩ := hwalk
    obtain ⟨hused, hparent⟩ := findChild_some hj
    have hnext := ih (hway.child hused hparent) hrest
    rwa [findChild_name hj, List.append_assoc, List.singleton_append] at hnext

/-- The path that `vfs_cd` keeps is neither cut nor ends in a slash. -/
def CdFits (v : Vfs F) (name : Str) : Prop :=
  if name.head? = some slash then pathCopy name = [slash] ∨ (pathCopy name).getLast? ≠ some slash
  else name = [dot] ∨ name = [dot, dot] ∨ v.cwdPath.length + 1 + name.length ≤ 255

instance (v : Vfs F) (name : Str) : Decidable (CdFits v name) :=
  inferInstanceAs (Decidable (if name.head? = some slash then _ else _))

theorem Coherent.vfsCd (h : Coherent v c l) (hm : fat.isMounted v.fat = false) (name : Str)
    (junk : Stale) (hfits : CdFits v name) : ∃ c' l', Coherent (vfsCd fat v name junk).2 c' l' := by
  unfold Fs.vfsCd
  split
  · exact ⟨c, l, h⟩
  rename_i hdot
  split
  · rcases h.vfsCdUp with ⟨-, heq⟩ | ⟨p, l', -, hway, hdir, heq⟩
    · rw [heq]
      exact ⟨c, l, h⟩
    · rw [heq]
      exact ⟨p, l', h.chdir hway hdir rfl⟩
  rename_i hdots
  simp only [hm, Bool.false_eq_true, and_false, if_false, h.cwd, Option.getD_some]
  by_cases habs : name.head? = some slash
  · rw [CdFits, if_pos habs] at hfits
    have hcand : pathJoin v.cwdPath name = pathCopy name := if_pos habs
    have hcopy : pathCopy (pathCopy name) = pathCopy name := by
      rw [pathCopy, pathCopy, List.take_take, min_self]
    obtain ⟨rest, hrest⟩ : ∃ rest, pathCopy name = slash :: rest := by
      cases name with
      | nil => simp at habs
      | cons a name =>
        obtain rfl : a = slash := by simpa using habs
        exact ⟨_, List.take_succ_cons⟩
    rw [hcand, if_pos habs, hcopy, hrest, List.tail_cons]
    rw [hrest] at hfits
    cases hi : walkDirs v 0 (cdComponents rest) with
    | none => exact ⟨c, l, h⟩
    | some i =>
      exact ⟨i, _, h.chdir (Way.root.walkDirs hi) (walkDirs_dir h.root hi)
        (absPath_cdComponents rest hfits).symm⟩
  · rw [CdFits, if_neg habs] at hfits
    have hlen := (hfits.resolve_left hdot).resolve_left hdots
    rw [h.path] at hlen
    have hcand : pathJoin v.cwdPath name = absPath (l ++ [name]) := by
      rw [h.path, pathJoin_absPath (h.way.good h.toNamed) habs hlen]
    have hcopy : pathCopy (absPath (l ++ [name])) = absPath (l ++ [name]) := by
      apply List.take_of_length_le
      by_cases hl : l = []
      · rw [hl, List.nil_append, absPath_singleton, List.length_cons]
        omega
      rw [absPath_snoc hl, List.length_append, List.length_cons]
      omega
    rw [hcand, if_neg habs, hcopy]
    cases hi : walkDirs v c [name] with
    | none => exact ⟨c, l, h⟩
    | some i => exact ⟨i, _, h.chdir (h.way.walkDirs hi) (walkDirs_dir h.dir hi) rfl⟩

theorem vfsCd_fat (hm : fat.isMounted v.fat = false) (name : Str) (junk : Stale) :
    (vfsCd fat v name junk).2.fat = v.fat := by
  unfold Fs.vfsCd Fs.vfsCdUp
  simp only [hm, Bool.false_eq_true, and_false, if_false]
  split_ifs
  all_goals first | rfl | (split <;> rfl)

end Cd

section Run

theorem not_climbs_of_isUnderLoop {n : ℕ} {x r : Fin 48}
    (h : isUnderLoop v (some r) n (some x) = some false) : ¬ Climbs v.parentOf x r := by
  induction n generalizing x with
  | zero => cases h
  | succ n ih =>
    rw [isUnderLoop] at h
    by_cases hx : some x = some r
    · rw [if_pos hx] at h
      cases h
    rw [if_neg hx] at h
    intro hclimbs
    rcases ReflTransGen.cases_head hclimbs with rfl | ⟨y, hy, hyr⟩
    · exact hx rfl
    rw [show (v.nodes x).parent = some y from hy] at h
    exact ih h hyr

theorem not_climbs_of_isUnder (hne : c ≠ i) (h : isUnder v c (some i) = some false) :
    ¬ Climbs v.parentOf c i := by
  intro hclimbs
  rcases ReflTransGen.cases_head hclimbs with rfl | ⟨y, hy, hyi⟩
  · exact hne rfl
  rw [isUnder, show (v.nodes c).parent = some y from hy] at h
  exact not_climbs_of_isUnderLoop h hyi

/-- What the current directory needs of the calls: good names, no node freed or moved that is the
directory or above it, and a `cd` whose path is kept whole. -/
def KeepsCwd (v : Vfs F) : Op → Prop
  | .init => True
  | .cd name _ => CdFits v name
  | op => (∀ n ∈ givenName v op, GoodName n) ∧ ∀ i ∈ uprooted v op, ∀ c ∈ v.cwd,
      c ≠ i ∧ isUnder v c (some i) = some false

theorem Coherent.step (h : Coherent v c l) (hm : fat.isMounted v.fat = false) (op : Op)
    (hop : KeepsCwd v op) :
    (∃ c' l', Coherent (Fs.step fat v op) c' l') ∧ (Fs.step fat v op).fat = v.fat := by
  by_cases hin : op.inPlace = true
  · have hguard : (∀ n ∈ givenName v op, GoodName n) ∧ ∀ i ∈ uprooted v op, ∀ c ∈ v.cwd,
        c ≠ i ∧ isUnder v c (some i) = some false := by
      cases op with
      | init | cd => cases hin
      | _ => exact hop
    have hedit : Edit GoodName (fun i ↦ ¬ Climbs v.parentOf c i) v (Fs.step fat v op) := by
      apply step_edit hm h.toNamed h.cwd h.dir _ hin hguard.1
      · intro i hi
        obtain ⟨hne, hunder⟩ := hguard.2 i hi c h.cwd
        exact not_climbs_of_isUnder hne hunder
      · intro i hi
        exact h.way.child_not_above h.toNamed hi
    exact ⟨⟨c, l, h.edit hedit⟩, hedit.keeps.2.2⟩
  · cases op with
    | init => exact ⟨⟨0, [], vfsInit_named v, rfl, rfl, .root, rfl⟩, rfl⟩
    | cd name junk => exact ⟨h.vfsCd hm name junk hop, vfsCd_fat hm name junk⟩
    | _ => exact absurd rfl hin

/-- Without a FAT32 volume the path kept for the current directory leads to it, and `cd ..` goes to
its parent. -/
theorem cwd_stays_coherent (fat : Fat F) (v : Vfs F) (hf : fat.isMounted v.fat = false)
    (ops : List Op) (hops : Along (Fs.step fat) KeepsCwd (vfsInit (zeroed v)) ops) :
    let w := ops.foldl (Fs.step fat) (vfsInit (zeroed v))
    ∃ c, w.cwd = some c ∧ resolveRamPath w w.cwdPath = some c ∧
      ∀ junk, (vfsCd fat w [dot, dot] junk).2.cwd = if c = 0 then some 0 else w.parentOf c := by
  intro w
  obtain ⟨⟨c, l, h⟩, -⟩ : (∃ c l, Coherent w c l) ∧ w.fat = v.fat := by
    refine Along.invariant (I := fun u ↦ (∃ c l, Coherent u c l) ∧ u.fat = v.fat) ?_
      ⟨⟨0, [], vfsInit_named _, rfl, rfl, .root, rfl⟩, rfl⟩ hops
    intro u op hu hop
    obtain ⟨⟨c, l, h⟩, hfat⟩ := hu
    have hm : fat.isMounted u.fat = false := by rw [hfat, hf]
    obtain ⟨hstep, hkeep⟩ := h.step hm op hop
    exact ⟨hstep, hkeep.trans hfat⟩
  refine ⟨c, h.cwd, ?_, ?_⟩
  · rw [h.path, h.way.resolve h.toNamed]
  intro junk
  have hcd : vfsCd fat w [dot, dot] junk = vfsCdUp w := by
    rw [vfsCd, if_neg (by decide), if_pos rfl]
  rw [hcd]
  rcases h.vfsCdUp with ⟨hc, heq⟩ | ⟨p, l', hparent, -, -, heq⟩
  · rw [heq, if_pos hc, h.cwd, hc]
  · rw [heq, if_neg (h.ne_root hparent), hparent]

instance (v : Vfs F) : (op : Op) → Decidable (KeepsCwd v op)
  | .init => .isTrue trivial
  | .cd name _ => inferInstanceAs (Decidable (CdFits v name))
  | .mkdir _ | .touch _ | .rm _ | .rmdir _ | .write _ _ | .append _ _ | .cp _ _ | .mv _ _
  | .mkdirPath _ | .writePath _ _ _ _ | .unlinkPath _ | .renamePath _ _ =>
    inferInstanceAs (Decidable ((∀ n ∈ givenName v _, GoodName n) ∧
      ∀ i ∈ uprooted v _, ∀ c ∈ v.cwd, c ≠ i ∧ isUnder v c (some i) = some false))

/-- `mkdir a; mkdir b; cd a; mkdir c; cd /a/c; mv /b /mnt/d; cd ..; mv c e; rm /mnt/d`. -/
def coherentOps : List Op :=
  [.mkdir [97], .mkdir [98], .cd [97] .clean, .mkdir [99], .cd [47, 97, 47, 99] .clean,
    .renamePath [47, 98] [47, 109, 110, 116, 47, 100], .cd [46, 46] .clean, .mv [99] [101],
    .unlinkPath [47, 109, 110, 116, 47, 100]]

theorem cwd_stays_coherent_sample :
    let w := coherentOps.foldl (Fs.step noFat) bootVfs
    w.cwd = some 3 ∧ w.cwdPath = [47, 97] ∧ resolveRamPath w w.cwdPath = some 3 ∧
      (vfsCd noFat w [dot, dot] .clean).2.cwd = some 0 := by
  intro w
  obtain ⟨c, hc, hres, hup⟩ := cwd_stays_coherent noFat storage rfl coherentOps (by decide +kernel)
  have hcwd : w.cwd = some 3 := by decide +kernel
  obtain rfl : c = 3 := Option.some.inj (hc.symm.trans hcwd)
  refine ⟨hcwd, by decide +kernel, hres, (hup .clean).trans ?_⟩
  rw [if_neg (by decide)]
  decide +kernel

/-- After `mkdir a; cd /a/` the parent of the directory is taken for the directory, and after
`mkdir a; cd a; rm /a` the path of the directory leads nowhere. -/
theorem cwd_loses_directory :
    let u := [Op.mkdir [97], .cd [47, 97, 47] .clean].foldl (Fs.step noFat) bootVfs
    let w := [Op.mkdir [97], .cd [97] .clean, .unlinkPath [47, 97]].foldl (Fs.step noFat) bootVfs
    u.cwd = some 3 ∧ u.parentOf 3 = some 0 ∧ (vfsCd noFat u [dot, dot] .clean).2.cwd = some 3 ∧
      w.cwd = some 3 ∧ resolveRamPath w w.cwdPath = none := by
  refine ⟨?_, ?_, ?_, ?_, ?_⟩ <;> decide +kernel

end Run

end NexusOS.Fs
