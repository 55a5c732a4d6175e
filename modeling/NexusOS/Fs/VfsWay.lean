import NexusOS.Fs.VfsNames

namespace NexusOS.Fs

open Lib Relation

variable {F : Type*} {fat : Fat F} {v v' : Vfs F} {i j c p : Fin 48} {name : Str}
  {l l' : List Str}

inductive Way (v : Vfs F) : Fin 48 → List Str → Prop
  | root : Way v 0 []
  | child {p i : Fin 48} {l : List Str} (hp : Way v p l) (hi : v.typeOf i ≠ .free)
      (hparent : v.parentOf i = some p) : Way v i (l ++ [v.nameOf i])

def absPath (l : List Str) : Str := slash :: [slash].intercalate l

section Ways

theorem Named.way (h : Named v) (hi : v.typeOf i ≠ .free) (hclimbs : Climbs v.parentOf i 0) :
    ∃ l, Way v i l := by
  induction hclimbs using ReflTransGen.head_induction_on with
  | refl => exact ⟨[], .root⟩
  | head hab _ ih =>
    obtain ⟨q, hq, hdir⟩ := h.parent _ (h.ne_root hab) hi
    obtain rfl := Option.some.inj (hab.symm.trans hq)
    obtain ⟨l, hl⟩ := ih (by simp [hdir])
    exact ⟨_, hl.child hi hab⟩

theorem Way.used (h : Named v) (hway : Way v i l) : v.typeOf i ≠ .free := by
  cases hway with
  | root => simp [h.root]
  | child _ hi _ => exact hi

theorem Way.good (h : Named v) (hway : Way v i l) : ∀ n ∈ l, GoodName n := by
  induction hway with
  | root => simp
  | child _ hi hparent ih =>
    intro n hn
    rcases List.mem_append.1 hn with hn | hn
    · exact ih n hn
    rw [List.mem_singleton.1 hn]
    exact h.good _ (h.ne_root hparent) hi

theorem Way.unique (h : Named v) (hway : Way v i l) (hway' : Way v i l') : l = l' := by
  induction hway generalizing l' with
  | root =>
    cases hway' with
    | root => rfl
    | child _ _ hparent => exact absurd rfl (h.ne_root hparent)
  | child _ _ hparent ih =>
    cases hway' with
    | root => exact absurd rfl (h.ne_root hparent)
    | child hp' _ hparent' =>
      obtain rfl := Option.some.inj (hparent.symm.trans hparent')
      rw [ih hp']

theorem Way.above (hway : Way v i l) (hj : Climbs v.parentOf i j) (hroot : v.parentOf 0 = none) :
    ∃ l₁ l₂, Way v j l₁ ∧ l = l₁ ++ l₂ := by
  induction hway with
  | root =>
    rcases ReflTransGen.cases_head hj with rfl | ⟨q, hq, -⟩
    · exact ⟨[], [], .root, rfl⟩
    rw [hroot] at hq
    cases hq
  | @child p i l hp hi hparent ih =>
    rcases ReflTransGen.cases_head hj with rfl | ⟨q, hq, hqj⟩
    · exact ⟨_, [], hp.child hi hparent, (List.append_nil _).symm⟩
    obtain rfl := Option.some.inj (hparent.symm.trans hq)
    obtain ⟨l₁, l₂, h₁, h₂⟩ := ih hqj
    exact ⟨l₁, l₂ ++ [v.nameOf i], h₁, by rw [h₂, List.append_assoc]⟩

theorem Way.child_not_above (h : Named v) (hway : Way v c l) (hi : v.parentOf i = some c) :
    ¬ Climbs v.parentOf c i := by
  intro hclimbs
  obtain ⟨l₁, l₂, h₁, h₂⟩ := hway.above hclimbs h.root_parent
  have hused : v.typeOf i ≠ .free := h.above_used (hway.used h) hclimbs
  have hlen := congrArg List.length (h₁.unique h (hway.child hused hi))
  rw [h₂] at hlen
  simp only [List.length_append, List.length_singleton] at hlen
  omega

theorem walk_append {start : Fin 48} (comps comps' : List Str) :
    walk v start (comps ++ comps') = (walk v start comps).bind fun q ↦ walk v q comps' := by
  simp [walk, List.foldlM_append]

theorem walk_singleton (start : Fin 48) (comp : Str) :
    walk v start [comp] = findChild v (some start) comp := by
  simp [walk]

theorem Way.walk (h : Named v) (hway : Way v i l) : walk v 0 l = some i := by
  induction hway with
  | root => rfl
  | child hp hi hparent ih =>
    rw [walk_append, ih, Option.bind_some, walk_singleton, ← hparent, h.findChild hi]

end Ways

section Paths

section

variable (hl : ∀ n ∈ l, GoodName n)
include hl

theorem splitOn_absPath (hne : l ≠ []) : (absPath l).tail.splitOn slash = l :=
  List.splitOn_intercalate slash (fun n hn ↦ (hl n hn).no_slash) hne

theorem absPath_tail_ne_nil (hne : l ≠ []) : (absPath l).tail ≠ [] := by
  intro hnil
  have hsplit := splitOn_absPath hl hne
  rw [hnil, List.splitOn_nil] at hsplit
  exact (hl [] (by simp [← hsplit])).nonempty rfl

theorem ramComponents_absPath : ramComponents (absPath l).tail = l := by
  cases l with
  | nil => rfl
  | cons first rest =>
    have hrest : rest.filter (· ≠ []) = rest := by
      apply List.filter_eq_self.2
      intro n hn
      simpa using (hl n (List.mem_cons_of_mem _ hn)).nonempty
    have hcut : (first :: rest).map (copyTruncate · 24) = first :: rest := by
      conv_rhs => rw [← List.map_id (first :: rest)]
      apply List.map_congr_left
      intro n hn
      exact (hl n hn).copyTruncate
    have hne := absPath_tail_ne_nil hl (List.cons_ne_nil _ _)
    simp only [ramComponents, splitOn_absPath hl (List.cons_ne_nil _ _), if_neg hne, hrest, hcut]

end

theorem Way.resolve (h : Named v) (hway : Way v i l) : resolveRamPath v (absPath l) = some i := by
  rw [resolveRamPath, if_neg (by simp [absPath]), ramComponents_absPath (hway.good h), hway.walk h]

end Paths

theorem vfsInit_named (v : Vfs F) : Named (vfsInit v) := by
  have hother : ∀ i : Fin 48, 2 < i → (vfsInit v).typeOf i = .free := by
    intro i hi
    have hi0 : i ≠ 0 := by
      intro h
      rw [h] at hi
      exact absurd hi (by decide)
    have hi1 : i ≠ 1 := by
      intro h
      rw [h] at hi
      exact absurd hi (by decide)
    simp [vfsInit, Vfs.typeOf, hi0, hi1, hi.ne']
  have hsmall : ∀ i : Fin 48, (vfsInit v).typeOf i ≠ .free → i = 0 ∨ i = 1 ∨ i = 2 := by
    intro i hi
    have hle : ¬ 2 < i := fun hlt ↦ hi (hother i hlt)
    revert hle
    clear hi
    revert i
    decide
  refine ⟨rfl, rfl, ?_, ?_, ?_⟩
  · intro i hi hused
    rcases hsmall i hused with rfl | rfl | rfl
    · contradiction
    · exact ⟨0, rfl, rfl⟩
    · exact ⟨1, rfl, rfl⟩
  · intro i hi hused
    rcases hsmall i hused with rfl | rfl | rfl
    · contradiction
    · exact (by decide : GoodName [109, 110, 116])
    · exact (by decide : GoodName [100, 105, 115, 107, 48])
  intro i j hi hj hparent _
  rcases hsmall i hi with rfl | rfl | rfl <;> rcases hsmall j hj with rfl | rfl | rfl
  all_goals first | rfl | cases hparent

section Run

def WellNamed (v : Vfs F) (op : Op) : Prop :=
  op.inPlace = true ∧ ∀ n ∈ givenName v op, GoodName n

instance (v : Vfs F) (op : Op) : Decidable (WellNamed v op) :=
  inferInstanceAs (Decidable (op.inPlace = true ∧ ∀ n ∈ givenName v op, GoodName n))

theorem Edit.keeps {N : Str → Prop} {K : Fin 48 → Prop} (h : Edit N K v v') :
    v'.cwd = v.cwd ∧ v'.cwdPath = v.cwdPath ∧ v'.fat = v.fat := by
  cases h <;> exact ⟨rfl, rfl, rfl⟩

/-- Without a FAT32 volume and with good names given out, names identify the nodes: a node has a
good one, its siblings have others, and its path leads to it. -/
theorem names_identify_nodes (fat : Fat F) (v : Vfs F) (hf : fat.isMounted v.fat = false)
    (ops : List Op) (hops : Along (Fs.step fat) WellNamed (vfsInit (zeroed v)) ops) :
    let w := ops.foldl (Fs.step fat) (vfsInit (zeroed v))
    (∀ i, i ≠ 0 → w.typeOf i ≠ .free → w.nameOf i ≠ [] ∧ slash ∉ w.nameOf i ∧
      w.nameOf i ≠ [dot] ∧ w.nameOf i ≠ [dot, dot]) ∧
    (∀ i j, w.typeOf i ≠ .free → w.typeOf j ≠ .free → w.parentOf i = w.parentOf j →
      w.nameOf i = w.nameOf j → i = j) ∧
    (∀ i, w.typeOf i ≠ .free → Climbs w.parentOf i 0 → ∃ l, Way w i l) ∧
    ∀ i l, Way w i l → resolveRamPath w (absPath l) = some i := by
  intro w
  have hrun : Named w ∧ w.cwd = some 0 ∧ w.fat = v.fat := by
    refine Along.invariant (I := fun u ↦ Named u ∧ u.cwd = some 0 ∧ u.fat = v.fat) ?_
      ⟨vfsInit_named _, rfl, rfl⟩ hops
    intro u op hu hop
    obtain ⟨hu, hcwd, hfat⟩ := hu
    have hedit := step_edit (K := fun _ ↦ True) (by rw [hfat, hf]) hu hcwd hu.root
      (fun _ _ ↦ trivial) hop.1 hop.2 (fun _ _ ↦ trivial)
    exact ⟨hu.edit hedit, hedit.keeps.1.trans hcwd, hedit.keeps.2.2.trans hfat⟩
  have h := hrun.1
  refine ⟨?_, h.unique, fun i hi ↦ h.way hi, fun i l hl ↦ hl.resolve h⟩
  intro i hi hused
  have hgood := h.good i hi hused
  exact ⟨hgood.nonempty, hgood.no_slash, hgood.not_dot, hgood.not_dots⟩

/-- `mkdir a; write /a/f; touch b; mv b c; mv /c /a/g`, by the path-based calls. -/
def namedOps : List Op :=
  [.mkdir [97], .writePath [47, 97, 47, 102] (some [120]) 0 .clean, .touch [98], .mv [98] [99],
    .renamePath [47, 99] [47, 97, 47, 103]]

theorem names_identify_nodes_sample :
    let w := namedOps.foldl (Fs.step noFat) bootVfs
    w.nameOf 5 = [103] ∧ w.parentOf 5 = some 3 ∧
      resolveRamPath w (absPath [[97], [103]]) = some 5 := by
  intro w
  have h := names_identify_nodes noFat storage rfl namedOps (by decide +kernel)
  have hroot : Way w 3 [[97]] := Way.child .root (by decide +kernel) (by decide +kernel)
  exact ⟨by decide +kernel, by decide +kernel,
    h.2.2.2 5 _ (hroot.child (by decide +kernel) (by decide +kernel))⟩

def longName (last : UInt8) : Str := List.replicate 23 97 ++ [last]

/-- `mkdir x/y`, and twice a name that is cut after the check for duplicates. -/
theorem vfs_names_collide :
    let w := [Op.mkdir [120, 47, 121], .mkdir (longName 49), .mkdir (longName 50)].foldl
      (Fs.step noFat) bootVfs
    w.nameOf 3 = [120, 47, 121] ∧ w.typeOf 4 = .dir ∧ w.typeOf 5 = .dir ∧
    w.parentOf 4 = w.parentOf 5 ∧ w.nameOf 4 = w.nameOf 5 ∧
    (∀ i, Climbs w.parentOf i 0) ∧ resolveRamPath w (absPath [w.nameOf 5]) = some 4 ∧
    resolveRamPath w (absPath [w.nameOf 3]) = none := by
  intro w
  have htwo : w.parentOf 2 = some 1 := by decide +kernel
  have hrest : ∀ i, i ≠ 0 → i ≠ 2 → w.parentOf i = some 0 := by decide +kernel
  refine ⟨by decide +kernel, by decide +kernel, by decide +kernel, by decide +kernel,
    by decide +kernel, ?_, by decide +kernel, by decide +kernel⟩
  intro i
  by_cases h0 : i = 0
  · rw [h0]
    exact ReflTransGen.refl
  by_cases h2 : i = 2
  · rw [h2]
    exact Climbs.step htwo (Climbs.step (hrest 1 (by decide) (by decide)) ReflTransGen.refl)
  · exact Climbs.step (hrest i h0 h2) ReflTransGen.refl

end Run

end NexusOS.Fs
