import NexusOS.Fs.MountResolve
import NexusOS.Fs.VfsRun
import NexusOS.Lib.Buffer

namespace NexusOS.Fs

open Lib

variable {F : Type*} {b : Buffer UInt8} {base name src : Str}

section Loops

def pathCopyInto (dst : Buffer UInt8) (src : Str) : Buffer UInt8 :=
  let r := Buffer.fill 255 dst 0 src
  r.1.store r.2 0

/-- The separator is stored without a look at the limit of the loops. -/
def pathJoinInto (out : Buffer UInt8) (base name : Str) : Buffer UInt8 :=
  if name.head? = some slash then pathCopyInto out name
  else
    let r := Buffer.fill 255 out 0 base
    let r := if r.2 = 0 then (r.1.store r.2 slash, r.2 + 1) else r
    let r := if 1 < r.2 ∧ r.1.cell (r.2 - 1) ≠ slash then (r.1.store r.2 slash, r.2 + 1) else r
    let r := Buffer.fill 255 r.1 r.2 name
    r.1.store r.2 0

/-- The array `out`, if it is written to. -/
def fatRelativeInto (out : Buffer UInt8) (full mountpoint : Str) (behind : ℕ → UInt8) :
    Option (Buffer UInt8) :=
  let rest := stringAt full behind mountpoint.length
  if full = mountpoint then some (pathCopyInto out [slash])
  else if 1 < mountpoint.length ∧ rest.head? = some slash then some (pathCopyInto out rest)
  else none

theorem pathCopyInto_spec (h : b.Within 256) (src : Str) :
    (pathCopyInto b src).Holds 0 (pathCopy src) ∧ (pathCopyInto b src).Within 256 := by
  have hfill : Buffer.Filled 256 (Buffer.fill 255 b 0 src) (pathCopy src) :=
    (Buffer.Filled.start h).fill (by omega) src
  refine ⟨hfill.terminate 0, (hfill.terminate_within 0).2 ?_⟩
  rw [pathCopy, List.length_take]
  omega

theorem getLast?_eq_cell {r : Buffer UInt8 × ℕ} {m : ℕ} (h : Buffer.Filled m r src)
    (hne : src ≠ []) : src.getLast? = some (r.1.cell (r.2 - 1)) := by
  have hpos := List.length_pos_iff.2 hne
  rw [h.pos, List.getLast?_eq_getElem?, List.getElem?_eq_getElem (by omega),
    h.begins (src.length - 1) (by omega)]

theorem pathJoinInto_spec (h : b.Within 256) (base name : Str) :
    (pathJoinInto b base name).Holds 0 (pathJoin base name) ∧
      ((pathJoinInto b base name).Within 256 ↔ (pathJoin base name).length < 256) := by
  unfold pathJoinInto pathJoin
  split_ifs with habs
  · obtain ⟨hholds, hwithin⟩ := pathCopyInto_spec h name
    refine ⟨hholds, iff_of_true hwithin ?_⟩
    rw [pathCopy, List.length_take]
    omega
  dsimp only
  have hbase : Buffer.Filled 256 (Buffer.fill 255 b 0 base) (base.take 255) :=
    (Buffer.Filled.start h).fill (by omega) base
  generalize Buffer.fill 255 b 0 base = r at hbase ⊢
  have hlen : (base.take 255).length ≤ 255 := List.length_take_le _ _
  generalize base.take 255 = out at hbase hlen ⊢
  -- the first separator
  have hroot : Buffer.Filled 256 (if r.2 = 0 then (r.1.store r.2 slash, r.2 + 1) else r)
      (if out = [] then [slash] else out) := by
    rw [hbase.pos]
    split_ifs with h0 hnil hnil
    · rw [← hbase.pos]
      have hstore := hbase.store (by omega) slash
      rwa [hnil, List.nil_append] at hstore
    · exact absurd (List.length_eq_zero_iff.1 h0) hnil
    · exact absurd (List.length_eq_zero_iff.2 hnil) h0
    · exact hbase
  have hlen' : (if out = [] then [slash] else out).length ≤ 255 := by
    split_ifs
    · decide
    · exact hlen
  generalize (if r.2 = 0 then (r.1.store r.2 slash, r.2 + 1) else r) = r' at hroot ⊢
  generalize (if out = [] then [slash] else out) = out' at hroot hlen' ⊢
  -- the one before the name
  have hsep : Buffer.Filled 256
      (if 1 < r'.2 ∧ r'.1.cell (r'.2 - 1) ≠ slash then (r'.1.store r'.2 slash, r'.2 + 1) else r')
      (if 1 < out'.length ∧ out'.getLast? ≠ some slash then out' ++ [slash] else out') := by
    have hiff : (1 < r'.2 ∧ r'.1.cell (r'.2 - 1) ≠ slash) ↔
        (1 < out'.length ∧ out'.getLast? ≠ some slash) := by
      rw [hroot.pos]
      refine and_congr_right fun hone ↦ ?_
      have hne : out' ≠ [] := by
        intro hnil
        simp [hnil] at hone
      rw [getLast?_eq_cell hroot hne, ← hroot.pos, Ne, Ne, Option.some.injEq]
    by_cases hcond : 1 < out'.length ∧ out'.getLast? ≠ some slash
    · rw [if_pos hcond, if_pos (hiff.2 hcond)]
      exact hroot.store (by omega) slash
    rw [if_neg hcond, if_neg fun hc ↦ hcond (hiff.1 hc)]
    exact hroot
  have hname := hsep.fill (by omega : 255 ≤ 256) name
  exact ⟨hname.terminate 0, hname.terminate_within 0⟩

theorem fatRelativeInto_spec (h : b.Within 256) (full mountpoint : Str) (behind : ℕ → UInt8) :
    ∀ out ∈ fatRelativeInto b full mountpoint behind, out.Within 256 ∧
      ∃ rel, fatRelative full mountpoint behind = some rel ∧ out.Holds 0 rel := by
  unfold fatRelativeInto fatRelative
  dsimp only
  intro out hout
  split_ifs at hout ⊢
  · obtain rfl := Option.some.inj hout
    exact ⟨(pathCopyInto_spec h _).2, _, rfl, (pathCopyInto_spec h _).1⟩
  · obtain rfl := Option.some.inj hout
    exact ⟨(pathCopyInto_spec h _).2, _, rfl, (pathCopyInto_spec h _).1⟩
  · cases hout

def JoinFits (base name : Str) : Prop :=
  name.head? = some slash ∨ base.length < 255 ∨ base.getLast? = some slash

theorem length_pathJoin (hbase : base.length ≤ 255) (name : Str) :
    (pathJoin base name).length < 256 ↔ JoinFits base name := by
  unfold pathJoin JoinFits
  split_ifs with habs
  · refine iff_of_true ?_ (.inl habs)
    rw [pathCopy, List.length_take]
    omega
  dsimp only
  rw [List.take_of_length_le hbase]
  by_cases hnil : base = []
  · subst hnil
    refine iff_of_true ?_ (.inr (.inl (by decide)))
    simp only [if_true, List.length_singleton, lt_irrefl, false_and, if_false, List.length_append,
      List.length_take]
    omega
  rw [if_neg hnil]
  by_cases hsep : 1 < base.length ∧ base.getLast? ≠ some slash
  · rw [if_pos hsep]
    simp only [List.length_append, List.length_singleton, List.length_take]
    constructor
    · intro hlt
      exact .inr (.inl (by omega))
    intro hfits
    have hlt := (hfits.resolve_left habs).resolve_right hsep.2
    omega
  rw [if_neg hsep]
  refine iff_of_true ?_ ?_
  · simp only [List.length_append, List.length_take]
    omega
  by_cases hlast : base.getLast? = some slash
  · exact .inr (.inr hlast)
  refine .inr (.inl ?_)
  by_contra hge
  exact hsep ⟨by omega, hlast⟩

end Loops

section Shell

structure Shell (F : Type*) where
  vfs : Vfs F
  cwdArray : Buffer UInt8

inductive Call
  | cd (name : Str) (junk : Stale)
  | mkdir (name : Str)
  | touch (name : Str)
  | write (name content : Str)
  | cat (name : Str) (junk : Stale)

variable (fat : Fat F)

/-- The stores of `vfs_cd` to `g_cwd_path`. -/
def cdInto (s : Shell F) (name : Str) (junk : Stale) : Buffer UInt8 :=
  if name = [dot] then s.cwdArray
  else if name = [dot, dot] then
    if s.vfs.cwd = some 0 ∨ s.vfs.cwdPath.head? ≠ some slash then s.cwdArray
    else
      let b := s.cwdArray.store (parentPath s.vfs.cwdPath).length 0
      if b.cell 0 = 0 then pathCopyInto b [slash] else b
  else if (vfsCd fat s.vfs name junk).1 then
    pathCopyInto s.cwdArray (pathJoin s.vfs.cwdPath name)
  else s.cwdArray

def Shell.init (v : Vfs F) (cells : ℕ → UInt8) : Shell F :=
  ⟨vfsInit v, pathCopyInto ⟨cells, []⟩ [slash]⟩

def Shell.step (s : Shell F) : Call → Shell F
  | .cd name junk => ⟨(vfsCd fat s.vfs name junk).2, cdInto fat s name junk⟩
  | .mkdir name => { s with vfs := (vfsMkdir fat s.vfs name).2 }
  | .touch name => { s with vfs := (vfsTouch fat s.vfs name).2 }
  | .write name content => { s with vfs := (vfsWrite fat s.vfs name content).2 }
  | .cat name junk => { s with vfs := (vfsCat fat s.vfs name junk).2 }

/-- The arrays `candidate` and `rel` of the calls that may go to a writable volume. -/
def targetArrays (v : Vfs F) (b : Buffer UInt8) (name : Str) : List (Buffer UInt8) :=
  let candidate := pathJoin v.cwdPath name
  let r := pathIsMount v [] candidate
  pathJoinInto b v.cwdPath name ::
    match vfsMountGet v.mounts r.1 with
    | none => []
    | some m =>
      if m.fstype = [102, 97, 116, 51, 50] ∧ fat.isMounted v.fat ∧ m.flags % 2 = 0 then
        (fatRelativeInto b candidate r.2 fun _ ↦ 0).toList
      else []

/-- The arrays `candidate`, `rel` and `tmp` of `vfs_cd`. -/
def cdArrays (v : Vfs F) (b : Buffer UInt8) (name : Str) (junk : Stale) : List (Buffer UInt8) :=
  if name = [dot] then []
  else if name = [dot, dot] then
    if v.cwd = some 0 ∨ v.cwdPath.head? ≠ some slash ∨ parentPath v.cwdPath = [slash] then []
    else [pathCopyInto b (parentPath v.cwdPath)]
  else
    let candidate := pathJoin v.cwdPath name
    let r := pathIsMount v junk.mountpoint candidate
    pathJoinInto b v.cwdPath name ::
      if r.1 ≠ 0 ∧ fat.isMounted v.fat then (fatRelativeInto b candidate r.2 junk.behind).toList
      else if name.head? = some slash then [pathCopyInto b candidate] else []

/-- The arrays `candidate` and `rel` of `vfs_cat`. -/
def catArrays (v : Vfs F) (b : Buffer UInt8) (name : Str) (junk : Stale) : List (Buffer UInt8) :=
  if v.cwd = none ∨ name.head? = some slash then
    let candidate := pathJoin v.cwdPath name
    let r := pathIsMount v junk.mountpoint candidate
    pathJoinInto b v.cwdPath name ::
      if r.1 ≠ 0 ∧ fat.isMounted v.fat then (fatRelativeInto b candidate r.2 junk.behind).toList
      else []
  else []

/-- The local arrays that `path_join`, `path_copy` and `fat_relative` have written to during a
call; each of them was `b` before. -/
def Call.arrays (v : Vfs F) (b : Buffer UInt8) : Call → List (Buffer UInt8)
  | .cd name junk => cdArrays fat v b name junk
  | .mkdir name | .touch name | .write name _ => targetArrays fat v b name
  | .cat name junk => catArrays fat v b name junk

def Call.joined (v : Vfs F) : Call → Option Str
  | .cd name _ => if name = [dot] ∨ name = [dot, dot] then none else some name
  | .mkdir name | .touch name | .write name _ => some name
  | .cat name _ => if v.cwd = none ∨ name.head? = some slash then some name else none

variable {fat} {v : Vfs F} {s : Shell F}

theorem within_toList (h : b.Within 256) (full mountpoint : Str) (behind : ℕ → UInt8) :
    ∀ x ∈ (fatRelativeInto b full mountpoint behind).toList, x.Within 256 := by
  intro x hx
  exact (fatRelativeInto_spec h full mountpoint behind x (Option.mem_toList.1 hx)).1

theorem arrays_within (h : b.Within 256) (c : Call) :
    (∀ x ∈ c.arrays fat v b, x.Within 256) ↔
      ∀ name ∈ c.joined v, (pathJoinInto b v.cwdPath name).Within 256 := by
  have hjoin : ∀ (name : Str) (rest : List (Buffer UInt8)), (∀ x ∈ rest, x.Within 256) →
      ((∀ x ∈ pathJoinInto b v.cwdPath name :: rest, x.Within 256) ↔
        ∀ n ∈ some name, (pathJoinInto b v.cwdPath n).Within 256) := by
    intro name rest hrest
    simp only [List.forall_mem_cons, Option.mem_def, Option.some.injEq, forall_eq']
    exact and_iff_left hrest
  have htarget : ∀ name : Str, (∀ x ∈ targetArrays fat v b name, x.Within 256) ↔
      ∀ n ∈ some name, (pathJoinInto b v.cwdPath n).Within 256 := by
    intro name
    apply hjoin
    split
    · simp
    split_ifs
    · exact within_toList h _ _ _
    · simp
  cases c with
  | mkdir name => exact htarget name
  | touch name => exact htarget name
  | write name content => exact htarget name
  | cat name junk =>
    simp only [Call.arrays, Call.joined, catArrays]
    split_ifs
    · exact hjoin name _ (within_toList h _ _ _)
    · exact hjoin name _ (by simp)
    · simp
  | cd name junk =>
    have hnone : (∀ x ∈ cdArrays fat v b name junk, x.Within 256) →
        (name = [dot] ∨ name = [dot, dot]) → ((∀ x ∈ cdArrays fat v b name junk, x.Within 256) ↔
          ∀ n ∈ (Call.cd name junk).joined v, (pathJoinInto b v.cwdPath n).Within 256) := by
      intro hall hname
      refine iff_of_true hall ?_
      rw [Call.joined, if_pos hname]
      simp
    by_cases hdot : name = [dot]
    · refine hnone ?_ (.inl hdot)
      simp [cdArrays, hdot]
    by_cases hdots : name = [dot, dot]
    · refine hnone ?_ (.inr hdots)
      rw [cdArrays, if_neg hdot, if_pos hdots]
      split_ifs
      · simp
      · simpa using (pathCopyInto_spec h _).2
    have hjoined : (Call.cd name junk).joined v = some name := if_neg (by simp [hdot, hdots])
    rw [hjoined]
    simp only [Call.arrays, cdArrays, if_neg hdot, if_neg hdots]
    apply hjoin
    split_ifs
    · exact within_toList h _ _ _
    · simpa using (pathCopyInto_spec h _).2
    · simp

structure Shell.Kept (s : Shell F) : Prop where
  holds : s.cwdArray.Holds 0 s.vfs.cwdPath
  fits : s.vfs.cwdPath.length ≤ 255
  within : s.cwdArray.Within 256

theorem init_kept (v : Vfs F) (cells : ℕ → UInt8) : (Shell.init v cells).Kept := by
  have hempty : (⟨cells, []⟩ : Buffer UInt8).Within 256 := by simp [Buffer.Within]
  obtain ⟨hholds, hwithin⟩ := pathCopyInto_spec hempty [slash]
  exact ⟨hholds, by simp [Shell.init, vfsInit, Vfs.setNode], hwithin⟩

theorem parentPath_isPrefix (path : Str) : parentPath path <+: path := by
  have hup : (path.reverse.dropWhile (· ≠ slash)).reverse <+: path := by
    have hsuffix := List.dropWhile_suffix (l := path.reverse) (fun a ↦ decide (a ≠ slash))
    rw [← List.reverse_reverse path, List.reverse_prefix, List.reverse_reverse]
    exact hsuffix
  unfold parentPath
  dsimp only
  split_ifs
  · exact (List.dropLast_prefix _).trans hup
  · exact hup

theorem parentPath_head {path : Str} (h : path.head? = some slash) :
    (parentPath path).head? = some slash := by
  obtain ⟨rest, rfl⟩ : ∃ rest, path = slash :: rest := by
    cases path with
    | nil => cases h
    | cons c rest => exact ⟨rest, by rw [Option.some.inj h]⟩
  have hne : parentPath (slash :: rest) ≠ [] := by
    have hup : (slash :: rest).reverse.dropWhile (· ≠ slash) ≠ [] := by
      rw [Ne, List.dropWhile_eq_nil_iff]
      intro hall
      simpa using hall slash (by simp)
    unfold parentPath
    dsimp only
    split_ifs with hlen
    · intro hnil
      rw [List.length_reverse] at hlen
      have hzero := congrArg List.length hnil
      rw [List.length_dropLast, List.length_reverse, List.length_nil] at hzero
      omega
    · simp
  obtain ⟨tail, htail⟩ := parentPath_isPrefix (slash :: rest)
  cases hp : parentPath (slash :: rest) with
  | nil => exact absurd hp hne
  | cons c cs =>
    rw [hp, List.cons_append] at htail
    rw [(List.cons.inj htail).1]
    rfl

theorem vfsCd_cwdPath {junk : Stale} (hdot : name ≠ [dot]) (hdots : name ≠ [dot, dot]) :
    (vfsCd fat v name junk).2.cwdPath =
      if (vfsCd fat v name junk).1 then pathCopy (pathJoin v.cwdPath name) else v.cwdPath := by
  unfold vfsCd
  rw [if_neg hdot, if_neg hdots]
  dsimp only
  split
  · split
    · rfl
    · split <;> rfl
  · split <;> rfl

theorem vfsCdUp_cwdPath (v : Vfs F) : (vfsCdUp v).2.cwdPath =
    if v.cwd = some 0 ∨ v.cwdPath.head? ≠ some slash then v.cwdPath else parentPath v.cwdPath := by
  unfold vfsCdUp
  by_cases hroot : v.cwd = some 0
  · rw [if_pos hroot, if_pos (.inl hroot)]
  by_cases hhead : v.cwdPath.head? = some slash
  · rw [if_neg hroot, if_neg (not_not_intro hhead), if_neg (by simp [hroot, hhead])]
  · rw [if_neg hroot, if_pos hhead, if_pos (.inr hhead)]

theorem holds_cut {p s : Str} (h : b.Holds 0 s) (hp : p <+: s) : (b.store p.length 0).Holds 0 p := by
  refine Buffer.Begins.terminate ?_ rfl 0
  obtain ⟨t, rfl⟩ := hp
  have htake := h.begins.take p.length
  rwa [List.take_left] at htake

theorem Shell.Kept.cd (h : s.Kept) (name : Str) (junk : Stale) :
    (s.step fat (.cd name junk)).Kept := by
  obtain ⟨hholds, hfits, hwithin⟩ := h
  by_cases hdot : name = [dot]
  · simp only [Shell.step, cdInto, vfsCd, if_pos hdot]
    exact ⟨hholds, hfits, hwithin⟩
  by_cases hdots : name = [dot, dot]
  · have hpath : (vfsCd fat s.vfs name junk).2.cwdPath = (vfsCdUp s.vfs).2.cwdPath := by
      rw [vfsCd, if_neg hdot, if_pos hdots]
    rw [vfsCdUp_cwdPath] at hpath
    by_cases hstay : s.vfs.cwd = some 0 ∨ s.vfs.cwdPath.head? ≠ some slash
    · rw [if_pos hstay] at hpath
      have harray : cdInto fat s name junk = s.cwdArray := by
        rw [cdInto, if_neg hdot, if_pos hdots, if_pos hstay]
      exact ⟨by rwa [Shell.step, harray, hpath], by rwa [Shell.step, hpath],
        by rwa [Shell.step, harray]⟩
    rw [if_neg hstay] at hpath
    rw [not_or, not_not] at hstay
    have hcut := holds_cut hholds (parentPath_isPrefix s.vfs.cwdPath)
    have hlen := (parentPath_isPrefix s.vfs.cwdPath).length_le
    -- the path above still begins with a slash
    have hfirst : (s.cwdArray.store (parentPath s.vfs.cwdPath).length 0).cell 0 ≠ 0 := by
      have hhead := parentPath_head hstay.2
      cases hp : parentPath s.vfs.cwdPath with
      | nil => rw [hp] at hhead; cases hhead
      | cons c cs =>
        rw [hp] at hhead hcut
        have hcell : _ = c := hcut.begins 0 (by simp)
        rw [hcell, Option.some.inj hhead]
        decide
    have harray : cdInto fat s name junk =
        s.cwdArray.store (parentPath s.vfs.cwdPath).length 0 := by
      rw [cdInto, if_neg hdot, if_pos hdots, if_neg (by simp [hstay.1, hstay.2]), if_neg hfirst]
    refine ⟨by rwa [Shell.step, harray, hpath], ?_, ?_⟩
    · rw [Shell.step, hpath]
      exact hlen.trans hfits
    rw [Shell.step, harray]
    exact Buffer.store_within.2 ⟨by omega, hwithin⟩
  · have hpath : (vfsCd fat s.vfs name junk).2.cwdPath = if (vfsCd fat s.vfs name junk).1 then
        pathCopy (pathJoin s.vfs.cwdPath name) else s.vfs.cwdPath := vfsCd_cwdPath hdot hdots
    have harray : cdInto fat s name junk = if (vfsCd fat s.vfs name junk).1 then
        pathCopyInto s.cwdArray (pathJoin s.vfs.cwdPath name) else s.cwdArray := by
      rw [cdInto, if_neg hdot, if_neg hdots]
    cases hdone : (vfsCd fat s.vfs name junk).1 with
    | true =>
      obtain ⟨hholds', hwithin'⟩ := pathCopyInto_spec hwithin (pathJoin s.vfs.cwdPath name)
      rw [hdone, if_pos rfl] at hpath harray
      refine ⟨by rwa [Shell.step, harray, hpath], ?_, by rwa [Shell.step, harray]⟩
      rw [Shell.step, hpath]
      exact List.length_take_le _ _
    | false =>
      rw [hdone, if_neg (by decide)] at hpath harray
      exact ⟨by rwa [Shell.step, harray, hpath], by rwa [Shell.step, hpath],
        by rwa [Shell.step, harray]⟩

theorem createNode_cwdPath (v : Vfs F) (name : Str) (make : Node → Fin 48 → Node) :
    (createNode v name make).2.cwdPath = v.cwdPath := by
  unfold createNode
  split
  · rfl
  split
  · rfl
  · split <;> rfl

theorem Shell.Kept.step (h : s.Kept) (c : Call) : (s.step fat c).Kept := by
  have hsame : ∀ v : Vfs F, v.cwdPath = s.vfs.cwdPath → ({ s with vfs := v } : Shell F).Kept :=
    fun v hv ↦ ⟨hv ▸ h.holds, hv ▸ h.fits, h.within⟩
  cases c with
  | cd name junk => exact h.cd name junk
  | mkdir name =>
    refine hsame _ ?_
    unfold vfsMkdir
    split
    · rfl
    · exact createNode_cwdPath _ _ _
  | touch name =>
    refine hsame _ ?_
    unfold vfsTouch
    split
    · rfl
    · exact createNode_cwdPath _ _ _
  | write name content =>
    refine hsame _ ?_
    unfold vfsWrite
    split
    · rfl
    split
    · rfl
    · split <;> rfl
  | cat name junk =>
    refine hsame _ ?_
    unfold vfsCat
    split
    · rfl
    · split <;> rfl

/-- Whatever calls the shell makes from `vfs_init` on, `g_cwd_path` is a string inside its array,
and the next call keeps the paths it builds inside theirs just if the name it joins is absolute or
the current path leaves room for a separator or ends with one. -/
theorem shell_paths_fit (fat : Fat F) (v : Vfs F) (cells : ℕ → UInt8) (calls : List Call) :
    let s := calls.foldl (Shell.step fat) (Shell.init v cells)
    (s.cwdArray.Holds 0 s.vfs.cwdPath ∧ s.vfs.cwdPath.length < 256 ∧ s.cwdArray.Within 256) ∧
    ∀ (c : Call) (frame : ℕ → UInt8),
      (∀ x ∈ c.arrays fat s.vfs ⟨frame, []⟩, x.Within 256) ↔
        ∀ name ∈ c.joined s.vfs, JoinFits s.vfs.cwdPath name := by
  intro s
  have h : s.Kept := foldl_invariant (fun _ c hs ↦ hs.step c) (init_kept v cells) calls
  refine ⟨⟨h.holds, by have := h.fits; omega, h.within⟩, fun c frame ↦ ?_⟩
  have hempty : (⟨frame, []⟩ : Buffer UInt8).Within 256 := by simp [Buffer.Within]
  rw [arrays_within hempty]
  refine forall_congr' fun name ↦ imp_congr_right fun _ ↦ ?_
  rw [(pathJoinInto_spec hempty _ _).2, length_pathJoin h.fits]

/-- Ten directories with names of 23 characters and one with a name of 14, each in the one
before. -/
def deepCalls : List Call :=
  let names : List Str := List.replicate 10 (List.replicate 23 97) ++ [List.replicate 14 97]
  names.flatMap fun name ↦ [.mkdir name, .cd name .clean]

/-- A volume with a directory "AAAAAAAA", which longer names that begin so also find. -/
def dirFat : Fat Unit where
  isMounted _ := true
  isDirectory rel _ := (rel.take 9 == slash :: List.replicate 8 65, ())
  mkdir _ _ := (false, ())
  writeFile _ _ _ := (false, ())
  readFile _ _ _ := (none, ())

def mountedVfs : Vfs Unit :=
  { storage with
    mounts := (vfsMount vfsMountInit [97, 104, 99, 105, 48, 112, 48]
      [47, 109, 110, 116, 47, 100, 105, 115, 107, 48] [102, 97, 116, 51, 50] 0).2 }

def longCd : Call := .cd ([47, 109, 110, 116, 47, 100, 105, 115, 107, 48, 47] ++
  List.replicate 244 65) .clean

/-- With a current path of 255 characters, in the tree or by one `cd` on a volume, the terminator of
the joined path is stored behind the array. -/
theorem shell_path_overrun :
    let s := deepCalls.foldl (Shell.step noFat) (Shell.init storage fun _ ↦ 0)
    let t := [longCd].foldl (Shell.step dirFat) (Shell.init mountedVfs fun _ ↦ 0)
    s.vfs.cwdPath.length = 255 ∧
      (∃ x ∈ (Call.mkdir [120]).arrays noFat s.vfs ⟨fun _ ↦ 0, []⟩, 256 ∈ x.used) ∧
      t.vfs.cwdPath.length = 255 ∧
      ∃ x ∈ (Call.mkdir [120]).arrays dirFat t.vfs ⟨fun _ ↦ 0, []⟩, 256 ∈ x.used := by
  refine ⟨?_, ?_, ?_, ?_⟩ <;> decide +kernel

end Shell

end NexusOS.Fs
