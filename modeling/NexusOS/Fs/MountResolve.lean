import NexusOS.Fs.Mount
import NexusOS.Lib.Best
import NexusOS.Lib.Run

namespace NexusOS.Fs

open Lib

variable {mounts : Mounts} {path target : Str} {i j : Fin 32}

section Table

/-- The table of the boot: `/`, `/dev`, `/proc`, `/sys` and `/tmp`. -/
def vfsMountInit : Mounts :=
  let mounts : Mounts := fun _ ↦ ⟨false, [], [], [], 0⟩
  let mounts := (vfsMount mounts [114, 111, 111, 116, 102, 115] [47]
    [110, 101, 120, 117, 115, 102, 115] 0).2
  let mounts := (vfsMount mounts [100, 101, 118, 102, 115] [47, 100, 101, 118]
    [100, 101, 118, 102, 115] 0).2
  let mounts := (vfsMount mounts [112, 114, 111, 99, 102, 115] [47, 112, 114, 111, 99]
    [112, 114, 111, 99, 102, 115] mountNodev).2
  let mounts := (vfsMount mounts [115, 121, 115, 102, 115] [47, 115, 121, 115]
    [115, 121, 115, 102, 115] mountNodev).2
  (vfsMount mounts [116, 109, 112, 102, 115] [47, 116, 109, 112] [116, 109, 112, 102, 115] 0).2

inductive MountOp
  | mount (source target fstype : Str) (flags : ℕ)
  | umount (target : Str)

def mountStep (mounts : Mounts) : MountOp → Mounts
  | .mount source target fstype flags => (vfsMount mounts source target fstype flags).2
  | .umount target => (vfsUmount mounts target).2

structure MountTable (mounts : Mounts) : Prop where
  root : ∃ r, (mounts r).used = true ∧ (mounts r).target = [slash]
  named : ∀ i, (mounts i).used = true → (mounts i).target ≠ []

theorem MountTable.update {m : Mount} (h : MountTable mounts)
    (hroot : (mounts i).used = true → (mounts i).target = [slash] →
      m.used = true ∧ m.target = [slash])
    (hnamed : m.used = true → m.target ≠ []) : MountTable (Function.update mounts i m) := by
  obtain ⟨r, hused, hr⟩ := h.root
  refine ⟨⟨r, ?_⟩, ?_⟩
  · by_cases hri : r = i
    · subst hri
      rw [Function.update_self]
      exact hroot hused hr
    · rw [Function.update_of_ne hri]
      exact ⟨hused, hr⟩
  intro j
  by_cases hji : j = i
  · subst hji
    rw [Function.update_self]
    exact hnamed
  · rw [Function.update_of_ne hji]
    exact h.named j

theorem MountTable.mount (h : MountTable mounts) (source target fstype : Str) (flags : ℕ) :
    MountTable (vfsMount mounts source target fstype flags).2 := by
  unfold vfsMount
  split
  · exact h
  rename_i hne
  split
  · rename_i i hi
    exact h.update (fun hused hr ↦ ⟨hused, hr⟩) (h.named i)
  split
  · rename_i i hi
    have hfree := List.find?_some hi
    apply h.update
    · intro hused
      simp [hused] at hfree
    intro _ hnil
    exact hne ((List.take_eq_nil_iff.1 hnil).resolve_left (by decide))
  · exact h

theorem MountTable.umount (h : MountTable mounts) (target : Str) :
    MountTable (vfsUmount mounts target).2 := by
  unfold vfsUmount
  split
  · exact h
  rename_i hne
  split
  · rename_i i hi
    have hfound := List.find?_some hi
    simp only [Bool.and_eq_true, beq_iff_eq] at hfound
    apply h.update
    · intro _ hr
      exact absurd (hfound.2.symm.trans hr) hne
    intro hused
    cases hused
  · exact h

theorem mountTable_run (ops : List MountOp) : MountTable (ops.foldl mountStep vfsMountInit) := by
  have hstart : MountTable vfsMountInit :=
    ⟨⟨0, by decide +kernel, by decide +kernel⟩, by decide +kernel⟩
  refine foldl_invariant (I := MountTable) ?_ hstart ops
  intro mounts op h
  cases op with
  | mount source target fstype flags => exact h.mount source target fstype flags
  | umount target => exact h.umount target

end Table

section Resolve

/-- A target is the path or a whole-component beginning of it; the root is one of every absolute
path. -/
def Covers (target path : Str) : Prop :=
  (target = [slash] ∧ path.head? = some slash) ∨ path = target ∨ (target ++ [slash]) <+: path

/-- The mountpoint buffer has `outSize` bytes. -/
def vfsMountResolveTo (mounts : Mounts) (path out : Str) (outSize : ℕ) : ℤ × Str :=
  if outSize = 0 then (-1, out)
  else
    match vfsMountResolve mounts path with
    | none => (-1, out)
    | some i => ((i.val : ℤ), (mounts i).target.take (outSize - 1))

theorem mountMatches_iff (m : Mount) (path : Str) : mountMatches m path = true ↔
    m.used = true ∧ (path = m.target ∨ (m.target ++ [slash]) <+: path) := by
  simp only [mountMatches, Bool.and_eq_true, Bool.or_eq_true, beq_iff_eq, List.isPrefixOf_iff_prefix,
    and_assoc, and_congr_right_iff]
  intro _
  constructor
  · intro h
    obtain ⟨⟨rest, rfl⟩, hrest⟩ := h
    rw [List.drop_left] at hrest
    cases rest with
    | nil => exact .inl (List.append_nil _)
    | cons c rest =>
      right
      obtain rfl : c = slash := by simpa using hrest
      exact ⟨rest, by simp⟩
  rintro (rfl | ⟨rest, rfl⟩)
  · exact ⟨List.prefix_rfl, by simp⟩
  · exact ⟨⟨slash :: rest, by simp⟩, by simp⟩

theorem betterMount_eq (mounts : Mounts) (path : Str) : betterMount mounts path =
    keepBest (fun i ↦ mountMatches (mounts i) path) fun i ↦ (mounts i).target.length := by
  funext best i
  unfold betterMount keepBest
  congr

theorem vfsMountResolve_isPrefix (h : vfsMountResolve mounts path = some i) :
    (mounts i).target <+: path := by
  rw [vfsMountResolve, betterMount_eq] at h
  rcases foldl_keepBest (fun i ↦ mountMatches (mounts i) path)
    (fun i ↦ (mounts i).target.length) (List.finRange 32) with ⟨hnone, -⟩ | ⟨j, hj, hbest⟩
  · cases h.symm.trans hnone
  · obtain rfl := Option.some.inj (h.symm.trans hj)
    rcases ((mountMatches_iff _ _).1 hbest.qualifies).2 with heq | hpre
    · rw [← heq]
    · exact (List.prefix_append _ _).trans hpre

theorem Covers.isPrefix (h : Covers target path) : target <+: path := by
  rcases h with ⟨rfl, habs⟩ | rfl | hpre
  · cases path with
    | nil => cases habs
    | cons c rest =>
      obtain rfl : c = slash := Option.some.inj habs
      exact ⟨rest, rfl⟩
  · exact List.prefix_rfl
  · exact (List.prefix_append _ _).trans hpre

/-- What the code answers for. The root itself only answers for `/` and for what begins with two
slashes. -/
def Answered (mounts : Mounts) (path : Str) : Prop :=
  path.tail = [] ∨ path.tail.head? = some slash ∨
    ∃ i, (mounts i).used = true ∧ (mounts i).target ≠ [slash] ∧ Covers (mounts i).target path

theorem Answered.matches (h : MountTable mounts) (habs : path.head? = some slash)
    (hans : Answered mounts path) : ∃ i, mountMatches (mounts i) path = true := by
  obtain ⟨r, hused, hr⟩ := h.root
  have hpath : path = slash :: path.tail := by
    cases path with
    | nil => cases habs
    | cons c rest =>
      obtain rfl : c = slash := Option.some.inj habs
      rfl
  rcases hans with htail | htail | ⟨i, hi, hne, hcov⟩
  · refine ⟨r, (mountMatches_iff _ _).2 ⟨hused, .inl ?_⟩⟩
    rw [hr, hpath, htail]
  · refine ⟨r, (mountMatches_iff _ _).2 ⟨hused, .inr ?_⟩⟩
    cases hrest : path.tail with
    | nil =>
      rw [hrest] at htail
      cases htail
    | cons c rest =>
      rw [hrest] at htail
      obtain rfl : c = slash := Option.some.inj htail
      exact ⟨rest, by rw [hr, hpath, hrest]; rfl⟩
  · refine ⟨i, (mountMatches_iff _ _).2 ⟨hi, hcov.resolve_left ?_⟩⟩
    exact fun hroot ↦ hne hroot.1

theorem answered_of_matches (hi : mountMatches (mounts i) path = true) : Answered mounts path := by
  obtain ⟨hused, hcov⟩ := (mountMatches_iff _ _).1 hi
  by_cases hroot : (mounts i).target = [slash]
  · rw [hroot] at hcov
    rcases hcov with rfl | ⟨rest, rfl⟩
    · exact .inl rfl
    · exact .inr (.inl rfl)
  · exact .inr (.inr ⟨i, hused, hroot, .inr hcov⟩)

/-- The entry with the longest target that covers the path. -/
def Longest (mounts : Mounts) (path : Str) (i : Fin 32) : Prop :=
  (mounts i).used = true ∧ Covers (mounts i).target path ∧
    ∀ j, (mounts j).used = true → Covers (mounts j).target path →
      (mounts j).target = (mounts i).target ∨
        (mounts j).target.length < (mounts i).target.length

theorem vfsMountResolve_cases (h : MountTable mounts) (path : Str) :
    (vfsMountResolve mounts path = none ∧ ∀ i, mountMatches (mounts i) path = false) ∨
      ∃ i, vfsMountResolve mounts path = some i ∧ mountMatches (mounts i) path = true ∧
        Longest mounts path i := by
  rw [vfsMountResolve, betterMount_eq]
  rcases foldl_keepBest (fun i ↦ mountMatches (mounts i) path)
    (fun i ↦ (mounts i).target.length) (List.finRange 32) with ⟨hres, hnone⟩ | ⟨i, hi, hbest⟩
  · exact .inl ⟨hres, fun i ↦ hnone i (List.mem_finRange i)⟩
  obtain ⟨hused, hcov⟩ := (mountMatches_iff _ _).1 hbest.qualifies
  have hcovers : Covers (mounts i).target path := .inr hcov
  refine .inr ⟨i, hi, hbest.qualifies, hused, hcovers, fun j hj hcovj ↦ ?_⟩
  have hle : (mounts j).target.length ≤ (mounts i).target.length := by
    rcases hcovj with ⟨hroot, -⟩ | hmatch
    · rw [hroot]
      exact List.length_pos_iff.2 (h.named i hused)
    · exact hbest.le j (List.mem_finRange j) ((mountMatches_iff _ _).2 ⟨hj, hmatch⟩)
  rcases hle.eq_or_lt with heq | hlt
  · left
    obtain ⟨rest, hrest⟩ := hcovj.isPrefix
    obtain ⟨rest', hrest'⟩ := hcovers.isPrefix
    exact List.append_inj_left (hrest.trans hrest'.symm) heq
  · exact .inr hlt

/-- The root stays mounted. Just the paths that are answered for resolve to the longest target that
covers them, which is copied; every other path gives -1. -/
theorem mount_resolve_longest (ops : List MountOp) (path out : Str) (outSize : ℕ)
    (habs : path.head? = some slash) (hsize : 0 < outSize) :
    let mounts := ops.foldl mountStep vfsMountInit
    (∃ r, (mounts r).used = true ∧ (mounts r).target = [slash]) ∧
      ((∃ i : Fin 32, vfsMountResolveTo mounts path out outSize =
          ((i.val : ℤ), (mounts i).target.take (outSize - 1)) ∧ Longest mounts path i) ↔
        Answered mounts path) ∧
      (¬ Answered mounts path → vfsMountResolveTo mounts path out outSize = (-1, out)) := by
  intro mounts
  have h : MountTable mounts := mountTable_run ops
  refine ⟨h.root, ?_⟩
  rcases vfsMountResolve_cases h path with ⟨hres, hnone⟩ | ⟨i, hres, hmatch, hlongest⟩
  · have hnot : ¬ Answered mounts path := by
      intro hans
      obtain ⟨i, hi⟩ := hans.matches h habs
      simp [hnone i] at hi
    simp [vfsMountResolveTo, hsize.ne', hres, hnot]
  have hans := answered_of_matches hmatch
  refine ⟨iff_of_true ⟨i, ?_, hlongest⟩ hans, fun hnot ↦ absurd hans hnot⟩
  simp only [vfsMountResolveTo, if_neg hsize.ne', hres]

/-- A disk is mounted at `/mnt`. -/
def mntMounts : List MountOp := [.mount [100] [47, 109, 110, 116] [102, 97, 116, 51, 50] 0]

theorem mount_resolve_longest_mnt :
    ∃ i : Fin 32, vfsMountResolveTo (mntMounts.foldl mountStep vfsMountInit)
        [47, 109, 110, 116, 47, 97] [] 256 = ((i.val : ℤ), [47, 109, 110, 116]) ∧
      ∀ j, ((mntMounts.foldl mountStep vfsMountInit) j).used = true →
        Covers ((mntMounts.foldl mountStep vfsMountInit) j).target [47, 109, 110, 116, 47, 97] →
        ((mntMounts.foldl mountStep vfsMountInit) j).target = [47, 109, 110, 116] ∨
          ((mntMounts.foldl mountStep vfsMountInit) j).target.length < 4 := by
  have hans : Answered (mntMounts.foldl mountStep vfsMountInit) [47, 109, 110, 116, 47, 97] :=
    .inr (.inr ⟨5, by decide +kernel, by decide +kernel, .inr (.inr ⟨[97], by decide +kernel⟩)⟩)
  obtain ⟨i, hi, -, -, hmax⟩ := (mount_resolve_longest mntMounts [47, 109, 110, 116, 47, 97] [] 256
    rfl (by decide)).2.1.2 hans
  have hres : vfsMountResolve (mntMounts.foldl mountStep vfsMountInit) [47, 109, 110, 116, 47, 97] =
      some 5 := by decide +kernel
  have hi5 : i = 5 := by
    simp only [vfsMountResolveTo, hres, OfNat.ofNat_ne_zero, if_false, Prod.mk.injEq] at hi
    exact Fin.ext (Int.ofNat.inj hi.1).symm
  have htarget : ((mntMounts.foldl mountStep vfsMountInit) 5).target = [47, 109, 110, 116] := by
    decide +kernel
  rw [hi5, htarget] at hmax hi
  exact ⟨5, hi, hmax⟩

/-- The root is mounted, but `/home` resolves to nothing. -/
theorem mount_resolve_home :
    (vfsMountInit 0).used = true ∧ (vfsMountInit 0).target = [slash] ∧
      Covers (vfsMountInit 0).target [47, 104, 111, 109, 101] ∧
      vfsMountResolveTo vfsMountInit [47, 104, 111, 109, 101] [] 256 = (-1, []) :=
  ⟨by decide +kernel, by decide +kernel, .inl ⟨by decide +kernel, rfl⟩, by decide +kernel⟩

end Resolve

end NexusOS.Fs
