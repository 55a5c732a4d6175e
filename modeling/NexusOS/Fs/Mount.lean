import Mathlib

namespace NexusOS.Fs

instance neZeroMounts : NeZero 32 := ⟨by decide⟩

abbrev Str := List UInt8

def slash : UInt8 := 47

def dot : UInt8 := 46

structure Mount where
  used : Bool
  source : Str
  target : Str
  fstype : Str
  flags : ℕ
  deriving DecidableEq

abbrev Mounts := Fin 32 → Mount

def mountNodev : ℕ := 2

def vfsMount (mounts : Mounts) (source target fstype : Str) (flags : ℕ) : ℤ × Mounts :=
  if target = [] then (-1, mounts)
  else
    match (List.finRange 32).find? fun i ↦ (mounts i).used && (mounts i).target == target with
    | some i => (i, Function.update mounts i { mounts i with
        source := source.take 255, fstype := fstype.take 15, flags := flags })
    | none =>
      match (List.finRange 32).find? fun i ↦ !(mounts i).used with
      | some i =>
        (i, Function.update mounts i ⟨true, source.take 255, target.take 255, fstype.take 15, flags⟩)
      | none => (-2, mounts)

def vfsUmount (mounts : Mounts) (target : Str) : ℤ × Mounts :=
  if target = [slash] then (-2, mounts)
  else
    match (List.finRange 32).find? fun i ↦ (mounts i).used && (mounts i).target == target with
    | some i => (0, Function.update mounts i { mounts i with used := false })
    | none => (-1, mounts)

def vfsMountGet (mounts : Mounts) (index : ℤ) : Option Mount :=
  if h : 0 ≤ index ∧ index < 32 then
    let m := mounts ⟨index.toNat, by omega⟩
    if m.used then some m else none
  else none

def vfsMountCount (mounts : Mounts) : ℕ := (List.finRange 32).countP fun i ↦ (mounts i).used

/-- The target is the beginning of the path and a component ends there. -/
def mountMatches (m : Mount) (path : Str) : Bool :=
  m.used && m.target.isPrefixOf path &&
    ((path.drop m.target.length).head? == none || (path.drop m.target.length).head? == some slash)

/-- One round of `vfs_mount_resolve`, with the best mount so far. -/
def betterMount (mounts : Mounts) (path : Str) (best : Option (Fin 32)) (i : Fin 32) :
    Option (Fin 32) :=
  if mountMatches (mounts i) path ∧
      ∀ b ∈ best, (mounts b).target.length < (mounts i).target.length then some i
  else best

def vfsMountResolve (mounts : Mounts) (path : Str) : Option (Fin 32) :=
  (List.finRange 32).foldl (betterMount mounts path) none

end NexusOS.Fs
