import NexusOS.Lib.Bytes

namespace NexusOS.Tools.Fat16

open Lib

def number (img : List UInt8) (off n : ℕ) : ℕ := ofLe (slice img off n)

structure Bpb where
  bytesPerSector : ℕ
  sectorsPerCluster : ℕ
  reserved : ℕ
  fats : ℕ
  rootEntries : ℕ
  fatSectors : ℕ

def bpbOf (img : List UInt8) : Bpb where
  bytesPerSector := number img 11 2
  sectorsPerCluster := number img 13 1
  reserved := number img 14 2
  fats := number img 16 1
  rootEntries := number img 17 2
  fatSectors := number img 22 2

section Layout

variable (g : Bpb)

def Bpb.rootOff : ℕ := (g.reserved + g.fats * g.fatSectors) * g.bytesPerSector

def Bpb.clusterSize : ℕ := g.sectorsPerCluster * g.bytesPerSector

def Bpb.clusterOff (c : ℕ) : ℕ := g.rootOff + g.rootEntries * 32 + (c - 2) * g.clusterSize

def Bpb.next (img : List UInt8) (c : ℕ) : ℕ := number img (g.reserved * g.bytesPerSector + c * 2) 2

/-- The clusters from `c` to the end of its chain; `n` bounds their number. -/
def Bpb.chain (img : List UInt8) : ℕ → ℕ → Option (List ℕ)
  | 0, _ => none
  | n + 1, c =>
    if c < 2 then none
    else if 0xFFF8 ≤ g.next img c then some [c]
    else (Bpb.chain img n (g.next img c)).map (c :: ·)

def Bpb.contents (img : List UInt8) (chain : List ℕ) : List UInt8 :=
  chain.flatMap fun c ↦ slice img (g.clusterOff c) g.clusterSize

end Layout

/-- The entry of a name in a directory, which ends at the first entry that starts with 0. -/
def lookup (dir name : List UInt8) : Option (List UInt8) :=
  (((List.range (dir.length / 32)).map fun i ↦ slice dir (i * 32) 32).takeWhile
    (·.head? ≠ some 0)).find? fun e ↦ e.take 11 = name

def chainOf (g : Bpb) (img entry : List UInt8) : Option (List ℕ) :=
  g.chain img 65536 (number entry 26 2)

def walk (g : Bpb) (img : List UInt8) : List (List UInt8) → List UInt8 → Option (List UInt8)
  | [], _ => none
  | [name], dir => lookup dir name
  | name :: path, dir => do
    let entry ← lookup dir name
    let chain ← chainOf g img entry
    walk g img path (g.contents img chain)

def entryAt (img : List UInt8) (path : List (List UInt8)) : Option (List UInt8) :=
  walk (bpbOf img) img path (slice img (bpbOf img).rootOff ((bpbOf img).rootEntries * 32))

def chainAt (img : List UInt8) (path : List (List UInt8)) : Option (List ℕ) := do
  let entry ← entryAt img path
  chainOf (bpbOf img) img entry

def readFile (img : List UInt8) (path : List (List UInt8)) : Option (List UInt8) := do
  let entry ← entryAt img path
  let chain ← chainOf (bpbOf img) img entry
  return ((bpbOf img).contents img chain).take (number entry 28 4)

/-- The objects at the paths have chains that are disjoint and inside the image. -/
structure Disjoint (img : List UInt8) (paths : List (List (List UInt8))) : Prop where
  found : ∀ path ∈ paths, (chainAt img path).isSome
  nodup : (paths.flatMap fun path ↦ (chainAt img path).getD []).Nodup
  inside : ∀ path ∈ paths, ∀ c ∈ (chainAt img path).getD [],
    (bpbOf img).clusterOff c + (bpbOf img).clusterSize ≤ img.length

end NexusOS.Tools.Fat16
