import NexusOS.Fs.Fat32.Driver

namespace NexusOS.Fs.Fat32

section Steps

variable (g : Geometry)

def freeUnlessZero (first : ℕ) (d : Disk) : Disk :=
  if first ≠ 0 then (fat32FreeChain g first d).2 else d

/-- The clusters that are still `needed`, behind those from `first` to `last`. -/
def allocChain : ℕ → ℕ → ℕ → Disk → Option ℕ × Disk
  | 0, first, _, d => (some first, d)
  | needed + 1, first, last, d =>
    match fat32AllocCluster g d with
    | (none, d) => (none, freeUnlessZero g first d)
    | (some fresh, d) =>
      let first := if first = 0 then fresh else first
      if last = 0 then allocChain needed first fresh d
      else
        let r := fat32SetEntry g last fresh d
        if r.1 then allocChain needed first fresh r.2
        else (none, freeUnlessZero g first (fat32FreeChain g fresh r.2).2)

/-- The data are written cluster by cluster, in at most `n` rounds. -/
def writeData (first : ℕ) : ℕ → ℕ → List UInt8 → Disk → Bool × Disk
  | 0, _, _, d => (true, d)
  | n + 1, cluster, data, d =>
    if data = [] then (true, d)
    else
      let r := writeCluster g d cluster fun i ↦ (data.take (clusterBytes g)).getD i 0
      if !r.1 then (false, freeUnlessZero g first r.2)
      else if data.drop (clusterBytes g) = [] then (true, r.2)
      else
        match fat32ReadEntry g r.2 cluster with
        | none => (false, (fat32FreeChain g first r.2).2)
        | some next =>
          if isEndOfChain next then (false, (fat32FreeChain g first r.2).2)
          else writeData first n next (data.drop (clusterBytes g)) r.2

def dotName : Name := fun j ↦ if j = 0 then 46 else 32

def dotDotName : Name := fun j ↦ if j = 0 ∨ j = 1 then 46 else 32

def dotEntries (cluster parent : ℕ) : Buf :=
  putEntry (putEntry (fun _ ↦ 0) 0 (setDirentCluster (newDirent dotName 0x10 0) cluster)) 1
    (setDirentCluster (newDirent dotDotName 0x10 0) parent)

/-- Where the entry of a file goes: to its old place or to a free slot. A search that does not end
is `none`. -/
def fileSlot (found : Bool) (parent : ℕ) (name : Name) (d : Disk) :
    Option (Option (ℕ × ℕ)) × Disk :=
  if found then ((findEntryLocation g d parent name).map (·.map fun x ↦ (x.1, x.2.1)), d)
  else
    let r := findFreeDirSlot g parent d
    (some r.1, r.2)

/-- Whether a cluster holds deleted and special entries only, up to its end marker. -/
def emptyEntries (buf : Buf) : List ℕ → Bool
  | [] => true
  | i :: is =>
    let e := entryAt buf i
    if e 0 = 0 then true
    else if skipped e ∨ special e then emptyEntries buf is
    else false

/-- At most `n` rounds of the check of `fat32_remove_empty_dir`. -/
def emptyChain (d : Disk) : ℕ → ℕ → Bool
  | 0, _ => true
  | n + 1, cluster =>
    if cluster < 2 ∨ g.maxCluster < cluster then true
    else
      match readCluster g d cluster with
      | none => false
      | some buf =>
        if !emptyEntries buf (List.range (entriesPerCluster g)) then false
        else
          match fat32ReadEntry g d cluster with
          | none => false
          | some next => if isEndOfChain next then true else emptyChain d n next

def mkdirIn (parent : ℕ) (name : Name) (d : Disk) : Bool × Disk :=
  match fat32AllocCluster g d with
  | (none, d) => (false, d)
  | (some cluster, d) =>
    match readCluster g d cluster with
    | none => (false, (fat32FreeChain g cluster d).2)
    | some _ =>
      let r := writeCluster g d cluster (dotEntries cluster parent)
      if !r.1 then (false, (fat32FreeChain g cluster r.2).2)
      else
        match findFreeDirSlot g parent r.2 with
        | (none, d) => (false, (fat32FreeChain g cluster d).2)
        | (some (slotCluster, slot), d) =>
          let e := setDirentCluster (newDirent name 0x10 0) cluster
          let w := writeDirent g d slotCluster slot e
          if w.1 then (true, w.2) else (false, (fat32FreeChain g cluster w.2).2)

def freeOld (old : Option Dirent) (d : Disk) : Disk :=
  match old with
  | none => d
  | some old => if 2 ≤ direntCluster old then (fat32FreeChain g (direntCluster old) d).2 else d

/-- The entry of the written chain replaces the old one or is new. -/
def publishFile (parent : ℕ) (name : Name) (old : Option Dirent) (first size : ℕ) (d : Disk) :
    Option Bool × Disk :=
  match fileSlot g old.isSome parent name d with
  | (none, d) => (none, d)
  | (some none, d) => (some false, freeUnlessZero g first d)
  | (some (some (slotCluster, slot)), d) =>
    let e := setDirentCluster (newDirent name 0x20 size) first
    let w := writeDirent g d slotCluster slot e
    if w.1 then (some true, freeOld g old w.2) else (some false, freeUnlessZero g first w.2)

def clustersNeeded (size : ℕ) : ℕ :=
  if size = 0 then 0 else (size + clusterBytes g - 1) / clusterBytes g

def writeFileIn (parent : ℕ) (name : Name) (old : Option Dirent) (data : List UInt8) (d : Disk) :
    Option Bool × Disk :=
  match allocChain g (clustersNeeded g data.length) 0 0 d with
  | (none, d) => (some false, d)
  | (some first, d) =>
    let r := writeData g first data.length first data d
    if r.1 then publishFile g parent name old first data.length r.2 else (some false, r.2)

end Steps

def Volume.setDisk (s : Volume) (d : Disk) : Volume := { s with disk := d }

/-- The result and the volume that a call leaves; the result of a call that does not return is
`none`. -/
def fat32Mkdir (s : Volume) (path : Str) : Option Bool × Volume :=
  if !s.mounted then (some false, s)
  else
    match resolveParent s.geometry s.disk path with
    | none => (none, s)
    | some none => (some false, s)
    | some (some (parent, name)) =>
      match findEntry s.geometry s.disk parent name with
      | none => (none, s)
      | some (some _) => (some false, s)
      | some none =>
        let r := mkdirIn s.geometry parent name s.disk
        (some r.1, s.setDisk r.2)

def fat32WriteFile (s : Volume) (path : Str) (data : List UInt8) : Option Bool × Volume :=
  if !s.mounted then (some false, s)
  else if 16 * 1024 * 1024 < data.length then (some false, s)
  else
    match resolveParent s.geometry s.disk path with
    | none => (none, s)
    | some none => (some false, s)
    | some (some (parent, name)) =>
      match findEntry s.geometry s.disk parent name with
      | none => (none, s)
      | some old =>
        if old.any Dirent.isDirectory then (some false, s)
        else
          let r := writeFileIn s.geometry parent name old data s.disk
          (r.1, s.setDisk r.2)

def fat32RemoveFile (s : Volume) (path : Str) : Option Bool × Volume :=
  if !s.mounted then (some false, s)
  else
    match resolveParent s.geometry s.disk path with
    | none => (none, s)
    | some none => (some false, s)
    | some (some (parent, name)) =>
      match findEntryLocation s.geometry s.disk parent name with
      | none => (none, s)
      | some none => (some false, s)
      | some (some (slotCluster, slot, entry)) =>
        if entry.isDirectory then (some false, s)
        else
          let r := deleteDirent s.geometry s.disk slotCluster slot
          if !r.1 then (some false, s.setDisk r.2)
          else if 2 ≤ direntCluster entry then
            let f := fat32FreeChain s.geometry (direntCluster entry) r.2
            (some f.1, s.setDisk f.2)
          else (some true, s.setDisk r.2)

def fat32RemoveEmptyDir (s : Volume) (path : Str) : Option Bool × Volume :=
  if !s.mounted ∨ path = [slash] then (some false, s)
  else
    match resolveParent s.geometry s.disk path with
    | none => (none, s)
    | some none => (some false, s)
    | some (some (parent, name)) =>
      match findEntryLocation s.geometry s.disk parent name with
      | none => (none, s)
      | some none => (some false, s)
      | some (some (slotCluster, slot, entry)) =>
        if !entry.isDirectory then (some false, s)
        else if !emptyChain s.geometry s.disk (s.geometry.maxCluster + 1) (direntCluster entry) then
          (some false, s)
        else
          let r := deleteDirent s.geometry s.disk slotCluster slot
          if !r.1 then (some false, s.setDisk r.2)
          else
            let f := fat32FreeChain s.geometry (direntCluster entry) r.2
            (some f.1, s.setDisk f.2)

inductive FatCall
  | writeFile (path : Str) (data : List UInt8)
  | mkdir (path : Str)
  | removeFile (path : Str)
  | removeEmptyDir (path : Str)

def FatCall.run (s : Volume) : FatCall → Option Bool × Volume
  | .writeFile path data => fat32WriteFile s path data
  | .mkdir path => fat32Mkdir s path
  | .removeFile path => fat32RemoveFile s path
  | .removeEmptyDir path => fat32RemoveEmptyDir s path

end NexusOS.Fs.Fat32
