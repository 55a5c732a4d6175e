import NexusOS.Fs.Vfs

namespace NexusOS.Fs

variable {F : Type*} (fat : Fat F) (v : Vfs F)

/-- The path on the volume that a path-based call goes to. A path without a mount counts as one of
a mount, with whatever the buffer holds. -/
def fatRoute (path : Str) (junk : Stale) : Option Str :=
  let r := pathIsMount v junk.mountpoint path
  if r.1 ≠ 0 ∧ fat.isMounted v.fat then fatRelative path r.2 junk.behind else none

def slice (size : ℕ) (content : ℕ → UInt8) (capacity offset : ℕ) : List UInt8 :=
  (List.range (min capacity (size - offset))).map fun i ↦ content (offset + i)

/-- The bytes read; `buffer` says that there is one. -/
def vfsReadPath (path : Str) (buffer : Bool) (capacity offset : ℕ) (junk : Stale) :
    Option (List UInt8) × Vfs F :=
  if !buffer ∨ capacity = 0 then (none, v)
  else
    match normalizeAbsolute v path with
    | none => (none, v)
    | some abs =>
      match fatRoute fat v abs junk with
      | some rel =>
        let r := fat.readFile rel 65536 v.fat
        (r.1.map fun bytes ↦ slice bytes.length (fun i ↦ bytes.getD i 0) capacity offset,
          { v with fat := r.2 })
      | none =>
        match resolveRamPath v abs with
        | none => (none, v)
        | some i =>
          if (v.nodes i).type ≠ .file then (none, v)
          else (some (slice (v.nodes i).contentLen (v.nodes i).content capacity offset), v)

def vfsFileSizePath (path : Str) (junk : Stale) : Option ℕ × Vfs F :=
  match normalizeAbsolute v path with
  | none => (none, v)
  | some abs =>
    match fatRoute fat v abs junk with
    | some rel =>
      let r := fat.readFile rel 65536 v.fat
      (r.1.map List.length, { v with fat := r.2 })
    | none =>
      match resolveRamPath v abs with
      | none => (none, v)
      | some i => (if (v.nodes i).type ≠ .file then none else some (v.nodes i).contentLen, v)

def vfsIsDirPath (path : Str) (junk : Stale) : Bool × Vfs F :=
  match normalizeAbsolute v path with
  | none => (false, v)
  | some abs =>
    if abs = [slash] then (true, v)
    else
      match fatRoute fat v abs junk with
      | some rel =>
        let r := fat.isDirectory rel v.fat
        (r.1, { v with fat := r.2 })
      | none =>
        match resolveRamPath v abs with
        | none => (false, v)
        | some i => ((v.nodes i).type == .dir, v)

/-- The directory that a path names as the parent of its last component. -/
def resolveParentDir (parent : Str) : Option (Fin 48) :=
  (resolveRamPath v parent).filter fun p ↦ (v.nodes p).type = .dir

/-- A path of one component falls back on the current directory. -/
def vfsMkdirPath (path : Str) : Bool × Vfs F :=
  match normalizeAbsolute v path with
  | none => (false, v)
  | some abs =>
    if abs = [slash] then (false, v)
    else
      match splitLast abs with
      | none => vfsMkdir fat v abs.tail
      | some (parent, name) =>
        match resolveParentDir v parent with
        | none => (false, v)
        | some p =>
          if findChild v (some p) name ≠ none then (false, v)
          else
            match findFreeNode v with
            | none => (false, v)
            | some i => (true, v.setNode i (newNode (v.nodes i) .dir p name))

def vfsUnlinkPath (path : Str) : Bool × Vfs F :=
  match (normalizeAbsolute v path).bind (resolveRamPath v) with
  | none => (false, v)
  | some i =>
    if i ≤ 2 ∨ (v.nodes i).type = .free then (false, v)
    else if (v.nodes i).type = .dir ∧ hasChildren v i then (false, v)
    else (true, freeNode v i)

/-- The byte behind the content array is the lowest one of `content_len`. -/
def terminate (node : Node) : Node :=
  if node.contentLen < 200 then
    { node with content := Function.update node.content node.contentLen 0 }
  else { node with contentLen := node.contentLen / 256 * 256 }

def overwritten (node : Node) (bytes : List UInt8) (offset : ℕ) : Node :=
  terminate { node with
    content := fun i ↦ if offset ≤ i ∧ i < offset + bytes.length then bytes.getD (i - offset) 0
      else node.content i
    contentLen := max node.contentLen (offset + bytes.length) }

/-- The file that a path names, made if only its directory is there. -/
def fileAtPath (abs : Str) : Option (Fin 48 × Vfs F) :=
  match resolveRamPath v abs with
  | some i => some (i, v)
  | none =>
    match splitLast abs with
    | none => none
    | some (parent, name) =>
      match resolveParentDir v parent with
      | none => none
      | some p =>
        match findChild v (some p) name with
        | some i => some (i, v)
        | none => (findFreeNode v).map fun i ↦
            (i, v.setNode i (emptied (newNode (v.nodes i) .file p name)))

def writeRamPath (abs : Str) (bytes : List UInt8) (offset : ℕ) : Option ℕ × Vfs F :=
  match fileAtPath v abs with
  | none => (none, v)
  | some (i, v) =>
    if (v.nodes i).type ≠ .file ∨ 200 ≤ offset then (none, v)
    else
      let bytes := bytes.take (200 - offset)
      (some bytes.length, v.setNode i (overwritten (v.nodes i) bytes offset))

/-- The file is read into the static buffer, changed there and written back. -/
def writeFatPath (rel : Str) (bytes : List UInt8) (offset : ℕ) : Option ℕ × Vfs F :=
  let r := fat.readFile rel 65536 v.fat
  let old := r.1.getD []
  let temp := fun i ↦ if i < old.length then old.getD i 0 else v.temp i
  if 65536 < offset ∨ 65536 - offset < bytes.length then (none, { v with fat := r.2, temp := temp })
  else
    let temp := fun i ↦ if offset ≤ i ∧ i < offset + bytes.length then bytes.getD (i - offset) 0
      else temp i
    let w := fat.writeFile rel
      ((List.range (max old.length (offset + bytes.length))).map temp) r.2
    (if w.1 then some bytes.length else none, { v with fat := w.2, temp := temp })

/-- The number of bytes written; a null buffer is `none`. -/
def vfsWritePath (path : Str) (buffer : Option (List UInt8)) (offset : ℕ) (junk : Stale) :
    Option ℕ × Vfs F :=
  match buffer, normalizeAbsolute v path with
  | some bytes, some abs =>
    match fatRoute fat v abs junk with
    | some rel => writeFatPath fat v rel bytes offset
    | none => writeRamPath v abs bytes offset
  | _, _ => (none, v)

/-- The node that a rename moves, the directory it moves it to and its new name. -/
def renamePlan (src dst : Str) : Option (Fin 48 × Fin 48 × Str) := do
  let a ← normalizeAbsolute v src
  let b ← normalizeAbsolute v dst
  let i ← resolveRamPath v a
  let (parent, name) ← splitLast b
  let p ← resolveParentDir v parent
  if i ≤ 2 ∨ findChild v (some p) name ≠ none then none else some (i, p, name)

def vfsRenamePath (src dst : Str) : Bool × Vfs F :=
  match renamePlan v src dst with
  | none => (false, v)
  | some (i, p, name) =>
    (true, v.setNode i { v.nodes i with parent := some p, name := copyTruncate name 24 })

section Usage

/-- The walk of `is_under` from `cur` on, for at most `n` nodes. -/
def isUnderLoop (root : Option (Fin 48)) : ℕ → Option (Fin 48) → Option Bool
  | 0, _ => none
  | _ + 1, none => some false
  | n + 1, some c => if some c = root then some true else isUnderLoop root n (v.nodes c).parent

def isUnder (idx : Fin 48) (root : Option (Fin 48)) : Option Bool :=
  isUnderLoop v root 49 (v.nodes idx).parent

/-- The bytes and the number of files under the current directory. -/
def vfsDu : Option (ℕ × ℕ) :=
  (List.finRange 48).foldlM (fun acc i ↦
    if (v.nodes i).type = .file then
      (isUnder v i v.cwd).map fun under ↦
        if under then (acc.1 + (v.nodes i).contentLen, acc.2 + 1) else acc
    else some acc) (0, 0)

end Usage

end NexusOS.Fs
