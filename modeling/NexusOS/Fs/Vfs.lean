import NexusOS.Fs.Mount

namespace NexusOS.Fs

instance neZeroNodes : NeZero 48 := ⟨by decide⟩

inductive NodeType
  | free
  | file
  | dir
  deriving DecidableEq

/-- A node; the parent -1 of the root is `none`. -/
structure Node where
  type : NodeType
  name : Str
  parent : Option (Fin 48)
  content : ℕ → UInt8
  contentLen : ℕ

/-- The globals of the VFS over a FAT32 driver with state `F`. The current directory -1 is `none`;
`temp` is the static buffer of `vfs_write_path`. -/
structure Vfs (F : Type*) where
  nodes : Fin 48 → Node
  cwd : Option (Fin 48)
  cwdPath : Str
  mounts : Mounts
  temp : ℕ → UInt8
  fat : F

structure Fat (F : Type*) where
  isMounted : F → Bool
  isDirectory : Str → F → Bool × F
  mkdir : Str → F → Bool × F
  writeFile : Str → List UInt8 → F → Bool × F
  readFile : Str → ℕ → F → Option (List UInt8) × F

variable {F : Type*}

def Vfs.setNode (v : Vfs F) (i : Fin 48) (node : Node) : Vfs F :=
  { v with nodes := Function.update v.nodes i node }

@[simp]
theorem setNode_nodes (v : Vfs F) (i j : Fin 48) (node : Node) :
    (v.setNode i node).nodes j = if j = i then node else v.nodes j := by
  simp [Vfs.setNode, Function.update_apply]

section Paths

def pathCopy (src : Str) : Str := src.take 255

/-- The result may take one character more than the 255 that the loops stop at. -/
def pathJoin (base name : Str) : Str :=
  if name.head? = some slash then pathCopy name
  else
    let out := base.take 255
    let out := if out = [] then [slash] else out
    let out := if 1 < out.length ∧ out.getLast? ≠ some slash then out ++ [slash] else out
    out ++ name.take (255 - out.length)

/-- What is left on the stack: in the mountpoint buffer before it is written, and in the path buffer
behind the path. -/
structure Stale where
  mountpoint : Str
  behind : ℕ → UInt8

def Stale.clean : Stale := ⟨[], fun _ ↦ 0⟩

/-- The answer and the mountpoint buffer, which holds `junk` before. -/
def pathIsMount (v : Vfs F) (junk path : Str) : ℤ × Str :=
  if vfsMountCount v.mounts = 0 then (0, junk)
  else
    match vfsMountResolve v.mounts path with
    | none => (-1, junk)
    | some i => (i, (v.mounts i).target)

def readString (content : ℕ → UInt8) (limit : ℕ) : Str :=
  ((List.range limit).map content).takeWhile (· ≠ 0)

/-- The string at an index of a path buffer, which may lie behind the end of the path. -/
def stringAt (full : Str) (behind : ℕ → UInt8) (n : ℕ) : Str :=
  if n ≤ full.length then full.drop n else readString (fun i ↦ behind (n + i)) 255

def fatRelative (full mountpoint : Str) (behind : ℕ → UInt8) : Option Str :=
  let rest := stringAt full behind mountpoint.length
  if full = mountpoint then some [slash]
  else if 1 < mountpoint.length ∧ rest.head? = some slash then some (pathCopy rest)
  else none

def copyTruncate (src : Str) (maxLen : ℕ) : Str := src.take (maxLen - 1)

def pushComponent (stack : List Str) (comp : Str) : Option (List Str) :=
  if comp = [] ∨ comp = [dot] then some stack
  else if comp = [dot, dot] then some stack.dropLast
  else if 32 ≤ stack.length then none
  else some (stack ++ [comp])

def writeComponent (out comp : Str) : Str :=
  let out := if 1 < out.length ∧ out.length < 255 then out ++ [slash] else out
  out ++ comp.take (255 - out.length)

def normalizeAbsolute (v : Vfs F) (path : Str) : Option Str :=
  let combined := if path.head? = some slash then copyTruncate path 256
    else pathJoin v.cwdPath path
  let comps := (combined.splitOn slash).map (copyTruncate · 24)
  match comps.foldlM pushComponent [] with
  | none => none
  | some stack => some (stack.foldl writeComponent [slash])

/-- The path before its last slash and the name behind it, unless that slash is the first
character. -/
def splitLast (path : Str) : Option (Str × Str) :=
  let name := (path.reverse.takeWhile (· ≠ slash)).reverse
  let parent := path.take (path.length - name.length - 1)
  if parent = [] then none else some (parent, name)

end Paths

section Nodes

variable (v : Vfs F)

def findChild (parent : Option (Fin 48)) (name : Str) : Option (Fin 48) :=
  (List.finRange 48).find? fun i ↦ (v.nodes i).type != .free && (v.nodes i).parent == parent &&
    (v.nodes i).name == name

def findFreeNode : Option (Fin 48) :=
  (List.finRange 48).find? fun i ↦ i != 0 && (v.nodes i).type == .free

def hasChildren (parent : Fin 48) : Bool :=
  (List.finRange 48).any fun i ↦ (v.nodes i).type != .free && (v.nodes i).parent == some parent

/-- The components that `resolve_ram_path` reads: the first may be empty, later empty ones are
skipped. -/
def ramComponents (path : Str) : List Str :=
  match path.splitOn slash with
  | [] => []
  | first :: rest =>
    if path = [] then []
    else (first :: rest.filter (· ≠ [])).map (copyTruncate · 24)

def walk (start : Fin 48) (comps : List Str) : Option (Fin 48) :=
  comps.foldlM (fun parent comp ↦ findChild v (some parent) comp) start

def resolveRamPath (path : Str) : Option (Fin 48) :=
  if path.head? ≠ some slash then none else walk v 0 (ramComponents path.tail)

def writeString (old : ℕ → UInt8) (s : List UInt8) : ℕ → UInt8 := fun i ↦
  if i < s.length then s.getD i 0 else if i = s.length then 0 else old i

end Nodes

def vfsInit (v : Vfs F) : Vfs F :=
  let v := { v with
    nodes := fun i ↦ { v.nodes i with type := .free }
    cwd := some 0
    cwdPath := [slash] }
  let v := v.setNode 0 { v.nodes 0 with type := .dir, parent := none, name := [slash] }
  let v := v.setNode 1 { v.nodes 1 with type := .dir, parent := some 0, name := [109, 110, 116] }
  v.setNode 2 { v.nodes 2 with type := .dir, parent := some 1, name := [100, 105, 115, 107, 48] }

section Shell

variable (fat : Fat F) (v : Vfs F)

/-- The path on the volume, when the one given leads to a writable FAT32 mount. -/
def fatTarget (name : Str) : Option Str :=
  let candidate := pathJoin v.cwdPath name
  let r := pathIsMount v [] candidate
  match vfsMountGet v.mounts r.1 with
  | none => none
  | some m =>
    if m.fstype = [102, 97, 116, 51, 50] ∧ fat.isMounted v.fat ∧ m.flags % 2 = 0 then
      -- the target is a beginning of the path
      fatRelative candidate r.2 fun _ ↦ 0
    else none

def newNode (old : Node) (type : NodeType) (parent : Fin 48) (name : Str) : Node :=
  { old with type := type, parent := some parent, name := copyTruncate name 24 }

def emptied (node : Node) : Node :=
  { node with content := writeString node.content [], contentLen := 0 }

/-- The two functions that create a node in the current directory differ in the node. -/
def createNode (name : Str) (make : Node → Fin 48 → Node) : Bool × Vfs F :=
  match v.cwd with
  | none => (false, v)
  | some c =>
    if name = [] ∨ findChild v (some c) name ≠ none then (false, v)
    else
      match findFreeNode v with
      | none => (false, v)
      | some i => (true, v.setNode i (make (v.nodes i) c))

def vfsMkdir (name : Str) : Bool × Vfs F :=
  match fatTarget fat v name with
  | some rel =>
    let r := fat.mkdir rel v.fat
    (r.1, { v with fat := r.2 })
  | none => createNode v name fun node c ↦ newNode node .dir c name

def vfsTouch (name : Str) : Bool × Vfs F :=
  match fatTarget fat v name with
  | some rel =>
    let r := fat.writeFile rel [] v.fat
    (r.1, { v with fat := r.2 })
  | none => createNode v name fun node c ↦ emptied (newNode node .file c name)

/-- The names that may not be removed from the root and from `/mnt`. -/
def protectedName (c : Fin 48) (name : Str) : Bool :=
  (c == 0 && name == [109, 110, 116]) || (c == 1 && name == [100, 105, 115, 107, 48])

def freeNode (i : Fin 48) : Vfs F := v.setNode i { v.nodes i with type := .free }

def vfsRm (name : Str) : Bool × Vfs F :=
  match v.cwd with
  | none => (false, v)
  | some c =>
    if protectedName c name then (false, v)
    else
      match findChild v (some c) name with
      | none => (false, v)
      | some i =>
        if (v.nodes i).type = .dir ∧ hasChildren v i then (false, v) else (true, freeNode v i)

def vfsRmdir (name : Str) : Bool × Vfs F :=
  match v.cwd with
  | none => (false, v)
  | some c =>
    if protectedName c name then (false, v)
    else
      match findChild v (some c) name with
      | none => (false, v)
      | some i =>
        if (v.nodes i).type ≠ .dir ∨ hasChildren v i then (false, v) else (true, freeNode v i)

/-- The components that `vfs_cd` reads: all but an empty last one, and uncut. -/
def cdComponents (path : Str) : List Str :=
  let comps := path.splitOn slash
  if comps.getLast? = some [] then comps.dropLast else comps

def parentPath (path : Str) : Str :=
  let upToSlash := (path.reverse.dropWhile (· ≠ slash)).reverse
  if 1 < upToSlash.length then upToSlash.dropLast else upToSlash

def vfsCdUp : Bool × Vfs F :=
  if v.cwd = some 0 then (true, v)
  else if v.cwdPath.head? ≠ some slash then (false, v)
  else
    let path := parentPath v.cwdPath
    let idx := walk v 0 (cdComponents path.tail)
    (true, { v with cwdPath := path, cwd := if idx = none then v.cwd else idx })

/-- The walk of `vfs_cd`, which goes through directories only. -/
def walkDirs (start : Fin 48) (comps : List Str) : Option (Fin 48) :=
  comps.foldlM (fun parent comp ↦ (findChild v (some parent) comp).filter fun i ↦
    (v.nodes i).type = .dir) start

def vfsCd (name : Str) (junk : Stale) : Bool × Vfs F :=
  if name = [dot] then (true, v)
  else if name = [dot, dot] then vfsCdUp v
  else
    let candidate := pathJoin v.cwdPath name
    let r := pathIsMount v junk.mountpoint candidate
    if r.1 ≠ 0 ∧ fat.isMounted v.fat then
      match fatRelative candidate r.2 junk.behind with
      | none => (false, v)
      | some rel =>
        let d := fat.isDirectory rel v.fat
        if d.1 then (true, { v with cwdPath := pathCopy candidate, cwd := none, fat := d.2 })
        else (false, { v with fat := d.2 })
    else
      let idx := if name.head? = some slash then walkDirs v 0 (cdComponents candidate.tail)
        else walkDirs v (v.cwd.getD 0) [name]
      match idx with
      | none => (false, v)
      | some i => (true, { v with cwd := some i, cwdPath := pathCopy candidate })

def catNode (name : Str) : Str :=
  match findChild v v.cwd name with
  | none => [99, 97, 116, 58, 32, 110, 111, 32, 115, 117, 99, 104, 32, 102, 105, 108, 101, 58, 32] ++
      name ++ [10]
  | some i =>
    if (v.nodes i).type = .file then readString (v.nodes i).content 200 ++ [10]
    else [99, 97, 116, 58, 32, 110, 111, 32, 115, 117, 99, 104, 32, 102, 105, 108, 101, 58, 32] ++
      name ++ [10]

/-- The path on the volume that `vfs_cat` looks at first. -/
def catTarget (name : Str) (junk : Stale) : Option Str :=
  let candidate := pathJoin v.cwdPath name
  let r := pathIsMount v junk.mountpoint candidate
  if (v.cwd = none ∨ name.head? = some slash) ∧ r.1 ≠ 0 ∧ fat.isMounted v.fat then
    fatRelative candidate r.2 junk.behind
  else none

def vfsCat (name : Str) (junk : Stale) : Str × Vfs F :=
  match catTarget fat v name junk with
  | none => (catNode v name, v)
  | some rel =>
    match fat.readFile rel 65535 v.fat with
    | (none, f) => (catNode v name, { v with fat := f })
    | (some bytes, f) => (bytes.takeWhile (· ≠ 0) ++ [10], { v with fat := f })

/-- The file of that name in directory `c`, made if it is not there. -/
def fileNode (c : Fin 48) (name : Str) (make : Node → Node) : Option (Fin 48 × Node) :=
  match findChild v (some c) name with
  | some i => if (v.nodes i).type = .file then some (i, v.nodes i) else none
  | none => (findFreeNode v).map fun i ↦ (i, make (newNode (v.nodes i) .file c name))

def vfsWrite (name content : Str) : Bool × Vfs F :=
  match fatTarget fat v name with
  | some rel =>
    let r := fat.writeFile rel content v.fat
    (r.1, { v with fat := r.2 })
  | none =>
    match v.cwd with
    | none => (false, v)
    | some c =>
      match fileNode v c name id with
      | none => (false, v)
      | some (i, node) =>
        let s := copyTruncate content 200
        (true, v.setNode i { node with
          content := writeString node.content s
          contentLen := s.length })

def appended (node : Node) (content : Str) : Node :=
  let s := content.take (199 - node.contentLen)
  { node with
    content := fun i ↦ if i < node.contentLen then node.content i
      else writeString (fun j ↦ node.content (node.contentLen + j)) s (i - node.contentLen)
    contentLen := node.contentLen + s.length }

def vfsAppend (name content : Str) : Bool × Vfs F :=
  match v.cwd with
  | none => (false, v)
  | some c =>
    match fileNode v c name emptied with
    | none => (false, v)
    | some (i, node) => (true, v.setNode i (appended node content))

def vfsCp (src dst : Str) : Bool × Vfs F :=
  match v.cwd with
  | none => (false, v)
  | some c =>
    match findChild v (some c) src with
    | none => (false, v)
    | some s =>
      if (v.nodes s).type ≠ .file ∨ findChild v (some c) dst ≠ none then (false, v)
      else
        match findFreeNode v with
        | none => (false, v)
        | some d =>
          let node := newNode (v.nodes d) .file c dst
          (true, v.setNode d { node with
            content := writeString node.content (readString (v.nodes s).content 199)
            contentLen := (v.nodes s).contentLen })

def vfsMv (src dst : Str) : Bool × Vfs F :=
  match v.cwd with
  | none => (false, v)
  | some c =>
    match findChild v (some c) src with
    | none => (false, v)
    | some i =>
      if findChild v (some c) dst ≠ none then (false, v)
      else (true, v.setNode i { v.nodes i with name := copyTruncate dst 24 })

end Shell

end NexusOS.Fs
