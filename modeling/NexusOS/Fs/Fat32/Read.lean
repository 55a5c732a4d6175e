import NexusOS.Fs.Fat32.Driver

namespace NexusOS.Fs.Fat32

section Steps

variable (g : Geometry)

def listedName (e : Dirent) : Str :=
  let bytes := List.ofFn e
  (bytes.take 8).takeWhile (· ≠ 32) ++
    if e 8 = 32 then [] else dot :: ((bytes.drop 8).take 3).takeWhile (· ≠ 32)

/-- The entries of one cluster that are listed, and whether the directory ends there. -/
def listCluster (buf : Buf) : List ℕ → List Dirent × Bool
  | [] => ([], false)
  | i :: is =>
    let e := entryAt buf i
    if e 0 = 0 then ([], true)
    else if skipped e then listCluster buf is
    else (e :: (listCluster buf is).1, (listCluster buf is).2)

def listLoop (d : Disk) : ℕ → ℕ → Option (List Dirent)
  | 0, _ => none
  | n + 1, cluster =>
    if isEndOfChain cluster ∨ cluster < 2 then some []
    else
      match readCluster g d cluster with
      | none => some []
      | some buf =>
        let r := listCluster buf (List.range (entriesPerCluster g))
        if r.2 then some r.1
        else (listLoop d n (getNextCluster g d cluster)).map (r.1 ++ ·)

/-- At most `n` rounds of the loop of `fat32_list_entries` with room for `room` entries. -/
def listEntriesLoop (d : Disk) : ℕ → ℕ → ℕ → Option (List Dirent)
  | 0, _, _ => none
  | n + 1, cluster, room =>
    if isEndOfChain cluster ∨ cluster < 2 ∨ room = 0 then some []
    else
      match readCluster g d cluster with
      | none => some []
      | some buf =>
        let r := listCluster buf (List.range (entriesPerCluster g))
        if room ≤ r.1.length then some (r.1.take room)
        else if r.2 then some r.1
        else
          (listEntriesLoop d n (getNextCluster g d cluster) (room - r.1.length)).map (r.1 ++ ·)

def readLoop (d : Disk) : ℕ → ℕ → ℕ → ℕ → Option (List UInt8)
  | 0, _, _, _ => none
  | n + 1, cluster, remaining, room =>
    if isEndOfChain cluster ∨ cluster < 2 ∨ remaining = 0 ∨ room = 0 then some []
    else
      match readCluster g d cluster with
      | none => some []
      | some buf =>
        let chunk := min (min (clusterBytes g) remaining) room
        (readLoop d n (getNextCluster g d cluster) (remaining - chunk) (room - chunk)).map
          ((List.range chunk).map buf ++ ·)

/-- Where a directory begins; some file systems write 0 for the root. -/
def directoryCluster (e : Dirent) : ℕ :=
  if direntCluster e = 0 then g.rootCluster else direntCluster e

end Steps

/-- A call that does not return is `none`. -/
def fat32IsDirectory (s : Volume) (path : Str) : Option Bool :=
  if !s.mounted then some false
  else (resolvePath s.geometry s.disk path).map (·.any Dirent.isDirectory)

inductive Listing
  | notMounted
  | notFound
  | notDirectory
  | entries (es : List Dirent)

def fat32List (s : Volume) (path : Str) : Option (Bool × Listing) :=
  if !s.mounted then some (false, .notMounted)
  else
    match resolvePath s.geometry s.disk path with
    | none => none
    | some none => some (false, .notFound)
    | some (some e) =>
      if !e.isDirectory then some (false, .notDirectory)
      else
        (listLoop s.geometry s.disk (2 ^ 28) (directoryCluster s.geometry e)).map
          fun es ↦ (true, .entries es)

/-- The names and kinds that `fat32_list_entries` stores; an answer of -1 is `none` inside. -/
def fat32ListEntries (s : Volume) (path : Str) (maxEntries : ℤ) :
    Option (Option (List (Str × Bool))) :=
  if !s.mounted ∨ maxEntries ≤ 0 then some none
  else
    match resolvePath s.geometry s.disk path with
    | none => none
    | some none => some none
    | some (some e) =>
      if !e.isDirectory then some none
      else
        (listEntriesLoop s.geometry s.disk (2 ^ 28) (directoryCluster s.geometry e)
          maxEntries.toNat).map fun es ↦ some (es.map fun e ↦ (listedName e, e.isDirectory))

/-- The bytes that `fat32_read_file` stores in a buffer of `bufSize` bytes. -/
def fat32ReadFile (s : Volume) (path : Str) (bufSize : ℕ) : Option (Option (List UInt8)) :=
  if !s.mounted then some none
  else
    match resolvePath s.geometry s.disk path with
    | none => none
    | some none => some none
    | some (some e) =>
      if e.isDirectory then some none
      else
        (readLoop s.geometry s.disk (e.fileSize + 1) (direntCluster e) e.fileSize bufSize).map some

end NexusOS.Fs.Fat32
