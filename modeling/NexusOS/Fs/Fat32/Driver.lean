import NexusOS.Fs.Fat32.Disk

namespace NexusOS.Fs.Fat32

/-- The globals that `fat32_mount` sets. -/
structure Geometry where
  bytesPerSector : ℕ
  sectorsPerCluster : ℕ
  rootCluster : ℕ
  maxCluster : ℕ
  fatCount : ℕ
  fatSizeSectors : ℕ
  fatStartLba : ℕ
  clusterHeapStartLba : ℕ

/-- The driver: whether a volume is mounted, its geometry and the disk. -/
structure Volume where
  mounted : Bool
  geometry : Geometry
  disk : Disk

abbrev Dirent := Fin 32 → UInt8

abbrev Name := Fin 11 → UInt8

section Entries

def Dirent.name (e : Dirent) : Name := fun j ↦ e (j.castLE (by decide))

def Dirent.attr (e : Dirent) : UInt8 := e 11

def Dirent.isDirectory (e : Dirent) : Bool := e.attr &&& 0x10 != 0

def Dirent.fileSize (e : Dirent) : ℕ :=
  (e 28).toNat + 256 * (e 29).toNat + 65536 * (e 30).toNat + 16777216 * (e 31).toNat

def direntCluster (e : Dirent) : ℕ :=
  65536 * ((e 20).toNat + 256 * (e 21).toNat) + ((e 26).toNat + 256 * (e 27).toNat)

def setDirentCluster (e : Dirent) (cluster : ℕ) : Dirent := fun j ↦
  if j = 20 then UInt8.ofNat (cluster / 65536)
  else if j = 21 then UInt8.ofNat (cluster / 16777216)
  else if j = 26 then UInt8.ofNat cluster
  else if j = 27 then UInt8.ofNat (cluster / 256)
  else e j

def newDirent (name : Name) (attr : UInt8) (size : ℕ) : Dirent := fun j ↦
  if h : j.val < 11 then name ⟨j, h⟩
  else if j = 11 then attr
  else if 28 ≤ j.val then UInt8.ofNat (size / 256 ^ (j.val - 28))
  else 0

def entryAt (buf : Buf) (i : ℕ) : Dirent := fun j ↦ buf (32 * i + j)

def putEntry (buf : Buf) (i : ℕ) (e : Dirent) : Buf := fun k ↦
  if h : 32 * i ≤ k ∧ k < 32 * i + 32 then e ⟨k - 32 * i, by omega⟩ else buf k

/-- The entries that a search passes over: deleted ones, parts of long names, volume labels. -/
def skipped (e : Dirent) : Bool := e 0 == 0xE5 || e.attr == 0x0F || e.attr &&& 0x08 != 0

/-- The entries `.` and `..`. -/
def special (e : Dirent) : Bool := e 0 == 46 && (e 1 == 32 || (e 1 == 46 && e 2 == 32))

end Entries

section Names

def upper (c : UInt8) : UInt8 := if 97 ≤ c ∧ c ≤ 122 then c - 97 + 65 else c

def padded (base ext : Str) : Name := fun j ↦
  if j.val < 8 then (base[j.val]?.map upper).getD 32 else (ext[j.val - 8]?.map upper).getD 32

def toShortName (input : Str) : Name :=
  let base := input.takeWhile (· ≠ dot)
  padded (base.take 8) ((input.drop (base.length + 1)).take 3)

def makeComponentName (component : Str) : Option Name :=
  if component = [] ∨ component.head? = some dot ∨ component.head? = some 32 then none
  else if slash ∈ component ∨ 1 < component.count dot ∨ 12 < component.length then none
  else
    let base := component.takeWhile (· ≠ dot)
    let ext := component.drop (base.length + 1)
    if 8 < base.length ∨ 3 < ext.length then none else some (padded base ext)

/-- The first component of a path, cut to 12 characters, and what is left of the path. -/
def nextComponent (path : Str) : Str × Str :=
  let component := (path.takeWhile (· ≠ slash)).take 12
  (component, (path.drop component.length).dropWhile (· = slash))

def splitParent (path : Str) : Option (Str × Str) :=
  if path.head? ≠ some slash then none
  else
    let trimmed := (path.reverse.dropWhile (· = slash)).reverse
    let component := (trimmed.reverse.takeWhile (· ≠ slash)).reverse
    let n := trimmed.length - component.length - 1
    if trimmed = [] ∨ 256 ≤ n ∨ 13 ≤ component.length then none
    else some (if n = 0 then [slash] else trimmed.take n, component)

end Names

variable (g : Geometry)

section Clusters

def clusterToLba (cluster : ℕ) : ℕ := g.clusterHeapStartLba + (cluster - 2) * g.sectorsPerCluster

def clusterBytes : ℕ := g.sectorsPerCluster * g.bytesPerSector

def entriesPerCluster : ℕ := clusterBytes g / 32

def readCluster (d : Disk) (cluster : ℕ) : Option Buf :=
  ahciReadSectors d (clusterToLba g cluster) g.sectorsPerCluster

def writeCluster (d : Disk) (cluster : ℕ) (buf : Buf) : Bool × Disk :=
  ahciWriteSectors d (clusterToLba g cluster) g.sectorsPerCluster buf

def getNextCluster (d : Disk) (cluster : ℕ) : ℕ :=
  match ahciReadSectors d (g.fatStartLba + cluster * 4 / g.bytesPerSector) 1 with
  | none => 0x0FFFFFFF
  | some buf => get32 buf (cluster * 4 % g.bytesPerSector) % 2 ^ 28

def isEndOfChain (cluster : ℕ) : Bool := 0x0FFFFFF8 ≤ cluster

def fat32ReadEntry (d : Disk) (cluster : ℕ) : Option ℕ :=
  if cluster < 2 ∨ g.maxCluster < cluster then none
  else if 508 < cluster * 4 % g.bytesPerSector then none
  else
    match ahciReadSectors d (g.fatStartLba + cluster * 4 / g.bytesPerSector) 1 with
    | none => none
    | some buf => some (get32 buf (cluster * 4 % g.bytesPerSector) % 2 ^ 28)

def fat32WriteEntryOne (fatLba cluster value : ℕ) (d : Disk) : Bool × Disk :=
  let sector := fatLba + cluster * 4 / g.bytesPerSector
  let off := cluster * 4 % g.bytesPerSector
  if 508 < off then (false, d)
  else
    match ahciReadSectors d sector 1 with
    | none => (false, d)
    | some buf =>
      let merged := get32 buf off / 2 ^ 28 * 2 ^ 28 + value % 2 ^ 28
      ahciWriteSectors d sector 1 (put32 buf off merged)

def writeEntries (cluster value : ℕ) : List ℕ → Disk → Bool × Disk
  | [], d => (true, d)
  | lba :: lbas, d =>
    let r := fat32WriteEntryOne g lba cluster value d
    if r.1 then writeEntries cluster value lbas r.2 else (false, r.2)

/-- The copies of the FAT, of which the first is always written. -/
def fatLbas : List ℕ :=
  g.fatStartLba :: (List.range' 1 (g.fatCount - 1)).map fun i ↦ g.fatStartLba + i * g.fatSizeSectors

def fat32SetEntry (cluster value : ℕ) (d : Disk) : Bool × Disk :=
  writeEntries g cluster value (fatLbas g) d

def fat32ZeroCluster (cluster : ℕ) (d : Disk) : Bool × Disk := writeCluster g d cluster fun _ ↦ 0

def takeCluster (cluster : ℕ) (d : Disk) : Option ℕ × Disk :=
  let r := fat32SetEntry g cluster 0x0FFFFFFF d
  if r.1 then
    let z := fat32ZeroCluster g cluster r.2
    if z.1 then (some cluster, z.2) else (none, (fat32SetEntry g cluster 0 z.2).2)
  else (none, r.2)

def allocFrom : List ℕ → Disk → Option ℕ × Disk
  | [], d => (none, d)
  | c :: cs, d =>
    match fat32ReadEntry g d c with
    | none => (none, d)
    | some value => if value = 0 then takeCluster g c d else allocFrom cs d

def fat32AllocCluster (d : Disk) : Option ℕ × Disk :=
  allocFrom g (List.range' 2 (g.maxCluster - 1)) d

/-- At most `n` rounds of `fat32_free_chain`. -/
def freeChainLoop : ℕ → ℕ → Disk → Bool × Disk
  | 0, _, d => (false, d)
  | n + 1, cluster, d =>
    if cluster < 2 ∨ g.maxCluster < cluster then (false, d)
    else
      match fat32ReadEntry g d cluster with
      | none => (false, d)
      | some next =>
        let r := fat32SetEntry g cluster 0 d
        if !r.1 then (false, r.2)
        else if isEndOfChain next ∨ next < 2 then (true, r.2)
        else freeChainLoop n next r.2

def fat32FreeChain (cluster : ℕ) (d : Disk) : Bool × Disk :=
  freeChainLoop g (g.maxCluster + 1) cluster d

end Clusters

section Directories

/-- The search through one cluster: a hit, an end of the directory, or `none` to go on. -/
def searchEntries (name : Name) (buf : Buf) : List ℕ → Option (Option ℕ)
  | [] => none
  | i :: is =>
    let e := entryAt buf i
    if e 0 = 0 then some none
    else if skipped e then searchEntries name buf is
    else if e.name = name then some (some i)
    else searchEntries name buf is

/-- The search along the clusters of a directory, up to cluster `limit`. A search of `n` clusters
that has not ended is `none`. -/
def searchChain (d : Disk) (name : Name) (limit : ℕ) : ℕ → ℕ → Option (Option (ℕ × ℕ × Dirent))
  | 0, _ => none
  | n + 1, cluster =>
    if isEndOfChain cluster ∨ cluster < 2 ∨ limit < cluster then some none
    else
      match readCluster g d cluster with
      | none => some none
      | some buf =>
        match searchEntries name buf (List.range (entriesPerCluster g)) with
        | some none => some none
        | some (some i) => some (some (cluster, i, entryAt buf i))
        | none => searchChain d name limit n (getNextCluster g d cluster)

section Rounds

variable {g} {d : Disk} {name : Name} {limit n cluster : ℕ} {buf : Buf}

theorem searchChain_stop (h : ¬(isEndOfChain cluster ∨ cluster < 2 ∨ limit < cluster))
    (hread : readCluster g d cluster = some buf)
    (hstop : searchEntries name buf (List.range (entriesPerCluster g)) = some none) :
    searchChain g d name limit (n + 1) cluster = some none := by
  rw [searchChain, if_neg h, hread]
  simp only [hstop]

theorem searchChain_next (h : ¬(isEndOfChain cluster ∨ cluster < 2 ∨ limit < cluster))
    (hread : readCluster g d cluster = some buf)
    (hmiss : searchEntries name buf (List.range (entriesPerCluster g)) = none) :
    searchChain g d name limit (n + 1) cluster =
      searchChain g d name limit n (getNextCluster g d cluster) := by
  rw [searchChain, if_neg h, hread]
  simp only [hmiss]

end Rounds

/-- There are fewer than `2 ^ 28` cluster numbers, so a longer search goes round for ever. -/
def findEntry (d : Disk) (dirCluster : ℕ) (name : Name) : Option (Option Dirent) :=
  (searchChain g d name 0x0FFFFFFF (2 ^ 28) dirCluster).map (·.map (·.2.2))

def findEntryLocation (d : Disk) (dirCluster : ℕ) (name : Name) :
    Option (Option (ℕ × ℕ × Dirent)) :=
  searchChain g d name g.maxCluster (2 ^ 28) dirCluster

def rootEntry : Dirent := setDirentCluster (newDirent (fun _ ↦ 0) 0x10 0) g.rootCluster

def resolveLoop (d : Disk) : ℕ → Str → ℕ → Option (Option Dirent)
  | 0, _, _ => none
  | n + 1, path, current =>
    let (component, rest) := nextComponent path
    match findEntry g d current (toShortName component) with
    | none => none
    | some none => some none
    | some (some entry) =>
      if rest = [] then some (some entry)
      else if !entry.isDirectory then some none
      else resolveLoop d n rest (direntCluster entry)

def resolvePath (d : Disk) (path : Str) : Option (Option Dirent) :=
  if path = [] ∨ path = [slash] then some (some (rootEntry g))
  else
    let rest := if path.head? = some slash then path.tail else path
    resolveLoop g d rest.length rest g.rootCluster

def resolveParent (d : Disk) (path : Str) : Option (Option (ℕ × Name)) :=
  match splitParent path with
  | none => some none
  | some (parent, component) =>
    match resolvePath g d parent with
    | none => none
    | some none => some none
    | some (some dir) =>
      if !dir.isDirectory then some none
      else
        let cluster := if direntCluster dir = 0 then g.rootCluster else direntCluster dir
        some ((makeComponentName component).map fun name ↦ (cluster, name))

def writeDirent (d : Disk) (cluster index : ℕ) (e : Dirent) : Bool × Disk :=
  match readCluster g d cluster with
  | none => (false, d)
  | some buf =>
    if entriesPerCluster g ≤ index then (false, d)
    else writeCluster g d cluster (putEntry buf index e)

def deleteDirent (d : Disk) (cluster index : ℕ) : Bool × Disk :=
  match readCluster g d cluster with
  | none => (false, d)
  | some buf => writeCluster g d cluster (Function.update buf (32 * index) 0xE5)

def growDirectory (last : ℕ) (d : Disk) : Option (ℕ × ℕ) × Disk :=
  match fat32AllocCluster g d with
  | (none, d) => (none, d)
  | (some fresh, d) =>
    let r := fat32SetEntry g last fresh d
    if r.1 then (some (fresh, 0), r.2) else (none, (fat32FreeChain g fresh r.2).2)

def freeSlotLoop : ℕ → ℕ → Disk → Option (ℕ × ℕ) × Disk
  | 0, _, d => (none, d)
  | n + 1, cluster, d =>
    if cluster < 2 ∨ g.maxCluster < cluster then (none, d)
    else
      match readCluster g d cluster with
      | none => (none, d)
      | some buf =>
        match (List.range (entriesPerCluster g)).find? fun i ↦
            entryAt buf i 0 == 0 || entryAt buf i 0 == 0xE5 with
        | some i => (some (cluster, i), d)
        | none =>
          match fat32ReadEntry g d cluster with
          | none => (none, d)
          | some next => if isEndOfChain next then growDirectory g cluster d else freeSlotLoop n next d

def findFreeDirSlot (start : ℕ) (d : Disk) : Option (ℕ × ℕ) × Disk :=
  freeSlotLoop g (g.maxCluster + 1) start d

end Directories

end NexusOS.Fs.Fat32
