import NexusOS.Core.UserAccess
import NexusOS.Fs.VfsPath

namespace NexusOS.Core

open Fs

variable {V F : Type*}

/-- A string cut to an array of `cap` characters with its terminator. -/
def localCopy (src : Str) (cap : ℕ) : Str := src.take (cap - 1)

section Capabilities

def capRuntime : ℕ := 0x1

def capIpc : ℕ := 0x2

def capFilesystemRead : ℕ := 0x4

def capFilesystemWrite : ℕ := 0x8

def capProcessSpawn : ℕ := 0x10

def capProcessControl : ℕ := 0x20

def capMemory : ℕ := 0x40

def capabilityValid (capability : ℕ) : Bool :=
  capability ≠ 0 ∧ capability &&& (capability - 1) = 0 ∧ capability &&& capAll ≠ 0

def processHasCapability (k : Kernel V) (pid capability : ℕ) : Bool :=
  match processGet k pid with
  | none => false
  | some i => capabilityValid capability && ((k.processes i).capabilities &&& capability == capability)

def processGetCapabilities (k : Kernel V) (pid : ℕ) : ℕ :=
  match processGet k pid with
  | none => 0
  | some i => (k.processes i).capabilities

def processDropCapability (k : Kernel V) (pid capability : ℕ) : Bool × Kernel V :=
  match processGet k pid with
  | none => (false, k)
  | some i =>
    if !capabilityValid capability then (false, k)
    else (true, k.setProcess i { k.processes i with
      capabilities := (k.processes i).capabilities &&& (2 ^ 64 - 1 - capability) })

end Capabilities

section Metadata

variable (k : Kernel V) (pid : ℕ)

/-- The functions that write a field of a process which is not a zombie. -/
def updateProcess (ok : Bool) (f : Process → Process) : Bool × Kernel V :=
  match processGet k pid with
  | none => (false, k)
  | some i =>
    if (k.processes i).state = .zombie ∨ !ok then (false, k)
    else (true, k.setProcess i (f (k.processes i)))

def processSetName (name : Str) : Bool × Kernel V :=
  updateProcess k pid (name ≠ []) fun p ↦ { p with name := localCopy name 32 }

def processSetPriority (priority : ℕ) : Bool × Kernel V :=
  updateProcess k pid (priority ≤ 31) fun p ↦ { p with priority := priority }

def processSetCwd (cwd : Str) : Bool × Kernel V :=
  updateProcess k pid (cwd.head? = some slash) fun p ↦ { p with cwd := localCopy cwd 128 }

def processGetName (size : ℕ) : Option Str :=
  (processGet k pid).map fun i ↦ localCopy (k.processes i).name size

def processGetCwd (size : ℕ) : Option Str :=
  (processGet k pid).map fun i ↦ localCopy (k.processes i).cwd size

/-- The table after `process_set_env`, if there is room. -/
def setEnv (env : List (Str × Str)) (name value : Str) : Option (List (Str × Str)) :=
  match env.findIdx? (·.1 == name) with
  | some n => some (env.modify n fun e ↦ (e.1, localCopy value 64))
  | none => if 8 ≤ env.length then none else some (env ++ [(localCopy name 24, localCopy value 64)])

def processSetEnv (name value : Str) : Bool × Kernel V :=
  match processGet k pid with
  | none => (false, k)
  | some i =>
    if (k.processes i).state = .zombie ∨ name = [] then (false, k)
    else
      match setEnv (k.processes i).env name value with
      | none => (false, k)
      | some env => (true, k.setProcess i { k.processes i with env := env })

def processUnsetEnv (name : Str) : Bool × Kernel V :=
  match processGet k pid with
  | none => (false, k)
  | some i =>
    match (k.processes i).env.findIdx? (·.1 == name) with
    | none => (false, k)
    | some n => (true, k.setProcess i { k.processes i with env := (k.processes i).env.eraseIdx n })

def processGetEnv (name : Str) (size : ℕ) : Option Str := do
  let i ← processGet k pid
  let e ← (k.processes i).env.find? (·.1 == name)
  some (localCopy e.2 size)

end Metadata

section Fds

def fdOf (p : Process) (fd : ℕ) : Option (Fin 16) :=
  if h : fd < 16 then
    let j : Fin 16 := ⟨fd, h⟩
    if (p.fds j).type = .unused then none else some j
  else none

def fileOf (p : Process) (fd : ℕ) : Option (Fin 16) :=
  (fdOf p fd).filter fun j ↦ (p.fds j).type = .vfsFile

def processFdIsValid (k : Kernel V) (pid fd : ℕ) : Bool :=
  match processGet k pid with
  | none => false
  | some i => (k.processes i).state ≠ .zombie ∧ fdOf (k.processes i) fd ≠ none

def processFdIsWritable (k : Kernel V) (pid fd : ℕ) : Bool :=
  match processGet k pid with
  | none => false
  | some i =>
    match fdOf (k.processes i) fd with
    | none => false
    | some j => (k.processes i).state ≠ .zombie ∧ (((k.processes i).fds j).type = .stdoutConsole ∨
        ((k.processes i).fds j).type = .stderrConsole)

def setFd (k : Kernel V) (i : Fin 8) (j : Fin 16) (fd : Fd) : Kernel V :=
  k.setProcess i { k.processes i with fds := Function.update (k.processes i).fds j fd }

def processFdClose (k : Kernel V) (pid fd : ℕ) : Bool × Kernel V :=
  match processGet k pid with
  | none => (false, k)
  | some i =>
    match fdOf (k.processes i) fd with
    | none => (false, k)
    | some j => if (k.processes i).state = .zombie then (false, k) else (true, setFd k i j unusedFd)

variable (fat : Fat F) (k : Kernel V) (v : Vfs F) (pid : ℕ)

/-- The file behind a path, made or emptied as the flags 4 and 8 say, with its size for flag 16.
`junk` is what the path buffers of the calls below hold. -/
def openFile (path : Str) (flags : ℕ) (junk : ℕ → Stale) : Option ℕ × Vfs F :=
  let size := vfsFileSizePath fat v path (junk 0)
  if size.1 = none ∧ !flags.testBit 2 then (none, size.2)
  else
    let made := if size.1 = none then vfsWritePath fat size.2 path (some []) 0 (junk 1)
      else (some 0, size.2)
    if made.1 = none then (none, made.2)
    else if flags.testBit 3 then
      let cut := vfsWritePath fat made.2 path (some []) 0 (junk 2)
      (if cut.1 = none then none else some 0, cut.2)
    else (some (size.1.getD 0), made.2)

def processFdOpen (path : Str) (flags : ℕ) (junk : ℕ → Stale) :
    Option (Fin 16) × Kernel V × Vfs F :=
  match processGet k pid with
  | none => (none, k, v)
  | some i =>
    if (k.processes i).state = .zombie ∨ path = [] then (none, k, v)
    else
      match (List.finRange 16).find? fun j ↦ ((k.processes i).fds j).type == .unused with
      | none => (none, k, v)
      | some j =>
        let r := openFile fat v path flags junk
        match r.1 with
        | none => (none, k, r.2)
        | some size =>
          (some j, setFd k i j ⟨.vfsFile, flags, 0, if flags.testBit 4 then size else 0,
            localCopy path 128⟩, r.2)

def advanceFd (k : Kernel V) (i : Fin 8) (j : Fin 16) (n : ℕ) : Kernel V :=
  let fd := (k.processes i).fds j
  setFd k i j { fd with offset := (fd.offset + n) % 2 ^ 64 }

def processFdRead (fd size : ℕ) (junk : Stale) : Option (List UInt8) × Kernel V × Vfs F :=
  match processGet k pid with
  | none => (none, k, v)
  | some i =>
    match fileOf (k.processes i) fd with
    | none => (none, k, v)
    | some j =>
      let file := (k.processes i).fds j
      let r := vfsReadPath fat v file.path true size file.offset junk
      match r.1 with
      | none => (none, k, r.2)
      | some bytes => (some bytes, advanceFd k i j bytes.length, r.2)

def processFdWrite (fd : ℕ) (bytes : List UInt8) (junk : Stale) : Option ℕ × Kernel V × Vfs F :=
  match processGet k pid with
  | none => (none, k, v)
  | some i =>
    match fileOf (k.processes i) fd with
    | none => (none, k, v)
    | some j =>
      let file := (k.processes i).fds j
      if !file.flags.testBit 1 then (none, k, v)
      else
        let r := vfsWritePath fat v file.path (some bytes) file.offset junk
        match r.1 with
        | none => (none, k, r.2)
        | some n => (some n, advanceFd k i j n, r.2)

/-- Signed 64-bit numbers are kept as their residues; the negative ones are at least `2 ^ 63`. -/
def processFdSeek (fd offset whence : ℕ) (junk : Stale) : Option ℕ × Kernel V × Vfs F :=
  match processGet k pid with
  | none => (none, k, v)
  | some i =>
    match fileOf (k.processes i) fd with
    | none => (none, k, v)
    | some j =>
      let file := (k.processes i).fds j
      let r := vfsFileSizePath fat v file.path junk
      match r.1 with
      | none => (none, k, r.2)
      | some size =>
        let base := if whence = 0 then 0 else if whence = 1 then file.offset else size
        let pos := (base + offset) % 2 ^ 64
        if 2 ^ 63 ≤ pos then (none, k, r.2)
        else (some pos, setFd k i j { file with offset := pos }, r.2)

def processFdTell (fd : ℕ) : Option ℕ := do
  let i ← processGet k pid
  let j ← fileOf (k.processes i) fd
  some ((k.processes i).fds j).offset

end Fds

end NexusOS.Core
