import NexusOS.Core.Descriptors

namespace NexusOS.Core

open Fs

variable {V F : Type*}

section Format

def leNat (file : List UInt8) (offset : ℕ) : ℕ → ℕ
  | 0 => 0
  | n + 1 => (file.getD offset 0).toNat + 256 * leNat file (offset + 1) n

structure Ehdr where
  type : ℕ
  machine : ℕ
  entry : ℕ
  phoff : ℕ
  phentsize : ℕ
  phnum : ℕ
  deriving DecidableEq

structure Phdr where
  type : ℕ
  flags : ℕ
  offset : ℕ
  vaddr : ℕ
  filesz : ℕ
  memsz : ℕ
  deriving DecidableEq

def readEhdr (file : List UInt8) : Ehdr where
  type := leNat file 16 2
  machine := leNat file 18 2
  entry := leNat file 24 8
  phoff := leNat file 32 8
  phentsize := leNat file 54 2
  phnum := leNat file 56 2

def readPhdr (file : List UInt8) (at_ : ℕ) : Phdr where
  type := leNat file at_ 4
  flags := leNat file (at_ + 4) 4
  offset := leNat file (at_ + 8) 8
  vaddr := leNat file (at_ + 16) 8
  filesz := leNat file (at_ + 32) 8
  memsz := leNat file (at_ + 40) 8

/-- `ELFCLASS64`, little-endian, behind the magic number. -/
def elfIdent : List UInt8 := [0x7F, 69, 76, 70, 2, 1]

def ptLoad : ℕ := 1

def phdrBounds (eh : Ehdr) (fileSize : ℕ) : Bool :=
  eh.phentsize = 56 ∧ eh.phnum ≠ 0 ∧ eh.phnum ≤ 32 ∧ eh.phoff ≤ fileSize ∧
    eh.phnum * eh.phentsize ≤ fileSize - eh.phoff

def readPhdrs (file : List UInt8) (eh : Ehdr) : List Phdr :=
  (List.range eh.phnum).map fun i ↦ readPhdr file (eh.phoff + i * 56)

end Format

section Image

def alignDown (x : ℕ) : ℕ := x / 4096 * 4096

def alignUp (x : ℕ) : ℕ := if 2 ^ 64 - 1 - 4095 < x then 0 else (x + 4095) / 4096 * 4096

structure Extent where
  loads : ℕ
  start : ℕ
  stop : ℕ
  deriving DecidableEq

def checkPhdr (fileSize : ℕ) (e : Extent) (p : Phdr) : Option Extent :=
  if p.type ≠ ptLoad then some e
  else if p.memsz = 0 ∨ p.memsz < p.filesz ∨ fileSize < p.offset ∨
      fileSize - p.offset < p.filesz then none
  else if p.vaddr < processUserBase ∨ processUserLimit ≤ p.vaddr then none
  else if processUserLimit - p.vaddr < p.memsz then none
  else
    let first := alignDown p.vaddr
    let last := alignUp (p.vaddr + p.memsz)
    if last = 0 ∨ last ≤ first then none
    else some ⟨e.loads + 1, min first e.start, max last e.stop⟩

def pageFlagsFor (phdrs : List Phdr) (va : ℕ) : ℕ :=
  let page := alignDown va
  let covering := phdrs.filter fun p ↦ p.type = ptLoad ∧ p.memsz ≠ 0 ∧
    alignUp ((p.vaddr + p.memsz) % 2 ^ 64) ≠ 0 ∧ alignDown p.vaddr ≤ page ∧
    page < alignUp ((p.vaddr + p.memsz) % 2 ^ 64)
  let writable := covering.any fun p ↦ p.flags.testBit 1
  let executable := covering.any fun p ↦ p.flags.testBit 0
  -- the result is an `int`, which loses the bit of `VMM_PAGE_NX`
  ((if writable then pageWritable else 0) ||| (if executable then 0 else pageNx)) % 2 ^ 32

/-- What is to be loaded where: addresses of the file are moved by `bias`. -/
structure Image where
  bias : ℤ
  start : ℕ
  stop : ℕ
  phdrs : List Phdr
  entry : ℕ

def imageBase : ℕ := 0x400000

def userStackTop : ℕ := 0x80000000

def elfStackPages : ℕ := 4

def stackBase : ℕ := userStackTop - elfStackPages * 4096

def biased (bias : ℤ) (x : ℕ) : ℕ := ((x + bias) % 2 ^ 64).toNat

def placeImage (eh : Ehdr) (phdrs : List Phdr) (e : Extent) : Option Image :=
  if e.loads = 0 ∨ e.start = 2 ^ 64 - 1 ∨ e.stop ≤ e.start then none
  else
    let bias : ℤ := if eh.type = 3 then (imageBase : ℤ) - e.start else 0
    if (0 < bias ∧ ((2 ^ 64 - 1 : ℤ) - bias < e.stop)) ∨ (bias < 0 ∧ (e.start : ℤ) < -bias) then none
    else
      let start := biased bias e.start
      let stop := biased bias e.stop
      if start < processUserBase ∨ processUserLimit < stop ∨ stop ≤ start then none
      else
        let pages := (stop - start) / 4096
        if pages = 0 ∨ 12 < pages ∨ processUserMaxPages < pages + elfStackPages then none
        else if stackBase ≤ stop then none
        else some ⟨bias, start, stop, phdrs, biased bias eh.entry⟩

def parseElf (file : List UInt8) : Option Image :=
  let eh := readEhdr file
  if file.length < 64 ∨ file.take 6 ≠ elfIdent ∨ eh.machine ≠ 62 ∨ (eh.type ≠ 2 ∧ eh.type ≠ 3) ∨
      !phdrBounds eh file.length then none
  else
    let phdrs := readPhdrs file eh
    match phdrs.foldlM (checkPhdr file.length) ⟨0, 2 ^ 64 - 1, 0⟩ with
    | none => none
    | some e => placeImage eh phdrs e

end Image

section Load

variable (m : Hardware V) (pid : ℕ)

/-- A fresh page that is cleared again through its user address. -/
def mapCleared (k : Kernel V) (va flags : ℕ) : Bool × Kernel V :=
  let r := processMapUserPage m.toMemory k pid va flags
  if r.1 then processUserZero m r.2 pid va 4096 else (false, r.2)

def untilFailure {α : Type*} (f : Kernel V → α → Bool × Kernel V) :
    List α → Kernel V → Bool × Kernel V
  | [], k => (true, k)
  | a :: as, k =>
    let r := f k a
    if r.1 then untilFailure f as r.2 else (false, r.2)

def mapImage (image : Image) (k : Kernel V) : Bool × Kernel V :=
  untilFailure (fun k i ↦
    let va := image.start + i * 4096
    mapCleared m pid k va (pageFlagsFor image.phdrs (biased (-image.bias) va)))
    (List.range ((image.stop - image.start) / 4096)) k

def mapStack (k : Kernel V) : Bool × Kernel V :=
  untilFailure (fun k i ↦ mapCleared m pid k (stackBase + i * 4096) (pageWritable ||| pageNx))
    (List.range elfStackPages) k

def copySegments (file : List UInt8) (image : Image) (k : Kernel V) : Bool × Kernel V :=
  untilFailure (fun k p ↦ processUserCopy m k pid (biased image.bias p.vaddr)
    ((file.drop p.offset).take p.filesz))
    (image.phdrs.filter fun p ↦ p.type = ptLoad ∧ p.filesz ≠ 0) k

def loadImage (file : List UInt8) (image : Image) (k : Kernel V) : Bool × Kernel V :=
  let r := mapImage m pid image k
  if !r.1 then r
  else
    let r := mapStack m pid r.2
    if !r.1 then r
    else
      let r := copySegments m pid file image r.2
      if !r.1 then r else (image.start ≤ image.entry ∧ image.entry < image.stop, r.2)

def loaded (image : Image) (p : Process) : Process :=
  { p with
    userEntry := image.entry
    userStackBase := userStackTop
    userStackSize := elfStackPages * 4096
    userPagesReserved := p.userPages.length
    flags := p.flags ||| 1 }

def nexusElfLoadProcess (fat : Fat F) (k : Kernel V) (v : Vfs F) (path : Str) :
    Bool × Kernel V × Vfs F :=
  match processGet k pid with
  | none => (false, k, v)
  | some i =>
    if (k.processes i).state = .zombie ∨ (k.processes i).userPages ≠ [] then (false, k, v)
    else
      let file := fat.readFile path 65536 v.fat
      let v := { v with fat := file.2 }
      match file.1 with
      | none => (false, k, v)
      | some file =>
        match parseElf file with
        | none => (false, k, v)
        | some image =>
          let r := loadImage m pid file image k
          if !r.1 then (false, (processUnmapUserMemory m.toMemory r.2 pid).2, v)
          else
            match processGet r.2 pid with
            | none => (false, (processUnmapUserMemory m.toMemory r.2 pid).2, v)
            | some i => (true, r.2.setProcess i (loaded image (r.2.processes i)), v)

end Load

end NexusOS.Core
