import NexusOS.Lib.Bytes
import NexusOS.Lib.Outcome

namespace NexusOS.Boot

open Lib

section Access

/-- How the loader can end early: with a message, or by an access outside the file or the image. -/
inductive Fault
  | panic (text : String)
  | wild
  deriving DecidableEq

abbrev Mem := ℕ → UInt8

def fileAt (file : List UInt8) (off n : ℕ) : Except Fault (List UInt8) :=
  if off + n ≤ file.length then .ok (slice file off n) else .error .wild

/-- The image: `size` bytes of memory from `base` on. -/
structure Region where
  base : ℕ
  size : ℕ

def Region.read (g : Region) (mem : Mem) (addr n : ℕ) : Except Fault (List UInt8) :=
  if g.base ≤ addr ∧ addr + n ≤ g.base + g.size then .ok (window mem addr n) else .error .wild

def Region.write (g : Region) (mem : Mem) (addr : ℕ) (bytes : List UInt8) : Except Fault Mem :=
  if g.base ≤ addr ∧ addr + bytes.length ≤ g.base + g.size then .ok (overlay mem addr bytes)
  else .error .wild

def field (bytes : List UInt8) (off n : ℕ) : ℕ := ofLe (slice bytes off n)

end Access

section Format

/-- `Elf64_Ehdr`, the fields that are looked at. -/
structure Ehdr where
  ident : List UInt8
  type : ℕ
  machine : ℕ
  entry : ℕ
  phoff : ℕ
  phentsize : ℕ
  phnum : ℕ

def ehdrOf (b : List UInt8) : Ehdr where
  ident := slice b 0 6
  type := field b 16 2
  machine := field b 18 2
  entry := field b 24 8
  phoff := field b 32 8
  phentsize := field b 54 2
  phnum := field b 56 2

/-- `Elf64_Phdr`, the fields that are looked at. -/
structure Phdr where
  type : ℕ
  offset : ℕ
  vaddr : ℕ
  filesz : ℕ
  memsz : ℕ
  align : ℕ

def phdrOf (b : List UInt8) : Phdr where
  type := field b 0 4
  offset := field b 8 8
  vaddr := field b 16 8
  filesz := field b 32 8
  memsz := field b 40 8
  align := field b 48 8

def ptLoad : ℕ := 1

def ptDynamic : ℕ := 2

/-- `NEXUS_KERNEL_LINK_BASE`. -/
@[irreducible]
def kernelLinkBase : ℕ := 0x200000

def alignDown4k (x : ℕ) : ℕ := x / 4096 * 4096

def alignUp4kChecked (x : ℕ) : ℕ := if 2 ^ 64 - 1 - 0xFFF < x then 0 else (x + 0xFFF) / 4096 * 4096

def rangeValid (start size : ℕ) : Bool := size ≤ 2 ^ 64 - 1 - start

def isPowerOfTwo (x : ℕ) : Bool := x = 0 ∨ x &&& (x - 1) = 0

end Format

section Headers

structure Scan where
  loads : ℕ
  minVaddr : ℕ
  maxVaddr : ℕ
  dynVaddr : ℕ
  dynSize : ℕ

def scanPhdr (fileSize : ℕ) (s : Scan) (ph : Phdr) : Except Fault Scan :=
  if ph.type = ptDynamic then .ok { s with dynVaddr := ph.vaddr, dynSize := ph.memsz }
  else if ph.type ≠ ptLoad then .ok s
  else if !rangeValid ph.offset ph.filesz ∨ fileSize < ph.offset + ph.filesz ∨
      ph.memsz < ph.filesz ∨ !rangeValid ph.vaddr ph.memsz ∨ !isPowerOfTwo ph.align then
    .error (.panic "kernel.elf: invalid load segment")
  else
    let segStart := alignDown4k ph.vaddr
    let segEnd := alignUp4kChecked (ph.vaddr + ph.memsz)
    if segEnd = 0 ∨ segEnd ≤ segStart then .error (.panic "kernel.elf: invalid segment range")
    else .ok { s with
      loads := s.loads + 1
      minVaddr := min segStart s.minVaddr
      maxVaddr := max segEnd s.maxVaddr }

/-- The headers are taken one after another, whatever `e_phentsize` says. -/
def phdrs (file : List UInt8) (eh : Ehdr) : Except Fault (List Phdr) :=
  (List.range eh.phnum).mapM fun i ↦ do
    let b ← fileAt file (eh.phoff + i * 56) 56
    return phdrOf b

def copySegment (file : List UInt8) (g : Region) (minVaddr : ℕ) (mem : Mem) (ph : Phdr) :
    Except Fault Mem :=
  if ph.type ≠ ptLoad ∨ ph.filesz = 0 then .ok mem
  else
    let destOffset := (ph.vaddr + 2 ^ 64 - minVaddr) % 2 ^ 64
    if g.size < destOffset ∨ g.size - destOffset < ph.filesz then
      .error (.panic "kernel.elf: segment outside allocated image")
    else do
      let bytes ← fileAt file ph.offset ph.filesz
      g.write mem ((g.base + destOffset) % 2 ^ 64) bytes

end Headers

section Relocations

/-- The table of relocations: its address, its size and the size of an entry. -/
structure Rela where
  vaddr : ℕ
  size : ℕ
  ent : ℕ

def Rela.tag (r : Rela) (tag val : ℕ) : Rela :=
  if tag = 7 then { r with vaddr := val }
  else if tag = 8 then { r with size := val }
  else if tag = 9 then { r with ent := val }
  else r

/-- The loop over the `n` entries of the dynamic section at `addr`, up to `DT_NULL`. -/
def dynLoop (g : Region) (mem : Mem) : ℕ → ℕ → Rela → Except Fault Rela
  | 0, _, r => .ok r
  | n + 1, addr, r => do
    let e ← g.read mem addr 16
    if field e 0 8 = 0 then .ok r
    else dynLoop g mem n (addr + 16) (r.tag (field e 0 8) (field e 8 8))

/-- The loop over the `n` relocations at `addr`. -/
def relaLoop (g : Region) (linkBase minVaddr : ℕ) : ℕ → ℕ → Mem → Except Fault (Bool × Mem)
  | 0, _, mem => .ok (true, mem)
  | n + 1, addr, mem => do
    let e ← g.read mem addr 24
    if field e 8 8 % 2 ^ 32 ≠ 8 then .error (.panic "kernel.elf: unsupported relocation")
    else if field e 0 8 < minVaddr ∨ g.size - 8 < field e 0 8 - minVaddr then .ok (false, mem)
    else do
      let mem ← g.write mem ((g.base + (field e 0 8 - minVaddr)) % 2 ^ 64)
        (toLe 8 ((g.base + 2 ^ 64 - linkBase + field e 16 8) % 2 ^ 64))
      relaLoop g linkBase minVaddr n (addr + 24) mem

def applyRelativeRelocations (g : Region) (linkBase dynVaddr dynSize minVaddr : ℕ) (mem : Mem) :
    Except Fault (Bool × Mem) :=
  if dynSize < 16 then .ok (false, mem)
  else if dynVaddr < minVaddr ∨ g.size ≤ dynVaddr - minVaddr then .ok (false, mem)
  else if g.size - (dynVaddr - minVaddr) < dynSize then .ok (false, mem)
  else do
    let r ← dynLoop g mem (dynSize / 16) ((g.base + (dynVaddr - minVaddr)) % 2 ^ 64) ⟨0, 0, 24⟩
    if r.size = 0 then .ok (true, mem)
    else if r.ent ≠ 24 ∨ r.size % r.ent ≠ 0 then .ok (false, mem)
    else if r.vaddr < minVaddr ∨ g.size ≤ r.vaddr - minVaddr then .ok (false, mem)
    else if g.size - (r.vaddr - minVaddr) < r.size then .ok (false, mem)
    else
      relaLoop g linkBase minVaddr (r.size / r.ent) ((g.base + (r.vaddr - minVaddr)) % 2 ^ 64) mem

end Relocations

section Load

/-- `kernel_load_result_t`. -/
structure LoadResult where
  physBase : ℕ
  physEnd : ℕ
  linkBase : ℕ
  entry : ℕ
  imageSize : ℕ

def checkEhdr (file : List UInt8) : Except Fault Ehdr :=
  if file.length < 64 then .error (.panic "kernel.elf: truncated header")
  else do
    let b ← fileAt file 0 64
    let eh := ehdrOf b
    if eh.ident.take 4 ≠ [0x7F, 69, 76, 70] then .error (.panic "kernel.elf: bad magic")
    else if eh.ident.drop 4 ≠ [2, 1] then .error (.panic "kernel.elf: unsupported format")
    else if eh.machine ≠ 62 ∨ eh.type ≠ 3 then
      .error (.panic "kernel.elf: expected relocatable ET_DYN x86_64 image")
    else if eh.phentsize < 56 ∨ eh.phnum = 0 then
      .error (.panic "kernel.elf: invalid program headers")
    else if file.length < eh.phoff ∨ (file.length - eh.phoff) / eh.phentsize < eh.phnum then
      .error (.panic "kernel.elf: program headers outside file")
    else .ok eh

def imageSize (s : Scan) : Except Fault ℕ :=
  if s.loads = 0 ∨ s.minVaddr = 2 ^ 64 - 1 ∨ s.maxVaddr ≤ s.minVaddr then
    .error (.panic "kernel.elf: no loadable segments")
  else
    let size := s.maxVaddr - s.minVaddr
    if s.minVaddr ≠ kernelLinkBase ∨ 0x100000000 ≤ size then
      .error (.panic "kernel.elf: unsupported image layout")
    else if size / 4096 = 0 ∨ size / 4096 * 4096 ≠ size then
      .error (.panic "kernel.elf: image size overflow")
    else .ok size

/-- The pages that `AllocatePages` gives below 4 GiB; the address 0 counts as a failure. -/
def allocateLowPages (allocatePages : ℕ → Option ℕ) (pages : ℕ) : Option ℕ :=
  (allocatePages pages).filter (· ≠ 0)

def loadElf (allocatePages : ℕ → Option ℕ) (file : List UInt8) (mem : Mem) :
    Except Fault (LoadResult × Mem) := do
  let eh ← checkEhdr file
  let phs ← phdrs file eh
  let s ← phs.foldlM (scanPhdr file.length) ⟨0, 2 ^ 64 - 1, 0, 0, 0⟩
  let size ← imageSize s
  match allocateLowPages allocatePages (size / 4096) with
  | none => .error (.panic "kernel.elf: cannot allocate physical image below 4 GiB")
  | some base =>
    let g : Region := ⟨base, size⟩
    let mem ← g.write mem base (List.replicate size 0)
    let mem ← phs.foldlM (copySegment file g s.minVaddr) mem
    if s.dynVaddr = 0 ∨ s.dynSize = 0 then
      .error (.panic "kernel.elf: relocation processing failed")
    else
      let r ← applyRelativeRelocations g s.minVaddr s.dynVaddr s.dynSize s.minVaddr mem
      if !r.1 then .error (.panic "kernel.elf: relocation processing failed")
      else if eh.entry < s.minVaddr ∨ s.maxVaddr ≤ eh.entry then
        .error (.panic "kernel.elf: entry outside image")
      else
        .ok (⟨base, base + size, s.minVaddr, base + (eh.entry - s.minVaddr), size⟩, r.2)

end Load

end NexusOS.Boot
