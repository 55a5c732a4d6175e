import NexusOS.Core.Threads

namespace NexusOS.Core

variable {V : Type*}

/-- What the system calls use of the machine besides: translation, bytes of memory and the counts of
the page allocator. -/
structure Hardware (V : Type*) extends Sched.Platform V where
  pagingVirtToPhysInCr3 : ℕ → ℕ → V → ℕ
  readByte : ℕ → V → UInt8
  writeByte : ℕ → UInt8 → V → V
  pmmTotalPages : V → ℕ
  pmmFreePages : V → ℕ
  pmmUsedPages : V → ℕ

def pageNx : ℕ := 2 ^ 63

section Ranges

/-- The parts of a range that lie in one page each, with their lengths. -/
def chunks : ℕ → ℕ → ℕ → List (ℕ × ℕ)
  | 0, _, _ => []
  | n + 1, va, size =>
    if size = 0 then []
    else
      let chunk := min (4096 - va % 4096) size
      (va % 2 ^ 64, chunk) :: chunks n (va + chunk) (size - chunk)

def userChunks (va size : ℕ) : List (ℕ × ℕ) := chunks (size / 4096 + 2) va size

/-- The range does not fit below the limit, computed with 64 bits. -/
def outsideUser (va size : ℕ) : Bool :=
  va < processUserBase || (processUserLimit + 2 ^ 64 - va) % 2 ^ 64 < size

/-- What is asked for is there, and `NX` exactly if asked for. -/
def pageFlagsAllow (required flags : ℕ) : Bool :=
  (!required.testBit 1 || flags.testBit 1) && (required.testBit 63 == flags.testBit 63)

def pageAllows (p : Process) (required va : ℕ) : Bool :=
  match p.userPages.find? (·.va == va / 4096 * 4096) with
  | none => false
  | some u => pageFlagsAllow required u.flags

def processUserRangeValid (k : Kernel V) (pid va size required : ℕ) : Bool :=
  match processGet k pid with
  | none => false
  | some i =>
    let p := k.processes i
    if p.state = .zombie ∨ size = 0 ∨ outsideUser va size then false
    else (userChunks va size).all fun c ↦ pageAllows p required c.1

end Ranges

section Copies

variable (m : Hardware V)

def physOf (cr3 va : ℕ) (v : V) : Option ℕ :=
  let phys := m.pagingVirtToPhysInCr3 cr3 va v
  if phys = 0 then none else some (phys / 4096 * 4096 + va % 4096)

def readChunks (cr3 : ℕ) (v : V) : List (ℕ × ℕ) → Option (List UInt8)
  | [] => some []
  | (va, n) :: cs =>
    match physOf m cr3 va v, readChunks cr3 v cs with
    | some addr, some rest => some ((List.range n).map (fun i ↦ m.readByte (addr + i) v) ++ rest)
    | _, _ => none

def storeBytes (addr : ℕ) : List UInt8 → V → V
  | [], v => v
  | b :: bs, v => storeBytes (addr + 1) bs (m.writeByte addr b v)

def writeChunks (cr3 : ℕ) : List (ℕ × ℕ) → List UInt8 → V → Bool × V
  | [], _, v => (true, v)
  | (va, n) :: cs, src, v =>
    match physOf m cr3 va v with
    | none => (false, v)
    | some addr => writeChunks cr3 cs (src.drop n) (storeBytes m addr (src.take n) v)

def processUserRead (k : Kernel V) (pid va size : ℕ) : Option (List UInt8) :=
  match processGet k pid with
  | none => none
  | some i =>
    let p := k.processes i
    if p.state = .zombie ∨ size = 0 ∨ outsideUser va size ∨
        !processUserRangeValid k pid va size 0 then none
    else readChunks m p.addressSpaceCr3 k.vm (userChunks va size)

def processUserWrite (k : Kernel V) (pid va : ℕ) (src : List UInt8) : Bool × Kernel V :=
  match processGet k pid with
  | none => (false, k)
  | some i =>
    let p := k.processes i
    if p.state = .zombie ∨ src = [] ∨ outsideUser va src.length ∨
        !processUserRangeValid k pid va src.length pageWritable then (false, k)
    else
      let r := writeChunks m p.addressSpaceCr3 (userChunks va src.length) src k.vm
      (r.1, { k with vm := r.2 })

def processUserCopy (k : Kernel V) (pid va : ℕ) (src : List UInt8) : Bool × Kernel V :=
  match processGet k pid with
  | none => (false, k)
  | some i =>
    if src = [] ∨ outsideUser va src.length then (false, k)
    else
      let r := writeChunks m (k.processes i).addressSpaceCr3 (userChunks va src.length) src k.vm
      (r.1, { k with vm := r.2 })

def processUserZero (k : Kernel V) (pid va size : ℕ) : Bool × Kernel V :=
  processUserCopy m k pid va (List.replicate size 0)

end Copies

end NexusOS.Core
