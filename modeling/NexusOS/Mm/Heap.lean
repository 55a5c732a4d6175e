import NexusOS.Lib.Tiling

namespace NexusOS.Mm.Heap

open Lib

def heapBase : ℕ := 0xFFFF800000000000

def heapLimit : ℕ := 0xFFFF900000000000

/-- `BLOCK_MAGIC`, the letters "NXHLBLK1". -/
def blockMagic : ℕ := 0x4E58484C424C4B31

/-- `~BLOCK_FREE` as the source has it: the constant is a 32-bit one, so the complement covers
only the low half of the flags. -/
def notBlockFree : ℕ := 0xFFFFFFFE

/-- An in-band block header; `none` is the null pointer. -/
structure HeapBlock where
  magic : ℕ
  size : ℕ
  capacity : ℕ
  flags : ℕ
  prev : Option ℕ
  next : Option ℕ

/-- The allocator's globals together with the headers found in the mapped arena. The header of
48 bytes (`HEADER_SIZE`) stands at the address that indexes `mem`. -/
structure State where
  mem : ℕ → HeapBlock
  head : Option ℕ
  heapNext : ℕ
  heapPages : ℕ
  usedBytes : ℕ
  freeBytes : ℕ
  allocations : ℕ
  corruptionCount : ℕ
  ready : Bool

def HeapBlock.isFree (b : HeapBlock) : Bool := b.flags &&& 1 != 0

def State.write (s : State) (a : ℕ) (b : HeapBlock) : State :=
  { s with mem := Function.update s.mem a b }

/-- `if (link != NULL) link->prev = a`. -/
def State.linkBack (s : State) (link : Option ℕ) (a : ℕ) : State :=
  match link with
  | none => s
  | some n => s.write n { s.mem n with prev := some a }

def alignUp64 (value alignment : ℕ) : ℕ :=
  if value > 2 ^ 64 - 1 - (alignment - 1) then 2 ^ 64 - 1
  else (value + (alignment - 1)) - (value + (alignment - 1)) % alignment

def alignSize (size : ℕ) : ℕ :=
  if alignUp64 size 16 = 2 ^ 64 - 1 then 0 else alignUp64 size 16

/-- Both sums are taken modulo `2 ^ 64`. -/
def pagesForBlock (payload : ℕ) : ℕ :=
  ((48 + payload) % 2 ^ 64 + 4095) % 2 ^ 64 / 4096

def ptrInHeap (s : State) (addr : ℕ) : Bool := decide (heapBase ≤ addr ∧ addr < s.heapNext)

def linkInHeap (s : State) : Option ℕ → Bool
  | none => true
  | some a => ptrInHeap s a

def blockBasicValid (s : State) (a : ℕ) : Bool :=
  let b := s.mem a
  let stop := (a + 48 + b.capacity) % 2 ^ 64
  ptrInHeap s a && b.magic == blockMagic && !(b.capacity == 0 || b.capacity < b.size) &&
    !(stop < a || s.heapNext < stop) && linkInHeap s b.prev && linkInHeap s b.next

/-- The checks `heap_validate` makes at one block, reached from `prev`. -/
def blockValid (s : State) (a : ℕ) (prev : Option ℕ) : Bool :=
  let b := s.mem a
  blockBasicValid s a && b.prev == prev &&
    (match b.next with
      | none => true
      | some n => (s.mem n).prev == some a) &&
    b.flags &&& notBlockFree == 0

/-- The loop of `heap_validate`; the counter is the number of blocks it still accepts. -/
def validateLoop (s : State) : ℕ → Option ℕ → Option ℕ → Bool
  | _, none, _ => true
  | 0, some _, _ => false
  | n + 1, some a, prev => blockValid s a prev && validateLoop s n (s.mem a).next (some a)

/-- `seen++ > 1000000` lets one block more than a million pass. -/
def seenLimit : ℕ := 1000001

def headHasPrev (s : State) : Bool :=
  match s.head with
  | none => false
  | some a => (s.mem a).prev != none

def heapValidate (s : State) : Bool × State :=
  if !s.ready then (false, s)
  else if validateLoop s seenLimit s.head none && !headHasPrev s then (true, s)
  else (false, { s with corruptionCount := (s.corruptionCount + 1) % 2 ^ 64 })

def splitBlock (s : State) (a requested : ℕ) : State :=
  let b := s.mem a
  let remaining := (b.capacity + 2 ^ 64 - requested) % 2 ^ 64
  if remaining < 48 + 16 then s.write a { b with size := b.capacity }
  else
    let t := a + 48 + requested
    let tail : HeapBlock := ⟨blockMagic, remaining - 48, remaining - 48, 1, some a, b.next⟩
    let s := (s.write t tail).linkBack b.next t
    let s := s.write a { s.mem a with next := some t, size := requested, capacity := requested }
    { s with freeBytes := (s.freeBytes + (remaining - 48)) % 2 ^ 64 }

def mergeWithNext (s : State) (a : ℕ) : State :=
  match (s.mem a).next with
  | none => s
  | some n =>
    if !(s.mem n).isFree then s
    else
      let b := s.mem a
      let capacity := (b.capacity + (48 + (s.mem n).capacity)) % 2 ^ 64
      let s := { s with freeBytes := (s.freeBytes + 48) % 2 ^ 64 }
      let link := (s.mem n).next
      (s.write a { b with capacity := capacity, size := capacity, next := link }).linkBack link a

/-- First fit. The list has just been validated, so it ends within `seenLimit` blocks. -/
def findFit (s : State) (requested : ℕ) : ℕ → Option ℕ → Option ℕ
  | _, none => none
  | 0, some _ => none
  | n + 1, some a =>
    if (s.mem a).isFree && decide (requested ≤ (s.mem a).capacity) then some a
    else findFit s requested n (s.mem a).next

/-- `g_used_bytes += requested; g_allocations++`. -/
def State.countAllocation (s : State) (requested : ℕ) : State :=
  { s with
    usedBytes := (s.usedBytes + requested) % 2 ^ 64
    allocations := (s.allocations + 1) % 2 ^ 64 }

/-- The free block `a` becomes an allocated one, still of its whole capacity. -/
def claimBlock (s : State) (a requested : ℕ) : State :=
  let b := s.mem a
  { s.write a { b with flags := b.flags &&& notBlockFree, size := requested } with
    freeBytes := (s.freeBytes + 2 ^ 64 - b.capacity) % 2 ^ 64 }

def takeBlock (s : State) (a requested : ℕ) : State :=
  (splitBlock (claimBlock s a requested) a requested).countAllocation requested

/-- `while (tail->next != NULL) tail = tail->next`. -/
def lastBlock (s : State) : ℕ → ℕ → ℕ
  | 0, a => a
  | n + 1, a =>
    match (s.mem a).next with
    | none => a
    | some c => lastBlock s n c

def attachBlock (s : State) (a : ℕ) : State :=
  match s.head with
  | none => { s with head := some a }
  | some h =>
    let tail := lastBlock s seenLimit h
    let s := s.write tail { s.mem tail with next := some a }
    s.write a { s.mem a with prev := some tail }

/-- The new block that `kmalloc` puts behind the arena once its pages are mapped. -/
def appendBlock (s : State) (requested pages capacity : ℕ) : State :=
  let a := s.heapNext
  let s := attachBlock (s.write a ⟨blockMagic, requested, capacity, 0, none, none⟩) a
  { s with
    heapNext := s.heapNext + pages * 4096
    heapPages := s.heapPages + pages }.countAllocation requested

def heapInit (mem : ℕ → HeapBlock) (pmmTotalPages : ℕ) : State where
  mem := mem
  head := none
  heapNext := heapBase
  heapPages := 0
  usedBytes := 0
  freeBytes := 0
  allocations := 0
  corruptionCount := 0
  ready := decide (pmmTotalPages ≠ 0)

/-- The physical and virtual memory managers as the heap sees them, over any state `V`. A page
allocation fails with address 0 and a mapping with `false`. -/
structure Vmm (V : Type*) where
  pmmAllocPage : V → ℕ × V
  pmmFreePage : ℕ → V → V
  vmmMapPage : ℕ → ℕ → ℕ → V → Bool × V
  vmmUnmapPage : ℕ → V → V
  vmmVirtToPhys : ℕ → V → ℕ

section Kmalloc

variable {V : Type*} (m : Vmm V)

def unmapGrown (start j : ℕ) (v : V) : V :=
  let va := start + j * 4096
  let oldPhys := m.vmmVirtToPhys va v
  if oldPhys ≠ 0 then m.pmmFreePage (oldPhys - oldPhys % 4096) (m.vmmUnmapPage va v) else v

/-- Roll back the first `i` pages of a growth operation. -/
def rollBack (start i : ℕ) (v : V) : V :=
  (List.range i).foldl (fun v j ↦ unmapGrown m start j v) v

/-- The loop of `map_new_pages` from page `i` on, with `n` pages to go. The flags are
`VMM_PAGE_PRESENT | VMM_PAGE_WRITABLE`. -/
def mapLoop (start : ℕ) : ℕ → ℕ → V → Bool × V
  | _, 0, v => (true, v)
  | i, n + 1, v =>
    let r := m.pmmAllocPage v
    if r.1 = 0 then (false, rollBack m start i r.2)
    else
      let q := m.vmmMapPage (start + i * 4096) r.1 3 r.2
      if !q.1 then (false, rollBack m start i (m.pmmFreePage r.1 q.2))
      else mapLoop start (i + 1) n q.2

def mapNewPages (start pages : ℕ) (v : V) : Bool × V := mapLoop m start 0 pages v

def kmalloc (s : State) (v : V) (size : ℕ) : Option ℕ × State × V :=
  if !s.ready ∨ size = 0 then (none, s, v)
  else
    let requested := alignSize size
    if requested = 0 then (none, s, v)
    else if !(heapValidate s).1 then (none, (heapValidate s).2, v)
    else
      match findFit s requested seenLimit s.head with
      | some a => (some (a + 48), takeBlock s a requested, v)
      | none =>
        let pages := pagesForBlock requested
        let capacity := (pages * 4096 + 2 ^ 64 - 48) % 2 ^ 64
        if pages = 0 ∨ capacity < requested ∨ s.heapNext > heapLimit ∨
            pages > (heapLimit - s.heapNext) / 4096 then (none, s, v)
        else
          let r := mapNewPages m s.heapNext pages v
          if !r.1 then (none, s, r.2)
          else (some (s.heapNext + 48), appendBlock s requested pages capacity, r.2)

end Kmalloc

def releaseBlock (s : State) (a : ℕ) : State :=
  let b := s.mem a
  { s.write a { b with flags := b.flags ||| 1 } with
    usedBytes := if b.size ≤ s.usedBytes then s.usedBytes - b.size else s.usedBytes
    freeBytes := (s.freeBytes + b.capacity) % 2 ^ 64
    allocations := s.allocations - 1 }

def mergeBackward (s : State) (a : ℕ) : State :=
  match (s.mem a).prev with
  | none => s
  | some p => if (s.mem p).isFree then mergeWithNext s p else s

def kfree (s : State) (ptr : Option ℕ) : State :=
  match ptr with
  | none => s
  | some raw =>
    if !s.ready ∨ raw < heapBase + 48 ∨ s.heapNext ≤ raw then s
    else
      let a := raw - 48
      if (s.mem a).magic ≠ blockMagic ∨ (s.mem a).isFree then s
      else if !(heapValidate s).1 then (heapValidate s).2
      -- the header is looked at again once the lock is held
      else if (s.mem a).magic ≠ blockMagic ∨ (s.mem a).isFree then s
      else mergeBackward (mergeWithNext (releaseBlock s a) a) a

end NexusOS.Mm.Heap
