import Mathlib
import NexusOS.Mm.Pmm

namespace NexusOS.Mm.Paging

open Pmm (pmmAllocPage pmmFreePage pmmIsPageFree)

/-- The page allocator and the pages of physical memory seen as tables of 512 entries, by the
address of the page. `refreed` counts the pages that were given back while they were free. -/
structure State where
  mem : ℕ → Fin 512 → ℕ
  pmm : Pmm.State
  refreed : ℕ

section Entries

/-- The bits `PTE_PRESENT`, `PTE_WRITABLE`, `PTE_USER` and `PTE_HUGE`. -/
def present (entry : ℕ) : Bool := entry.testBit 0

def writable (entry : ℕ) : Bool := entry.testBit 1

def user (entry : ℕ) : Bool := entry.testBit 2

def huge (entry : ℕ) : Bool := entry.testBit 7

def pteNx : ℕ := 2 ^ 63

/-- `PTE_PRESENT | PTE_WRITABLE`. -/
def tableFlags : ℕ := 3

/-- `entry & ~0xFFF`. -/
def tableAddr (entry : ℕ) : ℕ := entry / 4096 * 4096

/-- `entry & 0xFFFFFFE00000`: bits 21 to 47. -/
def hugeBase (entry : ℕ) : ℕ := entry / 2 ^ 21 % 2 ^ 27 * 2 ^ 21

/-- `entry & 0xFFFFFC0000000`: bits 30 to 51. -/
def gigaBase (entry : ℕ) : ℕ := entry / 2 ^ 30 % 2 ^ 22 * 2 ^ 30

/-- `(entry & 0xFFF) & ~PTE_HUGE`. -/
def leafFlags (entry : ℕ) : ℕ := entry % 4096 &&& 0xF7F

/-- The index into the table of a level: bits 12 to 20 for level 1, and nine more for each
further level. -/
def tableIndex (level va : ℕ) : Fin 512 := ⟨va / 2 ^ (9 * level + 3) % 512, Nat.mod_lt _ (by decide)⟩

end Entries

section Memory

def setEntry (s : State) (t : ℕ) (i : Fin 512) (entry : ℕ) : State :=
  { s with mem := Function.update s.mem t (Function.update (s.mem t) i entry) }

def fillPage (s : State) (t : ℕ) (entries : Fin 512 → ℕ) : State :=
  { s with mem := Function.update s.mem t entries }

def zeroTable (s : State) (t : ℕ) : State := fillPage s t fun _ ↦ 0

def allocPage (s : State) : ℕ × State :=
  ((pmmAllocPage s.pmm).1, { s with pmm := (pmmAllocPage s.pmm).2 })

def freePage (s : State) (phys : ℕ) : State :=
  { s with
    pmm := pmmFreePage s.pmm phys
    refreed := if pmmIsPageFree s.pmm phys then s.refreed + 1 else s.refreed }

def tableFromPhys (phys : ℕ) : Option ℕ := if 2 ^ 32 ≤ phys ∨ phys = 0 then none else some phys

def allocTablePage (s : State) : Option ℕ × State :=
  let r := allocPage s
  if r.1 = 0 ∨ 2 ^ 32 ≤ r.1 then (none, if r.1 ≠ 0 then freePage r.2 r.1 else r.2)
  else
    match tableFromPhys r.1 with
    | none => (none, freePage r.2 r.1)
    | some table => (some r.1, zeroTable r.2 table)

end Memory

section Walk

def ensureTable (create : Bool) (t : ℕ) (i : Fin 512) (s : State) : Option ℕ × State :=
  if present (s.mem t i) then (some (s.mem t i), s)
  else if !create then (none, s)
  else
    match allocTablePage s with
    | (none, s) => (none, s)
    | (some phys, s) => (some (phys ||| tableFlags), setEntry s t i (phys ||| tableFlags))

def splitHuge (pd : ℕ) (i : Fin 512) (entry : ℕ) (s : State) : Option ℕ × State :=
  match allocTablePage s with
  | (none, s) => (none, s)
  | (some pt, s) =>
    let s := fillPage s pt fun j ↦ (hugeBase entry + j * 4096) ||| leafFlags entry
    (some (pt ||| tableFlags), setEntry s pd i (pt ||| tableFlags))

def walkDirectory (pd va : ℕ) (create : Bool) (s : State) : Option ℕ × State :=
  match ensureTable create pd (tableIndex 2 va) s with
  | (none, s) => (none, s)
  | (some entry, s) =>
    if huge entry then
      if !create then (none, s)
      else
        match splitHuge pd (tableIndex 2 va) entry s with
        | (none, s) => (none, s)
        | (some entry, s) => (tableFromPhys (tableAddr entry), s)
    else (tableFromPhys (tableAddr entry), s)

/-- The page table that maps an address, and the state after tables have been made. -/
def walkCreateRoot (root va : ℕ) (create : Bool) (s : State) : Option ℕ × State :=
  match tableFromPhys root with
  | none => (none, s)
  | some pml4 =>
    match ensureTable create pml4 (tableIndex 4 va) s with
    | (none, s) => (none, s)
    | (some entry, s) =>
      match tableFromPhys (tableAddr entry) with
      | none => (none, s)
      | some pdpt =>
        match ensureTable create pdpt (tableIndex 3 va) s with
        | (none, s) => (none, s)
        | (some entry, s) =>
          if huge entry then (none, s)
          else
            match tableFromPhys (tableAddr entry) with
            | none => (none, s)
            | some pd => walkDirectory pd va create s

/-- 0 for a new mapping, 1 for one that is there already, -1 for a failure. -/
def mapPageRoot (root va pa flags : ℕ) (s : State) : ℤ × State :=
  if va % 4096 ≠ 0 ∨ pa % 4096 ≠ 0 then (-1, s)
  else
    match walkCreateRoot root va true s with
    | (none, s) => (-1, s)
    | (some pt, s) =>
      if present (s.mem pt (tableIndex 1 va)) then (1, s)
      else (0, setEntry s pt (tableIndex 1 va) (tableAddr pa ||| flags ||| 1))

def unmapPageRoot (root va : ℕ) (s : State) : ℤ × State :=
  if va % 4096 ≠ 0 then (0, s)
  else
    match walkCreateRoot root va false s with
    | (none, s) => (0, s)
    | (some pt, s) =>
      if !present (s.mem pt (tableIndex 1 va)) then (0, s)
      else (1, setEntry s pt (tableIndex 1 va) 0)

def virtToPhysRoot (root va : ℕ) (s : State) : ℕ :=
  match tableFromPhys root with
  | none => 0
  | some pml4 =>
    let entry := s.mem pml4 (tableIndex 4 va)
    if !present entry then 0
    else
      match tableFromPhys (tableAddr entry) with
      | none => 0
      | some pdpt =>
        let entry := s.mem pdpt (tableIndex 3 va)
        if !present entry then 0
        else if huge entry then gigaBase entry + va % 2 ^ 30
        else
          match tableFromPhys (tableAddr entry) with
          | none => 0
          | some pd =>
            let entry := s.mem pd (tableIndex 2 va)
            if !present entry then 0
            else if huge entry then hugeBase entry + va % 2 ^ 21
            else
              match tableFromPhys (tableAddr entry) with
              | none => 0
              | some pt =>
                let entry := s.mem pt (tableIndex 1 va)
                if !present entry then 0 else tableAddr entry + va % 4096

end Walk

section Spaces

/-- The loop of `clone_table` over the entries of table `src`; `clone` copies a table of the next
level. -/
def cloneEntries (clone : ℕ → State → Option ℕ × State) (level src dst : ℕ) :
    List (Fin 512) → State → Bool × State
  | [], s => (true, s)
  | i :: is, s =>
    let e := s.mem src i
    if !present e then cloneEntries clone level src dst is s
    else if (level = 2 ∧ huge e) ∨ level = 1 then
      cloneEntries clone level src dst is (setEntry s dst i e)
    else
      match clone (tableAddr e) s with
      | (none, s) => (false, freePage s dst)
      | (some c, s) => cloneEntries clone level src dst is (setEntry s dst i (c ||| e % 4096))

/-- The copy of a table of the given level and of the tables below it, which are none at level 1. -/
def cloneTable : ℕ → ℕ → State → Option ℕ × State
  | 0, _, s => (none, s)
  | level + 1, src, s =>
    match tableFromPhys src with
    | none => (none, s)
    | some src =>
      match allocTablePage s with
      | (none, s) => (none, s)
      | (some phys, s) =>
        match tableFromPhys phys with
        | none => (none, freePage s phys)
        | some dst =>
          let r := cloneEntries (cloneTable level) (level + 1) src dst (List.finRange 512) s
          (if r.1 then some phys else none, r.2)

/-- The loop of `destroy_table` over the entries of a table. -/
def destroyEntries (destroy : ℕ → State → State) (level t : ℕ) : List (Fin 512) → State → State
  | [], s => s
  | i :: is, s =>
    let e := s.mem t i
    if !present e ∨ (level = 2 ∧ huge e) then destroyEntries destroy level t is s
    else destroyEntries destroy level t is (destroy (tableAddr e) s)

def destroyTable : ℕ → ℕ → State → State
  | 0, _, s => s
  | level + 1, phys, s =>
    match tableFromPhys phys with
    | none => s
    | some t =>
      let s := if 1 < level + 1 then
        destroyEntries (destroyTable level) (level + 1) t (List.finRange 512) s else s
      freePage s phys

variable (pml4 : ℕ)

def pagingCreateAddressSpace (s : State) : ℕ × State :=
  match cloneTable 4 pml4 s with
  | (none, s) => (0, s)
  | (some root, s) => (root, s)

def pagingDestroyAddressSpace (cr3 : ℕ) (s : State) : State :=
  if cr3 = 0 ∨ cr3 = pml4 then s else destroyTable 4 cr3 s

def pagingMapPageInCr3 (cr3 va pa flags : ℕ) (s : State) : ℤ × State := mapPageRoot cr3 va pa flags s

def pagingUnmapPageInCr3 (cr3 va : ℕ) (s : State) : ℤ × State := unmapPageRoot cr3 va s

def pagingVirtToPhysInCr3 (cr3 va : ℕ) (s : State) : ℕ := virtToPhysRoot cr3 va s

def pagingVirtToPhys (va : ℕ) (s : State) : ℕ := virtToPhysRoot pml4 va s

end Spaces

end NexusOS.Mm.Paging
