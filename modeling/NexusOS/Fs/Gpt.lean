import NexusOS.Fs.Fat32.Disk
import NexusOS.Lib.Bytes

namespace NexusOS.Fs.Gpt

open Lib Fat32

section Scan

/-- `nexus_gpt_partition_t`, with the text of the type and the name up to their terminators. -/
structure Partition where
  index : ℕ
  firstLba : ℕ
  lastLba : ℕ
  attributes : ℕ
  typeGuid : Str
  name : Str
  deriving DecidableEq

def maxPartitions : ℕ := 16

def hex (v : ℕ) : UInt8 := if v < 10 then UInt8.ofNat (48 + v) else UInt8.ofNat (65 + v - 10)

def hexByte (b : UInt8) : Str := [hex (b.toNat / 16), hex (b.toNat % 16)]

def guidOrder : List ℕ := [3, 2, 1, 0, 5, 4, 7, 6, 8, 9, 10, 11, 12, 13, 14, 15]

def guidToText (g : Buf) : Str := guidOrder.flatMap fun i ↦ hexByte (g i)

def guidZero (g : Buf) : Bool := (List.range 16).all fun i ↦ g i == 0

def le64 (p : Buf) (off : ℕ) : ℕ := ofLe (window p off 8)

/-- The rounds of the loop over the name: position `i` moves by 2 up to 36, and `n` characters have
been stored. -/
def decodeNameLoop (p : Buf) (max : ℕ) : ℕ → ℕ → ℕ → Str
  | 0, _, _ => []
  | rounds + 1, i, n =>
    if n < max - 1 then
      let c := get16 p i
      if c = 0 then []
      else (if c < 128 then UInt8.ofNat c else 63) :: decodeNameLoop p max rounds (i + 2) (n + 1)
    else []

def decodeName (p : Buf) (max : ℕ) : Str := decodeNameLoop p max 18 0 0

def readEntry (e : Buf) (i : ℕ) : Partition where
  index := i + 1
  firstLba := le64 e 32
  lastLba := le64 e 40
  attributes := le64 e 48
  typeGuid := guidToText e
  name := decodeName (fun j ↦ e (56 + j)) 40

/-- The loop over the entries from number `i` on, with the partitions found so far. A read that fails
ends it. -/
def scanLoop (d : Disk) (entriesLba entrySize : ℕ) : ℕ → ℕ → List Partition → List Partition
  | 0, _, parts => parts
  | rounds + 1, i, parts =>
    if parts.length < maxPartitions then
      let lba := (entriesLba + i * entrySize / 512) % 2 ^ 64
      let off := i * entrySize % 512
      match ahciReadSectors d lba (if 512 < off + 128 then 2 else 1) with
      | none => parts
      | some sector =>
        let e : Buf := fun j ↦ sector (off + j)
        if guidZero e then scanLoop d entriesLba entrySize rounds (i + 1) parts
        else scanLoop d entriesLba entrySize rounds (i + 1) (parts ++ [readEntry e i])
    else parts

/-- `EFI PART`, little-endian. -/
def signature : ℕ := 0x5452415020494645

/-- The partitions in `g_parts`; the call returns their number. -/
def gptScan (ready : Bool) (d : Disk) : List Partition :=
  if !ready then []
  else
    match ahciReadSectors d 1 1 with
    | none => []
    | some sector =>
      let headerSize := get32 sector 12
      let entryCount := get32 sector 80
      let entrySize := get32 sector 84
      if le64 sector 0 ≠ signature ∨ headerSize < 92 ∨ 512 < headerSize then []
      else if entryCount = 0 ∨ entrySize < 128 ∨ 512 < entrySize then []
      else scanLoop d (le64 sector 72) entrySize entryCount 0 []

end Scan

end NexusOS.Fs.Gpt
