import NexusOS.Tools.Python

namespace NexusOS.Tools.CreateIso

open Lib

def fatSector : ℕ := 512

def espMib : ℕ := 16

def espSectors : ℕ := espMib * 1024 * 1024 / fatSector

section Fat16

def reserved : ℕ := 1

def rootEntries : ℕ := 512

def rootSecs : ℕ := (rootEntries * 32 + fatSector - 1) / fatSector

def fatSecs : ℕ := 128

def dataStart : ℕ := reserved + 2 * fatSecs + rootSecs

def clusters : ℕ := espSectors - dataStart

def fatOff : ℕ := reserved * fatSector

def rootOff : ℕ := (reserved + 2 * fatSecs) * fatSector

def bootSector (b : List UInt8) : Except Stop (List UInt8) := do
  let b := lay b [(0, [0xEB, 0x3C, 0x90]), (3, ascii "NEXUSOS ")]
  let b ← put16 b 11 512
  let b := overwrite b 13 [1]
  let b ← put16 b 14 reserved
  let b := overwrite b 16 [2]
  let b ← put16 b 17 rootEntries
  let b ← put16 b 19 espSectors
  let b := overwrite b 21 [0xF8]
  let b ← put16 b 22 fatSecs
  let b ← put16 b 24 63
  let b ← put16 b 26 255
  let b ← put32 b 28 0
  let b ← put32 b 32 0
  let b := lay b [(36, [0]), (38, [0x29])]
  let b ← put32 b 39 0x4E58534F
  return lay b [(43, ascii "NEXUS EFI  "), (54, ascii "FAT16   "), (510, [0x55, 0xAA])]

def need (data : List UInt8) : ℕ := max 1 ((data.length + fatSector - 1) / fatSector)

/-- The entry of cluster `c` in the first FAT and in the second. -/
def fatPieces (c v : ℕ) : List (ℕ × List UInt8) :=
  [(fatOff + c * 2, toLe 2 (v % 2 ^ 16)), (fatOff + fatSecs * fatSector + c * 2, toLe 2 (v % 2 ^ 16))]

def fatSet (img : List UInt8) (c v : ℕ) : Except Stop (List UInt8) :=
  (fatPieces c v).foldlM (fun img p ↦ packInto img p.1 p.2) img

def links (chain : List ℕ) : List (ℕ × ℕ) := chain.zip chain.tail ++ [(chain.getLastD 0, 0xFFFF)]

/-- The FAT entries of the two directories and of the two files. -/
def fatSets (bootChain kernelChain : List ℕ) : List (ℕ × ℕ) :=
  [(2, 0xFFFF), (3, 0xFFFF)] ++ links bootChain ++ links kernelChain

/-- The name of a directory entry: what stands before the first dot and what stands after it. -/
def short (name : List UInt8) : List UInt8 :=
  ljust (((upper name).takeWhile (· ≠ 46)).take 8) 8 32 ++
    ljust (((upper name).dropWhile (· ≠ 46)).tail.take 3) 3 32

def entry (name : List UInt8) (attr : UInt8) (cluster size : ℕ) : Except Stop (List UInt8) := do
  let e := lay (List.replicate 32 0) [(0, short name), (11, [attr])]
  let e ← put16 e 26 cluster
  put32 e 28 size

def clusterOff (c : ℕ) : ℕ := (dataStart + (c - 2)) * fatSector

def dirPiece (cluster : ℕ) (entries : List (List UInt8)) : ℕ × List UInt8 :=
  (clusterOff cluster, (entries.flatten ++ List.replicate fatSector 0).take fatSector)

def chunks (chain : List ℕ) (data : List UInt8) : List (ℕ × List UInt8) :=
  chain.mapIdx fun i c ↦ (clusterOff c, slice data (i * fatSector) fatSector)

/-- The directories `EFI` and `EFI/BOOT` and the root directory, which has an area of its own. -/
def directories (bootloader kernel : List UInt8) : Except Stop (List (ℕ × List UInt8)) := do
  let dot ← entry (ascii ".") 0x10 2 0
  let dotdot ← entry (ascii "..") 0x10 0 0
  let boot ← entry (ascii "BOOT") 0x10 3 0
  let dot' ← entry (ascii ".") 0x10 3 0
  let dotdot' ← entry (ascii "..") 0x10 2 0
  let bootx64 ← entry (ascii "BOOTX64.EFI") 0x20 4 bootloader.length
  let label ← entry (ascii "NEXUSOS") 0x08 0 0
  let efi ← entry (ascii "EFI") 0x10 2 0
  let elf ← entry (ascii "KERNEL.ELF") 0x20 (4 + need bootloader) kernel.length
  return [dirPiece 2 [dot, dotdot, boot], dirPiece 3 [dot', dotdot', bootx64],
    (rootOff, label ++ efi ++ elf ++ List.replicate 32 0)]

def fat16Image (bootloader kernel : List UInt8) : Except Stop (List UInt8) :=
  if 65525 ≤ clusters then .error (.die "ESP is too large for this FAT16 layout")
  else do
    let img := List.replicate (espSectors * fatSector) 0
    -- The slice of a `bytearray` is a copy: the boot sector never gets into the image.
    let _ ← bootSector (img.take fatSector)
    let img ← [fatOff, fatOff + fatSecs * fatSector].foldlM
      (fun img off ↦ packInto img off (toLe 2 0xFFF8 ++ toLe 2 0xFFFF)) img
    let bootChain := List.range' 4 (need bootloader)
    let kernelChain := List.range' (4 + need bootloader) (need kernel)
    let img ← (fatSets bootChain kernelChain).foldlM (fun img p ↦ fatSet img p.1 p.2) img
    let dirs ← directories bootloader kernel
    return lay img (dirs ++ (chunks bootChain bootloader ++ chunks kernelChain kernel))

end Fat16

end NexusOS.Tools.CreateIso
