import NexusOS.Fs.Mount

namespace NexusOS.Fs.Fat32

/-- A buffer; only the bytes that a transfer fills are ever read. -/
abbrev Buf := ℕ → UInt8

/-- A disk of sectors of 512 bytes with the outcome of a transfer of `count` sectors from `lba` on,
and the writes issued so far, the last one first. -/
structure Disk where
  bytes : ℕ → UInt8
  readable : ℕ → ℕ → Bool
  writable : ℕ → ℕ → Bool
  writes : List (ℕ × ℕ × Buf)

def ahciReadSectors (d : Disk) (lba count : ℕ) : Option Buf :=
  if 0 < count ∧ count ≤ 128 ∧ d.readable lba count then some fun i ↦ d.bytes (512 * lba + i)
  else none

def stored (bytes : ℕ → UInt8) (lba count : ℕ) (buf : Buf) : ℕ → UInt8 := fun i ↦
  if 512 * lba ≤ i ∧ i < 512 * (lba + count) then buf (i - 512 * lba) else bytes i

def ahciWriteSectors (d : Disk) (lba count : ℕ) (buf : Buf) : Bool × Disk :=
  let d := { d with writes := (lba, count, buf) :: d.writes }
  if 0 < count ∧ count ≤ 128 ∧ d.writable lba count then
    (true, { d with bytes := stored d.bytes lba count buf })
  else (false, d)

def get16 (buf : Buf) (off : ℕ) : ℕ := (buf off).toNat + 256 * (buf (off + 1)).toNat

def get32 (buf : Buf) (off : ℕ) : ℕ :=
  (buf off).toNat + 256 * (buf (off + 1)).toNat + 65536 * (buf (off + 2)).toNat +
    16777216 * (buf (off + 3)).toNat

def put32 (buf : Buf) (off value : ℕ) : Buf := fun i ↦
  if off ≤ i ∧ i < off + 4 then UInt8.ofNat (value / 256 ^ (i - off)) else buf i

theorem get16_lt (buf : Buf) (off : ℕ) : get16 buf off < 2 ^ 16 := by
  have h0 := (buf off).toNat_lt
  have h1 := (buf (off + 1)).toNat_lt
  unfold get16
  omega

theorem get32_lt (buf : Buf) (off : ℕ) : get32 buf off < 2 ^ 32 := by
  have h0 := (buf off).toNat_lt
  have h1 := (buf (off + 1)).toNat_lt
  have h2 := (buf (off + 2)).toNat_lt
  have h3 := (buf (off + 3)).toNat_lt
  unfold get32
  omega

theorem get32_put32 (buf : Buf) (off value : ℕ) :
    get32 (put32 buf off value) off = value % 2 ^ 32 := by
  simp only [get32, put32]
  rw [if_pos (by omega), if_pos (by omega), if_pos (by omega), if_pos (by omega)]
  simp only [UInt8.toNat_ofNat']
  have h1 : off + 1 - off = 1 := by omega
  have h2 : off + 2 - off = 2 := by omega
  have h3 : off + 3 - off = 3 := by omega
  rw [h1, h2, h3, Nat.sub_self]
  norm_num
  omega

theorem get32_put32_of_ne {buf : Buf} {off off' value : ℕ} (h : off' + 4 ≤ off ∨ off + 4 ≤ off') :
    get32 (put32 buf off value) off' = get32 buf off' := by
  simp only [get32, put32]
  rw [if_neg (by omega), if_neg (by omega), if_neg (by omega), if_neg (by omega)]

theorem get32_congr {buf buf' : Buf} {off off' : ℕ}
    (h : ∀ j < 4, buf (off + j) = buf' (off' + j)) : get32 buf off = get32 buf' off' := by
  have h0 := h 0 (by omega)
  have h1 := h 1 (by omega)
  have h2 := h 2 (by omega)
  have h3 := h 3 (by omega)
  simp only [Nat.add_zero] at h0
  simp only [get32, h0, h1, h2, h3]

end NexusOS.Fs.Fat32
