import Mathlib
import NexusOS.Lib.Bytes

namespace NexusOS.Drivers.Nvme

open Lib

section Source

def pageSize : ℕ := 4096
def maxSectors : ℕ := 128
def ioRead : ℕ := 0x02

abbrev Cmd := Fin 16 → ℕ

/-- What a read uses besides its queue: `mem` are the 64-bit words of memory, and `prpList` is the
address of `g_prp_list`. -/
structure Device where
  ready : Bool
  nsSectors : ℕ
  prpList : ℕ
  mem : ℕ → ℕ

def pageBase (a : ℕ) : ℕ := a / pageSize * pageSize

def readPages (first count : ℕ) : ℕ :=
  let last := (first + count * 512 + (2 ^ 64 - 1)) % 2 ^ 64
  (((pageBase last + 2 ^ 64 - pageBase first) % 2 ^ 64 / pageSize) % 2 ^ 32 + 1) % 2 ^ 32

def fillPrpList (list firstPage n : ℕ) (mem : ℕ → ℕ) : ℕ → ℕ :=
  (List.range n).foldl (fun mem i ↦
    Function.update mem (list + 8 * i) ((firstPage + (i + 1) * pageSize) % 2 ^ 64)) mem

def secondPrp (dev : Device) (firstPage pages : ℕ) : Option (ℕ × (ℕ → ℕ)) :=
  if pages = 1 then some (0, dev.mem)
  else if pages = 2 then some ((firstPage + pageSize) % 2 ^ 64, dev.mem)
  else if 512 < pages - 1 then none
  else some (dev.prpList, fillPrpList dev.prpList firstPage (pages - 1) dev.mem)

/-- The command that `io_submit_read` submits, and the memory then. -/
def readCommand (dev : Device) (cid lba count first : ℕ) : Option (Cmd × (ℕ → ℕ)) :=
  let pages := readPages first count
  if pages = 0 ∨ 513 < pages then none
  else (secondPrp dev (pageBase first) pages).map fun (second, mem) ↦
    (![ioRead + cid * 2 ^ 16, 1, 0, 0, 0, 0,
      first % 2 ^ 32, first / 2 ^ 32, second % 2 ^ 32, second / 2 ^ 32,
      lba % 2 ^ 32, lba / 2 ^ 32, (count - 1) % 2 ^ 16, 0, 0, 0], mem)

def ReadAccepted (dev : Device) (lba count buf : ℕ) : Prop :=
  ¬ (dev.ready = false ∨ buf = 0 ∨ count = 0 ∨ maxSectors < count) ∧
    ¬ (dev.nsSectors ≤ lba ∨ dev.nsSectors - lba < count) ∧
    ¬ (buf + count * 512) % 2 ^ 64 < buf

instance (dev : Device) (lba count buf : ℕ) : Decidable (ReadAccepted dev lba count buf) :=
  inferInstanceAs (Decidable (_ ∧ _))

end Source

section Controller

def Cmd.prp1 (cmd : Cmd) : ℕ := cmd 6 + cmd 7 * 2 ^ 32

def Cmd.prp2 (cmd : Cmd) : ℕ := cmd 8 + cmd 9 * 2 ^ 32

def Cmd.startingLba (cmd : Cmd) : ℕ := cmd 10 + cmd 11 * 2 ^ 32

def Cmd.blocks (cmd : Cmd) : ℕ := cmd 12 % 2 ^ 16 + 1

def Cmd.withCid (cmd : Cmd) (cid : ℕ) : Cmd :=
  Function.update cmd 0 (cmd 0 % 2 ^ 16 + cid * 2 ^ 16)

def Cmd.cid (cmd : Cmd) : ℕ := cmd 0 / 2 ^ 16

/-- The addresses of the pages of a list, for the bytes that remain; an entry with an offset is an
error. -/
def listBytes (mem : ℕ → ℕ) : ℕ → ℕ → ℕ → Option (List ℕ)
  | 0, _, _ => some []
  | n + 1, entry, rest =>
    if mem entry % pageSize ≠ 0 then none
    else (listBytes mem n (entry + 8) (rest - pageSize)).map
      (window id (mem entry) (min rest pageSize) ++ ·)

def firstBytes (prp1 length : ℕ) : ℕ := min length (pageSize - prp1 % pageSize)

def moreEntries (prp1 length : ℕ) : ℕ := (length - firstBytes prp1 length + pageSize - 1) / pageSize

/-- The addresses of a transfer in order: the first entry may have an offset; the second one is a
page if that completes the transfer, and else points to a list that ends with its page. -/
def prpBytes (mem : ℕ → ℕ) (prp1 prp2 length : ℕ) : Option (List ℕ) :=
  let head := window id prp1 (firstBytes prp1 length)
  let rest := length - firstBytes prp1 length
  if prp1 % 4 ≠ 0 then none
  else if rest = 0 then some head
  else if rest ≤ pageSize then
    if prp2 % pageSize ≠ 0 then none else some (head ++ window id prp2 rest)
  else if prp2 % 8 ≠ 0 ∨ pageSize < prp2 % pageSize + 8 * moreEntries prp1 length then none
  else (listBytes mem (moreEntries prp1 length) prp2 rest).map (head ++ ·)

end Controller

section Pages

variable {first count : ℕ}

theorem readPages_eq (hpos : 0 < count) (hmax : count ≤ maxSectors)
    (hwrap : first + count * 512 < 2 ^ 64) :
    readPages first count = moreEntries first (512 * count) + 1 := by
  unfold readPages moreEntries firstBytes pageBase pageSize
  unfold maxSectors at hmax
  have hlast : (first + count * 512 + (2 ^ 64 - 1)) % 2 ^ 64 = first + count * 512 - 1 := by omega
  rw [hlast]
  dsimp only
  omega

theorem fillPrpList_apply {list firstPage n i : ℕ} (mem : ℕ → ℕ) (hi : i < n) :
    fillPrpList list firstPage n mem (list + 8 * i) =
      (firstPage + (i + 1) * pageSize) % 2 ^ 64 := by
  induction n with
  | zero => exact absurd hi (Nat.not_lt_zero i)
  | succ n ih =>
    rw [fillPrpList, List.range_succ, List.foldl_append, List.foldl_cons, List.foldl_nil]
    by_cases hin : i = n
    · rw [hin, Function.update_self]
    rw [Function.update_of_ne (by omega)]
    exact ih (by omega)

theorem listBytes_consecutive {mem : ℕ → ℕ} {n entry page rest : ℕ} (hpage : page % pageSize = 0)
    (hmem : ∀ i < n, mem (entry + 8 * i) = page + i * pageSize) (hrest : rest ≤ n * pageSize) :
    listBytes mem n entry rest = some (window id page rest) := by
  induction n generalizing entry page rest with
  | zero =>
    obtain rfl : rest = 0 := by omega
    rfl
  | succ n ih =>
    have hfirst : mem entry = page := by simpa using hmem 0 (Nat.zero_lt_succ n)
    have hnext : ∀ i < n, mem (entry + 8 + 8 * i) = page + pageSize + i * pageSize := by
      intro i hi
      have := hmem (i + 1) (by omega)
      rw [show entry + 8 + 8 * i = entry + 8 * (i + 1) by ring, this]
      ring
    have hbound : rest - pageSize ≤ n * pageSize := by
      rw [Nat.succ_mul] at hrest
      omega
    rw [listBytes, hfirst, if_neg (not_not.2 hpage),
      ih (by rw [Nat.add_mod_right]; exact hpage) hnext hbound, Option.map_some]
    refine congrArg some ?_
    by_cases hle : rest ≤ pageSize
    · have hnil : window id (page + pageSize) 0 = [] := rfl
      rw [min_eq_left hle, Nat.sub_eq_zero_of_le hle, hnil, List.append_nil]
    · rw [min_eq_right (by omega), ← window_add, Nat.add_sub_cancel' (by omega)]

end Pages

section Results

variable {dev : Device} {cid lba count buf : ℕ}

theorem firstBytes_le (prp1 length : ℕ) : firstBytes prp1 length ≤ length := Nat.min_le_left _ _

theorem next_page (hmore : 0 < 512 * count - firstBytes buf (512 * count)) :
    buf + firstBytes buf (512 * count) = pageBase buf + pageSize := by
  unfold firstBytes at *
  unfold pageBase pageSize at *
  omega

theorem window_split (buf length : ℕ) :
    window id buf (firstBytes buf length) ++
        window id (buf + firstBytes buf length) (length - firstBytes buf length) =
      window id buf length := by
  rw [← window_add, Nat.add_sub_cancel' (firstBytes_le buf length)]

theorem prpBytes_buffer {second : ℕ} {mem : ℕ → ℕ} (hwrap : buf + count * 512 < 2 ^ 64)
    (halign : buf % 4 = 0) (hlist : dev.prpList % pageSize = 0)
    (hsecond : secondPrp dev (pageBase buf) (moreEntries buf (512 * count) + 1) =
      some (second, mem)) :
    prpBytes mem buf second (512 * count) = some (window id buf (512 * count)) := by
  have hsplit := window_split buf (512 * count)
  have hnext := @next_page count buf
  have hbytes := firstBytes_le buf (512 * count)
  unfold prpBytes
  simp only [if_neg (not_not.2 halign)]
  set head := firstBytes buf (512 * count) with hhead
  set rest := 512 * count - head with hrest
  have hmore : moreEntries buf (512 * count) = (rest + pageSize - 1) / pageSize := rfl
  rw [hmore] at hsecond ⊢
  have hbase : pageBase buf % pageSize = 0 := Nat.mul_mod_left _ _
  have hpage : (pageBase buf + pageSize) % pageSize = 0 := by rw [Nat.add_mod_right, hbase]
  by_cases hzero : rest = 0
  · rw [if_pos hzero]
    rw [hzero] at hsplit
    exact congrArg some ((List.append_nil _).symm.trans hsplit)
  rw [if_neg hzero]
  rw [hnext (by omega)] at hsplit
  by_cases htwo : rest ≤ pageSize
  · have hone : (rest + pageSize - 1) / pageSize = 1 := by
      unfold pageSize at *
      omega
    rw [if_pos htwo]
    rw [hone, secondPrp, if_neg (by decide), if_pos rfl] at hsecond
    have hlt : pageBase buf + pageSize < 2 ^ 64 := by
      have := hnext (by omega)
      omega
    obtain ⟨rfl, -⟩ := Prod.mk.inj (Option.some.inj hsecond)
    rw [Nat.mod_eq_of_lt hlt, if_neg (not_not.2 hpage), hsplit]
  rw [if_neg htwo]
  set n := (rest + pageSize - 1) / pageSize with hn
  have hn₂ : 2 ≤ n := by
    unfold pageSize at *
    omega
  have hcover : rest ≤ n * pageSize := by
    unfold pageSize at *
    omega
  have htight : (n - 1) * pageSize < rest := by
    unfold pageSize at *
    omega
  rw [secondPrp, if_neg (by omega), if_neg (by omega)] at hsecond
  split_ifs at hsecond with h512
  obtain ⟨rfl, rfl⟩ := Prod.mk.inj (Option.some.inj hsecond)
  have hvalid : ¬ (dev.prpList % 8 ≠ 0 ∨ pageSize < dev.prpList % pageSize + 8 * n) := by
    unfold pageSize at *
    omega
  have hmem : ∀ i < n, fillPrpList dev.prpList (pageBase buf) (n + 1 - 1) dev.mem
      (dev.prpList + 8 * i) = pageBase buf + pageSize + i * pageSize := by
    intro i hi
    have hlt : pageBase buf + (i + 1) * pageSize < 2 ^ 64 := by
      have := hnext (by omega)
      have hi' : i * pageSize ≤ (n - 1) * pageSize := Nat.mul_le_mul_right _ (by omega)
      rw [Nat.succ_mul]
      omega
    rw [Nat.add_sub_cancel, fillPrpList_apply _ hi, Nat.mod_eq_of_lt hlt]
    ring
  rw [if_neg hvalid, listBytes_consecutive hpage hmem hcover, Option.map_some, hsplit]

theorem readCommand_eq_some (hpos : 0 < count) (hmax : count ≤ maxSectors)
    (hwrap : buf + count * 512 < 2 ^ 64) :
    moreEntries buf (512 * count) ≤ 512 ∧ ∃ second mem,
      secondPrp dev (pageBase buf) (moreEntries buf (512 * count) + 1) = some (second, mem) ∧
      readCommand dev cid lba count buf = some
        (![ioRead + cid * 2 ^ 16, 1, 0, 0, 0, 0,
          buf % 2 ^ 32, buf / 2 ^ 32, second % 2 ^ 32, second / 2 ^ 32,
          lba % 2 ^ 32, lba / 2 ^ 32, (count - 1) % 2 ^ 16, 0, 0, 0], mem) := by
  have hmore : moreEntries buf (512 * count) ≤ 16 := by
    unfold moreEntries firstBytes pageSize
    unfold maxSectors at hmax
    omega
  have hpages := readPages_eq hpos hmax hwrap
  obtain ⟨⟨second, mem⟩, hsecond⟩ : ∃ r,
      secondPrp dev (pageBase buf) (moreEntries buf (512 * count) + 1) = some r := by
    unfold secondPrp
    split_ifs with h₁ h₂ h₃
    · exact ⟨_, rfl⟩
    · exact ⟨_, rfl⟩
    · omega
    · exact ⟨_, rfl⟩
  refine ⟨by omega, second, mem, hsecond, ?_⟩
  unfold readCommand
  simp only [hpages]
  rw [if_neg (by omega), hsecond]
  rfl

/-- The command of an accepted read describes the caller's buffer and the blocks it asks for. -/
theorem read_command_describes_buffer (dev : Device) (cid lba count buf : ℕ)
    (haccepted : ReadAccepted dev lba count buf) (hbuf : buf < 2 ^ 64) (halign : buf % 4 = 0)
    (hlist : dev.prpList % pageSize = 0) :
    ∃ cmd mem, readCommand dev cid lba count buf = some (cmd, mem) ∧
      prpBytes mem cmd.prp1 cmd.prp2 (512 * count) = some (window id buf (512 * count)) ∧
      moreEntries buf (512 * count) ≤ 512 ∧ cmd.startingLba = lba ∧ cmd.blocks = count := by
  obtain ⟨hargs, -, hnowrap⟩ := haccepted
  have hcount : 0 < count ∧ count ≤ maxSectors := by omega
  have hmax : count ≤ 128 := hcount.2
  have hwrap : buf + count * 512 < 2 ^ 64 := by omega
  obtain ⟨hmore, second, mem, hsecond, hcmd⟩ :=
    @readCommand_eq_some dev cid lba count buf hcount.1 hcount.2 hwrap
  refine ⟨_, mem, hcmd, ?_, hmore, ?_, ?_⟩
  · have hprp1 (a : ℕ) : a % 2 ^ 32 + a / 2 ^ 32 * 2 ^ 32 = a := Nat.mod_add_div' a (2 ^ 32)
    show prpBytes mem (buf % 2 ^ 32 + buf / 2 ^ 32 * 2 ^ 32)
      (second % 2 ^ 32 + second / 2 ^ 32 * 2 ^ 32) (512 * count) = _
    rw [hprp1, hprp1]
    exact prpBytes_buffer hwrap halign hlist hsecond
  · exact Nat.mod_add_div' lba (2 ^ 32)
  · show (count - 1) % 2 ^ 16 % 2 ^ 16 + 1 = count
    omega

def sampleDevice : Device := ⟨true, 4096, 0x100000, fun _ ↦ 0⟩

theorem read_command_describes_buffer_sample :
    ∃ cmd mem, readCommand sampleDevice 5 7 128 0x200E04 = some (cmd, mem) ∧
      prpBytes mem cmd.prp1 cmd.prp2 (512 * 128) = some (window id 0x200E04 (512 * 128)) ∧
      moreEntries 0x200E04 (512 * 128) ≤ 512 ∧ cmd.startingLba = 7 ∧ cmd.blocks = 128 :=
  read_command_describes_buffer sampleDevice 5 7 128 0x200E04 (by decide) (by decide) (by decide)
    (by decide)

end Results

end NexusOS.Drivers.Nvme
