import NexusOS.Lib.Carry

namespace NexusOS.Core.Network

open Lib

section Source

def be16 (a b : UInt8) : ℕ := a.toNat * 2 ^ 8 + b.toNat

/-- The loop over the words and the odd last byte, from the value of `sum`. -/
def sumWords (sum : ℕ) : List UInt8 → ℕ
  | a :: b :: p => sumWords ((sum + be16 a b) % 2 ^ 32) p
  | [a] => (sum + a.toNat * 2 ^ 8) % 2 ^ 32
  | [] => sum

/-- `while (sum >> 16) sum = (sum & 0xffffU) + (sum >> 16)`. -/
def foldCarries (sum : ℕ) : ℕ :=
  if sum / 2 ^ 16 = 0 then sum else foldCarries (sum % 2 ^ 16 + sum / 2 ^ 16)
termination_by sum
decreasing_by omega

def nexusNetworkChecksum (data : List UInt8) : ℕ :=
  (2 ^ 32 - 1 - foldCarries (sumWords 0 data)) % 2 ^ 16

end Source

section Specification

/-- The big-endian 16-bit words, the last one padded with a zero byte. -/
def words : List UInt8 → List ℕ
  | a :: b :: p => be16 a b :: words p
  | [a] => [be16 a 0]
  | [] => []

/-- The complement of the ones' complement sum of the words. -/
def internetChecksum (data : List UInt8) : ℕ :=
  2 ^ 16 - 1 - (words data).foldl (carryAdd (2 ^ 16 - 1)) 0

variable {data : List UInt8} {w s : ℕ}

theorem be16_le (a b : UInt8) : be16 a b ≤ 2 ^ 16 - 1 := by
  have := a.toNat_lt
  have := b.toNat_lt
  unfold be16
  omega

theorem words_le (data : List UInt8) (w : ℕ) (hw : w ∈ words data) : w ≤ 2 ^ 16 - 1 := by
  induction data using words.induct with
  | case1 a b p ih =>
    rcases List.mem_cons.1 hw with rfl | hw
    · exact be16_le a b
    · exact ih hw
  | case2 a => exact List.eq_of_mem_singleton hw ▸ be16_le a 0
  | case3 => exact absurd hw List.not_mem_nil

theorem two_mul_length_words_le (data : List UInt8) :
    2 * (words data).length ≤ data.length + 1 := by
  induction data using words.induct with
  | case1 a b p ih =>
    simp only [words, List.length_cons]
    omega
  | case2 a => exact le_refl 2
  | case3 => decide

theorem sum_words_lt (h : data.length < 2 ^ 32) : (words data).sum < 2 ^ 47 := by
  have hlength := two_mul_length_words_le data
  have hsum := List.sum_le_card_nsmul (words data) (2 ^ 16 - 1) (words_le data)
  rw [smul_eq_mul] at hsum
  omega

theorem sumWords_eq (sum : ℕ) (hsum : sum < 2 ^ 32) (data : List UInt8) :
    sumWords sum data = (sum + (words data).sum) % 2 ^ 32 := by
  induction sum, data using sumWords.induct with
  | case1 sum a b p ih =>
    rw [sumWords, ih (Nat.mod_lt _ (by decide)), words, List.sum_cons, Nat.mod_add_mod, add_assoc]
  | case2 sum a => simp [sumWords, words, be16]
  | case3 sum => rw [sumWords, words, List.sum_nil, Nat.add_zero, Nat.mod_eq_of_lt hsum]

theorem foldCarries_folded (s : ℕ) : Folded (2 ^ 16 - 1) s (foldCarries s) := by
  induction s using foldCarries.induct with
  | case1 s h =>
    rw [foldCarries, if_pos h]
    exact .of_le (by omega)
  | case2 s h ih =>
    rw [foldCarries, if_neg h]
    exact ih.carry

theorem folded_words (data : List UInt8) :
    Folded (2 ^ 16 - 1) (words data).sum ((words data).foldl (carryAdd (2 ^ 16 - 1)) 0) := by
  have h := (Folded.of_le (Nat.zero_le (2 ^ 16 - 1))).foldl (words data) (words_le data)
  rwa [Nat.zero_add] at h

/-- Reducing the sum modulo `2 ^ 32` first loses as many carries as there are multiples of
`2 ^ 32` in it. -/
theorem folded_wrapped_iff {r r' : ℕ} (hs : s < 2 ^ 47) (h : Folded (2 ^ 16 - 1) (s % 2 ^ 32) r)
    (h' : Folded (2 ^ 16 - 1) s r') : r = r' ↔ s < 2 ^ 32 := by
  constructor
  · rintro rfl
    have hmod : s % 2 ^ 32 % (2 ^ 16 - 1) = s % (2 ^ 16 - 1) := h.mod.symm.trans h'.mod
    omega
  intro hlt
  rw [Nat.mod_eq_of_lt hlt] at h
  exact h.unique h'

theorem checksum_eq_iff_sum (h : (words data).sum < 2 ^ 47) :
    nexusNetworkChecksum data = internetChecksum data ↔ (words data).sum < 2 ^ 32 := by
  have hcode := foldCarries_folded (sumWords 0 data)
  rw [sumWords_eq 0 (by decide), Nat.zero_add] at hcode
  have hspec := folded_words data
  rw [nexusNetworkChecksum, internetChecksum, sumWords_eq 0 (by decide), Nat.zero_add,
    ← folded_wrapped_iff h hcode hspec]
  have := hcode.le
  have := hspec.le
  omega

theorem checksum_correct_iff (data : List UInt8) (h : data.length < 2 ^ 32) :
    nexusNetworkChecksum data = internetChecksum data ↔ (words data).sum < 2 ^ 32 :=
  checksum_eq_iff_sum (sum_words_lt h)

theorem checksum_correct_iff_two :
    ([0x45, 0x00] : List UInt8).length < 2 ^ 32 ∧
      (nexusNetworkChecksum [0x45, 0x00] = internetChecksum [0x45, 0x00] ↔
        (words [0x45, 0x00]).sum < 2 ^ 32) :=
  ⟨by decide, checksum_correct_iff _ (by decide)⟩

theorem words_replicate (c : UInt8) (n : ℕ) :
    words (List.replicate (2 * n) c) = List.replicate n (be16 c c) := by
  induction n with
  | zero => rfl
  | succ n ih => rw [Nat.mul_succ, List.replicate_succ, List.replicate_succ, words, ih,
      List.replicate_succ]

/-- 65538 words `0xFFFF` overflow the accumulator once. -/
theorem checksum_long_wrong :
    (List.replicate (2 * 65538) (0xFF : UInt8)).length < 2 ^ 32 ∧
      nexusNetworkChecksum (List.replicate (2 * 65538) 0xFF) ≠
        internetChecksum (List.replicate (2 * 65538) 0xFF) := by
  have hsum : (words (List.replicate (2 * 65538) 0xFF)).sum = 65538 * be16 0xFF 0xFF := by
    rw [words_replicate, List.sum_replicate, smul_eq_mul]
  have hword : be16 0xFF 0xFF = 65535 := by decide
  rw [hword] at hsum
  refine ⟨by rw [List.length_replicate]; omega, fun heq ↦ ?_⟩
  have := (checksum_eq_iff_sum (by omega)).1 heq
  omega

end Specification

section Verification

variable {data p : List UInt8}

theorem sum_words_append (hp : p.length % 2 = 0) (q : List UInt8) :
    (words (p ++ q)).sum = (words p).sum + (words q).sum := by
  induction p using words.induct with
  | case1 a b p ih =>
    rw [List.length_cons, List.length_cons] at hp
    rw [List.cons_append, List.cons_append, words, words, List.sum_cons, List.sum_cons,
      ih (by omega), add_assoc]
  | case2 a => simp at hp
  | case3 => simp [words]

theorem checksum_folded (h : data.length ≤ 131074) : ∃ r,
    Folded (2 ^ 16 - 1) (words data).sum r ∧ nexusNetworkChecksum data = 2 ^ 16 - 1 - r := by
  have hlength := two_mul_length_words_le data
  have hsum := List.sum_le_card_nsmul (words data) (2 ^ 16 - 1) (words_le data)
  rw [smul_eq_mul] at hsum
  have hspec := folded_words data
  exact ⟨_, hspec, (checksum_eq_iff_sum (by omega)).2 (by omega)⟩

/-- The check of a receiver passes just if the word is the checksum that was computed with a zero in
its place, where 0 and 0xFFFF are the same; all zeros never pass. -/
theorem checksum_verifies_iff (p q : List UInt8) (a b : UInt8) (hp : p.length % 2 = 0)
    (h : (p ++ a :: b :: q).length ≤ 131074) :
    nexusNetworkChecksum (p ++ a :: b :: q) = 0 ↔
      be16 a b ≡ nexusNetworkChecksum (p ++ 0 :: 0 :: q) [MOD 65535] ∧
        (words (p ++ a :: b :: q)).sum ≠ 0 := by
  obtain ⟨r, hr, hcheck⟩ := checksum_folded h
  obtain ⟨r', hr', hsent⟩ := checksum_folded (show (p ++ 0 :: 0 :: q).length ≤ 131074 by simpa using h)
  rw [hcheck, hsent]
  rw [sum_words_append hp, words, List.sum_cons] at hr hr' ⊢
  obtain ⟨hle, hmod, hzero⟩ := hr
  obtain ⟨hle', hmod', -⟩ := hr'
  have h0 : be16 0 0 = 0 := rfl
  unfold Nat.ModEq at *
  omega

theorem checksum_verifies_iff_header :
    nexusNetworkChecksum [0x45, 0, 0xBA, 0xFF] = 0 ↔
      be16 0xBA 0xFF ≡ nexusNetworkChecksum [0x45, 0, 0, 0] [MOD 65535] ∧
        (words [0x45, 0, 0xBA, 0xFF]).sum ≠ 0 :=
  checksum_verifies_iff [0x45, 0] [] 0xBA 0xFF rfl (by decide)

end Verification

end NexusOS.Core.Network
