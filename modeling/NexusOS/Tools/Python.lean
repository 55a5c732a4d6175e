import NexusOS.Lib.Bytes
import NexusOS.Lib.Outcome

namespace NexusOS.Tools

open Lib

/-- How a script can stop: with a message, or with an error of the module `struct`. -/
inductive Stop
  | die (message : String)
  | structError
  deriving DecidableEq

def ascii (s : String) : List UInt8 := s.toList.map fun c ↦ UInt8.ofNat c.toNat

def upper (bytes : List UInt8) : List UInt8 :=
  bytes.map fun c ↦ if 97 ≤ c ∧ c ≤ 122 then c - 32 else c

def ljust (bytes : List UInt8) (n : ℕ) (fill : UInt8) : List UInt8 :=
  bytes ++ List.replicate (n - bytes.length) fill

theorem length_ljust {bytes : List UInt8} {n : ℕ} (fill : UInt8) (h : bytes.length ≤ n) :
    (ljust bytes n fill).length = n := by
  rw [ljust, List.length_append, List.length_replicate]
  omega

section Struct

variable {b d : List UInt8} {n o v : ℕ} (pieces : List (ℕ × List UInt8))

def pack (n v : ℕ) : Except Stop (List UInt8) :=
  if v < 256 ^ n then .ok (toLe n v) else .error .structError

def packInto (b : List UInt8) (o : ℕ) (d : List UInt8) : Except Stop (List UInt8) :=
  if o + d.length ≤ b.length then .ok (overwrite b o d) else .error .structError

def put (n : ℕ) (b : List UInt8) (o v : ℕ) : Except Stop (List UInt8) := do
  let d ← pack n v
  packInto b o d

def put16 : List UInt8 → ℕ → ℕ → Except Stop (List UInt8) := put 2

def put32 : List UInt8 → ℕ → ℕ → Except Stop (List UInt8) := put 4

theorem packInto_eq (h : o + d.length ≤ b.length) : packInto b o d = .ok (overwrite b o d) :=
  if_pos h

theorem put_eq (hv : v < 256 ^ n) (ho : o + n ≤ b.length) :
    put n b o v = .ok (overwrite b o (toLe n v)) := by
  rw [put, pack, if_pos hv, ok_bind, packInto_eq (by rwa [length_toLe])]

theorem put_error (hv : ¬ v < 256 ^ n) : put n b o v = .error .structError := by
  rw [put, pack, if_neg hv]
  rfl

theorem put_lay (hv : v < 256 ^ n) (ho : o + n ≤ b.length) (h : Fit b.length pieces) :
    put n (lay b pieces) o v = .ok (lay b (pieces ++ [(o, toLe n v)])) := by
  rw [put_eq hv (by rwa [length_lay h]), lay_append]
  rfl

theorem packs_eq (h : Fit b.length pieces) :
    pieces.foldlM (fun b p ↦ packInto b p.1 p.2) b = .ok (lay b pieces) := by
  induction pieces generalizing b with
  | nil => rfl
  | cons p pieces ih =>
    have hp := h p List.mem_cons_self
    rw [List.foldlM_cons, packInto_eq hp, ok_bind, ih]
    · rfl
    rw [length_overwrite hp]
    exact fun q hq ↦ h q (List.mem_cons_of_mem p hq)

theorem puts_eq {values : List (ℕ × ℕ)} (hv : ∀ p ∈ values, p.2 < 256 ^ n ∧ p.1 + n ≤ b.length)
    (h : Fit b.length pieces) :
    values.foldlM (fun b p ↦ put n b p.1 p.2) (lay b pieces) =
      .ok (lay b (pieces ++ values.map fun p ↦ (p.1, toLe n p.2))) := by
  induction values generalizing pieces with
  | nil =>
    rw [List.map_nil, List.append_nil]
    rfl
  | cons p values ih =>
    obtain ⟨hp, hrest⟩ := List.forall_mem_cons.1 hv
    have hfit : Fit b.length (pieces ++ [(p.1, toLe n p.2)]) := by
      intro f hf
      rcases List.mem_append.1 hf with hf | hf
      · exact h f hf
      rw [List.mem_singleton.1 hf, length_toLe]
      exact hp.2
    rw [List.foldlM_cons, put_lay _ hp.1 hp.2 h, ok_bind, ih _ hrest hfit, List.append_assoc]
    rfl

theorem packs_error (h : ¬ Fit b.length pieces) :
    pieces.foldlM (fun b p ↦ packInto b p.1 p.2) b = .error .structError := by
  induction pieces generalizing b with
  | nil => exact absurd (fun p hp ↦ absurd hp List.not_mem_nil) h
  | cons p pieces ih =>
    rw [List.foldlM_cons]
    by_cases hp : p.1 + p.2.length ≤ b.length
    · rw [packInto_eq hp, ok_bind, ih]
      rw [length_overwrite hp]
      exact fun hrest ↦ h (List.forall_mem_cons.2 ⟨hp, hrest⟩)
    · rw [packInto, if_neg hp]
      rfl

end Struct

end NexusOS.Tools
