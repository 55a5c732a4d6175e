import Mathlib
import NexusOS.Lib.Bytes
import NexusOS.Lib.Ring
import NexusOS.Lib.Run

namespace NexusOS.Drivers.E1000

open Lib

section Source

def ringCount : ℕ := 16
def bufferSize : ℕ := 2048
def statusDd : UInt8 := 0x01

structure TxDesc where
  addr : ℕ
  length : ℕ
  cmd : UInt8
  status : UInt8

/-- The transmit half of the driver, with the registers and the memory it writes. -/
structure State where
  present : Bool
  txTail : ℕ
  txPhys : ℕ → ℕ
  tx : ℕ → TxDesc
  tdh : ℕ
  tdt : ℕ
  mem : ℕ → UInt8
  txPackets : ℕ

def clearPage (mem : ℕ → UInt8) (page : ℕ) : ℕ → UInt8 := overlay mem page (List.replicate 4096 0)

/-- The calls of `pmm_alloc_page` return `page 0`, `page 1` and so on, 0 when there is none left. -/
def setupRings (page : ℕ → ℕ) (s : State) : Option State :=
  if page 0 = 0 ∨ page 1 = 0 then none
  else if ∃ i < ringCount, page (2 + 2 * i) = 0 ∨ page (3 + 2 * i) = 0 then none
  else some { s with
    txPhys := fun i ↦ page (2 + 2 * i)
    tx := fun _ ↦ ⟨0, 0, 0, statusDd⟩
    mem := (List.range ringCount).foldl
      (fun mem i ↦ clearPage (clearPage mem (page (2 + 2 * i))) (page (3 + 2 * i))) s.mem
    tdh := 0
    tdt := 0 }

/-- For a supported device; `none` when the initialisation fails. -/
def e1000Init (page : ℕ → ℕ) (s : State) : Option State :=
  setupRings page { s with present := true }

/-- A null pointer is `none`; the driver after a frame that it accepts. -/
def e1000Send (s : State) (frame : Option (List UInt8)) : Option State := do
  let frame ← frame
  if ¬ s.present ∨ frame.length = 0 ∨ bufferSize < frame.length then none
  else if (s.tx s.txTail).status &&& statusDd = 0 then none
  else
    let tail := (s.txTail + 1) % ringCount
    some { s with
      mem := overlay s.mem (s.txPhys s.txTail) frame
      tx := Function.update s.tx s.txTail ⟨s.txPhys s.txTail, frame.length, 0x01 ||| 0x08, 0⟩
      txTail := tail
      tdt := tail
      txPackets := s.txPackets + 1 }

end Source

section Controller

def State.owned (s : State) : List ℕ :=
  ringView ringCount id s.tdh ((s.tdt + ringCount - s.tdh) % ringCount)

def State.frame (s : State) (i : ℕ) : List UInt8 := window s.mem (s.tx i).addr (s.tx i).length

/-- The controller transmits the frame of the descriptor at the head. -/
def State.transmit (s : State) : Option (List UInt8 × State) :=
  if s.tdh = s.tdt then none
  else some (s.frame s.tdh, { s with
    tx := Function.update s.tx s.tdh
      { s.tx s.tdh with status := (s.tx s.tdh).status ||| statusDd }
    tdh := (s.tdh + 1) % ringCount })

/-- The driver with the frames it accepted, those on the wire, and the descriptors submitted and
not completed. -/
structure Sys where
  driver : State
  accepted : List (List UInt8)
  sent : List (List UInt8)
  pending : List ℕ

inductive Op
  | send (frame : Option (List UInt8))
  | transmit

def Sys.step (s : Sys) : Op → Sys
  | .send frame => (e1000Send s.driver frame).elim s fun d ↦
      { s with
        driver := d
        accepted := s.accepted ++ frame.toList
        pending := s.pending ++ [s.driver.txTail] }
  | .transmit => s.driver.transmit.elim s fun r ↦
      { s with
        driver := r.2
        sent := s.sent ++ [r.1]
        pending := s.pending.erase s.driver.tdh }

structure Sys.Faithful (s : Sys) : Prop where
  owned : s.pending = s.driver.owned
  inOrder : s.sent <+: s.accepted
  once : s.sent.length + s.pending.length = s.accepted.length

def Sys.Room (s : Sys) : Op → Prop
  | .send (some frame) => frame.length ≠ 0 ∧ frame.length ≤ bufferSize → s.pending.length ≤ 14
  | _ => True

end Controller

section Invariant

variable {s : Sys} {n : ℕ}

/-- `n` frames are under way, which is less than the ring holds. -/
structure Sys.Ready (s : Sys) (n : ℕ) : Prop where
  present : s.driver.present = true
  tail : s.driver.txTail = s.driver.tdt
  head : s.driver.tdh < ringCount
  below : n < ringCount
  tdt : s.driver.tdt = (s.driver.tdh + n) % ringCount
  pending : s.pending = ringView ringCount id s.driver.tdh n
  queue : s.accepted = s.sent ++ ringView ringCount s.driver.frame s.driver.tdh n
  apart : ∀ i < ringCount, ∀ j < ringCount, i ≠ j →
    s.driver.txPhys i + bufferSize ≤ s.driver.txPhys j ∨
      s.driver.txPhys j + bufferSize ≤ s.driver.txPhys i
  done : ∀ i < ringCount, (s.driver.tx i).status &&& statusDd = 0 ↔ i ∈ s.pending
  buffer : ∀ i ∈ s.pending,
    (s.driver.tx i).addr = s.driver.txPhys i ∧ (s.driver.tx i).length ≤ bufferSize

theorem mem_ringView_id {i head : ℕ} :
    i ∈ ringView ringCount id head n ↔ ∃ k < n, (head + k) % ringCount = i := by
  simp [ringView]

section

variable (h : s.Ready n)
include h

theorem Sys.Ready.length : s.pending.length = n := by
  rw [h.pending, length_ringView]

theorem Sys.Ready.tail_not_mem : s.driver.txTail ∉ s.pending := by
  rw [h.tail, h.tdt, h.pending, mem_ringView_id]
  rintro ⟨k, hk, heq⟩
  exact add_mod_ne hk h.below heq

theorem Sys.Ready.tail_lt : s.driver.txTail < ringCount := by
  rw [h.tail, h.tdt]
  exact Nat.mod_lt _ (by decide)

theorem Sys.Ready.mem_lt {i : ℕ} (hi : i ∈ s.pending) : i < ringCount := by
  rw [h.pending, mem_ringView_id] at hi
  obtain ⟨k, -, rfl⟩ := hi
  exact Nat.mod_lt _ (by decide)

theorem Sys.Ready.faithful : s.Faithful := by
  have hn : (s.driver.tdt + ringCount - s.driver.tdh) % ringCount = n := by
    have hhead := h.head
    have hbelow := h.below
    have htdt := h.tdt
    unfold ringCount at *
    omega
  refine ⟨?_, ?_, ?_⟩
  · rw [State.owned, hn]
    exact h.pending
  · rw [h.queue]
    exact List.prefix_append _ _
  · rw [h.queue, h.length, List.length_append, length_ringView]

end

end Invariant

section Send

variable {s : Sys} {n : ℕ} {frame : List UInt8}

def State.load (d : State) (frame : List UInt8) : State where
  present := d.present
  txTail := (d.txTail + 1) % ringCount
  txPhys := d.txPhys
  tx := Function.update d.tx d.txTail ⟨d.txPhys d.txTail, frame.length, 0x01 ||| 0x08, 0⟩
  tdh := d.tdh
  tdt := (d.txTail + 1) % ringCount
  mem := overlay d.mem (d.txPhys d.txTail) frame
  txPackets := d.txPackets + 1

theorem Sys.Ready.send_valid (h : s.Ready n)
    (hlen : frame.length ≠ 0 ∧ frame.length ≤ bufferSize) :
    s.step (.send (some frame)) =
      ⟨s.driver.load frame, s.accepted ++ [frame], s.sent, s.pending ++ [s.driver.txTail]⟩ := by
  have hargs : ¬ (¬ s.driver.present = true ∨ frame.length = 0 ∨ bufferSize < frame.length) := by
    rintro (hp | h0 | hb)
    · exact hp h.present
    · exact hlen.1 h0
    · exact absurd hlen.2 (not_le.2 hb)
  have hdd : ¬ (s.driver.tx s.driver.txTail).status &&& statusDd = 0 := fun h0 ↦
    h.tail_not_mem ((h.done _ h.tail_lt).1 h0)
  have hsend : e1000Send s.driver (some frame) = some (s.driver.load frame) := by
    simp only [e1000Send, Option.bind_eq_bind, Option.bind_some, if_neg hargs, if_neg hdd]
    rfl
  simp only [Sys.step, hsend, Option.elim_some, Option.toList_some]

theorem Sys.send_invalid (s : Sys) (hlen : ¬ (frame.length ≠ 0 ∧ frame.length ≤ bufferSize)) :
    s.step (.send (some frame)) = s := by
  have hargs : ¬ s.driver.present = true ∨ frame.length = 0 ∨ bufferSize < frame.length := by
    by_cases h0 : frame.length = 0
    · exact .inr (.inl h0)
    · exact .inr (.inr (not_le.1 fun hb ↦ hlen ⟨h0, hb⟩))
  have hsend : e1000Send s.driver (some frame) = none := by
    simp only [e1000Send, Option.bind_eq_bind, Option.bind_some, if_pos hargs]
  simp only [Sys.step, hsend, Option.elim_none]

theorem State.load_frame_self (d : State) (frame : List UInt8) :
    (d.load frame).frame d.txTail = frame := by
  simp only [State.frame, State.load, Function.update_self]
  refine List.ext_getElem (length_window _ _ _) fun k hk hk' ↦ ?_
  simp only [window, List.getElem_map, List.getElem_range]
  exact overlay_add hk'

theorem Sys.Ready.load_frame (h : s.Ready n) (hlen : frame.length ≤ bufferSize) {i : ℕ}
    (hi : i ∈ s.pending) : (s.driver.load frame).frame i = s.driver.frame i := by
  have hne : i ≠ s.driver.txTail := fun heq ↦ h.tail_not_mem (heq ▸ hi)
  obtain ⟨haddr, hl⟩ := h.buffer i hi
  have hapart := h.apart i (h.mem_lt hi) _ h.tail_lt hne
  simp only [State.frame, State.load, Function.update_of_ne hne]
  exact window_overlay_of_disjoint (by omega)

theorem Sys.Ready.send (h : s.Ready n) (hroom : n + 1 < ringCount)
    (hlen : frame.length ≠ 0 ∧ frame.length ≤ bufferSize) :
    (s.step (.send (some frame))).Ready (n + 1) := by
  have htail : s.driver.txTail = (s.driver.tdh + n) % ringCount := h.tail.trans h.tdt
  have hpending : s.pending ++ [s.driver.txTail] = ringView ringCount id s.driver.tdh (n + 1) := by
    rw [h.pending, htail, ringView, ringView, List.range_succ, List.map_append]
    rfl
  rw [h.send_valid hlen]
  refine ⟨h.present, rfl, h.head, hroom, ?_, hpending, ?_, h.apart, fun i hi ↦ ?_, fun i hi ↦ ?_⟩
  · show (s.driver.txTail + 1) % ringCount = (s.driver.tdh + (n + 1)) % ringCount
    rw [htail, Nat.mod_add_mod, add_assoc]
  · show s.accepted ++ [frame] =
      s.sent ++ ringView ringCount (s.driver.load frame).frame s.driver.tdh (n + 1)
    have hcells : ringView ringCount (s.driver.load frame).frame s.driver.tdh (n + 1) =
        ringView ringCount s.driver.frame s.driver.tdh n ++ [frame] := by
      rw [← ringView_push frame h.below, ← htail]
      refine ringView_congr fun i hi ↦ ?_
      by_cases hin : i = n
      · rw [hin, ← htail, Function.update_self, State.load_frame_self]
      have hmem : (s.driver.tdh + i) % ringCount ∈ s.pending := by
        rw [h.pending, mem_ringView_id]
        exact ⟨i, by omega, rfl⟩
      have hne : (s.driver.tdh + i) % ringCount ≠ s.driver.txTail := fun heq ↦
        h.tail_not_mem (heq ▸ hmem)
      rw [Function.update_of_ne hne, h.load_frame hlen.2 hmem]
    rw [hcells, h.queue, List.append_assoc]
  · show (Function.update s.driver.tx s.driver.txTail _ i).status &&& statusDd = 0 ↔
      i ∈ s.pending ++ [s.driver.txTail]
    rw [List.mem_append, List.mem_singleton]
    by_cases heq : i = s.driver.txTail
    · rw [heq, Function.update_self]
      exact iff_of_true (show (0 : UInt8) &&& statusDd = 0 by decide) (.inr rfl)
    rw [Function.update_of_ne heq, h.done i hi]
    exact (or_iff_left heq).symm
  · show (Function.update s.driver.tx s.driver.txTail _ i).addr = s.driver.txPhys i ∧
      (Function.update s.driver.tx s.driver.txTail _ i).length ≤ bufferSize
    by_cases heq : i = s.driver.txTail
    · rw [heq, Function.update_self]
      exact ⟨rfl, hlen.2⟩
    rw [Function.update_of_ne heq]
    refine h.buffer i ?_
    exact (List.mem_append.1 hi).resolve_right fun h1 ↦ heq (List.mem_singleton.1 h1)

theorem Sys.Ready.send_full (h : s.Ready n) (hfull : n + 1 = ringCount)
    (hlen : frame.length ≠ 0 ∧ frame.length ≤ bufferSize) :
    ¬ (s.step (.send (some frame))).Faithful := by
  rw [h.send_valid hlen]
  intro hf
  have htdt : (s.driver.load frame).tdt = (s.driver.load frame).tdh := by
    show (s.driver.txTail + 1) % ringCount = s.driver.tdh
    rw [h.tail, h.tdt, Nat.mod_add_mod, add_assoc, hfull, Nat.add_mod_right]
    exact Nat.mod_eq_of_lt h.head
  have howned : s.pending ++ [s.driver.txTail] = [] := by
    refine hf.owned.trans ?_
    show (s.driver.load frame).owned = []
    rw [State.owned, htdt, Nat.add_sub_cancel_left, Nat.mod_self]
    rfl
  exact List.cons_ne_nil _ _ (List.append_eq_nil_iff.1 howned).2

end Send

section Transmit

variable {s : Sys} {n : ℕ}

theorem or_dd (status : UInt8) : (status ||| statusDd) &&& statusDd ≠ 0 := by
  revert status
  decide +kernel

theorem Sys.Ready.head_eq_tail (h : s.Ready n) : s.driver.tdh = s.driver.tdt ↔ n = 0 := by
  have hhead := h.head
  have hbelow := h.below
  have htdt := h.tdt
  unfold ringCount at *
  omega

theorem Sys.Ready.transmit (h : s.Ready (n + 1)) : (s.step .transmit).Ready n := by
  have hne : ¬ s.driver.tdh = s.driver.tdt := fun heq ↦ by
    have := h.head_eq_tail.1 heq
    omega
  have hmod : s.driver.tdh % ringCount = s.driver.tdh := Nat.mod_eq_of_lt h.head
  have hpending : s.pending =
      s.driver.tdh :: ringView ringCount id ((s.driver.tdh + 1) % ringCount) n := by
    rw [h.pending, ringView_pop, hmod]
    rfl
  have herase : s.pending.erase s.driver.tdh =
      ringView ringCount id ((s.driver.tdh + 1) % ringCount) n := by
    rw [hpending, List.erase_cons_head]
  have hhead : s.driver.tdh ∉ s.pending.erase s.driver.tdh := by
    rw [herase, mem_ringView_id]
    rintro ⟨k, hk, heq⟩
    rw [Nat.mod_add_mod, add_assoc] at heq
    have hne' : (s.driver.tdh + 0) % ringCount ≠ (s.driver.tdh + (1 + k)) % ringCount :=
      add_mod_ne (by omega) (by have := h.below; omega)
    rw [heq, add_zero, hmod] at hne'
    exact hne' rfl
  have hframe (i : ℕ) : ({ s.driver with
      tx := Function.update s.driver.tx s.driver.tdh { s.driver.tx s.driver.tdh with
        status := (s.driver.tx s.driver.tdh).status ||| statusDd }
      tdh := (s.driver.tdh + 1) % ringCount } : State).frame i = s.driver.frame i := by
    by_cases heq : i = s.driver.tdh
    · simp only [State.frame, heq, Function.update_self]
    · simp only [State.frame, Function.update_of_ne heq]
  simp only [Sys.step, State.transmit, if_neg hne, Option.elim_some]
  refine ⟨h.present, h.tail, Nat.mod_lt _ (by decide), ?_, ?_, herase, ?_, h.apart,
    fun i hi ↦ ?_, fun i hi ↦ ?_⟩
  · have := h.below
    omega
  · rw [h.tdt, Nat.mod_add_mod]
    congr 1
    omega
  · show s.accepted = (s.sent ++ [s.driver.frame s.driver.tdh]) ++ _
    rw [ringView_congr fun i _ ↦ hframe _, h.queue, ringView_pop, hmod, List.append_assoc]
    rfl
  · show (Function.update s.driver.tx s.driver.tdh _ i).status &&& statusDd = 0 ↔ _
    by_cases heq : i = s.driver.tdh
    · rw [heq, Function.update_self]
      exact iff_of_false (or_dd _) hhead
    rw [Function.update_of_ne heq, h.done i hi]
    exact (List.mem_erase_of_ne heq).symm
  · have hmem : i ∈ s.pending := List.mem_of_mem_erase hi
    show (Function.update s.driver.tx s.driver.tdh _ i).addr = _ ∧
      (Function.update s.driver.tx s.driver.tdh _ i).length ≤ _
    have heq : i ≠ s.driver.tdh := fun heq ↦ hhead (heq ▸ hi)
    rw [Function.update_of_ne heq]
    exact h.buffer i hmem

end Transmit

section Results

def Sys.start (driver : State) : Sys := ⟨driver, [], [], []⟩

def Sys.Good (s : Sys) : Prop := ∃ n, s.Ready n

theorem Sys.Good.step {s : Sys} {op : Op} (h : s.Good) (hroom : s.Room op) : (s.step op).Good := by
  obtain ⟨n, h⟩ := h
  cases op with
  | send frame =>
    cases frame with
    | none => exact ⟨n, h⟩
    | some frame =>
      by_cases hlen : frame.length ≠ 0 ∧ frame.length ≤ bufferSize
      · have hn : s.pending.length ≤ 14 := hroom hlen
        rw [h.length] at hn
        exact ⟨n + 1, h.send (by unfold ringCount; omega) hlen⟩
      · rw [s.send_invalid hlen]
        exact ⟨n, h⟩
  | transmit =>
    cases n with
    | zero =>
      have heq : s.driver.tdh = s.driver.tdt := h.head_eq_tail.2 rfl
      simp only [Sys.step, State.transmit, if_pos heq, Option.elim_none]
      exact ⟨0, h⟩
    | succ n => exact ⟨n, h.transmit⟩

theorem Sys.Good.faithful_iff {s : Sys} {op : Op} (h : s.Good) :
    (s.step op).Faithful ↔ s.Room op := by
  constructor
  · intro hf
    obtain ⟨n, h⟩ := h
    match op with
    | .transmit => trivial
    | .send none => trivial
    | .send (some frame) =>
      intro hlen
      by_contra hn
      rw [h.length] at hn
      have hbelow : n < 16 := h.below
      exact h.send_full (show n + 1 = 16 by omega) hlen hf
  intro hroom
  obtain ⟨m, hm⟩ := h.step hroom
  exact hm.faithful

theorem init_good {page : ℕ → ℕ} {s₀ d : State} (hinit : e1000Init page s₀ = some d)
    (htail : s₀.txTail = 0)
    (hpages : ∀ i < 34, ∀ j < 34, i ≠ j → page i + 4096 ≤ page j ∨ page j + 4096 ≤ page i) :
    (Sys.start d).Ready 0 := by
  unfold e1000Init setupRings at hinit
  split_ifs at hinit
  obtain rfl := Option.some.inj hinit
  refine ⟨rfl, htail, Nat.zero_lt_succ 15, Nat.zero_lt_succ 15, rfl, rfl, rfl, ?_, ?_, ?_⟩
  · intro i hi j hj hne
    unfold ringCount at hi hj
    have happart := hpages (2 + 2 * i) (by omega) (2 + 2 * j) (by omega) (by omega)
    show page (2 + 2 * i) + 2048 ≤ page (2 + 2 * j) ∨ page (2 + 2 * j) + 2048 ≤ page (2 + 2 * i)
    omega
  · intro i _
    exact iff_of_false (show ¬ statusDd &&& statusDd = 0 by decide) List.not_mem_nil
  · intro i hi
    exact absurd hi List.not_mem_nil

/-- The ring tells its frames exactly as long as one descriptor always stays free. -/
theorem transmit_ring_faithful (page : ℕ → ℕ) (s₀ d : State) (hinit : e1000Init page s₀ = some d)
    (htail : s₀.txTail = 0)
    (hpages : ∀ i < 34, ∀ j < 34, i ≠ j → page i + 4096 ≤ page j ∨ page j + 4096 ≤ page i)
    (ops : List Op) :
    (∀ n, ((ops.take n).foldl Sys.step (Sys.start d)).Faithful) ↔
      Along Sys.step Sys.Room (Sys.start d) ops := by
  have hready := init_good hinit htail hpages
  exact Along.throughout_iff (I := Sys.Good) (W := fun _ _ ↦ True)
    (fun _ _ h _ _ hroom ↦ h.step hroom) (fun _ _ h _ _ ↦ h.faithful_iff)
    ⟨0, hready⟩ hready.faithful (Along.of_forall (fun _ _ ↦ trivial) _ _)

def unset : State where
  present := false
  txTail := 0
  txPhys := fun _ ↦ 0
  tx := fun _ ↦ ⟨0, 0, 0, 0⟩
  tdh := 0
  tdt := 0
  mem := fun _ ↦ 0
  txPackets := 0

def samplePage (i : ℕ) : ℕ := 4096 * (i + 1)

theorem init_sample : (e1000Init samplePage unset).isSome := by decide

theorem transmit_ring_faithful_sample :
    (((([.send (some [1, 2]), .transmit] : List Op).take 2).foldl Sys.step
      (Sys.start ((e1000Init samplePage unset).get init_sample))).Faithful) := by
  refine (transmit_ring_faithful samplePage unset _ (Option.some_get init_sample).symm rfl
    (fun i _ j _ hne ↦ ?_) _).2 ?_ 2
  · unfold samplePage
    omega
  · exact ⟨fun _ ↦ by decide, trivial, trivial⟩

/-- Sixteen frames with no completion between them: sixteen descriptors are outstanding and the
controller owns none. -/
theorem full_ring_looks_empty :
    let s := (List.replicate 16 (Op.send (some [1]))).foldl Sys.step
      (Sys.start ((e1000Init samplePage unset).get init_sample))
    s.pending.length = 16 ∧ s.driver.owned = [] ∧ s.driver.transmit.isNone ∧ ¬ s.Faithful := by
  intro s
  have hfull : s.pending.length = 16 ∧ s.driver.owned = [] ∧ s.driver.transmit.isNone := by
    decide +kernel
  obtain ⟨hpending, howned, hstuck⟩ := hfull
  refine ⟨hpending, howned, hstuck, fun hf ↦ ?_⟩
  rw [hf.owned, howned] at hpending
  exact absurd hpending (by decide)

end Results

end NexusOS.Drivers.E1000
