import Mathlib
import NexusOS.Lib.Ring
import NexusOS.Drivers.HidReport

namespace NexusOS.Drivers.Xhci

open Lib

section Source

/-- The addresses of a report buffer and of a TRB of the keyboard ring. -/
inductive Pointer
  | null
  | report (i : ℕ)
  | ring (i : ℕ)
  deriving DecidableEq

def kbdRingTrbs : ℕ := 8
def trbCycle : UInt32 := 0x1
def trbSetType (t : UInt32) : UInt32 := (t &&& 0x3F) <<< 10
def trbType (control : UInt32) : UInt32 := (control >>> 10) &&& 0x3F
def trbTypeNormal : UInt32 := 1
def trbTypeLink : UInt32 := 6
def trbTypeTransferEvent : UInt32 := 32
def trbCtrlIsp : UInt32 := (1 : UInt32) <<< 2
def trbCtrlIoc : UInt32 := (1 : UInt32) <<< 5

structure Trb where
  parameter : Pointer
  status : ℕ
  control : UInt32

structure Driver where
  kbdRing : ℕ → Trb
  kbdEnq : ℕ
  kbdCycle : Bool
  kbdReports : ℕ → Report
  lastReport : Report
  hidProtocol : ℕ
  hidReportLen : ℕ
  slotId : ℕ
  kbdEpDci : ℕ

def normalControl (cycle : Bool) : UInt32 :=
  trbSetType trbTypeNormal ||| trbCtrlIoc ||| trbCtrlIsp ||| if cycle then trbCycle else 0

def normalTrb (length index : ℕ) (cycle : Bool) : Trb where
  parameter := .report index
  status := if length ≠ 0 then length else 8
  control := normalControl cycle

def linkTrb (cycle : Bool) : Trb where
  parameter := .ring 0
  status := 0
  control := trbSetType trbTypeLink ||| ((1 : UInt32) <<< 1) ||| if cycle then trbCycle else 0

def kbdRingPushNormal (d : Driver) (index : ℕ) : Driver :=
  let ring := Function.update d.kbdRing d.kbdEnq (normalTrb d.hidReportLen index d.kbdCycle)
  let enq := d.kbdEnq + 1
  if enq = kbdRingTrbs - 1 then
    { d with
      kbdRing := Function.update ring (kbdRingTrbs - 1) (linkTrb d.kbdCycle)
      kbdEnq := 0
      kbdCycle := !d.kbdCycle }
  else { d with kbdRing := ring, kbdEnq := enq }

/-- The part of `setup_hid_on_port` that makes the ring, for the device's protocol and endpoint. -/
def setupHid (d : Driver) (protocol slot dci : ℕ) : Driver :=
  let d := { d with
    kbdEpDci := dci
    slotId := slot
    hidProtocol := protocol
    hidReportLen := if protocol = 0x02 then 4 else 8
    kbdEnq := 0
    kbdCycle := true
    kbdRing := fun _ ↦ ⟨.null, 0, 0⟩
    lastReport := fun _ ↦ 0 }
  (List.range (kbdRingTrbs - 1)).foldl (fun d i ↦ kbdRingPushNormal d (i % kbdRingTrbs)) d

structure Event where
  type : UInt32
  slot : ℕ
  dci : ℕ
  completionCode : ℕ
  parameter : Pointer

inductive Effect
  | dispatchHidKey (key : HidKey)
  | inputRecordKeyboard
  | mouseProcessUsbReport (report : Report) (length : ℕ)

/-- The TRB of the keyboard ring that an event completes successfully. -/
def completedTrb (d : Driver) (e : Event) : Option ℕ :=
  if e.type = trbTypeTransferEvent ∧ e.slot = d.slotId ∧ e.dci = d.kbdEpDci ∧
      (e.completionCode = 1 ∨ e.completionCode = 13) then
    (List.range kbdRingTrbs).find? fun i ↦ Pointer.ring i = e.parameter
  else none

def processReport (d : Driver) (report : Report) : Driver × List Effect :=
  if d.hidProtocol = 0x01 then
    let r := processBootReport d.lastReport report
    ({ d with lastReport := r.2 }, r.1.map .dispatchHidKey ++ [.inputRecordKeyboard])
  else if d.hidProtocol = 0x02 then (d, [.mouseProcessUsbReport report d.hidReportLen])
  else (d, [])

/-- What `xhci_poll` does with one event. -/
def handleEvent (d : Driver) (e : Event) : Driver × List Effect :=
  (completedTrb d e).elim (d, []) fun i ↦
    let r := processReport d (d.kbdReports i)
    (kbdRingPushNormal r.1 i, r.2)

end Source

section Controller

def Trb.cycle (t : Trb) : Bool := t.control &&& trbCycle ≠ 0

def Trb.isLink (t : Trb) : Bool := trbType t.control = trbTypeLink

def Trb.toggles (t : Trb) : Bool := t.control &&& ((1 : UInt32) <<< 1) ≠ 0

/-- Where the controller is in a ring: the index of the next TRB and its cycle state. -/
structure Dequeue where
  index : ℕ
  cycle : Bool
  deriving DecidableEq

/-- The link TRB is skipped as soon as the controller reaches it. -/
def Dequeue.follow (ring : ℕ → Trb) (c : Dequeue) : Dequeue :=
  match ring c.index, (ring c.index).parameter with
  | t, .ring i => if t.isLink ∧ t.cycle = c.cycle then ⟨i, c.cycle ^^ t.toggles⟩ else c
  | _, _ => c

def Dequeue.advance (ring : ℕ → Trb) (c : Dequeue) : Dequeue :=
  Dequeue.follow ring ⟨c.index + 1, c.cycle⟩

def Dequeue.Valid (ring : ℕ → Trb) (c : Dequeue) : Prop :=
  (ring c.index).isLink = false ∧ (ring c.index).cycle = c.cycle

instance (ring : ℕ → Trb) (c : Dequeue) : Decidable (c.Valid ring) :=
  inferInstanceAs (Decidable (_ ∧ _))

/-- The next `n` queued TRBs in the order in which the controller takes them. -/
def queuedTrbs (ring : ℕ → Trb) : ℕ → Dequeue → List ℕ
  | 0, _ => []
  | n + 1, c => if c.Valid ring then c.index :: queuedTrbs ring n (c.advance ring) else []

/-- A report buffer after the controller has written to its start. -/
def Report.receive (report : Report) (data : List UInt8) : Report :=
  fun k ↦ data[k.val]?.getD (report k)

/-- An event that the driver has not seen yet, and the data of its transfer. -/
structure Completion where
  event : Event
  data : List UInt8

/-- The driver and the controller; `overwritten` records whether the driver wrote to a TRB while it
was queued. -/
structure Sys where
  driver : Driver
  deq : Dequeue
  pending : List Completion
  overwritten : Bool

inductive Op
  | complete (code : ℕ) (data : List UInt8)
  | handle

def Sys.queued (s : Sys) : List ℕ := queuedTrbs s.driver.kbdRing kbdRingTrbs s.deq

def transfer (d : Driver) (index : ℕ) (data : List UInt8) : Driver :=
  match (d.kbdRing index).parameter with
  | .report j => { d with kbdReports := Function.update d.kbdReports j ((d.kbdReports j).receive data) }
  | _ => d

def Sys.step (s : Sys) : Op → Sys
  | .complete code data =>
    if s.deq.Valid s.driver.kbdRing then
      { s with
        driver := transfer s.driver s.deq.index data
        deq := s.deq.advance s.driver.kbdRing
        pending := s.pending ++ [⟨⟨trbTypeTransferEvent, s.driver.slotId, s.driver.kbdEpDci, code,
          .ring s.deq.index⟩, data⟩] }
    else s
  | .handle =>
    match s.pending with
    | [] => s
    | p :: rest =>
      { s with
        driver := (handleEvent s.driver p.event).1
        pending := rest
        overwritten := s.overwritten ||
          ((completedTrb s.driver p.event).isSome && decide (s.driver.kbdEnq ∈ s.queued)) }

def Completion.Successful (p : Completion) : Prop :=
  p.event.completionCode = 1 ∨ p.event.completionCode = 13

instance (p : Completion) : Decidable p.Successful := inferInstanceAs (Decidable (_ ∨ _))

structure Sys.Matched (s : Sys) : Prop where
  slots : ∀ i ∈ s.queued, (s.driver.kbdRing i).parameter = .report i
  reports : ∀ p ∈ s.pending, p.Successful → ∃ i, completedTrb s.driver p.event = some i ∧
    ∀ (k : Fin 8) b, p.data[k.val]? = some b → s.driver.kbdReports i k = b
  kept : s.overwritten = false
  count : s.queued.length + s.pending.length = kbdRingTrbs - 1

/-- The event that is handled reports a success or a short packet. -/
def Sys.Requeues (s : Sys) : Op → Prop
  | .complete _ _ => True
  | .handle => ∀ p ∈ s.pending.head?, p.Successful

end Controller

section Ring

variable {d : Driver} {c h : ℕ}

theorem normalControl_facts (cycle : Bool) :
    decide (normalControl cycle &&& trbCycle ≠ 0) = cycle ∧
      decide (trbType (normalControl cycle) = trbTypeLink) = false := by
  revert cycle
  decide

theorem normalTrb_cycle (length index : ℕ) (cycle : Bool) :
    (normalTrb length index cycle).cycle = cycle := (normalControl_facts cycle).1

theorem normalTrb_isLink (length index : ℕ) (cycle : Bool) :
    (normalTrb length index cycle).isLink = false := (normalControl_facts cycle).2

theorem linkTrb_facts (cycle : Bool) :
    (linkTrb cycle).cycle = cycle ∧ (linkTrb cycle).isLink = true ∧
      (linkTrb cycle).toggles = true := by
  revert cycle
  decide

/-- The driver has pushed the TRBs up to `h + 6` and queues `h + 7` next. -/
structure Driver.Pushed (d : Driver) (h : ℕ) : Prop where
  enq : d.kbdEnq = h % 7
  cycle : d.kbdCycle = lap 7 (h + 7)
  normal : ∀ i < 7, d.kbdRing i = normalTrb d.hidReportLen i (lap 7 (h + 6 - i))
  link : d.kbdRing 7 = linkTrb (lap 7 h)

theorem setupHid_pushed (d : Driver) (protocol slot dci : ℕ) :
    (setupHid d protocol slot dci).Pushed 0 := by
  refine ⟨rfl, rfl, fun i hi ↦ ?_, rfl⟩
  interval_cases i <;> rfl

theorem Driver.Pushed.push (hd : d.Pushed h) : (kbdRingPushNormal d (h % 7)).Pushed (h + 1) := by
  have hmod : h % 7 < 7 := Nat.mod_lt _ (by decide)
  have hlap : lap 7 (h + 6 + 1 - h % 7) = lap 7 (h + 7) := by
    simp only [lap, decide_eq_decide]
    omega
  have hother (i : ℕ) (hi : i < 7) (hne : i ≠ h % 7) : lap 7 (h + 6 - i) = lap 7 (h + 1 + 6 - i) := by
    simp only [lap, decide_eq_decide]
    omega
  have hcells (i : ℕ) (hi : i < 7) :
      Function.update d.kbdRing d.kbdEnq (normalTrb d.hidReportLen (h % 7) d.kbdCycle) i =
        normalTrb d.hidReportLen i (lap 7 (h + 1 + 6 - i)) := by
    rw [hd.enq, hd.cycle]
    by_cases hne : i = h % 7
    · rw [hne, Function.update_self, ← hlap, add_right_comm h 1 6]
    · rw [Function.update_of_ne hne, hd.normal i hi, hother i hi hne]
  unfold kbdRingPushNormal kbdRingTrbs
  simp only [hd.enq, Nat.reduceSub]
  by_cases hlast : h % 7 = 6
  · rw [if_pos (by omega)]
    refine ⟨?_, ?_, fun i hi ↦ ?_, ?_⟩
    · show 0 = (h + 1) % 7
      omega
    · show (!d.kbdCycle) = lap 7 (h + 1 + 7)
      rw [hd.cycle]
      simp only [lap, ← decide_not, decide_eq_decide]
      omega
    · show Function.update _ 7 _ i = _
      rw [Function.update_of_ne (by omega), ← hcells i hi, hd.enq]
    dsimp only
    rw [Function.update_self, hd.cycle]
    congr 1
    simp only [lap, decide_eq_decide]
    omega
  · rw [if_neg (by omega)]
    refine ⟨?_, ?_, fun i hi ↦ ?_, ?_⟩
    · show h % 7 + 1 = (h + 1) % 7
      omega
    · show d.kbdCycle = lap 7 (h + 1 + 7)
      rw [hd.cycle]
      simp only [lap, decide_eq_decide]
      omega
    · show Function.update _ _ _ i = _
      rw [← hcells i hi, hd.enq]
    show Function.update _ _ _ 7 = _
    rw [Function.update_of_ne (by omega), hd.link]
    congr 1
    simp only [lap, decide_eq_decide]
    omega

/-- The position of a controller that has completed `c` TRBs. -/
def position (c : ℕ) : Dequeue := ⟨c % 7, lap 7 c⟩

theorem Driver.Pushed.cell (hd : d.Pushed h) (hle : h ≤ c) (hlt : c < h + 7) :
    d.kbdRing (c % 7) = normalTrb d.hidReportLen (c % 7) (lap 7 c) := by
  rw [hd.normal (c % 7) (Nat.mod_lt _ (by decide))]
  congr 1
  simp only [lap, decide_eq_decide]
  omega

theorem Driver.Pushed.advance (hd : d.Pushed h) (hle : h ≤ c) (hlt : c < h + 7) :
    (position c).advance d.kbdRing = position (c + 1) := by
  unfold Dequeue.advance position Dequeue.follow
  by_cases hlast : c % 7 = 6
  · have hindex : c % 7 + 1 = 7 := by omega
    obtain ⟨hcycle, hlink, htoggles⟩ := linkTrb_facts (lap 7 h)
    have hlap : lap 7 h = lap 7 c := by
      simp only [lap, decide_eq_decide]
      omega
    simp only [hindex, hd.link, linkTrb]
    rw [← linkTrb, hcycle, hlink, htoggles, hlap, if_pos ⟨rfl, rfl⟩]
    simp only [Dequeue.mk.injEq, Bool.xor_true, lap, ← decide_not, decide_eq_decide]
    omega
  have hindex : c % 7 + 1 < 7 := by omega
  simp only [hd.normal _ hindex, normalTrb]
  simp only [Dequeue.mk.injEq, lap, decide_eq_decide]
  omega

theorem Driver.Pushed.valid_iff (hd : d.Pushed h) (hle : h ≤ c) (hlt : c ≤ h + 7) :
    (position c).Valid d.kbdRing ↔ c < h + 7 := by
  constructor
  · rintro ⟨-, hcycle⟩
    by_contra hfull
    have hc : c = h + 7 := by omega
    have hmod : c % 7 = h % 7 := by omega
    have hcell := hd.cell le_rfl (show h < h + 7 by omega)
    unfold position at hcycle
    rw [hmod, hcell, normalTrb_cycle, hc] at hcycle
    simp only [lap, decide_eq_decide] at hcycle
    omega
  intro hlt
  unfold Dequeue.Valid position
  rw [hd.cell hle hlt]
  exact ⟨normalTrb_isLink _ _ _, normalTrb_cycle _ _ _⟩

theorem Driver.Pushed.queuedTrbs (hd : d.Pushed h) {n fuel : ℕ} (hle : h ≤ c) (hn : c + n = h + 7)
    (hfuel : n < fuel) :
    queuedTrbs d.kbdRing fuel (position c) = (List.range n).map fun k ↦ (c + k) % 7 := by
  induction n generalizing c fuel with
  | zero =>
    obtain ⟨fuel, rfl⟩ : ∃ m, fuel = m + 1 := ⟨fuel - 1, by omega⟩
    have hfull : ¬ (position c).Valid d.kbdRing := by
      rw [hd.valid_iff hle (by omega)]
      omega
    rw [Xhci.queuedTrbs, if_neg hfull]
    rfl
  | succ n ih =>
    obtain ⟨fuel, rfl⟩ : ∃ m, fuel = m + 1 := ⟨fuel - 1, by omega⟩
    have hvalid : (position c).Valid d.kbdRing := by
      rw [hd.valid_iff hle (by omega)]
      omega
    rw [Xhci.queuedTrbs, if_pos hvalid, hd.advance hle (by omega),
      ih (by omega) (by omega) (by omega), List.range_succ_eq_map, List.map_cons, List.map_map]
    refine congrArg₂ List.cons rfl (List.map_congr_left fun k _ ↦ ?_)
    show (c + 1 + k) % 7 = (c + (k + 1)) % 7
    rw [add_right_comm, add_assoc]

end Ring

section Invariant

variable {s : Sys} {h c : ℕ}

/-- An event for the TRB at an index, whose data is in the buffer of that index. -/
structure Completion.At (p : Completion) (d : Driver) (i : ℕ) : Prop where
  type : p.event.type = trbTypeTransferEvent
  slot : p.event.slot = d.slotId
  dci : p.event.dci = d.kbdEpDci
  parameter : p.event.parameter = .ring i
  data : ∀ (k : Fin 8) b, p.data[k.val]? = some b → d.kbdReports i k = b

/-- The controller has completed `c` TRBs and the driver has handled `h` of them. -/
structure Sys.Ready (s : Sys) (h c : ℕ) : Prop where
  pushed : s.driver.Pushed h
  deq : s.deq = position c
  le : h ≤ c
  below : c ≤ h + 7
  pending : s.pending.length = c - h
  completed : ∀ (k : ℕ) (p : Completion), s.pending[k]? = some p → p.At s.driver ((h + k) % 7)
  kept : s.overwritten = false

theorem Completion.At.completedTrb {p : Completion} {d : Driver} {i : ℕ} (hp : p.At d i)
    (hi : i < 7) :
    completedTrb d p.event = if p.Successful then some i else none := by
  unfold Xhci.completedTrb
  simp only [hp.type, hp.slot, hp.dci, hp.parameter, true_and]
  refine if_congr Iff.rfl ?_ rfl
  interval_cases i <;> rfl

theorem Sys.Ready.queued (hs : s.Ready h c) :
    s.queued = (List.range (h + 7 - c)).map fun k ↦ (c + k) % 7 := by
  have hle := hs.le
  have hbelow := hs.below
  unfold Sys.queued
  rw [hs.deq]
  exact hs.pushed.queuedTrbs hle (by omega) (show _ < 8 by omega)

theorem Sys.Ready.matched (hs : s.Ready h c) : s.Matched := by
  refine ⟨fun i hi ↦ ?_, fun p hp hok ↦ ?_, hs.kept, ?_⟩
  · rw [hs.queued] at hi
    obtain ⟨k, -, rfl⟩ := List.mem_map.1 hi
    rw [hs.pushed.normal _ (Nat.mod_lt _ (by decide))]
    rfl
  · obtain ⟨k, hk⟩ := List.getElem?_of_mem hp
    have hat := hs.completed k p hk
    refine ⟨(h + k) % 7, ?_, hat.data⟩
    rw [hat.completedTrb (Nat.mod_lt _ (by decide)), if_pos hok]
  have hle := hs.le
  have hbelow := hs.below
  rw [hs.queued, hs.pending, List.length_map, List.length_range]
  show _ = 7
  omega

theorem Sys.Ready.complete_full (hs : s.Ready h (h + 7)) (code : ℕ) (data : List UInt8) :
    s.step (.complete code data) = s := by
  refine if_neg ?_
  rw [hs.deq, hs.pushed.valid_iff (by omega) le_rfl]
  omega

theorem transfer_normal {d : Driver} {i j : ℕ} (hcell : (d.kbdRing i).parameter = .report j)
    (data : List UInt8) : transfer d i data =
      { d with kbdReports := Function.update d.kbdReports j ((d.kbdReports j).receive data) } := by
  unfold transfer
  rw [hcell]

theorem Sys.Ready.complete (hs : s.Ready h c) (hlt : c < h + 7) (code : ℕ) (data : List UInt8) :
    (s.step (.complete code data)).Ready h (c + 1) := by
  have hle := hs.le
  have hvalid : s.deq.Valid s.driver.kbdRing := by
    rw [hs.deq, hs.pushed.valid_iff hle hs.below]
    exact hlt
  have hindex : s.deq.index = c % 7 := by rw [hs.deq]; rfl
  have hcell : (s.driver.kbdRing (c % 7)).parameter = .report (c % 7) := by
    rw [hs.pushed.cell hle hlt]
    rfl
  simp only [Sys.step, if_pos hvalid]
  rw [hindex, transfer_normal hcell]
  refine ⟨⟨hs.pushed.enq, hs.pushed.cycle, hs.pushed.normal, hs.pushed.link⟩, ?_, by omega, by omega,
    ?_, fun k p hp ↦ ?_, hs.kept⟩
  · show s.deq.advance s.driver.kbdRing = _
    rw [hs.deq]
    exact hs.pushed.advance hle hlt
  · show (s.pending ++ _).length = _
    rw [List.length_append, hs.pending, List.length_singleton]
    omega
  · change (s.pending ++ _)[k]? = some p at hp
    rcases lt_trichotomy k s.pending.length with hk | hk | hk
    · rw [List.getElem?_append_left hk] at hp
      have hat := hs.completed k p hp
      refine ⟨hat.type, hat.slot, hat.dci, hat.parameter, ?_⟩
      have hne : (h + k) % 7 ≠ c % 7 := by
        have := hs.pending
        omega
      dsimp only
      rw [Function.update_of_ne hne]
      exact hat.data
    · rw [hk, List.getElem?_concat_length] at hp
      obtain rfl := Option.some.inj hp
      have hkc : (h + k) % 7 = c % 7 := by
        have := hs.pending
        rw [show h + k = c by omega]
      rw [hkc]
      refine ⟨rfl, rfl, rfl, rfl, fun j b hb ↦ ?_⟩
      dsimp only
      rw [Function.update_self, Report.receive, hb, Option.getD_some]
    · rw [List.getElem?_eq_none (by rw [List.length_append, List.length_singleton]; omega)] at hp
      exact absurd hp (by simp)

theorem Driver.Pushed.processReport {d : Driver} (hd : d.Pushed h) (report : Report) :
    (Xhci.processReport d report).1.Pushed h := by
  unfold Xhci.processReport
  split_ifs
  · exact ⟨hd.enq, hd.cycle, hd.normal, hd.link⟩
  · exact hd
  · exact hd

theorem processReport_keeps (d : Driver) (report : Report) :
    (processReport d report).1.kbdReports = d.kbdReports ∧
      (processReport d report).1.slotId = d.slotId ∧
      (processReport d report).1.kbdEpDci = d.kbdEpDci := by
  unfold processReport
  split_ifs
  · exact ⟨rfl, rfl, rfl⟩
  · exact ⟨rfl, rfl, rfl⟩
  · exact ⟨rfl, rfl, rfl⟩

theorem kbdRingPushNormal_keeps (d : Driver) (index : ℕ) :
    (kbdRingPushNormal d index).kbdReports = d.kbdReports ∧
      (kbdRingPushNormal d index).slotId = d.slotId ∧
      (kbdRingPushNormal d index).kbdEpDci = d.kbdEpDci := by
  unfold kbdRingPushNormal
  dsimp only
  split_ifs
  · exact ⟨rfl, rfl, rfl⟩
  · exact ⟨rfl, rfl, rfl⟩

theorem Completion.At.congr {p : Completion} {d d' : Driver} {i : ℕ} (hp : p.At d i)
    (hkeeps : d'.kbdReports = d.kbdReports ∧ d'.slotId = d.slotId ∧ d'.kbdEpDci = d.kbdEpDci) :
    p.At d' i := by
  obtain ⟨hreports, hslot, hdci⟩ := hkeeps
  exact ⟨hp.type, hslot ▸ hp.slot, hdci ▸ hp.dci, hp.parameter, hreports ▸ hp.data⟩

theorem Sys.Ready.enq_not_queued (hs : s.Ready h c) (hlt : h < c) :
    s.driver.kbdEnq ∉ s.queued := by
  rw [hs.queued, hs.pushed.enq]
  intro hmem
  obtain ⟨k, hk, heq⟩ := List.mem_map.1 hmem
  have hkn := List.mem_range.1 hk
  omega

theorem Sys.Ready.handle (hs : s.Ready h c) {p : Completion} {rest : List Completion}
    (hpending : s.pending = p :: rest) (hok : p.Successful) : (s.step .handle).Ready (h + 1) c := by
  have hlen := hs.pending
  rw [hpending, List.length_cons] at hlen
  have hbelow := hs.below
  have hat : p.At s.driver (h % 7) := hs.completed 0 p (by rw [hpending]; rfl)
  have htrb : completedTrb s.driver p.event = some (h % 7) := by
    rw [hat.completedTrb (Nat.mod_lt _ (by decide)), if_pos hok]
  have hdriver : (handleEvent s.driver p.event).1 =
      kbdRingPushNormal (processReport s.driver (s.driver.kbdReports (h % 7))).1 (h % 7) := by
    rw [handleEvent, htrb]
    rfl
  have hkeeps := processReport_keeps s.driver (s.driver.kbdReports (h % 7))
  have hpush := kbdRingPushNormal_keeps
    (processReport s.driver (s.driver.kbdReports (h % 7))).1 (h % 7)
  simp only [Sys.step, hpending]
  refine ⟨?_, hs.deq, by omega, by omega, by dsimp only; omega, fun k q hq ↦ ?_, ?_⟩
  · dsimp only
    rw [hdriver]
    exact (hs.pushed.processReport _).push
  · dsimp only at hq ⊢
    have hq' := hs.completed (k + 1) q (by rw [hpending, List.getElem?_cons_succ, hq])
    rw [hdriver, add_assoc, add_comm 1 k]
    exact (hq'.congr hkeeps).congr hpush
  dsimp only
  rw [hs.kept, decide_eq_false (hs.enq_not_queued (by omega)), Bool.and_false]
  rfl

theorem Sys.Ready.handle_failed (hs : s.Ready h c) {p : Completion} {rest : List Completion}
    (hpending : s.pending = p :: rest) (hfail : ¬ p.Successful) : ¬ (s.step .handle).Matched := by
  have hat : p.At s.driver (h % 7) := hs.completed 0 p (by rw [hpending]; rfl)
  have htrb : completedTrb s.driver p.event = none := by
    rw [hat.completedTrb (Nat.mod_lt _ (by decide)), if_neg hfail]
  have hdriver : (handleEvent s.driver p.event).1 = s.driver := by
    rw [handleEvent, htrb]
    rfl
  intro hmatched
  have hcount := hmatched.count
  have hbefore := hs.matched.count
  simp only [Sys.step, hpending, Sys.queued, hdriver] at hcount
  rw [hpending, List.length_cons, Sys.queued] at hbefore
  omega

end Invariant

section Results

/-- The ring after `setup_hid_on_port`, with the controller at its first TRB. -/
def Sys.start (d : Driver) (protocol slot dci : ℕ) : Sys :=
  ⟨setupHid d protocol slot dci, ⟨0, true⟩, [], false⟩

def Sys.Good (s : Sys) : Prop := ∃ h c, s.Ready h c

theorem start_ready (d : Driver) (protocol slot dci : ℕ) :
    (Sys.start d protocol slot dci).Ready 0 0 :=
  ⟨setupHid_pushed d protocol slot dci, rfl, le_rfl, by decide, rfl,
    fun _ _ hp ↦ absurd hp (by simp [Sys.start]), rfl⟩

theorem Sys.Good.step {s : Sys} {op : Op} (hs : s.Good) (hq : s.Requeues op) :
    (s.step op).Good := by
  obtain ⟨h, c, hs⟩ := hs
  cases op with
  | complete code data =>
    by_cases hlt : c < h + 7
    · exact ⟨h, c + 1, hs.complete hlt code data⟩
    obtain rfl : c = h + 7 := by
      have := hs.below
      omega
    rw [hs.complete_full]
    exact ⟨h, h + 7, hs⟩
  | handle =>
    cases hpending : s.pending with
    | nil =>
      simp only [Sys.step, hpending]
      exact ⟨h, c, hs⟩
    | cons p rest => exact ⟨h + 1, c, hs.handle hpending (hq p (by rw [hpending]; rfl))⟩

theorem Sys.Good.matched_iff {s : Sys} {op : Op} (hs : s.Good) :
    (s.step op).Matched ↔ s.Requeues op := by
  constructor
  · intro hm
    obtain ⟨h, c, hs⟩ := hs
    cases op with
    | complete code data => trivial
    | handle =>
      intro p hp
      obtain ⟨rest, hpending⟩ := List.head?_eq_some_iff.1 hp
      by_contra hfail
      exact hs.handle_failed hpending hfail hm
  intro hq
  obtain ⟨h, c, hm⟩ := hs.step hq
  exact hm.matched

/-- Buffers and slots stay matched exactly as long as every handled completion reports a success or
a short packet. -/
theorem hid_ring_matched (d : Driver) (protocol slot dci : ℕ) (ops : List Op) :
    (∀ n, ((ops.take n).foldl Sys.step (Sys.start d protocol slot dci)).Matched) ↔
      Along Sys.step Sys.Requeues (Sys.start d protocol slot dci) ops := by
  have hready := start_ready d protocol slot dci
  exact Along.throughout_iff (I := Sys.Good) (W := fun _ _ ↦ True)
    (fun _ _ hs _ _ hq ↦ hs.step hq) (fun _ _ hs _ _ ↦ hs.matched_iff)
    ⟨0, 0, hready⟩ hready.matched (Along.of_forall (fun _ _ ↦ trivial) _ _)

def idle : Driver where
  kbdRing := fun _ ↦ ⟨.null, 0, 0⟩
  kbdEnq := 0
  kbdCycle := false
  kbdReports := fun _ _ ↦ 0
  lastReport := fun _ ↦ 0
  hidProtocol := 0
  hidReportLen := 0
  slotId := 0
  kbdEpDci := 0

/-- A transaction error on the first TRB, then a key in the second: the first slot is queued again
with the second buffer, and six TRBs are left. -/
theorem failed_transfer_shifts_ring :
    let s := [Op.complete 4 [], .handle, .complete 1 [0, 0, 4], .handle].foldl Sys.step
      (Sys.start idle 1 1 3)
    s.queued = [2, 3, 4, 5, 6, 0] ∧ (s.driver.kbdRing 0).parameter = .report 1 ∧ ¬ s.Matched := by
  intro s
  have hs : s.queued = [2, 3, 4, 5, 6, 0] ∧ (s.driver.kbdRing 0).parameter = .report 1 := by
    decide +kernel
  refine ⟨hs.1, hs.2, fun hm ↦ ?_⟩
  have hslot := hm.slots 0 (by rw [hs.1]; decide)
  rw [hs.2] at hslot
  exact absurd hslot (by decide)

end Results

end NexusOS.Drivers.Xhci
