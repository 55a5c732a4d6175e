import Mathlib
import NexusOS.Lib.Run

namespace NexusOS.Drivers.Xhci

open Lib

section Source

/-- A boot keyboard report: the modifiers, a reserved byte and six usage slots. -/
abbrev Report := Fin 8 → UInt8

def Report.slots (report : Report) : List UInt8 :=
  [report 2, report 3, report 4, report 5, report 6, report 7]

structure HidKey where
  usage : UInt8
  shift : Bool
  ctrl : Bool
  deriving DecidableEq

/-- The calls of `dispatch_hid_key`, and the report kept as `g_last_report`. -/
def processBootReport (lastReport report : Report) : List HidKey × Report :=
  let modifiers := report 0
  let shift := decide (modifiers &&& 0x22 ≠ 0)
  let ctrl := decide (modifiers &&& 0x11 ≠ 0)
  let pressed := report.slots.filter fun usage ↦
    ¬ (usage = 0 ∨ usage = 1) ∧ usage ∉ lastReport.slots
  (pressed.map fun usage ↦ ⟨usage, shift, ctrl⟩, report)

end Source

section History

def Report.Rollover (report : Report) : Prop := report.slots = List.replicate 6 1

instance (report : Report) : Decidable report.Rollover := inferInstanceAs (Decidable (_ = _))

/-- A report of the keyboard while the keys of `held` are down. -/
structure Scan where
  held : Finset UInt8
  report : Report
  keys : ∀ u ∈ held, ¬ (u = 0 ∨ u = 1)
  listed : held.card ≤ 6 →
    (report.slots : Multiset UInt8) = held.val + Multiset.replicate (6 - held.card) 0
  rollover : 6 < held.card → report.Rollover

/-- The driver, and the keys of the last report that was not a rollover one. -/
structure Host where
  lastReport : Report
  seen : Finset UInt8

def Host.step (h : Host) (scan : Scan) : Host where
  lastReport := (processBootReport h.lastReport scan.report).2
  seen := if scan.held.card ≤ 6 then scan.held else h.seen

def Host.setup : Host := ⟨fun _ ↦ 0, ∅⟩

/-- A report dispatches the keys it lists that were not down before, each once, and a rollover
report none. -/
def Host.DeliversOnce (h : Host) (scan : Scan) : Prop :=
  ∀ u, ((processBootReport h.lastReport scan.report).1.map HidKey.usage).count u =
    if scan.held.card ≤ 6 ∧ u ∈ scan.held ∧ u ∉ h.seen then 1 else 0

/-- A list of keys that directly follows a rollover report has none of the keys known before it. -/
def Host.Fresh (h : Host) (scan : Scan) : Prop :=
  h.lastReport.Rollover → scan.held.card ≤ 6 → Disjoint scan.held h.seen

end History

section Step

variable {h : Host} {scan : Scan} {u : UInt8}

theorem Scan.count_slots (scan : Scan) (hu : ¬ (u = 0 ∨ u = 1)) :
    scan.report.slots.count u = if scan.held.card ≤ 6 ∧ u ∈ scan.held then 1 else 0 := by
  by_cases hcard : scan.held.card ≤ 6
  · rw [← Multiset.coe_count, scan.listed hcard, Multiset.count_add, Multiset.count_replicate,
      if_neg (fun h0 ↦ hu (.inl h0.symm)), add_zero, Multiset.count_eq_of_nodup scan.held.nodup]
    simp [hcard]
  have hroll : scan.report.slots = List.replicate 6 1 := scan.rollover (by omega)
  rw [hroll, List.count_replicate]
  have h1 : (1 : UInt8) ≠ u := fun h1 ↦ hu (.inr h1.symm)
  simp [hcard, h1]

theorem Scan.mem_slots (scan : Scan) (hu : ¬ (u = 0 ∨ u = 1)) :
    u ∈ scan.report.slots ↔ scan.held.card ≤ 6 ∧ u ∈ scan.held := by
  rw [← List.count_pos_iff, scan.count_slots hu]
  split_ifs with hmem
  · simp [hmem]
  · simp [hmem]

/-- The keys of the last report are the known ones, unless it was a rollover report. -/
def Host.Knows (h : Host) : Prop :=
  h.lastReport.Rollover ∨ ∀ u, ¬ (u = 0 ∨ u = 1) → (u ∈ h.lastReport.slots ↔ u ∈ h.seen)

theorem step_knows (h : Host) (scan : Scan) : (h.step scan).Knows := by
  by_cases hcard : scan.held.card ≤ 6
  · refine .inr fun u hu ↦ ?_
    have hseen : (h.step scan).seen = scan.held := if_pos hcard
    rw [hseen]
    exact (scan.mem_slots hu).trans (and_iff_right hcard)
  · exact .inl (scan.rollover (by omega))

theorem count_dispatched (last : Report) (scan : Scan) (u : UInt8) :
    ((processBootReport last scan.report).1.map HidKey.usage).count u =
      if (scan.held.card ≤ 6 ∧ u ∈ scan.held) ∧ u ∉ last.slots then 1 else 0 := by
  have husages : (processBootReport last scan.report).1.map HidKey.usage =
      scan.report.slots.filter fun usage ↦ ¬ (usage = 0 ∨ usage = 1) ∧ usage ∉ last.slots := by
    simp [processBootReport, Function.comp_def]
  rw [husages]
  by_cases hpress : ¬ (u = 0 ∨ u = 1) ∧ u ∉ last.slots
  · rw [List.count_filter (by simpa using hpress), scan.count_slots hpress.1]
    simp [hpress.2]
  have hnot : u ∉ scan.report.slots.filter fun usage ↦
      ¬ (usage = 0 ∨ usage = 1) ∧ usage ∉ last.slots := by
    intro hmem
    exact hpress (by simpa using (List.mem_filter.1 hmem).2)
  rw [List.count_eq_zero_of_not_mem hnot, if_neg]
  rintro ⟨⟨-, hheld⟩, hlast⟩
  exact hpress ⟨scan.keys u hheld, hlast⟩

theorem Report.Rollover.not_mem {last : Report} (hroll : last.Rollover)
    (hu : ¬ (u = 0 ∨ u = 1)) : u ∉ last.slots := by
  rw [Report.Rollover] at hroll
  rw [hroll]
  intro hmem
  exact hu (.inr (List.eq_of_mem_replicate hmem))

theorem deliversOnce_iff (hknows : h.Knows) (scan : Scan) : h.DeliversOnce scan ↔ h.Fresh scan := by
  unfold Host.DeliversOnce
  simp only [count_dispatched]
  by_cases hroll : h.lastReport.Rollover
  · constructor
    · intro honce _ hcard
      refine Finset.disjoint_left.2 fun u hheld hseen ↦ ?_
      have hu := honce u
      rw [if_pos ⟨⟨hcard, hheld⟩, hroll.not_mem (scan.keys u hheld)⟩,
        if_neg (fun hc ↦ hc.2.2 hseen)] at hu
      exact one_ne_zero hu
    · intro hfresh u
      refine if_congr ?_ rfl rfl
      rw [and_assoc]
      refine and_congr_right fun hcard ↦ and_congr_right fun hheld ↦ ?_
      have hseen := Finset.disjoint_left.1 (hfresh hroll hcard) hheld
      exact iff_of_true (hroll.not_mem (scan.keys u hheld)) hseen
  · have hlast := hknows.resolve_left hroll
    refine iff_of_true (fun u ↦ ?_) (fun hr ↦ absurd hr hroll)
    refine if_congr ?_ rfl rfl
    rw [and_assoc]
    refine and_congr_right fun _ ↦ and_congr_right fun hheld ↦ ?_
    exact not_congr (hlast u (scan.keys u hheld))

end Step

section Results

/-- Every press is delivered once exactly as long as no list of keys that follows a rollover report
repeats a key that was down before. -/
theorem held_keys_delivered_once (scans : List Scan) :
    Along Host.step Host.DeliversOnce Host.setup scans ↔
      Along Host.step Host.Fresh Host.setup scans := by
  refine Along.congr (I := Host.Knows) (fun h scan _ _ ↦ step_knows h scan)
    (fun h scan hknows ↦ deliversOnce_iff hknows scan) ?_ scans
  refine .inr fun u hu ↦ iff_of_false (fun hmem ↦ hu (.inl ?_)) (Finset.notMem_empty u)
  exact List.eq_of_mem_replicate (n := 6) hmem

def holdA : Scan where
  held := {4}
  report := ![0, 0, 4, 0, 0, 0, 0, 0]
  keys := by simp
  listed := by decide
  rollover := by decide

def holdSeven : Scan where
  held := {4, 5, 6, 7, 8, 9, 10}
  report := ![0, 0, 1, 1, 1, 1, 1, 1]
  keys := by simp
  listed := by decide
  rollover := by decide

/-- A key that stays down is dispatched a second time after a rollover report. -/
theorem held_key_repeats :
    let h := [holdA, holdSeven].foldl Host.step Host.setup
    (processBootReport Host.setup.lastReport holdA.report).1 = [⟨4, false, false⟩] ∧
      (processBootReport h.lastReport holdA.report).1 = [⟨4, false, false⟩] ∧
      ¬ Along Host.step Host.DeliversOnce Host.setup [holdA, holdSeven, holdA] := by
  intro h
  refine ⟨by decide, by decide, fun honce ↦ ?_⟩
  exact absurd (honce.2.2.1 4) (by decide)

end Results

end NexusOS.Drivers.Xhci
