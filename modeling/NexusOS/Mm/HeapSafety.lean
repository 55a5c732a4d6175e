import Mathlib
import NexusOS.Lib.Run
import NexusOS.Mm.HeapOps

namespace NexusOS.Mm.Heap

open Lib

variable {V : Type*}

/-- The kernel as the heap's client, over a virtual-memory state `V`: `live` has the results handed
out and not yet freed, with the sizes asked for. -/
structure Client (V : Type*) where
  heap : State
  vmm : V
  live : List (ℕ × ℕ)

inductive Op
  | kmalloc (size : ℕ)
  | kfree (ptr : ℕ)

namespace Client

def start (mem : ℕ → HeapBlock) (pmmTotalPages : ℕ) (v : V) : Client V :=
  ⟨heapInit mem pmmTotalPages, v, []⟩

def step (m : Vmm V) (c : Client V) : Op → Client V
  | .kmalloc size =>
    match kmalloc m c.heap c.vmm size with
    | (none, s, v) => ⟨s, v, c.live⟩
    | (some p, s, v) => ⟨s, v, (p, size) :: c.live⟩
  | .kfree p => ⟨kfree c.heap (some p), c.vmm, c.live.filter (·.1 ≠ p)⟩

def Proper (c : Client V) : Op → Prop
  | .kmalloc size => size < 2 ^ 64
  | .kfree p => p ∈ c.live.map Prod.fst

instance (c : Client V) : (o : Op) → Decidable (c.Proper o)
  | .kmalloc size => inferInstanceAs (Decidable (size < 2 ^ 64))
  | .kfree p => inferInstanceAs (Decidable (p ∈ c.live.map Prod.fst))

end Client

/-- Each live result is the payload of an allocated block of its own. -/
structure Held (s : State) (l : List ℕ) (live : List (ℕ × ℕ)) : Prop where
  block : ∀ x ∈ live, ∃ a ∈ l, x.1 = a + 48 ∧ (s.mem a).flags = 0 ∧ x.2 ≤ (s.mem a).capacity
  nodup : (live.map Prod.fst).Nodup

theorem Held.kept {s s' : State} {l l' : List ℕ} {live : List (ℕ × ℕ)} {a : ℕ}
    (h : Held s l live) (hk : Kept a s l s' l') {x : ℕ × ℕ} (hx : x ∈ live) (hne : x.1 ≠ a + 48) :
    ∃ c ∈ l', x.1 = c + 48 ∧ (s'.mem c).flags = 0 ∧ x.2 ≤ (s'.mem c).capacity := by
  obtain ⟨c, hc, heq, hf, hle⟩ := h.block x hx
  obtain ⟨hc', hf', hcap⟩ := hk c hc (by omega) hf
  exact ⟨c, hc', heq, hf', by rwa [hcap]⟩

def Client.Inv (r : Bool) (c : Client V) : Prop :=
  c.heap.ready = r ∧ ∃ l, WellFormed c.heap l ∧ Held c.heap l c.live

theorem start_inv (mem : ℕ → HeapBlock) (total : ℕ) (v : V) :
    (Client.start mem total v).Inv (decide (total ≠ 0)) :=
  ⟨rfl, [], ⟨rfl, rfl, by simp, rfl, show heapBase ≤ heapLimit by decide⟩,
    by simp [Client.start], by simp [Client.start]⟩

variable (m : Vmm V) {c : Client V} {r : Bool}

theorem kmalloc_inv {size : ℕ} (h : c.Inv r) (hlt : size < 2 ^ 64) :
    (c.step m (.kmalloc size)).Inv r := by
  obtain ⟨hr, l, hw, hh⟩ := h
  obtain ⟨s', v', heq, hmem, harena⟩ | ⟨a, s', v', l', heq, -, hfree, hr', hw', hk, ha, hf, hle⟩ :=
    kmalloc_spec m hw c.vmm hlt
  · simp only [Client.step, heq]
    refine ⟨harena.2.2.2.trans hr, l, hw.congr harena (by simp [hmem])
      (by simpa [hmem] using hw.good), ⟨?_, hh.nodup⟩⟩
    simpa only [hmem] using hh.block
  · have hnew : ∀ x ∈ c.live, x.1 ≠ a + 48 := by
      intro x hx heq
      obtain ⟨b, hb, hxb, hfb, -⟩ := hh.block x hx
      obtain rfl : b = a := by omega
      have := hfree hb
      omega
    simp only [Client.step, heq]
    refine ⟨hr'.trans hr, l', hw', ⟨?_, ?_⟩⟩
    · intro x hx
      rcases List.mem_cons.mp hx with rfl | hx
      · exact ⟨a, ha, rfl, hf, hle⟩
      · exact hh.kept hk hx (hnew x hx)
    refine List.nodup_cons.mpr ⟨fun hmem ↦ ?_, hh.nodup⟩
    obtain ⟨x, hx, heq⟩ := List.mem_map.mp hmem
    exact hnew x hx heq

theorem kfree_inv {p : ℕ} (h : c.Inv r) (hp : p ∈ c.live.map Prod.fst) :
    (c.step m (.kfree p)).Inv r := by
  obtain ⟨hr, l, hw, hh⟩ := h
  obtain ⟨x, hx, rfl⟩ := List.mem_map.mp hp
  obtain ⟨a, ha, hxa, hf, -⟩ := hh.block x hx
  obtain ⟨hr', l', hw', hk⟩ := kfree_spec hw ha hf
  simp only [Client.step, hxa]
  refine ⟨hr'.trans hr, l', hw', ⟨fun y hy ↦ ?_, hh.nodup.sublist ?_⟩⟩
  · obtain ⟨hy, hne⟩ := List.mem_filter.mp hy
    exact hh.kept hk hy (by simpa using hne)
  · exact List.filter_sublist.map _

theorem step_inv (o : Op) (h : c.Inv r) (ho : c.Proper o) : (c.step m o).Inv r :=
  match o with
  | .kmalloc _ => kmalloc_inv m h ho
  | .kfree _ => kfree_inv m h ho

/-- The bytes a result `p` owns. -/
def payload (s : State) (p : ℕ) : Set ℕ := Set.Ico p (p + (s.mem (p - 48)).capacity)

def header (a : ℕ) : Set ℕ := Set.Ico a (a + 48)

theorem Ico_disjoint {a b a' b' : ℕ} (h : b ≤ a' ∨ b' ≤ a) :
    Disjoint (Set.Ico a b) (Set.Ico a' b') := by
  rw [Set.disjoint_left]
  rintro x ⟨h₁, h₂⟩ ⟨h₃, h₄⟩
  omega

section Owned

variable {s : State} {l : List ℕ} {live : List (ℕ × ℕ)}

section

variable (hw : WellFormed s l)
include hw

theorem payload_header {a b : ℕ} (ha : a ∈ l) (hb : b ∈ l) :
    Disjoint (payload s (a + 48)) (header b) := by
  have hcap : (s.mem (a + 48 - 48)).capacity = (s.mem a).capacity := by rw [Nat.add_sub_cancel]
  refine Ico_disjoint ?_
  by_cases hab : a = b
  · exact .inr (by omega)
  have := hw.apart ha hb hab
  omega

theorem payload_disjoint {a b : ℕ} (ha : a ∈ l) (hb : b ∈ l)
    (hab : a ≠ b) : Disjoint (payload s (a + 48)) (payload s (b + 48)) := by
  have hcap : ∀ c, (s.mem (c + 48 - 48)).capacity = (s.mem c).capacity := fun c ↦ by
    rw [Nat.add_sub_cancel]
  have := hw.apart ha hb hab
  refine Ico_disjoint ?_
  rw [hcap, hcap]
  omega

theorem Held.pairwise (h : Held s l live) :
    live.Pairwise fun x y ↦ Disjoint (payload s x.1) (payload s y.1) := by
  refine (List.pairwise_map.mp h.nodup).imp_of_mem fun {x y} hx hy hne ↦ ?_
  obtain ⟨a, ha, hxa, -⟩ := h.block x hx
  obtain ⟨b, hb, hyb, -⟩ := h.block y hy
  rw [hxa, hyb]
  exact payload_disjoint hw ha hb (by omega)

theorem Held.owned (h : Held s l live) {x : ℕ × ℕ} (hx : x ∈ live) :
    16 ∣ x.1 ∧ x.2 ≤ (s.mem (x.1 - 48)).capacity ∧ x.1 - 48 ∈ l ∧
      ∀ b ∈ l, Disjoint (payload s x.1) (header b) := by
  obtain ⟨a, ha, hxa, -, hle⟩ := h.block x hx
  have haligned := hw.aligned ha
  rw [hxa, Nat.add_sub_cancel]
  exact ⟨by omega, hle, ha, fun b hb ↦ payload_header hw ha hb⟩

end

end Owned

/-- Whatever is allocated and freed, and wherever the page allocator or the mapper fails, the
blocks tile the arena, a heap that came up ready validates, and every live result is aligned, has
the room asked for and shares no byte with a header or with another result. -/
theorem heap_run_tiled (mem : ℕ → HeapBlock) (total : ℕ) (v : V) (ops : List Op)
    (hp : Along (Client.step m) Client.Proper (Client.start mem total v) ops) :
    let c := ops.foldl (Client.step m) (Client.start mem total v)
    ∃ l, c.heap.head = l.head? ∧ Chain c.heap none heapBase l c.heap.heapNext none ∧
      (∀ a ∈ l, 16 ∣ a ∧ 16 ∣ (c.heap.mem a).capacity ∧
        (c.heap.mem a).size ≤ (c.heap.mem a).capacity ∧
        (∀ b, (c.heap.mem a).next = some b → b ∈ l ∧ (c.heap.mem b).prev = some a ∧
          a + (48 + (c.heap.mem a).capacity) = b) ∧
        (∀ b, (c.heap.mem a).prev = some b → b ∈ l ∧ (c.heap.mem b).next = some a) ∧
        ((c.heap.mem a).next = none → a + (48 + (c.heap.mem a).capacity) = c.heap.heapNext)) ∧
      c.heap.heapNext = heapBase + 4096 * c.heap.heapPages ∧ c.heap.heapNext ≤ heapLimit ∧
      (total ≠ 0 → l.length ≤ 1000000 → (heapValidate c.heap).1 = true) ∧
      (∀ x ∈ c.live, 16 ∣ x.1 ∧ x.2 ≤ (c.heap.mem (x.1 - 48)).capacity ∧ x.1 - 48 ∈ l ∧
        ∀ b ∈ l, Disjoint (payload c.heap x.1) (header b)) ∧
      c.live.Pairwise fun x y ↦ Disjoint (payload c.heap x.1) (payload c.heap y.1) := by
  intro c
  obtain ⟨hr, l, hw, hh⟩ : c.Inv (decide (total ≠ 0)) :=
    Along.invariant (fun c o ↦ step_inv m o) (start_inv mem total v) hp
  refine ⟨l, hw.head, hw.chain, fun a ha ↦ ?_, hw.pages, hw.limit, fun htotal hlen ↦ ?_,
    fun x hx ↦ hh.owned hw hx, hh.pairwise hw⟩
  · have hg := hw.good a ha
    obtain ⟨hnext, hprev, hend⟩ := Tiled.links hw.chain ha
    exact ⟨hw.aligned ha, hg.aligned, hg.size_le, hnext, hprev, hend⟩
  · exact (hw.heapValidate_iff (by simpa [htotal] using hr)).mpr (hlen.trans (by decide))

section Sample

def bumpVmm : Vmm ℕ where
  pmmAllocPage v := (v, v + 4096)
  pmmFreePage _ v := v
  vmmMapPage _ _ _ v := (true, v)
  vmmUnmapPage _ v := v
  vmmVirtToPhys _ _ := 0

def blank : ℕ → HeapBlock := fun _ ↦ ⟨0, 0, 0, 0, none, none⟩

def sampleOps : List Op := [.kmalloc 100, .kmalloc 40, .kfree (heapBase + 48), .kmalloc 20]

def sampleRun : Client ℕ := sampleOps.foldl (Client.step bumpVmm) (Client.start blank 1 4096)

/-- A freed block is cut for a smaller request while a later block stays live. -/
theorem heap_run_tiled_reuse :
    sampleRun.live = [(heapBase + 48, 20), (heapBase + 4096 + 48, 40)] ∧
      ∃ l, Chain sampleRun.heap none heapBase l sampleRun.heap.heapNext none ∧
        sampleRun.live.Pairwise fun x y ↦
          Disjoint (payload sampleRun.heap x.1) (payload sampleRun.heap y.1) := by
  have hp : Along (Client.step bumpVmm) Client.Proper (Client.start blank 1 4096) sampleOps := by
    decide +kernel
  obtain ⟨l, -, hc, -, -, -, -, -, hd⟩ := heap_run_tiled bumpVmm blank 1 4096 sampleOps hp
  exact ⟨by decide +kernel, l, hc, hd⟩

/-- A heap whose page allocator has no pages is not ready: its empty block list tiles the empty
arena and yet is not validated. -/
theorem heapValidate_not_ready :
    WellFormed (heapInit blank 0) [] ∧ (heapValidate (heapInit blank 0)).1 = false :=
  ⟨⟨rfl, rfl, by simp, rfl, show heapBase ≤ heapLimit by decide⟩, rfl⟩

end Sample

end NexusOS.Mm.Heap
