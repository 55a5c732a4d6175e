import Mathlib.Data.List.TakeWhile
import Mathlib.Tactic
import NexusOS.Lib.Run

namespace NexusOS.Shell.History

open Lib

section Source

abbrev Str := List UInt8

/-- The line editor: `line` is `g_buf` up to `g_len`, and the other arrays are the strings in
them. -/
structure State where
  line : Str
  history : ℕ → Str
  historyCount : ℕ
  historyNext : ℕ
  historyPos : ℤ
  draft : Str

def cString (s : Str) : Str := s.takeWhile (· ≠ 0)

def historyAdd (s : State) (cmd : Str) : State :=
  if cmd = [] then s
  else { s with
    history := Function.update s.history s.historyNext (cmd.take 255)
    historyNext := (s.historyNext + 1) % 8
    historyCount := if s.historyCount < 8 then s.historyCount + 1 else s.historyCount }

def historyGet (s : State) (idx : ℤ) : Option Str :=
  if idx < 0 ∨ s.historyCount ≤ idx then none
  else some (s.history ((s.historyNext - 1 - idx + 2 * 8) % 8).toNat)

def redrawLine (s : State) (newCmd : Str) : State := { s with line := (cString newCmd).take 255 }

/-- A line of the history in place of the edited one; the pointer is never null there. -/
def showHistory (s : State) : State :=
  match historyGet s s.historyPos with
  | some cmd => redrawLine s cmd
  | none => s

def shellHistoryPrev (s : State) : State :=
  if s.historyCount ≤ s.historyPos + 1 then s
  else
    let s := if s.historyPos = -1 then { s with draft := s.line } else s
    showHistory { s with historyPos := s.historyPos + 1 }

def shellHistoryNext (s : State) : State :=
  if s.historyPos = -1 then s
  else
    let s := { s with historyPos := s.historyPos - 1 }
    if s.historyPos = -1 then redrawLine s s.draft else showHistory s

def newline : UInt8 := 10

def backspace : UInt8 := 8

def shellInputChar (s : State) (c : UInt8) : State :=
  if c = newline then { historyAdd s (cString s.line) with line := [], historyPos := -1 }
  else if c = backspace then { s with line := s.line.dropLast, historyPos := -1 }
  else { s with
    line := if s.line.length < 255 then s.line ++ [c] else s.line
    historyPos := -1 }

def shellReturnFromDesktop (s : State) : State := { s with line := [], historyPos := -1 }

end Source

section Runs

/-- The calls of the keyboard drivers, which pass on no zero character. -/
inductive Op
  | char (c : UInt8) (h : c ≠ 0)
  | prev
  | next
  | desktop

def call (s : State) : Op → State
  | .char c _ => shellInputChar s c
  | .prev => shellHistoryPrev s
  | .next => shellHistoryNext s
  | .desktop => shellReturnFromDesktop s

def enters (s : State) : Op → Option Str
  | .char c _ => if c = newline then some s.line else none
  | _ => none

/-- A call, with the lines entered so far, the last one first. -/
def step (r : State × List Str) (op : Op) : State × List Str :=
  (call r.1 op, (enters r.1 op).toList ++ r.2)

def Clean (s : Str) : Prop := 0 ∉ s ∧ s.length ≤ 255

/-- The lines `es`, the last one first, are in the ring as far as there is room. -/
structure State.Keeps (s : State) (es : List Str) : Prop where
  count : s.historyCount = min 8 es.length
  next : s.historyNext = es.length % 8
  row : ∀ i (h : i < es.length), i < 8 → s.history ((es.length - 1 - i) % 8) = es[i]
  clean : ∀ e ∈ es, Clean e

structure State.Good (s : State) (log : List Str) : Prop where
  line : Clean s.line
  keeps : s.Keeps (log.filter (· ≠ []))
  pos : -1 ≤ s.historyPos
  lt : s.historyPos = -1 ∨ s.historyPos < s.historyCount
  draft : s.historyPos = -1 ∨ Clean s.draft

variable {s t : State} {es log : List Str} {e : Str}

theorem cString_of_clean (h : Clean e) : (cString e).take 255 = e := by
  have hall : ∀ c ∈ e, decide (c ≠ 0) = true := by
    intro c hc
    rw [decide_eq_true_iff]
    rintro rfl
    exact h.1 hc
  rw [cString, List.takeWhile_eq_self_iff.2 hall, List.take_of_length_le h.2]

theorem State.Keeps.historyGet_eq (h : s.Keeps es) (i : ℤ) :
    historyGet s i = if i < 0 then none else (es.take 8)[i.toNat]? := by
  have hcount := h.count
  have hnext := h.next
  by_cases hneg : i < 0
  · rw [historyGet, if_pos (.inl hneg), if_pos hneg]
  by_cases hin : i < s.historyCount
  · have hlt : i.toNat < es.length := by omega
    have hslot : ((s.historyNext : ℤ) - 1 - i + 2 * 8) % 8 =
        ((es.length - 1 - i.toNat) % 8 : ℕ) := by omega
    rw [historyGet, if_neg (by omega), if_neg hneg, List.getElem?_take_of_lt (by omega),
      List.getElem?_eq_getElem hlt, hslot, Int.toNat_natCast, h.row _ hlt (by omega)]
  rw [historyGet, if_pos (by omega), if_neg hneg, List.getElem?_eq_none]
  rw [List.length_take]
  omega

theorem State.Keeps.historyGet_some (h : s.Keeps es) {k : ℕ} (hk : k < s.historyCount) :
    ∃ e, historyGet s k = some e ∧ Clean e := by
  have hcount := h.count
  have hlt : k < es.length := by omega
  refine ⟨es[k], ?_, h.clean _ (List.getElem_mem hlt)⟩
  rw [h.historyGet_eq, if_neg (by omega), Int.toNat_natCast,
    List.getElem?_take_of_lt (by omega), List.getElem?_eq_getElem hlt]

theorem State.Keeps.congr (h : s.Keeps es) (hcount : t.historyCount = s.historyCount)
    (hnext : t.historyNext = s.historyNext) (hhistory : t.history = s.history) : t.Keeps es :=
  ⟨hcount.trans h.count, hnext.trans h.next, hhistory ▸ h.row, h.clean⟩

theorem State.Keeps.add (h : s.Keeps es) (he : Clean e) (hne : e ≠ []) :
    (historyAdd s e).Keeps (e :: es) := by
  have hcount := h.count
  have hnext := h.next
  rw [historyAdd, if_neg hne, List.take_of_length_le he.2]
  refine ⟨?_, ?_, fun i hi hi8 ↦ ?_, List.forall_mem_cons.2 ⟨he, h.clean⟩⟩
  · rw [List.length_cons]
    dsimp only
    split <;> omega
  · rw [List.length_cons]
    dsimp only
    omega
  rw [List.length_cons] at hi ⊢
  cases i with
  | zero =>
    have hslot : (es.length + 1 - 1 - 0) % 8 = s.historyNext := by omega
    rw [hslot]
    exact Function.update_self ..
  | succ i =>
    have hslot : (es.length + 1 - 1 - (i + 1)) % 8 = (es.length - 1 - i) % 8 := by omega
    rw [hslot]
    -- The slot of a line that stays is not the one that is overwritten.
    exact (Function.update_of_ne (by omega) _ _).trans (h.row i (by omega) (by omega))

theorem State.Good.edit (h : s.Good log) (hline : Clean e) :
    State.Good { s with line := e, historyPos := -1 } log :=
  ⟨hline, h.keeps.congr rfl rfl rfl, le_refl _, .inl rfl, .inl rfl⟩

theorem clean_nil : Clean [] := ⟨List.not_mem_nil, Nat.zero_le _⟩

theorem State.Good.char (h : s.Good log) (c : UInt8) (hc : c ≠ 0) :
    (call s (.char c hc)).Good ((enters s (.char c hc)).toList ++ log) := by
  simp only [call, enters, shellInputChar]
  by_cases hnewline : c = newline
  · simp only [if_pos hnewline, Option.toList_some, List.singleton_append]
    have hstring : cString s.line = s.line := by
      have hfull := cString_of_clean h.line
      have hle : (cString s.line).length ≤ 255 :=
        (List.takeWhile_sublist _).length_le.trans h.line.2
      rwa [List.take_of_length_le hle] at hfull
    rw [hstring]
    by_cases hempty : s.line = []
    · have hlog : (s.line :: log).filter (· ≠ []) = log.filter (· ≠ []) :=
        List.filter_cons_of_neg (by simpa using hempty)
      rw [historyAdd, if_pos hempty]
      exact ⟨clean_nil, hlog ▸ h.keeps.congr rfl rfl rfl, le_refl _, .inl rfl, .inl rfl⟩
    refine ⟨clean_nil, ?_, le_refl _, .inl rfl, .inl rfl⟩
    rw [List.filter_cons_of_pos (by simpa using hempty)]
    exact (h.keeps.add h.line hempty).congr rfl rfl rfl
  · simp only [if_neg hnewline, Option.toList_none, List.nil_append]
    split
    · exact h.edit ⟨fun hz ↦ h.line.1 (List.mem_of_mem_dropLast hz),
        (List.dropLast_sublist _).length_le.trans h.line.2⟩
    refine h.edit ?_
    split
    · rename_i hroom
      refine ⟨?_, by simpa using hroom⟩
      rw [List.mem_append, List.mem_singleton]
      exact not_or.2 ⟨h.line.1, hc.symm⟩
    · exact h.line

theorem showHistory_eq (h : s.Keeps es) {k : ℕ} (hk : k < s.historyCount)
    (hpos : s.historyPos = k) :
    showHistory s = { s with line := (historyGet s k).getD [] } := by
  obtain ⟨e, hget, he⟩ := h.historyGet_some hk
  have hshow : historyGet s s.historyPos = some e := hpos ▸ hget
  rw [showHistory, hshow, hget, Option.getD_some]
  show { s with line := (cString e).take 255 } = _
  rw [cString_of_clean he]

theorem State.Good.show (h : s.Good log) {k : ℕ} (hk : k < s.historyCount) {d : Str}
    (hd : Clean d) :
    (showHistory { s with historyPos := k, draft := d }).Good log := by
  have hkeeps : State.Keeps { s with historyPos := k, draft := d } _ := h.keeps.congr rfl rfl rfl
  obtain ⟨e, hget, he⟩ := hkeeps.historyGet_some hk
  rw [showHistory_eq hkeeps hk rfl, hget]
  refine ⟨he, hkeeps.congr rfl rfl rfl, ?_, .inr ?_, .inr hd⟩
  · show -1 ≤ (k : ℤ)
    omega
  show (k : ℤ) < s.historyCount
  omega

theorem State.Good.prev (h : s.Good log) : (shellHistoryPrev s).Good log := by
  have hpos := h.pos
  unfold shellHistoryPrev
  split
  · exact h
  rename_i hroom
  obtain ⟨k, hk⟩ : ∃ k : ℕ, s.historyPos + 1 = k := ⟨(s.historyPos + 1).toNat, by omega⟩
  by_cases hfirst : s.historyPos = -1
  · simp only [if_pos hfirst, hk]
    exact h.show (by omega) h.line
  simp only [if_neg hfirst, hk]
  exact h.show (by omega) (h.draft.resolve_left hfirst)

theorem State.Good.next (h : s.Good log) : (shellHistoryNext s).Good log := by
  have hpos := h.pos
  unfold shellHistoryNext
  split
  · exact h
  rename_i hbrowsing
  have hlt := h.lt.resolve_left hbrowsing
  have hdraft := h.draft.resolve_left hbrowsing
  by_cases hlast : s.historyPos - 1 = -1
  · simp only [if_pos hlast, redrawLine, cString_of_clean hdraft]
    exact ⟨hdraft, h.keeps.congr rfl rfl rfl, hlast.ge, .inl hlast, .inl hlast⟩
  obtain ⟨k, hk⟩ : ∃ k : ℕ, s.historyPos - 1 = k := ⟨(s.historyPos - 1).toNat, by omega⟩
  simp only [hk]
  rw [if_neg (by omega)]
  exact h.show (by omega) hdraft

theorem step_good {r : State × List Str} (op : Op) (h : r.1.Good r.2) :
    (step r op).1.Good (step r op).2 := by
  cases op with
  | char c hc => exact h.char c hc
  | prev => exact h.prev
  | next => exact h.next
  | desktop => exact h.edit clean_nil

end Runs

section Browsing

variable {s : State} {es log : List Str} {k : ℕ}

end Browsing

end NexusOS.Shell.History
