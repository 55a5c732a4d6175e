import Mathlib.Data.List.Basic
import Mathlib.Logic.Function.Basic
import Mathlib.Tactic

namespace NexusOS.Lib

/-- The cells `l` lie one behind the other from `b` to `e` and are doubly linked: `p` is what the
first cell has as predecessor and `n` what the last one has as successor. -/
def Tiled (prev next : ℕ → Option ℕ) (span : ℕ → ℕ) :
    Option ℕ → ℕ → List ℕ → ℕ → Option ℕ → Prop
  | _, b, [], e, _ => b = e
  | p, b, a :: l, e, n =>
    a = b ∧ prev a = p ∧ next a = l.head?.or n ∧ 0 < span a ∧
      Tiled prev next span (some a) (a + span a) l e n

namespace Tiled

variable {prev next prev' next' : ℕ → Option ℕ} {span span' : ℕ → ℕ}
variable {p p' n n' : Option ℕ} {b e : ℕ} {l l' l₁ l₂ : List ℕ}

theorem append :
    Tiled prev next span p b (l₁ ++ l₂) e n ↔
      ∃ c, Tiled prev next span p b l₁ c (l₂.head?.or n) ∧
        Tiled prev next span (l₁.getLast?.or p) c l₂ e n := by
  induction l₁ generalizing p b with
  | nil => simp [Tiled]
  | cons a l₁ ih =>
    have hhead : (l₁ ++ l₂).head?.or n = l₁.head?.or (l₂.head?.or n) := by
      cases l₁ <;> simp
    have hlast : ∀ q : Option ℕ, (a :: l₁).getLast?.or q = l₁.getLast?.or (some a) := by
      intro q
      cases l₁ with
      | nil => simp
      | cons c l₁ => simp [List.getLast?_cons]
    simp only [List.cons_append, Tiled, ih, hhead, hlast]
    constructor
    · rintro ⟨ha, hp, hn, hs, c, h₁, h₂⟩
      exact ⟨c, ⟨ha, hp, hn, hs, h₁⟩, h₂⟩
    rintro ⟨c, ⟨ha, hp, hn, hs, h₁⟩, h₂⟩
    exact ⟨ha, hp, hn, hs, c, h₁, h₂⟩

section

variable (h : Tiled prev next span p b l e n)
include h

theorem start_le : b ≤ e := by
  induction l generalizing p b with
  | nil => exact h.le
  | cons a l ih =>
    obtain ⟨rfl, -, -, -, h⟩ := h
    have := ih h
    omega

theorem bounds {a : ℕ} (ha : a ∈ l) : b ≤ a ∧ a + span a ≤ e ∧ 0 < span a := by
  induction l generalizing p b with
  | nil => exact absurd ha List.not_mem_nil
  | cons c l ih =>
    obtain ⟨rfl, -, -, hs, h⟩ := h
    rcases List.mem_cons.mp ha with rfl | ha
    · exact ⟨le_rfl, h.start_le, hs⟩
    obtain ⟨hb, he, hs'⟩ := ih h ha
    exact ⟨by omega, he, hs'⟩

theorem apart {a c : ℕ} (ha : a ∈ l) (hc : c ∈ l)
    (hne : a ≠ c) : a + span a ≤ c ∨ c + span c ≤ a := by
  induction l generalizing p b with
  | nil => exact absurd ha List.not_mem_nil
  | cons d l ih =>
    obtain ⟨rfl, -, -, -, h⟩ := h
    rcases List.mem_cons.mp ha with rfl | ha' <;> rcases List.mem_cons.mp hc with rfl | hc'
    · exact absurd rfl hne
    · exact .inl (h.bounds hc').1
    · exact .inr (h.bounds ha').1
    · exact ih h ha' hc'

theorem dvd {d : ℕ} (hb : d ∣ b) (hs : ∀ a ∈ l, d ∣ span a) {a : ℕ} (ha : a ∈ l) : d ∣ a := by
  induction l generalizing p b with
  | nil => exact absurd ha List.not_mem_nil
  | cons c l ih =>
    obtain ⟨rfl, -, -, -, h⟩ := h
    rcases List.mem_cons.mp ha with rfl | ha
    · exact hb
    exact ih h (dvd_add hb (hs c List.mem_cons_self))
      (fun a ha ↦ hs a (List.mem_cons_of_mem _ ha)) ha

theorem nodup : l.Nodup := by
  induction l generalizing p b with
  | nil => exact List.nodup_nil
  | cons a l ih =>
    obtain ⟨rfl, -, -, hs, h⟩ := h
    refine List.nodup_cons.mpr ⟨fun ha ↦ ?_, ih h⟩
    have := (h.bounds ha).1
    omega

theorem unique (h' : Tiled prev next span p' b l' e n') : l = l' := by
  induction l generalizing p p' b l' with
  | nil =>
    obtain rfl : b = e := h
    cases l' with
    | nil => rfl
    | cons a l' =>
      obtain ⟨rfl, -, -, hs, hrest⟩ := h'
      have hle := start_le hrest
      omega
  | cons a l ih =>
    obtain ⟨rfl, -, -, hs, hrest⟩ := h
    cases l' with
    | nil =>
      obtain rfl : a = e := h'
      have hle := start_le hrest
      omega
    | cons c l' =>
      obtain ⟨rfl, -, -, -, hrest'⟩ := h'
      rw [ih hrest hrest']

theorem sum_le {w : ℕ → ℕ} (hw : ∀ a ∈ l, w a ≤ span a) : b + (l.map w).sum ≤ e := by
  induction l generalizing p b with
  | nil => exact h.le
  | cons a l ih =>
    obtain ⟨rfl, -, -, -, hrest⟩ := h
    have hsum := ih hrest fun c hc ↦ hw c (List.mem_cons_of_mem a hc)
    have ha := hw a List.mem_cons_self
    rw [List.map_cons, List.sum_cons]
    omega

theorem relink (hspan : ∀ a ∈ l, span' a = span a)
    (hprev : ∀ a ∈ l.tail, prev' a = prev a) (hfirst : ∀ a, l.head? = some a → prev' a = p')
    (hnext : ∀ a ∈ l.dropLast, next' a = next a)
    (hlast : ∀ a, l.getLast? = some a → next' a = n') :
    Tiled prev' next' span' p' b l e n' := by
  induction l generalizing p p' b with
  | nil => exact h
  | cons a l ih =>
    obtain ⟨rfl, hp, hn, hs, h⟩ := h
    refine ⟨rfl, hfirst a rfl, ?_, ?_, ?_⟩
    · cases l with
      | nil => simpa using hlast a (by simp)
      | cons c l => simpa [hn] using hnext a (by simp)
    · rw [hspan a List.mem_cons_self]; exact hs
    rw [hspan a List.mem_cons_self]
    refine ih h (fun c hc ↦ hspan c (List.mem_cons_of_mem _ hc))
      (fun c hc ↦ hprev c (List.mem_of_mem_tail hc)) ?_ ?_ ?_
    · intro c hc
      cases l with
      | nil => simp at hc
      | cons d l =>
        obtain rfl : d = c := by simpa using hc
        rw [hprev d (by simp)]
        exact h.2.1
    · intro c hc
      cases l with
      | nil => simp at hc
      | cons d l => exact hnext c (by rw [List.dropLast_cons_of_ne_nil (by simp)]; simp [hc])
    · intro c hc
      cases l with
      | nil => simp at hc
      | cons d l => exact hlast c (by rwa [List.getLast?_cons_cons])

end

theorem split {a : ℕ} : Tiled prev next span p b (l₁ ++ a :: l₂) e n ↔
    Tiled prev next span p b l₁ a (some a) ∧ prev a = l₁.getLast?.or p ∧
      next a = l₂.head?.or n ∧ 0 < span a ∧
      Tiled prev next span (some a) (a + span a) l₂ e n := by
  simp only [append, Tiled]
  constructor
  · rintro ⟨c, h₁, rfl, hp, hn, hs, h₂⟩
    exact ⟨h₁, hp, hn, hs, h₂⟩
  rintro ⟨h₁, hp, hn, hs, h₂⟩
  exact ⟨a, h₁, rfl, hp, hn, hs, h₂⟩

section

variable (h : Tiled prev next span p b l e n)
include h

theorem last_next {a : ℕ} (ha : l.getLast? = some a) : next a = n := by
  obtain ⟨l', rfl⟩ := List.getLast?_eq_some_iff.mp ha
  simpa using (split.mp h).2.2.1

theorem head_prev {a : ℕ} (ha : l.head? = some a) : prev a = p := by
  obtain ⟨l', rfl⟩ := List.head?_eq_some_iff.mp ha
  exact h.2.1

theorem congr (hm : ∀ a ∈ l, prev' a = prev a ∧ next' a = next a ∧ span' a = span a) :
    Tiled prev' next' span' p b l e n :=
  h.relink (fun a ha ↦ (hm a ha).2.2) (fun a ha ↦ (hm a (List.mem_of_mem_tail ha)).1)
    (fun a ha ↦ (hm a (List.mem_of_mem_head? ha)).1.trans (h.head_prev ha))
    (fun a ha ↦ (hm a (List.dropLast_subset _ ha)).2.1)
    (fun a ha ↦ (hm a (List.mem_of_mem_getLast? ha)).2.1.trans (h.last_next ha))

theorem redirect
    (hm : ∀ a ∈ l, prev' a = (if l.head? = some a then p' else prev a) ∧ next' a = next a ∧
      span' a = span a) : Tiled prev' next' span' p' b l e n := by
  have htail : ∀ a ∈ l.tail, l.head? ≠ some a := by
    intro a ha heq
    obtain ⟨l', rfl⟩ := List.head?_eq_some_iff.mp heq
    exact (List.nodup_cons.mp h.nodup).1 ha
  refine h.relink (fun a ha ↦ (hm a ha).2.2) (fun a ha ↦ ?_) (fun a ha ↦ ?_)
    (fun a ha ↦ (hm a (List.dropLast_subset _ ha)).2.1)
    (fun a ha ↦ (hm a (List.mem_of_mem_getLast? ha)).2.1.trans (h.last_next ha))
  · rw [(hm a (List.mem_of_mem_tail ha)).1, if_neg (htail a ha)]
  · rw [(hm a (List.mem_of_mem_head? ha)).1, if_pos ha]

end

variable {a c : ℕ}

theorem cut (h : Tiled prev next span p b (l₁ ++ a :: l₂) e n) (hc : c = a + span' a)
    (hsum : span' a + span' c = span a) (ha₀ : 0 < span' a) (hc₀ : 0 < span' c)
    (ha : prev' a = prev a ∧ next' a = some c) (hc' : prev' c = some a ∧ next' c = next a)
    (h₁ : ∀ d ∈ l₁, prev' d = prev d ∧ next' d = next d ∧ span' d = span d)
    (h₂ : ∀ d ∈ l₂, prev' d = (if l₂.head? = some d then some c else prev d) ∧
      next' d = next d ∧ span' d = span d) :
    Tiled prev' next' span' p b (l₁ ++ a :: c :: l₂) e n := by
  obtain ⟨hl₁, hp, hn, -, hl₂⟩ := split.mp h
  refine split.mpr ⟨hl₁.congr h₁, ha.1.trans hp, by simpa using ha.2, ha₀, hc, hc'.1,
    hc'.2.trans hn, hc₀, ?_⟩
  rw [show c + span' c = a + span a by omega]
  exact hl₂.redirect h₂

theorem join (h : Tiled prev next span p b (l₁ ++ a :: c :: l₂) e n)
    (hsum : span' a = span a + span c) (ha : prev' a = prev a ∧ next' a = next c)
    (h₁ : ∀ d ∈ l₁, prev' d = prev d ∧ next' d = next d ∧ span' d = span d)
    (h₂ : ∀ d ∈ l₂, prev' d = (if l₂.head? = some d then some a else prev d) ∧
      next' d = next d ∧ span' d = span d) :
    Tiled prev' next' span' p b (l₁ ++ a :: l₂) e n := by
  obtain ⟨hl₁, hp, -, ha₀, hc, -, hn, -, hl₂⟩ := split.mp h
  refine split.mpr ⟨hl₁.congr h₁, ha.1.trans hp, ha.2.trans hn, by omega, ?_⟩
  rw [show a + span' a = c + span c by omega]
  exact hl₂.redirect h₂

theorem snoc (h : Tiled prev next span p b l e n) (he₀ : 0 < span' e)
    (he : prev' e = l.getLast?.or p ∧ next' e = n')
    (hm : ∀ a ∈ l, prev' a = prev a ∧ next' a = (if l.getLast? = some a then some e else next a) ∧
      span' a = span a) : Tiled prev' next' span' p b (l ++ [e]) (e + span' e) n' := by
  have hlast : ∀ a ∈ l.dropLast, l.getLast? ≠ some a := by
    intro a ha heq
    obtain ⟨l', rfl⟩ := List.getLast?_eq_some_iff.mp heq
    rw [List.dropLast_concat] at ha
    exact (List.nodup_append.mp h.nodup).2.2 a ha a (by simp) rfl
  refine split.mpr ⟨?_, he.1, by simpa using he.2, he₀, rfl⟩
  refine h.relink (fun a ha ↦ (hm a ha).2.2) (fun a ha ↦ (hm a (List.mem_of_mem_tail ha)).1)
    (fun a ha ↦ (hm a (List.mem_of_mem_head? ha)).1.trans (h.head_prev ha)) (fun a ha ↦ ?_)
    (fun a ha ↦ ?_)
  · rw [(hm a (List.dropLast_subset _ ha)).2.1, if_neg (hlast a ha)]
  · rw [(hm a (List.mem_of_mem_getLast? ha)).2.1, if_pos ha]

theorem links (h : Tiled prev next span none b l e none) {a : ℕ} (ha : a ∈ l) :
    (∀ c, next a = some c → c ∈ l ∧ prev c = some a ∧ a + span a = c) ∧
      (∀ c, prev a = some c → c ∈ l ∧ next c = some a) ∧ (next a = none → a + span a = e) := by
  obtain ⟨l₁, l₂, rfl⟩ := List.append_of_mem ha
  obtain ⟨h₁, hp, hn, hs, h₂⟩ := split.mp h
  refine ⟨?_, ?_, ?_⟩
  · intro c hc
    cases l₂ with
    | nil => simp [hn] at hc
    | cons d l₂ =>
      obtain rfl : d = c := by simpa [hn] using hc
      exact ⟨by simp, h₂.2.1, h₂.1.symm⟩
  · intro c hc
    rw [hp, Option.or_none] at hc
    obtain ⟨l₃, rfl⟩ := List.getLast?_eq_some_iff.mp hc
    have h₃ := (split.mp h₁).2.2.1
    exact ⟨by simp, by simpa using h₃⟩
  intro hnone
  cases l₂ with
  | nil => exact h₂
  | cons d l₂ => simp [hn] at hnone

end Tiled

end NexusOS.Lib
