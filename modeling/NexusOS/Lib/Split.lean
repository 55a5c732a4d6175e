import Mathlib

namespace NexusOS.Lib

variable {α : Type*} [BEq α] [LawfulBEq α] {a : α} {s r : List α}

theorem splitOn_append_cons (a : α) (l r : List α) :
    (l ++ a :: r).splitOn a = l.splitOn a ++ r.splitOn a := by
  induction l with
  | nil =>
    rw [List.nil_append, List.splitOn_cons_eq_if_modifyHead, List.splitOn_nil]
    simp
  | cons b l ih =>
    rw [List.cons_append, List.splitOn_cons_eq_if_modifyHead, List.splitOn_cons_eq_if_modifyHead, ih]
    split
    · rfl
    cases hl : l.splitOn a with
    | nil => exact absurd hl (List.splitOn_ne_nil _ _)
    | cons first rest => rfl

theorem splitOn_cons_self (a : α) (s : List α) : (a :: s).splitOn a = [] :: s.splitOn a := by
  rw [← List.nil_append (a :: s), splitOn_append_cons, List.splitOn_nil, List.singleton_append]

theorem notMem_of_mem_splitOn (s : List α) : ∀ p ∈ s.splitOn a, a ∉ p := by
  induction s with
  | nil => simp [List.splitOn_nil]
  | cons b s ih =>
    rw [List.splitOn_cons_eq_if_modifyHead]
    split
    · intro p hp
      rcases List.mem_cons.1 hp with rfl | hp
      · exact List.not_mem_nil
      · exact ih p hp
    rename_i hb
    cases hs : s.splitOn a with
    | nil => exact absurd hs (List.splitOn_ne_nil _ _)
    | cons first rest =>
      rw [hs] at ih
      intro p hp
      rcases List.mem_cons.1 hp with rfl | hp
      · intro hmem
        rcases List.mem_cons.1 hmem with heq | hmem
        · exact hb (by simp [← heq])
        · exact ih first List.mem_cons_self hmem
      · exact ih p (List.mem_cons_of_mem _ hp)

omit [LawfulBEq α] in
theorem mem_of_mem_splitOn {s p : List α} {x : α} (hp : p ∈ s.splitOn a) (hx : x ∈ p) : x ∈ s := by
  induction s generalizing p with
  | nil =>
    rw [List.splitOn_nil, List.mem_singleton] at hp
    rwa [hp] at hx
  | cons b s ih =>
    rw [List.splitOn_cons_eq_if_modifyHead] at hp
    split at hp
    · rcases List.mem_cons.1 hp with rfl | hp
      · exact absurd hx List.not_mem_nil
      · exact List.mem_cons_of_mem _ (ih hp hx)
    cases hs : s.splitOn a with
    | nil => exact absurd hs (List.splitOn_ne_nil _ _)
    | cons first rest =>
      rw [hs] at hp ih
      rcases List.mem_cons.1 hp with rfl | hp
      · rcases List.mem_cons.1 hx with rfl | hx
        · exact List.mem_cons_self
        · exact List.mem_cons_of_mem _ (ih List.mem_cons_self hx)
      · exact List.mem_cons_of_mem _ (ih (List.mem_cons_of_mem _ hp) hx)

theorem splitOn_of_notMem (h : a ∉ s) : s.splitOn a = [s] := by
  induction s with
  | nil => rw [List.splitOn_nil]
  | cons b s ih =>
    rw [List.mem_cons, not_or] at h
    rw [List.splitOn_cons_eq_if_modifyHead, if_neg (by simpa using Ne.symm h.1), ih h.2]
    rfl

/-- The room that parts take when each stands behind a separator. -/
def room (l : List (List α)) : ℕ := (l.map fun p ↦ p.length + 1).sum

omit [BEq α] [LawfulBEq α] in
theorem room_append (l l' : List (List α)) : room (l ++ l') = room l + room l' := by
  rw [room, List.map_append, List.sum_append]
  rfl

omit [BEq α] [LawfulBEq α] in
theorem room_cons (p : List α) (l : List (List α)) : room (p :: l) = p.length + 1 + room l := by
  rw [room, List.map_cons, List.sum_cons]
  rfl

omit [LawfulBEq α] in
theorem room_splitOn (a : α) (s : List α) : room (s.splitOn a) = s.length + 1 := by
  induction s with
  | nil => rfl
  | cons b s ih =>
    rw [List.splitOn_cons_eq_if_modifyHead]
    split
    · rw [room_cons, ih, List.length_cons, List.length_nil]
      omega
    cases hs : s.splitOn a with
    | nil => exact absurd hs (List.splitOn_ne_nil _ _)
    | cons first rest =>
      rw [hs, room_cons] at ih
      change room ((b :: first) :: rest) = _
      rw [room_cons, List.length_cons, List.length_cons]
      omega

section Words

variable {p : α → Bool} {w s : List α}

omit [BEq α] [LawfulBEq α]

def words (p : α → Bool) (s : List α) : List (List α) := (s.splitOnP p).filter (!·.isEmpty)

theorem words_dropWhile (p : α → Bool) (s : List α) : words p (s.dropWhile p) = words p s := by
  induction s with
  | nil => rfl
  | cons c s ih =>
    by_cases hc : p c = true
    · rw [List.dropWhile_cons_of_pos hc, ih, words, words, List.splitOnP_cons_eq_if_modifyHead,
        if_pos hc]
      rfl
    · rw [List.dropWhile_cons_of_neg hc]

theorem words_append (hw : ∀ c ∈ w, p c = false) (hne : w ≠ []) (hs : ∀ c ∈ s.head?, p c = true) :
    words p (w ++ s) = w :: words p s := by
  have hkeep : (!w.isEmpty) = true := by simp [hne]
  cases s with
  | nil =>
    rw [List.append_nil, words, List.splitOnP_eq_singleton hw, List.filter_cons, if_pos hkeep]
    rfl
  | cons c s =>
    have hc := hs c rfl
    rw [words, List.splitOnP_append_cons_of_forall_mem hw c hc, List.filter_cons, if_pos hkeep,
      ← words, ← words_dropWhile p (c :: s), List.dropWhile_cons_of_pos hc, words_dropWhile]

theorem words_of_dropWhile_nil (h : s.dropWhile p = []) : words p s = [] := by
  rw [← words_dropWhile, h]
  rfl

theorem first_word_ne_nil (h : s.dropWhile p ≠ []) : (s.dropWhile p).takeWhile (!p ·) ≠ [] := by
  cases hd : s.dropWhile p with
  | nil => exact absurd hd h
  | cons c rest =>
    have hc : p c = false := by
      have := List.head?_dropWhile_not p s
      rw [hd] at this
      simpa using this
    rw [List.takeWhile_cons_of_pos (by simp [hc])]
    exact List.cons_ne_nil c _

theorem words_cons (h : s.dropWhile p ≠ []) :
    words p s = (s.dropWhile p).takeWhile (!p ·) :: words p ((s.dropWhile p).dropWhile (!p ·)) := by
  conv_lhs => rw [← words_dropWhile, ← List.takeWhile_append_dropWhile (p := (!p ·))
    (l := s.dropWhile p)]
  apply words_append
  · intro c hc
    simpa using List.mem_takeWhile_imp hc
  · exact first_word_ne_nil h
  intro c hc
  have := List.head?_dropWhile_not (!p ·) (s.dropWhile p)
  rw [Option.mem_def.1 hc] at this
  simpa using this

end Words

end NexusOS.Lib
