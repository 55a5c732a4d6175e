import NexusOS.Shell.ParserFirst

namespace NexusOS.Shell

theorem length_meanings (c : Command) (rest : List (Joiner × Command)) :
    (meanings c rest).length = rest.length + 1 := by
  induction rest generalizing c with
  | nil => rfl
  | cons x rest ih => simp [meanings, ih]

theorem items_eq_nil {items : List Item} (h₁ : items.filterMap Item.arg? = [])
    (h₂ : items.filterMap Item.input? = []) (h₃ : items.filterMap Item.output? = []) :
    items = [] := by
  cases items with
  | nil => rfl
  | cons i items => cases i <;> simp [Item.arg?, Item.input?, Item.output?] at h₁ h₂ h₃

theorem meaning_eq_alone (c : Command) {i : Item} {items : List Item} (hi : c.items = i :: items) :
    c.meaning .opEnd = i.alone ↔ ∃ w, c.items = [.word w] := by
  constructor
  · intro h
    have harg := c.has_arg
    simp only [Command.meaning, hi] at h
    rw [hi] at harg
    cases i with
    | word w =>
      simp only [Item.alone, Resolved.mk.injEq, List.filterMap_cons, Item.arg?, Item.input?,
        Item.output?, List.cons.injEq, true_and, List.head?_eq_none_iff, Option.map_eq_none_iff] at h
      obtain rfl := items_eq_nil h.1 h.2.1 h.2.2.1
      exact ⟨w, hi⟩
    | input w => exact absurd (congrArg Resolved.argv h) harg
    | output append w => exact absurd (congrArg Resolved.argv h) harg
  rintro ⟨w, hw⟩
  obtain ⟨rfl, rfl⟩ : i = .word w ∧ items = [] := by simpa [hi] using hw
  simp [Command.meaning, hi, Item.alone, Item.arg?, Item.input?, Item.output?]

/-- A rendered line is parsed as the grammar says exactly when it is a single one-word command. -/
theorem shell_parse_line_iff (l : CommandList) (line : List Char) (h : Renders l.tokens line) :
    parse line = .ok l.meaning ↔ ∃ w, l.first.items = [.word w] ∧ l.rest = [] := by
  obtain ⟨i, items, hi⟩ : ∃ i items, l.first.items = i :: items :=
    List.exists_cons_of_ne_nil fun hnil ↦ l.first.has_arg (by simp [hnil])
  have hfirst : parse line = .ok [i.alone] := by
    apply parse_first (items.flatMap Item.tokens ++
      l.rest.flatMap fun x ↦ x.1.token :: x.2.tokens)
    simpa [CommandList.tokens, Command.tokens, hi] using h
  rw [hfirst, Except.ok.injEq, CommandList.meaning]
  constructor
  · intro heq
    have hlen := congrArg List.length heq
    rw [length_meanings] at hlen
    have hrest : l.rest = [] := List.length_eq_zero_iff.mp (by simpa using hlen.symm)
    rw [hrest, meanings, List.cons.injEq] at heq
    obtain ⟨w, hw⟩ := (meaning_eq_alone l.first hi).mp heq.1.symm
    exact ⟨w, hw, hrest⟩
  · rintro ⟨w, hw, hrest⟩
    rw [hrest, meanings, (meaning_eq_alone l.first hi).mpr ⟨w, hw⟩]

def letter (c : Char) (h : isPlain c = true) : Word := ⟨[c], by simp, by simpa using h⟩

def oneWord : CommandList where
  first := ⟨[.word (letter 'a' (by decide))], by simp [Item.arg?], by decide, by decide, by decide⟩
  rest := []
  length_le := by decide

def twoWords : CommandList where
  first := ⟨[.word (letter 'a' (by decide)), .word (letter 'b' (by decide))], by simp [Item.arg?],
    by decide, by decide, by decide⟩
  rest := []
  length_le := by decide

theorem shell_parse_line_one_word :
    Renders oneWord.tokens [' ', 'a', ' '] ∧ parse [' ', 'a', ' '] = .ok oneWord.meaning := by
  have h : Renders oneWord.tokens [' ', 'a', ' '] :=
    show Renders [['a']] _ from ⟨[' '], [' '], List.forall_mem_singleton.2 rfl, rfl, by simp,
      show ∀ c ∈ [' '], space c = true from List.forall_mem_singleton.2 rfl⟩
  exact ⟨h, (shell_parse_line_iff oneWord _ h).mpr ⟨_, rfl, rfl⟩⟩

/-- The second word of a command is lost. -/
theorem shell_parse_line_two_words :
    Renders twoWords.tokens ['a', ' ', 'b'] ∧
      twoWords.meaning = [⟨[['a'], ['b']], .opEnd, none, none, false⟩] ∧
      parse ['a', ' ', 'b'] = .ok [⟨[['a']], .opEnd, none, none, false⟩] := by
  refine ⟨show Renders [['a'], ['b']] _ from ?_, rfl, rfl⟩
  exact ⟨[], [' ', 'b'], by simp, rfl, fun _ ↦ ⟨' ', rfl, by decide⟩, [' '], [],
    List.forall_mem_singleton.2 rfl, rfl, by simp, by simp [Renders]⟩

end NexusOS.Shell
