import NexusOS.Shell.ParserGrammar

namespace NexusOS.Shell

open Lib

section Scan

variable (pre post : List Char) {w : List Char} {k : ℕ}

theorem charAt_append (pre l : List Char) : charAt (pre ++ l) pre.length = l.headD nul := by
  cases l <;> simp [charAt, List.getD]

theorem charAt_append_succ (pre : List Char) (c : Char) (l : List Char) :
    charAt (pre ++ c :: l) (pre.length + 1) = l.headD nul := by
  cases l <;> simp [charAt, List.getD]

theorem skip_eq_self {f : Char → Bool} {buf : List Char} {p : ℕ}
    (h : f (charAt buf p) = false) : skip f buf p = p := by
  simp only [skip, List.length_eq_zero_iff, Nat.add_eq_left]
  cases hd : buf.drop p with
  | nil => rfl
  | cons c l =>
    have hc : charAt buf p = c := by
      have := congrArg (fun l ↦ l.getD 0 nul) hd
      simpa [charAt, List.getD, List.getElem?_drop] using this
    rw [List.takeWhile_cons, ← hc, h]
    rfl

theorem skip_append {f : Char → Bool} (l : List Char) (hw : ∀ c ∈ w, f c = true)
    (hl : f (l.headD nul) = false) : skip f (pre ++ w ++ l) pre.length = (pre ++ w).length := by
  have htake : (w ++ l).takeWhile f = w := by
    rw [List.takeWhile_append_of_pos hw]
    cases l with
    | nil => simp
    | cons c l =>
      rw [List.takeWhile_cons, show f c = false from hl]
      simp
  rw [skip, List.append_assoc, List.drop_left, htake, List.length_append]

theorem loop_plain (hw : ∀ c ∈ w, isPlain c = true)
    (hpost : post.headD nul = nul ∨ space (post.headD nul) = true) (hk : w.length < k) :
    loop wordBody k ⟨pre ++ w ++ post, pre.length, pre.length, nul⟩ =
      .ok ⟨pre ++ w ++ post, (pre ++ w).length, (pre ++ w).length, nul⟩ := by
  induction w generalizing pre k with
  | nil =>
    obtain ⟨k, rfl⟩ : ∃ j, k = j + 1 := ⟨k - 1, by omega⟩
    have hc := charAt_append pre post
    rw [List.append_nil]
    apply loop_done
    rcases hpost with hnul | hspace
    · rw [hnul] at hc
      simp [wordBody, hc]
    have hne : charAt (pre ++ post) pre.length ≠ nul := by
      rw [hc]
      intro h
      rw [h] at hspace
      exact absurd hspace (by decide)
    have hends : endsWord (pre ++ post) pre.length = true := by
      rw [← hc] at hspace
      simp [endsWord, hspace]
    have hb : ∀ b : Char, space b = false → charAt (pre ++ post) pre.length ≠ b := by
      rintro b hb rfl
      rw [hc] at hb
      exact absurd (hspace.symm.trans hb) (by decide)
    have hesc : (⟨pre ++ post, pre.length, pre.length, nul⟩ : WordState).escaped = false := by
      simp [WordState.escaped, hb backslash (by decide)]
    simp [wordBody, hne, hesc, hends, hb singleQuote (by decide), hb doubleQuote (by decide)]
  | cons c w ih =>
    obtain ⟨k, rfl⟩ : ∃ j, k = j + 1 := ⟨k - 1, by omega⟩
    have hc : charAt (pre ++ c :: (w ++ post)) pre.length = c := charAt_append pre (c :: (w ++ post))
    have hplain := hw c List.mem_cons_self
    simp only [isPlain, Bool.not_eq_true', Bool.or_eq_false_iff, beq_eq_false_iff_ne, ne_eq] at hplain
    obtain ⟨⟨⟨⟨⟨⟨⟨⟨⟨hs, hn⟩, hq⟩, hd⟩, hb⟩, hsemi⟩, hbar⟩, hamp⟩, -⟩, -⟩ := hplain
    have hstep : wordBody ⟨pre ++ c :: w ++ post, pre.length, pre.length, nul⟩ =
        .ok (.yield ⟨(pre ++ [c]) ++ w ++ post, (pre ++ [c]).length, (pre ++ [c]).length, nul⟩) := by
      simp [wordBody, WordState.escaped, endsWord, WordState.copy, hc, hs, hn, hq, hd, hb, hsemi,
        hbar, hamp]
    rw [loop_yield hstep, ih (pre ++ [c]) (fun d hd ↦ hw d (List.mem_cons_of_mem _ hd))
      (by simp only [List.length_cons] at hk; omega)]
    simp

theorem cString_word (hw : ∀ c ∈ w, isPlain c = true) :
    cString (pre ++ w ++ nul :: post) pre.length = w := by
  have hne : ∀ c ∈ w, (c != nul) = true := by
    intro c hc
    have := hw c hc
    simp only [isPlain, Bool.not_eq_true', Bool.or_eq_false_iff] at this
    simp [bne, this.1.1.1.1.1.1.1.1.2]
  rw [cString, List.append_assoc, List.drop_left, List.takeWhile_append_of_pos hne]
  simp

end Scan

section First

theorem Word.head (w : Word) (l : List Char) :
    ∃ c, (w.chars ++ l).headD nul = c ∧ isPlain c = true := by
  obtain ⟨c, cs, hc⟩ := List.exists_cons_of_ne_nil w.ne_nil
  exact ⟨c, by simp [hc], w.plain c (by simp [hc])⟩

theorem isPlain_spec {c : Char} (h : isPlain c = true) :
    space c = false ∧ c ≠ nul ∧ c ≠ ';' ∧ c ≠ '|' ∧ c ≠ '&' ∧ c ≠ '<' ∧ c ≠ '>' := by
  simp only [isPlain, Bool.not_eq_true', Bool.or_eq_false_iff, beq_eq_false_iff_ne, ne_eq] at h
  tauto

theorem space_spec {c : Char} (h : space c = true) : c ≠ nul ∧ c ≠ '>' := by
  constructor <;> rintro rfl <;> exact absurd h (by decide)

/-- What stands behind a rendered token: a blank, or the end of the line. -/
def Ends (rest : List Char) : Prop :=
  (rest ++ [nul]).headD nul = nul ∨ space ((rest ++ [nul]).headD nul) = true

theorem ends_of_renders {ts : List (List Char)} {rest : List Char}
    (hne : ts ≠ [] → ∃ c ∈ rest.head?, space c = true) (hr : Renders ts rest) : Ends rest := by
  cases rest with
  | nil => exact .inl rfl
  | cons c rest =>
    refine .inr ?_
    cases ts with
    | nil => exact hr c List.mem_cons_self
    | cons t ts =>
      obtain ⟨d, hd, hs⟩ := hne (by simp)
      obtain rfl : c = d := by simpa using hd
      exact hs

/-- What stands before the word of an item: nothing, or the sign and at least one blank. -/
def Item.Leads (i : Item) (lead : List Char) : Prop :=
  match i.sign with
  | [] => lead = []
  | t :: _ => ∃ gap, gap ≠ [] ∧ (∀ c ∈ gap, space c = true) ∧ lead = t ++ gap

theorem renders_sign {t : List Char} {ts : List (List Char)} {w : Word} {line : List Char}
    (h : Renders (t :: w.chars :: ts) line) :
    ∃ gap gap' rest, (∀ c ∈ gap, space c = true) ∧ gap' ≠ [] ∧ (∀ c ∈ gap', space c = true) ∧
      line = gap ++ ((t ++ gap') ++ w.chars) ++ rest ∧ Ends rest := by
  obtain ⟨gap, rest, hgap, rfl, hne, gap', rest', hgap', rfl, hne', hr⟩ := h
  refine ⟨gap, gap', rest', hgap, ?_, hgap', by simp, ends_of_renders hne' hr⟩
  rintro rfl
  obtain ⟨c, hc, hs⟩ := hne (by simp)
  obtain ⟨d, hd, hplain⟩ := w.head rest'
  obtain rfl : c = d := by
    rw [← hd]
    cases hw : w.chars ++ rest' <;> simp_all
  exact absurd ((isPlain_spec hplain).1.symm.trans hs) (by decide)

theorem renders_item {i : Item} {ts : List (List Char)} {line : List Char}
    (h : Renders (i.tokens ++ ts) line) :
    ∃ gap lead rest, (∀ c ∈ gap, space c = true) ∧ i.Leads lead ∧
      line = gap ++ (lead ++ i.target.chars) ++ rest ∧ Ends rest := by
  have hsign : ∀ t, i.sign = [t] → ∃ gap lead rest, (∀ c ∈ gap, space c = true) ∧ i.Leads lead ∧
      line = gap ++ (lead ++ i.target.chars) ++ rest ∧ Ends rest := by
    intro t ht
    rw [Item.tokens, ht] at h
    obtain ⟨gap, gap', rest, hgap, hne, hgap', hline, hrest⟩ := renders_sign h
    exact ⟨gap, t ++ gap', rest, hgap, by simp only [Item.Leads, ht]; exact ⟨gap', hne, hgap', rfl⟩,
      hline, hrest⟩
  cases i with
  | word w =>
    obtain ⟨gap, rest, hgap, rfl, hne, hr⟩ := h
    exact ⟨gap, [], rest, hgap, rfl, by simp [Item.target], ends_of_renders hne hr⟩
  | input w => exact hsign _ rfl
  | output append w => cases append <;> exact hsign _ rfl

def Item.redirect : Item → Redirect
  | .word _ => .none
  | .input _ => .input
  | .output append _ => .output append

variable (pre post : List Char) {i : Item} {lead : List Char}

theorem redirection_item (hl : i.Leads lead) :
    redirection (pre ++ (lead ++ i.target.chars) ++ post) pre.length =
      (i.redirect, (pre ++ lead).length) := by
  obtain ⟨d, hd, hplain⟩ := i.target.head post
  obtain ⟨hds, -, -, -, -, hlt, hgt⟩ := isPlain_spec hplain
  have hskip : ∀ (t gap : List Char), (∀ c ∈ gap, space c = true) →
      skip space (pre ++ ((t ++ gap) ++ i.target.chars) ++ post) (pre.length + t.length) =
        (pre ++ (t ++ gap)).length := by
    intro t gap hgap
    have := skip_append (pre ++ t) (i.target.chars ++ post) hgap (by rw [hd]; exact hds)
    simpa using this
  have hfirst : ∀ c (l : List Char), lead = c :: l →
      charAt (pre ++ (lead ++ i.target.chars) ++ post) pre.length = c := by
    rintro c l rfl
    rw [List.append_assoc, charAt_append]
    rfl
  have hsecond : ∀ b c (l : List Char), lead = b :: c :: l →
      charAt (pre ++ (lead ++ i.target.chars) ++ post) (pre.length + 1) = c := by
    rintro b c l rfl
    have := charAt_append_succ pre b (c :: (l ++ (i.target.chars ++ post)))
    simpa using this
  cases i with
  | word w =>
    obtain rfl : lead = [] := hl
    have hc : charAt (pre ++ ([] ++ w.chars) ++ post) pre.length = d := by
      rw [List.append_assoc, charAt_append]
      exact hd
    simp only [Item.target] at hc ⊢
    simp only [redirection, hc, if_neg hlt, if_neg hgt, Item.redirect, List.append_nil]
  | input w =>
    obtain ⟨gap, -, hgap, rfl⟩ := hl
    have h₁ := hfirst '<' gap rfl
    have h₂ := hskip ['<'] gap hgap
    simp only [redirection, h₁, if_true, Item.redirect]
    exact congrArg _ h₂
  | output append w =>
    have hne : ¬ '>' = '<' := by decide
    cases append with
    | true =>
      obtain ⟨gap, -, hgap, rfl⟩ := hl
      have h₁ := hfirst '>' ('>' :: gap) rfl
      have h₂ := hsecond '>' '>' gap rfl
      have h₃ := hskip ['>', '>'] gap hgap
      simp only [redirection, h₁, h₂, if_neg hne, if_true, Item.redirect]
      exact congrArg _ h₃
    | false =>
      obtain ⟨gap, hgap₀, hgap, rfl⟩ := hl
      obtain ⟨c, l, rfl⟩ := List.exists_cons_of_ne_nil hgap₀
      have h₁ := hfirst '>' (c :: l) rfl
      have h₂ := hsecond '>' c l rfl
      have h₃ := hskip ['>'] (c :: l) hgap
      simp only [redirection, h₁, h₂, if_neg hne, if_true,
        if_neg (space_spec (hgap c List.mem_cons_self)).2, Item.redirect]
      exact congrArg _ h₃

/-- The command that has nothing but the item whose word starts at `start`. -/
def Item.stored (start : ℕ) : Item → ShellParsedCommand
  | .word _ => { noCommand with argv := [start] }
  | .input _ => { noCommand with redirectIn := some start }
  | .output append _ => { noCommand with redirectOut := some start, append := append }

theorem storeWord_item {buf : List Char} {start : ℕ} (h : charAt buf start ≠ nul) :
    storeWord buf start noCommand i.redirect = .ok (i.stored start) := by
  cases i <;> simp [storeWord, Item.redirect, Item.stored, h, noCommand, shellMaxTokens]

theorem commandWord_item (hl : i.Leads lead) {b : Char} (hb : b = nul ∨ space b = true) :
    commandWord (pre ++ (lead ++ i.target.chars) ++ b :: post) pre.length noCommand =
      .ok ⟨pre ++ (lead ++ i.target.chars) ++ nul :: post, (pre ++ (lead ++ i.target.chars)).length,
        i.stored (pre ++ lead).length⟩ := by
  have hred := redirection_item pre (b :: post) hl
  have hloop := loop_plain (pre ++ lead) (b :: post) i.target.plain hb
    (show _ < (pre ++ (lead ++ i.target.chars) ++ b :: post).length + 1 by simp; omega)
  have hset : (pre ++ (lead ++ i.target.chars) ++ b :: post).set
      (pre ++ (lead ++ i.target.chars)).length nul =
        pre ++ (lead ++ i.target.chars) ++ nul :: post := by
    rw [List.set_append_right _ _ le_rfl, Nat.sub_self]
    rfl
  have hchar : charAt (pre ++ (lead ++ i.target.chars) ++ nul :: post) (pre ++ lead).length ≠ nul := by
    obtain ⟨d, hd, hplain⟩ := i.target.head (nul :: post)
    have := charAt_append (pre ++ lead) (i.target.chars ++ nul :: post)
    simp only [List.append_assoc] at this hd ⊢
    rw [this, hd]
    exact (isPlain_spec hplain).2.1
  simp only [List.append_assoc] at hred hloop hset hchar ⊢
  simp only [commandWord, hred, hloop, bind, Except.bind, ne_eq, not_true_eq_false, if_false, hset,
    storeWord_item hchar]

theorem Item.Leads.head (hl : i.Leads lead) (l : List Char) :
    ∃ x, (lead ++ i.target.chars ++ l).headD nul = x ∧ space x = false ∧ x ≠ nul ∧ x ≠ ';' ∧
      x ≠ '|' ∧ x ≠ '&' := by
  cases i with
  | word w =>
    obtain rfl : lead = [] := hl
    obtain ⟨d, hd, hplain⟩ := w.head l
    obtain ⟨h₁, h₂, h₃, h₄, h₅, -⟩ := isPlain_spec hplain
    exact ⟨d, hd, h₁, h₂, h₃, h₄, h₅⟩
  | input w =>
    obtain ⟨gap, -, -, rfl⟩ := hl
    exact ⟨'<', rfl, by decide⟩
  | output append w =>
    cases append <;> obtain ⟨gap, -, -, rfl⟩ := hl <;> exact ⟨'>', rfl, by decide⟩

theorem commandLoop_item (hl : i.Leads lead) {b : Char} (hb : b = nul ∨ space b = true) (k : ℕ) :
    loop commandBody (k + 2) ⟨pre ++ (lead ++ i.target.chars) ++ b :: post, pre.length, noCommand⟩ =
      .ok ⟨pre ++ (lead ++ i.target.chars) ++ nul :: post, (pre ++ (lead ++ i.target.chars)).length,
        i.stored (pre ++ lead).length⟩ := by
  obtain ⟨x, hx, hspace, hnul, hsemi, hbar, hamp⟩ := hl.head (b :: post)
  have hchar : charAt (pre ++ (lead ++ i.target.chars) ++ b :: post) pre.length = x := by
    rw [List.append_assoc, charAt_append, hx]
  have hskip : skip space (pre ++ (lead ++ i.target.chars) ++ b :: post) pre.length = pre.length :=
    skip_eq_self (by rw [hchar, hspace])
  have hfirst : commandBody ⟨pre ++ (lead ++ i.target.chars) ++ b :: post, pre.length, noCommand⟩ =
      .ok (.yield ⟨pre ++ (lead ++ i.target.chars) ++ nul :: post,
        (pre ++ (lead ++ i.target.chars)).length, i.stored (pre ++ lead).length⟩) := by
    simp only [commandBody, hskip, hchar, if_neg hnul, if_neg hsemi, if_neg hbar, hamp, false_and,
      if_false, commandWord_item pre post hl hb, bind, Except.bind]
  have hend := charAt_append (pre ++ (lead ++ i.target.chars)) (nul :: post)
  rw [loop_yield hfirst]
  apply loop_done
  simp only [commandBody, hend, List.headD_cons, if_true]

theorem stored_not_empty (start : ℕ) : (i.stored start).isEmpty = false := by
  cases i <;> rfl

def Item.alone : Item → Resolved
  | .word w => ⟨[w.chars], .opEnd, none, none, false⟩
  | .input w => ⟨[], .opEnd, some w.chars, none, false⟩
  | .output append w => ⟨[], .opEnd, none, some w.chars, append⟩

theorem resolve_stored (lead : List Char) :
    (i.stored (pre ++ lead).length).resolve (pre ++ (lead ++ i.target.chars) ++ nul :: post) =
      i.alone := by
  have hstr := cString_word (pre ++ lead) post i.target.plain
  simp only [List.append_assoc] at hstr ⊢
  cases i <;>
    simp only [Item.stored, noCommand, ShellParsedCommand.resolve, Item.alone, List.map_cons,
      List.map_nil, Option.map_some, Option.map_none, hstr] <;> rfl

theorem parse_first (ts : List (List Char)) {line : List Char}
    (h : Renders (i.tokens ++ ts) line) : parse line = .ok [i.alone] := by
  obtain ⟨gap, lead, rest, hgap, hl, rfl, hends⟩ := renders_item h
  obtain ⟨b, post, hbuf⟩ : ∃ b post, rest ++ [nul] = b :: post :=
    List.exists_cons_of_ne_nil (by simp)
  have hb : b = nul ∨ space b = true := by simpa [Ends, hbuf] using hends
  have hline : gap ++ (lead ++ i.target.chars) ++ rest ++ [nul] =
      gap ++ (lead ++ i.target.chars) ++ b :: post := by
    rw [List.append_assoc _ rest, hbuf]
  obtain ⟨x, hx, hspace, hnul, hsemi, -, -⟩ := hl.head (b :: post)
  have hskip : skip (fun c ↦ space c || c == ';')
      (gap ++ (lead ++ i.target.chars) ++ b :: post) 0 = gap.length := by
    have := skip_append [] (lead ++ i.target.chars ++ b :: post) (w := gap)
      (f := fun c ↦ space c || c == ';') (fun c hc ↦ by simp [hgap c hc])
      (by rw [hx]; simp [hspace, hsemi])
    simpa using this
  have hchar : charAt (gap ++ (lead ++ i.target.chars) ++ b :: post) gap.length = x := by
    rw [List.append_assoc, charAt_append, hx]
  have hzero : charAt (gap ++ (lead ++ i.target.chars) ++ b :: post) 0 ≠ nul := by
    cases gap with
    | nil => exact hchar ▸ hnul
    | cons c gap => exact (space_spec (hgap c List.mem_cons_self)).1
  have hfirst : lineBody shellMaxCommands ⟨gap ++ (lead ++ i.target.chars) ++ b :: post, 0, []⟩ =
      .ok (.yield ⟨gap ++ (lead ++ i.target.chars) ++ nul :: post,
        (gap ++ (lead ++ i.target.chars)).length, [i.stored (gap ++ lead).length]⟩) := by
    obtain ⟨k, hk⟩ : ∃ k, (gap ++ (lead ++ i.target.chars) ++ b :: post).length + 1 = k + 2 :=
      ⟨(gap ++ (lead ++ i.target.chars) ++ b :: post).length - 1, by simp; omega⟩
    have hmax : ¬ ([] : List ShellParsedCommand).length ≥ shellMaxCommands := by decide
    simp only [lineBody, hskip, hchar, if_neg hzero, if_neg hnul, if_neg hmax, hk,
      commandLoop_item gap post hl hb, bind, Except.bind, stored_not_empty, Bool.false_eq_true,
      if_false, List.nil_append]
  have hend := charAt_append (gap ++ (lead ++ i.target.chars)) (nul :: post)
  have hparse : shellParseLine (gap ++ (lead ++ i.target.chars) ++ rest) shellMaxCommands =
      .ok ⟨gap ++ (lead ++ i.target.chars) ++ nul :: post,
        (gap ++ (lead ++ i.target.chars)).length, [i.stored (gap ++ lead).length]⟩ := by
    obtain ⟨k, hk⟩ : ∃ k, (gap ++ (lead ++ i.target.chars) ++ rest).length = k := ⟨_, rfl⟩
    rw [shellParseLine, hline, hk, loop_yield hfirst]
    apply loop_done
    simp only [lineBody, hend, List.headD_cons, if_true]
  simp only [parse, hparse, Except.map, List.map_cons, List.map_nil, resolve_stored]

end First

end NexusOS.Shell
