import NexusOS.Fs.Mount
import NexusOS.Lib.Buffer
import NexusOS.Lib.Split

namespace NexusOS.Packages

open Lib Fs

section Source

def period : UInt8 := 46

def isSpace (c : UInt8) : Bool := c = 32 ∨ c = 9 ∨ c = 13 ∨ c = 10

/-- What stands between the names of a list: blanks, commas and semicolons. -/
def isSeparator (c : UInt8) : Bool := isSpace c ∨ c = 44 ∨ c = 59

def nameChar (c : UInt8) : Bool :=
  97 ≤ c ∧ c ≤ 122 ∨ 65 ≤ c ∧ c ≤ 90 ∨ 48 ≤ c ∧ c ≤ 57 ∨
    c ∈ [95, 45, 36, 126, 33, 35, 37, 38, 39, 40, 41, 64, 94, 96]

/-- The first loop of `valid_short_name`: the length and the place of the dot. -/
def scanName : Str → ℕ → Option ℕ → Option (ℕ × Option ℕ)
  | [], len, dot => some (len, dot)
  | c :: s, len, dot =>
    if c = slash ∨ c = period ∧ dot.isSome then none
    else if 12 < len + 1 then none
    else scanName s (len + 1) (if c = period then some len else dot)

def validShortName (s : Str) : Bool :=
  if s = [] then false
  else match scanName s 0 none with
    | none => false
    | some (len, dot) =>
      let base := dot.getD len
      let ext := (dot.map fun d ↦ len - d - 1).getD 0
      if base < 1 ∨ 8 < base ∨ 3 < ext then false
      else if s.head? = some period then false
      else (List.range len).all fun i ↦ dot = some i ∨ nameChar (s.getD i 0)

/-- The outer loop of `parse_file_list`, for at most as many rounds as the counter says. `out` has
the rows of the two-dimensional array. -/
def fileLoop (maxFiles : ℕ) : ℕ → Str → Buffer (Buffer UInt8) → ℕ →
    Buffer (Buffer UInt8) × Option ℕ
  | 0, _, out, count => (out, some count)
  | n + 1, text, out, count =>
    let text := text.dropWhile isSeparator
    if text = [] then (out, some count)
    else
      -- what does not fit into the row is read and dropped
      let r := Buffer.fill 12 (out.cell count) 0 (text.takeWhile (!isSeparator ·))
      let out := out.store count r.1
      if r.2 = 0 ∨ 12 < r.2 ∨ maxFiles ≤ count then (out, none)
      else
        let out := out.store count (r.1.store r.2 0)
        if !validShortName ((out.cell count).string 0 13) then (out, none)
        else fileLoop maxFiles n (text.dropWhile (!isSeparator ·)) out (count + 1)

def parseFileList (text : Str) (out : Buffer (Buffer UInt8)) (maxFiles : ℕ) :
    Buffer (Buffer UInt8) × Option ℕ :=
  if text = [] then (out, some 0) else fileLoop maxFiles (text.length + 1) text out 0

end Source

section Names

variable {s base ext : Str} {c : UInt8} {len : ℕ} {dot : Option ℕ}

/-- A name of at most eight characters, and after a dot at most three more. -/
inductive ShortName : Str → Prop
  | base {b : Str} (hb : ∀ c ∈ b, nameChar c = true) (h1 : 1 ≤ b.length) (h8 : b.length ≤ 8) :
      ShortName b
  | ext {b e : Str} (hb : ∀ c ∈ b, nameChar c = true) (h1 : 1 ≤ b.length) (h8 : b.length ≤ 8)
      (he : ∀ c ∈ e, nameChar c = true) (h3 : e.length ≤ 3) : ShortName (b ++ period :: e)

theorem nameChar_ne (h : nameChar c = true) : c ≠ slash ∧ c ≠ period ∧ c ≠ 0 := by
  refine ⟨?_, ?_, ?_⟩ <;> intro hc <;> subst hc <;> exact absurd h (by decide)

theorem ShortName.length_le (h : ShortName s) : s.length ≤ 12 := by
  cases h with
  | base hb h1 h8 => omega
  | ext hb h1 h8 he h3 =>
    rw [List.length_append, List.length_cons]
    omega

theorem scanName_plain (hs : ∀ c ∈ s, nameChar c = true) (hlen : len + s.length ≤ 12) (rest : Str) :
    scanName (s ++ rest) len dot = scanName rest (len + s.length) dot := by
  induction s generalizing len with
  | nil => rfl
  | cons c s ih =>
    obtain ⟨hslash, hperiod, -⟩ := nameChar_ne (hs c List.mem_cons_self)
    rw [List.length_cons] at hlen
    rw [List.cons_append, scanName, if_neg (by simp [hslash, hperiod]), if_neg (by omega),
      if_neg hperiod, ih (fun d hd ↦ hs d (List.mem_cons_of_mem c hd)) (by omega), List.length_cons]
    congr 1
    omega

theorem scanName_some {r : ℕ × Option ℕ} (h : scanName s len dot = some r) :
    r.1 = len + s.length ∧
      (r.2 = dot ∨ ∃ i, r.2 = some (len + i) ∧ s[i]? = some period) := by
  induction s generalizing len dot with
  | nil =>
    rw [scanName, Option.some.injEq] at h
    rw [← h]
    exact ⟨rfl, .inl rfl⟩
  | cons c s ih =>
    rw [scanName] at h
    split_ifs at h with hbad hlong hperiod
    · obtain ⟨hlen, hdot⟩ := ih h
      refine ⟨by rw [hlen, List.length_cons]; omega, .inr ?_⟩
      rcases hdot with hdot | ⟨i, hdot, hi⟩
      · exact ⟨0, hdot, by rw [hperiod, List.getElem?_cons_zero]⟩
      · exact ⟨i + 1, by rw [hdot]; congr 1; omega, by rwa [List.getElem?_cons_succ]⟩
    obtain ⟨hlen, hdot⟩ := ih h
    refine ⟨by rw [hlen, List.length_cons]; omega, ?_⟩
    rcases hdot with hdot | ⟨i, hdot, hi⟩
    · exact .inl hdot
    · exact .inr ⟨i + 1, by rw [hdot]; congr 1; omega, by rwa [List.getElem?_cons_succ]⟩

theorem validShortName_eq_true (hscan : scanName s 0 none = some (len, dot)) :
    validShortName s = true ↔ s ≠ [] ∧ 1 ≤ dot.getD len ∧ dot.getD len ≤ 8 ∧
      (dot.map fun d ↦ len - d - 1).getD 0 ≤ 3 ∧ s.head? ≠ some period ∧
        ∀ i < len, dot = some i ∨ nameChar (s.getD i 0) = true := by
  rw [validShortName, hscan]
  dsimp only
  split_ifs with hnil hsize hhead
  · simp [hnil]
  · simp only [false_iff]
    omega
  · simp [hhead]
  simp only [List.all_eq_true, List.mem_range, decide_eq_true_eq]
  refine ⟨fun h ↦ ⟨hnil, by omega, by omega, by omega, hhead, h⟩, fun h ↦ h.2.2.2.2.2⟩

theorem head?_ne_period (hs : ∀ c ∈ s, nameChar c = true) (h1 : 1 ≤ s.length) (rest : Str) :
    (s ++ rest).head? ≠ some period := by
  cases s with
  | nil => exact absurd h1 (by simp)
  | cons c s =>
    rw [List.cons_append, List.head?_cons]
    intro heq
    exact (nameChar_ne (hs c List.mem_cons_self)).2.1 (Option.some.inj heq)

theorem nameChar_getD (hs : ∀ c ∈ s, nameChar c = true) {i : ℕ} (hi : i < s.length) :
    nameChar (s.getD i 0) = true := by
  rw [List.getD_eq_getElem _ _ hi]
  exact hs _ (List.getElem_mem hi)

theorem validShortName_of (h : ShortName s) : validShortName s = true := by
  cases h with
  | base hb h1 h8 =>
    have hscan : scanName (s ++ []) 0 none = _ := scanName_plain hb (by omega) []
    rw [List.append_nil, Nat.zero_add, scanName] at hscan
    have hhead := head?_ne_period hb h1 []
    rw [List.append_nil] at hhead
    exact (validShortName_eq_true hscan).2 ⟨List.ne_nil_of_length_pos h1, h1, h8, Nat.zero_le _,
      hhead, fun i hi ↦ .inr (nameChar_getD hb hi)⟩
  | @ext b e hb h1 h8 he h3 =>
    have hscan : scanName (b ++ period :: e) 0 none =
        some (b.length + 1 + e.length, some b.length) := by
      have hrest : scanName (e ++ []) (b.length + 1) (some b.length) = _ :=
        scanName_plain he (by omega) []
      rw [List.append_nil, scanName] at hrest
      rw [scanName_plain hb (by omega), Nat.zero_add, scanName, if_neg (by decide),
        if_neg (by omega), if_pos rfl, hrest]
    refine (validShortName_eq_true hscan).2 ⟨by simp, h1, h8, ?_, head?_ne_period hb h1 _,
      fun i hi ↦ ?_⟩
    · rw [Option.map_some, Option.getD_some]
      omega
    · rcases Nat.lt_trichotomy i b.length with hlt | rfl | hgt
      · right
        rw [List.getD_append _ _ _ _ hlt]
        exact nameChar_getD hb hlt
      · exact .inl rfl
      · right
        rw [List.getD_append_right _ _ _ _ hgt.le]
        obtain ⟨j, hj⟩ : ∃ j, i - b.length = j + 1 := ⟨i - b.length - 1, by omega⟩
        rw [hj, List.getD_cons_succ]
        exact nameChar_getD he (by omega)

theorem shortName_of (h : validShortName s = true) : ShortName s := by
  cases hscan : scanName s 0 none with
  | none =>
    rw [validShortName, hscan] at h
    simp at h
  | some r =>
    obtain ⟨len, dot⟩ := r
    obtain ⟨hne, h1, h8, h3, -, hchars⟩ := (validShortName_eq_true hscan).1 h
    obtain ⟨hlen, hdot⟩ := scanName_some hscan
    dsimp only at hlen hdot
    rw [Nat.zero_add] at hlen
    subst hlen
    have hchar : ∀ i (hi : i < s.length), dot ≠ some i → nameChar s[i] = true := by
      intro i hi hother
      rw [← List.getD_eq_getElem s 0 hi]
      exact (hchars i hi).resolve_left hother
    rcases hdot with rfl | ⟨i, rfl, hi⟩
    · refine .base (fun c hc ↦ ?_) h1 h8
      obtain ⟨i, hi, rfl⟩ := List.mem_iff_getElem.1 hc
      exact hchar i hi nofun
    obtain ⟨hlt, hperiod⟩ := List.getElem?_eq_some_iff.1 hi
    rw [Nat.zero_add] at h1 h8 h3 hchar
    have hsplit : s = s.take i ++ period :: s.drop (i + 1) := by
      rw [← hperiod, List.getElem_cons_drop, List.take_append_drop]
    rw [Option.map_some, Option.getD_some] at h3
    rw [Option.getD_some] at h1 h8
    rw [hsplit]
    refine .ext (fun c hc ↦ ?_) ?_ ?_ (fun c hc ↦ ?_) ?_
    · obtain ⟨j, hj, rfl⟩ := List.mem_iff_getElem.1 hc
      rw [List.length_take] at hj
      rw [List.getElem_take]
      exact hchar j (by omega) (by simp; omega)
    · rw [List.length_take]
      omega
    · rw [List.length_take]
      omega
    · obtain ⟨j, hj, rfl⟩ := List.mem_iff_getElem.1 hc
      rw [List.length_drop] at hj
      rw [List.getElem_drop]
      exact hchar (i + 1 + j) (by omega) (by simp; omega)
    · rw [List.length_drop]
      omega

theorem validShortName_iff : validShortName s = true ↔ ShortName s :=
  ⟨shortName_of, validShortName_of⟩

end Names

section Rows

variable {out : Buffer (Buffer UInt8)} {maxFiles n : ℕ} {names ts : List Str} {text t : Str}
  {r : Buffer (Buffer UInt8) × Option ℕ}

/-- Nothing was stored outside the rows, and the first ones are `names`. -/
structure Rows (maxFiles : ℕ) (out : Buffer (Buffer UInt8)) (names : List Str) : Prop where
  within : out.Within maxFiles
  rows : ∀ i, (out.cell i).Within 13
  names : ∀ i (h : i < names.length), (out.cell i).string 0 13 = names[i]

/-- What the loop makes of the words `ts` when `names` are in the rows already: it stores their
first twelve characters as long as they are valid names, and looks for a free row too late. -/
structure Parsed (maxFiles : ℕ) (names ts : List Str) (r : Buffer (Buffer UInt8) × Option ℕ) :
    Prop where
  rows : ∀ i, (r.1.cell i).Within 13
  stored : (∀ t ∈ ts, validShortName (t.take 12) = true) → names.length + ts.length ≤ maxFiles →
    r.2 = some (names.length + ts.length) ∧ Rows maxFiles r.1 (names ++ ts.map (·.take 12))
  refused : (∃ t ∈ ts.take (maxFiles - names.length), validShortName (t.take 12) = false) →
    r.2 = none ∧ r.1.Within maxFiles
  left : (∀ t ∈ ts.take (maxFiles - names.length), validShortName (t.take 12) = true) →
    maxFiles < names.length + ts.length → r.2 = none ∧ ¬ r.1.Within maxFiles

theorem Rows.parsed_nil (h : Rows maxFiles out names) (hlen : names.length ≤ maxFiles) :
    Parsed maxFiles names [] (out, some names.length) := by
  refine ⟨h.rows, fun _ _ ↦ ⟨rfl, ?_⟩, ?_, fun _ hlt ↦ ?_⟩
  · rw [List.map_nil, List.append_nil]
    exact h
  · rintro ⟨t, ht, -⟩
    rw [List.take_nil] at ht
    exact absurd ht List.not_mem_nil
  · rw [List.length_nil] at hlt
    omega

theorem Parsed.cons (hlt : names.length < maxFiles) (hvalid : validShortName (t.take 12) = true)
    (h : Parsed maxFiles (names ++ [t.take 12]) ts r) : Parsed maxFiles names (t :: ts) r := by
  have hlen : (names ++ [t.take 12]).length = names.length + 1 := by simp
  obtain ⟨hrows, hstored, hrefused, hleft⟩ := h
  rw [hlen] at hstored hrefused hleft
  have htake : (t :: ts).take (maxFiles - names.length) =
      t :: ts.take (maxFiles - (names.length + 1)) := by
    have hroom : maxFiles - names.length = maxFiles - (names.length + 1) + 1 := by omega
    rw [hroom, List.take_succ_cons]
  refine ⟨hrows, fun hall hfit ↦ ?_, fun hbad ↦ ?_, fun hall hmany ↦ ?_⟩
  · rw [List.length_cons] at hfit ⊢
    obtain ⟨hcount, hnames⟩ := hstored (fun u hu ↦ hall u (List.mem_cons_of_mem t hu)) (by omega)
    rw [List.append_assoc, List.singleton_append] at hnames
    refine ⟨?_, hnames⟩
    rw [hcount]
    congr 1
    omega
  · rw [htake] at hbad
    obtain ⟨u, hu, hinvalid⟩ := hbad
    rcases List.mem_cons.1 hu with rfl | hu
    · rw [hvalid] at hinvalid
      exact absurd hinvalid (by decide)
    · exact hrefused ⟨u, hu, hinvalid⟩
  rw [htake] at hall
  rw [List.length_cons] at hmany
  exact hleft (fun u hu ↦ hall u (List.mem_cons_of_mem t hu)) (by omega)

section

variable (h : Rows maxFiles out names)
include h

theorem fill_word (t : Str) :
    Buffer.Filled 13 (Buffer.fill 12 (out.cell names.length) 0 t) (t.take 12) := by
  have hfill := (Buffer.Filled.start (h.rows names.length)).fill (by norm_num : 12 ≤ 13) t
  rwa [List.nil_append, List.length_nil, Nat.sub_zero] at hfill

theorem Rows.store (hlt : names.length < maxFiles) (h0 : 0 ∉ t) :
    let r := Buffer.fill 12 (out.cell names.length) 0 t
    let out' := (out.store names.length r.1).store names.length (r.1.store r.2 0)
    Rows maxFiles out' (names ++ [t.take 12]) ∧
      (out'.cell names.length).string 0 13 = t.take 12 := by
  intro r out'
  have hfill : Buffer.Filled 13 r (t.take 12) := fill_word h t
  have hshort : (t.take 12).length < 13 := Nat.lt_succ_of_le (List.length_take_le 12 t)
  have hrow : out'.cell names.length = r.1.store r.2 0 := Function.update_self _ _ _
  have hother : ∀ i, i ≠ names.length → out'.cell i = out.cell i := by
    intro i hi
    simp [out', Buffer.store, hi]
  have hstring : (out'.cell names.length).string 0 13 = t.take 12 := by
    rw [hrow]
    exact (hfill.terminate 0).string (fun hmem ↦ h0 (List.mem_of_mem_take hmem)) hshort
  refine ⟨⟨?_, fun i ↦ ?_, fun i hi ↦ ?_⟩, hstring⟩
  · exact Buffer.store_within.2 ⟨hlt, Buffer.store_within.2 ⟨hlt, h.within⟩⟩
  · by_cases hi : i = names.length
    · rw [hi, hrow]
      exact (hfill.terminate_within 0).2 hshort
    · rw [hother i hi]
      exact h.rows i
  rw [List.length_append, List.length_singleton] at hi
  by_cases heq : i = names.length
  · subst heq
    rw [hstring]
    simp
  · have hold : i < names.length := by omega
    rw [hother i heq, h.names i hold, List.getElem_append_left hold]

theorem Rows.parsed_full (hfull : maxFiles ≤ names.length) : Parsed maxFiles names (t :: ts)
      (out.store names.length (Buffer.fill 12 (out.cell names.length) 0 t).1, none) := by
  have hnone : maxFiles - names.length = 0 := Nat.sub_eq_zero_of_le hfull
  refine ⟨fun i ↦ ?_, fun _ hfit ↦ ?_, ?_, fun _ _ ↦ ⟨rfl, fun hwithin ↦ ?_⟩⟩
  · by_cases hi : i = names.length
    · subst hi
      simp only [Buffer.store, Function.update_self]
      exact (fill_word h t).within
    · simp only [Buffer.store, Function.update_of_ne hi]
      exact h.rows i
  · rw [List.length_cons] at hfit
    omega
  · rintro ⟨u, hu, -⟩
    rw [hnone, List.take_zero] at hu
    exact absurd hu List.not_mem_nil
  · have := (Buffer.store_within.1 hwithin).1
    omega

end

theorem Rows.parsed_invalid (h : Rows maxFiles out (names ++ [t.take 12]))
    (hlt : names.length < maxFiles) (hinvalid : validShortName (t.take 12) = false) :
    Parsed maxFiles names (t :: ts) (out, none) := by
  have hfirst : t ∈ (t :: ts).take (maxFiles - names.length) := by
    obtain ⟨m, hm⟩ : ∃ m, maxFiles - names.length = m + 1 := ⟨maxFiles - names.length - 1, by omega⟩
    rw [hm, List.take_succ_cons]
    exact List.mem_cons_self
  refine ⟨h.rows, fun hall _ ↦ ?_, fun _ ↦ ⟨rfl, h.within⟩, fun hall _ ↦ ?_⟩
  · rw [hall t List.mem_cons_self] at hinvalid
    exact absurd hinvalid (by decide)
  rw [hall t hfirst] at hinvalid
  exact absurd hinvalid (by decide)

theorem fileLoop_spec (hn : text.length < n) (h0 : 0 ∉ text) (h : Rows maxFiles out names)
    (hlen : names.length ≤ maxFiles) :
    Parsed maxFiles names (words isSeparator text) (fileLoop maxFiles n text out names.length) := by
  induction n generalizing text out names with
  | zero => omega
  | succ n ih =>
    rw [fileLoop]
    dsimp only
    by_cases hend : text.dropWhile isSeparator = []
    · rw [if_pos hend, words_of_dropWhile_nil hend]
      exact h.parsed_nil hlen
    have hword := first_word_ne_nil hend
    have hsub := List.dropWhile_sublist isSeparator (l := text)
    rw [if_neg hend, words_cons hend]
    generalize text.dropWhile isSeparator = text' at hword hsub ⊢
    generalize ht : text'.takeWhile (!isSeparator ·) = t at hword ⊢
    generalize hrest : text'.dropWhile (!isSeparator ·) = rest
    have hsplit : t ++ rest = text' := by rw [← ht, ← hrest, List.takeWhile_append_dropWhile]
    have hpos : 0 < t.length := List.length_pos_of_ne_nil hword
    have hcount : (Buffer.fill 12 (out.cell names.length) 0 t).2 = min t.length 12 := by
      rw [Buffer.fill_pos, Nat.zero_add, Nat.sub_zero]
    have h0' : ∀ c ∈ text', c ≠ 0 := fun c hc heq ↦ h0 (heq ▸ hsub.subset hc)
    rw [← hsplit] at h0' hsub
    have ht0 : (0 : UInt8) ∉ t := fun hmem ↦ h0' 0 (List.mem_append_left rest hmem) rfl
    have hrest0 : (0 : UInt8) ∉ rest := fun hmem ↦ h0' 0 (List.mem_append_right t hmem) rfl
    have hshorter : rest.length < n := by
      have := hsub.length_le
      rw [List.length_append] at this
      omega
    by_cases hfull : maxFiles ≤ names.length
    · rw [if_pos (.inr (.inr hfull))]
      exact h.parsed_full hfull
    rw [if_neg (by omega)]
    have hlt : names.length < maxFiles := by omega
    obtain ⟨hrows, hstring⟩ := h.store hlt ht0
    rw [hstring]
    cases hvalid : validShortName (t.take 12) with
    | false =>
      rw [if_pos (by decide)]
      exact hrows.parsed_invalid hlt hvalid
    | true =>
      rw [if_neg (by decide)]
      have hnext := ih hshorter hrest0 hrows (by rw [List.length_append]; simpa using hlt)
      rw [List.length_append, List.length_singleton] at hnext
      exact hnext.cons hlt hvalid

end Rows

section Exact

variable {text : Str} {maxFiles : ℕ} {r : Buffer (Buffer UInt8) × Option ℕ}

def tokens (text : Str) : List Str := words isSeparator text

/-- The parser stores in its rows only, what it accepts is exactly the names of the text, and it
refuses a text with another word or too many of them. -/
structure ParsesExactly (text : Str) (maxFiles : ℕ) (r : Buffer (Buffer UInt8) × Option ℕ) :
    Prop where
  within : r.1.Within maxFiles
  rows : ∀ i, (r.1.cell i).Within 13
  accepted : ∀ count, r.2 = some count → 0 < count → (tokens text).length = count ∧
    ∀ i (h : i < (tokens text).length), ShortName (tokens text)[i] ∧
      (r.1.cell i).string 0 13 = (tokens text)[i]
  refused : (∃ t ∈ tokens text, ¬ ShortName t) ∨ maxFiles < (tokens text).length → r.2 = none

/-- If the words as far as the rows go begin with valid names, then they are not longer and there
are no others. -/
def NoLongNames (text : Str) (maxFiles : ℕ) : Prop :=
  (∀ t ∈ (tokens text).take maxFiles, ShortName (t.take 12)) →
    (tokens text).length ≤ maxFiles ∧ ∀ t ∈ tokens text, t.length ≤ 12

theorem parseFileList_parsed (h0 : 0 ∉ text) (maxFiles : ℕ) (cells : ℕ → ℕ → UInt8) :
    Parsed maxFiles [] (tokens text)
      (parseFileList text ⟨fun i ↦ ⟨cells i, []⟩, []⟩ maxFiles) := by
  have hrows : Rows maxFiles ⟨fun i ↦ ⟨cells i, []⟩, []⟩ [] :=
    ⟨fun _ hi ↦ absurd hi List.not_mem_nil, fun _ _ hi ↦ absurd hi List.not_mem_nil,
      fun _ hi ↦ absurd hi (Nat.not_lt_zero _)⟩
  unfold parseFileList
  split_ifs with hnil
  · subst hnil
    exact hrows.parsed_nil (Nat.zero_le _)
  · exact fileLoop_spec (Nat.lt_succ_self _) h0 hrows (Nat.zero_le _)

theorem Parsed.exact (h : Parsed maxFiles [] (tokens text) r) (hlen : (tokens text).length ≤ maxFiles)
    (hvalid : ∀ t ∈ tokens text, ShortName t) : ParsesExactly text maxFiles r := by
  have hwhole : (tokens text).map (·.take 12) = tokens text := by
    conv_rhs => rw [← List.map_id (tokens text)]
    exact List.map_congr_left fun t ht ↦ List.take_of_length_le (hvalid t ht).length_le
  obtain ⟨hcount, hrows⟩ := h.stored (fun t ht ↦ by
    rw [List.take_of_length_le (hvalid t ht).length_le]
    exact validShortName_of (hvalid t ht)) (by simpa using hlen)
  rw [List.nil_append, hwhole] at hrows
  rw [List.length_nil, Nat.zero_add] at hcount
  refine ⟨hrows.within, hrows.rows, fun count heq _ ↦ ⟨?_, fun i hi ↦ ⟨?_, hrows.names i hi⟩⟩, ?_⟩
  · rw [hcount] at heq
    exact Option.some.inj heq
  · exact hvalid _ (List.getElem_mem hi)
  rintro (⟨t, ht, hbad⟩ | hmany)
  · exact absurd (hvalid t ht) hbad
  · omega

theorem file_list_exact (text : Str) (h0 : 0 ∉ text) (maxFiles : ℕ) (cells : ℕ → ℕ → UInt8) :
    ParsesExactly text maxFiles (parseFileList text ⟨fun i ↦ ⟨cells i, []⟩, []⟩ maxFiles) ↔
      NoLongNames text maxFiles := by
  have hp := parseFileList_parsed h0 maxFiles cells
  generalize parseFileList text ⟨fun i ↦ ⟨cells i, []⟩, []⟩ maxFiles = r at hp
  constructor
  · intro h hall
    have hvalid : ∀ t ∈ (tokens text).take maxFiles, validShortName (t.take 12) = true :=
      fun t ht ↦ validShortName_of (hall t ht)
    have hlen : (tokens text).length ≤ maxFiles := by
      by_contra! hmany
      exact (hp.left hvalid (by simpa using hmany)).2 h.within
    rw [List.take_of_length_le hlen] at hvalid
    refine ⟨hlen, fun t ht ↦ ?_⟩
    by_contra! hlong
    have hsome := (hp.stored hvalid (by simpa using hlen)).1
    rw [h.refused (.inl ⟨t, ht, fun hname ↦ absurd hname.length_le (by omega)⟩)] at hsome
    cases hsome
  intro h
  by_cases hall : ∀ t ∈ (tokens text).take maxFiles, ShortName (t.take 12)
  · obtain ⟨hlen, hshort⟩ := h hall
    rw [List.take_of_length_le hlen] at hall
    refine hp.exact hlen fun t ht ↦ ?_
    rw [← List.take_of_length_le (hshort t ht)]
    exact hall t ht
  push Not at hall
  obtain ⟨t, ht, hbad⟩ := hall
  have hinvalid : validShortName (t.take 12) = false := by
    rw [← Bool.not_eq_true, validShortName_iff]
    exact hbad
  obtain ⟨hnone, hwithin⟩ := hp.refused ⟨t, ht, hinvalid⟩
  refine ⟨hwithin, hp.rows, fun count heq _ ↦ ?_, fun _ ↦ hnone⟩
  rw [hnone] at heq
  cases heq

/-- "A.TXT;B". -/
theorem file_list_exact_two : ParsesExactly [65, 46, 84, 88, 84, 59, 66] 8
    (parseFileList [65, 46, 84, 88, 84, 59, 66] ⟨fun _ ↦ ⟨fun _ ↦ 1, []⟩, []⟩ 8) :=
  (file_list_exact _ (by decide) 8 fun _ _ ↦ 1).2 fun _ ↦ by decide

/-- "ABCDEFGH.TXTX" is accepted as another name, and of "A B" the second name is stored behind an
array of one row. -/
theorem file_list_inexact :
    let long : Str := [65, 66, 67, 68, 69, 70, 71, 72, 46, 84, 88, 84, 88]
    let out : Buffer (Buffer UInt8) := ⟨fun _ ↦ ⟨fun _ ↦ 1, []⟩, []⟩
    (tokens long = [long] ∧ ¬ ShortName long ∧ (parseFileList long out 8).2 = some 1 ∧
        ((parseFileList long out 8).1.cell 0).string 0 13 = long.take 12) ∧
      (parseFileList [65, 32, 66] out 1).2 = none ∧
        ¬ (parseFileList [65, 32, 66] out 1).1.Within 1 := by
  refine ⟨⟨by decide, fun h ↦ absurd h.length_le (by decide), by decide, by decide⟩, by decide,
    by decide⟩

end Exact

end NexusOS.Packages
