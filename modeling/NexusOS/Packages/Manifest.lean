import NexusOS.Fs.Mount
import NexusOS.Lib.Buffer

namespace NexusOS.Packages

open Lib Fs

section Source

/-- The fields of `nexus_package_manifest_t`, in the order in which they are looked for. -/
inductive Field
  | name
  | id
  | version
  | author
  | type
  | entry
  | icon
  | files
  deriving DecidableEq

def Field.all : List Field := [.name, .id, .version, .author, .type, .entry, .icon, .files]

def Field.key : Field → Str
  | .name => [78, 97, 109, 101]
  | .id => [73, 68]
  | .version => [86, 101, 114, 115, 105, 111, 110]
  | .author => [65, 117, 116, 104, 111, 114]
  | .type => [84, 121, 112, 101]
  | .entry => [69, 110, 116, 114, 121]
  | .icon => [73, 99, 111, 110]
  | .files => [70, 105, 108, 101, 115]

def Field.size : Field → ℕ
  | .name => 64
  | .id => 64
  | .version => 32
  | .author => 64
  | .type => 32
  | .entry => 96
  | .icon => 96
  | .files => 192

abbrev Manifest := Field → Buffer UInt8

def newline : UInt8 := 10

def carriageReturn : UInt8 := 13

def isBlank (c : UInt8) : Bool := c = 32 ∨ c = 9

def isAssign (c : UInt8) : Bool := c = 58 ∨ c = 61

/-- A pointer into the text is what stands there up to the end of the array, the terminator
included; a function that would read behind it has no result. -/
abbrev Ptr := List UInt8

def copyValue (max : ℕ) : Ptr → Buffer UInt8 → ℕ → Option (Buffer UInt8)
  | [], _, _ => none
  | c :: v, dst, i =>
    if c ≠ 0 ∧ c ≠ carriageReturn ∧ c ≠ newline ∧ i < max - 1 then
      copyValue max v (dst.store i c) (i + 1)
    else some (dst.store i 0)

/-- `while (p[i] && p[i] != '\n') ++i`. -/
def lineLength : Ptr → Option ℕ
  | [] => none
  | c :: p => if c ≠ 0 ∧ c ≠ newline then (lineLength p).map (· + 1) else some 0

def matchKey : Str → Ptr → Option Bool
  | [], _ => some true
  | _ :: _, [] => none
  | k :: key, c :: p => if c ≠ k then some false else matchKey key p

/-- `while (off < i && (p[off] == ' ' || p[off] == '\t')) ++off`, with `i - off` characters left. -/
def skipBlanks (p : Ptr) : ℕ → ℕ → Option ℕ
  | 0, off => some off
  | n + 1, off => do
    let c ← p[off]?
    if isBlank c then skipBlanks p n (off + 1) else return off

/-- The loop of `line` over the lines of the text, which has no result either when the counter is too
small. -/
def lineLoop (key : Str) (out : Buffer UInt8) (max : ℕ) : ℕ → Ptr → Option (Bool × Buffer UInt8)
  | 0, _ => none
  | n + 1, p => do
    if (← p[0]?) = 0 then return (false, out)
    else
      let i ← lineLength p
      let found ← matchKey key p
      if (← if found then (p[key.length]?).map isAssign else some false) then
        let off ← skipBlanks p (i - (key.length + 1)) (key.length + 1)
        return (true, ← copyValue max (p.drop off) out 0)
      else
        let p := p.drop i
        lineLoop key out max n (if (← p[0]?) = newline then p.drop 1 else p)

def line (text key : Str) (out : Buffer UInt8) (max : ℕ) : Option (Bool × Buffer UInt8) :=
  lineLoop key out max (text.length + 1) (text ++ [0])

def parseField (text : Str) (out : Manifest) (f : Field) : Option Manifest := do
  let r ← line text f.key (out f) f.size
  return Function.update out f r.2

def nexusPackageManifestParse (text : Str) (out : Manifest) : Option (Bool × Manifest) := do
  let out ← Field.all.foldlM (parseField text) fun f ↦ (out f).store 0 0
  return ((out .name).cell 0 ≠ 0 ∧ (out .id).cell 0 ≠ 0, out)

end Source

section Lines

variable {l rest : Str} {ls : List Str} {c : UInt8} {key : Str} {dst : Buffer UInt8} {max n i : ℕ}

def unlines : List Str → Str
  | [] => []
  | [l] => l
  | l :: ls => l ++ newline :: unlines ls

/-- What stands before the first colon or equals sign of a line that has one. -/
def lineKey (l : Str) : Option Str :=
  if l.any isAssign then some (l.takeWhile (!isAssign ·)) else none

def lineValue (l : Str) : Str := ((l.dropWhile (!isAssign ·)).drop 1).dropWhile isBlank

def IsLine (l : Str) : Prop := 0 ∉ l ∧ newline ∉ l

instance (l : Str) : Decidable (IsLine l) := inferInstanceAs (Decidable (_ ∧ _))

def keyLine (ls : List Str) (key : Str) : Option Str := ls.find? fun l ↦ lineKey l = some key

theorem keyLine_cons (l : Str) (ls : List Str) (key : Str) :
    keyLine (l :: ls) key = if lineKey l = some key then some l else keyLine ls key := by
  rw [keyLine, List.find?_cons]
  by_cases hline : lineKey l = some key <;> simp [hline, keyLine]

theorem lineLength_append (hl : IsLine l) (hc : c = 0 ∨ c = newline) :
    lineLength (l ++ c :: rest) = some l.length := by
  induction l with
  | nil =>
    rw [List.nil_append, lineLength, if_neg]
    · rfl
    · rcases hc with rfl | rfl <;> decide
  | cons d l ih =>
    obtain ⟨h0, hnl⟩ := hl
    rw [List.mem_cons, not_or] at h0 hnl
    rw [List.cons_append, lineLength, if_pos ⟨Ne.symm h0.1, Ne.symm hnl.1⟩, ih ⟨h0.2, hnl.2⟩]
    rfl

theorem matchKey_self (key : Str) (p : Ptr) : matchKey key (key ++ p) = some true := by
  induction key with
  | nil => rfl
  | cons k key ih => rw [List.cons_append, matchKey, if_neg (not_not_intro rfl), ih]

theorem matchKey_ne (hkey : IsLine key) (hc : c = 0 ∨ c = newline) (h : ¬ key <+: l) :
    matchKey key (l ++ c :: rest) = some false := by
  induction key generalizing l with
  | nil => exact absurd List.nil_prefix h
  | cons k key ih =>
    obtain ⟨h0, hnl⟩ := hkey
    rw [List.mem_cons, not_or] at h0 hnl
    cases l with
    | nil =>
      have hne : c ≠ k := by
        rcases hc with rfl | rfl
        · exact h0.1
        · exact hnl.1
      rw [List.nil_append, matchKey, if_pos hne]
    | cons d l =>
      rw [List.cons_append, matchKey]
      split_ifs with hd
      · rfl
      rw [not_not] at hd
      rw [List.cons_prefix_cons] at h
      exact ih ⟨h0.2, hnl.2⟩ fun hpre ↦ h ⟨hd.symm, hpre⟩

theorem skipBlanks_append (v q : Str) (pre : Str) :
    skipBlanks (pre ++ (v ++ q)) v.length pre.length =
      some (pre.length + (v.takeWhile isBlank).length) := by
  induction v generalizing pre with
  | nil => rfl
  | cons c v ih =>
    have hread : (pre ++ (c :: v ++ q))[pre.length]? = some c := by
      rw [List.getElem?_append_right le_rfl, Nat.sub_self]
      rfl
    rw [List.length_cons, skipBlanks, hread]
    change (if isBlank c then _ else _) = _
    split_ifs with hc
    · have hnext := ih (pre ++ [c])
      rw [List.append_assoc, List.singleton_append, ← List.cons_append, List.length_append,
        List.length_singleton] at hnext
      rw [hnext, List.takeWhile_cons_of_pos hc, List.length_cons]
      congr 1
      omega
    · rw [List.takeWhile_cons_of_neg hc]
      rfl

def storeValue (max : ℕ) (dst : Buffer UInt8) (v : Str) : Buffer UInt8 :=
  let r := Buffer.fill (max - 1) dst 0 (v.takeWhile (· ≠ carriageReturn))
  r.1.store r.2 0

/-- The array after the value of a line, if there is one, was stored. -/
def storeLine (max : ℕ) (dst : Buffer UInt8) (l : Option Str) : Buffer UInt8 :=
  (l.map fun l ↦ storeValue max dst (lineValue l)).getD dst

theorem copyValue_append (hl : IsLine l) (hc : c = 0 ∨ c = newline) :
    copyValue max (l ++ c :: rest) dst i =
      let r := Buffer.fill (max - 1) dst i (l.takeWhile (· ≠ carriageReturn))
      some (r.1.store r.2 0) := by
  induction l generalizing dst i with
  | nil =>
    rw [List.nil_append, copyValue, if_neg]
    · rfl
    · rcases hc with rfl | rfl <;> simp
  | cons d l ih =>
    obtain ⟨h0, hnl⟩ := hl
    rw [List.mem_cons, not_or] at h0 hnl
    rw [List.cons_append, copyValue]
    by_cases hcr : d = carriageReturn
    · rw [if_neg (by simp [hcr]), List.takeWhile_cons_of_neg (by simp [hcr])]
      rfl
    rw [List.takeWhile_cons_of_pos (by simpa using hcr), Buffer.fill]
    by_cases hi : i < max - 1
    · rw [if_pos ⟨Ne.symm h0.1, hcr, Ne.symm hnl.1, hi⟩, if_pos hi, ih ⟨h0.2, hnl.2⟩]
    · rw [if_neg (by tauto), if_neg hi]

theorem lineKey_eq_some (hkey : ∀ d ∈ key, isAssign d = false) :
    lineKey l = some key ↔ ∃ a v, isAssign a = true ∧ l = key ++ a :: v := by
  constructor
  · intro h
    unfold lineKey at h
    split_ifs at h with hany
    have hdrop : l.dropWhile (!isAssign ·) ≠ [] := by
      intro hnil
      rw [List.any_eq_true] at hany
      obtain ⟨d, hd, hassign⟩ := hany
      have := List.dropWhile_eq_nil_iff.1 hnil d hd
      rw [hassign] at this
      exact absurd this (by decide)
    obtain ⟨a, v, hav⟩ := List.exists_cons_of_ne_nil hdrop
    refine ⟨a, v, ?_, ?_⟩
    · have := List.head?_dropWhile_not (!isAssign ·) l
      rw [hav] at this
      simpa using this
    · rw [← Option.some.inj h, ← hav, List.takeWhile_append_dropWhile]
  · rintro ⟨a, v, ha, rfl⟩
    have htake : (key ++ a :: v).takeWhile (!isAssign ·) = key := by
      rw [List.takeWhile_append_of_pos fun d hd ↦ by rw [hkey d hd]; rfl,
        List.takeWhile_cons_of_neg (by simp [ha]), List.append_nil]
    rw [lineKey, if_pos (by simp [ha]), htake]

theorem lineValue_append {a : UInt8} {v : Str} (hkey : ∀ d ∈ key, isAssign d = false)
    (ha : isAssign a = true) : lineValue (key ++ a :: v) = v.dropWhile isBlank := by
  rw [lineValue, List.dropWhile_append_of_pos fun d hd ↦ by rw [hkey d hd]; rfl,
    List.dropWhile_cons_of_neg (by simp [ha])]
  rfl

end Lines

section Loop

variable {l rest key : Str} {ls : List Str} {c d a : UInt8} {out out' : Buffer UInt8}
  {max n i off : ℕ} {p : Ptr}

theorem lineLoop_end (hread : p[0]? = some 0) :
    lineLoop key out max (n + 1) p = some (false, out) := by
  simp [lineLoop, hread]

theorem lineLoop_found (hread : p[0]? = some d) (hd : d ≠ 0) (hi : lineLength p = some i)
    (hmatch : matchKey key p = some true) (hsign : p[key.length]? = some a)
    (ha : isAssign a = true) (hskip : skipBlanks p (i - (key.length + 1)) (key.length + 1) = some off)
    (hcopy : copyValue max (p.drop off) out 0 = some out') :
    lineLoop key out max (n + 1) p = some (true, out') := by
  simp [lineLoop, hread, hd, hi, hmatch, hsign, ha, hskip, hcopy]

theorem lineLoop_next (hread : p[0]? = some d) (hd : d ≠ 0) (hi : lineLength p = some i)
    (hmatch : matchKey key p = some false ∨
      matchKey key p = some true ∧ p[key.length]? = some a ∧ isAssign a = false)
    (hend : (p.drop i)[0]? = some c) :
    lineLoop key out max (n + 1) p =
      lineLoop key out max n (if c = newline then (p.drop i).drop 1 else p.drop i) := by
  rcases hmatch with hmatch | ⟨hmatch, hsign, ha⟩
  · simp only [lineLoop, hread, hi, hmatch, hend, Option.bind_eq_bind, Option.bind_some, if_neg hd]
    rfl
  simp only [lineLoop, hread, hi, hmatch, hsign, hend, Option.bind_eq_bind, Option.bind_some,
    if_neg hd, if_true, Option.map_some, ha]
  rfl

theorem lineLoop_line (hkey : IsLine key) (hassign : ∀ d ∈ key, isAssign d = false) (hl : IsLine l)
    (hc : c = 0 ∧ l ≠ [] ∨ c = newline) :
    lineLoop key out max (n + 1) (l ++ c :: rest) =
      if lineKey l = some key then some (true, storeValue max out (lineValue l))
      else lineLoop key out max n (if c = newline then rest else c :: rest) := by
  have hend : c = 0 ∨ c = newline := hc.imp_left And.left
  obtain ⟨d, hread, hd⟩ : ∃ d, (l ++ c :: rest)[0]? = some d ∧ d ≠ 0 := by
    cases l with
    | nil =>
      refine ⟨c, rfl, ?_⟩
      rcases hc with ⟨-, hne⟩ | rfl
      · exact absurd rfl hne
      · decide
    | cons d l => exact ⟨d, rfl, fun heq ↦ hl.1 (heq ▸ List.mem_cons_self)⟩
  have hlen : lineLength (l ++ c :: rest) = some l.length := lineLength_append hl hend
  by_cases hline : lineKey l = some key
  · rw [if_pos hline]
    obtain ⟨a, v, ha, rfl⟩ := (lineKey_eq_some hassign).1 hline
    have hsplit : key ++ a :: v ++ c :: rest = (key ++ [a]) ++ (v ++ c :: rest) := by simp
    have hskip := skipBlanks_append v (c :: rest) (key ++ [a])
    rw [← hsplit, List.length_append, List.length_singleton] at hskip
    have hcount : (key ++ a :: v).length - (key.length + 1) = v.length := by
      rw [List.length_append, List.length_cons]
      omega
    have hdrop : (key ++ a :: v ++ c :: rest).drop (key.length + 1 + (v.takeWhile isBlank).length) =
        v.dropWhile isBlank ++ c :: rest := by
      have hpre : key ++ a :: v ++ c :: rest =
          (key ++ [a] ++ v.takeWhile isBlank) ++ (v.dropWhile isBlank ++ c :: rest) := by
        rw [List.append_assoc (key ++ [a]), ← List.append_assoc (v.takeWhile isBlank),
          List.takeWhile_append_dropWhile, hsplit]
      rw [hpre]
      exact List.drop_left' (by simp only [List.length_append, List.length_singleton])
    have hv : IsLine (v.dropWhile isBlank) := by
      have hsub : v.dropWhile isBlank ⊆ key ++ a :: v := fun x hx ↦
        List.mem_append_right key (List.mem_cons_of_mem a ((List.dropWhile_sublist _).subset hx))
      exact ⟨fun h ↦ hl.1 (hsub h), fun h ↦ hl.2 (hsub h)⟩
    refine lineLoop_found hread hd hlen ?_ ?_ ha (hcount ▸ hskip) ?_
    · rw [List.append_assoc]
      exact matchKey_self key _
    · simp
    rw [hdrop, copyValue_append hv hend, lineValue_append hassign ha]
    rfl
  · rw [if_neg hline]
    have hnext : (l ++ c :: rest).drop l.length = c :: rest := List.drop_left
    obtain ⟨a, hmatch⟩ : ∃ a, matchKey key (l ++ c :: rest) = some false ∨
        matchKey key (l ++ c :: rest) = some true ∧
          (l ++ c :: rest)[key.length]? = some a ∧ isAssign a = false := by
      by_cases hpre : key <+: l
      · -- the character behind the key is another one, or the line ends there
        obtain ⟨v, rfl⟩ := hpre
        rw [List.append_assoc, matchKey_self, List.getElem?_append_right le_rfl, Nat.sub_self]
        cases v with
        | nil => exact ⟨c, .inr ⟨rfl, rfl, by rcases hend with rfl | rfl <;> decide⟩⟩
        | cons a v =>
          refine ⟨a, .inr ⟨rfl, rfl, ?_⟩⟩
          by_contra ha
          exact hline ((lineKey_eq_some hassign).2 ⟨a, v, by simpa using ha, rfl⟩)
      · exact ⟨0, .inl (matchKey_ne hkey hend hpre)⟩
    rw [lineLoop_next hread hd hlen hmatch (by rw [hnext]; rfl), hnext]
    rfl

theorem lineLoop_lines (hkey : IsLine key) (hassign : ∀ d ∈ key, isAssign d = false)
    (hls : ∀ l ∈ ls, IsLine l) (hn : (unlines ls).length < n) :
    lineLoop key out max n (unlines ls ++ [0]) =
      some ((keyLine ls key).isSome, storeLine max out (keyLine ls key)) := by
  induction ls generalizing n with
  | nil =>
    obtain ⟨n, rfl⟩ : ∃ m, n = m + 1 := ⟨n - 1, by omega⟩
    exact lineLoop_end rfl
  | cons l ls ih =>
    obtain ⟨n, rfl⟩ : ∃ m, n = m + 1 := ⟨n - 1, by omega⟩
    have hl := hls l List.mem_cons_self
    rw [keyLine_cons]
    cases ls with
    | nil =>
      change lineLoop key out max (n + 1) (l ++ [0]) = _
      by_cases hnil : l = []
      · subst hnil
        exact lineLoop_end rfl
      have hpos : 0 < l.length := List.length_pos_of_ne_nil hnil
      obtain ⟨n, rfl⟩ : ∃ m, n = m + 1 := ⟨n - 1, by change l.length < n + 1 at hn; omega⟩
      rw [lineLoop_line hkey hassign hl (.inl ⟨rfl, hnil⟩),
        if_neg (show (0 : UInt8) ≠ newline by decide), lineLoop_end rfl]
      split_ifs <;> rfl
    | cons l' ls =>
      have hunlines : unlines (l :: l' :: ls) = l ++ newline :: unlines (l' :: ls) := rfl
      rw [hunlines, List.length_append, List.length_cons] at hn
      rw [hunlines, List.append_assoc, List.cons_append, lineLoop_line hkey hassign hl (.inr rfl),
        if_pos rfl, ih (fun u hu ↦ hls u (List.mem_cons_of_mem l hu)) (by omega)]
      split_ifs <;> rfl

end Loop

section Order

variable {ls ls' : List Str} {f : Field} {m : Manifest} {key : Str}

theorem keyLine_eq_some (hkeys : (ls.filterMap lineKey).Nodup) {l : Str} :
    keyLine ls key = some l ↔ l ∈ ls ∧ lineKey l = some key := by
  induction ls with
  | nil => simp [keyLine]
  | cons u ls ih =>
    have htail : (ls.filterMap lineKey).Nodup :=
      hkeys.sublist ((List.sublist_cons_self u ls).filterMap lineKey)
    rw [keyLine_cons]
    split_ifs with hu
    · rw [List.filterMap_cons_some hu, List.nodup_cons] at hkeys
      rw [Option.some.injEq]
      constructor
      · rintro rfl
        exact ⟨List.mem_cons_self, hu⟩
      rintro ⟨hl, hkey⟩
      rcases List.mem_cons.1 hl with rfl | hl
      · rfl
      · exact absurd (List.mem_filterMap.2 ⟨l, hl, hkey⟩) hkeys.1
    rw [ih htail, List.mem_cons]
    constructor
    · rintro ⟨hl, hkey⟩
      exact ⟨.inr hl, hkey⟩
    rintro ⟨rfl | hl, hkey⟩
    · exact absurd hkey hu
    · exact ⟨hl, hkey⟩

theorem keyLine_perm (hkeys : (ls.filterMap lineKey).Nodup) (hperm : ls'.Perm ls) :
    keyLine ls' key = keyLine ls key := by
  have hkeys' : (ls'.filterMap lineKey).Nodup := (hperm.filterMap lineKey).nodup_iff.2 hkeys
  refine Option.ext fun l ↦ ?_
  rw [keyLine_eq_some hkeys', keyLine_eq_some hkeys, hperm.mem_iff]

theorem Field.isLine_key (f : Field) : IsLine f.key := by
  cases f <;> decide

theorem Field.key_plain (f : Field) : ∀ c ∈ f.key, isAssign c = false := by
  cases f <;> simp [Field.key, isAssign]

theorem line_lines (hls : ∀ l ∈ ls, IsLine l) (out : Buffer UInt8) :
    line (unlines ls) f.key out f.size = some ((keyLine ls f.key).isSome,
      storeLine f.size out (keyLine ls f.key)) :=
  lineLoop_lines f.isLine_key f.key_plain hls (Nat.lt_succ_self _)

def parsedFields (ls : List Str) (m : Manifest) : Manifest := fun f ↦
  storeLine f.size ((m f).store 0 0) (keyLine ls f.key)

section

variable (hls : ∀ l ∈ ls, IsLine l)
include hls

theorem parseField_lines (out : Manifest) (f : Field) : parseField (unlines ls) out f =
      some (Function.update out f (storeLine f.size (out f) (keyLine ls f.key))) := by
  rw [parseField, line_lines hls]
  rfl

theorem parseFields_lines {fs : List Field} (hfs : fs.Nodup)
    (out : Manifest) : fs.foldlM (parseField (unlines ls)) out =
      some fun f ↦ if f ∈ fs then storeLine f.size (out f) (keyLine ls f.key) else out f := by
  induction fs generalizing out with
  | nil => simp
  | cons f fs ih =>
    obtain ⟨hf, hfs⟩ := List.nodup_cons.1 hfs
    rw [List.foldlM_cons, parseField_lines hls, Option.bind_eq_bind, Option.bind_some, ih hfs]
    congr 1
    funext g
    by_cases hg : g = f
    · subst hg
      simp [hf]
    · simp [hg]

theorem parse_lines (m : Manifest) : nexusPackageManifestParse (unlines ls) m =
      some (decide ((parsedFields ls m .name).cell 0 ≠ 0 ∧ (parsedFields ls m .id).cell 0 ≠ 0),
        parsedFields ls m) := by
  have hall : ∀ f, f ∈ Field.all := fun f ↦ by cases f <;> decide
  rw [nexusPackageManifestParse, parseFields_lines hls (by decide)]
  simp only [hall, if_true, Option.bind_eq_bind, Option.bind_some]
  rfl

end

/-- The value of a field: that of its line up to a carriage return, cut at the size of the field, and
nothing without a line. -/
def fieldValue (ls : List Str) (f : Field) : Str :=
  (((keyLine ls f.key).map fun l ↦ (lineValue l).takeWhile (· ≠ carriageReturn)).getD []).take
    (f.size - 1)

theorem Field.size_pos (f : Field) : 0 < f.size := by
  cases f <;> decide

theorem storeValue_spec {b : Buffer UInt8} (hb : b.Within f.size) (v : Str) :
    (storeValue f.size b v).Within f.size ∧
      (storeValue f.size b v).Holds 0 ((v.takeWhile (· ≠ carriageReturn)).take (f.size - 1)) := by
  have hpos := f.size_pos
  have hfill := (Buffer.Filled.start hb).fill (Nat.sub_le f.size 1)
    (v.takeWhile (· ≠ carriageReturn))
  rw [List.nil_append, List.length_nil, Nat.sub_zero] at hfill
  refine ⟨(hfill.terminate_within 0).2 ?_, hfill.terminate 0⟩
  have := List.length_take_le (f.size - 1) (v.takeWhile (· ≠ carriageReturn))
  omega

theorem parsedFields_spec (ls : List Str) (hm : (m f).Within f.size) :
    (parsedFields ls m f).Within f.size ∧ (parsedFields ls m f).Holds 0 (fieldValue ls f) := by
  have hstart : ((m f).store 0 0).Within f.size := Buffer.store_within.2 ⟨f.size_pos, hm⟩
  rw [parsedFields, fieldValue, storeLine]
  cases keyLine ls f.key with
  | none =>
    rw [Option.map_none, Option.map_none, Option.getD_none, Option.getD_none, List.take_nil]
    exact ⟨hstart, fun i hi ↦ absurd hi (Nat.not_lt_zero i), by simp [Buffer.store]⟩
  | some l => exact storeValue_spec hstart (lineValue l)

section

variable (hls : ∀ l ∈ ls, IsLine l)
include hls

theorem zero_notMem_fieldValue (f : Field) : 0 ∉ fieldValue ls f := by
  intro hmem
  have hvalue := List.mem_of_mem_take hmem
  cases hl : keyLine ls f.key with
  | none =>
    rw [hl] at hvalue
    exact absurd hvalue List.not_mem_nil
  | some l =>
    rw [hl] at hvalue
    have hin : 0 ∈ lineValue l := (List.takeWhile_sublist _).subset hvalue
    have hsub : 0 ∈ l := by
      have hdrop := (List.dropWhile_sublist isBlank).subset hin
      exact (List.dropWhile_sublist _).subset (List.mem_of_mem_drop hdrop)
    exact (hls l (List.mem_of_find?_eq_some hl)).1 hsub

theorem parsedFields_string (hm : (m f).Within f.size) :
    (parsedFields ls m f).string 0 f.size = fieldValue ls f := by
  refine (parsedFields_spec ls hm).2.string (zero_notMem_fieldValue hls f) ?_
  have hpos := f.size_pos
  have := List.length_take_le (f.size - 1) (((keyLine ls f.key).map fun l ↦
    (lineValue l).takeWhile (· ≠ carriageReturn)).getD [])
  rw [← fieldValue] at this
  omega

theorem parsedFields_nonempty (hm : (m f).Within f.size) :
    (parsedFields ls m f).cell 0 ≠ 0 ↔ fieldValue ls f ≠ [] := by
  have hholds := (parsedFields_spec ls hm).2
  have hzero := zero_notMem_fieldValue hls f
  cases hvalue : fieldValue ls f with
  | nil =>
    rw [hvalue] at hholds
    simpa using hholds.ends
  | cons c v =>
    rw [hvalue] at hholds hzero
    have hfirst : (parsedFields ls m f).cell 0 = c := hholds.begins 0 (Nat.succ_pos _)
    rw [hfirst]
    refine iff_of_true (fun heq ↦ hzero ?_) (List.cons_ne_nil c v)
    rw [heq]
    exact List.mem_cons_self

theorem parse_accepts (hm : ∀ f, (m f).Within f.size) : nexusPackageManifestParse (unlines ls) m =
      some (decide (fieldValue ls .name ≠ [] ∧ fieldValue ls .id ≠ []), parsedFields ls m) := by
  rw [parse_lines hls]
  congr 2
  exact decide_eq_decide.2 (and_congr (parsedFields_nonempty hls (hm .name))
    (parsedFields_nonempty hls (hm .id)))

end

/-- With keys that are all different the order of the lines does not matter; every read is inside the
text and every store inside its field. -/
theorem manifest_line_order (ls : List Str) (hls : ∀ l ∈ ls, IsLine l)
    (hkeys : (ls.filterMap lineKey).Nodup) (m : Manifest) (hm : ∀ f, (m f).used = []) :
    ∃ m', nexusPackageManifestParse (unlines ls) m =
        some (decide (fieldValue ls .name ≠ [] ∧ fieldValue ls .id ≠ []), m') ∧
      (∀ f, (m' f).Within f.size ∧ (m' f).string 0 f.size = fieldValue ls f) ∧
        ∀ ls', ls'.Perm ls →
          nexusPackageManifestParse (unlines ls') m = nexusPackageManifestParse (unlines ls) m := by
  have hfresh : ∀ f, (m f).Within f.size := fun f i hi ↦ by
    rw [hm f] at hi
    exact absurd hi List.not_mem_nil
  refine ⟨parsedFields ls m, parse_accepts hls hfresh, fun f ↦ ?_, fun ls' hperm ↦ ?_⟩
  · exact ⟨(parsedFields_spec ls (hfresh f)).1, parsedFields_string hls (hfresh f)⟩
  have hfields : parsedFields ls' m = parsedFields ls m := by
    funext f
    rw [parsedFields, parsedFields, keyLine_perm hkeys hperm]
  rw [parse_lines hls, parse_lines fun l hl ↦ hls l (hperm.mem_iff.1 hl), hfields]

/-- "ID: a" before and behind "Name=b". -/
theorem manifest_line_order_two :
    nexusPackageManifestParse (unlines [[73, 68, 58, 32, 97], [78, 97, 109, 101, 61, 98]])
        (fun _ ↦ ⟨fun _ ↦ 1, []⟩) =
      nexusPackageManifestParse (unlines [[78, 97, 109, 101, 61, 98], [73, 68, 58, 32, 97]])
        (fun _ ↦ ⟨fun _ ↦ 1, []⟩) := by
  obtain ⟨-, -, -, hperm⟩ := manifest_line_order
    [[78, 97, 109, 101, 61, 98], [73, 68, 58, 32, 97]] (by decide) (by decide)
    (fun _ ↦ ⟨fun _ ↦ 1, []⟩) fun _ ↦ rfl
  exact hperm _ (List.Perm.swap _ _ _)

end Order

end NexusOS.Packages
