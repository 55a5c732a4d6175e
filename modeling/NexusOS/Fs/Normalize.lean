import NexusOS.Fs.PathBuffers
import NexusOS.Fs.VfsCwd
import NexusOS.Lib.Split

namespace NexusOS.Fs

open Lib

variable {F : Type*} {v : Vfs F} {path combined : Str} {comps stack l : List Str}

section Evaluation

def evalComponent (stack : List Str) (comp : Str) : List Str :=
  if comp = [] ∨ comp = [dot] then stack
  else if comp = [dot, dot] then stack.dropLast
  else stack ++ [comp]

/-- What components mean: "." stays, ".." goes up and stays at the root, a name goes down. -/
def evalComponents (comps : List Str) : List Str := comps.foldl evalComponent []

def cutComponents (path : Str) : List Str := (path.splitOn slash).map (copyTruncate · 24)

theorem pushComponent_eq {comp : Str} {next : List Str} (h : pushComponent stack comp = some next)
    (hstack : stack.length ≤ 32) : next = evalComponent stack comp ∧ next.length ≤ 32 := by
  unfold pushComponent at h
  unfold evalComponent
  split_ifs at h ⊢
  · obtain rfl := Option.some.inj h
    exact ⟨rfl, hstack⟩
  · obtain rfl := Option.some.inj h
    refine ⟨rfl, ?_⟩
    rw [List.length_dropLast]
    omega
  obtain rfl := Option.some.inj h
  refine ⟨rfl, ?_⟩
  rw [List.length_append, List.length_singleton]
  omega

theorem foldlM_pushComponent_eq {result : List Str} (hstack : stack.length ≤ 32)
    (h : comps.foldlM pushComponent stack = some result) :
    result = comps.foldl evalComponent stack ∧ result.length ≤ 32 := by
  induction comps generalizing stack with
  | nil =>
    obtain rfl := Option.some.inj h
    exact ⟨rfl, hstack⟩
  | cons comp comps ih =>
    simp only [List.foldlM_cons, Option.bind_eq_bind, Option.bind_eq_some_iff] at h
    obtain ⟨next, hnext, hrest⟩ := h
    obtain ⟨heq, hlen⟩ := pushComponent_eq hnext hstack
    rw [List.foldl_cons, ← heq]
    exact ih hlen hrest

theorem evalComponent_good {comp : Str} (hstack : ∀ n ∈ stack, GoodName n)
    (hcomp : slash ∉ comp ∧ comp.length ≤ 23) : ∀ n ∈ evalComponent stack comp, GoodName n := by
  unfold evalComponent
  split_ifs with hskip hup
  · exact hstack
  · exact fun n hn ↦ hstack n (List.mem_of_mem_dropLast hn)
  intro n hn
  rcases List.mem_append.1 hn with hn | hn
  · exact hstack n hn
  rw [List.mem_singleton.1 hn]
  rw [not_or] at hskip
  exact ⟨hskip.1, hcomp.1, hskip.2, hup, hcomp.2⟩

theorem foldl_evalComponent_good (hstack : ∀ n ∈ stack, GoodName n)
    (hcomps : ∀ c ∈ comps, slash ∉ c ∧ c.length ≤ 23) :
    ∀ n ∈ comps.foldl evalComponent stack, GoodName n := by
  induction comps generalizing stack with
  | nil => exact hstack
  | cons comp comps ih =>
    exact ih (evalComponent_good hstack (hcomps comp List.mem_cons_self))
      fun c hc ↦ hcomps c (List.mem_cons_of_mem _ hc)

theorem cutComponents_spec (path : Str) :
    ∀ c ∈ cutComponents path, slash ∉ c ∧ c.length ≤ 23 := by
  intro c hc
  obtain ⟨p, hp, rfl⟩ := List.mem_map.1 hc
  exact ⟨fun hmem ↦ notMem_of_mem_splitOn path p hp (List.mem_of_mem_take hmem),
    List.length_take_le _ _⟩

theorem room_dropLast (l : List Str) : room l.dropLast ≤ room l := by
  cases hl : l.getLast? with
  | none =>
    rw [List.getLast?_eq_none_iff] at hl
    rw [hl, List.dropLast_nil]
  | some a =>
    obtain ⟨front, rfl⟩ := List.getLast?_eq_some_iff.1 hl
    rw [List.dropLast_concat, room_append]
    omega

theorem room_foldl_evalComponent (comps stack : List Str) :
    room (comps.foldl evalComponent stack) ≤ room stack + room (comps.filter (· ≠ [])) := by
  induction comps generalizing stack with
  | nil => exact Nat.le_add_right _ _
  | cons comp comps ih =>
    have hnext := ih (evalComponent stack comp)
    rw [List.foldl_cons]
    by_cases hnil : comp = []
    · rw [List.filter_cons_of_neg (by simpa using hnil)]
      rwa [evalComponent, if_pos (.inl hnil)] at hnext ⊢
    rw [List.filter_cons_of_pos (by simpa using hnil), room_cons]
    have hone : room (evalComponent stack comp) ≤ room stack + (comp.length + 1) := by
      unfold evalComponent
      split_ifs
      · omega
      · have := room_dropLast stack
        omega
      rw [room_append, room_cons]
      exact Nat.le_refl _
    omega

theorem room_cut_le (l : List Str) :
    room ((l.map (copyTruncate · 24)).filter (· ≠ [])) ≤ room l := by
  induction l with
  | nil => exact Nat.le_refl _
  | cons p l ih =>
    have hcut : (copyTruncate p 24).length ≤ p.length := by
      rw [copyTruncate, List.length_take]
      omega
    rw [List.map_cons, List.filter_cons, room_cons]
    split_ifs
    · rw [room_cons]
      omega
    · omega

theorem room_evalComponents (rest : Str) :
    room (evalComponents (cutComponents (slash :: rest))) ≤ rest.length + 1 ∧
      (rest.getLast? = some slash →
        room (evalComponents (cutComponents (slash :: rest))) ≤ rest.length) := by
  have hcut : cutComponents (slash :: rest) = [] :: cutComponents rest := by
    rw [cutComponents, splitOn_cons_self, List.map_cons]
    rfl
  have hle : room (evalComponents (cutComponents (slash :: rest))) ≤
      room ((cutComponents rest).filter (· ≠ [])) := by
    rw [hcut]
    exact (room_foldl_evalComponent _ []).trans (by simp [room])
  refine ⟨hle.trans ?_, fun hlast ↦ hle.trans ?_⟩
  · rw [← room_splitOn slash rest]
    exact room_cut_le _
  obtain ⟨front, rfl⟩ := List.getLast?_eq_some_iff.1 hlast
  have hsplit : cutComponents (front ++ [slash]) = cutComponents front ++ [[]] := by
    rw [cutComponents, splitOn_append_cons, List.splitOn_nil, List.map_append]
    rfl
  rw [hsplit, List.filter_append, room_append, List.length_append, List.length_singleton,
    ← room_splitOn slash front]
  exact room_cut_le _

end Evaluation

section Writing

theorem length_absPath (hl : l ≠ []) : (absPath l).length = room l := by
  induction l using List.reverseRecOn with
  | nil => contradiction
  | append_singleton l n ih =>
    by_cases hnil : l = []
    · subst hnil
      rw [List.nil_append, absPath_singleton, room_cons, List.length_cons]
      rfl
    · rw [absPath_snoc hnil, List.length_append, ih hnil, room_append, room_cons, List.length_cons]
      rfl

theorem writeComponent_absPath {comp : Str} (hgood : ∀ n ∈ l, GoodName n)
    (hcomp : comp ≠ []) (hroom : room (l ++ [comp]) ≤ 255) :
    writeComponent (absPath l) comp = absPath (l ++ [comp]) := by
  have hpos := List.length_pos_iff.2 hcomp
  rw [room_append, room_cons] at hroom
  by_cases hl : l = []
  · subst hl
    have hlen : (absPath ([] : List Str)).length = 1 := rfl
    rw [writeComponent, if_neg (by simp [hlen]), hlen,
      List.take_of_length_le (by simp [room] at hroom; omega), List.nil_append, absPath_singleton]
    rfl
  have hlen := length_absPath hl
  obtain ⟨hone, -⟩ := absPath_getLast hgood hl
  rw [writeComponent, if_pos ⟨hone, by omega⟩, List.length_append, List.length_singleton,
    List.take_of_length_le (by omega), absPath_snoc hl, List.append_assoc]
  rfl

theorem foldl_writeComponent_absPath (rest : List Str) (hgood : ∀ n ∈ l ++ rest, GoodName n)
    (hroom : room (l ++ rest) ≤ 255) :
    rest.foldl writeComponent (absPath l) = absPath (l ++ rest) := by
  induction rest generalizing l with
  | nil => rw [List.foldl_nil, List.append_nil]
  | cons comp rest ih =>
    have happ : l ++ comp :: rest = (l ++ [comp]) ++ rest := by simp
    rw [happ] at hgood hroom ⊢
    rw [List.foldl_cons, writeComponent_absPath, ih hgood hroom]
    · exact fun n hn ↦ hgood n (by simp [hn])
    · exact (hgood comp (by simp)).nonempty
    rw [room_append] at hroom
    omega

theorem normalize_combined {rest : Str} {result : List Str} (hlen : rest.length ≤ 254 ∨
    rest.length = 255 ∧ rest.getLast? = some slash)
    (h : (cutComponents (slash :: rest)).foldlM pushComponent [] = some result) :
    result = evalComponents (cutComponents (slash :: rest)) ∧ result.length ≤ 32 ∧
      (∀ n ∈ result, GoodName n) ∧ room result ≤ 255 ∧
      result.foldl writeComponent [slash] = absPath result := by
  obtain ⟨heq, hdepth⟩ := foldlM_pushComponent_eq (by simp) h
  have hgood : ∀ n ∈ result, GoodName n := by
    rw [heq]
    exact foldl_evalComponent_good (by simp) (cutComponents_spec _)
  have hroom : room result ≤ 255 := by
    obtain ⟨hfirst, hlast⟩ := room_evalComponents rest
    rw [heq]
    rcases hlen with hlen | ⟨hlen, hslash⟩
    · exact hfirst.trans (by omega)
    · exact (hlast hslash).trans hlen.le
  exact ⟨heq, hdepth, hgood, hroom, foldl_writeComponent_absPath (l := []) result hgood hroom⟩

theorem foldlM_pushComponent_good (hgood : ∀ n ∈ l, GoodName n)
    (hlen : (stack ++ l).length ≤ 32) : l.foldlM pushComponent stack = some (stack ++ l) := by
  induction l generalizing stack with
  | nil => simp
  | cons n l ih =>
    have hn := hgood n List.mem_cons_self
    have hpush : pushComponent stack n = some (stack ++ [n]) := by
      rw [List.length_append, List.length_cons] at hlen
      rw [pushComponent, if_neg (by simp [hn.nonempty, hn.not_dot]), if_neg hn.not_dots,
        if_neg (by omega)]
    have happ : stack ++ n :: l = (stack ++ [n]) ++ l := by simp
    rw [List.foldlM_cons, hpush, happ]
    rw [happ] at hlen
    exact ih (fun m hm ↦ hgood m (List.mem_cons_of_mem _ hm)) hlen

theorem length_absPath_le (hroom : room l ≤ 255) : (absPath l).length ≤ 255 := by
  by_cases hl : l = []
  · subst hl
    decide
  · rwa [length_absPath hl]

theorem foldlM_cutComponents_absPath (hgood : ∀ n ∈ l, GoodName n) (hdepth : l.length ≤ 32) :
    (cutComponents (absPath l)).foldlM pushComponent [] = some l := by
  by_cases hl : l = []
  · subst hl
    decide
  have hcut : cutComponents (absPath l) = [] :: l := by
    have htail : absPath l = slash :: (absPath l).tail := rfl
    have hsame : l.map (copyTruncate · 24) = l := by
      conv_rhs => rw [← List.map_id l]
      exact List.map_congr_left fun n hn ↦ (hgood n hn).copyTruncate
    rw [cutComponents, htail, splitOn_cons_self, splitOn_absPath hgood hl, List.map_cons, hsame]
    rfl
  rw [hcut, List.foldlM_cons]
  exact foldlM_pushComponent_good hgood (by simpa using hdepth)

end Writing

section Arrays

def copyTruncateInto (dst : Buffer UInt8) (src : Str) (maxLen : ℕ) : Buffer UInt8 :=
  let r := Buffer.fill (maxLen - 1) dst 0 src
  r.1.store r.2 0

/-- The arrays of `normalize_absolute`; `components` has the rows of the two-dimensional one. -/
structure PathArrays where
  combined : Buffer UInt8
  comp : Buffer UInt8
  components : Buffer (Buffer UInt8)
  out : Buffer UInt8

structure PathArrays.Fit (a : PathArrays) : Prop where
  combined : a.combined.Within 256
  comp : a.comp.Within 24
  components : a.components.Within 32
  rows : ∀ i, (a.components.cell i).Within 24
  out : a.out.Within 256

/-- The arrays before the first store, with whatever is in them. -/
def PathArrays.fresh (combined comp : ℕ → UInt8) (rows : ℕ → ℕ → UInt8) (out : ℕ → UInt8) :
    PathArrays :=
  ⟨⟨combined, []⟩, ⟨comp, []⟩, ⟨fun i ↦ ⟨rows i, []⟩, []⟩, ⟨out, []⟩⟩

/-- The loop that reads the component `p` begins with, and the number of characters kept. -/
def readComponent (a : PathArrays) (p : Str) : PathArrays × ℕ :=
  let r := Buffer.fill 23 a.comp 0 (p.takeWhile (· ≠ slash))
  ({ a with comp := r.1.store r.2 0 }, r.2)

/-- A component of `n` characters changes the depth, unless the rows are full. -/
def pushInto (a : PathArrays) (n depth : ℕ) : PathArrays × Option ℕ :=
  if n = 0 ∨ n = 1 ∧ a.comp.cell 0 = dot then (a, some depth)
  else if n = 2 ∧ a.comp.cell 0 = dot ∧ a.comp.cell 1 = dot then (a, some (depth - 1))
  else if 32 ≤ depth then (a, none)
  else
    let row := copyTruncateInto (a.components.cell depth) (a.comp.string 0 24) 24
    ({ a with components := a.components.store depth row }, some (depth + 1))

/-- The loop over the string `p`, for at most as many rounds as the counter says, and the depth it
ends with. -/
def tokenLoop : ℕ → Str → PathArrays → ℕ → PathArrays × Option ℕ
  | 0, _, a, depth => (a, some depth)
  | n + 1, p, a, depth =>
    if p = [] then (a, some depth)
    else
      let p := p.dropWhile (· = slash)
      let r := readComponent a p
      match pushInto r.1 r.2 depth with
      | (a, none) => (a, none)
      | (a, some depth) => tokenLoop n (p.dropWhile (· ≠ slash)) a depth

def writeComponentInto (r : Buffer UInt8 × ℕ) (comp : Str) : Buffer UInt8 × ℕ :=
  let r := if 1 < r.2 ∧ r.2 < 255 then (r.1.store r.2 slash, r.2 + 1) else r
  Buffer.fill 255 r.1 r.2 comp

/-- The path is written to `out`. A joined path of 256 characters has its terminator behind the
array `combined`. -/
def normalizeInto (v : Vfs F) (path : Str) (a : PathArrays) : PathArrays × Bool :=
  let combined := if path.head? = some slash then copyTruncateInto a.combined path 256
    else pathJoinInto a.combined v.cwdPath path
  let p := combined.string 0 257
  match tokenLoop p.length p { a with combined := combined } 0 with
  | (a, none) => (a, false)
  | (a, some depth) =>
    let start := (a.out.store 0 slash).store 1 0
    let r := (List.range depth).foldl
      (fun r i ↦ writeComponentInto r ((a.components.cell i).string 0 24)) (start, 1)
    ({ a with out := r.1.store r.2 0 }, true)

theorem copyTruncateInto_spec {b : Buffer UInt8} {m : ℕ} (h : b.Within m) (hm : 0 < m) (src : Str) :
    (copyTruncateInto b src m).Holds 0 (copyTruncate src m) ∧ (copyTruncateInto b src m).Within m := by
  have hfill : Buffer.Filled m (Buffer.fill (m - 1) b 0 src) (copyTruncate src m) :=
    (Buffer.Filled.start h).fill (by omega) src
  refine ⟨hfill.terminate 0, (hfill.terminate_within 0).2 ?_⟩
  rw [copyTruncate, List.length_take]
  omega

structure PathArrays.Stacks (a : PathArrays) (stack : List Str) : Prop where
  rows : ∀ i (h : i < stack.length), (a.components.cell i).string 0 24 = stack[i]
  depth : stack.length ≤ 32

theorem Stacks.nil (a : PathArrays) : a.Stacks [] :=
  ⟨fun i hi ↦ absurd hi (Nat.not_lt_zero i), by simp⟩

theorem foldlM_dropWhile_slash (p : Str) (stack : List Str) :
    (cutComponents (p.dropWhile (· = slash))).foldlM pushComponent stack =
      (cutComponents p).foldlM pushComponent stack := by
  induction p with
  | nil => rfl
  | cons c p ih =>
    by_cases hc : c = slash
    · have hskip : pushComponent stack [] = some stack := by simp [pushComponent]
      have hcut : cutComponents (c :: p) = [] :: cutComponents p := by
        rw [hc, cutComponents, splitOn_cons_self, List.map_cons]
        rfl
      rw [List.dropWhile_cons_of_pos (by simpa using hc), ih, hcut, List.foldlM_cons, hskip]
      rfl
    · rw [List.dropWhile_cons_of_neg (by simpa using hc)]

theorem foldlM_takeWhile_slash (p : Str) (stack : List Str) :
    (cutComponents p).foldlM pushComponent stack =
      (pushComponent stack (copyTruncate (p.takeWhile (· ≠ slash)) 24)).bind fun next ↦
        (cutComponents (p.dropWhile (· ≠ slash))).foldlM pushComponent next := by
  have hskip : ∀ next : List Str, pushComponent next [] = some next := by simp [pushComponent]
  have hfree : slash ∉ p.takeWhile (· ≠ slash) := by
    intro hmem
    simpa using List.mem_takeWhile_imp hmem
  obtain hnil | ⟨rest, hrest⟩ : p.dropWhile (· ≠ slash) = [] ∨
      ∃ rest, p.dropWhile (· ≠ slash) = slash :: rest := by
    cases hd : p.dropWhile (· ≠ slash) with
    | nil => exact .inl rfl
    | cons c rest =>
      have hhead := List.head_dropWhile_not (fun c ↦ decide (c ≠ slash)) (l := p)
        (by rw [hd]; exact List.cons_ne_nil _ _)
      simp only [hd, List.head_cons, decide_eq_false_iff_not, not_not] at hhead
      exact .inr ⟨rest, by rw [hhead]⟩
  · have hp : p.takeWhile (· ≠ slash) = p := by
      have happ := List.takeWhile_append_dropWhile (p := fun c ↦ decide (c ≠ slash)) (l := p)
      rwa [hnil, List.append_nil] at happ
    have hempty : cutComponents [] = [[]] := rfl
    rw [hnil, hempty]
    rw [hp] at hfree ⊢
    rw [cutComponents, splitOn_of_notMem hfree]
    simp only [List.map_cons, List.map_nil, List.foldlM_cons, List.foldlM_nil, hskip]
    rfl
  · have happ := List.takeWhile_append_dropWhile (p := fun c ↦ decide (c ≠ slash)) (l := p)
    rw [hrest] at happ ⊢
    have hcut : cutComponents p =
        copyTruncate (p.takeWhile (· ≠ slash)) 24 :: cutComponents rest := by
      conv_lhs => rw [← happ]
      rw [cutComponents, splitOn_append_cons, splitOn_of_notMem hfree]
      rfl
    have hnext : cutComponents (slash :: rest) = [] :: cutComponents rest := by
      rw [cutComponents, splitOn_cons_self, List.map_cons]
      rfl
    rw [hcut, hnext, List.foldlM_cons]
    simp only [List.foldlM_cons, hskip]
    rfl

theorem length_rest_lt {p : Str} (hp : p ≠ []) :
    ((p.dropWhile (· = slash)).dropWhile (· ≠ slash)).length < p.length := by
  cases p with
  | nil => contradiction
  | cons c p =>
    have hle : ∀ (f : UInt8 → Bool) (s : Str), (s.dropWhile f).length ≤ s.length := fun f s ↦
      (List.dropWhile_suffix f).length_le
    rw [List.length_cons]
    by_cases hc : c = slash
    · rw [List.dropWhile_cons_of_pos (by simpa using hc)]
      exact Nat.lt_succ_of_le ((hle _ _).trans (hle _ _))
    rw [List.dropWhile_cons_of_neg (by simpa using hc), List.dropWhile_cons_of_pos (by simpa using hc)]
    exact Nat.lt_succ_of_le (hle _ _)

theorem component_tests {b : Buffer UInt8} {s : Str} (h : b.Begins s) :
    (s.length = 0 ∨ s.length = 1 ∧ b.cell 0 = dot ↔ s = [] ∨ s = [dot]) ∧
      (s.length = 2 ∧ b.cell 0 = dot ∧ b.cell 1 = dot ↔ s = [dot, dot]) := by
  match s with
  | [] => simp
  | [x] =>
    have h0 : b.cell 0 = x := h 0 (by simp)
    simp [h0]
  | [x, y] =>
    have h0 : b.cell 0 = x := h 0 (by simp)
    have h1 : b.cell 1 = y := h 1 (by simp)
    simp [h0, h1]
  | x :: y :: z :: s => simp

theorem readComponent_spec {a : PathArrays} (h : a.Fit) (hs : a.Stacks stack) (p : Str) :
    let r := readComponent a p
    let comp := copyTruncate (p.takeWhile (· ≠ slash)) 24
    r.1.Fit ∧ r.1.Stacks stack ∧ r.2 = comp.length ∧ r.1.comp.Holds 0 comp := by
  intro r comp
  have hfill : Buffer.Filled 24 (Buffer.fill 23 a.comp 0 (p.takeWhile (· ≠ slash))) comp :=
    (Buffer.Filled.start h.comp).fill (by omega) _
  have hlen : comp.length < 24 := Nat.lt_succ_of_le (List.length_take_le _ _)
  exact ⟨⟨h.combined, (hfill.terminate_within 0).2 hlen, h.components, h.rows, h.out⟩,
    ⟨hs.rows, hs.depth⟩, hfill.pos, hfill.terminate 0⟩

theorem PathArrays.Fit.push {a : PathArrays} (h : a.Fit) (hdepth : stack.length < 32)
    (hs : a.Stacks stack) {name : Str} (hname : name.length ≤ 23) (h0 : 0 ∉ name) :
    let row := copyTruncateInto (a.components.cell stack.length) name 24
    let a' := { a with components := a.components.store stack.length row }
    a'.Fit ∧ a'.Stacks (stack ++ [name]) := by
  intro row a'
  obtain ⟨hholds, hwithin⟩ := copyTruncateInto_spec (h.rows stack.length) (by omega) name
  have hcut : copyTruncate name 24 = name := List.take_of_length_le hname
  rw [hcut] at hholds
  refine ⟨⟨h.combined, h.comp, Buffer.store_within.2 ⟨hdepth, h.components⟩, fun i ↦ ?_, h.out⟩,
    fun i hi ↦ ?_, by simpa using hdepth⟩
  · by_cases hi : i = stack.length
    · subst hi
      simpa [a', Buffer.store] using hwithin
    · simpa [a', Buffer.store, hi] using h.rows i
  · rw [List.length_append, List.length_singleton] at hi
    by_cases heq : i = stack.length
    · subst heq
      have hrow := hholds.string h0 (by omega : name.length < 24)
      simpa [a', Buffer.store] using hrow
    have hlt : i < stack.length := by omega
    rw [List.getElem_append_left hlt, ← hs.rows i hlt]
    simp [a', Buffer.store, heq]

theorem Stacks.dropLast {a : PathArrays} (h : a.Stacks stack) : a.Stacks stack.dropLast := by
  refine ⟨fun i hi ↦ ?_, ?_⟩
  · rw [List.getElem_dropLast, h.rows]
  have := h.depth
  rw [List.length_dropLast]
  omega

theorem pushInto_spec {a : PathArrays} {comp : Str} (h : a.Fit) (hs : a.Stacks stack)
    (hholds : a.comp.Holds 0 comp) (hlen : comp.length ≤ 23) (h0 : 0 ∉ comp) :
    let r := pushInto a comp.length stack.length
    r.1.Fit ∧ r.2 = (pushComponent stack comp).map List.length ∧
      ∀ st ∈ pushComponent stack comp, r.1.Stacks st := by
  obtain ⟨hskip, hup⟩ := component_tests hholds.begins
  have hsame : ∀ st : List Str, a.Stacks st → ∀ st' ∈ some st, a.Stacks st' := by
    intro st hst st' hst'
    rwa [← Option.some.inj hst']
  unfold pushInto pushComponent
  by_cases hcase : comp = [] ∨ comp = [dot]
  · rw [if_pos (hskip.2 hcase), if_pos hcase]
    exact ⟨h, rfl, hsame stack hs⟩
  rw [if_neg (mt hskip.1 hcase), if_neg hcase]
  by_cases hdots : comp = [dot, dot]
  · rw [if_pos (hup.2 hdots), if_pos hdots]
    exact ⟨h, by simp, hsame _ (Stacks.dropLast hs)⟩
  rw [if_neg (mt hup.1 hdots), if_neg hdots]
  by_cases hfull : 32 ≤ stack.length
  · rw [if_pos hfull, if_pos hfull]
    exact ⟨h, rfl, fun st hst ↦ by cases hst⟩
  rw [if_neg hfull, if_neg hfull, hholds.string h0 (by omega)]
  obtain ⟨hfit, hstacks⟩ := h.push (by omega) hs hlen h0
  refine ⟨hfit, by simp, fun st hst ↦ ?_⟩
  rwa [← Option.some.inj hst]

theorem tokenLoop_spec {n : ℕ} {p : Str} {a : PathArrays} (hn : p.length ≤ n) (h0 : 0 ∉ p)
    (h : a.Fit) (hs : a.Stacks stack) :
    let r := tokenLoop n p a stack.length
    r.1.Fit ∧ r.2 = ((cutComponents p).foldlM pushComponent stack).map List.length ∧
      ∀ st ∈ (cutComponents p).foldlM pushComponent stack, r.1.Stacks st := by
  have hend : ∀ (a : PathArrays) (stack : List Str), a.Fit → a.Stacks stack → a.Fit ∧
      some stack.length = ((cutComponents []).foldlM pushComponent stack).map List.length ∧
      ∀ st ∈ (cutComponents []).foldlM pushComponent stack, a.Stacks st := by
    intro a stack h hs
    have hnone : (cutComponents []).foldlM pushComponent stack = some stack := by
      simp [cutComponents, List.splitOn_nil, copyTruncate, pushComponent]
    rw [hnone]
    refine ⟨h, rfl, fun st hst ↦ ?_⟩
    rwa [← Option.some.inj hst]
  induction n generalizing p a stack with
  | zero =>
    obtain rfl := List.length_eq_zero_iff.1 (Nat.le_zero.1 hn)
    exact hend a stack h hs
  | succ n ih =>
    rw [tokenLoop]
    by_cases hp : p = []
    · subst hp
      rw [if_pos rfl]
      exact hend a stack h hs
    have hlt := length_rest_lt hp
    rw [if_neg hp, ← foldlM_dropWhile_slash, foldlM_takeWhile_slash]
    have hq0 : 0 ∉ p.dropWhile (· = slash) := fun hmem ↦ h0 ((List.dropWhile_suffix _).subset hmem)
    dsimp only
    generalize p.dropWhile (· = slash) = q at hlt hq0 ⊢
    obtain ⟨hfit, hstack, hlen, hholds⟩ := readComponent_spec h hs q
    obtain ⟨hfit', hdepth, hstack'⟩ := pushInto_spec hfit hstack hholds (List.length_take_le _ _)
      fun hmem ↦ hq0 ((List.takeWhile_prefix _).subset (List.mem_of_mem_take hmem))
    rw [hlen]
    cases hpush : pushComponent stack (copyTruncate (q.takeWhile (· ≠ slash)) 24) with
    | none =>
      rw [hpush] at hdepth
      generalize pushInto _ _ _ = r at hfit' hdepth
      obtain ⟨a', depth⟩ := r
      obtain rfl : depth = none := hdepth
      exact ⟨hfit', rfl, fun st hst ↦ by cases hst⟩
    | some next =>
      have hnext := hstack' next hpush
      rw [hpush] at hdepth
      generalize pushInto _ _ _ = r at hfit' hdepth hnext
      obtain ⟨a', depth⟩ := r
      obtain rfl : depth = some next.length := hdepth
      exact ih (by omega) (fun hmem ↦ hq0 ((List.dropWhile_suffix _).subset hmem)) hfit' hnext

end Arrays

section Canonical

variable {a : PathArrays}

theorem writeComponent_spec (out comp : Str) (hout : out.length ≤ 255) :
    out <+: writeComponent out comp ∧ (writeComponent out comp).length ≤ 255 := by
  simp only [writeComponent]
  split
  · rename_i hlen
    refine ⟨⟨[slash] ++ comp.take (255 - (out ++ [slash]).length), by simp⟩, ?_⟩
    simp only [List.length_append, List.length_singleton, List.length_take]
    omega
  refine ⟨List.prefix_append _ _, ?_⟩
  simp only [List.length_append, List.length_take]
  omega

theorem foldl_writeComponent_spec (comps : List Str) (out : Str) (hout : out.length ≤ 255) :
    out <+: comps.foldl writeComponent out ∧ (comps.foldl writeComponent out).length ≤ 255 := by
  induction comps generalizing out with
  | nil => exact ⟨List.prefix_rfl, hout⟩
  | cons comp comps ih =>
    obtain ⟨hpre, hlen⟩ := writeComponent_spec out comp hout
    obtain ⟨hpre', hlen'⟩ := ih _ hlen
    exact ⟨hpre.trans hpre', hlen'⟩

theorem writeComponentInto_filled {r : Buffer UInt8 × ℕ} {out : Str} (h : Buffer.Filled 256 r out)
    (hout : out.length ≤ 255) (comp : Str) :
    Buffer.Filled 256 (writeComponentInto r comp) (writeComponent out comp) := by
  have hsep : Buffer.Filled 256
      (if 1 < r.2 ∧ r.2 < 255 then (r.1.store r.2 slash, r.2 + 1) else r)
      (if 1 < out.length ∧ out.length < 255 then out ++ [slash] else out) := by
    rw [h.pos]
    split_ifs
    · rw [← h.pos]
      exact h.store (by omega) slash
    · exact h
  exact hsep.fill (by omega) comp

theorem foldl_writeComponentInto_filled (comps : List Str) {r : Buffer UInt8 × ℕ} {out : Str}
    (h : Buffer.Filled 256 r out) (hout : out.length ≤ 255) :
    Buffer.Filled 256 (comps.foldl writeComponentInto r) (comps.foldl writeComponent out) := by
  induction comps generalizing r out with
  | nil => exact h
  | cons comp comps ih =>
    exact ih (writeComponentInto_filled h hout comp) (writeComponent_spec out comp hout).2

theorem written_out (h : a.Fit) (hs : a.Stacks stack) :
    let start := (a.out.store 0 slash).store 1 0
    let r := (List.range stack.length).foldl
      (fun r i ↦ writeComponentInto r ((a.components.cell i).string 0 24)) (start, 1)
    (r.1.store r.2 0).Within 256 ∧ (r.1.store r.2 0).Holds 0 (stack.foldl writeComponent [slash]) := by
  intro start r
  have hrows : (List.range stack.length).map (fun i ↦ (a.components.cell i).string 0 24) = stack := by
    apply List.ext_getElem
    · simp
    intro i hi hi'
    rw [List.getElem_map, List.getElem_range]
    exact hs.rows i hi'
  have hr : r = stack.foldl writeComponentInto (start, 1) := by
    conv_rhs => rw [← hrows, List.foldl_map]
  have hstart : Buffer.Filled 256 (start, 1) [slash] := by
    refine ⟨rfl, fun i hi ↦ ?_, ?_⟩
    · obtain rfl : i = 0 := by simpa using hi
      simp [start, Buffer.store]
    · exact Buffer.store_within.2 ⟨by omega, Buffer.store_within.2 ⟨by omega, h.out⟩⟩
  have hfilled := foldl_writeComponentInto_filled stack hstart (by simp)
  rw [← hr] at hfilled
  refine ⟨(hfilled.terminate_within 0).2 ?_, hfilled.terminate 0⟩
  exact Nat.lt_succ_of_le (foldl_writeComponent_spec stack [slash] (by simp)).2

theorem normalizeAbsolute_cut (habs : path.head? = some slash) : normalizeAbsolute v path =
    ((cutComponents (copyTruncate path 256)).foldlM pushComponent []).map
      (·.foldl writeComponent [slash]) := by
  unfold normalizeAbsolute
  rw [if_pos habs]
  unfold cutComponents
  dsimp only
  cases List.foldlM pushComponent [] _ <;> rfl

theorem normalizeInto_spec (v : Vfs F) (habs : path.head? = some slash) (h0 : 0 ∉ path)
    (h : a.Fit) :
    let r := normalizeInto v path a
    r.1.Fit ∧ r.2 = (normalizeAbsolute v path).isSome ∧
      ∀ abs ∈ normalizeAbsolute v path, r.1.out.Holds 0 abs := by
  obtain ⟨hholds, hwithin⟩ := copyTruncateInto_spec h.combined (by omega) path
  have hcut0 : 0 ∉ copyTruncate path 256 := fun hmem ↦ h0 (List.mem_of_mem_take hmem)
  have hlen : (copyTruncate path 256).length ≤ 255 := List.length_take_le _ _
  have hp : (copyTruncateInto a.combined path 256).string 0 257 = copyTruncate path 256 :=
    hholds.string hcut0 (by omega)
  have hfit : { a with combined := copyTruncateInto a.combined path 256 }.Fit :=
    ⟨hwithin, h.comp, h.components, h.rows, h.out⟩
  rw [normalizeAbsolute_cut habs]
  simp only [normalizeInto, if_pos habs, hp]
  obtain ⟨hfit', hdepth, hstacks⟩ := tokenLoop_spec (Nat.le_refl _) hcut0 hfit (Stacks.nil _)
  rw [List.length_nil] at hfit' hdepth hstacks
  generalize tokenLoop _ _ _ 0 = r at hfit' hdepth hstacks
  obtain ⟨a', depth⟩ := r
  cases hfold : (cutComponents (copyTruncate path 256)).foldlM pushComponent [] with
  | none =>
    rw [hfold] at hdepth
    obtain rfl : depth = none := hdepth
    exact ⟨hfit', rfl, fun abs habs ↦ by cases habs⟩
  | some st =>
    have hst := hstacks st hfold
    rw [hfold] at hdepth
    obtain rfl : depth = some st.length := hdepth
    obtain ⟨hout, hresult⟩ := written_out hfit' hst
    refine ⟨⟨hfit'.combined, hfit'.comp, hfit'.components, hfit'.rows, hout⟩, rfl, ?_⟩
    intro abs habs
    rwa [← Option.some.inj habs]

theorem fresh_fit (combined comp : ℕ → UInt8) (rows : ℕ → ℕ → UInt8) (out : ℕ → UInt8) :
    (PathArrays.fresh combined comp rows out).Fit := by
  constructor <;> simp [PathArrays.fresh, Buffer.Within]

theorem absPath_ends (hgood : ∀ n ∈ l, GoodName n) :
    absPath l = [slash] ∨ (absPath l).getLast? ≠ some slash := by
  by_cases hl : l = []
  · exact .inl (by rw [hl]; rfl)
  · exact .inr (absPath_getLast hgood hl).2

theorem absolute_eq_cons (habs : path.head? = some slash) : ∃ rest, path = slash :: rest := by
  cases path with
  | nil => cases habs
  | cons c rest => exact ⟨rest, by rw [Option.some.inj habs]⟩

theorem normalizeAbsolute_absolute {abs : Str} (habs : path.head? = some slash)
    (h : normalizeAbsolute v path = some abs) :
    ∃ l, abs = absPath l ∧ (∀ n ∈ l, GoodName n) ∧ l.length ≤ 32 ∧ room l ≤ 255 ∧
      l = evalComponents (cutComponents (path.take 255)) := by
  obtain ⟨rest, rfl⟩ := absolute_eq_cons habs
  rw [normalizeAbsolute_cut habs, Option.map_eq_some_iff] at h
  obtain ⟨st, hst, rfl⟩ := h
  have hcut : copyTruncate (slash :: rest) 256 = slash :: rest.take 254 := rfl
  rw [hcut] at hst
  obtain ⟨heq, hdepth, hgood, hroom, hout⟩ :=
    normalize_combined (.inl (List.length_take_le _ _)) hst
  exact ⟨st, hout, hgood, hdepth, hroom, heq⟩

theorem normalizeAbsolute_absPath (v : Vfs F) (hgood : ∀ n ∈ l, GoodName n) (hdepth : l.length ≤ 32)
    (hroom : room l ≤ 255) : normalizeAbsolute v (absPath l) = some (absPath l) := by
  have hcut : copyTruncate (absPath l) 256 = absPath l :=
    List.take_of_length_le (length_absPath_le hroom)
  rw [normalizeAbsolute_cut rfl, hcut, foldlM_cutComponents_absPath hgood hdepth, Option.map_some]
  exact congrArg some (foldl_writeComponent_absPath (l := []) l hgood hroom)

theorem mem_foldl_evalComponent {n : Str} (h : n ∈ comps.foldl evalComponent stack) :
    n ∈ stack ∨ n ∈ comps := by
  induction comps generalizing stack with
  | nil => exact .inl h
  | cons comp comps ih =>
    rcases ih h with hn | hn
    · unfold evalComponent at hn
      split_ifs at hn
      · exact .inl hn
      · exact .inl (List.mem_of_mem_dropLast hn)
      rcases List.mem_append.1 hn with hn | hn
      · exact .inl hn
      · exact .inr (by rw [List.mem_singleton.1 hn]; exact List.mem_cons_self)
    · exact .inr (List.mem_cons_of_mem _ hn)

theorem mem_absPath {c : UInt8} (h : c ∈ absPath l) : c = slash ∨ ∃ n ∈ l, c ∈ n := by
  induction l using List.reverseRecOn with
  | nil => exact .inl (by simpa [absPath] using h)
  | append_singleton l n ih =>
    have hlast : c = slash ∨ c ∈ n → c = slash ∨ ∃ m ∈ l ++ [n], c ∈ m := by
      rintro (hc | hc)
      · exact .inl hc
      · exact .inr ⟨n, by simp, hc⟩
    by_cases hl : l = []
    · subst hl
      rw [List.nil_append, absPath_singleton, List.mem_cons] at h
      exact hlast h
    rw [absPath_snoc hl, List.mem_append, List.mem_cons] at h
    rcases h with h | h
    · rcases ih h with hc | ⟨m, hm, hc⟩
      · exact .inl hc
      · exact .inr ⟨m, List.mem_append_left _ hm, hc⟩
    · exact hlast h

theorem zero_notMem_absPath (h0 : 0 ∉ path) :
    0 ∉ absPath (evalComponents (cutComponents path)) := by
  intro hmem
  rcases mem_absPath hmem with hzero | ⟨n, hn, hzero⟩
  · exact absurd hzero (by decide)
  rcases mem_foldl_evalComponent hn with hn | hn
  · cases hn
  obtain ⟨p, hp, rfl⟩ := List.mem_map.1 hn
  exact h0 (mem_of_mem_splitOn hp (List.mem_of_mem_take hzero))

/-- A normalised path is canonical: it has only names between its slashes, fits the limit and is
normalised to itself; it is what the components of the path, cut to 23 characters, evaluate to; and
no array is left on the way. -/
theorem normalize_canonical (v : Vfs F) (path : Str) (habs : path.head? = some slash)
    (h0 : 0 ∉ path) (combined comp : ℕ → UInt8) (rows : ℕ → ℕ → UInt8) (out : ℕ → UInt8) :
    let r := normalizeInto v path (.fresh combined comp rows out)
    r.1.Fit ∧ (r.2 = true → ∃ l : List Str, r.1.out.Holds 0 (absPath l) ∧
      (∀ n ∈ l, n ≠ [] ∧ n ≠ [dot] ∧ n ≠ [dot, dot] ∧ slash ∉ n) ∧
      (absPath l).head? = some slash ∧
      (absPath l = [slash] ∨ (absPath l).getLast? ≠ some slash) ∧ (absPath l).length < 256 ∧
      (path.length < 256 → l = evalComponents (cutComponents path)) ∧
      let again := normalizeInto v (absPath l) (.fresh combined comp rows out)
      again.2 = true ∧ again.1.out.Holds 0 (absPath l)) := by
  intro r
  have hfresh := fresh_fit combined comp rows out
  obtain ⟨hfit, hsome, hout⟩ := normalizeInto_spec v habs h0 hfresh
  refine ⟨hfit, fun hdone ↦ ?_⟩
  obtain ⟨abs, hresult⟩ := Option.isSome_iff_exists.1 (hsome.symm.trans hdone)
  obtain ⟨l, rfl, hgood, hdepth, hroom, heval⟩ := normalizeAbsolute_absolute habs hresult
  have hzero : 0 ∉ absPath l := by
    rw [heval]
    exact zero_notMem_absPath fun hmem ↦ h0 (List.mem_of_mem_take hmem)
  have hsame := normalizeAbsolute_absPath v hgood hdepth hroom
  have hslash : (absPath l).head? = some slash := rfl
  obtain ⟨-, hsome', hout'⟩ := normalizeInto_spec v hslash hzero hfresh
  refine ⟨l, hout _ hresult, fun n hn ↦ ?_, rfl, absPath_ends hgood,
    Nat.lt_succ_of_le (length_absPath_le hroom), fun hlen ↦ ?_, ?_, hout' _ hsame⟩
  · have hname := hgood n hn
    exact ⟨hname.nonempty, hname.not_dot, hname.not_dots, hname.no_slash⟩
  · rw [heval, List.take_of_length_le (by omega)]
  · rw [hsome', hsame]
    rfl

/-- The path "/a/./../b//", which is normalised to "/b". -/
theorem normalize_canonical_sample :
    let path : Str := [47, 97, 47, 46, 47, 46, 46, 47, 98, 47, 47]
    let r := normalizeInto bootVfs path (.fresh (fun _ ↦ 1) (fun _ ↦ 1) (fun _ _ ↦ 1) fun _ ↦ 1)
    r.2 = true ∧ r.1.out.string 0 256 = [47, 98] ∧ r.1.Fit := by
  intro path r
  have h := normalize_canonical bootVfs path (by decide) (by decide) (fun _ ↦ 1) (fun _ ↦ 1)
    (fun _ _ ↦ 1) fun _ ↦ 1
  exact ⟨by decide +kernel, by decide +kernel, h.1⟩

end Canonical

end NexusOS.Fs
