import Mathlib.Data.Finmap
import Mathlib.Tactic
import NexusOS.Lib.Buffer

namespace NexusOS.Core.Env

open Lib

section Source

abbrev Str := List UInt8

structure Entry where
  key : ℕ → UInt8
  value : ℕ → UInt8

/-- The fields `env` and `env_count` of a process that is no zombie. -/
structure Table where
  env : ℕ → Entry
  envCount : ℕ

def text (a : ℕ → UInt8) (size : ℕ) : Str := (Buffer.mk a []).string 0 size

def localCopy (dst : ℕ → UInt8) (src : Str) (cap : ℕ) : ℕ → UInt8 :=
  if cap = 0 then dst
  else
    let r := (Buffer.mk dst []).fill (cap - 1) 0 src
    (r.1.store r.2 0).cell

/-- The comparison of an array, from index `n` on, with a string. -/
def localEq (a : ℕ → UInt8) : ℕ → Str → Bool
  | n, [] => a n = 0
  | n, c :: b => a n = c ∧ localEq a (n + 1) b

/-- The loop over the entries with which all three functions begin. -/
def findKey (t : Table) (key : Str) : Option ℕ :=
  (List.range t.envCount).find? fun i ↦ localEq (t.env i).key 0 key

def processSetEnv (t : Table) (key : Str) (value : Option Str) : Bool × Table :=
  if key = [] then (false, t)
  else
    match findKey t key with
    | some i => (true, { t with
        env := Function.update t.env i
          { t.env i with value := localCopy (t.env i).value (value.getD []) 64 } })
    | none =>
      if 8 ≤ t.envCount then (false, t)
      else
        let e := t.env t.envCount
        (true, ⟨Function.update t.env t.envCount
          ⟨localCopy e.key key 24, localCopy e.value (value.getD []) 64⟩, t.envCount + 1⟩)

/-- `for (j = i + 1; j < count; j++) env[j - 1] = env[j]`. -/
def shift (env : ℕ → Entry) (i count : ℕ) : ℕ → Entry :=
  (List.range' (i + 1) (count - (i + 1))).foldl
    (fun env j ↦ Function.update env (j - 1) (env j)) env

def processUnsetEnv (t : Table) (key : Str) : Bool × Table :=
  match findKey t key with
  | some i => (true, ⟨shift t.env i t.envCount, t.envCount - 1⟩)
  | none => (false, t)

def processGetEnv (t : Table) (key : Str) (out : ℕ → UInt8) (size : ℕ) :
    Bool × (ℕ → UInt8) :=
  if size = 0 then (false, out)
  else
    match findKey t key with
    | some i => (true, localCopy out (text (t.env i).value 64) size)
    | none => (false, Function.update out 0 0)

end Source

section Strings

/-- An array that holds a string with its terminator. -/
abbrev Holds (a : ℕ → UInt8) (s : Str) : Prop := (Buffer.mk a []).Holds 0 s

variable {a : ℕ → UInt8} {s b : Str} {n cap : ℕ}

theorem localCopy_holds (dst : ℕ → UInt8) (hcap : 0 < cap) (s : Str) :
    Holds (localCopy dst s cap) (s.take (cap - 1)) := by
  have hstart : Buffer.Filled cap (Buffer.mk dst [], 0) [] :=
    .start fun i hi ↦ absurd hi List.not_mem_nil
  have hfilled := (hstart.fill (Nat.sub_le cap 1) s).terminate 0
  rw [List.nil_append, List.length_nil, Nat.sub_zero] at hfilled
  rw [localCopy, if_neg hcap.ne']
  exact ⟨hfilled.begins, hfilled.ends⟩

theorem localCopy_all (dst : ℕ → UInt8) (hs : s.length < cap) : Holds (localCopy dst s cap) s := by
  have h := localCopy_holds dst (Nat.zero_lt_of_lt hs) s
  rwa [List.take_of_length_le (by omega)] at h

theorem localEq_iff (h : ∀ i (hi : i < s.length), a (n + i) = s[i])
    (hend : a (n + s.length) = 0) (hs : 0 ∉ s) (hb : 0 ∉ b) :
    localEq a n b = true ↔ s = b := by
  induction b generalizing n s with
  | nil =>
    rw [localEq, decide_eq_true_iff]
    cases s with
    | nil => simpa using hend
    | cons c s =>
      have hc : a n = c := h 0 (Nat.zero_lt_succ _)
      simp only [List.mem_cons, not_or] at hs
      simp [hc, Ne.symm hs.1]
  | cons d b ih =>
    simp only [List.mem_cons, not_or] at hb
    rw [localEq, decide_eq_true_iff]
    cases s with
    | nil =>
      have hzero : a n = 0 := hend
      simp [hzero, hb.1]
    | cons c s =>
      simp only [List.mem_cons, not_or] at hs
      have hc : a n = c := h 0 (Nat.zero_lt_succ _)
      rw [hc, List.cons_eq_cons, ih (s := s) (n := n + 1) ?_ ?_ hs.2 hb.2]
      · intro i hi
        rw [add_assoc, add_comm 1 i]
        exact h (i + 1) (Nat.succ_lt_succ hi)
      · rw [add_assoc, add_comm 1]
        exact hend

theorem Holds.localEq_iff (h : Holds a s) (hs : 0 ∉ s) (hb : 0 ∉ b) :
    localEq a 0 b = true ↔ s = b :=
  Env.localEq_iff (fun i hi ↦ (Nat.zero_add i).symm ▸ h.begins i hi)
    ((Nat.zero_add s.length).symm ▸ h.ends) hs hb

end Strings

section Map

@[ext]
structure Key where
  chars : Str
  clean : 0 ∉ chars
  nonempty : chars ≠ []
  fits : chars.length < 24
  deriving DecidableEq

@[ext]
structure Value where
  chars : Str
  clean : 0 ∉ chars
  fits : chars.length < 64

abbrev EnvMap := Finmap fun _ : Key ↦ Value

def Value.empty : Value := ⟨[], List.not_mem_nil, by decide⟩

inductive Op
  | set (key : Key) (value : Option Value)
  | unset (key : Key)
  | get (key : Key) (out : ℕ → UInt8) (size : ℕ)

inductive Answer
  | flag (b : Bool)
  | read (found : Bool) (s : Str)

def tableStep (s : Table × List Answer) : Op → Table × List Answer
  | .set key value =>
    let r := processSetEnv s.1 key.chars (value.map Value.chars)
    (r.2, s.2 ++ [.flag r.1])
  | .unset key =>
    let r := processUnsetEnv s.1 key.chars
    (r.2, s.2 ++ [.flag r.1])
  | .get key out size =>
    let r := processGetEnv s.1 key.chars out size
    (s.1, s.2 ++ [.read r.1 (text r.2 size)])

def mapStep (s : EnvMap × List Answer) : Op → EnvMap × List Answer
  | .set key value =>
    if key ∈ s.1 ∨ s.1.keys.card < 8 then
      (s.1.insert key (value.getD .empty), s.2 ++ [.flag true])
    else (s.1, s.2 ++ [.flag false])
  | .unset key => (s.1.erase key, s.2 ++ [.flag (key ∈ s.1)])
  | .get key _ size =>
    match s.1.lookup key with
    | some value => (s.1, s.2 ++ [.read (size ≠ 0) (value.chars.take (size - 1))])
    | none => (s.1, s.2 ++ [.read false []])

/-- The table holds the entries of `rows`, which are those of the map `m`. -/
structure Table.Shows (t : Table) (rows : List (Key × Value)) (m : EnvMap) : Prop where
  count : t.envCount = rows.length
  key : ∀ i (h : i < rows.length), Holds (t.env i).key rows[i].1.chars
  value : ∀ i (h : i < rows.length), Holds (t.env i).value rows[i].2.chars
  nodup : (rows.map Prod.fst).Nodup
  fits : rows.length ≤ 8
  lookup : ∀ k v, m.lookup k = some v ↔ (k, v) ∈ rows

variable {t : Table} {rows : List (Key × Value)} {m : EnvMap} {k : Key} {i j : ℕ}

section

variable (h : t.Shows rows m)
include h

theorem Table.Shows.index (hi : i < rows.length) (hj : j < rows.length)
    (hkey : rows[i].1 = rows[j].1) : i = j := by
  have hlength : (rows.map Prod.fst).length = rows.length := List.length_map _
  have heq : (rows.map Prod.fst)[i] = (rows.map Prod.fst)[j] := by simpa using hkey
  exact h.nodup.getElem_inj_iff.1 heq

theorem Table.Shows.mem_keys : k ∈ m.keys ↔ k ∈ rows.map Prod.fst := by
  rw [Finmap.mem_keys, Finmap.mem_iff, List.mem_map]
  simp only [h.lookup]
  exact ⟨fun ⟨v, hv⟩ ↦ ⟨(k, v), hv, rfl⟩, fun ⟨⟨_, v⟩, hv, hk⟩ ↦ ⟨v, hk ▸ hv⟩⟩

theorem Table.Shows.card : m.keys.card = rows.length := by
  have hkeys : m.keys = (rows.map Prod.fst).toFinset := by
    ext k
    rw [h.mem_keys, List.mem_toFinset]
  rw [hkeys, List.toFinset_card_of_nodup h.nodup, List.length_map]

theorem Table.Shows.equal_iff (hi : i < rows.length) :
    localEq (t.env i).key 0 k.chars = true ↔ rows[i].1 = k := by
  rw [(h.key i hi).localEq_iff rows[i].1.clean k.clean, Key.ext_iff]

theorem Table.Shows.findKey_some (hfind : findKey t k.chars = some i) :
    ∃ hi : i < rows.length, rows[i].1 = k := by
  have hi : i < rows.length := h.count ▸ List.mem_range.1 (List.mem_of_find?_eq_some hfind)
  have htest : localEq (t.env i).key 0 k.chars = true :=
    List.find?_some (p := fun i ↦ localEq (t.env i).key 0 k.chars) hfind
  exact ⟨hi, (h.equal_iff hi).1 htest⟩

theorem Table.Shows.findKey_none (hfind : findKey t k.chars = none) : k ∉ m := by
  rw [← Finmap.mem_keys, h.mem_keys, List.mem_map]
  rintro ⟨e, he, hk⟩
  obtain ⟨i, hi, rfl⟩ := List.mem_iff_getElem.1 he
  rw [findKey, List.find?_eq_none] at hfind
  exact hfind i (List.mem_range.2 (h.count ▸ hi)) ((h.equal_iff hi).2 hk)

theorem Table.Shows.mem (hi : i < rows.length) : rows[i].1 ∈ m :=
  Finmap.mem_keys.1 (h.mem_keys.2 (List.mem_map_of_mem (List.getElem_mem hi)))

end

end Map

section Steps

variable {t : Table} {rows : List (Key × Value)} {m : EnvMap} {k : Key} {i : ℕ}

theorem Table.Shows.replace (h : t.Shows rows m) (hi : i < rows.length) (hk : rows[i].1 = k)
    (v : Value) {a : ℕ → UInt8} (ha : Holds a v.chars) :
    Table.Shows { t with env := Function.update t.env i { t.env i with value := a } }
      (rows.set i (k, v)) (m.insert k v) := by
  have hkeys : (rows.set i (k, v)).map Prod.fst = rows.map Prod.fst := by
    have hget : (rows.map Prod.fst)[i]? = some k := by
      rw [List.getElem?_map, List.getElem?_eq_getElem hi, Option.map_some, hk]
    obtain ⟨hi', hget⟩ := List.getElem?_eq_some_iff.1 hget
    rw [List.map_set]
    exact hget ▸ List.set_getElem_self hi'
  refine ⟨by simpa using h.count, fun j hj ↦ ?_, fun j hj ↦ ?_, hkeys ▸ h.nodup, by simpa using h.fits,
    fun x y ↦ ?_⟩
  · rw [List.length_set] at hj
    by_cases heq : j = i
    · subst heq
      simpa [hk] using h.key j hi
    · simpa [heq, Ne.symm heq] using h.key j hj
  · rw [List.length_set] at hj
    by_cases heq : j = i
    · subst heq
      simpa using ha
    · simpa [heq, Ne.symm heq] using h.value j hj
  · rw [List.mem_iff_getElem]
    simp only [List.getElem_set, List.length_set]
    by_cases hx : x = k
    · subst hx
      rw [Finmap.lookup_insert, Option.some_inj]
      constructor
      · rintro rfl
        exact ⟨i, hi, if_pos rfl⟩
      rintro ⟨j, hj, hrow⟩
      split at hrow
      · exact (Prod.mk.inj hrow).2
      rename_i hne
      exact absurd (h.index hi hj (by rw [hk, hrow])) hne
    rw [Finmap.lookup_insert_of_ne _ hx, h.lookup, List.mem_iff_getElem]
    refine exists_congr fun j ↦ exists_congr fun hj ↦ ?_
    split
    · rename_i heq
      subst heq
      refine ⟨fun hrow ↦ absurd ?_ hx, fun hrow ↦ absurd ?_ hx⟩
      · rw [← hk, hrow]
      · exact (Prod.mk.inj hrow).1.symm
    · rfl

theorem Table.Shows.append (h : t.Shows rows m) (hk : k ∉ m) (hroom : rows.length < 8) (v : Value)
    {a b : ℕ → UInt8} (ha : Holds a k.chars) (hb : Holds b v.chars) :
    Table.Shows ⟨Function.update t.env t.envCount ⟨a, b⟩, t.envCount + 1⟩ (rows ++ [(k, v)])
      (m.insert k v) := by
  have hfresh : k ∉ rows.map Prod.fst := by rwa [← h.mem_keys, Finmap.mem_keys]
  have hcell : ∀ j (hj : j < (rows ++ [(k, v)]).length),
      Holds (Function.update t.env t.envCount ⟨a, b⟩ j).key (rows ++ [(k, v)])[j].1.chars ∧
        Holds (Function.update t.env t.envCount ⟨a, b⟩ j).value
          (rows ++ [(k, v)])[j].2.chars := by
    intro j hj
    rw [List.length_append, List.length_singleton] at hj
    rw [h.count]
    rcases Nat.lt_succ_iff_lt_or_eq.1 hj with hlt | rfl
    · rw [Function.update_of_ne hlt.ne, List.getElem_append_left hlt]
      exact ⟨h.key j hlt, h.value j hlt⟩
    rw [Function.update_self, List.getElem_concat_length rfl]
    exact ⟨ha, hb⟩
  refine ⟨by simp [h.count], fun j hj ↦ (hcell j hj).1, fun j hj ↦ (hcell j hj).2, ?_, by simpa,
    fun x y ↦ ?_⟩
  · rw [List.map_append, List.map_singleton, List.nodup_append]
    refine ⟨h.nodup, List.nodup_singleton _, fun x hx y hy heq ↦ hfresh ?_⟩
    have hxk : x = k := heq.trans (List.eq_of_mem_singleton hy)
    exact hxk ▸ hx
  · rw [List.mem_append, List.mem_singleton, Prod.mk.injEq, ← h.lookup]
    by_cases hx : x = k
    · subst hx
      rw [Finmap.lookup_insert, Finmap.lookup_eq_none.2 hk]
      simp [eq_comm]
    · rw [Finmap.lookup_insert_of_ne _ hx]
      simp [hx]

theorem shift_apply (env : ℕ → Entry) (i n a : ℕ) :
    (List.range' (i + 1) n).foldl (fun env j ↦ Function.update env (j - 1) (env j)) env a =
      if i ≤ a ∧ a < i + n then env (a + 1) else env a := by
  induction n generalizing a with
  | zero => rw [if_neg (by omega)]; rfl
  | succ n ih =>
    rw [List.range'_1_concat, List.foldl_concat]
    by_cases ha : a = i + 1 + n - 1
    · subst ha
      rw [Function.update_self, ih, if_neg (by omega), if_pos (by omega)]
      congr 1
      omega
    rw [Function.update_of_ne ha, ih]
    congr 1
    simp only [eq_iff_iff]
    omega

theorem Table.Shows.remove (h : t.Shows rows m) (hi : i < rows.length) (hk : rows[i].1 = k) :
    Table.Shows ⟨shift t.env i t.envCount, t.envCount - 1⟩ (rows.eraseIdx i) (m.erase k) := by
  have hlen : (rows.eraseIdx i).length = rows.length - 1 := List.length_eraseIdx_of_lt hi
  have hcell : ∀ j (hj : j < (rows.eraseIdx i).length),
      Holds (shift t.env i t.envCount j).key (rows.eraseIdx i)[j].1.chars ∧
        Holds (shift t.env i t.envCount j).value (rows.eraseIdx i)[j].2.chars := by
    intro j hj
    have hrow := List.getElem_eraseIdx (l := rows) (i := i) hj
    rw [shift, shift_apply, hrow]
    rw [hlen] at hj
    by_cases hlt : j < i
    · rw [if_neg (by omega), dif_pos hlt]
      exact ⟨h.key j _, h.value j _⟩
    rw [if_pos (by rw [h.count]; omega), dif_neg hlt]
    exact ⟨h.key (j + 1) _, h.value (j + 1) _⟩
  refine ⟨by rw [h.count, hlen], fun j hj ↦ (hcell j hj).1, fun j hj ↦ (hcell j hj).2,
    h.nodup.sublist ((List.eraseIdx_sublist rows i).map Prod.fst), ?_, fun x y ↦ ?_⟩
  · have := h.fits
    omega
  · rw [List.mem_eraseIdx_iff_getElem]
    by_cases hx : x = k
    · subst hx
      rw [Finmap.lookup_erase]
      refine iff_of_false (by simp) ?_
      rintro ⟨j, hj, hne, hrow⟩
      exact hne (h.index hj hi (by rw [hk, hrow]))
    rw [Finmap.lookup_erase_ne hx, h.lookup, List.mem_iff_getElem]
    refine exists_congr fun j ↦ exists_congr fun hj ↦ ?_
    refine ⟨fun hrow ↦ ⟨?_, hrow⟩, And.right⟩
    rintro rfl
    exact hx (by rw [← hk, hrow])

theorem Table.Shows.set (h : t.Shows rows m) (k : Key) (value : Option Value)
    (answers : List Answer) :
    ∃ rows', (tableStep (t, answers) (.set k value)).1.Shows rows'
        (mapStep (m, answers) (.set k value)).1 ∧
      (tableStep (t, answers) (.set k value)).2 = (mapStep (m, answers) (.set k value)).2 := by
  have hvalue : ((value.map Value.chars).getD []) = (value.getD .empty).chars := by
    cases value <;> rfl
  have hcopy : ∀ dst, Holds (localCopy dst ((value.map Value.chars).getD []) 64)
      (value.getD .empty).chars := by
    intro dst
    rw [hvalue]
    exact localCopy_all dst (value.getD .empty).fits
  simp only [tableStep, mapStep, processSetEnv, if_neg k.nonempty]
  cases hfind : findKey t k.chars with
  | some i =>
    obtain ⟨hi, hk⟩ := h.findKey_some hfind
    have hmem : k ∈ m := hk ▸ h.mem hi
    simp only [hmem, true_or, if_true]
    exact ⟨_, h.replace hi hk _ (hcopy _), trivial⟩
  | none =>
    have hk := h.findKey_none hfind
    simp only [hk, false_or, h.card, h.count]
    by_cases hroom : rows.length < 8
    · rw [if_neg (by omega), if_pos hroom, ← h.count]
      exact ⟨_, h.append hk hroom _ (localCopy_all _ k.fits) (hcopy _), rfl⟩
    rw [if_pos (by omega), if_neg hroom]
    exact ⟨rows, h, rfl⟩

theorem Table.Shows.unset (h : t.Shows rows m) (k : Key) (answers : List Answer) :
    ∃ rows', (tableStep (t, answers) (.unset k)).1.Shows rows'
        (mapStep (m, answers) (.unset k)).1 ∧
      (tableStep (t, answers) (.unset k)).2 = (mapStep (m, answers) (.unset k)).2 := by
  simp only [tableStep, mapStep, processUnsetEnv]
  cases hfind : findKey t k.chars with
  | some i =>
    obtain ⟨hi, hk⟩ := h.findKey_some hfind
    have hmem : k ∈ m := hk ▸ h.mem hi
    exact ⟨_, h.remove hi hk, by simp [hmem]⟩
  | none =>
    have hk := h.findKey_none hfind
    have herase : m.erase k = m := by
      refine Finmap.ext_lookup fun x ↦ ?_
      by_cases hx : x = k
      · rw [hx, Finmap.lookup_erase, Finmap.lookup_eq_none.2 hk]
      · rw [Finmap.lookup_erase_ne hx]
    rw [herase]
    exact ⟨rows, h, by simp [hk]⟩

theorem text_of_holds {a : ℕ → UInt8} {s : Str} {size : ℕ} (h : Holds a s) (hs : 0 ∉ s)
    (hsize : s.length < size) : text a size = s :=
  h.string hs hsize

theorem Table.Shows.get (h : t.Shows rows m) (k : Key) (out : ℕ → UInt8) (size : ℕ)
    (answers : List Answer) :
    tableStep (t, answers) (.get k out size) = (t, (mapStep (m, answers) (.get k out size)).2) ∧
      (mapStep (m, answers) (.get k out size)).1 = m := by
  simp only [tableStep, mapStep, processGetEnv]
  cases hfind : findKey t k.chars with
  | some i =>
    obtain ⟨hi, hk⟩ := h.findKey_some hfind
    have hlookup : m.lookup k = some rows[i].2 := (h.lookup k _).2 (hk ▸ List.getElem_mem hi)
    have hstored : text (t.env i).value 64 = rows[i].2.chars :=
      text_of_holds (h.value i hi) rows[i].2.clean rows[i].2.fits
    rw [hlookup]
    by_cases hsize : size = 0
    · subst hsize
      exact ⟨rfl, rfl⟩
    have hcut : text (localCopy out rows[i].2.chars size) size =
        rows[i].2.chars.take (size - 1) :=
      text_of_holds (localCopy_holds out (Nat.pos_of_ne_zero hsize) _)
        (fun hz ↦ rows[i].2.clean (List.mem_of_mem_take hz)) (by rw [List.length_take]; omega)
    simp [hsize, hstored, hcut]
  | none =>
    rw [Finmap.lookup_eq_none.2 (h.findKey_none hfind)]
    by_cases hsize : size = 0
    · subst hsize
      exact ⟨rfl, rfl⟩
    have hempty : text (Function.update out 0 0) size = [] :=
      text_of_holds ⟨fun i hi ↦ absurd hi (Nat.not_lt_zero i), Function.update_self 0 0 out⟩
        List.not_mem_nil (Nat.pos_of_ne_zero hsize)
    simp [hsize, hempty]

theorem shows_step {s : Table × List Answer} {u : EnvMap × List Answer}
    (h : (∃ rows, s.1.Shows rows u.1) ∧ s.2 = u.2) (op : Op) :
    (∃ rows, (tableStep s op).1.Shows rows (mapStep u op).1) ∧
      (tableStep s op).2 = (mapStep u op).2 := by
  obtain ⟨t, answers⟩ := s
  obtain ⟨m, answers'⟩ := u
  obtain ⟨⟨rows, h⟩, heq : answers = answers'⟩ := h
  subst heq
  cases op with
  | set k value =>
    obtain ⟨rows', hshows, hanswers⟩ := h.set k value answers
    exact ⟨⟨rows', hshows⟩, hanswers⟩
  | unset k =>
    obtain ⟨rows', hshows, hanswers⟩ := h.unset k answers
    exact ⟨⟨rows', hshows⟩, hanswers⟩
  | get k out size =>
    obtain ⟨htable, hmap⟩ := h.get k out size answers
    rw [htable, hmap]
    exact ⟨⟨rows, h⟩, rfl⟩

theorem shows_run {s : Table × List Answer} {u : EnvMap × List Answer}
    (h : (∃ rows, s.1.Shows rows u.1) ∧ s.2 = u.2) (ops : List Op) :
    (∃ rows, (ops.foldl tableStep s).1.Shows rows (ops.foldl mapStep u).1) ∧
      (ops.foldl tableStep s).2 = (ops.foldl mapStep u).2 := by
  induction ops generalizing s u with
  | nil => exact h
  | cons op ops ih => exact ih (shows_step h op)

end Steps

section Run

def Table.entries (t : Table) : List (Str × Str) :=
  (List.range t.envCount).map fun i ↦ (text (t.env i).key 24, text (t.env i).value 64)

theorem Table.Shows.entries_eq {t : Table} {rows : List (Key × Value)} {m : EnvMap}
    (h : t.Shows rows m) : t.entries = rows.map fun e ↦ (e.1.chars, e.2.chars) := by
  apply List.ext_getElem
  · simp [Table.entries, h.count]
  intro i hi hi'
  rw [List.length_map] at hi'
  simp only [Table.entries, List.getElem_map, List.getElem_range]
  rw [text_of_holds (h.key i hi') rows[i].1.clean rows[i].1.fits,
    text_of_holds (h.value i hi') rows[i].2.clean rows[i].2.fits]

/-- Whatever the array held before, a run of calls on a new process answers as the same run on a
finite map of at most eight keys, and the table then holds the entries of that map, each once. -/
theorem environment_is_map (env : ℕ → Entry) (ops : List Op) :
    let t := ops.foldl tableStep (⟨env, 0⟩, [])
    let m := ops.foldl mapStep (∅, [])
    t.2 = m.2 ∧ m.1.keys.card ≤ 8 ∧ (t.1.entries.map Prod.fst).Nodup ∧
      t.1.entries.length = m.1.keys.card ∧
      ∀ k v, m.1.lookup k = some v ↔ (k.chars, v.chars) ∈ t.1.entries := by
  have hinit : Table.Shows ⟨env, 0⟩ [] ∅ :=
    ⟨rfl, fun i hi ↦ absurd hi (Nat.not_lt_zero i), fun i hi ↦ absurd hi (Nat.not_lt_zero i),
      List.nodup_nil, Nat.zero_le 8, fun k v ↦ by simp⟩
  obtain ⟨⟨rows, h⟩, hanswers⟩ := shows_run (s := (⟨env, 0⟩, [])) (u := (∅, [])) ⟨⟨[], hinit⟩, rfl⟩ ops
  refine ⟨hanswers, h.card.trans_le h.fits, ?_, ?_, fun k v ↦ ?_⟩
  · have hkeys : (rows.map fun e ↦ (e.1.chars, e.2.chars)).map Prod.fst =
        (rows.map Prod.fst).map Key.chars := by simp
    rw [h.entries_eq, hkeys]
    exact h.nodup.map fun k k' ↦ Key.ext
  · rw [h.entries_eq, h.card, List.length_map]
  rw [h.lookup, h.entries_eq, List.mem_map]
  refine ⟨fun hmem ↦ ⟨(k, v), hmem, rfl⟩, ?_⟩
  rintro ⟨e, hmem, heq⟩
  obtain ⟨hk, hv⟩ := Prod.mk.inj heq
  rwa [← Key.ext hk, ← Value.ext hv]

end Run

end NexusOS.Core.Env
