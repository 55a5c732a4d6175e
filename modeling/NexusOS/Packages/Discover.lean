import NexusOS.Lib.Run
import NexusOS.Lib.Split
import NexusOS.Packages.Manifest

namespace NexusOS.Packages

open Lib Fs

section Source

inductive AppSource
  | builtin
  | system
  | userdata
  deriving DecidableEq

/-- Where the strings of an application are: in the program, in a field of one of the manifests, or
in the array `manifest_path` of a round of the discovery loop. -/
inductive StrPtr
  | literal (s : Str)
  | field (i : ℕ) (f : Field)
  | manifestPath
  deriving DecidableEq

structure App where
  id : StrPtr
  name : StrPtr
  entry : StrPtr
  builtin : Bool
  source : AppSource
  deriving DecidableEq

/-- The registry of applications and the variables of the package manager. -/
structure Services where
  apps : List App
  manifests : ℕ → Manifest
  count : ℕ
  initialized : Bool

/-- The string at a pointer between two calls; `manifest_path` is dead then. -/
def Services.deref (s : Services) : StrPtr → Option Str
  | .literal t => some t
  | .field i f => some ((s.manifests i f).string 0 f.size)
  | .manifestPath => none

def indexOf (s : Services) (id : StrPtr) : Option ℕ :=
  s.apps.findIdx? fun a ↦ (s.deref a.id).isSome ∧ s.deref a.id = s.deref id

def nexusAppRegister (s : Services) (app : App) : Option Services :=
  if 16 ≤ s.apps.length ∨ (indexOf s app.id).isSome then none
  else some { s with apps := s.apps ++ [app] }

/-- What discovery asks the FAT32 driver for: at most so many entries of a directory, with a flag for
directories, and at most so many bytes of a file. -/
structure Volume where
  mounted : Bool
  list : Str → ℕ → Option (List (Str × Bool))
  read : Str → ℕ → Option (List UInt8)

def pathSlash (cap : ℕ) (p : Str) : Str :=
  if p ≠ [] ∧ p.getLast? ≠ some slash ∧ p.length < cap - 1 then p ++ [slash] else p

def pathJoin (cap : ℕ) (root name leaf : Str) : Str :=
  let p := pathSlash cap (root.take (cap - 1))
  let p := p ++ name.take (cap - 1 - p.length)
  if p.length < cap - 1 then
    let p := pathSlash cap p
    p ++ leaf.take (cap - 1 - p.length)
  else p

/-- `manifest.nxm`. -/
def manifestLeaf : Str := [109, 97, 110, 105, 102, 101, 115, 116, 46, 110, 120, 109]

/-- What is parsed of the bytes of a manifest, which go to an array with a terminator behind them. -/
def manifestText (bytes : List UInt8) : Str := (bytes.take 511).takeWhile (· ≠ 0)

/-- The end of a round of the loop of `discover_root`, with the manifest in its slot. -/
def addParsed (source : AppSource) (accepted : Bool) (r : Services × ℕ) : Services × ℕ :=
  let i := r.1.count
  if accepted = false ∨ (indexOf r.1 (.field i .id)).isSome then r
  else
    match nexusAppRegister r.1
      { id := .field i .id
        name := .field i .name
        entry := if (r.1.manifests i .entry).cell 0 ≠ 0 then .field i .entry else .manifestPath
        builtin := false
        source := source } with
    | none => r
    | some s => ({ s with count := s.count + 1 }, r.2 + 1)

def discoverEntry (vol : Volume) (root : Str) (source : AppSource) (r : Services × ℕ)
    (e : Str × Bool) : Option (Services × ℕ) :=
  if 16 ≤ r.1.count ∨ e.2 = false ∨ e.1 = [46] ∨ e.1 = [46, 46] then some r
  else
    match vol.read (pathJoin 192 root e.1 manifestLeaf) 511 with
    | none => some r
    | some bytes =>
      (nexusPackageManifestParse (manifestText bytes) (r.1.manifests r.1.count)).map fun p ↦
        addParsed source p.1
          ({ r.1 with manifests := Function.update r.1.manifests r.1.count p.2 }, r.2)

def discoverRoot (vol : Volume) (root : Str) (source : AppSource) (s : Services) :
    Option (Services × ℕ) :=
  match vol.list root 16 with
  | none => some (s, 0)
  | some es => es.foldlM (discoverEntry vol root source) (s, 0)

def nexusPackageManagerInit (s : Services) : Services := { s with initialized := true, count := 0 }

/-- `/system/apps`. -/
def systemApps : Str := [47, 115, 121, 115, 116, 101, 109, 47, 97, 112, 112, 115]

/-- `/userdata/apps`. -/
def userdataApps : Str := [47, 117, 115, 101, 114, 100, 97, 116, 97, 47, 97, 112, 112, 115]

def ready (s : Services) : Services := if s.initialized then s else nexusPackageManagerInit s

def nexusPackageDiscover (vol : Volume) (root : Str) (s : Services) : Option (Services × ℕ) :=
  let s := ready s
  if vol.mounted = false then some (s, 0)
  else if root = systemApps then discoverRoot vol root .system s
  else if root = userdataApps then discoverRoot vol root .userdata s
  else some (s, 0)

/-- Calls one after another, each with the volume as it is then. -/
def discoverRun (s : Services) (calls : List (Volume × Str)) : Option Services :=
  calls.foldlM (fun s c ↦ (nexusPackageDiscover c.1 c.2 s).map Prod.fst) s

end Source

section Purpose

structure Origin where
  path : Str
  text : Str
  source : AppSource
  deriving DecidableEq

def Origin.value (o : Origin) (f : Field) : Str := fieldValue (o.text.splitOn newline) f

def manifestOf (vol : Volume) (root : Str) (source : AppSource) (e : Str × Bool) : Option Origin :=
  if e.2 = false ∨ e.1 = [46] ∨ e.1 = [46, 46] then none
  else (vol.read (pathJoin 192 root e.1 manifestLeaf) 511).map fun bytes ↦
    ⟨pathJoin 192 root e.1 manifestLeaf, manifestText bytes, source⟩

def manifestsIn (vol : Volume) (root : Str) (source : AppSource) : List Origin :=
  ((vol.list root 16).getD []).filterMap (manifestOf vol root source)

def manifestsFor (c : Volume × Str) : List Origin :=
  if c.1.mounted = false then []
  else if c.2 = systemApps then manifestsIn c.1 c.2 .system
  else if c.2 = userdataApps then manifestsIn c.1 c.2 .userdata
  else []

/-- The applications of these manifests are registered beside those with the identifiers `ids`; one
more manifest has a name, a new identifier and room in both tables. -/
def Registrable (ids : List Str) (os : List Origin) (o : Origin) : Prop :=
  os.length < 16 ∧ o.value .name ≠ [] ∧ o.value .id ≠ [] ∧ ids.length + os.length < 16 ∧
    o.value .id ∉ ids ++ os.map (Origin.value · .id)

instance (ids : List Str) (os : List Origin) (o : Origin) : Decidable (Registrable ids os o) :=
  inferInstanceAs (Decidable (_ ∧ _))

def registerManifest (ids : List Str) (os : List Origin) (o : Origin) : List Origin :=
  if Registrable ids os o then os ++ [o] else os

def registered (ids : List Str) (calls : List (Volume × Str)) : List Origin :=
  (calls.flatMap manifestsFor).foldl (registerManifest ids) []

/-- The strings of an application are those of its own manifest. -/
structure Origin.Owns (o : Origin) (s : Services) (a : App) : Prop where
  id : s.deref a.id = some (o.value .id)
  name : s.deref a.name = some (o.value .name)
  entry : s.deref a.entry = some (if o.value .entry = [] then o.path else o.value .entry)

/-- Behind the applications that were there, every manifest registered has one with its strings. -/
def KeepsEntries (n : ℕ) (os : List Origin) (s : Services) : Prop :=
  s.apps.length = n + os.length ∧
    ∀ j o, os[j]? = some o → ∃ a, s.apps[n + j]? = some a ∧ o.Owns s a

end Purpose

section Texts

variable {text : Str}

theorem unlines_eq_intercalate (ls : List Str) : unlines ls = [newline].intercalate ls := by
  induction ls with
  | nil => rfl
  | cons l ls ih =>
    cases ls with
    | nil => simp [unlines]
    | cons l' ls =>
      rw [List.intercalate_cons_cons, ← ih]
      simp [unlines]

theorem unlines_splitOn (text : Str) : unlines (text.splitOn newline) = text := by
  rw [unlines_eq_intercalate]
  exact List.intercalate_splitOn newline

theorem isLine_of_mem (h0 : 0 ∉ text) : ∀ l ∈ text.splitOn newline, IsLine l := fun l hl ↦
  ⟨fun h ↦ h0 (mem_of_mem_splitOn hl h), notMem_of_mem_splitOn text l hl⟩

theorem zero_notMem_manifestText (bytes : List UInt8) : 0 ∉ manifestText bytes := fun h ↦ by
  simpa using List.mem_takeWhile_imp h

theorem parse_manifestText {m : Manifest} (hm : ∀ f, (m f).Within f.size) (o : Origin)
    (ho : 0 ∉ o.text) : ∃ m', nexusPackageManifestParse o.text m =
        some (decide (o.value .name ≠ [] ∧ o.value .id ≠ []), m') ∧
      ∀ f, (m' f).Within f.size ∧ (m' f).string 0 f.size = o.value f ∧
        ((m' f).cell 0 ≠ 0 ↔ o.value f ≠ []) := by
  have hls := isLine_of_mem ho
  refine ⟨parsedFields (o.text.splitOn newline) m, ?_, fun f ↦ ?_⟩
  · have hparse := parse_accepts hls hm
    rw [unlines_splitOn] at hparse
    exact hparse
  · exact ⟨(parsedFields_spec _ (hm f)).1, parsedFields_string hls (hm f),
      parsedFields_nonempty hls (hm f)⟩

end Texts

section Step

variable {base : List App} {ids : List Str} {s s' : Services} {os : List Origin} {o : Origin}
  {r : Services × ℕ} {vol : Volume} {root : Str} {source : AppSource}

def Origin.app (j : ℕ) (o : Origin) : App where
  id := .field j .id
  name := .field j .name
  entry := if o.value .entry ≠ [] then .field j .entry else .manifestPath
  builtin := false
  source := o.source

/-- The registry after the manifests `os` were registered beside the applications `base`. -/
structure Holding (base : List App) (s : Services) (os : List Origin) : Prop where
  count : s.count = os.length
  apps : s.apps = base ++ os.mapIdx Origin.app
  slot : ∀ j o, os[j]? = some o → ∀ f, (s.manifests j f).string 0 f.size = o.value f
  within : ∀ j f, (s.manifests j f).Within f.size
  initialized : s.initialized = true

theorem Holding.parsed (h : Holding base s os) {m : Manifest} (hm : ∀ f, (m f).Within f.size) :
    Holding base { s with manifests := Function.update s.manifests s.count m } os := by
  refine ⟨h.count, h.apps, fun j o hj f ↦ ?_, fun j f ↦ ?_, h.initialized⟩
  · have hlt : j < os.length := (List.getElem?_eq_some_iff.1 hj).1
    have hne : j ≠ s.count := by
      rw [h.count]
      exact hlt.ne
    simpa [Function.update_of_ne hne] using h.slot j o hj f
  by_cases hj : j = s.count
  · subst hj
    simpa using hm f
  · simpa [Function.update_of_ne hj] using h.within j f

theorem Holding.deref_ids (h : Holding base s os) (hbase : base.map App.id = ids.map .literal) :
    s.apps.map (fun a ↦ s.deref a.id) = (ids ++ os.map (Origin.value · .id)).map some := by
  rw [h.apps, List.map_append, List.map_append]
  congr 1
  · have hcomp : base.map (fun a ↦ s.deref a.id) = (base.map App.id).map s.deref := by
      rw [List.map_map]
      rfl
    rw [hcomp, hbase, List.map_map]
    rfl
  refine List.ext_getElem (by simp) fun j hj hj' ↦ ?_
  have hlt : j < os.length := by simpa using hj
  have hslot := h.slot j os[j] (List.getElem?_eq_getElem hlt) .id
  simp [Origin.app, Services.deref, hslot]

theorem indexOf_isSome {strings : List Str} (hs : s.apps.map (fun a ↦ s.deref a.id) = strings.map some)
    {p : StrPtr} {t : Str} (hp : s.deref p = some t) : (indexOf s p).isSome ↔ t ∈ strings := by
  have hiff : (indexOf s p).isSome ↔ some t ∈ s.apps.map fun a ↦ s.deref a.id := by
    rw [indexOf, List.findIdx?_isSome, hp]
    simp only [List.any_eq_true, decide_eq_true_eq, List.mem_map]
    exact exists_congr fun a ↦ and_congr_right fun _ ↦ ⟨And.right, fun heq ↦ ⟨by rw [heq]; rfl, heq⟩⟩
  rw [hiff, hs, List.mem_map_of_injective (Option.some_injective Str)]

theorem Holding.registered (h : Holding base s os)
    (ho : ∀ f, (s.manifests s.count f).string 0 f.size = o.value f) :
    Holding base { s with apps := s.apps ++ [o.app s.count], count := s.count + 1 } (os ++ [o]) := by
  refine ⟨?_, ?_, fun j o' hj f ↦ ?_, h.within, h.initialized⟩
  · change s.count + 1 = _
    rw [h.count, List.length_append, List.length_singleton]
  · change s.apps ++ [o.app s.count] = _
    rw [List.mapIdx_concat, h.apps, h.count, List.append_assoc]
  rcases Nat.lt_trichotomy j os.length with hlt | heq | hgt
  · rw [List.getElem?_append_left hlt] at hj
    exact h.slot j o' hj f
  · subst heq
    rw [List.getElem?_concat_length, Option.some.injEq] at hj
    subst hj
    rw [← h.count]
    exact ho f
  · rw [List.getElem?_eq_none (by simp; omega)] at hj
    exact absurd hj (by simp)

theorem addParsed_spec (hbase : base.map App.id = ids.map .literal) (h : Holding base s os)
    (ho : ∀ f, (s.manifests s.count f).string 0 f.size = o.value f ∧
      ((s.manifests s.count f).cell 0 ≠ 0 ↔ o.value f ≠ [])) (n : ℕ) (hroom : os.length < 16) :
    Holding base (addParsed o.source (decide (o.value .name ≠ [] ∧ o.value .id ≠ [])) (s, n)).1
      (registerManifest ids os o) := by
  have hlen : s.apps.length = ids.length + os.length := by
    rw [h.apps, List.length_append, List.length_mapIdx]
    simpa using congrArg List.length hbase
  have hfound : (indexOf s (.field s.count .id)).isSome ↔
      o.value .id ∈ ids ++ os.map (Origin.value · .id) :=
    indexOf_isSome (h.deref_ids hbase) (congrArg some (ho .id).1)
  by_cases hnew : o.value .id ∈ ids ++ os.map (Origin.value · .id)
  · rw [addParsed, if_pos (.inr (hfound.2 hnew)), registerManifest,
      if_neg fun hreg ↦ hreg.2.2.2.2 hnew]
    exact h
  by_cases haccept : o.value .name ≠ [] ∧ o.value .id ≠ []
  · rw [addParsed, if_neg (not_or.2 ⟨by simpa using haccept, fun hin ↦ hnew (hfound.1 hin)⟩),
      nexusAppRegister, registerManifest]
    by_cases hfull : 16 ≤ s.apps.length
    · rw [if_pos (.inl hfull), if_neg fun hreg ↦ absurd hreg.2.2.2.1 (by omega)]
      exact h
    have hregistrable : Registrable ids os o := ⟨hroom, haccept.1, haccept.2, by omega, hnew⟩
    rw [if_neg (not_or.2 ⟨hfull, fun hin ↦ hnew (hfound.1 hin)⟩), if_pos hregistrable]
    have hreg := h.registered fun f ↦ (ho f).1
    simp only [Origin.app, ← (ho .entry).2] at hreg
    exact hreg
  rw [addParsed, if_pos (.inl (decide_eq_false haccept)), registerManifest,
    if_neg fun hreg ↦ haccept ⟨hreg.2.1, hreg.2.2.1⟩]
  exact h

theorem discoverEntry_spec (hbase : base.map App.id = ids.map .literal) (h : Holding base r.1 os)
    (e : Str × Bool) : ∃ r', discoverEntry vol root source r e = some r' ∧
      Holding base r'.1 ((manifestOf vol root source e).toList.foldl (registerManifest ids) os) := by
  by_cases hskip : e.2 = false ∨ e.1 = [46] ∨ e.1 = [46, 46]
  · rw [discoverEntry, if_pos (.inr hskip), manifestOf, if_pos hskip]
    exact ⟨r, rfl, h⟩
  rw [manifestOf, if_neg hskip]
  cases hread : vol.read (pathJoin 192 root e.1 manifestLeaf) 511 with
  | none =>
    refine ⟨r, ?_, h⟩
    rw [discoverEntry, hread]
    exact ite_self _
  | some bytes =>
    set o : Origin := ⟨pathJoin 192 root e.1 manifestLeaf, manifestText bytes, source⟩
    change ∃ r' : Services × ℕ, _ ∧ Holding base r'.1 (registerManifest ids os o)
    by_cases hfull : 16 ≤ r.1.count
    · rw [discoverEntry, if_pos (.inl hfull), registerManifest,
        if_neg fun hreg ↦ absurd hreg.1 (by rw [← h.count]; omega)]
      exact ⟨r, rfl, h⟩
    obtain ⟨m, hparse, hm⟩ := parse_manifestText (h.within r.1.count) o (zero_notMem_manifestText bytes)
    change nexusPackageManifestParse (manifestText bytes) _ = _ at hparse
    rw [discoverEntry, if_neg (not_or.2 ⟨hfull, hskip⟩), hread]
    simp only [hparse, Option.map_some]
    refine ⟨_, rfl, addParsed_spec hbase (h.parsed fun f ↦ (hm f).1) (fun f ↦ ?_) r.2 ?_⟩
    · simpa using (hm f).2
    rw [← h.count]
    omega

end Step

section Run

variable {base : List App} {ids : List Str} {s : Services} {os : List Origin}

theorem foldl_registerManifest_filterMap {α : Type*} (f : α → Option Origin) (l : List α)
    (os : List Origin) : (l.filterMap f).foldl (registerManifest ids) os =
      l.foldl (fun os a ↦ (f a).toList.foldl (registerManifest ids) os) os := by
  induction l generalizing os with
  | nil => rfl
  | cons a l ih =>
    rw [List.foldl_cons, ← ih]
    cases hfa : f a with
    | none => rw [List.filterMap_cons_none hfa]; rfl
    | some o => rw [List.filterMap_cons_some hfa]; rfl

section

variable (hbase : base.map App.id = ids.map .literal)
include hbase

theorem discoverRoot_spec (h : Holding base s os) (vol : Volume) (root : Str) (source : AppSource) :
    ∃ r, discoverRoot vol root source s = some r ∧
      Holding base r.1 ((manifestsIn vol root source).foldl (registerManifest ids) os) := by
  rw [discoverRoot, manifestsIn, foldl_registerManifest_filterMap]
  cases vol.list root 16 with
  | none => exact ⟨(s, 0), rfl, h⟩
  | some es =>
    exact foldlM_refines (R := fun (r : Services × ℕ) os ↦ Holding base r.1 os)
      (fun _ _ e hr ↦ discoverEntry_spec hbase hr e) h es

theorem discover_spec (h : Holding base (ready s) os) (c : Volume × Str) :
    ∃ s', (nexusPackageDiscover c.1 c.2 s).map Prod.fst = some s' ∧
      Holding base (ready s') ((manifestsFor c).foldl (registerManifest ids) os) := by
  have hready : ∀ {s' os'}, Holding base s' os' → Holding base (ready s') os' := fun h' ↦ by
    rw [ready, if_pos h'.initialized]
    exact h'
  have hroot : ∀ source, ∃ s', (discoverRoot c.1 c.2 source (ready s)).map Prod.fst = some s' ∧
      Holding base (ready s') ((manifestsIn c.1 c.2 source).foldl (registerManifest ids) os) := by
    intro source
    obtain ⟨r, hr, hholding⟩ := discoverRoot_spec hbase h c.1 c.2 source
    exact ⟨r.1, by rw [hr]; rfl, hready hholding⟩
  rw [nexusPackageDiscover, manifestsFor]
  split_ifs
  · exact ⟨ready s, rfl, hready h⟩
  · exact hroot .system
  · exact hroot .userdata
  · exact ⟨ready s, rfl, hready h⟩

theorem discoverRun_spec (h : Holding base (ready s) []) (calls : List (Volume × Str)) :
    ∃ s', discoverRun s calls = some s' ∧ Holding base (ready s') (registered ids calls) := by
  have hflat : registered ids calls =
      calls.foldl (fun os c ↦ (manifestsFor c).foldl (registerManifest ids) os) [] := by
    rw [registered, List.foldl_flatMap]
  rw [hflat]
  exact foldlM_refines (R := fun s os ↦ Holding base (ready s) os)
    (fun _ _ c hs ↦ discover_spec hbase hs c) h calls

end

theorem ready_apps (s : Services) : (ready s).apps = s.apps := by
  unfold ready
  split_ifs <;> rfl

theorem ready_deref (s : Services) (p : StrPtr) : (ready s).deref p = s.deref p := by
  unfold ready
  split_ifs <;> cases p <;> rfl

theorem Holding.owns_iff (h : Holding base s os) {j : ℕ} {o : Origin} (hj : os[j]? = some o) :
    o.Owns s (o.app j) ↔ o.value .entry ≠ [] := by
  have hslot := h.slot j o hj
  constructor
  · intro howns hempty
    have hentry := howns.entry
    simp [Origin.app, hempty, Services.deref] at hentry
  intro hentry
  refine ⟨congrArg some (hslot .id), congrArg some (hslot .name), ?_⟩
  rw [if_neg hentry]
  simp [Origin.app, hentry, Services.deref, hslot .entry]

theorem Holding.keepsEntries_iff (h : Holding base s os) :
    KeepsEntries base.length os s ↔ ∀ o ∈ os, o.value .entry ≠ [] := by
  have hlen : s.apps.length = base.length + os.length := by
    rw [h.apps, List.length_append, List.length_mapIdx]
  have happ : ∀ j o, os[j]? = some o → s.apps[base.length + j]? = some (o.app j) := by
    intro j o hj
    rw [h.apps, List.getElem?_append_right (Nat.le_add_right _ _), Nat.add_sub_cancel_left,
      List.getElem?_mapIdx, hj]
    rfl
  constructor
  · rintro ⟨-, hkeeps⟩ o ho
    obtain ⟨j, hj⟩ := List.getElem?_of_mem ho
    obtain ⟨a, ha, howns⟩ := hkeeps j o hj
    rw [happ j o hj, Option.some.injEq] at ha
    exact (h.owns_iff hj).1 (ha ▸ howns)
  intro hentries
  refine ⟨hlen, fun j o hj ↦ ⟨o.app j, happ j o hj, (h.owns_iff hj).2 ?_⟩⟩
  exact hentries o (List.mem_of_getElem? hj)

theorem keepsEntries_ready {n : ℕ} : KeepsEntries n os (ready s) ↔ KeepsEntries n os s := by
  have howns : ∀ (o : Origin) (a : App), o.Owns (ready s) a ↔ o.Owns s a := fun o a ↦ by
    constructor
    · intro h
      exact ⟨ready_deref s a.id ▸ h.id, ready_deref s a.name ▸ h.name, ready_deref s a.entry ▸ h.entry⟩
    intro h
    refine ⟨?_, ?_, ?_⟩ <;> rw [ready_deref]
    exacts [h.id, h.name, h.entry]
  simp only [KeepsEntries, ready_apps, howns]

/-- Registered applications keep the strings of their manifests when each of these names its entry;
for one that does not, the registry is left with a pointer to an array that is gone. -/
theorem discovered_apps_keep_entries (s : Services) (ids : List Str)
    (hids : s.apps.map App.id = ids.map .literal) (hcount : s.count = 0)
    (hfresh : ∀ j f, (s.manifests j f).used = []) (calls : List (Volume × Str)) :
    ∃ s', discoverRun s calls = some s' ∧
      (KeepsEntries s.apps.length (registered ids calls) s' ↔
        ∀ o ∈ registered ids calls, o.value .entry ≠ []) := by
  have hwithin : ∀ j f, ((ready s).manifests j f).Within f.size := by
    intro j f i hi
    have hused : ((ready s).manifests j f).used = [] := by
      unfold ready
      split_ifs
      · exact hfresh j f
      · exact hfresh j f
    rw [hused] at hi
    exact absurd hi List.not_mem_nil
  have hstart : Holding s.apps (ready s) [] := by
    refine ⟨?_, ?_, fun j o hj ↦ absurd hj (by simp), hwithin, ?_⟩
    · unfold ready
      split_ifs
      · exact hcount
      · rfl
    · rw [ready_apps, List.mapIdx_nil, List.append_nil]
    unfold ready
    split_ifs with hinit
    · exact hinit
    · rfl
  obtain ⟨s', hs', hholding⟩ := discoverRun_spec hids hstart calls
  exact ⟨s', hs', keepsEntries_ready.symm.trans hholding.keepsEntries_iff⟩

def oneAppVolume (bytes : List UInt8) : Volume where
  mounted := true
  list _ _ := some [([65, 80, 80], true)]
  read _ _ := some bytes

def noServices : Services := ⟨[], fun _ _ ↦ ⟨fun _ ↦ 0, []⟩, 0, false⟩

/-- "ID:a", "Name:b" and "Entry:c". -/
theorem discovered_apps_keep_entries_one :
    ∃ s', discoverRun noServices [(oneAppVolume
        [73, 68, 58, 97, 10, 78, 97, 109, 101, 58, 98, 10, 69, 110, 116, 114, 121, 58, 99],
        systemApps)] = some s' ∧
      KeepsEntries 0 (registered [] [(oneAppVolume
        [73, 68, 58, 97, 10, 78, 97, 109, 101, 58, 98, 10, 69, 110, 116, 114, 121, 58, 99],
        systemApps)]) s' := by
  obtain ⟨s', hs', hiff⟩ := discovered_apps_keep_entries noServices [] rfl rfl (fun _ _ ↦ rfl)
    [(oneAppVolume
      [73, 68, 58, 97, 10, 78, 97, 109, 101, 58, 98, 10, 69, 110, 116, 114, 121, 58, 99],
      systemApps)]
  exact ⟨s', hs', hiff.2 (by decide)⟩

/-- Without an entry: "ID:a" and "Name:b". -/
theorem discovered_app_loses_path :
    ∃ s', discoverRun noServices
        [(oneAppVolume [73, 68, 58, 97, 10, 78, 97, 109, 101, 58, 98], systemApps)] = some s' ∧
      ¬ KeepsEntries 0 (registered []
        [(oneAppVolume [73, 68, 58, 97, 10, 78, 97, 109, 101, 58, 98], systemApps)]) s' := by
  have hentries : (discoverRun noServices
      [(oneAppVolume [73, 68, 58, 97, 10, 78, 97, 109, 101, 58, 98], systemApps)]).map
        (fun s ↦ s.apps.map fun a ↦ s.deref a.entry) = some [none] := by
    decide
  obtain ⟨s', hs', hnone⟩ := Option.map_eq_some_iff.1 hentries
  refine ⟨s', hs', fun hkeeps ↦ ?_⟩
  obtain ⟨a, ha, howns⟩ := hkeeps.2 0 ⟨pathJoin 192 systemApps [65, 80, 80] manifestLeaf,
    [73, 68, 58, 97, 10, 78, 97, 109, 101, 58, 98], .system⟩ (by decide)
  have hlist := congrArg (·[0]?) hnone
  rw [List.getElem?_map, ha] at hlist
  exact absurd (howns.entry.symm.trans (Option.some.inj hlist)) (by simp)

end Run

end NexusOS.Packages
