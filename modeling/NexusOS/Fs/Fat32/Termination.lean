import NexusOS.Fs.Fat32.Read
import NexusOS.Fs.Fat32.WriteArea

namespace NexusOS.Fs.Fat32

open Lib

section Walks

variable (g : Geometry) (d : Disk)

/-- A cluster that cannot be read, or that has an end marker, ends the directory. -/
def marked (c : ℕ) : Bool :=
  match readCluster g d c with
  | none => true
  | some buf => (List.range (entriesPerCluster g)).any fun i ↦ entryAt buf i 0 == 0

/-- Where a search that finds nothing in cluster `c` goes on. -/
def walk (limit c : ℕ) : Option ℕ :=
  if isEndOfChain c ∨ c < 2 ∨ limit < c ∨ marked g d c then none else some (getNextCluster g d c)

def Ends (limit c : ℕ) : Prop := ∃ l, Seg (walk g d limit) (some c) l none

/-- What `nextComponent` can cut from a C string. -/
def Component (component : Str) : Prop :=
  slash ∉ component ∧ 0 ∉ component ∧ component.length ≤ 12

/-- The directories that a path can lead to, by their first clusters. -/
inductive Visited : ℕ → Prop
  | root : Visited g.rootCluster
  | sub {h : ℕ} {component : Str} {e : Dirent} (hdir : Visited h) (hname : Component component)
      (hfound : findEntry g d h (toShortName component) = some (some e))
      (he : e.isDirectory = true) : Visited (direntCluster e)

variable {g d} {limit limit' c n : ℕ} {l : List ℕ} {name : Name} {buf : Buf}

theorem walk_some {next : ℕ} (h : walk g d limit c = some next) :
    ¬(isEndOfChain c ∨ c < 2 ∨ limit < c) ∧ marked g d c = false ∧
      next = getNextCluster g d c := by
  unfold walk at h
  split_ifs at h with hend
  simp only [not_or, Bool.not_eq_true] at hend ⊢
  exact ⟨⟨hend.1, hend.2.1, hend.2.2.1⟩, hend.2.2.2, (Option.some.inj h).symm⟩

theorem walk_eq (h : ¬(isEndOfChain c ∨ c < 2 ∨ limit < c)) (hmarked : marked g d c = false) :
    walk g d limit c = some (getNextCluster g d c) := by
  refine if_neg ?_
  simp only [not_or, Bool.not_eq_true] at h ⊢
  exact ⟨h.1, h.2.1, h.2.2, hmarked⟩

theorem searchEntries_none {is : List ℕ} (h : searchEntries name buf is = none) :
    (is.any fun i ↦ entryAt buf i 0 == 0) = false := by
  induction is with
  | nil => rfl
  | cons i is ih =>
    rw [searchEntries] at h
    split_ifs at h with hend
    · rw [List.any_cons, ih h, beq_false_of_ne hend, Bool.or_false]
    · rw [List.any_cons, ih h, beq_false_of_ne hend, Bool.or_false]

/-- The name of a deleted entry is never found. -/
theorem searchEntries_deleted (hname : name 0 = 0xE5) {is : List ℕ}
    (h : (is.any fun i ↦ entryAt buf i 0 == 0) = false) : searchEntries name buf is = none := by
  induction is with
  | nil => rfl
  | cons i is ih =>
    rw [List.any_cons, Bool.or_eq_false_iff] at h
    rw [searchEntries, if_neg (ne_of_beq_false h.1)]
    split_ifs with hskip hhit
    · exact ih h.2
    · have hfirst : entryAt buf i 0 = 0xE5 := by
        rw [← hname, ← hhit]
        rfl
      exact absurd (by simp [skipped, hfirst]) hskip
    · exact ih h.2

theorem listCluster_marked (is : List ℕ) :
    (listCluster buf is).2 = is.any fun i ↦ entryAt buf i 0 == 0 := by
  induction is with
  | nil => rfl
  | cons i is ih =>
    rw [listCluster, List.any_cons, ← ih]
    split_ifs with hend
    · simp [hend]
    · simp [hend]
    · simp [hend]

theorem Seg.init_range (h : Seg (walk g d limit) (some c) l none) :
    ∀ a ∈ l.dropLast, a < 0x0FFFFFF8 := by
  induction l generalizing c with
  | nil => simp
  | cons a l ih =>
    obtain rfl : c = a := Option.some.inj h.1
    cases l with
    | nil => simp
    | cons b l =>
      have hstep : walk g d limit c = some b := h.2.1
      have hrange := (walk_some hstep).1
      have htail := h.2
      rw [hstep] at htail
      intro x hx
      rw [List.dropLast_cons_cons] at hx
      rcases List.mem_cons.1 hx with rfl | hx
      · simp only [isEndOfChain, decide_eq_true_eq] at hrange
        omega
      · exact ih htail x hx

theorem Seg.length_le_clusters (h : Seg (walk g d limit) (some c) l none) : l.length ≤ 2 ^ 28 := by
  have hnodup : l.dropLast.Nodup := h.nodup.sublist (List.dropLast_sublist l)
  have hsub : l.dropLast.toFinset ⊆ Finset.range 0x0FFFFFF8 := by
    intro a ha
    exact Finset.mem_range.2 (Seg.init_range h a (List.mem_toFinset.1 ha))
  have hcard := Finset.card_le_card hsub
  rw [List.toFinset_card_of_nodup hnodup, Finset.card_range, List.length_dropLast] at hcard
  omega

theorem Ends.cons {next : ℕ} (hstep : walk g d limit c = some next) (h : Ends g d limit next) :
    Ends g d limit c := by
  obtain ⟨l, hl⟩ := h
  exact ⟨c :: l, rfl, hstep ▸ hl⟩

theorem ends_of_next (h : Ends g d limit (getNextCluster g d c)) : Ends g d limit c := by
  cases hstep : walk g d limit c with
  | none => exact ⟨[c], rfl, hstep⟩
  | some next =>
    obtain ⟨-, -, rfl⟩ := walk_some hstep
    exact h.cons hstep

/-- The search ends where each of its steps is one of a search that ends or is made in such a one. -/
theorem Ends.of_walk {d' : Disk} (h : Ends g d limit c) (hnext : ∀ a b,
    walk g d' limit' a = some b → walk g d limit a = some b ∨ Ends g d' limit' a) :
    Ends g d' limit' c := by
  obtain ⟨l, hl⟩ := h
  induction l generalizing c with
  | nil => cases hl
  | cons a l ih =>
    obtain rfl : c = a := Option.some.inj hl.1
    cases hstep : walk g d' limit' c with
    | none => exact ⟨[c], rfl, hstep⟩
    | some next =>
      rcases hnext c next hstep with hsame | hends
      · have htail := hl.2
        rw [hsame] at htail
        exact (ih htail).cons hstep
      · exact hends

theorem Ends.mono (hle : limit' ≤ limit) (h : Ends g d limit c) : Ends g d limit' c := by
  refine h.of_walk fun a b hstep ↦ .inl ?_
  obtain ⟨hrange, hmarked, rfl⟩ := walk_some hstep
  exact walk_eq (fun h ↦ hrange (h.imp_right (Or.imp_right hle.trans_lt))) hmarked

theorem searchChain_ends (h : Seg (walk g d limit) (some c) l none)
    (hn : l.length ≤ n) : searchChain g d name limit n c ≠ none := by
  refine h.returns (f := fun n c (_ : Unit) ↦ searchChain g d name limit n c)
    (fun n c _ ↦ ?_) hn ()
  rw [searchChain]
  split
  · exact .inl (by simp)
  next hrange =>
  split
  · exact .inl (by simp)
  next buf hread =>
  split
  · exact .inl (by simp)
  · exact .inl (by simp)
  next hmiss =>
  exact .inr ⟨_, (), walk_eq hrange (by rw [marked, hread]; exact searchEntries_none hmiss), id⟩

/-- The search for the name of a deleted entry ends only where every search does. -/
theorem ends_of_search (hname : name 0 = 0xE5) (h : searchChain g d name limit n c ≠ none) :
    Ends g d limit c := by
  induction n generalizing c with
  | zero => exact absurd rfl h
  | succ n ih =>
    cases hstep : walk g d limit c with
    | none => exact ⟨[c], rfl, hstep⟩
    | some next =>
      obtain ⟨hrange, hmarked, rfl⟩ := walk_some hstep
      unfold marked at hmarked
      split at hmarked
      · cases hmarked
      next buf hread =>
      rw [searchChain_next hrange hread (searchEntries_deleted hname hmarked)] at h
      exact (ih h).cons hstep

theorem walk_far (h : ¬(isEndOfChain c ∨ c < 2)) (hread : readCluster g d c = some buf)
    (hlist : ¬(listCluster buf (List.range (entriesPerCluster g))).2 = true) :
    walk g d 0x0FFFFFFF c = some (getNextCluster g d c) := by
  refine walk_eq ?_ ?_
  · simp only [isEndOfChain, decide_eq_true_eq] at h ⊢
    omega
  rw [marked, hread]
  rwa [listCluster_marked, Bool.not_eq_true] at hlist

theorem listLoop_ends (h : Seg (walk g d 0x0FFFFFFF) (some c) l none) (hn : l.length ≤ n) :
    listLoop g d n c ≠ none := by
  refine h.returns (f := fun n c (_ : Unit) ↦ listLoop g d n c) (fun n c _ ↦ ?_) hn ()
  rw [listLoop]
  split
  · exact .inl (by simp)
  next hrange =>
  split
  · exact .inl (by simp)
  next hread =>
  dsimp only
  split
  · exact .inl (by simp)
  · next hlist => exact .inr ⟨_, (), walk_far hrange hread hlist, by simp⟩

theorem listEntriesLoop_ends (h : Seg (walk g d 0x0FFFFFFF) (some c) l none) (hn : l.length ≤ n)
    (room : ℕ) : listEntriesLoop g d n c room ≠ none := by
  refine h.returns (f := listEntriesLoop g d) (fun n c room ↦ ?_) hn room
  rw [listEntriesLoop]
  split
  · exact .inl (by simp)
  next hrange =>
  split
  · exact .inl (by simp)
  next hread =>
  dsimp only
  split
  · exact .inl (by simp)
  split
  · exact .inl (by simp)
  next hlist =>
  exact .inr ⟨_, _, walk_far (hrange ∘ Or.imp_right .inl) hread hlist, by simpa using id⟩

theorem readLoop_ends (hpos : 0 < clusterBytes g) (remaining room : ℕ) (hn : remaining < n) :
    readLoop g d n c remaining room ≠ none := by
  induction n generalizing c remaining room with
  | zero => omega
  | succ n ih =>
    rw [readLoop]
    split
    · simp
    split
    · simp
    simp only [ne_eq, Option.map_eq_none_iff]
    exact ih _ _ (by omega)

theorem Ends.search (h : Ends g d limit c) (name : Name) :
    searchChain g d name limit (2 ^ 28) c ≠ none := by
  obtain ⟨l, hl⟩ := h
  exact searchChain_ends hl (Seg.length_le_clusters hl)

end Walks

section Paths

variable {g : Geometry} {d : Disk}

theorem nextComponent_lt {path : Str} (h : path ≠ []) :
    (nextComponent path).2.length < path.length := by
  unfold nextComponent
  dsimp only
  have hdrop := List.length_dropWhile_le (fun c ↦ decide (c = slash))
    (path.drop ((path.takeWhile (· ≠ slash)).take 12).length)
  cases path with
  | nil => exact absurd rfl h
  | cons a path =>
    by_cases ha : a = slash
    · subst ha
      simp only [ne_eq, not_true_eq_false, decide_false, List.takeWhile_cons, Bool.false_eq_true,
        if_false, List.take_nil, List.length_nil, List.drop_zero, List.dropWhile_cons,
        decide_true, if_true, List.length_cons]
      exact Nat.lt_succ_of_le (List.length_dropWhile_le _ _)
    · refine lt_of_le_of_lt hdrop ?_
      simp [ha]

/-- Every directory that a path can lead to comes to an end. -/
def Tame (g : Geometry) (d : Disk) : Prop := ∀ h, Visited g d h → Ends g d 0x0FFFFFFF h

theorem Tame.findEntry (h : Tame g d) {c : ℕ} (hc : Visited g d c) (name : Name) :
    findEntry g d c name ≠ none := by
  simp only [Fat32.findEntry, ne_eq, Option.map_eq_none_iff]
  exact (h c hc).search _

theorem nextComponent_subset (path : Str) :
    (nextComponent path).1 ⊆ path ∧ (nextComponent path).2 ⊆ path :=
  ⟨((List.take_sublist _ _).trans (List.takeWhile_sublist _)).subset,
    ((List.dropWhile_sublist _).trans (List.drop_sublist _ _)).subset⟩

theorem component_nextComponent {path : Str} (h0 : 0 ∉ path) : Component (nextComponent path).1 := by
  refine ⟨fun hmem ↦ ?_, fun hmem ↦ h0 ((nextComponent_subset path).1 hmem), List.length_take_le _ _⟩
  simpa using List.mem_takeWhile_imp (List.mem_of_mem_take hmem)

theorem nextComponent_append {component rest : Str} (hname : Component component)
    (hrest : rest.head? ≠ some slash) :
    nextComponent (component ++ slash :: rest) = (component, rest) := by
  have htake : (component ++ slash :: rest).takeWhile (· ≠ slash) = component := by
    rw [List.takeWhile_append_of_pos, List.takeWhile_cons_of_neg (by simp), List.append_nil]
    intro c hc
    exact decide_eq_true fun h ↦ hname.1 (h ▸ hc)
  have hdrop : rest.dropWhile (· = slash) = rest := by
    cases rest with
    | nil => rfl
    | cons c rest => exact List.dropWhile_cons_of_neg (by simpa using hrest)
  unfold nextComponent
  rw [htake, List.take_of_length_le hname.2.2]
  dsimp only
  rw [List.drop_left, List.dropWhile_cons_of_pos (by simp), hdrop]

theorem resolveLoop_ends (h : Tame g d) {n c : ℕ} {path : Str} (hpath : path ≠ []) (h0 : 0 ∉ path)
    (hn : path.length ≤ n) (hc : Visited g d c) :
    ∃ r, resolveLoop g d n path c = some r ∧
      ∀ e, r = some e → e.isDirectory = true → Visited g d (direntCluster e) := by
  induction n generalizing path c with
  | zero => exact absurd (List.length_eq_zero_iff.1 (by omega)) hpath
  | succ n ih =>
    have hlt := nextComponent_lt hpath
    have hname := component_nextComponent h0
    rw [resolveLoop]
    dsimp only
    cases hfound : findEntry g d c (toShortName (nextComponent path).1) with
    | none => exact absurd hfound (h.findEntry hc _)
    | some r =>
      cases r with
      | none => exact ⟨none, rfl, by simp⟩
      | some e =>
        dsimp only
        split
        · refine ⟨some e, rfl, ?_⟩
          intro e' he' hdir
          obtain rfl : e = e' := Option.some.inj he'
          exact .sub hc hname hfound hdir
        next hrest =>
        split
        · exact ⟨none, rfl, by simp⟩
        next hdir =>
        have h0' : 0 ∉ (nextComponent path).2 := fun hmem ↦
          h0 ((nextComponent_subset path).2 hmem)
        exact ih hrest h0' (by omega) (.sub hc hname hfound (by simpa using hdir))

/-- What a path asks of a directory can be asked from the root. -/
theorem Visited.path {c : ℕ} (hc : Visited g d c) (rest : Str) (hne : rest ≠ [])
    (hhead : rest.head? ≠ some slash) (h0 : 0 ∉ rest) :
    ∃ path, path ≠ [] ∧ path.head? ≠ some slash ∧ 0 ∉ path ∧ ∀ n, path.length ≤ n →
      ∃ m, rest.length ≤ m ∧ resolveLoop g d n path g.rootCluster = resolveLoop g d m rest c := by
  induction hc generalizing rest with
  | root => exact ⟨rest, hne, hhead, h0, fun n hn ↦ ⟨n, hn, rfl⟩⟩
  | @sub h component e _ hname hfound he ih =>
    -- an empty component stands for the same name as a dot
    obtain ⟨component, hname, hnil, hfound⟩ : ∃ component, Component component ∧ component ≠ [] ∧
        findEntry g d h (toShortName component) = some (some e) := by
      by_cases hnil : component = []
      · refine ⟨[dot], ⟨by decide, by decide, by decide⟩, by decide, ?_⟩
        rw [← hfound, hnil]
        rfl
      · exact ⟨component, hname, hnil, hfound⟩
    obtain ⟨path, hpath, hslash, hzero, hsame⟩ := ih (component ++ slash :: rest) (by simp)
      (by
        obtain ⟨a, l, rfl⟩ := List.exists_cons_of_ne_nil hnil
        simp only [List.cons_append, List.head?_cons, ne_eq, Option.some.injEq]
        rintro rfl
        exact hname.1 List.mem_cons_self)
      (by
        simp only [List.mem_append, List.mem_cons, not_or]
        exact ⟨hname.2.1, by decide, h0⟩)
    refine ⟨path, hpath, hslash, hzero, fun n hn ↦ ?_⟩
    obtain ⟨m, hm, heq⟩ := hsame n hn
    rw [List.length_append, List.length_cons] at hm
    obtain ⟨m, rfl⟩ : ∃ k, m = k + 1 := ⟨m - 1, by omega⟩
    refine ⟨m, by omega, ?_⟩
    rw [heq, resolveLoop, nextComponent_append hname hhead]
    dsimp only
    rw [hfound]
    dsimp only
    rw [if_neg hne, if_neg (by simp [he])]

theorem resolveLoop_none {n c : ℕ} {path component : Str} (hpath : (nextComponent path).1 = component)
    (h : findEntry g d c (toShortName component) = none) :
    resolveLoop g d (n + 1) path c = none := by
  rw [resolveLoop]
  dsimp only
  rw [hpath, h]

theorem direntCluster_setDirentCluster (e : Dirent) (c : ℕ) :
    direntCluster (setDirentCluster e c) = c % 2 ^ 32 := by
  simp [direntCluster, setDirentCluster]
  omega

theorem direntCluster_rootEntry (hroot : g.rootCluster < 2 ^ 32) :
    direntCluster (rootEntry g) = g.rootCluster := by
  rw [rootEntry, direntCluster_setDirentCluster, Nat.mod_eq_of_lt hroot]

theorem resolvePath_ends (h : Tame g d) (hroot : g.rootCluster < 2 ^ 32) {path : Str}
    (h0 : 0 ∉ path) :
    ∃ r, resolvePath g d path = some r ∧
      ∀ e, r = some e → e.isDirectory = true → Visited g d (direntCluster e) := by
  unfold resolvePath
  split
  · refine ⟨some (rootEntry g), rfl, ?_⟩
    intro e he _
    obtain rfl : rootEntry g = e := Option.some.inj he
    rw [direntCluster_rootEntry hroot]
    exact .root
  next hpath =>
  cases path with
  | nil => simp at hpath
  | cons a path =>
    simp only [List.head?_cons, Option.some.injEq, List.tail_cons]
    split
    · refine resolveLoop_ends h ?_ (fun hmem ↦ h0 (List.mem_cons_of_mem _ hmem)) le_rfl .root
      rintro rfl
      simp_all
    · exact resolveLoop_ends h (by simp) h0 le_rfl .root

theorem directoryCluster_visited {e : Dirent} (he : Visited g d (direntCluster e)) :
    Visited g d (directoryCluster g e) := by
  unfold directoryCluster
  split
  · exact .root
  · exact he

theorem splitParent_zero {path parent component : Str} (h0 : 0 ∉ path)
    (h : splitParent path = some (parent, component)) : 0 ∉ parent := by
  unfold splitParent at h
  dsimp only at h
  split_ifs at h
  · cases h
    decide
  cases h
  intro hmem
  have hsub := (List.dropWhile_sublist (· = slash)).subset
    (List.mem_reverse.1 (List.mem_of_mem_take hmem))
  exact h0 (List.mem_reverse.1 hsub)

theorem resolveParent_ends (h : Tame g d) (hroot : g.rootCluster < 2 ^ 32) {path : Str}
    (h0 : 0 ∉ path) :
    ∃ r, resolveParent g d path = some r ∧ ∀ x, r = some x → Visited g d x.1 := by
  unfold resolveParent
  split
  · exact ⟨none, rfl, by simp⟩
  next parent component hsplit =>
  obtain ⟨r, hr, hvisited⟩ := resolvePath_ends h hroot (splitParent_zero h0 hsplit)
  rw [hr]
  cases r with
  | none => exact ⟨none, rfl, by simp⟩
  | some dir =>
    dsimp only
    split
    · exact ⟨none, rfl, by simp⟩
    next hdir =>
    refine ⟨_, rfl, ?_⟩
    intro x hx
    obtain ⟨name, -, rfl⟩ := Option.map_eq_some_iff.1 hx
    exact directoryCluster_visited (hvisited dir rfl (by simpa using hdir))

end Paths

section Writing

variable {g : Geometry} {d d' : Disk} {start stop c : ℕ}

theorem getNextCluster_entry (hg : g.Sound start stop) (hc : InRange g c) :
    getNextCluster g d c = (fat32ReadEntry g d c).getD 0x0FFFFFFF := by
  rw [getNextCluster_eq hg.bytes, fat32ReadEntry_eq hg.bytes]
  by_cases hread : d.readable (g.fatStartLba + c * 4 / 512) 1 = true
  · rw [if_pos hread, if_pos ⟨hc, hread⟩]
    rfl
  rw [if_neg hread, if_neg fun h ↦ hread h.2]
  rfl

theorem ends_of_end {limit : ℕ} (h : isEndOfChain c = true) : Ends g d limit c :=
  ⟨[c], rfl, if_pos (.inl h)⟩

theorem marked_congr (h : Same g d d' c) :
    marked g d' c = marked g d c := by
  unfold marked readCluster ahciReadSectors
  rw [h.1]
  split_ifs
  · rw [Bool.eq_iff_iff, List.any_eq_true, List.any_eq_true]
    refine exists_congr fun i ↦ and_congr_right fun hi ↦ ?_
    have hlt : 32 * i < clusterBytes g := by
      rw [List.mem_range, entriesPerCluster] at hi
      omega
    simp only [entryAt, Fin.val_zero, Nat.add_zero, h.2 _ hlt]
  · rfl

section

variable (hg : g.Sound start stop)
include hg

theorem Ends.kept {cs : List ℕ} (h : Ends g d g.maxCluster c)
    (hkept : Kept g cs d d') (hcs : ∀ x ∈ cs, Ends g d' g.maxCluster x) :
    Ends g d' g.maxCluster c := by
  refine h.of_walk fun a b hstep ↦ ?_
  by_cases ha : a ∈ cs
  · exact .inr (hcs a ha)
  obtain ⟨hrange, hmarked, rfl⟩ := walk_some hstep
  have hin : InRange g a := ⟨by omega, by omega⟩
  obtain ⟨hentry, hsame⟩ := hkept a hin ha
  rw [getNextCluster_entry hg hin, hentry, ← getNextCluster_entry hg hin]
  exact .inl (walk_eq hrange (marked_congr hsame ▸ hmarked))

theorem ends_of_entry {next : ℕ} (h : fat32ReadEntry g d c = some next)
    (hnext : Ends g d g.maxCluster next) : Ends g d g.maxCluster c := by
  refine ends_of_next ?_
  rw [getNextCluster_entry hg (fat32ReadEntry_range h), h]
  exact hnext

theorem Chained.ends {first : ℕ} {cs : List ℕ}
    (h : Chained g (fat32ReadEntry g d) first cs) : ∀ c ∈ cs, Ends g d g.maxCluster c := by
  induction cs generalizing first with
  | nil => simp
  | cons a cs ih =>
    obtain rfl : first = a := Option.some.inj h.1.1
    have hin := h.2 first List.mem_cons_self
    have hrange := fun c hc ↦ h.2 c (List.mem_cons_of_mem _ hc)
    have htail := h.1.2
    have hfirst : Ends g d g.maxCluster first ∧ ∀ c ∈ cs, Ends g d g.maxCluster c := by
      cases cs with
      | nil =>
        refine ⟨ends_of_next (ends_of_end ?_), by simp⟩
        have hlink : link (fat32ReadEntry g d) first = none := htail
        rw [getNextCluster_entry hg hin]
        unfold link at hlink
        cases hentry : fat32ReadEntry g d first with
        | none => rfl
        | some next => simpa [hentry] using hlink
      | cons b cs =>
        have hlink : link (fat32ReadEntry g d) first = some b := htail.1
        rw [hlink] at htail
        have hrest := ih ⟨htail, hrange⟩
        obtain ⟨next, hnext, hlink⟩ := Option.bind_eq_some_iff.1 hlink
        split_ifs at hlink
        obtain rfl : next = b := Option.some.inj hlink
        exact ⟨ends_of_entry hg hnext (hrest next List.mem_cons_self), hrest⟩
    exact List.forall_mem_cons.2 hfirst

theorem allocChain_ends (needed first last : ℕ) {first' : ℕ}
    (hlast : last ≠ 0 → fat32ReadEntry g d last = some 0x0FFFFFFF)
    (hresult : (allocChain g needed first last d).1 = some first') (h : Ends g d g.maxCluster c) :
    Ends g (allocChain g needed first last d).2 g.maxCluster c := by
  induction needed generalizing first last d with
  | zero => exact h
  | succ needed ih =>
    rw [allocChain] at hresult ⊢
    rcases halloc : fat32AllocCluster g d with ⟨_ | fresh, d₁⟩
    · rw [halloc] at hresult
      cases hresult
    rw [halloc] at hresult
    obtain ⟨hrange, hfree, hkept, hread⟩ := fat32AllocCluster_some hg halloc
    have hfresh : fat32ReadEntry g d₁ fresh = some 0x0FFFFFFF := by
      rw [hread, Function.update_self]
    have hends : Ends g d₁ g.maxCluster c := h.kept hg hkept
      (List.forall_mem_singleton.2 (ends_of_entry hg hfresh (ends_of_end (by decide))))
    dsimp only at hresult ⊢
    by_cases hzero : last = 0
    · rw [if_pos hzero] at hresult ⊢
      exact ih _ _ (fun _ ↦ hfresh) hresult hends
    rw [if_neg hzero] at hresult ⊢
    by_cases hset : (fat32SetEntry g last fresh d₁).1 = true
    · rw [if_pos hset] at hresult ⊢
      have hne : fresh ≠ last := by
        rintro rfl
        rw [hlast hzero] at hfree
        cases hfree
      have hlastRange := fat32ReadEntry_range (hlast hzero)
      have hsmall : fresh < 2 ^ 28 := by
        have := hrange.2
        have := hg.clusters.2
        omega
      have hread' := fat32ReadEntry_set hg hlastRange hsmall hset
      have hfresh' : fat32ReadEntry g (fat32SetEntry g last fresh d₁).2 fresh =
          some 0x0FFFFFFF := by
        rw [hread', Function.update_of_ne hne, hfresh]
      have hlast' : fat32ReadEntry g (fat32SetEntry g last fresh d₁).2 last = some fresh := by
        rw [hread', Function.update_self]
      refine ih _ _ (fun _ ↦ hfresh') hresult (hends.kept hg
        (kept_set hg hlastRange hsmall hset) (List.forall_mem_singleton.2 ?_))
      exact ends_of_entry hg hlast' (ends_of_entry hg hfresh' (ends_of_end (by decide)))
    · rw [if_neg hset] at hresult
      cases hresult

end

theorem publishFile_returns {parent : ℕ} (h : Ends g d g.maxCluster parent) (name : Name)
    (old : Option Dirent) (first size : ℕ) :
    (publishFile g parent name old first size d).1 ≠ none := by
  have hslot : (fileSlot g old.isSome parent name d).1 ≠ none := by
    unfold fileSlot
    split
    · simp only [ne_eq, Option.map_eq_none_iff]
      exact h.search _
    · simp
  unfold publishFile
  rcases hfound : fileSlot g old.isSome parent name d with ⟨_ | _ | ⟨slotCluster, slot⟩, d₁⟩
  · rw [hfound] at hslot
    exact absurd rfl hslot
  · simp
  dsimp only
  split <;> simp

theorem writeFileIn_returns (hg : g.Sound start stop) {parent : ℕ}
    (h : Ends g d g.maxCluster parent) (name : Name) (old : Option Dirent) (data : List UInt8) :
    (writeFileIn g parent name old data d).1 ≠ none := by
  obtain ⟨-, hchain⟩ := allocChain_spec hg (clustersNeeded g data.length) 0 0 d (.inl ⟨rfl, rfl⟩)
  have hends := fun first (hfirst : _ = some first) ↦
    allocChain_ends hg (clustersNeeded g data.length) 0 0 (fun h ↦ absurd rfl h) hfirst h
  unfold writeFileIn
  rcases hfound : allocChain g (clustersNeeded g data.length) 0 0 d with ⟨_ | first, d₁⟩
  · simp
  rw [hfound] at hchain hends
  dsimp only
  split
  · next hdata =>
    refine publishFile_returns ?_ name old first data.length
    rcases hchain first rfl with ⟨hneeded, -⟩ | ⟨cs, hcs⟩
    · rw [clustersNeeded_zero hg hneeded]
      exact hends first rfl
    obtain ⟨hkept, hread⟩ := (writeData_spec hg first _ data d₁ hcs).2 hdata
    rw [← hread] at hcs
    exact (hends first rfl).kept hg hkept (hcs.ends hg)
  · simp

end Writing

section Calls

variable {s : Volume} {start stop : ℕ} {path : Str}

theorem Tame.search (h : Tame s.geometry s.disk) (hg : s.geometry.Sound start stop) {c : ℕ}
    (hc : Visited s.geometry s.disk c) : Ends s.geometry s.disk s.geometry.maxCluster c :=
  (h c hc).mono (hg.clusters.2.trans (by decide))

theorem clusterBytes_pos {g : Geometry} (hg : g.Sound start stop) : 0 < clusterBytes g := by
  have hsectors := hg.sectors.1
  rw [clusterBytes, hg.bytes]
  omega

section Returns

variable (h : Tame s.geometry s.disk) (hroot : s.geometry.rootCluster < 2 ^ 32) (h0 : 0 ∉ path)
include h hroot h0

theorem fat32IsDirectory_returns : fat32IsDirectory s path ≠ none := by
  obtain ⟨r, hr, -⟩ := resolvePath_ends h hroot h0
  unfold fat32IsDirectory
  split
  · simp
  · simp [hr]

theorem fat32List_returns : fat32List s path ≠ none := by
  obtain ⟨r, hr, hvisited⟩ := resolvePath_ends h hroot h0
  unfold fat32List
  rw [hr]
  split
  · simp
  cases r with
  | none => simp
  | some e =>
    dsimp only
    split
    · simp
    next hdir =>
    obtain ⟨l, hl⟩ := h _ (directoryCluster_visited (hvisited e rfl (by simpa using hdir)))
    simp only [ne_eq, Option.map_eq_none_iff]
    exact listLoop_ends hl (Seg.length_le_clusters hl)

theorem fat32ListEntries_returns (maxEntries : ℤ) : fat32ListEntries s path maxEntries ≠ none := by
  obtain ⟨r, hr, hvisited⟩ := resolvePath_ends h hroot h0
  unfold fat32ListEntries
  rw [hr]
  split
  · simp
  cases r with
  | none => simp
  | some e =>
    dsimp only
    split
    · simp
    next hdir =>
    obtain ⟨l, hl⟩ := h _ (directoryCluster_visited (hvisited e rfl (by simpa using hdir)))
    simp only [ne_eq, Option.map_eq_none_iff]
    exact listEntriesLoop_ends hl (Seg.length_le_clusters hl) _

theorem fat32Mkdir_returns : (fat32Mkdir s path).1 ≠ none := by
  obtain ⟨r, hr, hvisited⟩ := resolveParent_ends h hroot h0
  unfold fat32Mkdir
  rw [hr]
  split
  · simp
  rcases r with _ | ⟨parent, name⟩
  · simp
  have hsearch := h.findEntry (hvisited _ rfl) name
  dsimp only at hsearch ⊢
  split
  · next hnone => exact absurd hnone hsearch
  · simp
  · simp

variable (hg : s.geometry.Sound start stop)
include hg

theorem fat32ReadFile_returns (bufSize : ℕ) : fat32ReadFile s path bufSize ≠ none := by
  obtain ⟨r, hr, -⟩ := resolvePath_ends h hroot h0
  unfold fat32ReadFile
  rw [hr]
  split
  · simp
  cases r with
  | none => simp
  | some e =>
    dsimp only
    split
    · simp
    simp only [ne_eq, Option.map_eq_none_iff]
    exact readLoop_ends (clusterBytes_pos hg) _ _ (Nat.lt_succ_self _)

theorem fat32WriteFile_returns (data : List UInt8) : (fat32WriteFile s path data).1 ≠ none := by
  obtain ⟨r, hr, hvisited⟩ := resolveParent_ends h hroot h0
  unfold fat32WriteFile
  rw [hr]
  split
  · simp
  split
  · simp
  rcases r with _ | ⟨parent, name⟩
  · simp
  have hsearch := h.findEntry (hvisited _ rfl) name
  dsimp only at hsearch ⊢
  split
  · next hnone => exact absurd hnone hsearch
  split
  · simp
  · exact writeFileIn_returns hg (h.search hg (hvisited _ rfl)) name _ data

theorem fat32RemoveFile_returns : (fat32RemoveFile s path).1 ≠ none := by
  obtain ⟨r, hr, hvisited⟩ := resolveParent_ends h hroot h0
  unfold fat32RemoveFile
  rw [hr]
  split
  · simp
  rcases r with _ | ⟨parent, name⟩
  · simp
  have hsearch := (h.search hg (hvisited _ rfl)).search name
  dsimp only [findEntryLocation] at hsearch ⊢
  split
  · next hnone => exact absurd hnone hsearch
  · simp
  · split_ifs <;> simp

theorem fat32RemoveEmptyDir_returns : (fat32RemoveEmptyDir s path).1 ≠ none := by
  obtain ⟨r, hr, hvisited⟩ := resolveParent_ends h hroot h0
  unfold fat32RemoveEmptyDir
  rw [hr]
  split
  · simp
  rcases r with _ | ⟨parent, name⟩
  · simp
  have hsearch := (h.search hg (hvisited _ rfl)).search name
  dsimp only [findEntryLocation] at hsearch ⊢
  split
  · next hnone => exact absurd hnone hsearch
  · simp
  · split_ifs <;> simp

end Returns

def Returns (s : Volume) (path : Str) : Prop :=
  fat32IsDirectory s path ≠ none ∧ fat32List s path ≠ none ∧
    (∀ maxEntries, fat32ListEntries s path maxEntries ≠ none) ∧
    (∀ bufSize, fat32ReadFile s path bufSize ≠ none) ∧
    (∀ data, (fat32WriteFile s path data).1 ≠ none) ∧ (fat32Mkdir s path).1 ≠ none ∧
    (fat32RemoveFile s path).1 ≠ none ∧ (fat32RemoveEmptyDir s path).1 ≠ none

theorem Tame.returns (h : Tame s.geometry s.disk) (hg : s.geometry.Sound start stop)
    (hroot : s.geometry.rootCluster < 2 ^ 32) (h0 : 0 ∉ path) : Returns s path :=
  ⟨fat32IsDirectory_returns h hroot h0, fat32List_returns h hroot h0,
    fat32ListEntries_returns h hroot h0, fat32ReadFile_returns h hroot h0 hg,
    fat32WriteFile_returns h hroot h0 hg, fat32Mkdir_returns h hroot h0,
    fat32RemoveFile_returns h hroot h0 hg, fat32RemoveEmptyDir_returns h hroot h0 hg⟩

/-- A path asks every directory for a name that it does not have. -/
theorem tame_of_isDirectory (hmounted : s.mounted = true)
    (h : ∀ path, 0 ∉ path → fat32IsDirectory s path ≠ none) : Tame s.geometry s.disk := by
  intro c hc
  obtain ⟨path, hpath, hslash, h0, hsame⟩ := hc.path [0xE5] (by simp) (by decide) (by decide)
  obtain ⟨m, hm, heq⟩ := hsame path.length le_rfl
  obtain ⟨m, rfl⟩ : ∃ k, m = k + 1 := ⟨m - 1, by rw [List.length_singleton] at hm; omega⟩
  have hreturns := h path h0
  have hroot : path ≠ [slash] := by
    rintro rfl
    exact hslash rfl
  rw [fat32IsDirectory, hmounted, resolvePath, if_neg (by simp), if_neg (not_or.2 ⟨hpath, hroot⟩)]
    at hreturns
  dsimp only at hreturns
  rw [if_neg hslash, heq] at hreturns
  have hfound : findEntry s.geometry s.disk c (toShortName [0xE5]) ≠ none := by
    intro hnone
    rw [resolveLoop_none (show (nextComponent [0xE5]).1 = [0xE5] by decide) hnone] at hreturns
    exact hreturns rfl
  rw [findEntry, ne_eq, Option.map_eq_none_iff] at hfound
  exact ends_of_search (by decide) hfound

end Calls

/-- Every call returns on every path just if every directory that a path can lead to has a chain
that ends or comes to a cluster that ends the directory. -/
theorem calls_return (s : Volume) (start stop : ℕ) (hg : s.geometry.Sound start stop)
    (hroot : s.geometry.rootCluster < 2 ^ 32) (hmounted : s.mounted = true) :
    (∀ path, 0 ∉ path → Returns s path) ↔ Tame s.geometry s.disk :=
  ⟨fun h ↦ tame_of_isDirectory hmounted fun path h0 ↦ (h path h0).1,
    fun h _ h0 ↦ h.returns hg hroot h0⟩

def emptyVolume : Volume :=
  ⟨true, smallGeometry, ⟨fun _ ↦ 0, fun _ _ ↦ true, fun _ _ ↦ true, []⟩⟩

theorem emptyVolume_findEntry (name : Name) :
    findEntry smallGeometry emptyVolume.disk 2 name = some none := by
  have hread : readCluster smallGeometry emptyVolume.disk 2 = some fun _ ↦ 0 := rfl
  have hentries : searchEntries name (fun _ ↦ 0) (List.range (entriesPerCluster smallGeometry)) =
      some none := rfl
  have hrounds : 2 ^ 28 = 2 ^ 28 - 1 + 1 := by norm_num
  rw [findEntry, hrounds, searchChain_stop (by decide) hread hentries]
  rfl

theorem emptyVolume_visited {h : ℕ} (hvisited : Visited emptyVolume.geometry emptyVolume.disk h) :
    h = 2 := by
  induction hvisited with
  | root => rfl
  | sub hdir _ hfound _ ih =>
    subst ih
    rw [show emptyVolume.geometry = smallGeometry from rfl, emptyVolume_findEntry] at hfound
    cases hfound

theorem emptyVolume_tame : Tame emptyVolume.geometry emptyVolume.disk := by
  intro h hvisited
  rw [emptyVolume_visited hvisited]
  have hstep : walk emptyVolume.geometry emptyVolume.disk 0x0FFFFFFF 2 = none := by decide +kernel
  exact ⟨[2], rfl, hstep⟩

theorem calls_return_empty :
    emptyVolume.mounted = true ∧ ∀ path, 0 ∉ path → Returns emptyVolume path :=
  ⟨rfl, (calls_return emptyVolume 0 134 smallGeometry_sound (by decide) rfl).2 emptyVolume_tame⟩

/-- The root directory is one full cluster that is its own successor. -/
def loopedVolume : Volume where
  mounted := true
  geometry := smallGeometry
  disk := {
    bytes := fun i ↦ if i = 512 * 32 + 8 then 2 else if 512 * 34 ≤ i ∧ i < 512 * 35 then 65 else 0
    readable := fun _ _ ↦ true
    writable := fun _ _ ↦ true
    writes := [] }

theorem loopedVolume_search (n : ℕ) :
    searchChain smallGeometry loopedVolume.disk (toShortName [66]) 0x0FFFFFFF n 2 = none := by
  induction n with
  | zero => rfl
  | succ n ih =>
    have hread : readCluster smallGeometry loopedVolume.disk 2 =
        some fun i ↦ loopedVolume.disk.bytes (512 * 34 + i) := rfl
    have hentries : searchEntries (toShortName [66])
        (fun i ↦ loopedVolume.disk.bytes (512 * 34 + i))
        (List.range (entriesPerCluster smallGeometry)) = none := by decide +kernel
    have hnext : getNextCluster smallGeometry loopedVolume.disk 2 = 2 := by decide +kernel
    rw [searchChain_next (by decide) hread hentries, hnext]
    exact ih

/-- No number of rounds ends the search for a name in a directory whose chain is a cycle. -/
theorem looked_up_for_ever :
    (∀ n, searchChain smallGeometry loopedVolume.disk (toShortName [66]) 0x0FFFFFFF n
      smallGeometry.rootCluster = none) ∧
    fat32IsDirectory loopedVolume [slash, 66] = none := by
  refine ⟨loopedVolume_search, ?_⟩
  have hsearch : findEntry smallGeometry loopedVolume.disk 2 (toShortName [66]) = none := by
    rw [findEntry, loopedVolume_search, Option.map_none]
  have hresolve : resolveLoop smallGeometry loopedVolume.disk 1 [66] 2 = none :=
    resolveLoop_none (show (nextComponent [66]).1 = [66] by decide) hsearch
  have hpath : resolvePath smallGeometry loopedVolume.disk [slash, 66] = none := by
    have hroot : smallGeometry.rootCluster = 2 := rfl
    rw [resolvePath, if_neg (by decide), hroot]
    simp only [List.head?_cons, if_true, List.tail_cons, List.length_singleton]
    rw [hresolve]
  have hgeometry : loopedVolume.geometry = smallGeometry := rfl
  rw [fat32IsDirectory, if_neg (by decide), hgeometry, hpath, Option.map_none]

end NexusOS.Fs.Fat32
