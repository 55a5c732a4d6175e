import Mathlib.Data.Finset.Card
import Mathlib.Data.Finset.Range
import Mathlib.Logic.Relation
import NexusOS.Core.Modules

namespace NexusOS.Core.Modules

open Relation

section Graph

variable (g : List Module)

def Dep (i j : ℕ) : Prop :=
  ∃ r dep, g[i]? = some r ∧ dep ∈ r.dependencies ∧ moduleIndex g dep = some j

inductive Loadable : ℕ → Prop
  | intro {i : ℕ} (r : Module) (hr : g[i]? = some r) (hinit : r.init ≠ 0)
      (hfound : ∀ dep ∈ r.dependencies, moduleIndex g dep ≠ none)
      (hdeps : ∀ j, Dep g i j → Loadable j) : Loadable i

def ReachesCycle (i : ℕ) : Prop := ∃ j, ReflTransGen (Dep g) i j ∧ TransGen (Dep g) j j

variable {g} {i j : ℕ}

section

variable (h : Loadable g i)
include h

theorem Loadable.dep (hdep : Dep g i j) : Loadable g j := by
  obtain ⟨r, hr, hinit, hfound, hdeps⟩ := h
  exact hdeps j hdep

theorem Loadable.reach (hreach : ReflTransGen (Dep g) i j) : Loadable g j := by
  induction hreach with
  | refl => exact h
  | tail _ hdep ih => exact ih.dep hdep

theorem Loadable.acyclic : ¬TransGen (Dep g) i i := by
  induction h with
  | intro r hr hinit hfound hdeps ih =>
    intro hcycle
    obtain ⟨j, hij, hji⟩ := TransGen.head'_iff.1 hcycle
    exact ih j hij (TransGen.tail' hji hij)

theorem Loadable.not_reachesCycle : ¬ReachesCycle g i := by
  rintro ⟨j, hreach, hcycle⟩
  exact (h.reach hreach).acyclic hcycle

end

theorem moduleIndex_lt {name : Option String} (h : moduleIndex g name = some j) : j < g.length := by
  cases name with
  | none => cases h
  | some name => exact (List.findIdx?_eq_some_iff_findIdx_eq.1 h).1

end Graph

section Invariant

variable (g : List Module)

def undecided (s : State) : Finset ℕ :=
  (Finset.range g.length).filter fun i ↦ s.states i = .declared

def offStack (s : State) : Finset ℕ :=
  (Finset.range g.length).filter fun i ↦ s.dependencyStack i = false

/-- The states reached so far are the final ones, and the counters are right. -/
structure Inv (s : State) : Prop where
  loaded : ∀ i, s.states i = .loaded → Loadable g i
  failed : ∀ i, s.states i = .failed → ¬Loadable g i
  loading : ∀ i, s.states i ≠ .loading
  stack : ∀ i, s.dependencyStack i = true → i < g.length ∧ s.states i = .declared
  counts : s.loaded + s.failed + (undecided g s).card = g.length
  once : (s.calls.map Prod.fst).Nodup
  called : ∀ c ∈ s.calls, s.states c.1 ≠ .declared
  ready : ∀ c ∈ s.calls, ∀ r, g[c.1]? = some r → ∀ dep ∈ r.dependencies,
    ∃ j, moduleIndex g dep = some j ∧ c.2 j = .loaded
  logged : ∀ i, s.states i = .loaded → i ∈ s.calls.map Prod.fst

/-- A call decides further modules, but none that was decided or is being loaded. -/
structure Grew (s s' : State) : Prop where
  stack : s'.dependencyStack = s.dependencyStack
  decided : ∀ i, s.states i ≠ .declared → s'.states i = s.states i
  onStack : ∀ i, s.dependencyStack i = true → s'.states i = s.states i

variable {g} {s s' s'' : State} {i j n : ℕ} {r : Module}

theorem Grew.refl (s : State) : Grew s s := ⟨rfl, fun _ _ ↦ rfl, fun _ _ ↦ rfl⟩

theorem Grew.trans (h : Grew s s') (h' : Grew s' s'') : Grew s s'' := by
  refine ⟨h'.stack.trans h.stack, ?_, ?_⟩
  · intro i hi
    have hstate := h.decided i hi
    exact (h'.decided i (hstate ▸ hi)).trans hstate
  · intro i hi
    exact (h'.onStack i (h.stack ▸ hi)).trans (h.onStack i hi)

theorem Inv.setStack (h : Inv g s) (hi : i < g.length) (hstate : s.states i = .declared)
    (on : Bool) : Inv g (s.setStack i on) := by
  refine { h with stack := ?_ }
  intro k hk
  by_cases hki : k = i
  · subst hki
    exact ⟨hi, hstate⟩
  refine h.stack k ?_
  rwa [setStack_stack, if_neg hki] at hk

theorem undecided_setState (hi : i < g.length) (hstate : s.states i = .declared)
    {state : ModuleState} (hne : state ≠ .declared) :
    (undecided g (s.setState i state)).card + 1 = (undecided g s).card := by
  have herase : undecided g (s.setState i state) = (undecided g s).erase i := by
    ext k
    simp only [undecided, State.setState, Finset.mem_filter, Finset.mem_erase, Function.update_apply]
    by_cases hk : k = i
    · simp [hk, hne]
    · simp [hk]
  have hmem : i ∈ undecided g s := by simp [undecided, hi, hstate]
  rw [herase]
  exact Finset.card_erase_add_one hmem

theorem Inv.settle (h : Inv g s) (hi : i < g.length) (hstate : s.states i = .declared)
    {state : ModuleState} (hright : state = .loaded ∧ Loadable g i ∨ state = .failed ∧ ¬Loadable g i)
    (hstates : s'.states = Function.update s.states i state)
    (hstack : s'.dependencyStack = Function.update s.dependencyStack i false)
    (hcount : s'.loaded + s'.failed = s.loaded + s.failed + 1)
    (hcalls : s'.calls = s.calls ∨ ∃ states, s'.calls = s.calls ++ [(i, states)] ∧
      ∀ r, g[i]? = some r → ∀ dep ∈ r.dependencies,
        ∃ j, moduleIndex g dep = some j ∧ states j = .loaded)
    (hlogged : state = .loaded → i ∈ s'.calls.map Prod.fst) : Inv g s' := by
  have hne : state ≠ .declared := by
    rcases hright with ⟨rfl, -⟩ | ⟨rfl, -⟩ <;> decide
  have hat (k : ℕ) : s'.states k = if k = i then state else s.states k := by
    rw [hstates, Function.update_apply]
  have hcard : (undecided g s').card + 1 = (undecided g s).card := by
    have hset : undecided g s' = undecided g (s.setState i state) := by
      rw [undecided, undecided, hstates]
      rfl
    rw [hset]
    exact undecided_setState hi hstate hne
  have hnew : ∀ c ∈ s.calls, c.1 ≠ i := by
    intro c hc heq
    exact h.called c hc (heq ▸ hstate)
  refine ⟨?_, ?_, ?_, ?_, ?_, ?_, ?_, ?_, ?_⟩
  · intro k hk
    rw [hat] at hk
    split_ifs at hk with hki
    · rcases hright with ⟨-, hload⟩ | ⟨hfail, -⟩
      · exact hki ▸ hload
      · rw [hk] at hfail
        cases hfail
    · exact h.loaded k hk
  · intro k hk
    rw [hat] at hk
    split_ifs at hk with hki
    · rcases hright with ⟨hload, -⟩ | ⟨-, hfail⟩
      · rw [hk] at hload
        cases hload
      · exact hki ▸ hfail
    · exact h.failed k hk
  · intro k hk
    rw [hat] at hk
    split_ifs at hk with hki
    · rcases hright with ⟨rfl, -⟩ | ⟨rfl, -⟩ <;> cases hk
    · exact h.loading k hk
  · intro k hk
    rw [hstack, Function.update_apply] at hk
    split_ifs at hk with hki
    obtain ⟨hlt, hdeclared⟩ := h.stack k hk
    exact ⟨hlt, by rw [hat, if_neg hki, hdeclared]⟩
  · have hcounts := h.counts
    omega
  · rcases hcalls with heq | ⟨states, heq, -⟩
    · rw [heq]
      exact h.once
    · rw [heq, List.map_append]
      refine List.Nodup.append h.once (List.nodup_singleton _) ?_
      intro k hk hki
      obtain ⟨c, hc, rfl⟩ := List.mem_map.1 hk
      exact hnew c hc (List.mem_singleton.1 hki)
  · intro c hc
    rw [hat]
    rcases hcalls with heq | ⟨states, heq, -⟩
    · rw [heq] at hc
      rw [if_neg (hnew c hc)]
      exact h.called c hc
    rw [heq] at hc
    rcases List.mem_append.1 hc with hc | hc
    · rw [if_neg (hnew c hc)]
      exact h.called c hc
    rw [List.mem_singleton.1 hc, if_pos rfl]
    exact hne
  · intro c hc
    rcases hcalls with heq | ⟨states, heq, hready⟩
    · rw [heq] at hc
      exact h.ready c hc
    rw [heq] at hc
    rcases List.mem_append.1 hc with hc | hc
    · exact h.ready c hc
    rw [List.mem_singleton.1 hc]
    exact hready
  intro k hk
  rw [hat] at hk
  split_ifs at hk with hki
  · exact hki ▸ hlogged hk
  have hold := h.logged k hk
  rcases hcalls with heq | ⟨states, heq, -⟩
  · rwa [heq]
  rw [heq, List.map_append]
  exact List.mem_append_left _ hold

theorem Grew.settle {state : ModuleState} (hoff : s.dependencyStack i = false)
    (hstate : s.states i = .declared) (h : Grew (s.setStack i true) s')
    (hstates : s''.states = Function.update s'.states i state)
    (hstack : s''.dependencyStack = Function.update s'.dependencyStack i false) : Grew s s'' := by
  refine ⟨?_, ?_, ?_⟩
  · rw [hstack, h.stack, State.setStack, Function.update_idem, ← hoff, Function.update_eq_self]
  · intro k hk
    have hki : k ≠ i := by
      rintro rfl
      exact hk hstate
    rw [hstates, Function.update_of_ne hki]
    exact h.decided k hk
  intro k hk
  have hki : k ≠ i := by
    rintro rfl
    rw [hoff] at hk
    cases hk
  rw [hstates, Function.update_of_ne hki]
  refine h.onStack k ?_
  rw [setStack_stack, if_neg hki]
  exact hk

end Invariant

section Load

variable {g : List Module} {s s' : State} {i j n : ℕ} {r : Module}

structure Loads (g : List Module) (i : ℕ) (s : State) (out : Bool × State) : Prop where
  inv : Inv g out.2
  grew : Grew s out.2
  state : out.2.states i = if out.1 then .loaded else .failed

/-- What `load` has to do for the loop over the dependencies of `i`. -/
def Loader (g : List Module) (i : ℕ) (stack : ℕ → Bool)
    (load : ℕ → State → Option (Bool × State)) : Prop :=
  ∀ j s, Dep g i j → Inv g s → s.dependencyStack = stack → stack j = false →
    ∃ out, load j s = some out ∧ Loads g j s out

theorem loadDependencies_spec {load : ℕ → State → Option (Bool × State)}
    (hload : Loader g i s.dependencyStack load) (hr : g[i]? = some r)
    (hpath : ∀ k, s.dependencyStack k = true → ReflTransGen (Dep g) k i)
    (h : Inv g s) (deps : List (Option String)) (hdeps : ∀ dep ∈ deps, dep ∈ r.dependencies) :
    ∃ b s', loadDependencies g load i deps s = some (b, s') ∧ Inv g s' ∧ Grew s s' ∧
      if b then ∀ dep ∈ deps, ∃ j, moduleIndex g dep = some j ∧ s'.states j = .loaded
      else ¬Loadable g i := by
  induction deps generalizing s with
  | nil => exact ⟨true, s, rfl, h, .refl s, by simp⟩
  | cons dep deps ih =>
    have hmem := hdeps dep List.mem_cons_self
    unfold loadDependencies
    cases hj : moduleIndex g dep with
    | none =>
      refine ⟨false, s, rfl, h, .refl s, ?_⟩
      rintro ⟨r', hr', -, hfound, -⟩
      obtain rfl : r = r' := Option.some.inj (hr.symm.trans hr')
      exact hfound dep hmem hj
    | some j =>
      have hdep : Dep g i j := ⟨r, dep, hr, hmem, hj⟩
      dsimp only
      by_cases hcycle : j = i ∨ s.dependencyStack j = true
      · rw [if_pos hcycle]
        refine ⟨false, s, rfl, h, .refl s, ?_⟩
        intro hloadable
        have hback : ReflTransGen (Dep g) j i := by
          rcases hcycle with rfl | hstack
          · exact .refl
          · exact hpath j hstack
        exact hloadable.acyclic (TransGen.head' hdep hback)
      rw [if_neg hcycle]
      have hoff : s.dependencyStack j = false := by simpa using fun hon ↦ hcycle (.inr hon)
      obtain ⟨⟨b, s₁⟩, hout, hinv, hgrew, hstate⟩ := hload j s hdep h rfl hoff
      rw [hout]
      cases b with
      | false =>
        refine ⟨false, s₁, rfl, hinv, hgrew, ?_⟩
        intro hloadable
        exact hinv.failed j hstate (hloadable.dep hdep)
      | true =>
        have hstack := hgrew.stack
        dsimp only at hstack hinv hstate hgrew ⊢
        obtain ⟨b, s₂, hrest, hinv₂, hgrew₂, hb⟩ := ih (s := s₁) (by rw [hstack]; exact hload)
          (by rw [hstack]; exact hpath) hinv fun d hd ↦ hdeps d (List.mem_cons_of_mem _ hd)
        refine ⟨b, s₂, hrest, hinv₂, hgrew.trans hgrew₂, ?_⟩
        cases b with
        | false => exact hb
        | true =>
          intro d hd
          rcases List.mem_cons.1 hd with rfl | hd
          · refine ⟨j, hj, ?_⟩
            have hloaded : s₁.states j = .loaded := hstate
            rw [hgrew₂.decided j (by rw [hloaded]; decide), hloaded]
          · exact hb d hd

theorem offStack_setStack (hi : i < g.length) (hoff : s.dependencyStack i = false) :
    (offStack g (s.setStack i true)).card + 1 = (offStack g s).card := by
  have herase : offStack g (s.setStack i true) = (offStack g s).erase i := by
    ext k
    simp only [offStack, Finset.mem_filter, Finset.mem_erase, setStack_stack]
    by_cases hk : k = i
    · simp [hk]
    · simp [hk]
  have hmem : i ∈ offStack g s := by simp [offStack, hi, hoff]
  rw [herase]
  exact Finset.card_erase_add_one hmem

theorem runInit_loads (hr : g[i]? = some r) (hi : i < g.length)
    (hoff : s.dependencyStack i = false) (hstate : s.states i = .declared) (h : Inv g s')
    (hgrew : Grew (s.setStack i true) s') (hstate' : s'.states i = .declared)
    (hdeps : ∀ dep ∈ r.dependencies, ∃ j, moduleIndex g dep = some j ∧ s'.states j = .loaded) :
    Loads g i s (runInit i r s') := by
  have hfound : ∀ dep ∈ r.dependencies, moduleIndex g dep ≠ none := by
    intro dep hdep hnone
    obtain ⟨j, hj, -⟩ := hdeps dep hdep
    rw [hnone] at hj
    cases hj
  have hload : ∀ j, Dep g i j → Loadable g j := by
    rintro j ⟨r', dep, hr', hdep, hj⟩
    obtain rfl : r = r' := Option.some.inj (hr.symm.trans hr')
    obtain ⟨j', hj', hloaded⟩ := hdeps dep hdep
    obtain rfl : j' = j := Option.some.inj (hj'.symm.trans hj)
    exact h.loaded j' hloaded
  have hready : ∀ r', g[i]? = some r' → ∀ dep ∈ r'.dependencies, ∃ j,
      moduleIndex g dep = some j ∧ (s'.setState i .loading).states j = .loaded := by
    intro r' hr' dep hdep
    obtain rfl : r = r' := Option.some.inj (hr.symm.trans hr')
    obtain ⟨j, hj, hloaded⟩ := hdeps dep hdep
    have hji : j ≠ i := by
      rintro rfl
      rw [hstate'] at hloaded
      cases hloaded
    refine ⟨j, hj, ?_⟩
    rw [setState_states, if_neg hji]
    exact hloaded
  unfold runInit
  dsimp only
  by_cases hinit : r.init ≠ 0
  · rw [if_pos hinit]
    have hstates : Function.update (Function.update s'.states i .loading) i .loaded =
      Function.update s'.states i .loaded := Function.update_idem _ _ _
    refine ⟨h.settle hi hstate' (.inl ⟨rfl, .intro r hr hinit hfound hload⟩) hstates rfl ?_
      (.inr ⟨_, rfl, hready⟩) (fun _ ↦ by simp [State.print, State.countLoaded, State.setState,
        State.setStack, State.setResult]), hgrew.settle hoff hstate hstates rfl, ?_⟩
    · change s'.loaded + 1 + s'.failed = s'.loaded + s'.failed + 1
      omega
    · exact Function.update_self _ _ _
  rw [if_neg hinit]
  have hbad : ¬Loadable g i := by
    rintro ⟨r', hr', hinit', -, -⟩
    obtain rfl : r = r' := Option.some.inj (hr.symm.trans hr')
    exact hinit hinit'
  have hstates : Function.update (Function.update s'.states i .loading) i .failed =
    Function.update s'.states i .failed := Function.update_idem _ _ _
  refine ⟨h.settle hi hstate' (.inr ⟨rfl, hbad⟩) hstates rfl rfl (.inr ⟨_, rfl, hready⟩)
    ModuleState.noConfusion, hgrew.settle hoff hstate hstates rfl, ?_⟩
  exact Function.update_self _ _ _

theorem dependencyFailed_loads (hi : i < g.length) (hoff : s.dependencyStack i = false)
    (hstate : s.states i = .declared) (h : Inv g s') (hgrew : Grew (s.setStack i true) s')
    (hstate' : s'.states i = .declared) (hbad : ¬Loadable g i) (r : Module) :
    Loads g i s (false, dependencyFailed i r s') :=
  ⟨h.settle hi hstate' (.inr ⟨rfl, hbad⟩) rfl rfl rfl (.inl rfl) ModuleState.noConfusion,
    hgrew.settle hoff hstate rfl rfl, Function.update_self _ _ _⟩

theorem moduleLoadIndex_spec (hi : i < g.length) (h : Inv g s) (hoff : s.dependencyStack i = false)
    (hpath : ∀ k, s.dependencyStack k = true → TransGen (Dep g) k i)
    (hn : (offStack g s).card ≤ n) :
    ∃ out, moduleLoadIndex g n i s = some out ∧ Loads g i s out := by
  induction n generalizing i s with
  | zero =>
    have hmem : i ∈ offStack g s := by simp [offStack, hi, hoff]
    exact absurd (Finset.card_pos.2 ⟨i, hmem⟩) (by omega)
  | succ n ih =>
    have hr : g[i]? = some g[i] := List.getElem?_eq_getElem hi
    unfold moduleLoadIndex
    rw [hr]
    dsimp only
    cases hstate : s.states i with
    | loaded => exact ⟨_, rfl, h, .refl s, hstate⟩
    | failed => exact ⟨_, rfl, h, .refl s, hstate⟩
    | loading => exact absurd hstate (h.loading i)
    | declared =>
      have hcard := offStack_setStack hi hoff
      have hinv := h.setStack hi hstate true
      have hpath' : ∀ k, (s.setStack i true).dependencyStack k = true →
          ReflTransGen (Dep g) k i := by
        intro k hk
        rw [setStack_stack] at hk
        split_ifs at hk with hki
        · rw [hki]
        · exact (hpath k hk).to_reflTransGen
      have hload : Loader g i (s.setStack i true).dependencyStack (moduleLoadIndex g n) := by
        intro j s₁ hdep hinv₁ hstack hj
        obtain ⟨-, dep, -, -, hindex⟩ := id hdep
        have hoff₁ : (offStack g s₁).card ≤ n := by
          have heq : offStack g s₁ = offStack g (s.setStack i true) := by
            rw [offStack, offStack, hstack]
          rw [heq]
          omega
        refine ih (moduleIndex_lt hindex) hinv₁ (by rw [hstack]; exact hj) ?_ hoff₁
        intro k hk
        rw [hstack] at hk
        exact TransGen.tail' (hpath' k hk) hdep
      obtain ⟨b, s', hdeps, hinv', hgrew, hb⟩ := loadDependencies_spec hload hr hpath' hinv
        g[i].dependencies fun dep hdep ↦ hdep
      have hstate' : s'.states i = .declared := by
        rw [hgrew.onStack i (by rw [setStack_stack, if_pos rfl])]
        exact hstate
      rw [hdeps]
      cases b with
      | false => exact ⟨_, rfl, dependencyFailed_loads hi hoff hstate hinv' hgrew hstate' hb _⟩
      | true => exact ⟨_, rfl, runInit_loads hr hi hoff hstate hinv' hgrew hstate' hb⟩

end Load

section LoadAll

variable {g : List Module} {s : State} {i j n : ℕ} {r : Module}

theorem foldl_nextBest (l : List ℕ) :
    match l.foldl (nextBest g s) none with
    | none => ∀ i ∈ l, s.states i ≠ .declared
    | some b => b ∈ l ∧ s.states b = .declared := by
  induction l using List.reverseRecOn with
  | nil => simp
  | append_singleton l i ih =>
    rw [List.foldl_append, List.foldl_cons, List.foldl_nil]
    generalize l.foldl (nextBest g s) none = best at ih ⊢
    unfold nextBest
    by_cases hstate : s.states i ≠ .declared
    · rw [if_pos hstate]
      cases best with
      | none =>
        intro k hk
        rcases List.mem_append.1 hk with hk | hk
        · exact ih k hk
        rw [List.mem_singleton.1 hk]
        exact hstate
      | some b => exact ⟨List.mem_append_left _ ih.1, ih.2⟩
    rw [if_neg hstate]
    rw [not_not] at hstate
    have hlast : i ∈ l ++ [i] := List.mem_append_right _ (List.mem_singleton.2 rfl)
    cases best with
    | none => exact ⟨hlast, hstate⟩
    | some b =>
      dsimp only
      split_ifs
      · exact ⟨hlast, hstate⟩
      · exact ⟨List.mem_append_left _ ih.1, ih.2⟩

theorem findNextDeclared_none (h : findNextDeclared g s = none) (hi : i < g.length) :
    s.states i ≠ .declared := by
  have hfold := foldl_nextBest (g := g) (s := s) (List.range g.length)
  rw [findNextDeclared] at h
  rw [h] at hfold
  exact hfold i (List.mem_range.2 hi)

theorem findNextDeclared_some (h : findNextDeclared g s = some i) :
    i < g.length ∧ s.states i = .declared := by
  have hfold := foldl_nextBest (g := g) (s := s) (List.range g.length)
  rw [findNextDeclared] at h
  rw [h] at hfold
  exact ⟨List.mem_range.1 hfold.1, hfold.2⟩

theorem moduleIndex_some {name : String} (h : moduleIndex g (some name) = some i) :
    ∃ r, g[i]? = some r ∧ r.name = name := by
  obtain ⟨hlt, hname, -⟩ := List.findIdx?_eq_some_iff_getElem.1 h
  exact ⟨g[i], List.getElem?_eq_getElem hlt, by simpa using hname⟩

theorem moduleIndex_name (hnames : (g.map Module.name).Nodup) (hr : g[i]? = some r) :
    moduleIndex g (some r.name) = some i := by
  obtain ⟨hi, rfl⟩ := List.getElem?_eq_some_iff.1 hr
  refine List.findIdx?_eq_some_iff_getElem.2 ⟨hi, by simp, ?_⟩
  intro k hk heq
  have hk' : k < (g.map Module.name).length := by
    rw [List.length_map]
    exact hk.trans hi
  have hname : (g.map Module.name)[k]? = (g.map Module.name)[i]? := by
    simpa [List.getElem?_eq_getElem hi, List.getElem?_eq_getElem (hk.trans hi)] using heq
  exact hk.ne ((List.getElem?_inj hk' hnames).1 hname)

theorem moduleLoad_spec (hnames : (g.map Module.name).Nodup) (h : Inv g s)
    (hoff : ∀ k, s.dependencyStack k = false) (hr : g[i]? = some r)
    (hstate : s.states i = .declared) :
    ∃ out, moduleLoad g (some r.name) s = some out ∧ Loads g i s out := by
  have hi : i < g.length := (List.getElem?_eq_some_iff.1 hr).1
  have hcard : (offStack g s).card ≤ g.length := by
    calc (offStack g s).card ≤ (Finset.range g.length).card := Finset.card_filter_le _ _
      _ = g.length := Finset.card_range _
  unfold moduleLoad
  rw [moduleIndex_name hnames hr]
  dsimp only
  rw [hstate]
  refine moduleLoadIndex_spec hi h (hoff i) ?_ (by omega)
  intro k hk
  rw [hoff k] at hk
  cases hk

theorem undecided_grew {s' : State} (hgrew : Grew s s') (hi : i < g.length)
    (hstate : s.states i = .declared) (hstate' : s'.states i ≠ .declared) :
    (undecided g s').card < (undecided g s).card := by
  apply Finset.card_lt_card
  refine ⟨?_, ?_⟩
  · intro k hk
    simp only [undecided, Finset.mem_filter] at hk ⊢
    refine ⟨hk.1, ?_⟩
    by_contra hk'
    exact hk' ((hgrew.decided k hk').symm.trans hk.2)
  intro hsub
  have hmem : i ∈ undecided g s := by simp [undecided, hi, hstate]
  exact hstate' (Finset.mem_filter.1 (hsub hmem)).2

theorem loadAllLoop_spec (hnames : (g.map Module.name).Nodup) (h : Inv g s)
    (hoff : ∀ k, s.dependencyStack k = false) :
    ∃ s', (∀ n, (undecided g s).card < n → loadAllLoop g n s = some s') ∧ Inv g s' ∧
      ∀ i < g.length, s'.states i ≠ .declared := by
  induction hcard : (undecided g s).card using Nat.strong_induction_on generalizing s with
  | _ c ih =>
    cases hnext : findNextDeclared g s with
    | none =>
      refine ⟨s, ?_, h, fun i hi ↦ findNextDeclared_none hnext hi⟩
      intro n hn
      obtain ⟨n, rfl⟩ := Nat.exists_eq_add_of_lt hn
      rw [loadAllLoop, hnext]
    | some i =>
      obtain ⟨hi, hstate⟩ := findNextDeclared_some hnext
      have hr : g[i]? = some g[i] := List.getElem?_eq_getElem hi
      obtain ⟨out, hout, hinv, hgrew, hdone⟩ := moduleLoad_spec hnames h hoff hr hstate
      have hlt : (undecided g out.2).card < c := by
        rw [← hcard]
        refine undecided_grew hgrew hi hstate ?_
        rw [hdone]
        split_ifs <;> decide
      obtain ⟨s', hloop, hinv', hall⟩ := ih _ hlt hinv (by rw [hgrew.stack]; exact hoff) rfl
      refine ⟨s', ?_, hinv', hall⟩
      intro n hn
      obtain ⟨n, rfl⟩ : ∃ k, n = k + 1 := ⟨n - 1, by omega⟩
      rw [loadAllLoop, hnext]
      dsimp only
      rw [hr, Option.map_some, hout]
      exact hloop n (by omega)

theorem start_inv (g : List Module) : Inv g (moduleManagerInit bootState) := by
  have hcard : (undecided g (moduleManagerInit bootState)).card = g.length := by
    simp [undecided, moduleManagerInit]
  refine ⟨?_, ?_, ?_, ?_, ?_, ?_, ?_, ?_, ?_⟩
  · intro i hi
    cases hi
  · intro i hi
    cases hi
  · intro i hi
    cases hi
  · intro i hi
    cases hi
  · rw [hcard]
    change 0 + 0 + g.length = g.length
    omega
  · exact List.nodup_nil
  · intro c hc
    cases hc
  · intro c hc
    cases hc
  · intro i hi
    cases hi

theorem loadAllLoop_start (hnames : (g.map Module.name).Nodup) :
    ∃ s, (∀ n, g.length < n → loadAllLoop g n (moduleManagerInit bootState) = some s) ∧ Inv g s ∧
      ∀ i < g.length, s.states i ≠ .declared := by
  obtain ⟨s, hloop, hinv, hall⟩ := loadAllLoop_spec hnames (start_inv g) fun _ ↦ rfl
  refine ⟨s, ?_, hinv, hall⟩
  intro n hn
  apply hloop
  have hcard : (undecided g (moduleManagerInit bootState)).card = g.length := by
    simp [undecided, moduleManagerInit]
  omega

theorem moduleLoadAll_loop {start : State} (h : loadAllLoop g n start = some s) :
    moduleLoadAll g n start =
      some (if findNextDeclared g start = none then 0 else s.loaded, s) := by
  rw [moduleLoadAll, h]
  rfl

theorem Inv.loaded_iff (h : Inv g s) (hi : s.states i ≠ .declared) :
    s.states i = .loaded ↔ Loadable g i := by
  refine ⟨h.loaded i, ?_⟩
  intro hload
  cases hstate : s.states i with
  | loaded => rfl
  | failed => exact absurd hload (h.failed i hstate)
  | loading => exact absurd hstate (h.loading i)
  | declared => exact absurd hstate hi

/-- No name leads to slot `k`, which is not the first of its name. -/
def Shadowed (g : List Module) (k : ℕ) : Prop := ∀ name, moduleIndex g name ≠ some k

theorem loadDependencies_shadowed {k : ℕ} (hk : Shadowed g k)
    {load : ℕ → State → Option (Bool × State)}
    (hload : ∀ j s out, j ≠ k → load j s = some out → out.2.states k = s.states k)
    (deps : List (Option String)) {out : Bool × State}
    (h : loadDependencies g load i deps s = some out) : out.2.states k = s.states k := by
  induction deps generalizing s with
  | nil => cases h; rfl
  | cons dep deps ih =>
    rw [loadDependencies] at h
    cases hj : moduleIndex g dep with
    | none =>
      rw [hj] at h
      cases h
      rfl
    | some j =>
      have hjk : j ≠ k := fun heq ↦ hk dep (heq ▸ hj)
      simp only [hj] at h
      split_ifs at h with hcycle
      · cases h
        rfl
      split at h
      · cases h
      · next hout =>
        cases h
        exact hload j s _ hjk hout
      · next hout => exact (ih h).trans (hload j s _ hjk hout)

theorem moduleLoadIndex_shadowed {k : ℕ} (hk : Shadowed g k) {out : Bool × State} (hik : i ≠ k)
    (h : moduleLoadIndex g n i s = some out) : out.2.states k = s.states k := by
  induction n generalizing i s out with
  | zero => cases h
  | succ n ih =>
    have hdeps (r : Module) {out : Bool × State}
        (hout : loadDependencies g (moduleLoadIndex g n) i r.dependencies (s.setStack i true) =
          some out) : out.2.states k = s.states k :=
      (loadDependencies_shadowed hk (fun _ _ _ ↦ ih) r.dependencies hout :)
    rw [moduleLoadIndex] at h
    split at h
    · cases h
      rfl
    next r hr =>
    split at h
    · cases h; rfl
    · cases h; rfl
    · cases h; rfl
    split at h
    · cases h
    · next hout =>
      cases h
      rw [← hdeps r hout]
      exact Function.update_of_ne hik.symm _ _
    next hout =>
    cases h
    rw [← hdeps r hout, runInit]
    split_ifs <;>
      exact (Function.update_of_ne hik.symm _ _).trans (Function.update_of_ne hik.symm _ _)

theorem moduleLoad_shadowed {k : ℕ} (hk : Shadowed g k) {name : Option String}
    {out : Bool × State} (h : moduleLoad g name s = some out) :
    out.2.states k = s.states k := by
  rw [moduleLoad] at h
  split at h
  · cases h; rfl
  next j hj =>
  split at h
  · cases h; rfl
  · cases h; rfl
  · exact moduleLoadIndex_shadowed hk (fun heq ↦ hk name (heq ▸ hj)) h

/-- A slot that no name leads to stays declared, so that the loop never ends. -/
theorem loadAllLoop_shadowed {k : ℕ} (hk : Shadowed g k) (hlt : k < g.length)
    (hstate : s.states k = .declared) : loadAllLoop g n s = none := by
  induction n generalizing s with
  | zero => rfl
  | succ n ih =>
    rw [loadAllLoop]
    cases hnext : findNextDeclared g s with
    | none => exact absurd hstate (findNextDeclared_none hnext hlt)
    | some i =>
      dsimp only
      split
      · rfl
      · next out hout => exact ih ((moduleLoad_shadowed hk hout).trans hstate)

theorem exists_shadowed (hnames : ¬ (g.map Module.name).Nodup) : ∃ k < g.length, Shadowed g k := by
  rw [List.Nodup, List.pairwise_map, List.pairwise_iff_getElem] at hnames
  push Not at hnames
  obtain ⟨i, k, hi, hk, hik, heq⟩ := hnames
  refine ⟨k, hk, fun name hname ↦ ?_⟩
  cases name with
  | none => cases hname
  | some name =>
    obtain ⟨_, hat, hfirst⟩ := List.findIdx?_eq_some_iff_getElem.1 hname
    simp only [decide_eq_true_eq] at hat
    exact hfirst i hik (by simpa [heq] using hat)

/-- `module_load_all` comes to an end with every module counted just if the names are distinct;
otherwise it never ends. -/
theorem module_load_all_ends (registered : List Descriptor) :
    ((∃ answer s, (∀ n, moduleCount (copyRegisteredModules registered) < n →
          moduleLoadAll (copyRegisteredModules registered) n (moduleManagerInit bootState) =
            some (answer, s)) ∧
        s.loaded + s.failed = moduleCount (copyRegisteredModules registered)) ↔
      ((copyRegisteredModules registered).map Module.name).Nodup) ∧
    (¬ ((copyRegisteredModules registered).map Module.name).Nodup →
      ∀ n, moduleLoadAll (copyRegisteredModules registered) n (moduleManagerInit bootState) =
        none) := by
  have hspins : ¬ ((copyRegisteredModules registered).map Module.name).Nodup →
      ∀ n, moduleLoadAll (copyRegisteredModules registered) n (moduleManagerInit bootState) =
        none := by
    intro hnames n
    obtain ⟨k, hlt, hk⟩ := exists_shadowed hnames
    rw [moduleLoadAll, loadAllLoop_shadowed hk hlt rfl]
    rfl
  refine ⟨⟨?_, fun hnames ↦ ?_⟩, hspins⟩
  · rintro ⟨answer, s, hends, -⟩
    by_contra hnames
    have hend := hends _ (Nat.lt_succ_self _)
    rw [hspins hnames] at hend
    cases hend
  obtain ⟨s, hloop, hinv, hall⟩ := loadAllLoop_start hnames
  refine ⟨_, s, fun n hn ↦ moduleLoadAll_loop (hloop n hn), ?_⟩
  have hempty : undecided (copyRegisteredModules registered) s = ∅ := by
    apply Finset.filter_eq_empty_iff.2
    intro i hi
    exact hall i (Finset.mem_range.1 hi)
  have hcounts := hinv.counts
  rw [hempty, Finset.card_empty] at hcounts
  exact hcounts

def driver (name : String) : Descriptor := ⟨moduleMagic, some name, none, .driver, 10, some 1, []⟩

def twins : List Module := copyRegisteredModules [driver "ps2", driver "ps2"]

/-- The name of the second module leads to the first, so that the loop never ends. -/
theorem module_load_all_spins :
    twins.length = 2 ∧ ∀ n, moduleLoadAll twins n (moduleManagerInit bootState) = none := by
  refine ⟨rfl, fun n ↦ ?_⟩
  obtain ⟨k, hlt, hk⟩ := exists_shadowed (g := twins) (by decide)
  rw [moduleLoadAll, loadAllLoop_shadowed hk hlt rfl]
  rfl

end LoadAll

section Order

variable {g g' : List Module} {i j : ℕ} {r : Module}

def Descriptor.unranked (d : Descriptor) : Descriptor := { d with priority := 0 }

def Module.unranked (r : Module) : Module := { r with priority := 0 }

theorem Module.unranked_iff {r r' : Module} : r'.unranked = r.unranked ↔
    r'.name = r.name ∧ r'.version = r.version ∧ r'.type = r.type ∧ r'.init = r.init ∧
      r'.dependencies = r.dependencies := by
  simp [Module.unranked]

theorem module?_unranked (d : Descriptor) :
    d.unranked.module? = d.module?.map Module.unranked := by
  unfold Descriptor.module? Descriptor.unranked
  dsimp only
  split
  · split_ifs <;> rfl
  · rfl

/-- Every module of `g` is in `g'`, perhaps with another priority. -/
def Covers (g g' : List Module) : Prop := ∀ r ∈ g, ∃ r' ∈ g', r'.unranked = r.unranked

theorem moduleIndex_isSome {name : String} (h : ∃ r ∈ g, r.name = name) :
    ∃ i, moduleIndex g (some name) = some i := by
  obtain ⟨r, hr, hname⟩ := h
  cases hi : moduleIndex g (some name) with
  | some i => exact ⟨i, rfl⟩
  | none =>
    have hall := List.findIdx?_eq_none_iff.1 hi r hr
    simp [hname] at hall

theorem Covers.get (h : Covers g g') (hnames : (g'.map Module.name).Nodup) {i' : ℕ} {r' : Module}
    (hr : g[i]? = some r) (hr' : g'[i']? = some r') (hname : r'.name = r.name) :
    r'.unranked = r.unranked := by
  obtain ⟨r₁, hmem, heq⟩ := h r (List.mem_of_getElem? hr)
  obtain ⟨k, hk⟩ := List.mem_iff_getElem?.1 hmem
  have hname₁ : r₁.name = r.name := (Module.unranked_iff.1 heq).1
  have hindex := moduleIndex_name hnames hk
  rw [hname₁, ← hname, moduleIndex_name hnames hr'] at hindex
  obtain rfl : i' = k := Option.some.inj hindex
  obtain rfl : r' = r₁ := Option.some.inj (hr'.symm.trans hk)
  exact heq

theorem Covers.index (h : Covers g g') {dep : Option String} (hj : moduleIndex g dep = some j) :
    ∃ j', moduleIndex g' dep = some j' := by
  cases dep with
  | none => cases hj
  | some name =>
    obtain ⟨r, hr, hname⟩ := moduleIndex_some hj
    obtain ⟨r', hr', heq⟩ := h r (List.mem_of_getElem? hr)
    have hname' : r'.name = r.name := (Module.unranked_iff.1 heq).1
    exact moduleIndex_isSome ⟨r', hr', hname'.trans hname⟩

theorem Loadable.transport (h : Loadable g i) (hcovers : Covers g g')
    (hnames : (g'.map Module.name).Nodup) {i' : ℕ} {r' : Module} (hr : g[i]? = some r)
    (hr' : g'[i']? = some r') (hname : r'.name = r.name) : Loadable g' i' := by
  induction h generalizing i' r r' with
  | intro r₁ hr₁ hinit hfound hdeps ih =>
    obtain rfl : r = r₁ := Option.some.inj (hr.symm.trans hr₁)
    obtain ⟨-, -, -, hinit', hdep⟩ :=
      Module.unranked_iff.1 (hcovers.get hnames hr hr' hname)
    refine .intro r' hr' (hinit' ▸ hinit) ?_ ?_
    · intro dep hmem hnone
      rw [hdep] at hmem
      obtain ⟨j, hj⟩ := Option.ne_none_iff_exists'.1 (hfound dep hmem)
      obtain ⟨j', hj'⟩ := hcovers.index hj
      rw [hnone] at hj'
      cases hj'
    rintro j' ⟨r₂, dep, hr₂, hmem, hj'⟩
    obtain rfl : r' = r₂ := Option.some.inj (hr'.symm.trans hr₂)
    rw [hdep] at hmem
    obtain ⟨j, hj⟩ := Option.ne_none_iff_exists'.1 (hfound dep hmem)
    cases dep with
    | none => cases hj
    | some name =>
      obtain ⟨q, hq, hqname⟩ := moduleIndex_some hj
      obtain ⟨q', hq', hqname'⟩ := moduleIndex_some hj'
      exact ih j ⟨r, _, hr, hmem, hj⟩ hq hq' (hqname'.trans hqname.symm)

theorem states_eq {s s' : State} (hcovers : Covers g g') (hcovers' : Covers g' g)
    (hnames : (g.map Module.name).Nodup) (hnames' : (g'.map Module.name).Nodup)
    (h : Inv g s) (h' : Inv g' s') (hall : ∀ i < g.length, s.states i ≠ .declared)
    (hall' : ∀ i < g'.length, s'.states i ≠ .declared) (name : Option String) :
    (moduleIndex g' name).map s'.states = (moduleIndex g name).map s.states := by
  cases hi : moduleIndex g name with
  | none =>
    cases hi' : moduleIndex g' name with
    | none => rfl
    | some i' =>
      obtain ⟨i, hi₁⟩ := hcovers'.index hi'
      rw [hi] at hi₁
      cases hi₁
  | some i =>
    obtain ⟨i', hi'⟩ := hcovers.index hi
    rw [hi', Option.map_some, Option.map_some]
    cases name with
    | none => cases hi
    | some name =>
      obtain ⟨r, hr, hrname⟩ := moduleIndex_some hi
      obtain ⟨r', hr', hrname'⟩ := moduleIndex_some hi'
      have hname : r'.name = r.name := hrname'.trans hrname.symm
      have hdone := hall i (moduleIndex_lt hi)
      have hdone' := hall' i' (moduleIndex_lt hi')
      have hiff : s'.states i' = .loaded ↔ s.states i = .loaded := by
        rw [h.loaded_iff hdone, h'.loaded_iff hdone']
        exact ⟨fun hload ↦ hload.transport hcovers' hnames hr' hr hname.symm,
          fun hload ↦ hload.transport hcovers hnames' hr hr' hname⟩
      have hloading := h.loading i
      have hloading' := h'.loading i'
      cases hs : s.states i <;> cases hs' : s'.states i' <;> simp_all

theorem covers_copy {registered registered' : List Descriptor}
    (hsub : ∀ d ∈ registered, ∃ d' ∈ registered', d'.unranked = d.unranked)
    (hmax : registered'.length ≤ 32) :
    Covers (copyRegisteredModules registered) (copyRegisteredModules registered') := by
  intro r hr
  obtain ⟨d, hd, hmodule⟩ := List.mem_filterMap.1 (List.mem_of_mem_take hr)
  obtain ⟨d', hd', heq⟩ := hsub d hd
  have hrank : d'.module?.map Module.unranked = some r.unranked := by
    rw [← module?_unranked, heq, module?_unranked, hmodule]
    rfl
  obtain ⟨r', hmodule', hr'⟩ := Option.map_eq_some_iff.1 hrank
  refine ⟨r', ?_, hr'⟩
  rw [copyRegisteredModules, List.take_of_length_le]
  · exact List.mem_filterMap.2 ⟨d', hd', hmodule'⟩
  · exact (List.length_filterMap_le _ _).trans hmax

theorem module?_name {d : Descriptor} {r : Module} (h : d.module? = some r) :
    d.name = some r.name := by
  unfold Descriptor.module? at h
  split at h
  · next name init hname hinit =>
    split_ifs at h
    cases h
    exact hname
  · cases h

theorem copy_names {registered : List Descriptor}
    (hnames : (registered.map Descriptor.name).Nodup) :
    ((copyRegisteredModules registered).map Module.name).Nodup := by
  rw [copyRegisteredModules, List.map_take]
  refine List.Nodup.sublist (List.take_sublist _ _) ?_
  rw [List.Nodup, List.pairwise_map] at hnames ⊢
  rw [List.pairwise_filterMap]
  refine hnames.imp ?_
  intro d d' hne r hr r' hr' heq
  rw [module?_name hr, module?_name hr', heq] at hne
  exact hne rfl

theorem copy_length {registered : List Descriptor} (hmax : registered.length ≤ 32)
    (hvalid : ∀ d ∈ registered, d.module?.isSome) :
    (copyRegisteredModules registered).length = registered.length := by
  have hlength : (registered.filterMap Descriptor.module?).length = registered.length :=
    List.filterMap_length_eq_length.2 hvalid
  rw [copyRegisteredModules, List.length_take, hlength, Nat.min_eq_right hmax]

/-- What `module_load_all` makes of the table `g`, given its calls of `init` and the states at
the end. -/
structure Resolved (g : List Module) (s : State) : Prop where
  once : (s.calls.map Prod.fst).Nodup
  ready : ∀ c ∈ s.calls, ∀ r, g[c.1]? = some r → ∀ dep ∈ r.dependencies,
    ∃ j, moduleIndex g dep = some j ∧ c.2 j = .loaded
  loaded_iff : ∀ i r, g[i]? = some r → (s.states i = .loaded ↔ r.init ≠ 0 ∧
    (∀ dep ∈ r.dependencies, ∃ j, moduleIndex g dep = some j ∧ s.states j = .loaded) ∧
      ¬ReachesCycle g i)
  failed : ∀ i r, g[i]? = some r → s.states i ≠ .loaded → s.states i = .failed
  logged : ∀ i, s.states i = .loaded → i ∈ s.calls.map Prod.fst

theorem Inv.resolved {s : State} (h : Inv g s) (hall : ∀ i < g.length, s.states i ≠ .declared) :
    Resolved g s := by
  refine ⟨h.once, h.ready, ?_, ?_, h.logged⟩
  · intro i r hr
    have hi : i < g.length := (List.getElem?_eq_some_iff.1 hr).1
    rw [h.loaded_iff (hall i hi)]
    refine ⟨?_, ?_⟩
    · intro hload
      refine ⟨?_, ?_, hload.not_reachesCycle⟩
      · obtain ⟨r₁, hr₁, hinit, -, -⟩ := hload
        obtain rfl : r = r₁ := Option.some.inj (hr.symm.trans hr₁)
        exact hinit
      intro dep hmem
      obtain ⟨r₁, hr₁, -, hfound, hdeps⟩ := hload
      obtain rfl : r = r₁ := Option.some.inj (hr.symm.trans hr₁)
      obtain ⟨j, hj⟩ := Option.ne_none_iff_exists'.1 (hfound dep hmem)
      exact ⟨j, hj, (h.loaded_iff (hall j (moduleIndex_lt hj))).2 (hdeps j ⟨r, dep, hr, hmem, hj⟩)⟩
    rintro ⟨hinit, hdeps, -⟩
    refine .intro r hr hinit ?_ ?_
    · intro dep hmem hnone
      obtain ⟨j, hj, -⟩ := hdeps dep hmem
      rw [hnone] at hj
      cases hj
    rintro j ⟨r₁, dep, hr₁, hmem, hj⟩
    obtain rfl : r = r₁ := Option.some.inj (hr.symm.trans hr₁)
    obtain ⟨j', hj', hstate⟩ := hdeps dep hmem
    obtain rfl : j = j' := Option.some.inj (hj.symm.trans hj')
    exact h.loaded j hstate
  · intro i r hr hne
    have hi : i < g.length := (List.getElem?_eq_some_iff.1 hr).1
    have hdeclared := hall i hi
    have hloading := h.loading i
    cases hs : s.states i <;> simp_all

/-- The same descriptors in another order and with other priorities. -/
def Reordered (registered registered' : List Descriptor) : Prop :=
  (registered'.map Descriptor.unranked).Perm (registered.map Descriptor.unranked)

section

variable {registered registered' : List Descriptor}

section

variable (h : Reordered registered registered')
include h

theorem Reordered.length : registered'.length = registered.length := by
  simpa using h.length_eq

theorem Reordered.names :
    (registered'.map Descriptor.name).Perm (registered.map Descriptor.name) := by
  have hperm := h.map Descriptor.name
  rw [List.map_map, List.map_map] at hperm
  exact hperm

theorem Reordered.symm : Reordered registered' registered :=
  List.Perm.symm h

theorem Reordered.covers (hmax : registered'.length ≤ 32) :
    Covers (copyRegisteredModules registered) (copyRegisteredModules registered') := by
  refine covers_copy ?_ hmax
  intro d hd
  have hmem : d.unranked ∈ registered'.map Descriptor.unranked :=
    h.mem_iff.2 (List.mem_map_of_mem hd)
  exact List.mem_map.1 hmem

end

end

end Order

/-- `module_load_all` loads what can be loaded, whatever the order of the table. -/
theorem modules_resolved (registered : List Descriptor) (hmax : registered.length ≤ 32)
    (hvalid : ∀ d ∈ registered, d.module?.isSome)
    (hnames : (registered.map Descriptor.name).Nodup) :
    ∃ answer s, (∀ n, (copyRegisteredModules registered).length < n →
        moduleLoadAll (copyRegisteredModules registered) n (moduleManagerInit bootState) =
          some (answer, s)) ∧
      (copyRegisteredModules registered).length = registered.length ∧
      Resolved (copyRegisteredModules registered) s ∧
      ∀ registered', Reordered registered registered' → ∃ answer' s',
        (∀ n, (copyRegisteredModules registered').length < n →
          moduleLoadAll (copyRegisteredModules registered') n (moduleManagerInit bootState) =
            some (answer', s')) ∧
        ∀ name, (moduleIndex (copyRegisteredModules registered') name).map s'.states =
          (moduleIndex (copyRegisteredModules registered) name).map s.states := by
  have hdistinct := copy_names hnames
  obtain ⟨s, hloop, hinv, hall⟩ := loadAllLoop_start hdistinct
  refine ⟨_, s, fun n hn ↦ moduleLoadAll_loop (hloop n hn), ?_, hinv.resolved hall, ?_⟩
  · exact copy_length hmax hvalid
  intro registered' hsame
  have hmax' : registered'.length ≤ 32 := hsame.length ▸ hmax
  have hdistinct' := copy_names (hsame.names.nodup_iff.2 hnames)
  obtain ⟨s', hloop', hinv', hall'⟩ := loadAllLoop_start hdistinct'
  refine ⟨_, s', fun n hn ↦ moduleLoadAll_loop (hloop' n hn), ?_⟩
  exact states_eq (hsame.covers hmax') (hsame.symm.covers hmax) hdistinct hdistinct' hinv hinv'
    hall hall'

def needs (name dep : String) : Descriptor :=
  { driver name with dependencies := [some dep] }

theorem modules_resolved_cycle :
    ∃ answer s, (∀ n, 3 < n → moduleLoadAll (copyRegisteredModules
        [needs "a" "b", needs "b" "a", needs "c" "d"]) n (moduleManagerInit bootState) =
          some (answer, s)) ∧
      Resolved (copyRegisteredModules [needs "a" "b", needs "b" "a", needs "c" "d"]) s := by
  obtain ⟨answer, s, hload, -, hresolved, -⟩ :=
    modules_resolved [needs "a" "b", needs "b" "a", needs "c" "d"] (by decide) (by decide)
      (by decide)
  exact ⟨answer, s, hload, hresolved⟩

end NexusOS.Core.Modules
