import NexusOS.Shell.ParserGrammar

namespace NexusOS.Shell

variable {σ : Type*}

/-- What the shell calls: the files, the registered commands and the console. A command whose
output is captured returns the text. -/
structure Env (σ : Type*) where
  vfsRead : List Char → σ → Option (List Char)
  vfsWrite : List Char → List Char → σ → Bool × σ
  vfsAppend : List Char → List Char → σ → Bool × σ
  shellCommandExecute : Bool → List Char → List Char → σ → Bool × List Char × σ
  consolePrint : String → σ → σ

def shellIoBufSize : ℕ := 2048

def addArg (args word : List Char) : List Char :=
  ((if args = [] then [] else args ++ [' ']) ++ word).take (shellIoBufSize - 1)

def buildArgs (words : List (List Char)) (input : Option (List Char)) : List Char :=
  let args := words.foldl addArg []
  match input with
  | none | some [] => args
  | some input => addArg args input

section Pipeline

variable (env : Env σ)

/-- The text that a command gets: its redirected input or what comes through the pipe. -/
def commandInput (c : Resolved) (input : Option (List Char)) (s : σ) : Option (Option (List Char)) :=
  match c.redirectIn with
  | none => some input
  | some path => (env.vfsRead path s).map some

def executeOne (c : Resolved) (input : Option (List Char)) (capture : Bool) (s : σ) :
    Bool × List Char × σ :=
  match c.argv with
  | [] => (false, [], s)
  | name :: words =>
    match commandInput env c input s with
    | none =>
      (false, [], env.consolePrint
        ("shell: input file not found: " ++ String.ofList (c.redirectIn.getD []) ++ "\n") s)
    | some input =>
      let r := env.shellCommandExecute capture name (buildArgs words input) s
      if r.1 ∨ capture then (r.1, r.2.1.take (shellIoBufSize - 1), r.2.2)
      else
        (false, [], env.consolePrint ("command not found: " ++ String.ofList name ++
          "\nType 'help' for available commands.\n") r.2.2)

def pipelineStep (c : Resolved) (last : Bool) (input : Option (List Char)) (s : σ) :
    Bool × List Char × σ :=
  let r := executeOne env c input (!last || c.redirectOut.isSome) s
  match r.1, c.redirectOut with
  | true, some path =>
    let w := (if c.append then env.vfsAppend else env.vfsWrite) path r.2.1 r.2.2
    if w.1 then (true, r.2.1, w.2)
    else
      (false, r.2.1, env.consolePrint
        ("shell: cannot redirect output to " ++ String.ofList path ++ "\n") w.2)
  | _, _ => r

/-- The commands from position `i` on, with those that were executed and their results. -/
def executePipeline : List Resolved → ℕ → Option (List Char) → σ → Bool × List (ℕ × Bool) × σ
  | [], _, _, s => (true, [], s)
  | c :: cs, i, input, s =>
    let r := pipelineStep env c cs.isEmpty input s
    if r.1 then
      let q := executePipeline cs (i + 1) (some r.2.1) r.2.2
      (q.1, (i, true) :: q.2.1, q.2.2)
    else (false, [(i, false)], r.2.2)

/-- The number of commands up to the first one that no pipe follows. -/
def pipelineLength : List Resolved → ℕ
  | [] => 0
  | [_] => 1
  | c :: c' :: cs => if c.next = .opPipe then pipelineLength (c' :: cs) + 1 else 1

/-- The loop of `execute` over the commands from position `i` on, in at most `n` rounds; `before`
is the operator in front of them. -/
def executeLoop : ℕ → List Resolved → ℕ → ShellOp → Bool → σ → List (ℕ × Bool) × σ
  | 0, _, _, _, _, s => ([], s)
  | _ + 1, [], _, _, _, s => ([], s)
  | n + 1, c :: cs, i, before, status, s =>
    if before = .opAnd ∧ status = false then executeLoop n cs (i + 1) c.next status s
    else
      let group := (c :: cs).take (pipelineLength (c :: cs))
      let r := executePipeline env group i none s
      let q := executeLoop n ((c :: cs).drop group.length) (i + group.length)
        ((group.getLast?.map Resolved.next).getD .opEnd) r.1 r.2.2
      (r.2.1 ++ q.1, q.2)

/-- The commands that were executed, with their results, and the state. -/
def executeCommands (commands : List Resolved) (s : σ) : List (ℕ × Bool) × σ :=
  executeLoop env commands.length commands 0 .opEnd true s

def execute (line : List Char) (s : σ) : List (ℕ × Bool) × σ :=
  match parse line with
  | .error _ => ([], env.consolePrint "shell: syntax error\n" s)
  | .ok commands => executeCommands env commands s

end Pipeline

section Documented

def addFront (i : ℕ) : List (Bool × List ℕ) → List (Bool × List ℕ)
  | [] => []
  | (conditional, group) :: rest => (conditional, i :: group) :: rest

/-- The groups of commands that are joined by `|`, each with whether it follows `&&`. -/
def groups : Bool → ℕ → List Resolved → List (Bool × List ℕ)
  | _, _, [] => []
  | conditional, i, [_] => [(conditional, [i])]
  | conditional, i, c :: c' :: cs =>
    if c.next = .opPipe then addFront i (groups conditional (i + 1) (c' :: cs))
    else (conditional, [i]) :: groups (c.next = .opAnd) (i + 1) (c' :: cs)

variable (outcome : ℕ → Bool)

def upToFailure : List ℕ → List ℕ
  | [] => []
  | i :: group => if outcome i then i :: upToFailure group else [i]

/-- The commands that are executed according to the documentation. -/
def documented : List (Bool × List ℕ) → Bool → List ℕ
  | [], _ => []
  | (conditional, group) :: rest, status =>
    if conditional ∧ status = false then documented rest status
    else upToFailure outcome group ++ documented rest (group.all outcome)

def SkipsSingles : List (Bool × List ℕ) → Bool → Prop
  | [], _ => True
  | (conditional, group) :: rest, status =>
    if conditional ∧ status = false then group.length = 1 ∧ SkipsSingles rest status
    else SkipsSingles rest (group.all outcome)

end Documented

section Groups

theorem pipelineLength_pos (c : Resolved) (cs : List Resolved) : 0 < pipelineLength (c :: cs) := by
  cases cs with
  | nil => exact Nat.one_pos
  | cons c' cs =>
    rw [pipelineLength]
    split <;> omega

theorem pipelineLength_le (cs : List Resolved) : pipelineLength cs ≤ cs.length := by
  induction cs with
  | nil => exact le_rfl
  | cons c cs ih =>
    cases cs with
    | nil => exact le_rfl
    | cons c' cs =>
      rw [pipelineLength]
      split
      · simpa using ih
      · simp

theorem groups_cons (conditional : Bool) (i : ℕ) (c : Resolved) (cs : List Resolved) :
    groups conditional i (c :: cs) =
      (conditional, List.range' i (pipelineLength (c :: cs))) ::
        groups ((((c :: cs).take (pipelineLength (c :: cs))).getLast?.map Resolved.next).getD .opEnd
          = .opAnd) (i + pipelineLength (c :: cs)) ((c :: cs).drop (pipelineLength (c :: cs))) := by
  induction cs generalizing c i with
  | nil => rfl
  | cons c' cs ih =>
    rw [groups, pipelineLength]
    split_ifs with hpipe
    · obtain ⟨n, hn⟩ : ∃ n, pipelineLength (c' :: cs) = n + 1 :=
        ⟨pipelineLength (c' :: cs) - 1, by have := pipelineLength_pos c' cs; omega⟩
      have hlast : ((c :: c' :: cs).take (n + 1 + 1)).getLast? = ((c' :: cs).take (n + 1)).getLast? :=
        List.getLast?_cons_cons
      have hnext : i + (n + 1 + 1) = i + 1 + (n + 1) := by omega
      rw [ih, addFront, hn, hlast, hnext]
      rfl
    · rfl

theorem groups_skip {i : ℕ} {c : Resolved} {cs : List Resolved}
    (h : pipelineLength (c :: cs) = 1) :
    groups true i (c :: cs) = (true, [i]) :: groups (c.next = .opAnd) (i + 1) cs := by
  rw [groups_cons, h]
  rfl

theorem le_of_mem_groups {conditional : Bool} {i : ℕ} {cs : List Resolved}
    {g : Bool × List ℕ} (hg : g ∈ groups conditional i cs) : ∀ k ∈ g.2, i ≤ k := by
  induction hn : cs.length using Nat.strong_induction_on generalizing conditional i cs with
  | _ n ih =>
    cases cs with
    | nil => cases hg
    | cons c cs =>
      have hpos := pipelineLength_pos c cs
      rw [groups_cons] at hg
      intro k hk
      rcases List.mem_cons.1 hg with rfl | hg
      · exact (List.mem_range'_1.1 hk).1
      have hle := ih _ (by rw [List.length_drop]; simp at hn ⊢; omega) hg rfl k hk
      omega

theorem upToFailure_subset (outcome : ℕ → Bool) (l : List ℕ) : upToFailure outcome l ⊆ l := by
  induction l with
  | nil => exact fun _ hk ↦ hk
  | cons i l ih =>
    rw [upToFailure]
    split
    · exact List.cons_subset_cons i ih
    · exact List.cons_subset_cons i (List.nil_subset l)

theorem le_of_mem_documented {outcome : ℕ → Bool} {gs : List (Bool × List ℕ)} {status : Bool}
    {i k : ℕ} (hgs : ∀ g ∈ gs, ∀ k ∈ g.2, i ≤ k) (hk : k ∈ documented outcome gs status) : i ≤ k := by
  induction gs generalizing status with
  | nil => cases hk
  | cons g gs ih =>
    have hrest := fun g hg ↦ hgs g (List.mem_cons_of_mem _ hg)
    rw [documented] at hk
    split at hk
    · exact ih hrest hk
    rcases List.mem_append.1 hk with hk | hk
    · exact hgs g List.mem_cons_self k (upToFailure_subset _ _ hk)
    · exact ih hrest hk

end Groups

section Trace

variable {env : Env σ} {outcome : ℕ → Bool}

theorem executePipeline_trace (outcome : ℕ → Bool) (cs : List Resolved) (i : ℕ)
    (input : Option (List Char)) (s : σ)
    (h : ∀ p ∈ (executePipeline env cs i input s).2.1, outcome p.1 = p.2) :
    (executePipeline env cs i input s).2.1.map Prod.fst =
        upToFailure outcome (List.range' i cs.length) ∧
      (executePipeline env cs i input s).1 = (List.range' i cs.length).all outcome := by
  induction cs generalizing i input s with
  | nil => exact ⟨rfl, rfl⟩
  | cons c cs ih =>
    rw [executePipeline] at h ⊢
    rw [List.length_cons, List.range'_succ, upToFailure, List.all_cons]
    dsimp only at h ⊢
    split_ifs at h ⊢ with hstep hout hout
    · obtain ⟨htrace, hstatus⟩ := ih _ _ _ fun p hp ↦ h p (List.mem_cons_of_mem _ hp)
      rw [hout, Bool.true_and]
      exact ⟨congrArg (i :: ·) htrace, hstatus⟩
    · exact absurd (h (i, true) List.mem_cons_self) hout
    · have hfalse := h (i, false) List.mem_cons_self
      rw [hout] at hfalse
      cases hfalse
    · have hfalse := h (i, false) List.mem_cons_self
      exact ⟨rfl, by simp [hfalse]⟩

variable (env) in
theorem executePipeline_head (c : Resolved) (cs : List Resolved) (i : ℕ)
    (input : Option (List Char)) (s : σ) :
    ∃ p rest, (executePipeline env (c :: cs) i input s).2.1 = (i, p) :: rest := by
  rw [executePipeline]
  dsimp only
  split
  · exact ⟨_, _, rfl⟩
  · exact ⟨_, _, rfl⟩

variable (env) in
theorem executeLoop_head (n i : ℕ) (c : Resolved) (cs : List Resolved) {before : ShellOp}
    (hbefore : before ≠ .opAnd) (status : Bool) (s : σ) :
    ∃ p rest, (executeLoop env (n + 1) (c :: cs) i before status s).1 = (i, p) :: rest := by
  obtain ⟨k, hk⟩ := Nat.exists_eq_add_of_lt (pipelineLength_pos c cs)
  obtain ⟨p, rest, hrest⟩ := executePipeline_head env c (cs.take k) i none s
  rw [executeLoop, if_neg fun h ↦ hbefore h.1, hk, Nat.zero_add, List.take_succ_cons]
  dsimp only
  rw [hrest]
  exact ⟨p, _, rfl⟩

/-- A group of several commands that is skipped: its second command is run, which is not among the
groups behind it. -/
theorem executeLoop_second {n i : ℕ} {c : Resolved} {cs : List Resolved} (hn : cs.length ≤ n)
    (hlong : pipelineLength (c :: cs) ≠ 1) {gs : List (Bool × List ℕ)}
    (hgs : ∀ g ∈ gs, ∀ k ∈ g.2, i + pipelineLength (c :: cs) ≤ k) (status : Bool) (s : σ) :
    (executeLoop env n cs (i + 1) c.next status s).1.map Prod.fst ≠
      documented outcome gs status := by
  intro heq
  cases cs with
  | nil => exact hlong rfl
  | cons c' cs =>
    have hpos := pipelineLength_pos c' cs
    have hpipe : c.next = .opPipe := by
      by_contra hne
      rw [pipelineLength, if_neg hne] at hlong
      exact hlong rfl
    obtain ⟨k, rfl⟩ : ∃ k, n = k + 1 := ⟨n - 1, by rw [List.length_cons] at hn; omega⟩
    obtain ⟨p, rest, hrest⟩ := executeLoop_head env k (i + 1) c' cs
      (by rw [hpipe]; decide : c.next ≠ .opAnd) status s
    rw [hrest, List.map_cons] at heq
    have hle := le_of_mem_documented hgs (heq ▸ List.mem_cons_self)
    rw [pipelineLength, if_pos hpipe] at hle
    omega

theorem executeLoop_trace {n : ℕ} {cs : List Resolved} (hn : cs.length ≤ n) (i : ℕ)
    (before : ShellOp) (status : Bool) (s : σ)
    (h : ∀ p ∈ (executeLoop env n cs i before status s).1, outcome p.1 = p.2) :
    (executeLoop env n cs i before status s).1.map Prod.fst =
        documented outcome (groups (before = .opAnd) i cs) status ↔
      SkipsSingles outcome (groups (before = .opAnd) i cs) status := by
  induction n generalizing cs i before status s with
  | zero =>
    obtain rfl : cs = [] := List.length_eq_zero_iff.1 (by omega)
    exact iff_of_true rfl trivial
  | succ n ih =>
    cases cs with
    | nil => exact iff_of_true rfl trivial
    | cons c cs =>
      rw [List.length_cons] at hn
      by_cases hcond : before = .opAnd ∧ status = false
      · rw [executeLoop, if_pos hcond] at h ⊢
        have htrue : decide (before = .opAnd) = true := decide_eq_true hcond.1
        rw [htrue]
        by_cases hsingle : pipelineLength (c :: cs) = 1
        · rw [groups_skip hsingle, documented, SkipsSingles, if_pos ⟨rfl, hcond.2⟩,
            if_pos ⟨rfl, hcond.2⟩, ih (by omega) _ _ _ _ h]
          exact (and_iff_right rfl).symm
        rw [groups_cons, documented, SkipsSingles, if_pos ⟨rfl, hcond.2⟩, if_pos ⟨rfl, hcond.2⟩,
          List.length_range']
        exact iff_of_false (executeLoop_second (by omega) hsingle (fun g ↦ le_of_mem_groups) _ _)
          fun hskip ↦ hsingle hskip.1
      · rw [executeLoop, if_neg hcond] at h ⊢
        have hlength : ((c :: cs).take (pipelineLength (c :: cs))).length =
            pipelineLength (c :: cs) := by
          rw [List.length_take]
          exact Nat.min_eq_left (pipelineLength_le _)
        have hcond' : ¬(decide (before = .opAnd) = true ∧ status = false) := by
          rwa [decide_eq_true_iff]
        dsimp only at h ⊢
        obtain ⟨htrace, hstatus⟩ := executePipeline_trace outcome
          ((c :: cs).take (pipelineLength (c :: cs))) i none s
          fun p hp ↦ h p (List.mem_append_left _ hp)
        rw [groups_cons, documented, SkipsSingles, if_neg hcond', if_neg hcond', List.map_append,
          htrace, hlength, List.append_cancel_left_eq]
        rw [hlength] at hstatus h
        rw [← hstatus]
        refine ih ?_ _ _ _ _ fun p hp ↦ h p (List.mem_append_right _ hp)
        have hpos := pipelineLength_pos c cs
        rw [List.length_drop, List.length_cons]
        omega

end Trace

/-- Exactly the documented commands are executed, in order, just if every group that is not to be
run is a single command. -/
theorem execute_documented (env : Env σ) (commands : List Resolved) (s : σ) (outcome : ℕ → Bool)
    (houtcome : ∀ p ∈ (executeCommands env commands s).1, outcome p.1 = p.2) :
    (executeCommands env commands s).1.map Prod.fst =
        documented outcome (groups false 0 commands) true ↔
      SkipsSingles outcome (groups false 0 commands) true :=
  executeLoop_trace le_rfl 0 .opEnd true s houtcome

/-- A shell whose only command that fails is `f`. -/
def sampleEnv : Env Unit where
  vfsRead _ _ := none
  vfsWrite _ _ s := (true, s)
  vfsAppend _ _ s := (true, s)
  shellCommandExecute _ name _ s := (name != ['f'], [], s)
  consolePrint _ s := s

def failsFirst (i : ℕ) : Bool := i != 0

def named (c : Char) (next : ShellOp) : Resolved := ⟨[[c]], next, none, none, false⟩

/-- The commands `f && a ; b | c`. -/
theorem execute_documented_skip :
    (executeCommands sampleEnv
      [named 'f' .opAnd, named 'a' .opSeq, named 'b' .opPipe, named 'c' .opEnd] ()).1.map Prod.fst =
        documented failsFirst [(false, [0]), (true, [1]), (false, [2, 3])] true :=
  (execute_documented sampleEnv
    [named 'f' .opAnd, named 'a' .opSeq, named 'b' .opPipe, named 'c' .opEnd] () failsFirst
    (by decide)).2 (by simp [groups, SkipsSingles, addFront, named, failsFirst])

/-- In `f && a | b` the group behind `&&` must not be run, but `b` is. -/
theorem execute_runs_tail_of_pipeline :
    parse "'f'&&'a'|'b'".toList = .ok [named 'f' .opAnd, named 'a' .opPipe, named 'b' .opEnd] ∧
      (execute sampleEnv "'f'&&'a'|'b'".toList ()).1 = [(0, false), (2, true)] ∧
      documented failsFirst (groups false 0
        [named 'f' .opAnd, named 'a' .opPipe, named 'b' .opEnd]) true = [0] :=
  ⟨rfl, by decide +kernel, by decide⟩

end NexusOS.Shell
