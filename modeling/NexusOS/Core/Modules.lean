import Mathlib.Tactic

namespace NexusOS.Core.Modules

inductive ModuleType
  | builtin
  | driver
  | service
  deriving DecidableEq

/-- A record of the linker section; null pointers are `none`. An `init` function is given by the
result that it returns. -/
structure Descriptor where
  magic : ℕ
  name : Option String
  version : Option String
  type : ModuleType
  priority : ℕ
  init : Option ℤ
  dependencies : List (Option String)

/-- A descriptor that has passed the checks of `copy_registered_modules`. -/
structure Module where
  name : String
  version : Option String
  type : ModuleType
  priority : ℕ
  init : ℤ
  dependencies : List (Option String)

def moduleMagic : ℕ := 0x4D4F4458

def Descriptor.module? (d : Descriptor) : Option Module :=
  match d.name, d.init with
  | some name, some init =>
    if d.magic = moduleMagic then
      some ⟨name, d.version, d.type, d.priority, init, d.dependencies⟩
    else none
  | _, _ => none

/-- The descriptors in `g_runtime`: the valid ones, up to `NEXUS_MODULE_MAX`. -/
def copyRegisteredModules (registered : List Descriptor) : List Module :=
  (registered.filterMap Descriptor.module?).take 32

inductive ModuleState
  | declared
  | loading
  | loaded
  | failed
  deriving DecidableEq

structure Status where
  name : String
  kind : String
  version : String
  ok : Bool
  deriving DecidableEq

/-- The globals apart from the descriptors, with the lines on the console and the calls of the
`init` functions, each with the states that it finds. -/
structure State where
  states : ℕ → ModuleState
  results : ℕ → ℤ
  loaded : ℕ
  failed : ℕ
  dependencyStack : ℕ → Bool
  console : List Status
  calls : List (ℕ × (ℕ → ModuleState))

def bootState : State := ⟨fun _ ↦ .declared, fun _ ↦ 0, 0, 0, fun _ ↦ false, [], []⟩

def moduleManagerInit (s : State) : State :=
  { s with states := fun _ ↦ .declared, results := fun _ ↦ 0, loaded := 0, failed := 0 }

variable (g : List Module)

def moduleIndex (name : Option String) : Option ℕ :=
  match name with
  | none => none
  | some name => g.findIdx? fun r ↦ r.name = name

def priority (i : ℕ) : ℕ := (g[i]?.map Module.priority).getD 0

def nextBest (s : State) (best : Option ℕ) (i : ℕ) : Option ℕ :=
  if s.states i ≠ .declared then best
  else
    match best with
    | none => some i
    | some b => if priority g i < priority g b then some i else some b

def findNextDeclared (s : State) : Option ℕ := (List.range g.length).foldl (nextBest g s) none

def Module.status (r : Module) (ok : Bool) : Status :=
  ⟨r.name, if r.type = .driver then "driver" else "service", r.version.getD "unknown", ok⟩

def State.setState (s : State) (index : ℕ) (state : ModuleState) : State :=
  { s with states := Function.update s.states index state }

def State.setResult (s : State) (index : ℕ) (result : ℤ) : State :=
  { s with results := Function.update s.results index result }

def State.setStack (s : State) (index : ℕ) (on : Bool) : State :=
  { s with dependencyStack := Function.update s.dependencyStack index on }

@[simp]
theorem setStack_stack (s : State) (index k : ℕ) (on : Bool) :
    (s.setStack index on).dependencyStack k = if k = index then on else s.dependencyStack k :=
  Function.update_apply _ _ _ _

@[simp]
theorem setState_states (s : State) (index k : ℕ) (state : ModuleState) :
    (s.setState index state).states k = if k = index then state else s.states k :=
  Function.update_apply _ _ _ _

def State.print (s : State) (line : Status) : State := { s with console := s.console ++ [line] }

def State.countLoaded (s : State) : State := { s with loaded := s.loaded + 1 }

def State.countFailed (s : State) : State := { s with failed := s.failed + 1 }

def dependencyFailed (index : ℕ) (r : Module) (s : State) : State :=
  (((s.setState index .failed).setResult index 0).countFailed.setStack index false).print
    (r.status false)

def runInit (index : ℕ) (r : Module) (s : State) : Bool × State :=
  let s := s.setState index .loading
  let s := { s with calls := s.calls ++ [(index, s.states)] }
  let s := (s.setResult index r.init).setStack index false
  if r.init ≠ 0 then (true, (s.setState index .loaded).countLoaded.print (r.status true))
  else (false, (s.setState index .failed).countFailed.print (r.status false))

/-- The loop over the dependencies; `load` is `module_load_index`. -/
def loadDependencies (load : ℕ → State → Option (Bool × State)) (index : ℕ) :
    List (Option String) → State → Option (Bool × State)
  | [], s => some (true, s)
  | dep :: deps, s =>
    match moduleIndex g dep with
    | none => some (false, s)
    | some depIndex =>
      if depIndex = index ∨ s.dependencyStack depIndex then some (false, s)
      else
        match load depIndex s with
        | none => none
        | some (false, s) => some (false, s)
        | some (true, s) => loadDependencies load index deps s

/-- `module_load_index` with at most `n` nested calls. -/
def moduleLoadIndex : ℕ → ℕ → State → Option (Bool × State)
  | 0, _, _ => none
  | n + 1, index, s =>
    match g[index]? with
    | none => some (false, s)
    | some r =>
      match s.states index with
      | .loaded => some (true, s)
      | .failed | .loading => some (false, s)
      | .declared =>
        match loadDependencies g (moduleLoadIndex n) index r.dependencies
            (s.setStack index true) with
        | none => none
        | some (false, s) => some (false, dependencyFailed index r s)
        | some (true, s) => some (runInit index r s)

def moduleLoad (name : Option String) (s : State) : Option (Bool × State) :=
  match moduleIndex g name with
  | none => some (false, s)
  | some i =>
    match s.states i with
    | .loaded => some (true, s)
    | .loading => some (false, s)
    | _ => moduleLoadIndex g (g.length + 1) i s

/-- At most `n` rounds of `module_load_all`. -/
def loadAllLoop : ℕ → State → Option State
  | 0, _ => none
  | n + 1, s =>
    match findNextDeclared g s with
    | none => some s
    | some i =>
      match moduleLoad g (g[i]?.map Module.name) s with
      | none => none
      | some r => loadAllLoop n r.2

def moduleLoadAll (n : ℕ) (s : State) : Option (ℕ × State) :=
  (loadAllLoop g n s).map fun s' ↦ (if findNextDeclared g s = none then 0 else s'.loaded, s')

def moduleCount : ℕ := g.length

end NexusOS.Core.Modules
