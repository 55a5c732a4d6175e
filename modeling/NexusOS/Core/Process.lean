import NexusOS.Core.Kernel

namespace NexusOS.Core

variable {V : Type*} (m : Memory V)

def processUserBase : ℕ := 0x400000

def processUserLimit : ℕ := 0x7FFFFFFFF000

def processUserMaxPages : ℕ := 16

def capAll : ℕ := 0x7FF

/-- The bits of `VMM_PAGE_PRESENT`, `VMM_PAGE_WRITABLE` and `VMM_PAGE_USER`. -/
def pagePresent : ℕ := 1

def pageWritable : ℕ := 2

def pageUser : ℕ := 4

def processGet (k : Kernel V) (pid : ℕ) : Option (Fin 8) :=
  if !k.processReady ∨ pid = 0 then none
  else (List.finRange 8).find? fun i ↦
    (k.processes i).state != .unused && (k.processes i).pid == pid

theorem processGet_some {k : Kernel V} {pid : ℕ} {i : Fin 8} (h : processGet k pid = some i) :
    (k.processes i).state ≠ .unused ∧ (k.processes i).pid = pid := by
  unfold processGet at h
  split_ifs at h
  have := List.find?_some h
  simpa using this

theorem processGet_congr {k k' : Kernel V} (hready : k'.processReady = k.processReady)
    (hp : ∀ i, (k'.processes i).state = (k.processes i).state ∧
      (k'.processes i).pid = (k.processes i).pid) (pid : ℕ) :
    processGet k' pid = processGet k pid := by
  simp only [processGet, hready, hp]

def findUnused (k : Kernel V) : Option (Fin 8) :=
  (List.finRange 8).find? fun i ↦ (k.processes i).state == .unused

/-- The next process identifier, 0 being skipped, and the counter behind it. -/
def takePid (next : ℕ) : ℕ × ℕ :=
  if next = 0 then (1, 2) else (next, (next + 1) % 2 ^ 64)

def unusedFd : Fd := ⟨.unused, 0, 0, 0, []⟩

def consoleFds (i : Fin 16) : Fd :=
  if i = 0 then { unusedFd with type := .stdinConsole }
  else if i = 1 then { unusedFd with type := .stdoutConsole }
  else if i = 2 then { unusedFd with type := .stderrConsole }
  else unusedFd

/-- The fields that `process_create` writes before it asks for an address space. -/
def announced (p : Process) (pid parentPid capabilities ticks : ℕ) : Process :=
  { p with
    pid := pid
    parentPid := parentPid
    capabilities := capabilities
    startTick := ticks
    cpuTicks := 0
    heapBase := 0x10000000
    heapEnd := 0x10000000
    memoryLimitBytes := 0
    priority := 16
    env := []
    name := []
    cwd := [47] }

/-- The fields that `process_create` writes once it has one. -/
def created (p : Process) (cr3 : ℕ) : Process :=
  { p with
    addressSpaceCr3 := cr3
    userEntry := 0
    userStackBase := 0
    userStackSize := 0
    userPagesReserved := 0
    userPageBase := 0
    userPages := []
    kernelStack := 0
    schedulerThreadId := 0
    ipcHandles := fun _ ↦ 0
    fds := consoleFds
    exitCode := 0
    exitReason := 0
    flags := 0
    state := .ready }

def parentCapabilities (k : Kernel V) (parentPid : ℕ) : ℕ :=
  match processGet k parentPid with
  | some j => (k.processes j).capabilities
  | none => capAll

/-- `ticks` is what `scheduler_ticks` answers. -/
def processCreate (k : Kernel V) (ticks parentPid : ℕ) : ℕ × Kernel V :=
  if !k.processReady then (0, k)
  else
    match findUnused k with
    | none => (0, k)
    | some i =>
      let pid := (takePid k.nextPid).1
      let p := announced (k.processes i) pid parentPid (parentCapabilities k parentPid) ticks
      let space := m.pagingCreateAddressSpace k.vm
      let k := { k with nextPid := (takePid k.nextPid).2, vm := space.2 }
      if space.1 = 0 then
        (0, k.setProcess i { p with addressSpaceCr3 := 0, state := .unused })
      else
        (pid, { k.setProcess i (created p space.1) with
          processCount := (k.processCount + 1) % 2 ^ 64 })

def processSetCurrent (k : Kernel V) (pid : ℕ) : Bool × Kernel V :=
  match processGet k pid with
  | none => (false, k)
  | some i =>
    if (k.processes i).state ≠ .ready ∧ (k.processes i).state ≠ .running then (false, k)
    else
      let k : Kernel V := match processGet k k.currentPid with
        | none => k
        | some j =>
          if j ≠ i ∧ (k.processes j).state = .running then
            k.setProcess j { k.processes j with state := .ready }
          else k
      (true, { k.setProcess i { k.processes i with state := .running } with currentPid := pid })

def processClearCurrent (k : Kernel V) : Kernel V :=
  let k : Kernel V := match processGet k k.currentPid with
    | none => k
    | some j =>
      if (k.processes j).state = .running then
        k.setProcess j { k.processes j with state := .ready }
      else k
  { k with currentPid := 0 }

section UserMemory

def releaseUserPage (cr3 : ℕ) (v : V) (u : UserPage) : V :=
  let v := if cr3 ≠ 0 ∧ u.va ≠ 0 then (m.pagingUnmapPageInCr3 cr3 u.va v).2 else v
  if u.phys ≠ 0 then m.pmmFreePage u.phys v else v

/-- `~PROCESS_FLAG_USER_MEMORY` clears bit 1 of the 32-bit flags. -/
def clearUserMemoryFlag (flags : ℕ) : ℕ := flags &&& 0xFFFFFFFD

def processUnmapUserMemory (k : Kernel V) (pid : ℕ) : Bool × Kernel V :=
  match processGet k pid with
  | none => (false, k)
  | some i =>
    let p := k.processes i
    let vm := p.userPages.foldl (releaseUserPage m p.addressSpaceCr3) k.vm
    (true, { k.setProcess i { p with
      userPages := []
      userPageBase := 0
      userPagesReserved := 0
      flags := clearUserMemoryFlag p.flags } with vm := vm })

/-- A failed mapping is one whose code is 0, as the source tests it. -/
def processMapUserPage (k : Kernel V) (pid va flags : ℕ) : Bool × Kernel V :=
  if !k.processReady ∨ va % 4096 ≠ 0 ∨ va < processUserBase ∨ processUserLimit ≤ va then (false, k)
  else
    match processGet k pid with
    | none => (false, k)
    | some i =>
      let p := k.processes i
      if p.state = .zombie ∨ processUserMaxPages ≤ p.userPages.length then (false, k)
      else if p.userPages.any (·.va == va) then (false, k)
      else
        let page := m.pmmAllocPage k.vm
        if page.1 = 0 then (false, { k with vm := page.2 })
        else
          let r := m.pagingMapPageInCr3 p.addressSpaceCr3 va page.1
            (pagePresent ||| pageUser ||| flags) page.2
          if r.1 = 0 then (false, { k with vm := m.pmmFreePage page.1 r.2 })
          else
            (true, { k.setProcess i { p with
              userPages := p.userPages ++ [⟨va, page.1, flags⟩]
              flags := p.flags ||| 2 } with vm := m.zeroPage page.1 r.2 })

/-- Map `n` pages from page `i` on; on a failure the number of pages mapped so far. -/
def mapPages (pid base flags : ℕ) : ℕ → ℕ → Kernel V → Except (ℕ × Kernel V) (Kernel V)
  | 0, _, k => .ok k
  | n + 1, i, k =>
    let r := processMapUserPage m k pid ((base + i * 4096) % 2 ^ 64) flags
    if r.1 then mapPages pid base flags n (i + 1) r.2 else .error (i, r.2)

def processMapUserMemory (k : Kernel V) (pid base pages : ℕ) : Bool × Kernel V :=
  if pages = 0 ∨ processUserMaxPages < pages ∨
      (processUserLimit + 2 ^ 64 - base) % 2 ^ 64 / 4096 < pages ∨ base % 4096 ≠ 0 then (false, k)
  else
    match processGet k pid with
    | none => (false, k)
    | some i =>
      if (k.processes i).state = .zombie ∨ (k.processes i).userPages ≠ [] then (false, k)
      else
        match mapPages m pid base pageWritable pages 0 k with
        | .error (_, k) => (false, (processUnmapUserMemory m k pid).2)
        | .ok k => (true, k.setProcess i { k.processes i with
            userPageBase := base
            userPagesReserved := pages })

/-- The loop of `process_unmap_user_range` over the `n` records from position `i` on. A record in
the range is overwritten by the last one, which is looked at next. -/
def unmapRangeLoop (cr3 base stop : ℕ) : ℕ → ℕ → List UserPage → V → List UserPage × V
  | 0, _, pages, v => (pages, v)
  | n + 1, i, pages, v =>
    match pages[i]? with
    | none => (pages, v)
    | some u =>
      if base ≤ u.va ∧ u.va < stop then
        let v := if cr3 ≠ 0 then (m.pagingUnmapPageInCr3 cr3 u.va v).2 else v
        let v := if u.phys ≠ 0 then m.pmmFreePage u.phys v else v
        unmapRangeLoop cr3 base stop n i ((pages.set i (pages.getLastD u)).dropLast) v
      else unmapRangeLoop cr3 base stop n (i + 1) pages v

def processUnmapUserRange (k : Kernel V) (pid base size : ℕ) : Bool × Kernel V :=
  match processGet k pid with
  | none => (false, k)
  | some i =>
    let stop := (base + size) % 2 ^ 64
    if size = 0 ∨ base % 4096 ≠ 0 ∨ size % 4096 ≠ 0 ∨ stop < base then (false, k)
    else
      let p := k.processes i
      let r := unmapRangeLoop m p.addressSpaceCr3 base stop p.userPages.length 0 p.userPages k.vm
      (true, { k.setProcess i { p with userPages := r.1 } with vm := r.2 })

def heapStart (p : Process) : ℕ :=
  if p.heapEnd < processUserBase ∨ processUserLimit ≤ p.heapEnd then 0x10000000 else p.heapEnd

def processAllocUserRange (k : Kernel V) (pid pages flags : ℕ) : ℕ × Kernel V :=
  match processGet k pid with
  | none => (0, k)
  | some i =>
    let p := k.processes i
    let base := heapStart p
    let bytes := pages * 4096 % 2 ^ 64
    if p.state = .zombie ∨ pages = 0 then (0, k)
    else if processUserMaxPages < (p.userPages.length + pages) % 2 ^ 64 then (0, k)
    else if bytes / pages ≠ 4096 ∨ (processUserLimit + 2 ^ 64 - bytes) % 2 ^ 64 < base then (0, k)
    else
      match mapPages m pid base flags pages 0 k with
      | .error (j, k) => (0, (processUnmapUserRange m k pid base (j * 4096)).2)
      | .ok k => (base, k.setProcess i { k.processes i with heapEnd := (base + bytes) % 2 ^ 64 })

end UserMemory

end NexusOS.Core
