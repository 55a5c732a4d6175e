import NexusOS.Core.Syscall
import NexusOS.Core.IpcSteps
import NexusOS.Core.SchedulerRun
import NexusOS.Fs.MountResolve
import NexusOS.Fs.VfsSteps

namespace NexusOS.Core

open Fs Sched

variable {V F : Type*} {m : Hardware V} {fat : Fat F} {s : Machine V F} {v : Vfs F}
  {g g' : Garbage} {path : Str}

section Buffers

theorem takeWhile_range'_congr {p q : ℕ → Bool} {k : ℕ} (hpq : ∀ i ≤ k, p i = q i)
    (hk : p k = false) (a n : ℕ) (ha : a ≤ k) :
    (List.range' a n).takeWhile p = (List.range' a n).takeWhile q ∧
      a + ((List.range' a n).takeWhile p).length ≤ k := by
  induction n generalizing a with
  | zero => simpa using ha
  | succ n ih =>
    rw [List.range'_succ, List.takeWhile_cons, List.takeWhile_cons, ← hpq a ha]
    by_cases hp : p a = true
    · have hak : a ≠ k := by
        intro heq
        rw [heq, hk] at hp
        cases hp
      obtain ⟨heq, hlen⟩ := ih (a + 1) (by omega)
      rw [if_pos hp, if_pos hp, heq]
      refine ⟨rfl, ?_⟩
      rw [heq] at hlen
      simp only [List.length_cons]
      omega
    · rw [if_neg hp, if_neg hp]
      exact ⟨rfl, by simpa using ha⟩

theorem writeString_congr (old old' : ℕ → UInt8) (str : Str) {i : ℕ} (hi : i ≤ str.length) :
    writeString old str i = writeString old' str i := by
  unfold writeString
  by_cases hlt : i < str.length
  · rw [if_pos hlt, if_pos hlt]
  · rw [if_neg hlt, if_neg hlt, if_pos (by omega), if_pos (by omega)]

theorem cString_writeString (old old' : ℕ → UInt8) (str : Str) (limit : ℕ) :
    cString (writeString old str) limit = cString (writeString old' str) limit := by
  have hstop : writeString old str str.length = 0 := by
    simp [writeString]
  obtain ⟨heq, hlen⟩ := takeWhile_range'_congr
    (p := fun i ↦ writeString old str i ≠ 0) (q := fun i ↦ writeString old' str i ≠ 0)
    (k := str.length) (fun i hi ↦ by rw [writeString_congr old old' str hi])
    (by rw [hstop]; rfl) 0 (limit - 1) (Nat.zero_le _)
  rw [← List.range_eq_range'] at heq hlen
  unfold cString
  rw [← heq]
  apply List.map_congr_left
  intro i hi
  rw [List.mem_range] at hi
  exact writeString_congr old old' str (by omega)

theorem map_filled (g : Garbage) (bytes : List UInt8) :
    (List.range bytes.length).map (filled g bytes) = bytes := by
  apply List.ext_getElem
  · simp
  intro i h₁ h₂
  simp [filled, h₂]

end Buffers

section Lookups

/-- The mountpoint buffer is not looked at before it is written: there is no volume, nothing is
mounted, or the path has a mount. -/
def Determined (fat : Fat F) (v : Vfs F) (path : Str) : Prop :=
  fat.isMounted v.fat = false ∨ vfsMountCount v.mounts = 0 ∨
    ∀ abs, normalizeAbsolute v path = some abs → vfsMountResolve v.mounts abs ≠ none

theorem fatRelative_within {full mountpoint : Str} (h : mountpoint.length ≤ full.length)
    (behind behind' : ℕ → UInt8) :
    fatRelative full mountpoint behind = fatRelative full mountpoint behind' := by
  simp only [fatRelative, stringAt, if_pos h]

theorem Determined.fatRoute {abs : Str} (h : Determined fat v path)
    (habs : normalizeAbsolute v path = some abs) (junk junk' : Stale) :
    fatRoute fat v abs junk = fatRoute fat v abs junk' := by
  rcases h with hm | hcount | h
  · rw [fatRoute_unmounted hm, fatRoute_unmounted hm]
  · simp [Fs.fatRoute, pathIsMount, hcount]
  obtain ⟨i, hi⟩ := Option.ne_none_iff_exists'.1 (h abs habs)
  have hrelative :=
    fatRelative_within (vfsMountResolve_isPrefix hi).length_le junk.behind junk'.behind
  by_cases hcount : vfsMountCount v.mounts = 0
  · simp [Fs.fatRoute, pathIsMount, hcount]
  · simp [Fs.fatRoute, pathIsMount, hcount, hi, hrelative]

theorem Determined.fileSize (h : Determined fat v path) (junk junk' : Stale) :
    vfsFileSizePath fat v path junk = vfsFileSizePath fat v path junk' := by
  unfold vfsFileSizePath
  cases habs : normalizeAbsolute v path with
  | none => rfl
  | some abs => simp only [h.fatRoute habs junk junk']

/-- The root is a directory before its mount is looked for. -/
def DeterminedDir (fat : Fat F) (v : Vfs F) (path : Str) : Prop :=
  normalizeAbsolute v path = some [slash] ∨ Determined fat v path

theorem DeterminedDir.isDir (h : DeterminedDir fat v path) (junk junk' : Stale) :
    vfsIsDirPath fat v path junk = vfsIsDirPath fat v path junk' := by
  unfold vfsIsDirPath
  rcases h with hroot | h
  · simp only [hroot, if_true]
  cases habs : normalizeAbsolute v path with
  | none => rfl
  | some abs => simp only [h.fatRoute habs junk junk']

theorem Determined.read (h : Determined fat v path) (buffer : Bool) (capacity offset : ℕ)
    (junk junk' : Stale) : vfsReadPath fat v path buffer capacity offset junk =
      vfsReadPath fat v path buffer capacity offset junk' := by
  unfold vfsReadPath
  cases habs : normalizeAbsolute v path with
  | none => rfl
  | some abs => simp only [h.fatRoute habs junk junk']

theorem Determined.write (h : Determined fat v path) (buffer : Option (List UInt8)) (offset : ℕ)
    (junk junk' : Stale) : vfsWritePath fat v path buffer offset junk =
      vfsWritePath fat v path buffer offset junk' := by
  unfold vfsWritePath
  cases buffer with
  | none => rfl
  | some bytes =>
    cases habs : normalizeAbsolute v path with
    | none => rfl
    | some abs => simp only [h.fatRoute habs junk junk']

structure SameMounts (fat : Fat F) (v v' : Vfs F) : Prop where
  mounts : v'.mounts = v.mounts
  cwdPath : v'.cwdPath = v.cwdPath
  fat : fat.isMounted v.fat = false → v'.fat = v.fat

theorem Determined.same {v' : Vfs F} (h : Determined fat v path) (hs : SameMounts fat v v') :
    Determined fat v' path := by
  rcases h with hm | hcount | h
  · exact .inl (by rw [hs.fat hm, hm])
  · exact .inr (.inl (by rw [hs.mounts, hcount]))
  refine .inr (.inr fun abs habs ↦ ?_)
  rw [hs.mounts]
  apply h abs
  rwa [normalizeAbsolute, hs.cwdPath] at habs

theorem vfsFileSizePath_same (path : Str) (junk : Stale) :
    SameMounts fat v (vfsFileSizePath fat v path junk).2 := by
  unfold vfsFileSizePath
  split
  · exact ⟨rfl, rfl, fun _ ↦ rfl⟩
  split
  · rename_i hroute
    refine ⟨rfl, rfl, fun hm ↦ ?_⟩
    rw [fatRoute_unmounted hm] at hroute
    cases hroute
  · split <;> exact ⟨rfl, rfl, fun _ ↦ rfl⟩

theorem fileAtPath_same (fat : Fat F) {abs : Str} {n : Fin 48} {v' : Vfs F}
    (hn : fileAtPath v abs = some (n, v')) : SameMounts fat v v' := by
  unfold fileAtPath at hn
  split at hn
  · obtain ⟨-, rfl⟩ := Prod.mk.inj (Option.some.inj hn)
    exact ⟨rfl, rfl, fun _ ↦ rfl⟩
  split at hn
  · cases hn
  split at hn
  · cases hn
  split at hn
  · obtain ⟨-, rfl⟩ := Prod.mk.inj (Option.some.inj hn)
    exact ⟨rfl, rfl, fun _ ↦ rfl⟩
  obtain ⟨i, -, hi⟩ := Option.map_eq_some_iff.1 hn
  obtain ⟨-, rfl⟩ := Prod.mk.inj hi
  exact ⟨rfl, rfl, fun _ ↦ rfl⟩

theorem vfsWritePath_same (path : Str) (buffer : Option (List UInt8)) (offset : ℕ) (junk : Stale) :
    SameMounts fat v (vfsWritePath fat v path buffer offset junk).2 := by
  unfold vfsWritePath
  split
  · split
    · rename_i hroute
      have hmounted : ¬ fat.isMounted v.fat = false := by
        intro hm
        rw [fatRoute_unmounted hm] at hroute
        cases hroute
      unfold writeFatPath
      dsimp only
      split <;> exact ⟨rfl, rfl, fun hm ↦ absurd hm hmounted⟩
    · unfold writeRamPath
      split
      · exact ⟨rfl, rfl, fun _ ↦ rfl⟩
      rename_i n v' hn
      obtain ⟨hmounts, hcwd, hfat⟩ := fileAtPath_same fat hn
      split <;> exact ⟨hmounts, hcwd, hfat⟩
  · exact ⟨rfl, rfl, fun _ ↦ rfl⟩

theorem Determined.openFile (h : Determined fat v path) (flags : ℕ) (junk junk' : ℕ → Stale) :
    openFile fat v path flags junk = openFile fat v path flags junk' := by
  have hsize := h.same (vfsFileSizePath_same path (junk' 0))
  have hmade := hsize.same (vfsWritePath_same path (some []) 0 (junk' 1))
  unfold Core.openFile
  rw [h.fileSize (junk 0) (junk' 0)]
  dsimp only
  rw [hsize.write (some []) 0 (junk 1) (junk' 1)]
  split
  · rfl
  by_cases hnone : (vfsFileSizePath fat v path (junk' 0)).1 = none
  · simp only [if_pos hnone, hmade.write (some []) 0 (junk 2) (junk' 2)]
  · simp only [if_neg hnone, hsize.write (some []) 0 (junk 2) (junk' 2)]

end Lookups

section Calls

variable {pid : ℕ}

/-- The file behind a descriptor. -/
def fdFile (k : Kernel V) (pid fd : ℕ) : Option Fd := do
  let i ← processGet k pid
  let j ← fileOf (k.processes i) fd
  some ((k.processes i).fds j)

theorem fdFile_eq {k : Kernel V} {i : Fin 8} {j : Fin 16} {fd : ℕ} (hi : processGet k pid = some i)
    (hj : fileOf (k.processes i) fd = some j) : fdFile k pid fd = some ((k.processes i).fds j) := by
  simp [fdFile, hi, hj]

/-- A descriptor is left for one more file. -/
def fdLeft (k : Kernel V) (pid : ℕ) : Bool :=
  match processGet k pid with
  | none => false
  | some i => (k.processes i).state ≠ .zombie ∧
      ((List.finRange 16).find? fun j ↦ ((k.processes i).fds j).type == .unused) ≠ none

/-- The path that a call looks up without having written to the tree, if it is not refused before. -/
def lookedUp (m : Hardware V) (s : Machine V F) (pid a0 a1 a2 : ℕ) : Sys → Option Str
  | .open_ =>
    if processHasCapability s.kernel pid capFilesystemRead ∧ fdLeft s.kernel pid then
      (copyUserString m s pid a0 128).filter (· ≠ [])
    else none
  | .stat =>
    if processUserRangeValid s.kernel pid a1 24 pageWritable then copyUserString m s pid a0 128
    else none
  | .chdir => copyUserString m s pid a0 128
  | .read =>
    if a2 = 0 ∨ 4096 < a2 ∨ !processFdIsValid s.kernel pid a0 ∨
        !processUserRangeValid s.kernel pid a1 a2 pageWritable then none
    else (fdFile s.kernel pid a0).map Fd.path
  | .write =>
    if a2 = 0 ∨ 4096 < a2 ∨ !processFdIsValid s.kernel pid a0 ∨
        !processUserRangeValid s.kernel pid a1 a2 0 ∨ processUserRead m s.kernel pid a1 a2 = none then
      none
    else ((fdFile s.kernel pid a0).filter (·.flags.testBit 1)).map Fd.path
  | .seek => (fdFile s.kernel pid a0).map Fd.path
  | _ => none

theorem sysStat_congr (a0 a1 a2 : ℕ)
    (h : ∀ path ∈ lookedUp m s pid a0 a1 a2 .stat, Determined fat s.vfs path) :
    sysStat m fat g s pid a0 a1 = sysStat m fat g' s pid a0 a1 := by
  unfold sysStat
  cases hpath : copyUserString m s pid a0 128 with
  | none => rfl
  | some path =>
    by_cases hrange : processUserRangeValid s.kernel pid a1 24 pageWritable = true
    · have hd := h path (by rw [lookedUp, if_pos hrange, hpath]; rfl)
      have hsize := hd.same (vfsFileSizePath_same path (g'.stale 0))
      simp only [hd.fileSize (g.stale 0) (g'.stale 0),
        DeterminedDir.isDir (.inr hsize) (g.stale 1) (g'.stale 1)]
    · simp [hrange]

theorem sysChdir_congr (a0 : ℕ)
    (h : ∀ path ∈ copyUserString m s pid a0 128, DeterminedDir fat s.vfs path) :
    sysChdir m fat g s pid a0 = sysChdir m fat g' s pid a0 := by
  unfold sysChdir
  cases hpath : copyUserString m s pid a0 128 with
  | none => rfl
  | some path => simp only [(h path hpath).isDir (g.stale 0) (g'.stale 0)]

theorem processFdOpen_congr (g g' : Garbage) {path : Str} (flags : ℕ)
    (h : fdLeft s.kernel pid = true → path ≠ [] → Determined fat s.vfs path) :
    processFdOpen fat s.kernel s.vfs pid path flags g.stale =
      processFdOpen fat s.kernel s.vfs pid path flags g'.stale := by
  unfold processFdOpen
  unfold fdLeft at h
  cases hi : processGet s.kernel pid with
  | none => rfl
  | some i =>
    rw [hi] at h
    by_cases hrefused : (s.kernel.processes i).state = .zombie ∨ path = []
    · simp only [if_pos hrefused]
    cases hj : (List.finRange 16).find? fun j ↦ ((s.kernel.processes i).fds j).type == .unused with
    | none => simp only [hj]
    | some j =>
      rw [not_or] at hrefused
      have hd := h (by simp [hrefused.1, hj]) hrefused.2
      simp only [hd.openFile _ g.stale g'.stale]

theorem sysOpen_congr (a0 a1 a2 : ℕ)
    (h : ∀ path ∈ lookedUp m s pid a0 a1 a2 .open_, Determined fat s.vfs path) :
    sysOpen m fat g s pid a0 a1 = sysOpen m fat g' s pid a0 a1 := by
  unfold sysOpen
  by_cases hcap : processHasCapability s.kernel pid capFilesystemRead = true
  · cases hpath : copyUserString m s pid a0 128 with
    | none => rfl
    | some path =>
      have hd : fdLeft s.kernel pid = true → path ≠ [] → Determined fat s.vfs path := by
        intro hleft hne
        refine h path ?_
        rw [lookedUp, if_pos ⟨hcap, hleft⟩, hpath]
        simp [hne]
      simp only [processFdOpen_congr g g' (a1 % 2 ^ 32) hd]
  · simp [hcap]

theorem sysWrite_congr (a0 a1 a2 : ℕ)
    (h : ∀ path ∈ lookedUp m s pid a0 a1 a2 .write, Determined fat s.vfs path) :
    sysWrite m fat g s pid a0 a1 a2 = sysWrite m fat g' s pid a0 a1 a2 := by
  unfold sysWrite
  split
  · rfl
  rename_i hchecks
  cases hread : processUserRead m s.kernel pid a1 a2 with
  | none => rfl
  | some bytes =>
    have hfd : processFdWrite fat s.kernel s.vfs pid a0 bytes (g.stale 0) =
        processFdWrite fat s.kernel s.vfs pid a0 bytes (g'.stale 0) := by
      unfold processFdWrite
      cases hi : processGet s.kernel pid with
      | none => rfl
      | some i =>
        cases hj : fileOf (s.kernel.processes i) a0 with
        | none => simp only [hj]
        | some j =>
          by_cases hflag : ((s.kernel.processes i).fds j).flags.testBit 1 = true
          · have hd := h ((s.kernel.processes i).fds j).path (by
              rw [lookedUp, if_neg (by simpa [hread] using hchecks), fdFile_eq hi hj]
              simp [hflag])
            simp only [hj, hd.write _ _ (g.stale 0) (g'.stale 0)]
          · simp [hj, hflag]
    simp only [hfd]

theorem sysRead_congr (a0 a1 a2 : ℕ)
    (h : ∀ path ∈ lookedUp m s pid a0 a1 a2 .read, Determined fat s.vfs path) :
    sysRead m fat g s pid a0 a1 a2 = sysRead m fat g' s pid a0 a1 a2 := by
  unfold sysRead
  split
  · rfl
  rename_i hchecks
  have hfd : processFdRead fat s.kernel s.vfs pid a0 a2 (g.stale 0) =
      processFdRead fat s.kernel s.vfs pid a0 a2 (g'.stale 0) := by
    unfold processFdRead
    cases hi : processGet s.kernel pid with
    | none => rfl
    | some i =>
      cases hj : fileOf (s.kernel.processes i) a0 with
      | none => simp only [hj]
      | some j =>
        have hd := h ((s.kernel.processes i).fds j).path (by
          rw [lookedUp, if_neg hchecks, fdFile_eq hi hj]
          rfl)
        simp only [hj, hd.read _ _ _ (g.stale 0) (g'.stale 0)]
  simp only [hfd, map_filled]

theorem sysSeek_congr (a0 a1 a2 : ℕ)
    (h : ∀ path ∈ (fdFile s.kernel pid a0).map Fd.path, Determined fat s.vfs path) :
    sysSeek fat g s pid a0 a1 a2 = sysSeek fat g' s pid a0 a1 a2 := by
  unfold sysSeek processFdSeek
  cases hi : processGet s.kernel pid with
  | none => rfl
  | some i =>
    cases hj : fileOf (s.kernel.processes i) a0 with
    | none => simp only [hj]
    | some j =>
      have hd := h ((s.kernel.processes i).fds j).path (by rw [fdFile_eq hi hj]; rfl)
      simp only [hj, hd.fileSize (g.stale 0) (g'.stale 0)]

theorem replyString_congr (va limit : ℕ) (old old' : ℕ → UInt8) (str : Str) :
    replyString m s pid va limit (writeString old str) =
      replyString m s pid va limit (writeString old' str) := by
  rw [replyString, cString_writeString old old', replyString]

theorem sysGetname_congr (a0 a1 : ℕ) :
    sysGetname m s pid g a0 a1 = sysGetname m s pid g' a0 a1 := by
  unfold sysGetname
  simp only [replyString_congr a0 a1 g.buffer g'.buffer]

theorem sysGetcwd_congr (a0 a1 : ℕ) :
    sysGetcwd m s pid g a0 a1 = sysGetcwd m s pid g' a0 a1 := by
  unfold sysGetcwd
  simp only [replyString_congr a0 a1 g.buffer g'.buffer]

theorem sysGetenv_congr (a0 a1 a2 : ℕ) :
    sysGetenv m s pid g a0 a1 a2 = sysGetenv m s pid g' a0 a1 a2 := by
  unfold sysGetenv
  simp only [replyString_congr a2 a1 g.buffer g'.buffer]

theorem sysChannelRecv_congr (a0 a1 a2 a3 : ℕ) :
    sysChannelRecv m g s pid a0 a1 a2 a3 = sysChannelRecv m g' s pid a0 a1 a2 a3 := by
  unfold sysChannelRecv
  simp only [map_filled]

/-- `RUNTIME_INFO` gets as far as `nexus_runtime_fill_info`. -/
def fillsInfo (s : Machine V F) (pid a0 a1 : ℕ) : Prop :=
  processHasCapability s.kernel pid capRuntime = true ∧ a1 = 80 ∧
    processUserRangeValid s.kernel pid a0 80 pageWritable = true ∧ s.runtimeReady = true

theorem sysRuntimeInfo_eq (g : Garbage) (p : Process) (a0 a1 : ℕ) :
    (fillsInfo s pid a0 a1 → sysRuntimeInfo m s pid g p a0 a1 =
      replyWith m s pid a0 (runtimeInfo g p) 0) ∧
    (¬ fillsInfo s pid a0 a1 → sysRuntimeInfo m s pid g p a0 a1 = (failed, s)) := by
  unfold fillsInfo sysRuntimeInfo
  constructor
  · rintro ⟨hcap, hsize, hrange, hready⟩
    simp [hcap, hsize, hrange, hready]
  intro h
  split_ifs with hcap hchecks
  · rfl
  · rfl
  · exact absurd (by simpa [not_or] using And.intro hcap hchecks) h

/-- The characters behind the terminator of the name are those of the stack. -/
theorem runtimeInfo_eq_iff (p : Process) : runtimeInfo g p = runtimeInfo g' p ↔
    ∀ k, 13 < k → k < 32 → g.info k = g'.info k := by
  simp only [runtimeInfo, List.append_cancel_left_eq, List.map_inj_left, List.mem_range]
  have hlen : runtimeName.length = 13 := rfl
  constructor
  · intro h k hlow hhigh
    have hk := h k hhigh
    rwa [writeString, writeString, hlen, if_neg (by omega), if_neg (by omega), if_neg (by omega),
      if_neg (by omega)] at hk
  intro h k hhigh
  by_cases hlow : k ≤ 13
  · exact writeString_congr _ _ _ (hlen ▸ hlow)
  · rw [writeString, writeString, h k (by omega) hhigh, hlen, if_neg (by omega), if_neg (by omega)]

end Calls

section Dispatch

/-- What makes a call read no variable before it is written: it does not get as far as the record of
the runtime, and it looks up no path outside all mounts while a volume is there. -/
def Initialised (m : Hardware V) (fat : Fat F) (s : Machine V F) (pid a0 a1 a2 : ℕ) (c : Sys) :
    Prop :=
  (c = .runtimeInfo → ¬ fillsInfo s pid a0 a1) ∧ ∀ path ∈ lookedUp m s pid a0 a1 a2 c,
    if c = .chdir then DeterminedDir fat s.vfs path else Determined fat s.vfs path

theorem syscall_congr {i : Fin 8} {c : Sys} {a0 a1 a2 : ℕ}
    (h : Initialised m fat s (s.kernel.processes i).pid a0 a1 a2 c) (a3 : ℕ) :
    syscall m fat g s i c a0 a1 a2 a3 = syscall m fat g' s i c a0 a1 a2 a3 := by
  obtain ⟨hinfo, hpath⟩ := h
  cases c with
  | write => exact sysWrite_congr a0 a1 a2 hpath
  | open_ => exact sysOpen_congr a0 a1 a2 hpath
  | read => exact sysRead_congr a0 a1 a2 hpath
  | seek => exact sysSeek_congr a0 a1 a2 hpath
  | stat => exact sysStat_congr a0 a1 a2 hpath
  | chdir => exact sysChdir_congr a0 hpath
  | getcwd => exact sysGetcwd_congr a0 a1
  | getname => exact sysGetname_congr a0 a1
  | getenv => exact sysGetenv_congr a0 a1 a2
  | channelRecv => exact sysChannelRecv_congr a0 a1 a2 a3
  | runtimeInfo => simp only [syscall, (sysRuntimeInfo_eq _ _ a0 a1).2 (hinfo rfl)]
  | _ => rfl

/-- What a call answers and what it leaves behind, user memory included, is the same for every
content of the kernel stack, if it reads no variable before it is written. Where `RUNTIME_INFO`
does, the record that it gives to the user differs as the stack does. -/
theorem syscallDispatch_determined (m : Hardware V) (fat : Fat F) (s : Machine V F)
    (number a0 a1 a2 a3 : ℕ) (g g' : Garbage) :
    ((∀ i c, caller s = some i → sysNumbers[number]? = some c →
        Initialised m fat s (s.kernel.processes i).pid a0 a1 a2 c) →
      syscallDispatch m fat g s number a0 a1 a2 a3 =
        syscallDispatch m fat g' s number a0 a1 a2 a3) ∧
    ∀ i, caller s = some i → sysNumbers[number]? = some .runtimeInfo →
      fillsInfo s (s.kernel.processes i).pid a0 a1 →
      (syscallDispatch m fat g s number a0 a1 a2 a3 =
          replyWith m s (s.kernel.processes i).pid a0 (runtimeInfo g (s.kernel.processes i)) 0) ∧
        (runtimeInfo g (s.kernel.processes i) = runtimeInfo g' (s.kernel.processes i) ↔
          ∀ k, 13 < k → k < 32 → g.info k = g'.info k) := by
  refine ⟨fun h ↦ ?_, fun i hi hc hfills ↦ ⟨?_, runtimeInfo_eq_iff _⟩⟩
  · unfold syscallDispatch
    cases hi : caller s with
    | none => rfl
    | some i =>
      cases hc : sysNumbers[number]? with
      | none => rfl
      | some c => exact syscall_congr (h i c hi hc) a3
  · simp only [syscallDispatch, hi, hc]
    exact (sysRuntimeInfo_eq _ _ a0 a1).1 hfills

/-- `/home/x`. -/
def homeFile : Str := [47, 104, 111, 109, 101, 47, 120]

def noting : Fat (List Str) where
  isMounted _ := true
  isDirectory _ f := (true, f)
  mkdir path f := (true, path :: f)
  writeFile path _ f := (true, path :: f)
  readFile _ _ f := (some [], f)

/-- The tree after `vfs_init`, with a FAT32 volume mounted at `/mnt/disk0`. -/
def withDisk : Vfs (List Str) :=
  vfsInit ⟨fun _ ↦ ⟨.free, [], some 0, fun _ ↦ 0, 0⟩, some 0, [],
    mountStep vfsMountInit (.mount [115, 100, 97] [47, 109, 110, 116, 47, 100, 105, 115, 107, 48]
      [102, 97, 116, 51, 50] 0), fun _ ↦ 0, []⟩

/-- A process with all capabilities and one page is running; in the page there is a path. -/
def oneProcess : Kernel (List (ℕ × UInt8)) :=
  { bootKernel (storeBytes flatHardware 0x400800 homeFile []) with
    processes := Function.update (fun _ ↦ zeroProcess) 0 { zeroProcess with
      pid := 1
      state := .running
      schedulerThreadId := 1
      flags := 3
      capabilities := capAll
      userPages := [⟨0x400000, 0x1000000, pageWritable⟩]
      name := [105, 110, 105, 116] }
    currentPid := 1 }

def oneMachine : Machine (List (ℕ × UInt8)) (List Str) :=
  ⟨⟨zeroScheduler, oneProcess⟩, withDisk, [], true, true⟩

/-- A stack that holds the same byte everywhere, with a string in the place of the mountpoints. -/
def stackOf (b : UInt8) (str : Str) : Garbage := ⟨fun _ ↦ b, fun _ ↦ b, fun _ ↦ ⟨str, fun _ ↦ b⟩⟩

theorem syscallDispatch_determined_getname :
    let name (g : Garbage) := syscallDispatch flatHardware noting g oneMachine 21 0x400000 32 0 0
    caller oneMachine = some 0 ∧ (name (stackOf 0 [])).1 = 4 ∧
      name (stackOf 0 []) = name (stackOf 7 homeFile) := by
  refine ⟨by decide +kernel, by decide +kernel, ?_⟩
  refine (syscallDispatch_determined flatHardware noting oneMachine 21 0x400000 32 0 0 _ _).1 ?_
  intro i c _ hc
  obtain rfl : Sys.getname = c := Option.some.inj hc
  constructor
  · intro h
    cases h
  intro path hpath
  cases hpath

/-- The byte of the reply behind the name of the runtime and its terminator is that of the stack, and
whether `STAT` finds a file may depend on the stack, too. -/
theorem syscall_leaks_stack :
    let info (b : UInt8) :=
      syscallDispatch flatHardware noting (stackOf b []) oneMachine 59 0x400000 80 0 0
    let stat (str : Str) :=
      syscallDispatch flatHardware noting (stackOf 0 str) oneMachine 10 0x400800 0x400000 0 0
    (info 0).1 = 0 ∧ flatHardware.readByte 0x40003E (info 0).2.kernel.vm = 0 ∧
      (info 7).1 = 0 ∧ flatHardware.readByte 0x40003E (info 7).2.kernel.vm = 7 ∧
      (stat []).1 = failed ∧ (stat [1, 2, 3, 4, 5]).1 = 0 := by
  refine ⟨?_, ?_, ?_, ?_, ?_, ?_⟩ <;> decide +kernel

end Dispatch

end NexusOS.Core
