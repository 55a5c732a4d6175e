import NexusOS.Core.UserStrings
import NexusOS.Fs.Rooted

namespace NexusOS.Core

open Fs Lib

variable {V F : Type*} {m : Hardware V} {fat : Fat F} {s : Machine V F} {i : Fin 8} {j : Fin 16}
  {path abs : Str} {junk : Stale} {route : Option Str}
  {content : F → Option (List UInt8)} {f : List UInt8} {v : Vfs F} {off n : ℕ}

section Files

theorem map_range_getD (bytes : List UInt8) (other : ℕ → UInt8) :
    (List.range bytes.length).map (fun i ↦ if i < bytes.length then bytes.getD i 0 else other i) =
      bytes := by
  apply List.ext_getElem
  · simp
  intro i h₁ h₂
  simp [h₂]

/-- A volume whose driver gives, of what a file holds, what a buffer of 64 KiB takes. -/
structure ReadsFile (fat : Fat F) (rel : Str) (content : F → Option (List UInt8)) : Prop where
  read : ∀ f, (fat.readFile rel 65536 f).1 = (content f).map (·.take 65536)
  read_content : ∀ f, content (fat.readFile rel 65536 f).2 = content f
  read_mounted : ∀ f, fat.isMounted (fat.readFile rel 65536 f).2 = fat.isMounted f

/-- The file at a path holds `f`, in the tree or on a volume. -/
def FileHolds (fat : Fat F) (v : Vfs F) (abs : Str) (content : F → Option (List UInt8))
    (f : List UInt8) : Option Str → Prop
  | none => ∃ i, resolveRamPath v abs = some i ∧ v.typeOf i = .file ∧
      (v.nodes i).contentLen = f.length ∧ ∀ j < f.length, (v.nodes i).content j = f.getD j 0
  | some rel => ReadsFile fat rel content ∧ content v.fat = some f

def visible (f : List UInt8) : Option Str → List UInt8
  | none => f
  | some _ => f.take 65536

/-- The file at the path, in the tree or at `route` on the volume, has the content `f`. -/
structure FileAt (fat : Fat F) (v : Vfs F) (path abs : Str) (route : Option Str)
    (content : F → Option (List UInt8)) (f : List UInt8) : Prop where
  normal : normalizeAbsolute v path = some abs
  holds : FileHolds fat v abs content f route

theorem slice_eq (bytes : List UInt8) (content : ℕ → UInt8) (capacity offset : ℕ)
    (hbytes : ∀ j < bytes.length, content j = bytes.getD j 0) :
    Fs.slice bytes.length content capacity offset = (bytes.drop offset).take capacity := by
  apply List.ext_getElem
  · simp [Fs.slice]
  intro t h₁ h₂
  have ht : offset + t < bytes.length := by
    simp only [Fs.slice, List.length_map, List.length_range] at h₁
    omega
  simp only [Fs.slice, List.getElem_map, List.getElem_range, List.getElem_take, List.getElem_drop]
  rw [hbytes _ ht, List.getD_eq_getElem _ _ ht]

theorem FileAt.read (h : FileAt fat v path abs route content f)
    (hroute : fatRoute fat v abs junk = route) {capacity : ℕ} (hcap : capacity ≠ 0) (offset : ℕ) :
    (vfsReadPath fat v path true capacity offset junk).1 =
        some (((visible f route).drop offset).take capacity) ∧
      FileAt fat (vfsReadPath fat v path true capacity offset junk).2 path abs route content f := by
  have hguard : ¬ ((!true) = true ∨ capacity = 0) := by simp [hcap]
  have hholds := h.holds
  cases route with
  | none =>
    obtain ⟨i, hi, hfile, hlen, hbytes⟩ := hholds
    have hty : ¬ (v.nodes i).type ≠ .file := not_not_intro hfile
    have hcall : vfsReadPath fat v path true capacity offset junk =
        (some ((f.drop offset).take capacity), v) := by
      simp only [vfsReadPath, if_neg hguard, h.normal, hroute, hi, if_neg hty, hlen]
      rw [slice_eq f _ capacity offset hbytes]
    rw [hcall]
    exact ⟨rfl, h⟩
  | some rel =>
    obtain ⟨hreads, hf⟩ := hholds
    have hread := hreads.read v.fat
    rw [hf, Option.map_some] at hread
    have hcall : vfsReadPath fat v path true capacity offset junk =
        (some (((f.take 65536).drop offset).take capacity),
          { v with fat := (fat.readFile rel 65536 v.fat).2 }) := by
      simp only [vfsReadPath, if_neg hguard, h.normal, hroute, hread, Option.map_some]
      rw [slice_eq (f.take 65536) _ capacity offset fun _ _ ↦ rfl]
    rw [hcall]
    exact ⟨rfl, h.normal, hreads, (hreads.read_content _).trans hf⟩

end Files

section Step

structure Opened (fat : Fat F) (i : Fin 8) (j : Fin 16) (path abs : Str) (route : Option Str)
    (content : F → Option (List UInt8)) (f : List UInt8) (s : Machine V F) (off : ℕ) : Prop where
  type : ((s.kernel.processes i).fds j).type = .vfsFile
  path_eq : ((s.kernel.processes i).fds j).path = path
  offset : ((s.kernel.processes i).fds j).offset = off
  file : FileAt fat s.vfs path abs route content f

theorem fileOf_eq {p : Process} (h : (p.fds j).type = .vfsFile) : fileOf p j.val = some j := by
  have hfd : fdOf p j.val = some j := by
    rw [fdOf, dif_pos j.isLt]
    simp [h]
  rw [fileOf, hfd]
  simp [h]

variable {k : Kernel V} {pid va size : ℕ}

theorem setFd_process (k : Kernel V) (i : Fin 8) (j : Fin 16) (fd : Fd) :
    (setFd k i j fd).processes i =
      { k.processes i with fds := Function.update (k.processes i).fds j fd } := by
  rw [setFd, setProcess_processes, if_pos rfl]

theorem setFd_get (k : Kernel V) (i : Fin 8) (j : Fin 16) (fd : Fd) (pid : ℕ) :
    processGet (setFd k i j fd) pid = processGet k pid := by
  have hsame : ∀ i', ((setFd k i j fd).processes i').state = (k.processes i').state ∧
      ((setFd k i j fd).processes i').pid = (k.processes i').pid := by
    intro i'
    by_cases hi : i' = i
    · rw [hi, setFd_process]
      exact ⟨rfl, rfl⟩
    rw [setFd, setProcess_processes, if_neg hi]
    exact ⟨rfl, rfl⟩
  have hready : (setFd k i j fd).processReady = k.processReady := rfl
  exact processGet_congr hready hsame pid

theorem setFd_space (h : UserSpace m k pid i) (j : Fin 16) (fd : Fd) :
    UserSpace m (setFd k i j fd) pid i := by
  refine ⟨(setFd_get k i j fd pid).trans h.get, ?_, ?_⟩
  · rw [setFd_process]
    exact h.records
  rw [setFd_process]
  exact h.installed

theorem setFd_valid (h : UserSpace m k pid i) (j : Fin 16) (fd : Fd) (va size required : ℕ) :
    processUserRangeValid (setFd k i j fd) pid va size required =
      processUserRangeValid k pid va size required := by
  simp only [processUserRangeValid, setFd_get, h.get, setFd_process]
  rfl

theorem advanceFd_fd (k : Kernel V) (i : Fin 8) (j : Fin 16) (n : ℕ) :
    ((advanceFd k i j n).processes i).fds j = { (k.processes i).fds j with
      offset := (((k.processes i).fds j).offset + n) % 2 ^ 64 } := by
  rw [advanceFd, setFd_process]
  exact Function.update_self _ _ _

theorem Opened.advance (ho : Opened fat i j path abs route content f s off) {n : ℕ}
    {s' : Machine V F} (hfile : FileAt fat s'.vfs path abs route content f)
    (hfd : (s'.kernel.processes i).fds j = ((advanceFd s.kernel i j n).processes i).fds j) :
    Opened fat i j path abs route content f s' ((off + n) % 2 ^ 64) := by
  rw [advanceFd_fd] at hfd
  refine ⟨?_, ?_, ?_, hfile⟩
  · rw [hfd]
    exact ho.type
  · rw [hfd]
    exact ho.path_eq
  · rw [hfd, ← ho.offset]

theorem read_step {g : Garbage} (ho : Opened fat i j path abs route content f s off)
    (h : UserSpace m s.kernel (s.kernel.processes i).pid i)
    (hram : Ram m (s.kernel.processes i).addressSpaceCr3 (s.kernel.processes i).userPages
      s.kernel.vm)
    (hva : va < 2 ^ 64) (hsize : 1 ≤ size ∧ size ≤ 4096)
    (hvalid : processUserRangeValid s.kernel (s.kernel.processes i).pid va size pageWritable = true)
    (hroute : fatRoute fat s.vfs abs (g.stale 0) = route) :
    let bytes := ((visible f route).drop off).take size
    let r := syscall m fat g s i .read j va size 0
    r.1 = (if bytes = [] then failed else bytes.length) ∧
    (bytes ≠ [] → userBytes m (r.2.kernel.processes i).addressSpaceCr3 r.2.kernel.vm va
      bytes.length = bytes) ∧
    Opened fat i j path abs route content f r.2 ((off + bytes.length) % 2 ^ 64) := by
  intro bytes r
  obtain ⟨-, hlive, -⟩ := inPages_of_valid h hvalid hva
  have hfile := fileOf_eq ho.type
  have hfd : processFdIsValid s.kernel (s.kernel.processes i).pid j = true := by
    have hof : fdOf (s.kernel.processes i) j = some j := by
      rw [fdOf, dif_pos j.isLt]
      simp [ho.type]
    simp [processFdIsValid, h.get, hlive, hof]
  have hguard : ¬ (size = 0 ∨ 4096 < size ∨
      (!processFdIsValid s.kernel (s.kernel.processes i).pid j) = true ∨
      (!processUserRangeValid s.kernel (s.kernel.processes i).pid va size pageWritable) = true) := by
    rw [hfd, hvalid]
    simp only [Bool.not_true, Bool.false_eq_true, or_false]
    omega
  have hsize : size ≠ 0 := by omega
  obtain ⟨hread, hafter⟩ := ho.file.read hroute hsize off
  set v' := (vfsReadPath fat s.vfs path true size off (g.stale 0)).2 with hv'
  have hfdRead : processFdRead fat s.kernel s.vfs (s.kernel.processes i).pid j size
      (g.stale 0) = (some bytes, advanceFd s.kernel i j bytes.length, v') := by
    simp only [processFdRead, h.get, hfile, ho.path_eq, ho.offset, hread]
    rfl
  have hdata : (List.range bytes.length).map (filled g bytes) = bytes := map_range_getD bytes g.buffer
  have hr : r = replyWith m ((s.setKernel (advanceFd s.kernel i j bytes.length)).setVfs v')
      (s.kernel.processes i).pid va bytes bytes.length := by
    change sysRead m fat g s (s.kernel.processes i).pid j va size = _
    rw [sysRead, if_neg hguard, hfdRead]
    dsimp only
    rw [hdata]
  rw [hr]
  by_cases hempty : bytes = []
  · -- a write of nothing fails
    have hwrite : processUserWrite m (advanceFd s.kernel i j bytes.length)
        (s.kernel.processes i).pid va [] = (false, advanceFd s.kernel i j bytes.length) := by
      unfold processUserWrite
      split
      · rfl
      · rw [if_pos (.inr (.inl rfl))]
    rw [hempty] at hwrite ⊢
    simp only [replyWith, putUser, Machine.setVfs_kernel, Machine.setKernel_kernel, hwrite]
    refine ⟨rfl, fun hne ↦ absurd rfl hne, ?_⟩
    exact ho.advance hafter rfl
  have hspace := setFd_space h j { (s.kernel.processes i).fds j with
    offset := (((s.kernel.processes i).fds j).offset + bytes.length) % 2 ^ 64 }
  have hlen : bytes.length ≤ size := List.length_take_le _ _
  have hpos : bytes.length ≠ 0 := mt List.length_eq_zero_iff.1 hempty
  have hpart := processUserRangeValid_mono h hva hvalid hlen hpos
  rw [← setFd_valid h j { (s.kernel.processes i).fds j with
    offset := (((s.kernel.processes i).fds j).offset + bytes.length) % 2 ^ 64 }] at hpart
  obtain ⟨vm, hwrite, hwrote⟩ := processUserWrite_valid hspace
    (by rw [setFd_process]; exact hram) hva hpart
  have hseen := hwrote.userBytes (inPages_of_valid hspace hpart hva).1
  change processUserWrite m (advanceFd s.kernel i j bytes.length) _ va bytes = _ at hwrite
  simp only [replyWith, putUser, Machine.setVfs_kernel, Machine.setKernel_kernel, hwrite,
    if_neg hempty, if_true, true_and]
  exact ⟨fun _ ↦ hseen, ho.advance hafter rfl⟩

end Step

section Answers

end Answers

section Run

/-- A `READ` with what happens before it, its kernel stack, its buffer and its size. -/
structure ReadCall (V F : Type*) where
  between : Machine V F → Machine V F
  stack : Garbage
  va : ℕ
  size : ℕ

variable (m fat i j) in
def ReadCall.run (s : Machine V F) (c : ReadCall V F) : ℕ × Machine V F :=
  syscall m fat c.stack (c.between s) i .read j c.va c.size 0

/-- What happens before the call leaves the descriptor and the file, and the buffer is memory of the
process that may be written. -/
structure ReadCall.Valid (m : Hardware V) (fat : Fat F) (i : Fin 8) (j : Fin 16) (path abs : Str)
    (route : Option Str) (content : F → Option (List UInt8)) (f : List UInt8) (s : Machine V F)
    (c : ReadCall V F) : Prop where
  keeps : ∀ off, Opened fat i j path abs route content f s off →
    Opened fat i j path abs route content f (c.between s) off
  space : UserSpace m (c.between s).kernel ((c.between s).kernel.processes i).pid i
  ram : Ram m ((c.between s).kernel.processes i).addressSpaceCr3
    ((c.between s).kernel.processes i).userPages (c.between s).kernel.vm
  va_lt : c.va < 2 ^ 64
  sized : 1 ≤ c.size ∧ c.size ≤ 4096
  buffer : processUserRangeValid (c.between s).kernel ((c.between s).kernel.processes i).pid c.va
    c.size pageWritable = true

/-- With what the stack holds, the call goes where the file is. -/
def ReadCall.Routed (fat : Fat F) (abs : Str) (route : Option Str) (s : Machine V F)
    (c : ReadCall V F) : Prop :=
  fatRoute fat (c.between s).vfs abs (c.stack.stale 0) = route

def delivered (m : Hardware V) (i : Fin 8) (va : ℕ) (r : ℕ × Machine V F) : List UInt8 :=
  if r.1 = failed then []
  else userBytes m (r.2.kernel.processes i).addressSpaceCr3 r.2.kernel.vm va r.1

variable (m fat i j) in
/-- The answers of successive calls with the bytes they deliver. -/
def reads : Machine V F → List (ReadCall V F) → List (ℕ × List UInt8)
  | _, [] => []
  | s, c :: cs => ((c.run m fat i j s).1, delivered m i c.va (c.run m fat i j s)) ::
      reads (c.run m fat i j s).2 cs

theorem ReadCall.Valid.step {c : ReadCall V F}
    (h : c.Valid m fat i j path abs route content f s) (hroute : c.Routed fat abs route s)
    (ho : Opened fat i j path abs route content f s off) :
    let bytes := ((visible f route).drop off).take c.size
    let r := c.run m fat i j s
    r.1 = (if bytes.length = 0 then failed else bytes.length) ∧ delivered m i c.va r = bytes ∧
      Opened fat i j path abs route content f r.2 ((off + bytes.length) % 2 ^ 64) := by
  intro bytes r
  obtain ⟨hanswer, hbytes, hopened⟩ := read_step (h.keeps off ho) h.space h.ram h.va_lt h.sized
    h.buffer hroute
  refine ⟨?_, ?_, hopened⟩
  · rw [if_congr List.length_eq_zero_iff rfl rfl]
    exact hanswer
  change r.1 = if bytes = [] then failed else bytes.length at hanswer
  by_cases hempty : bytes = []
  · rw [if_pos hempty] at hanswer
    rw [delivered, if_pos hanswer, hempty]
  rw [if_neg hempty] at hanswer
  have hsmall : bytes.length ≤ 4096 := (List.length_take_le _ _).trans h.sized.2
  have hne : r.1 ≠ failed := by
    rw [hanswer]
    have hbig : 4096 < failed := by decide
    omega
  rw [delivered, if_neg hne, hanswer]
  exact hbytes hempty

end Run

end NexusOS.Core
