import NexusOS.Core.IpcSteps

namespace NexusOS.Core

open Lib

variable {V : Type*} {m : Memory V} {k k' : Kernel V} {i j : Fin 8} {c : Fin 16}

/-- The handles of live processes and the open sides of active channels are in step. -/
structure Linked (k : Kernel V) : Prop where
  held : ∀ i h, (k.processes i).alive = true → (k.processes i).ipcHandles h ≠ 0 →
    ∃ c : Fin 16, (k.processes i).ipcHandles h = c + 1 ∧ (k.channels c).active = true ∧
      ∃ s, (k.channels c).pid s = (k.processes i).pid ∧ (k.channels c).closed s = false
  named : ∀ c s, (k.channels c).active = true → (k.channels c).closed s = false →
    ∃ i h, (k.processes i).alive = true ∧ (k.processes i).ipcHandles h = c + 1 ∧
      (k.processes i).pid = (k.channels c).pid s
  unique : ∀ i h j g, (k.processes i).alive = true → (k.processes j).alive = true →
    (k.processes i).ipcHandles h ≠ 0 →
    (k.processes i).ipcHandles h = (k.processes j).ipcHandles g →
    (k.processes i).pid = (k.processes j).pid → i = j ∧ h = g
  apart : ∀ c, (k.channels c).active = true → (k.channels c).pid 0 ≠ (k.channels c).pid 1
  half : ∀ c, (k.channels c).active = true → ∃ s, (k.channels c).closed s = false
  dead : ∀ i h, (k.processes i).state = .zombie → (k.processes i).ipcHandles h = 0

theorem Linked.congr (hl : Linked k)
    (hp : ∀ i, (k'.processes i).alive = (k.processes i).alive ∧
      (k'.processes i).pid = (k.processes i).pid ∧
      (k'.processes i).ipcHandles = (k.processes i).ipcHandles ∧
      ((k'.processes i).state = .zombie → (k.processes i).state = .zombie))
    (hc : ∀ c, (k'.channels c).active = (k.channels c).active ∧
      (k'.channels c).closed = (k.channels c).closed ∧ (k'.channels c).pid = (k.channels c).pid) :
    Linked k' where
  held i h := by
    simp only [hp, hc]
    exact hl.held i h
  named c s := by
    simp only [hp, hc]
    exact hl.named c s
  unique i h j g := by
    simp only [hp]
    exact hl.unique i h j g
  apart c := by
    simp only [hc]
    exact hl.apart c
  half c := by
    simp only [hc]
    exact hl.half c
  dead i h hz := by
    rw [(hp i).2.2.1]
    exact hl.dead i h ((hp i).2.2.2 hz)

theorem Linked.replace (hl : Linked k) (hj : ∀ j, j ≠ i → k'.processes j = k.processes j)
    (hc : k'.channels = k.channels)
    (hbefore : (k.processes i).alive = true → ∀ h, (k.processes i).ipcHandles h = 0)
    (hafter : (k'.processes i).state = .unused ∨ ∀ h, (k'.processes i).ipcHandles h = 0) :
    Linked k' := by
  have hidle : ∀ h, (k'.processes i).alive = true → (k'.processes i).ipcHandles h = 0 := by
    intro h ha
    rcases hafter with hu | hz
    · simp [Process.alive, hu] at ha
    · exact hz h
  have hne : ∀ j h, (k'.processes j).alive = true → (k'.processes j).ipcHandles h ≠ 0 → j ≠ i := by
    rintro j h ha hh rfl
    exact hh (hidle h ha)
  refine ⟨fun j h ha hh ↦ ?_, fun c s ha hs ↦ ?_, fun j h j' g ha ha' hh heq hpid ↦ ?_, ?_, ?_,
    fun j h hz ↦ ?_⟩
  · have hji := hne j h ha hh
    rw [hj j hji] at ha hh ⊢
    rw [hc]
    exact hl.held j h ha hh
  · rw [hc] at ha hs ⊢
    obtain ⟨j, h, hja, hjh, hpid⟩ := hl.named c s ha hs
    have hji : j ≠ i := by
      rintro rfl
      have := hbefore hja h
      omega
    exact ⟨j, h, by rwa [hj j hji], by rwa [hj j hji], by rwa [hj j hji]⟩
  · have hji := hne j h ha hh
    have hji' := hne j' g ha' (heq ▸ hh)
    rw [hj j hji] at ha hh heq hpid
    rw [hj j' hji'] at ha' heq hpid
    exact hl.unique j h j' g ha ha' hh heq hpid
  · rw [hc]
    exact hl.apart
  · rw [hc]
    exact hl.half
  · by_cases hji : j = i
    · subst hji
      rcases hafter with hu | hh
      · simp [hu] at hz
      · exact hh h
    · rw [hj j hji] at hz ⊢
      exact hl.dead j h hz

section Lookup

theorem findSide_some {ch : IpcChannel} {pid : ℕ} {s : Fin 2} (h : findSide ch pid = some s) :
    ch.active = true ∧ ch.pid s = pid := by
  unfold findSide at h
  split_ifs at h with h₁ h₂ h₃
  · exact ⟨by simpa using h₁, by simpa [← Option.some.inj h] using h₂⟩
  · exact ⟨by simpa using h₁, by simpa [← Option.some.inj h] using h₃⟩

theorem findSide_of_pid {ch : IpcChannel} {pid : ℕ} {s : Fin 2} (ha : ch.active = true)
    (hne : ch.pid 0 ≠ ch.pid 1) (hs : ch.pid s = pid) : findSide ch pid = some s := by
  fin_cases s
  · simp_all [findSide]
  have : ch.pid 0 ≠ pid := fun h ↦ hne (h.trans hs.symm)
  simp_all [findSide]

theorem channelIndex_some {id : ℕ} : channelIndex id = some c ↔ id = c + 1 := by
  unfold channelIndex
  constructor
  · intro h
    split_ifs at h with hid
    have := congrArg Fin.val (Option.some.inj h)
    simp only at this
    omega
  rintro rfl
  have hc := c.isLt
  rw [dif_pos ⟨by omega, by omega⟩]
  simp

theorem eq_or_other (s t : Fin 2) : s = t ∨ s = other t := by
  fin_cases s <;> fin_cases t <;> decide

end Lookup

@[simp]
theorem setHandle_alive (h : Fin 8) (id : ℕ) :
    ((k.setHandle i h id).processes j).alive = (k.processes j).alive := by
  by_cases hj : j = i
  · simp [Kernel.setHandle, hj, Process.alive]
  · simp [Kernel.setHandle, hj]

@[simp]
theorem setHandle_pid (h : Fin 8) (id : ℕ) :
    ((k.setHandle i h id).processes j).pid = (k.processes j).pid := by
  by_cases hj : j = i
  · simp [Kernel.setHandle, hj]
  · simp [Kernel.setHandle, hj]

@[simp]
theorem setHandle_state (h : Fin 8) (id : ℕ) :
    ((k.setHandle i h id).processes j).state = (k.processes j).state := by
  by_cases hj : j = i
  · simp [Kernel.setHandle, hj]
  · simp [Kernel.setHandle, hj]

@[simp]
theorem setHandle_ipcHandles (h g : Fin 8) (id : ℕ) :
    ((k.setHandle i h id).processes j).ipcHandles g =
      if j = i ∧ g = h then id else (k.processes j).ipcHandles g := by
  by_cases hj : j = i
  · by_cases hg : g = h <;> simp [Kernel.setHandle, hj, hg]
  · simp [Kernel.setHandle, hj]

section Close

theorem closeSide_closed (ch : IpcChannel) (s t : Fin 2) :
    (closeSide ch s).closed t = if t = s then true else ch.closed t := by
  simp [closeSide, Function.update_apply]

theorem closeSide_active {ch : IpcChannel} {s t : Fin 2} (ha : ch.active = true)
    (ht : (closeSide ch s).closed t = false) : (closeSide ch s).active = true := by
  have hnot : ¬ ((closeSide ch s).closed 0 && (closeSide ch s).closed 1) = true := by
    rw [Bool.and_eq_true]
    rintro ⟨h₀, h₁⟩
    fin_cases t
    · simp [h₀] at ht
    · simp [h₁] at ht
  exact (if_neg hnot).trans ha

theorem active_of_closeSide {ch : IpcChannel} {s : Fin 2} (ha : (closeSide ch s).active = true) :
    ch.active = true ∧ ∃ t, (closeSide ch s).closed t = false := by
  by_cases hboth : ((closeSide ch s).closed 0 && (closeSide ch s).closed 1) = true
  · exact absurd ((if_pos hboth).symm.trans ha) (by decide)
  refine ⟨(if_neg hboth).symm.trans ha, ?_⟩
  rw [Bool.and_eq_true, not_and_or] at hboth
  rcases hboth with h | h
  · exact ⟨0, by simpa using h⟩
  · exact ⟨1, by simpa using h⟩

theorem Linked.close (hl : Linked k) {h : Fin 8} {s : Fin 2} (hi : (k.processes i).alive = true)
    (hh : (k.processes i).ipcHandles h = c + 1) (ha : (k.channels c).active = true)
    (hs : (k.channels c).pid s = (k.processes i).pid) :
    Linked ((k.setChannel c (closeSide (k.channels c) s)).setHandle i h 0) := by
  have hpid : (closeSide (k.channels c) s).pid = (k.channels c).pid := rfl
  refine ⟨fun j g hja hjg ↦ ?_, fun d t hda hdt ↦ ?_, fun j g j' g' hja hja' hjg heq hpids ↦ ?_,
    fun d hda ↦ ?_, fun d hda ↦ ?_, fun j g hz ↦ ?_⟩
  · simp only [setHandle_alive, setChannel_processes] at hja
    simp only [setHandle_ipcHandles, setChannel_processes, ne_eq, ite_eq_left_iff, not_forall,
      exists_prop] at hjg
    obtain ⟨hne, hjg⟩ := hjg
    obtain ⟨d, hd, hda, t, hdp, hdt⟩ := hl.held j g hja hjg
    refine ⟨d, by simpa [hne] using hd, ?_⟩
    by_cases hdc : d = c
    · subst hdc
      have hts : t ≠ s := by
        rintro rfl
        exact hne ((hl.unique j g i h hja hi hjg (hd.trans hh.symm) (hdp.symm.trans hs)))
      have hopen : (closeSide (k.channels d) s).closed t = false := by
        rw [closeSide_closed, if_neg hts, hdt]
      exact ⟨by simpa using closeSide_active hda hopen, t, by simpa [hpid] using hdp, by
        simpa using hopen⟩
    · exact ⟨by simpa [hdc] using hda, t, by simpa [hdc] using hdp, by simpa [hdc] using hdt⟩
  · by_cases hdc : d = c
    · subst hdc
      simp only [setHandle_channels, setChannel_channels, if_true] at hda hdt ⊢
      have hts : t ≠ s := by
        rintro rfl
        simp [closeSide_closed] at hdt
      rw [closeSide_closed, if_neg hts] at hdt
      obtain ⟨j, g, hja, hjg, hjp⟩ := hl.named d t ha hdt
      have hne : ¬ (j = i ∧ g = h) := by
        rintro ⟨rfl, rfl⟩
        have hst := hjp.symm.trans hs.symm
        have hap := hl.apart d ha
        fin_cases t <;> fin_cases s <;> simp_all
      exact ⟨j, g, by simpa using hja, by simpa [hne] using hjg, by simpa [hpid] using hjp⟩
    · simp only [setHandle_channels, setChannel_channels, if_neg hdc] at hda hdt ⊢
      obtain ⟨j, g, hja, hjg, hjp⟩ := hl.named d t hda hdt
      have hne : ¬ (j = i ∧ g = h) := by
        rintro ⟨rfl, rfl⟩
        exact hdc (Fin.ext (by omega))
      exact ⟨j, g, by simpa using hja, by simpa [hne] using hjg, by simpa using hjp⟩
  · simp only [setHandle_alive, setHandle_pid, setChannel_processes] at hja hja' hpids
    have h₁ : ¬ (j = i ∧ g = h) := fun hx ↦ hjg (by simp [hx])
    have h₂ : ¬ (j' = i ∧ g' = h) := fun hx ↦ hjg (by rw [heq]; simp [hx])
    simp only [setHandle_ipcHandles, setChannel_processes, if_neg h₁, if_neg h₂] at hjg heq
    exact hl.unique j g j' g' hja hja' hjg heq hpids
  · by_cases hdc : d = c
    · subst hdc
      simpa [hpid] using hl.apart d ha
    · simp only [setHandle_channels, setChannel_channels, if_neg hdc] at hda ⊢
      exact hl.apart d hda
  · by_cases hdc : d = c
    · subst hdc
      simp only [setHandle_channels, setChannel_channels, if_true] at hda ⊢
      exact (active_of_closeSide hda).2
    · simp only [setHandle_channels, setChannel_channels, if_neg hdc] at hda ⊢
      exact hl.half d hda
  · simp only [setHandle_state, setChannel_processes] at hz
    have := hl.dead j g hz
    simp [this]

end Close

section Open

variable {h g : Fin 8} {owner peer : ℕ}

theorem Linked.not_named (hl : Linked k) (hc : (k.channels c).active = false) (j f : Fin 8)
    (hj : (k.processes j).alive = true) : (k.processes j).ipcHandles f ≠ c + 1 := by
  intro hf
  obtain ⟨d, hd, hda, -⟩ := hl.held j f hj (by omega)
  obtain rfl : d = c := Fin.ext (by omega)
  simp [hc] at hda

theorem Linked.open (hl : Linked k) (hne : owner ≠ peer) (hi : (k.processes i).alive = true)
    (hj : (k.processes j).alive = true) (hio : (k.processes i).pid = owner)
    (hjp : (k.processes j).pid = peer) (hih : (k.processes i).ipcHandles h = 0)
    (hjg : (k.processes j).ipcHandles g = 0) (hc : (k.channels c).active = false) :
    Linked (((k.setChannel c (openChannel (k.channels c) owner peer)).setHandle i h
      (c + 1)).setHandle j g (c + 1)) := by
  have hfree := hl.not_named hc
  generalize hk' : (((k.setChannel c (openChannel (k.channels c) owner peer)).setHandle i h
      (c + 1)).setHandle j g (c + 1)) = k'
  have halive : ∀ a, (k'.processes a).alive = (k.processes a).alive := by simp [← hk']
  have hpid : ∀ a, (k'.processes a).pid = (k.processes a).pid := by simp [← hk']
  have hstate : ∀ a, (k'.processes a).state = (k.processes a).state := by simp [← hk']
  have hhandle : ∀ a f, (k'.processes a).ipcHandles f =
      if a = j ∧ f = g then (c : ℕ) + 1 else if a = i ∧ f = h then (c : ℕ) + 1
      else (k.processes a).ipcHandles f := by simp [← hk']
  have hchan : ∀ d, k'.channels d =
      if d = c then openChannel (k.channels c) owner peer else k.channels d := by simp [← hk']
  have hnew : ∀ a f, (k.processes a).alive = true → (k'.processes a).ipcHandles f = c + 1 →
      (a = i ∧ f = h) ∨ (a = j ∧ f = g) := by
    intro a f ha hf
    rw [hhandle] at hf
    split_ifs at hf with h₁ h₂
    · exact .inr h₁
    · exact .inl h₂
    · exact absurd hf (hfree a f ha)
  have hkeep : ∀ a f, (k.processes a).ipcHandles f ≠ 0 →
      (k'.processes a).ipcHandles f = (k.processes a).ipcHandles f := by
    intro a f hf
    rw [hhandle, if_neg, if_neg]
    · rintro ⟨rfl, rfl⟩
      exact hf hih
    rintro ⟨rfl, rfl⟩
    exact hf hjg
  refine ⟨fun a f ha hf ↦ ?_, fun d s hda hds ↦ ?_, fun a f a' f' ha ha' hf heq hp ↦ ?_,
    fun d hda ↦ ?_, fun d hda ↦ ?_, fun a f hz ↦ ?_⟩
  · rw [halive] at ha
    by_cases hcf : (k'.processes a).ipcHandles f = c + 1
    · refine ⟨c, hcf, by simp [hchan, openChannel], ?_⟩
      rcases hnew a f ha hcf with ⟨rfl, rfl⟩ | ⟨rfl, rfl⟩
      · exact ⟨0, by simp [hchan, openChannel, hpid, hio], by simp [hchan, openChannel]⟩
      · exact ⟨1, by simp [hchan, openChannel, hpid, hjp], by simp [hchan, openChannel]⟩
    have hsame : (k'.processes a).ipcHandles f = (k.processes a).ipcHandles f := by
      rw [hhandle] at hcf ⊢
      split_ifs at hcf ⊢
      · exact absurd rfl hcf
      · exact absurd rfl hcf
      · rfl
    rw [hsame] at hf
    obtain ⟨d, hd, hda, s, hdp, hds⟩ := hl.held a f ha hf
    have hdc : d ≠ c := by
      rintro rfl
      exact hcf (hsame.trans hd)
    exact ⟨d, hsame.trans hd, by simpa [hchan, hdc] using hda, s, by
      simpa [hchan, hdc, hpid] using hdp, by simpa [hchan, hdc] using hds⟩
  · by_cases hdc : d = c
    · subst hdc
      fin_cases s
      · exact ⟨i, h, by rw [halive, hi], by rw [hhandle]; simp, by
          simp [hchan, openChannel, hpid, hio]⟩
      exact ⟨j, g, by rw [halive, hj], by rw [hhandle]; simp, by
        simp [hchan, openChannel, hpid, hjp]⟩
    · rw [hchan, if_neg hdc] at hda hds ⊢
      obtain ⟨a, f, ha, hf, hap⟩ := hl.named d s hda hds
      exact ⟨a, f, by rw [halive, ha], by rw [hkeep a f (by omega), hf], by rw [hpid, hap]⟩
  · rw [halive] at ha ha'
    rw [hpid, hpid] at hp
    by_cases hcf : (k'.processes a).ipcHandles f = c + 1
    · rcases hnew a f ha hcf with ⟨rfl, rfl⟩ | ⟨rfl, rfl⟩ <;>
        rcases hnew a' f' ha' (heq ▸ hcf) with ⟨rfl, rfl⟩ | ⟨rfl, rfl⟩
      · exact ⟨rfl, rfl⟩
      · exact absurd (hio.symm.trans (hp.trans hjp)) hne
      · exact absurd (hio.symm.trans (hp.symm.trans hjp)) hne
      · exact ⟨rfl, rfl⟩
    have hcf' : (k'.processes a').ipcHandles f' ≠ c + 1 := heq ▸ hcf
    rw [hhandle] at hf heq hcf
    rw [hhandle a'] at heq hcf'
    split_ifs at hf heq hcf hcf' <;> first | exact absurd rfl hcf | exact absurd rfl hcf' | skip
    exact hl.unique a f a' f' ha ha' hf heq hp
  · by_cases hdc : d = c
    · simpa [hchan, hdc, openChannel] using hne
    · rw [hchan, if_neg hdc] at hda ⊢
      exact hl.apart d hda
  · by_cases hdc : d = c
    · exact ⟨0, by simp [hchan, hdc, openChannel]⟩
    · rw [hchan, if_neg hdc] at hda ⊢
      exact hl.half d hda
  · rw [hstate] at hz
    have hni : ∀ b, (k.processes b).alive = true → a ≠ b := by
      rintro b hb rfl
      simp [Process.alive, hz] at hb
    rw [hhandle, if_neg fun h ↦ hni j hj h.1, if_neg fun h ↦ hni i hi h.1]
    exact hl.dead a f hz

end Open

end NexusOS.Core
