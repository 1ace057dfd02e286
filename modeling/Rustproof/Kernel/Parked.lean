/-
Who is on the run queue, and who is parked and for what.

`Entitled`: nobody is parked in a rendezvous or a wait it has no authority for. `Paired`: no endpoint has both a sender
and a receiver parked on it. Both are kept by every change (`Change.entitled`, `Change.paired`): a process's state changes
only when it is woken, parked with the checks made, freed or loaded (`Change.state`), and what takes authority away from
a parked process wakes it.

`run_queue_in_step` and `parked_with_authority` are the invariants of the process table, the queue and `CURRENT`.
-/
import Rustproof.Kernel.Inputs

namespace Rustproof.Kernel

open Lib Prog

variable {A : Arch} {C : Config} {G : Gate} {me : ℕ} {k : Trap} {s s' : KState}

/-- nobody is parked without authority -/
def Entitled (s : KState) : Prop := ∀ i, stranded s i = false

/-- no endpoint has both a parked sender and a parked receiver -/
def Paired (s : KState) : Prop :=
  ∀ i j ep, (s.procs i).state.sends = some ep → (s.procs j).state.receives = some ep → False

/-! ## The states of processes -/

theorem state_refuse (i q : ℕ) (s : KState) :
    ((refuse A i s).procs q).state = (s.procs q).state ∨ ((refuse A i s).procs q).state = .ready := by
  rw [refuse, KState.enqueue_procs, KState.modProc_procs, Table.put_apply]
  split_ifs
  · exact Or.inr rfl
  · exact Or.inl rfl

theorem state_refusePeers (q : ℕ) (s : KState) :
    ((refusePeers A s).procs q).state = (s.procs q).state ∨ ((refusePeers A s).procs q).state = .ready := by
  rw [refusePeers]
  refine List.foldlRecOn (motive := fun t : KState => (t.procs q).state = (s.procs q).state ∨ (t.procs q).state = .ready)
    _ _ (Or.inl rfl) fun t ht i _ => ?_
  rw [refuseUnanswerable]
  cases awaited t i with
  | none => exact ht
  | some en =>
    simp only
    split_ifs
    · exact ht
    · rcases state_refuse (A := A) i q t with h | h
      · rw [h]; exact ht
      · exact Or.inr h

theorem state_settle (p q : ℕ) (s : KState) :
    ((settle A p s).procs q).state = (s.procs q).state ∨ ((settle A p s).procs q).state = .ready := by
  have h1 : ((dropCredits p s).procs q).state = (s.procs q).state := state_modProc rfl q
  rw [settle]
  split_ifs
  · rw [← h1]; exact state_refuse p q _
  · exact Or.inl h1

theorem state_strip (d : Deleg.Endpoint) (q : ℕ) (s : KState) :
    wp (strip A C d) (fun _ t => (t.procs q).state = (s.procs q).state ∨ (t.procs q).state = .ready) (· = .ringFull) s := by
  refine wp_mono (strip_spec d s) fun _ t ht => ?_
  rcases ht with rfl | ⟨-, -, v, hv, rfl⟩
  · exact Or.inl rfl
  · have h1 : (v.procs q).state = (s.procs q).state := (hv.toStill.state q).trans (state_modProc rfl q)
    rw [← h1]; exact state_settle d.proc q v

/-- a process's state is kept, or it is woken, freed or loaded, or it is the caller that parks -/
theorem Change.state (h : Change A C me k s s') (q : ℕ) :
    (s'.procs q).state = (s.procs q).state ∨ (s'.procs q).state = .ready ∨ (s'.procs q).state = .free ∨
    q = me ∧ Control A me k s s' ∧ MayPark A me k s (s'.procs q).state := by
  cases h with
  | control h =>
    rcases h.state q with h1 | ⟨-, -, h1⟩ | ⟨h1, -, h2⟩
    · exact Or.inl h1
    · exact Or.inr (Or.inl h1)
    · exact Or.inr (Or.inr (Or.inr ⟨h1, h, h1 ▸ h2⟩))
  | receive => exact Or.inl (state_takeMessage _ s q)
  | still h => exact Or.inl (h.state q)
  | revoke _ _ h =>
    have hstrip : ∀ (d : Deleg.Endpoint) (t : KState), ((t.procs q).state = (s.procs q).state ∨ (t.procs q).state = .ready) →
        wp (strip A C d) (fun _ u => (u.procs q).state = (s.procs q).state ∨ (u.procs q).state = .ready) (· = .ringFull) t := by
      refine fun d t ht => wp_mono (state_strip d q t) fun _ u hu => ?_
      rcases hu with hu | hu
      · rw [hu]; exact ht
      · exact Or.inr hu
    exact (wp_ok (wp_revoke (I := fun t : KState => (t.procs q).state = (s.procs q).state ∨ (t.procs q).state = .ready)
      (Or.inl rfl) fun d _ => hstrip d) h).imp_right Or.inl
  | reap =>
    rcases state_refusePeers (A := A) q (Kernel.reap me s) with h | h
    · rw [h, procs_reap, Table.put_apply]
      split_ifs
      · exact Or.inr (Or.inr (Or.inl rfl))
      · exact Or.inl rfl
    · exact Or.inr (Or.inl h)
  | @arrive _ slot _ h =>
    by_cases hq : q = slot
    · obtain ⟨token, hd, idArg, role, frames, caps, -, hproc⟩ := h.proc
      rw [hq, KState.enqueue_procs, hproc, Table.put_self]
      exact Or.inr (Or.inl rfl)
    · rw [h.other hq]; exact Or.inl rfl

/-! ## Authority -/

/-- what is asked of a parked process depends on its state and the endpoints and lines it holds -/
theorem stranded_congr {t : KState} {i : ℕ} (hst : (t.procs i).state = (s.procs i).state)
    (hep : ∀ ep needed, capsHoldEndpoint (t.procs i).caps ep needed = capsHoldEndpoint (s.procs i).caps ep needed)
    (hirq : ∀ line, capsHoldIrq (t.procs i).caps line = capsHoldIrq (s.procs i).caps line) :
    stranded t i = stranded s i := by
  rw [stranded, stranded, hst]
  cases (s.procs i).state with
  | blockedSend ep word len => simp only [hep]
  | blockedRecv ep dst max => simp only [hep]
  | blockedIrq line => simp only [creditable, hirq]
  | free | ready => rfl

theorem stranded_caps {t : KState} {i : ℕ} (hst : (t.procs i).state = (s.procs i).state)
    (hcaps : (t.procs i).caps = (s.procs i).caps) : stranded t i = stranded s i :=
  stranded_congr hst (fun _ _ => by rw [hcaps]) fun _ => by rw [hcaps]

theorem stranded_ready {i : ℕ} (h : (s.procs i).state = .ready ∨ (s.procs i).state = .free) : stranded s i = false := by
  rw [stranded]
  rcases h with h | h <;> rw [h]

theorem MayPark.entitled {st : ProcState} (h : MayPark A me k s st) {t : KState} (hst : (t.procs me).state = st)
    (hcaps : (t.procs me).caps = (s.procs me).caps) : stranded t me = false := by
  rw [stranded, hst, hcaps]
  cases st with
  | blockedSend ep word len => simp [h.1]
  | blockedRecv ep dst max => simp [h.1]
  | blockedIrq line =>
    have h1 : creditable s me line = true := h.1
    rw [creditable] at h1
    simp [creditable, hcaps, h1]
  | free | ready => rfl

theorem caps_refuse (i q : ℕ) (s : KState) : ((refuse A i s).procs q).caps = (s.procs q).caps := by
  rw [refuse, KState.enqueue_procs, KState.modProc_procs, Table.put_apply]
  split_ifs with h
  · rw [h]
  · rfl

theorem caps_refusePeers (q : ℕ) (s : KState) : ((refusePeers A s).procs q).caps = (s.procs q).caps := by
  rw [refusePeers]
  refine List.foldlRecOn (motive := fun t : KState => (t.procs q).caps = (s.procs q).caps) _ _ rfl fun t ht i _ => ?_
  rw [refuseUnanswerable]
  cases awaited t i with
  | none => exact ht
  | some en =>
    simp only
    split_ifs
    · exact ht
    · exact (caps_refuse i q t).trans ht

theorem caps_settle (p q : ℕ) (s : KState) : ((settle A p s).procs q).caps = (s.procs q).caps := by
  have h1 : ((dropCredits p s).procs q).caps = (s.procs q).caps := by
    rw [dropCredits, KState.modProc_procs, Table.put_apply]
    split_ifs with h
    · rw [h]
    · rfl
  rw [settle]
  split_ifs
  · exact (caps_refuse p q _).trans h1
  · exact h1

/-- whoever a revocation strands is woken in the same iteration -/
theorem entitled_strip (d : Deleg.Endpoint) (h : Entitled s) :
    wp (strip A C d) (fun _ => Entitled) (· = .ringFull) s := by
  refine wp_mono (strip_spec d s) fun _ t ht i => ?_
  rcases ht with rfl | ⟨-, -, v, hv, rfl⟩
  · exact h i
  have hst : (v.procs i).state = (s.procs i).state := (hv.toStill.state i).trans (state_modProc rfl i)
  by_cases hi : i = d.proc
  · -- the one that was stripped
    subst hi
    rw [settle]
    split_ifs with hstr
    · refine stranded_ready (Or.inl ?_)
      rw [refuse, KState.enqueue_procs, KState.modProc_procs, Table.put_self]
    · simpa using hstr
  · rcases state_settle (A := A) d.proc i v with h1 | h1
    · refine (stranded_caps (h1.trans hst) ?_).trans (h i)
      rw [caps_settle, hv.caps_eq, KState.modProc_procs, Table.put_of_ne _ hi]
    · exact stranded_ready (Or.inl h1)

/-- **A change strands nobody.** -/
theorem Change.entitled (h : Change A C me k s s') (he : Entitled s) : Entitled s' := by
  intro i
  have hstate := h.state i
  cases h with
  | control h =>
    have hcaps : (s'.procs i).caps = (s.procs i).caps := Process.caps_eq (h.quiet.authority i)
    rcases hstate with h1 | h1 | h1 | ⟨rfl, -, h1⟩
    · exact (stranded_caps h1 hcaps).trans (he i)
    · exact stranded_ready (Or.inl h1)
    · exact stranded_ready (Or.inr h1)
    · exact h1.entitled rfl hcaps
  | @receive t =>
    obtain ⟨⟨f, hf⟩, -⟩ := takeMessage_spec (A := A) t s
    refine (stranded_caps (state_takeMessage t s i) ?_).trans (he i)
    rw [hf, Table.put_apply]
    split_ifs with hi
    · rw [hi]
    · rfl
  | still h => exact (stranded_congr (h.state i) (fun ep needed => h.endpoint i ep needed) fun line => h.irq i line).trans (he i)
  | revoke _ _ h => exact wp_ok (wp_revoke (I := Entitled) (fun i => he i) fun d _ t ht => entitled_strip d ht) h i
  | reap =>
    rcases state_refusePeers (A := A) i (Kernel.reap me s) with h1 | h1
    · by_cases hi : i = me
      · refine stranded_ready (Or.inr ?_)
        rw [h1, procs_reap, hi, Table.put_self]
      · refine (stranded_caps ?_ ?_).trans (he i)
        · rw [h1, procs_reap, Table.put_of_ne _ hi]
        · rw [caps_refusePeers, procs_reap, Table.put_of_ne _ hi]
    · exact stranded_ready (Or.inl h1)
  | @arrive _ slot _ h =>
    by_cases hi : i = slot
    · obtain ⟨token, hd, idArg, role, frames, caps, -, hproc⟩ := h.proc
      refine stranded_ready (Or.inl ?_)
      rw [hi, KState.enqueue_procs, hproc, Table.put_self]
      rfl
    · exact (stranded_caps (by rw [h.other hi]) (by rw [h.other hi])).trans (he i)

/-- **A change parks nobody opposite somebody.** -/
theorem Change.paired (h : Change A C me k s s') (hs : ∀ i, s.live i = true → i < MAX_PROCS) (hp : Paired s) : Paired s' := by
  -- a parked process was parked before, or is the caller
  have old : ∀ i, (s'.procs i).state = (s.procs i).state ∨ i = me ∧ MayPark A me k s (s'.procs i).state ∨
      (s'.procs i).state = .ready ∨ (s'.procs i).state = .free := fun i => by
    rcases h.state i with h1 | h1 | h1 | ⟨h1, -, h2⟩
    · exact Or.inl h1
    · exact Or.inr (Or.inr (Or.inl h1))
    · exact Or.inr (Or.inr (Or.inr h1))
    · exact Or.inr (Or.inl ⟨h1, h2⟩)
  have slot : ∀ i, (s.procs i).state ≠ .free → i < MAX_PROCS := fun i hi =>
    hs i ((bne_iff_ne (b := ProcState.free)).2 hi)
  intro i j ep hi hj
  rcases old i with hi1 | ⟨rfl, hi1⟩ | hi1 | hi1
  · rcases old j with hj1 | ⟨rfl, hj1⟩ | hj1 | hj1
    · exact hp i j ep (hi1 ▸ hi) (hj1 ▸ hj)
    · -- a receiver parks only where nobody is sending
      obtain ⟨dst, max, hst⟩ := receives_iff.1 hj
      rw [hst] at hj1
      rw [hi1] at hi
      exact hj1.2.1 i (slot i fun h0 => by rw [h0] at hi; simp [ProcState.sends] at hi) hi
    · rw [hj1] at hj; simp [ProcState.receives] at hj
    · rw [hj1] at hj; simp [ProcState.receives] at hj
  · obtain ⟨word, len, hst⟩ := sends_iff.1 hi
    rw [hst] at hi1
    rcases old j with hj1 | ⟨rfl, -⟩ | hj1 | hj1
    · rw [hj1] at hj
      exact hi1.2.1 j (slot j fun h0 => by rw [h0] at hj; simp [ProcState.receives] at hj) hj
    · rw [hst] at hj; simp [ProcState.receives] at hj
    · rw [hj1] at hj; simp [ProcState.receives] at hj
    · rw [hj1] at hj; simp [ProcState.receives] at hj
  · rw [hi1] at hi; simp [ProcState.sends] at hi
  · rw [hi1] at hi; simp [ProcState.sends] at hi

/-! ## Every reachable state -/

/-- no process lives outside the table, in any state between two moves -/
theorem Change.slots (h : Change A C me k s s') (hs : ∀ i, s.live i = true → i < MAX_PROCS) (i : ℕ)
    (hi : s'.live i = true) : i < MAX_PROCS := by
  rcases h.live i with h1 | ⟨-, h1⟩ | ⟨-, -, h1, -⟩
  · exact hs i (h1 ▸ hi)
  · rw [hi] at h1; exact absurd h1 (by decide)
  · exact h1

theorem Reachable.entitled_paired {s₀ : KState} (h₀ : PreUserland A C s₀) (h : Reachable A C s₀ s) :
    Entitled s ∧ Paired s := by
  refine (Reachable.keep (I := fun s => (∀ i, s.live i = true → i < MAX_PROCS) ∧ Entitled s ∧ Paired s) h₀ ?_ ?_ h).2
  · refine ⟨h₀.scheduled.slots, fun i => stranded_ready (Or.inr ?_), fun i j ep hi => ?_⟩
    · rw [h₀.noProcs]; rfl
    · rw [h₀.noProcs] at hi; simp [Process.EMPTY, ProcState.sends] at hi
  · rintro me k s t hm ⟨h1, h2, h3⟩
    exact ⟨hm.change.slots h1, hm.change.entitled h2, hm.change.paired h1 h3⟩

/-- **Process table, run queue and `CURRENT` stay in step.** The queue holds the ready processes, each once; no `add` ever
failed; unless the kernel is parked, the queue's current thread is `CURRENT`, whose process is ready; while it is parked the
queue is empty. -/
theorem run_queue_in_step {s₀ : KState} (h₀ : PreUserland A C s₀) (h : Reachable A C s₀ s) :
    (∀ i < MAX_PROCS, (s.procs i).state = .ready ↔ i ∈ s.sched.queue) ∧
    s.sched.queue.Nodup ∧ (∀ i ∈ s.sched.queue, i < MAX_PROCS ∧ (s.procs i).state = .ready) ∧
    (∀ i, Event.queued i false ∉ s.w.history) ∧
    (s.idling = false → s.sched.current = some s.current ∧ (s.procs s.current).state = .ready) ∧
    (s.idling = true → s.sched.queue = []) := by
  obtain ⟨hs, hr, -⟩ := h.ready h₀
  refine ⟨fun i hi => ⟨fun hst => (hs.queue i).2 ⟨hi, hst⟩, fun hq => ((hs.queue i).1 hq).2⟩, hs.ok.nodup,
    fun i hq => (hs.queue i).1 hq, hs.added, fun hi => ?_, fun hi => (hr.parked hi).1⟩
  have hc := (hr.awake hi).1
  exact ⟨hc, hs.current_ready hc⟩

/-- the small machine's queue holds its three processes -/
theorem smallRun_in_step :
    (∀ i < MAX_PROCS, (smallRun.procs i).state = .ready ↔ i ∈ smallRun.sched.queue) ∧
    smallRun.sched.queue.Nodup ∧ (∀ i ∈ smallRun.sched.queue, i < MAX_PROCS ∧ (smallRun.procs i).state = .ready) ∧
    (∀ i, Event.queued i false ∉ smallRun.w.history) ∧
    (smallRun.idling = false →
      smallRun.sched.current = some smallRun.current ∧ (smallRun.procs smallRun.current).state = .ready) ∧
    (smallRun.idling = true → smallRun.sched.queue = []) :=
  run_queue_in_step (smallState_ready emptyImage ROLE_GRANTS 0) (.boot smallRun_boots)

/-- **Blocked states carry present authority**, a sender and a receiver are never parked on one endpoint, and the kernel
parks only for an interrupt that can come. -/
theorem parked_with_authority {s₀ : KState} (h₀ : PreUserland A C s₀) (h : Reachable A C s₀ s) :
    (∀ i ep word len, (s.procs i).state = .blockedSend ep word len →
      capsHoldEndpoint (s.procs i).caps ep CapRights.WRITE = true) ∧
    (∀ i ep dst max, (s.procs i).state = .blockedRecv ep dst max →
      capsHoldEndpoint (s.procs i).caps ep CapRights.READ = true) ∧
    (∀ i line, (s.procs i).state = .blockedIrq line → creditable s i line = true) ∧
    (∀ i j ep word len dst max, (s.procs i).state = .blockedSend ep word len →
      (s.procs j).state ≠ .blockedRecv ep dst max) ∧
    (s.idling = true → ∃ i < MAX_PROCS, s.live i = true ∧ ∃ line, (s.procs i).state = .blockedIrq line ∧
      creditable s i line = true) := by
  obtain ⟨he, hp⟩ := h.entitled_paired h₀
  refine ⟨fun i ep word len hst => ?_, fun i ep dst max hst => ?_, fun i line hst => ?_,
    fun i j ep word len dst max hi hj => hp i j ep ?_ ?_, fun hi => ?_⟩
  · have := he i
    rw [stranded, hst] at this
    simpa using this
  · have := he i
    rw [stranded, hst] at this
    simpa using this
  · have := he i
    rw [stranded, hst] at this
    simpa using this
  · rw [hi]; rfl
  · rw [hj]; rfl
  · obtain ⟨-, i, hlt, line, hst, hcr⟩ := (h.ready h₀).running.parked hi
    exact ⟨i, hlt, (alive_of_state hlt (by rw [hst]; simp)).2, line, hst, hcr⟩

/-- the worker, alone on the machine with a unit, waits for the timer: the kernel parks -/
def workerWaits : KState := fedTo oneUnitConfig workerAlone (.syscall (callFrame sysno.WAIT_IRQ 6 0))

/-- a parked sender on the small machine, and a parked kernel -/
theorem smallSend_parked :
    ((smallSend.procs 0).state = .blockedSend 0 0 0 ∧ capsHoldEndpoint (smallSend.procs 0).caps 0 CapRights.WRITE = true ∧
      ∀ j dst max, (smallSend.procs j).state ≠ .blockedRecv 0 dst max) ∧
    workerWaits.idling = true ∧ ∃ i < MAX_PROCS, workerWaits.live i = true ∧
      ∃ line, (workerWaits.procs i).state = .blockedIrq line ∧ creditable workerWaits i line = true := by
  have hstate : (smallSend.procs 0).state = .blockedSend 0 0 0 := by decide +kernel
  have hreach : Reachable X86 oneUnitConfig oneUnitState workerWaits := workerAlone_reachable.called (by decide +kernel)
  have hidle : workerWaits.idling = true := by decide +kernel
  obtain ⟨hsend, -, -, hpair, -⟩ := parked_with_authority (smallState_ready emptyImage ROLE_GRANTS 0) smallSend_reachable
  obtain ⟨-, -, -, -, hpark⟩ := parked_with_authority oneUnitConfig_ready hreach
  exact ⟨⟨hstate, hsend 0 0 0 0 hstate, fun j dst max => hpair 0 j 0 0 0 dst max hstate⟩, hidle, hpark hidle⟩

end Rustproof.Kernel
