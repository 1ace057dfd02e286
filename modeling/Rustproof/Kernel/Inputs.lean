/-
One input, and the boot, as sequences of moves.

`handle_moves` is the step lemma for invariants of the kernel: from a `Ready` state an input makes moves for its caller and
leaves the kernel `Ready`, with the caller's registers saved. `boot_moves` is the same for the hand-off to userland, and
`Reachable.ready` puts them together.
- `teardown_fits`: no run ends because a teardown plan does not fit.
-/
import Rustproof.Kernel.Calls

namespace Rustproof.Kernel

open Lib Prog

variable {A : Arch} {C : Config} {G : Gate} {me : ℕ} {k : Trap} {s t : KState}

/-- who an input interrupts: nobody, while the kernel is parked -/
def KState.caller (s : KState) : ℕ := if s.idling = true then NOBODY else s.current

/-- the registers an input saves for its caller -/
def Input.trap (A : Arch) (s : KState) : Input → Trap
  | .syscall frame => .syscall (snapshot A frame UserFrame.ZERO)
  | .timer frame | .device frame => .interrupt (snapshot A frame (s.procs s.current).frame)
  | .fault | .store .. => .interrupt (s.procs s.current).frame

/-- the run is not restricted to refuse this input -/
def Gate.Admits (G : Gate) (A : Arch) (s : KState) : Input → Prop
  | .syscall frame => G.Calls A s.current (snapshot A frame UserFrame.ZERO) s
  | _ => True

theorem Gate.admits_all (A : Arch) (s : KState) (i : Input) : Gate.all.Admits A s i := by
  cases i with
  | syscall => exact ⟨fun _ _ _ _ _ => trivial, fun _ => trivial⟩
  | _ => trivial

theorem caller_awake (h : s.idling = false) : s.caller = s.current := by simp [KState.caller, h]
theorem caller_parked (h : s.idling = true) : s.caller = NOBODY := by simp [KState.caller, h]

theorem Ready.called (h : Ready s) (hi : s.idling = false) : Called s s.current := ⟨h, hi, rfl⟩

/-! ## System calls and faults -/

/-- control goes back to a process nothing is pending for -/
theorem resumeProcess_idle {x : ℕ} (h : (s.procs x).pendingLen = 0) :
    resumeProcess A x s = (s.setCr3 (s.procs x).token).record .resumed := by
  rw [resumeProcess_eq, h]
  rfl

/-- a call that is answered: its caller's registers are set, and whoever is current resumes -/
theorem wp_answered {frame : UserFrame} {Q : UserFrame → KState → Prop} {E : Halt → Prop}
    (h : wp (service A C s.current (snapshot A frame UserFrame.ZERO)) (fun out u => ∃ f, out = some f ∧ Q f u) E s) :
    wp (syscallTrap A C frame) (fun _ t => ∃ f u, Q f u ∧
      t = resumeProcess A u.current (u.modProc s.current fun p => { p with frame := f })) E s := by
  rw [syscallTrap]
  simp only [wp_bind, wp_get]
  refine wp_mono h fun out u hu => ?_
  obtain ⟨f, rfl, hq⟩ := hu
  exact ⟨f, u, hq, rfl⟩

/-- the same where the caller goes on, with nothing pending for it -/
theorem wp_answered_back {frame : UserFrame} {Q : UserFrame → KState → Prop} {E : Halt → Prop}
    (h : wp (service A C s.current (snapshot A frame UserFrame.ZERO)) (fun out u => ∃ f, out = some f ∧
      u.current = s.current ∧ (u.procs s.current).pendingLen = 0 ∧ Q f u) E s) :
    wp (syscallTrap A C frame) (fun _ t => ∃ f u, Q f u ∧
      t = ((u.modProc s.current fun p => { p with frame := f }).setCr3 (u.procs s.current).token).record .resumed) E s := by
  refine wp_mono (wp_answered h) fun _ t ht => ?_
  obtain ⟨f, u, ⟨hcur, hpend, hq⟩, rfl⟩ := ht
  have hproc : (u.modProc s.current fun p => { p with frame := f }).procs s.current =
      { u.procs s.current with frame := f } := by
    rw [KState.modProc_procs, Table.put_self]
  have hidle : ((u.modProc s.current fun p => { p with frame := f }).procs s.current).pendingLen = 0 := by
    rw [hproc]
    exact hpend
  refine ⟨f, u, hq, ?_⟩
  rw [hcur, resumeProcess_idle hidle, hproc]

theorem wp_syscallTrap (h : Ready s) (hi : s.idling = false) (frame : UserFrame)
    (hgate : G.Calls A s.current (snapshot A frame UserFrame.ZERO) s) :
    wp (syscallTrap A C frame) (fun _ t => Moves A C G s.current (.syscall (snapshot A frame UserFrame.ZERO)) s t ∧ Ready t ∧
      Kept A (.syscall (snapshot A frame UserFrame.ZERO)) (t.procs s.current))
      (Ends A C G s.current (.syscall (snapshot A frame UserFrame.ZERO)) s) s := by
  have hc := h.called hi
  rw [syscallTrap]
  simp only [wp_bind, wp_get]
  refine wp_mono (wp_service hc hgate) fun out t ht => ?_
  cases out with
  | none => exact ht
  | some f =>
    obtain ⟨hm, htail, hk⟩ := ht
    -- the results are in the frame; whoever is current resumes
    have hp : Control A s.current (.syscall (snapshot A frame UserFrame.ZERO)) t
        (t.modProc s.current fun p => { p with frame := f }) := .persist f hk
    have hm' : Moves A C G s.current (.syscall (snapshot A frame UserFrame.ZERO)) s
        (t.modProc s.current fun p => { p with frame := f }) := hm.tail (.control hp)
    have htail' : Tail (t.modProc s.current fun p => { p with frame := f }) :=
      ⟨(Steady.modProc t s.current (fun p => { p with frame := f }) rfl rfl rfl).sched htail.sched, hm'.ids h.ids,
        htail.idling, htail.current⟩
    obtain ⟨hr, hready⟩ := htail'.resume (A := A) (C := C) (G := G) (k := .syscall (snapshot A frame UserFrame.ZERO))
      s.current
    refine ⟨hm'.trans hr, hready, hr.own hc.ne_nobody ?_⟩
    rw [KState.modProc_procs, Table.put_self]
    cases hl : t.live s.current with
    | true => exact hk hl
    | false => exact Kept.free (by simpa [KState.live, Process.live] using hl)

theorem wp_faultTrap (h : Ready s) (hi : s.idling = false) :
    wp (faultTrap A C) (fun _ t => Moves A C G s.current k s t ∧ Ready t ∧ t.live s.current = false)
      (Ends A C G s.current k s) s := by
  have hc := h.called hi
  rw [faultTrap]
  simp only [wp_bind, wp_get, wp_modify]
  have hm : Moves A C G s.current k s { s with killed := (s.killed + 1) % U64 } :=
    .single (.control (.count s.nextId _ s.parks s.deviceWakes))
  have hs : Steady s { s with killed := (s.killed + 1) % U64 } := Steady.of_control rfl rfl rfl rfl rfl fun _ => id
  have hu := hc.step hm hs
  refine wp_imp (wp_teardownProcess (A := A) (C := C) (G := G) (k := k) hu.ready.sched hu.ready.ids hu.idling hu.current
    hu.alive hu.state) (fun _ t _ ht => ?_) fun e => Ends.before hm
  obtain ⟨hmt, hst, hit, hd⟩ := ht
  have hm' : Moves A C G s.current k s t := hm.trans hmt
  rw [wp_bind]
  refine wp_imp (wp_switchAway (A := A) (C := C) (G := G) (k := k) s.current hst (hm'.ids h.ids) hit)
    (fun b u _ hu => ?_) fun e => Ends.before hm'
  have hdu := hu.1.dead hc.ne_nobody hd
  cases b with
  | false => exact ⟨hm'.trans hu.1, hu.2, hdu⟩
  | true =>
    obtain ⟨hr, hready⟩ := hu.2.1.resume (A := A) (C := C) (G := G) (k := k) s.current
    exact ⟨(hm'.trans hu.1).trans hr, hready, hr.dead hc.ne_nobody hdu⟩

/-! ## Interrupts -/

/-- credits wake interrupt waiters, and do nothing else to a process's state -/
theorem state_controls {u : KState} (h : Relation.ReflTransGen (Control A NOBODY k) s u) {q : ℕ} (hq : q < MAX_PROCS) :
    (u.procs q).state = (s.procs q).state ∨ (u.procs q).state = .ready := by
  induction h with
  | refl => exact Or.inl rfl
  | tail _ hstep ih =>
    rcases hstep.state q with h1 | ⟨-, -, h1⟩ | ⟨h1, -⟩
    · rw [h1]; exact ih
    · exact Or.inr h1
    · rw [h1] at hq; exact absurd hq (by decide)

theorem caps_controls {u : KState} (h : Relation.ReflTransGen (Control A me k) s u) (q : ℕ) :
    (u.procs q).caps = (s.procs q).caps := by
  induction h with
  | refl => rfl
  | tail _ hstep ih => rw [← ih]; exact Process.caps_eq (hstep.quiet.authority q)

/-- an interrupt that wakes nobody leaves the kernel parked for whoever it was parked for -/
theorem parked_credit {u : KState} (h : Ready s) (hi : s.idling = true)
    (hc : Relation.ReflTransGen (Control A NOBODY k) s u) (hs : Steady s u) (hids : RegionIds u)
    (hnone : u.sched.current = none) : Ready u := by
  have hsch := hs.sched h.sched
  have hq := Sched.Scheduler.current_none hsch.ok hnone
  refine ⟨hsch, ⟨fun h0 => ?_, fun _ => ⟨hq, ?_⟩⟩, hids⟩
  · rw [hs.idling, hi] at h0; exact absurd h0 (by decide)
  · obtain ⟨-, i, hlt, line, hst, hcr⟩ := h.running.parked hi
    refine ⟨i, hlt, line, ?_, ?_⟩
    · rcases state_controls hc hlt with h1 | h1
      · rw [h1]; exact hst
      · have := (hsch.queue i).2 ⟨hlt, h1⟩
        rw [hq] at this; exact absurd this List.not_mem_nil
    · rw [creditable, caps_controls hc]; exact hcr

theorem wakeIdle_moves (h : Ready s) (hi : s.idling = true) (hk : k.Credits A) (irq : ℕ) :
    Moves A C G NOBODY k s (wakeIdle A irq s) ∧ Ready (wakeIdle A irq s) := by
  obtain ⟨hc, hs⟩ := hush_creditIrq (A := A) (k := k) NOBODY hk irq s
  have hm : Moves A C G NOBODY k s (creditIrq A irq s) := hc.lift id fun _ _ h => .control h
  have hsch := hs.sched h.sched
  rw [wakeIdle]
  generalize creditIrq A irq s = u at hc hs hm hsch ⊢
  simp only
  cases hcur : u.sched.current with
  | none => exact ⟨hm, parked_credit h hi hc hs (hm.ids h.ids) hcur⟩
  | some t =>
    set wakes := if irq = IRQ_CONSOLE then (u.deviceWakes + 1) % U64 else u.deviceWakes
    have hsw : Moves A C G NOBODY k u { u with idling := false, deviceWakes := wakes, current := t } :=
      .tail (.single (.control (.count u.nextId u.killed u.parks wakes))) (.control (.cpu _ t false))
    have hst : Scheduled { u with idling := false, deviceWakes := wakes, current := t } :=
      ⟨hsch.ok, hsch.queue, hsch.slots, hsch.added⟩
    obtain ⟨h1, h2⟩ := ready_resume (A := A) (C := C) (G := G) (k := k) NOBODY hst
      (Moves.ids (hm.trans hsw) h.ids) rfl rfl hcur
    exact ⟨(hm.trans hsw).trans h1, h2⟩

/-- round-robin to the next ready process -/
theorem reschedule_moves (h : Called s me) :
    Moves A C G me k s (reschedule A s) ∧ Ready (reschedule A s) := by
  obtain ⟨t, ht⟩ := Sched.Scheduler.next_some ((h.ready.sched.queue me).2 ⟨h.alive.1, h.state⟩)
  rw [reschedule, ht]
  simp only [Option.getD_some]
  have hm : Moves A C G me k s { s with current := t, sched := s.sched.next.2 } :=
    .single (.control (.switch t s.idling (Sched.Scheduler.next_queue s.sched) Sched.Scheduler.ok_next))
  have hs := h.ready.sched
  have hsch : Scheduled { s with current := t, sched := s.sched.next.2 } := by
    refine ⟨Sched.Scheduler.ok_next hs.ok, fun p => ?_, hs.slots, hs.added⟩
    show p ∈ s.sched.next.2.queue ↔ p < MAX_PROCS ∧ (s.procs p).state = .ready
    rw [Sched.Scheduler.next_queue]; exact hs.queue p
  obtain ⟨h1, h2⟩ := ready_resume (A := A) (C := C) (G := G) (k := k) me hsch (hm.ids h.ready.ids) h.idling rfl
    (Sched.Scheduler.next_current ht)
  exact ⟨hm.trans h1, h2⟩

/-- an interrupt saves the running process's registers and credits whoever holds the line -/
theorem interrupt_called (h : Ready s) (hi : s.idling = false) (frame : UserFrame) (irq : ℕ) :
    ∃ u, u = creditIrq A irq (saveFrame A frame s) ∧ u.current = s.current ∧
      Moves A C G s.current (.interrupt (snapshot A frame (s.procs s.current).frame)) s u ∧ Called u s.current ∧
      Kept A (.interrupt (snapshot A frame (s.procs s.current).frame)) (u.procs s.current) := by
  have hc := h.called hi
  have hkept : Kept A (.interrupt (snapshot A frame (s.procs s.current).frame))
      { s.procs s.current with frame := snapshot A frame (s.procs s.current).frame } := by
    unfold Kept
    simp only [hc.state, hc.pending]
    exact ⟨trivial, fun h0 => absurd h0 (lt_irrefl 0)⟩
  have hsave : saveFrame A frame s = s.modProc s.current fun p =>
      { p with frame := snapshot A frame (s.procs s.current).frame } := rfl
  have hm1 : Moves A C G s.current (.interrupt (snapshot A frame (s.procs s.current).frame)) s (saveFrame A frame s) := by
    rw [hsave]; exact .single (.control (.persist _ fun _ => hkept))
  have hs1 : Steady s (saveFrame A frame s) := Steady.modProc s s.current _ rfl rfl rfl
  obtain ⟨hcr, hs2⟩ := hush_creditIrq (A := A) (k := .interrupt (snapshot A frame (s.procs s.current).frame))
    s.current trivial irq (saveFrame A frame s)
  have hm2 : Moves A C G s.current (.interrupt (snapshot A frame (s.procs s.current).frame)) (saveFrame A frame s)
    (creditIrq A irq (saveFrame A frame s)) := hcr.lift id fun _ _ h => .control h
  have hk1 : Kept A (.interrupt (snapshot A frame (s.procs s.current).frame)) ((saveFrame A frame s).procs s.current) := by
    rw [hsave, KState.modProc_procs, Table.put_self]; exact hkept
  refine ⟨_, rfl, hs2.current.trans hs1.current, hm1.trans hm2, hc.step (hm1.trans hm2) (hs1.trans hs2), ?_⟩
  exact hm2.own hc.ne_nobody hk1

theorem preemptTrap_moves (h : Ready s) (hi : s.idling = false) (frame : UserFrame) :
    Moves A C G s.current (.interrupt (snapshot A frame (s.procs s.current).frame)) s (preemptTrap A frame s) ∧
      Ready (preemptTrap A frame s) ∧
      Kept A (.interrupt (snapshot A frame (s.procs s.current).frame)) ((preemptTrap A frame s).procs s.current) := by
  obtain ⟨u, hu, -, hm, hc, hk⟩ := interrupt_called (A := A) (C := C) (G := G) h hi frame IRQ_TIMER
  rw [preemptTrap, hi, if_neg (by decide), ← hu]
  obtain ⟨h1, h2⟩ := reschedule_moves (A := A) (C := C) (G := G)
    (k := .interrupt (snapshot A frame (s.procs s.current).frame)) hc
  exact ⟨hm.trans h1, h2, h1.own hc.ne_nobody hk⟩

theorem deviceTrap_moves (h : Ready s) (hi : s.idling = false) (frame : UserFrame) :
    Moves A C G s.current (.interrupt (snapshot A frame (s.procs s.current).frame)) s (deviceTrap A frame s) ∧
      Ready (deviceTrap A frame s) ∧
      Kept A (.interrupt (snapshot A frame (s.procs s.current).frame)) ((deviceTrap A frame s).procs s.current) := by
  obtain ⟨u, hu, hcur, hm, hc, hk⟩ := interrupt_called (A := A) (C := C) (G := G) h hi frame IRQ_CONSOLE
  rw [deviceTrap, hi, if_neg (by decide), ← hu]
  -- the interrupted process is still on the queue
  have hin : u.sched.contains u.current = true := by
    rw [Sched.Scheduler.contains_iff, hcur]
    exact (hc.ready.sched.queue _).2 ⟨hc.alive.1, hc.state⟩
  simp only
  rw [if_pos hin]
  obtain ⟨h1, h2⟩ := (hc.ready.tail hc.idling).resume (A := A) (C := C) (G := G)
      (k := .interrupt (snapshot A frame (s.procs s.current).frame))
    s.current
  exact ⟨hm.trans h1, h2, h1.own hc.ne_nobody hk⟩

/-! ## One input -/

/-- the input is an entry to the kernel -/
def Input.enters : Input → Bool
  | .store .. => false
  | _ => true

/-- **One input** is a sequence of moves for its caller, whose registers are saved by the end. -/
theorem handle_moves (h : Ready s) {i : Input} (hen : Enabled A s i) (hgate : G.Admits A s i) :
    wp (handle A C i) (fun _ t => Moves A C G s.caller (i.trap A s) s t ∧ Ready t ∧
      (s.idling = false → i.enters = true → Kept A (i.trap A s) (t.procs s.current)))
      (Ends A C G s.caller (i.trap A s) s) s := by
  cases i with
  | syscall frame =>
    have hi : s.idling = false := hen
    rw [caller_awake hi]
    exact wp_mono (wp_syscallTrap h hi frame hgate) fun _ t ⟨h1, h2, h3⟩ => ⟨h1, h2, fun _ _ => h3⟩
  | fault =>
    have hi : s.idling = false := hen
    rw [caller_awake hi]
    refine wp_mono (wp_faultTrap h hi) fun _ t ⟨h1, h2, h3⟩ => ⟨h1, h2, fun _ _ => Kept.free ?_⟩
    simpa [KState.live, Process.live] using h3
  | timer frame =>
    rw [handle, wp_modify]
    cases hi : s.idling with
    | true =>
      rw [caller_parked hi, preemptTrap, if_pos hi]
      obtain ⟨h1, h2⟩ := wakeIdle_moves (A := A) (C := C) (G := G) (k := Input.trap A s (.timer frame)) h hi trivial IRQ_TIMER
      exact ⟨h1, h2, fun h0 => absurd h0 (by decide)⟩
    | false =>
      rw [caller_awake hi]
      obtain ⟨h1, h2, h3⟩ := preemptTrap_moves (A := A) (C := C) (G := G) h hi frame
      exact ⟨h1, h2, fun _ _ => h3⟩
  | device frame =>
    rw [handle, wp_modify]
    cases hi : s.idling with
    | true =>
      rw [caller_parked hi, deviceTrap, if_pos hi]
      obtain ⟨h1, h2⟩ := wakeIdle_moves (A := A) (C := C) (G := G) (k := Input.trap A s (.device frame)) h hi trivial IRQ_CONSOLE
      exact ⟨h1, h2, fun h0 => absurd h0 (by decide)⟩
    | false =>
      rw [caller_awake hi]
      obtain ⟨h1, h2, h3⟩ := deviceTrap_moves (A := A) (C := C) (G := G) h hi frame
      exact ⟨h1, h2, fun _ _ => h3⟩
  | store va b =>
    obtain ⟨hi, hown, hleaf, hw⟩ := hen
    have hc := h.called hi
    rw [caller_awake hi, handle, wp_modify]
    rw [hc.cr3] at hleaf hw ⊢
    have hm : Moves A C G s.current (Input.trap A s (.store va b)) s
        (s.setMem (Vspace.storeUser A (s.procs s.current).token s.w.mem va b)) := .single (.store hc.alive hown hleaf hw)
    exact ⟨hm, (hc.step hm (steady_setMem s _)).ready, fun _ h0 => absurd h0 Bool.false_ne_true⟩

/-- one step of a run makes moves, and the kernel is ready again -/
theorem Step.moves (h : Ready s) {i : Input} (hstep : Step A C s i t) (hgate : G.Admits A s i) :
    Moves A C G s.caller (i.trap A s) s t ∧ Ready t ∧
      (s.idling = false → i.enters = true → Kept A (i.trap A s) (t.procs s.current)) :=
  wp_ok (handle_moves h hstep.1 hgate) hstep.2

/-! ## The boot -/

theorem PreUserland.scheduled (h : PreUserland A C s) : Scheduled s := by
  refine ⟨by rw [h.idle]; exact ⟨List.nodup_nil, Nat.zero_le _, Nat.one_pos⟩, fun t => ?_, fun i hi => ?_, fun i => ?_⟩
  · rw [h.idle, h.noProcs]
    exact ⟨fun h0 => absurd h0 List.not_mem_nil, fun h0 => absurd h0.2 (by decide)⟩
  · rw [KState.live, h.noProcs] at hi; exact absurd hi (by decide)
  · rw [h.unstarted]; exact List.not_mem_nil

theorem PreUserland.regionIds (h : PreUserland A C s) : RegionIds s := by
  have hdead : ∀ i, (s.regions i).live = true → False := fun i hl => by
    rw [h.noRegions] at hl; exact absurd hl (by decide)
  exact ⟨by rw [h.ids.2]; decide, fun i _ hl => (hdead i hl).elim, fun i _ hl => (hdead i hl).elim,
    fun i _ _ _ hl => (hdead i hl).elim⟩

/-- **The hand-off** makes the initial processes and resumes the first of them. -/
theorem boot_moves (h : PreUserland A C s) :
    wp (bootUserland A C) (fun _ t => Moves A C G NOBODY k s t ∧ Ready t) (fun e => e = .loadFailed ∨ e = .mintSourceExtent)
      s := by
  have hloop : wp (forEach (List.range NUM_PROCS) (bootProcess A C)) (fun _ t => Moves A C G NOBODY k s t ∧ Scheduled t ∧
      t.idling = false ∧ ∀ i ≥ (List.range NUM_PROCS).length, t.live i = false)
      (fun e => e = .loadFailed ∨ e = .mintSourceExtent) s := by
    refine wp_forEach_prefix (I := fun (pre : List ℕ) t => Moves A C G NOBODY k s t ∧ Scheduled t ∧ t.idling = false ∧
      ∀ i ≥ pre.length, t.live i = false) (fun pre b post hsplit t ht => ?_)
      ⟨.refl, h.scheduled, h.awake, fun i _ => by rw [KState.live, h.noProcs]; rfl⟩
    obtain ⟨hm, hs, hi, hdead⟩ := ht
    -- process `b` is the next one of the list
    have hlen : pre.length < NUM_PROCS := by
      have := congrArg List.length hsplit
      rw [List.length_range, List.length_append, List.length_cons] at this
      omega
    have hb : b = pre.length := by
      have h1 : (List.range NUM_PROCS)[pre.length]? = some b := by rw [hsplit]; simp
      rw [List.getElem?_range hlen] at h1
      exact (Option.some.inj h1).symm
    have hfree : t.live b = false := hdead b hb.ge
    have hlt : b < NUM_PROCS := hb ▸ hlen
    rw [bootProcess, wp_bind]
    refine wp_imp (wp_self (loadProcess A C b b (bootRole b)) t) (fun ok u hrun _ => ?_) fun e he =>
      Or.inr (wp_error (loadProcess_spec b b (bootRole b) t) he)
    cases ok with
    | false => rw [if_pos rfl]; exact Or.inl rfl
    | true =>
      rw [if_neg (by decide), wp_modify]
      have hnew := arrives_load (hlt.trans_le (by decide)) hfree hrun
      refine ⟨hm.tail (.boot rfl hlt hfree hrun), hnew.scheduled hs, hnew.idling.trans hi, fun i hge => ?_⟩
      rw [List.length_append, List.length_singleton] at hge
      rw [KState.live, hnew.other (by omega)]
      exact hdead i (by omega)
  rw [bootUserland, wp_bind]
  refine wp_mono hloop fun _ t ht => ?_
  obtain ⟨hm, hs, hi, -⟩ := ht
  rw [wp_bind, wp_get]
  cases hc : t.sched.current with
  | none => exact Or.inl rfl
  | some first =>
    simp only [wp_modify]
    have hsw : Moves A C G NOBODY k t { t with current := first } :=
      .single (.control (.cpu _ first t.idling))
    have hst : Scheduled { t with current := first } := ⟨hs.ok, hs.queue, hs.slots, hs.added⟩
    obtain ⟨h1, h2⟩ := ready_resume (A := A) (C := C) (G := G) (k := k) NOBODY hst
      (Moves.ids (hm.trans hsw) h.regionIds) hi rfl hc
    exact ⟨(hm.trans hsw).trans h1, h2⟩

/-! ## Runs -/

/-- **Every reachable state is ready.** -/
theorem Reachable.ready {s₀ : KState} (h₀ : PreUserland A C s₀) (h : Reachable A C s₀ s) : Ready s := by
  induction h with
  | boot h => exact (wp_ok (boot_moves (G := Gate.all) (k := .fresh UserFrame.ZERO) h₀) h).2
  | step _ hstep ih => exact (hstep.moves ih (Gate.admits_all _ _ _)).2.1

/-- what the hand-off establishes and every move keeps holds in every reachable state -/
theorem Reachable.keep {I : KState → Prop} {s₀ : KState} (h₀ : PreUserland A C s₀) (hI : I s₀)
    (hmove : ∀ {me k s t}, Move A C Gate.all me k s t → I s → I t) (h : Reachable A C s₀ s) : I s := by
  induction h with
  | boot h => exact Moves.keep (fun _ _ => hmove) (wp_ok (boot_moves (G := Gate.all) (k := .fresh UserFrame.ZERO) h₀) h).1 hI
  | step h hstep ih => exact Moves.keep (fun _ _ => hmove) (hstep.moves (h.ready h₀) (Gate.admits_all _ _ _)).1 ih

/-! ## Plans that fit -/

/-- **The teardown plan always fits.** Over any tables with distinct live ids a plan of `P * S + 2 * R` steps or more is
never truncated; so it is not in any reachable state of the kernel, and no input, nor the boot, ends a run by refusing one. -/
theorem teardown_fits {s₀ : KState} (h₀ : PreUserland A C s₀) :
    (∀ (R P S N : ℕ) (v : Regions.View R P S), Regions.DistinctIds v → P * S + 2 * R ≤ N →
      (∀ region, (Regions.destroy v region : Regions.Plan N).truncated = false) ∧
        ∀ proc id, (Regions.teardown v proc id : Regions.Plan N).truncated = false) ∧
    bootUserland A C s₀ ≠ .error .planTruncated ∧
    ∀ s, Reachable A C s₀ s →
      (∀ region, (Regions.destroy (regionView s) region : Regions.Plan PLAN_STEPS).truncated = false) ∧
      (∀ proc id, (Regions.teardown (regionView s) proc id : Regions.Plan PLAN_STEPS).truncated = false) ∧
      ∀ i, Enabled A s i → handle A C i s ≠ .error .planTruncated := by
  refine ⟨fun R P S N v hids hN => Regions.plans_fit v hids hN, fun hb => ?_, fun s h => ?_⟩
  · rcases wp_error (boot_moves (G := Gate.all) (k := .fresh UserFrame.ZERO) h₀) hb with he | he
    all_goals exact absurd he (by decide)
  · have hready := h.ready h₀
    obtain ⟨h1, h2⟩ := Regions.plans_fit (regionView s) hready.ids.distinct planSteps_le
    refine ⟨h1, h2, fun i hen hrun => ?_⟩
    exact (wp_error (handle_moves hready hen (Gate.admits_all _ _ _)) hrun).plan rfl

/-- the small machine never refuses a plan -/
theorem smallRun_fits :
    (∀ (R P S N : ℕ) (v : Regions.View R P S), Regions.DistinctIds v → P * S + 2 * R ≤ N →
      (∀ region, (Regions.destroy v region : Regions.Plan N).truncated = false) ∧
        ∀ proc id, (Regions.teardown v proc id : Regions.Plan N).truncated = false) ∧
    bootUserland Riscv (smallConfig emptyImage ROLE_GRANTS 0) (smallState 0) ≠ .error .planTruncated ∧
    ∀ s, Reachable Riscv (smallConfig emptyImage ROLE_GRANTS 0) (smallState 0) s →
      (∀ region, (Regions.destroy (regionView s) region : Regions.Plan PLAN_STEPS).truncated = false) ∧
      (∀ proc id, (Regions.teardown (regionView s) proc id : Regions.Plan PLAN_STEPS).truncated = false) ∧
      ∀ i, Enabled Riscv s i →
        handle Riscv (smallConfig emptyImage ROLE_GRANTS 0) i s ≠ .error .planTruncated :=
  teardown_fits (smallState_ready emptyImage ROLE_GRANTS 0)

end Rustproof.Kernel
