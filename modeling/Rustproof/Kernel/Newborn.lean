/-
What a new process starts with.

A process sees the bytes of its own pages with their flags, its registers, what its calls answer from (credits, share and DMA
tables, messages), and its capabilities: `KState.view`. The frames behind the pages are no part of it.

- `Untouched`: a process as it was loaded; allocation and loads of others leave it so, and its view is `freshView`.
- `syscallTrap_spawns`: what a `SPAWN` that creates a process does, from the load to the return to its caller.
- `newborns_alike`: the view of a new process is `freshView`, in every run; and the frames of a new region read zero.
-/
import Rustproof.Kernel.InitialMemory
import Rustproof.Kernel.Isolation
import Rustproof.Kernel.Registers

namespace Rustproof.Kernel

open Lib Prog Mm Vspace Loader

variable {A : Arch} {C : Config} {s t : KState} {F : Multiset ℕ}

/-! ## What a process sees -/

/-- what a process sees of itself; `caps` are the capabilities nobody delegated to it -/
structure View where
  memory : ℕ → Option (Word × Byte)
  frame : UserFrame
  irqPending : Table ℕ
  shares : Table ℕ
  dma : Table (ℕ × ℕ)
  /-- the payload it is parked with, and what it will be given when it resumes -/
  outgoing : List Byte
  incoming : Option (ℕ × List Byte)
  caps : ℕ → Option Capabilities.CapSlot

namespace KState

/-- an edge of the ledger ends at capability `k` of process `p` -/
def delegatedTo (s : KState) (p k : ℕ) : Bool :=
  anyIdx MAX_DELEGATIONS fun i => (s.ledger.edges i).live && (s.ledger.edges i).child == s.endpointAt p k

def view (A : Arch) (s : KState) (p : ℕ) : View where
  memory := userMemory A s.w.mem (A.root (s.procs p).token)
  frame := (s.procs p).frame
  irqPending := (s.procs p).irqPending
  shares := (s.procs p).shares
  dma := (s.procs p).dma
  outgoing := msgBytes (s.procs p).msg (s.procs p).msgLen
  incoming := if (s.procs p).pendingLen = 0 then none
    else some ((s.procs p).pendingDst, msgBytes (s.procs p).msg (s.procs p).pendingLen)
  caps k := if s.delegatedTo p k = true then none else (s.procs p).caps.lookup k

end KState

/-- what a new process of role `role` and identity `id` sees: the image, and what its role is granted -/
def freshView (A : Arch) (C : Config) (role : Role) (id : ℕ) : View where
  memory := initialMemory A C.userElf
  frame := firstFrame A C id
  irqPending := fun _ => 0
  shares := fun _ => 0
  dma := fun _ => (0, 0)
  outgoing := []
  incoming := none
  caps := (mintGrants A C role).lookup

/-- process `p` is as it was loaded -/
structure Untouched (A : Arch) (C : Config) (F : Multiset ℕ) (role : Role) (id : ℕ) (s : KState) (p : ℕ) : Prop where
  proc : ∃ old token hd frames caps, readHeader A C.userElf = .ok hd ∧
    s.procs p = { freshProcess A C old token hd.entry id role frames with caps := caps }
  space : ∃ rest r hd, readHeader A C.userElf = .ok hd ∧
    Filled (supply A F rest) C.userElf (A.root (s.procs p).token) (initialPages A C.userElf hd) r ∧
    (∀ a, a ∈ freeAddrs s.w.fa → a ∈ freeAddrs r.w.fa) ∧ ∀ a, a ∉ freeAddrs r.w.fa → s.w.mem a = r.w.mem a

namespace Untouched

variable {m₀ : Mem} {role : Role} {id p : ℕ}

/-- what the allocator does next is no concern of a loaded process -/
theorem keep (h : Untouched A C F role id s p)
    (hproc : ∃ caps, t.procs p = { s.procs p with caps := caps })
    (hfree : ∀ a, a ∈ freeAddrs t.w.fa → a ∈ freeAddrs s.w.fa) (hmem : ∀ a, a ∉ freeAddrs s.w.fa → t.w.mem a = s.w.mem a) :
    Untouched A C F role id t p := by
  obtain ⟨caps, hcaps⟩ := hproc
  obtain ⟨old, token, hd, frames, caps', hhd, hp⟩ := h.proc
  obtain ⟨rest, r, hd', hhd', hfill, hsub, hsame⟩ := h.space
  refine ⟨⟨old, token, hd, frames, caps, hhd, by rw [hcaps, hp]⟩, rest, r, hd', hhd', ?_, fun a ha => hsub a (hfree a ha), ?_⟩
  · rw [hcaps]
    exact hfill
  · intro a ha
    exact (hmem a fun hc => ha (hsub a hc)).trans (hsame a ha)

/-- **A loaded process sees what every other one saw** when it was loaded. -/
theorem view_eq (h : Untouched A C F role id s p) (hs : Spaced A C m₀ s) (hp : s.Alive p) (hpriv : KernelPrivate A C m₀)
    (hcaps : ∀ k, (if s.delegatedTo p k = true then none else (s.procs p).caps.lookup k) = (mintGrants A C role).lookup k) :
    s.view A p = freshView A C role id := by
  obtain ⟨old, token, hd, frames, caps', hhd, hproc⟩ := h.proc
  obtain ⟨rest, r, hd', hhd', hfill, -, hsame⟩ := h.space
  have hmemory : userMemory A s.w.mem (A.root (s.procs p).token) = initialMemory A C.userElf := by
    funext va
    have hclosed : ∀ v x, ¬A.window (v / 512 ^ A.depth % 512) →
        RadixTree.walk A.fmt s.w.mem v A.depth (A.root (s.procs p).token) = some x → A.user x.2 = false := by
      intro v x hv hx
      rw [walk_kernel hs.kernel (hs.at_ p hp).shared hv] at hx
      exact hpriv v x hv hx
    rw [userMemory_filled hfill hsame hclosed, initialMemory, hhd']
  have hframe : (s.procs p).frame = firstFrame A C id := by
    rw [hproc]
    exact FirstFrame.eq ⟨hd, hhd, rfl⟩
  unfold KState.view freshView
  rw [hmemory, hframe, funext hcaps, hproc]
  rfl

/-- **A load** leaves an untouched process, with the grants of its role. -/
theorem loaded (hin : Inside A C.userElf) (hg : Ground A C F m₀) (ha : Accounted F s)
    (hrun : loadProcess A C p id role s = .ok (true, t)) :
    Untouched A C F role id t p ∧ (t.procs p).caps = mintGrants A C role ∧
      (∀ a, a ∈ freeAddrs t.w.fa → a ∈ freeAddrs s.w.fa) ∧ ∀ a, a ∉ freeAddrs s.w.fa → t.w.mem a = s.w.mem a := by
  rcases wp_ok (loadProcess_spec p id role s) hrun with ⟨hf, -⟩ | ⟨-, token, entry, r, hb, rfl⟩
  · exact absurd hf (by decide)
  obtain ⟨hdrawn, -⟩ := Spaced.built_space hin hg ha
  rw [hb] at hdrawn
  have hok : (⟨s.w, []⟩ : RecordingAlloc).Ok F (held s) := ha.account.congr (zero_add _).symm
  obtain ⟨root, hd, hroot, hhd, hentry, hfill⟩ := buildSpace_filled hin (Spaced.kroot_fixed hg).2 hok hb
  set u := ({ s with w := r.w }.modProc p fun q => freshProcess A C q token entry id role r.frames).record (.loaded p)
  have hproc : u.procs p = freshProcess A C (s.procs p) token entry id role r.frames := by
    rw [KState.record_procs, KState.modProc_procs, Table.put_self]
  refine ⟨⟨⟨s.procs p, token, hd, r.frames, mintGrants A C role, hhd, ?_⟩, held s, r, hd, hhd, ?_,
    fun _ hf => hf, fun _ _ => rfl⟩,
    ?_, hdrawn.free, hdrawn.off⟩
  · rw [hproc, hentry]
    rfl
  · have htoken : A.root (u.procs p).token = root := by
      rw [hproc]
      exact hroot
    rw [htoken]
    exact hfill
  · rw [hproc]
    rfl

end Untouched

/-! ## Spawning -/

/-- what `SPAWN` answers and leaves: a refusal, or a process that was loaded and maybe given a capability -/
theorem sysSpawn_spec (me : ℕ) (f : UserFrame) (s : KState) :
    wp (sysSpawn A C me f) (fun out t => ∃ v, out = some (A.frameSetRet f v) ∧
      ((U64_MAX - 3 ≤ v ∧ (t = s ∨
        ∃ slot, loadProcess A C slot s.nextId .child { s with nextId := wadd s.nextId 1 } = .ok (false, t))) ∨
      ∃ slot u w cap arg, v = s.nextId ∧ s.live slot = false ∧ slot < MAX_PROCS ∧
        loadProcess A C slot s.nextId .child { s with nextId := wadd s.nextId 1 } = .ok (true, u) ∧
        (cap = none ∨ s.ledger.len < MAX_DELEGATIONS) ∧
        w = Option.elim cap u (fun c => handOver me slot arg s.nextId c u) ∧ t = w.enqueue slot)) (fun _ => True) s := by
  rw [sysSpawn, wp_bind, wp_get]
  refine wp_ite (fun _ => ⟨_, rfl, Or.inl ⟨by decide, Or.inl rfl⟩⟩) fun _ =>
    wp_ite (fun _ => ⟨_, rfl, Or.inl ⟨by decide, Or.inl rfl⟩⟩) fun hdel => ?_
  cases hfree : firstIdx MAX_PROCS fun i => !s.live i with
  | none => exact ⟨_, rfl, Or.inl ⟨by decide, Or.inl rfl⟩⟩
  | some slot =>
    obtain ⟨hslot, hdead, -⟩ := firstIdx_some hfree
    simp only
    rw [wp_bind, wp_modify, wp_bind]
    refine wp_imp (wp_self (loadProcess A C slot s.nextId .child) _) (fun loaded u hrun _ => ?_) fun _ _ => trivial
    cases loaded with
    | false =>
      rw [if_pos rfl]
      exact ⟨_, rfl, Or.inl ⟨by decide, Or.inr ⟨slot, hrun⟩⟩⟩
    | true =>
      rw [if_neg (by decide)]
      simp only [wp_bind, wp_modify]
      refine ⟨_, rfl, Or.inr ⟨slot, u, _, _, A.frameArg f 1, rfl, by simpa using hdead, hslot, hrun, ?_, rfl, rfl⟩⟩
      split_ifs with harg
      · exact Or.inl rfl
      · right
        by_contra hfull
        exact hdel ⟨harg, Or.inr (not_lt.1 hfull)⟩

/-- what a `SPAWN` that created process `p` made of it, and of what it sees -/
structure Spawns (A : Arch) (C : Config) (s t : KState) (p : ℕ) : Prop where
  run : ∃ u v cap arg, loadProcess A C p s.nextId .child { s with nextId := wadd s.nextId 1 } = .ok (true, u) ∧
    (cap = none ∨ s.ledger.len < MAX_DELEGATIONS) ∧
    v = Option.elim cap u (fun c => handOver s.current p arg s.nextId c u) ∧
    t.procs p = v.procs p ∧ t.w.mem = v.w.mem ∧ t.w.fa = v.w.fa ∧ t.ledger = v.ledger

/-- **`SPAWN`, from trap to resumption**: the caller goes on with the answer, and a refusal moved the machine and the
identity counter at most. -/
theorem syscallTrap_spawn {frame : UserFrame} (hr : Ready s) (hi : s.idling = false)
    (hnum : A.frameNum (snapshot A frame UserFrame.ZERO) = sysno.SPAWN) :
    wp (syscallTrap A C frame) (fun _ t => ∃ v u, t = ((u.modProc s.current fun p =>
        { p with frame := A.frameSetRet (snapshot A frame UserFrame.ZERO) v }).setCr3 (u.procs s.current).token).record .resumed ∧
      ((U64_MAX - 3 ≤ v ∧ (u = s ∨
        ∃ slot, loadProcess A C slot s.nextId .child { s with nextId := wadd s.nextId 1 } = .ok (false, u))) ∨
        ∃ slot, v = s.nextId ∧ s.live slot = false ∧ Spawns A C s u slot ∧ ∀ q, q ≠ slot → u.procs q = s.procs q))
      (fun _ => True) s := by
  have hc := hr.called hi
  set f := snapshot A frame UserFrame.ZERO with hf
  have hserv : service A C s.current f = sysSpawn A C s.current f := by
    rw [service, hnum]
    rfl
  have hback : wp (service A C s.current f) (fun out u => ∃ f', out = some f' ∧ u.current = s.current ∧
      (u.procs s.current).pendingLen = 0 ∧ ∃ v, f' = A.frameSetRet f v ∧
        ((U64_MAX - 3 ≤ v ∧ (u = s ∨
          ∃ slot, loadProcess A C slot s.nextId .child { s with nextId := wadd s.nextId 1 } = .ok (false, u))) ∨
          ∃ slot, v = s.nextId ∧ s.live slot = false ∧ Spawns A C s u slot ∧ ∀ q, q ≠ slot → u.procs q = s.procs q))
      (fun _ => True) s := by
    rw [hserv]
    refine wp_mono (sysSpawn_spec s.current f s) fun out u hu => ?_
    obtain ⟨v, rfl, hu⟩ := hu
    refine ⟨_, rfl, ?_⟩
    rcases hu with ⟨hv, rfl | ⟨slot, hload⟩⟩ | ⟨slot, u, w, cap, arg, rfl, hfree, hslot, hload, hroom, hw, rfl⟩
    · exact ⟨rfl, hc.pending, v, rfl, Or.inl ⟨hv, Or.inl rfl⟩⟩
    · have hsame : u.current = s.current ∧ u.procs = s.procs := by
        rcases wp_ok (loadProcess_spec _ _ _ _) hload with ⟨-, rfl | ⟨r, -, rfl⟩⟩ | ⟨hf, -⟩
        · exact ⟨rfl, rfl⟩
        · exact ⟨rfl, rfl⟩
        · exact absurd hf (by decide)
      exact ⟨hsame.1, by rw [hsame.2]; exact hc.pending, v, rfl, Or.inl ⟨hv, Or.inr ⟨slot, hload⟩⟩⟩
    · have hnew : Arrives A C slot { s with nextId := wadd s.nextId 1 } w := by
        rw [hw]
        exact (arrives_load (s := { s with nextId := wadd s.nextId 1 }) hslot hfree hload).given s.current arg s.nextId cap
      have hne : s.current ≠ slot := by
        intro he
        rw [← he] at hfree
        exact absurd (hfree.symm.trans hc.alive.2) (by decide)
      have hother : ∀ q, q ≠ slot → (w.enqueue slot).procs q = s.procs q := fun q hq => hnew.other hq
      refine ⟨hnew.current, by rw [hother _ hne]; exact hc.pending, s.nextId, rfl, Or.inr ⟨slot, rfl, hfree, ?_, hother⟩⟩
      exact ⟨⟨u, w, cap, arg, hload, hroom, hw, rfl, rfl, rfl, rfl⟩⟩
  refine wp_mono (wp_answered_back hback) fun _ t ht => ?_
  obtain ⟨f', u, ⟨v, rfl, hu⟩, rfl⟩ := ht
  exact ⟨v, u, rfl, hu⟩

theorem syscallTrap_spawns {frame : UserFrame} (hr : Ready s) (hi : s.idling = false)
    (hnum : A.frameNum (snapshot A frame UserFrame.ZERO) = sysno.SPAWN) (hrun : syscallTrap A C frame s = .ok ((), t)) {p : ℕ}
    (hdead : s.live p = false) (hlive : t.live p = true) : Spawns A C s t p := by
  have hc := hr.called hi
  have hme : p ≠ s.current := by
    intro he
    rw [he] at hdead
    exact absurd (hdead.symm.trans hc.alive.2) (by decide)
  obtain ⟨v, u, ht, hu⟩ := wp_ok (syscallTrap_spawn hr hi hnum) hrun
  have htp : t.procs p = u.procs p := by
    rw [ht]
    exact Table.put_of_ne _ hme _
  have hup : (u.procs p).live = true := by
    rw [← htp]
    exact hlive
  rcases hu with ⟨-, rfl | ⟨slot, hload⟩⟩ | ⟨slot, -, -, hspawns, hother⟩
  · exact absurd (hdead.symm.trans hup) (by decide)
  · rcases wp_ok (loadProcess_spec _ _ _ _) hload with ⟨-, rfl | ⟨r, -, rfl⟩⟩ | ⟨hf, -⟩
    · exact absurd (hdead.symm.trans hup) (by decide)
    · exact absurd (hdead.symm.trans hup) (by decide)
    · exact absurd hf (by decide)
  · have hps : p = slot := by
      by_contra hne
      rw [hother p hne] at hup
      exact absurd (hdead.symm.trans hup) (by decide)
    subst hps
    obtain ⟨x, y, cap, arg, hload, hroom, hy, hproc, hmem, hfa, hled⟩ := hspawns.run
    refine ⟨⟨x, y, cap, arg, hload, hroom, hy, htp.trans hproc, ?_, ?_, ?_⟩⟩
    · rw [ht]
      exact hmem
    · rw [ht]
      exact hfa
    · rw [ht]
      exact hled

/-- no edge ends at a process that is not there -/
theorem undelegated (hl : Lineage s) {p : ℕ} (hdead : s.live p = false) {i : ℕ} (hi : i < MAX_DELEGATIONS)
    (hlive : (s.ledger.edges i).live = true) : (s.ledger.edges i).child.proc ≠ p := by
  intro hp
  obtain ⟨-, cb, -, hcb, -⟩ := hl.edge i hi hlive
  have hal := (capOf_some hcb).1
  rw [hp, hdead] at hal
  exact absurd hal (by decide)

theorem delegatedTo_none (hl : Lineage s) {p : ℕ} (hdead : s.live p = false) (hled : t.ledger = s.ledger) (k : ℕ) :
    t.delegatedTo p k = false := by
  rw [Bool.eq_false_iff]
  intro hd
  obtain ⟨i, hi, hedge⟩ := anyIdx_iff.1 hd
  rw [hled] at hedge
  simp only [Bool.and_eq_true, beq_iff_eq] at hedge
  apply undelegated hl hdead hi hedge.1
  rw [hedge.2]
  rfl

theorem delegatedTo_record (hl : Lineage s) {p : ℕ} (hdead : s.live p = false) (hroom : s.ledger.len < MAX_DELEGATIONS)
    {parent : Deleg.Endpoint} {cap : ℕ} (hled : t.ledger = (s.ledger.record parent (t.endpointAt p cap)).2) (k : ℕ) :
    t.delegatedTo p k = true ↔ k = cap := by
  obtain ⟨j, hj, -, hrec⟩ := Deleg.Ledger.record_spec hroom parent (t.endpointAt p cap)
  rw [hrec] at hled
  constructor
  · intro hd
    obtain ⟨i, hi, hedge⟩ := anyIdx_iff.1 hd
    rw [hled] at hedge
    simp only [Table.put_apply, Bool.and_eq_true, beq_iff_eq] at hedge
    split_ifs at hedge with hij
    · exact (congrArg Deleg.Endpoint.cap hedge.2).symm
    · exact absurd (congrArg Deleg.Endpoint.proc hedge.2) (undelegated hl hdead hi hedge.1)
  · intro hk
    refine anyIdx_iff.2 ⟨j, hj, ?_⟩
    rw [hled, hk]
    simp

/-- **A spawned process** sees what every spawned process sees. -/
theorem Spawns.view_eq {m₀ : Mem} {p : ℕ} (h : Spawns A C s t p) (hin : Inside A C.userElf) (hg : Ground A C F m₀)
    (hs : Sound A C F m₀ s) (ht : Spaced A C m₀ t) (hpriv : KernelPrivate A C m₀) (hdead : s.live p = false) (hp : t.Alive p) :
    t.view A p = freshView A C .child (t.procs p).id := by
  obtain ⟨u, v, cap, arg, hload, hroom, hv, hproc, hmem, hfa, hled⟩ := h.run
  have hcount : Move A C Gate.all NOBODY (.fresh UserFrame.ZERO) s { s with nextId := wadd s.nextId 1 } :=
    .control (.count _ s.killed s.parks s.deviceWakes)
  have ha : Accounted F { s with nextId := wadd s.nextId 1 } := hs.accounted.move hcount
  obtain ⟨hun, hcaps, -⟩ := Untouched.loaded hin hg ha hload
  have hledger : u.ledger = s.ledger := (loadProcess_ledger hload).1
  have hid : (u.procs p).id = s.nextId := by
    obtain ⟨old, token, hd, frames, caps, -, hfresh⟩ := hun.proc
    rw [hfresh]
    rfl
  -- either nothing was handed over, or one capability in an empty slot
  have hgiven : v = u ∨ ∃ parent childCap, ∃ c : Capabilities.CapSlot, ∃ caps,
      (u.procs p).caps.insert c.capType c.rights c.object = some (childCap, caps) ∧ s.ledger.len < MAX_DELEGATIONS ∧
        v.procs p = { u.procs p with caps := caps } ∧ v.w.mem = u.w.mem ∧ v.w.fa = u.w.fa ∧
        v.ledger = (u.ledger.record parent ⟨p, s.nextId, childCap⟩).2 := by
    rw [hv]
    cases cap with
    | none => exact Or.inl rfl
    | some c =>
      have hlen : s.ledger.len < MAX_DELEGATIONS := hroom.resolve_left (by simp)
      rw [Option.elim_some, handOver]
      rcases hins : (u.procs p).caps.insert c.capType c.rights c.object with _ | ⟨childCap, caps⟩
      · exact Or.inl rfl
      · refine Or.inr ⟨_, childCap, c, caps, hins, hlen, ?_, rfl, rfl, rfl⟩
        exact Table.put_self _ _ _
  rcases hgiven with rfl | ⟨parent, childCap, c, caps, hins, hlen, hvp, hvm, hvf, hvl⟩
  · have hunt : Untouched A C F .child s.nextId t p := by
      refine hun.keep ⟨(v.procs p).caps, by rw [hproc]⟩ (fun a => ?_) fun a _ => ?_
      · rw [hfa]
        exact id
      · rw [hmem]
    have htid : (t.procs p).id = s.nextId := by rw [hproc, hid]
    rw [htid]
    refine hunt.view_eq ht hp hpriv fun k => ?_
    rw [delegatedTo_none hs.lineage hdead (hled.trans hledger) k, if_neg Bool.false_ne_true, hproc, hcaps]
  · have hunt : Untouched A C F .child s.nextId t p := by
      refine hun.keep ⟨caps, by rw [hproc, hvp]⟩ (fun a => ?_) fun a _ => ?_
      · rw [hfa, hvf]
        exact id
      · rw [hmem, hvm]
    have htid : (t.procs p).id = s.nextId := by rw [hproc, hvp, ← hid]
    have hrecord : t.ledger = (s.ledger.record parent (t.endpointAt p childCap)).2 := by
      rw [hled, hvl, hledger, KState.endpointAt, htid]
    obtain ⟨-, -, hnone, -, -, -, hold⟩ := Capabilities.CapSpace.insert_some hins
    rw [htid]
    refine hunt.view_eq ht hp hpriv fun k => ?_
    have hlookup : (t.procs p).caps.lookup k = caps.lookup k := by rw [hproc, hvp]
    rw [hlookup, ← hcaps]
    by_cases hk : k = childCap
    · rw [if_pos ((delegatedTo_record hs.lineage hdead hlen hrecord k).2 hk), hk, hnone]
    · rw [if_neg fun hd => hk ((delegatedTo_record hs.lineage hdead hlen hrecord k).1 hd), hold k hk]

/-! ## Booting -/

/-- the first `n` initial processes are loaded, and nothing else is -/
structure Booting (A : Arch) (C : Config) (F : Multiset ℕ) (n : ℕ) (s : KState) : Prop where
  accounted : Accounted F s
  empty : ∀ i ≥ n, s.procs i = Process.EMPTY
  ledger : s.ledger = Deleg.Ledger.new
  loaded : ∀ i < n, Untouched A C F (bootRole i) i s i ∧ (s.procs i).caps = mintGrants A C (bootRole i)

theorem Booting.next {m₀ : Mem} {n : ℕ} (h : Booting A C F n s) (hin : Inside A C.userElf) (hg : Ground A C F m₀)
    (hn : n < NUM_PROCS) (hrun : loadProcess A C n n (bootRole n) s = .ok (true, t)) :
    Booting A C F (n + 1) (t.enqueue n) := by
  obtain ⟨hun, hcaps, hfree, hmem⟩ := Untouched.loaded hin hg h.accounted hrun
  obtain ⟨hled, hother⟩ := loadProcess_ledger hrun
  have hdead : s.live n = false := by
    rw [KState.live, h.empty n le_rfl]
    rfl
  refine ⟨h.accounted.move (G := Gate.all) (k := .fresh UserFrame.ZERO) (.boot rfl hn hdead hrun), fun i hi => ?_,
    hled.trans h.ledger, fun i hi => ?_⟩
  · rw [KState.enqueue_procs, hother i (by omega)]
    exact h.empty i (by omega)
  · rcases Nat.lt_succ_iff_lt_or_eq.1 hi with hlt | rfl
    · obtain ⟨hun', hcaps'⟩ := h.loaded i hlt
      have hproc : (t.enqueue n).procs i = s.procs i := by rw [KState.enqueue_procs, hother i (by omega)]
      refine ⟨hun'.keep ⟨(s.procs i).caps, by rw [hproc]⟩ hfree hmem, ?_⟩
      rw [hproc]
      exact hcaps'
    · exact ⟨hun.keep ⟨(t.procs i).caps, rfl⟩ (fun _ hf => hf) fun _ _ => rfl, hcaps⟩

/-- **The boot** leaves the initial processes as they were loaded. -/
theorem boot_untouched {s₀ : KState} (h₀ : PreUserland A C s₀) (hbar : BarOutside A C s₀) (hin : Inside A C.userElf) :
    wp (bootUserland A C) (fun _ t => t.ledger = Deleg.Ledger.new ∧ ∀ i < NUM_PROCS,
      Untouched A C (freeAddrs s₀.w.fa) (bootRole i) i t i ∧ (t.procs i).caps = mintGrants A C (bootRole i))
      (fun _ => True) s₀ := by
  have hloop : wp (forEach (List.range NUM_PROCS) (bootProcess A C))
      (fun _ t => Booting A C (freeAddrs s₀.w.fa) (List.range NUM_PROCS).length t) (fun _ => True) s₀ := by
    refine wp_forEach_prefix (I := fun (pre : List ℕ) t => Booting A C (freeAddrs s₀.w.fa) pre.length t)
      (fun pre b post hsplit t ht => ?_) ⟨h₀.accounted, fun i _ => h₀.noProcs i, h₀.noEdges, fun i hi => absurd hi (by simp)⟩
    have hb : b = pre.length ∧ pre.length < NUM_PROCS := by
      have hlen := congrArg List.length hsplit
      have hget : (List.range NUM_PROCS)[pre.length]? = some b := by rw [hsplit]; simp
      rw [List.length_range, List.length_append, List.length_cons] at hlen
      have hlt : pre.length < NUM_PROCS := by omega
      rw [List.getElem?_range hlt] at hget
      exact ⟨(Option.some.inj hget).symm, hlt⟩
    obtain ⟨rfl, hlt⟩ := hb
    rw [bootProcess, wp_bind]
    refine wp_imp (wp_self (loadProcess A C pre.length pre.length (bootRole pre.length)) t) (fun ok u hrun _ => ?_)
      fun _ _ => trivial
    cases ok with
    | false =>
      rw [if_pos rfl]
      trivial
    | true =>
      rw [if_neg (by decide), wp_modify, List.length_append, List.length_singleton]
      exact ht.next hin (h₀.ground hbar) hlt hrun
  rw [bootUserland, wp_bind]
  refine wp_mono hloop fun _ t ht => ?_
  rw [List.length_range] at ht
  rw [wp_bind, wp_get]
  cases hc : t.sched.current with
  | none => trivial
  | some first =>
    simp only [wp_modify]
    -- nothing is pending for the first process
    have hpend : (({ t with current := first } : KState).procs first).pendingLen = 0 := by
      show (t.procs first).pendingLen = 0
      by_cases hf : first < NUM_PROCS
      · obtain ⟨old, token, hd, frames, caps, -, hproc⟩ := (ht.loaded first hf).1.proc
        rw [hproc]
        rfl
      · rw [ht.empty first (by omega)]
        rfl
    rw [resumeProcess_idle hpend]
    refine ⟨ht.ledger, fun i hi => ?_⟩
    obtain ⟨hun, hcaps⟩ := ht.loaded i hi
    exact ⟨hun.keep ⟨(t.procs i).caps, rfl⟩ (fun _ hf => hf) fun _ _ => rfl, hcaps⟩

/-! ## New regions -/

/-- the frames of a new region are scrubbed -/
theorem takeDmaFrames_zero (n : ℕ) (got : List ℕ) {H : Multiset ℕ} {w w' : Machine} {frames : List ℕ}
    (h : Account F w.fa (got + H)) (hgot : ∀ f ∈ got, ∀ i, w.mem f i = 0)
    (hrun : takeDmaFrames n got w = (some frames, w')) : ∀ f ∈ frames, ∀ i, w'.mem f i = 0 := by
  induction n generalizing got w with
  | zero =>
    obtain ⟨hout, rfl⟩ := Prod.mk.inj hrun
    obtain rfl := Option.some.inj hout
    exact hgot
  | succ n ih =>
    rw [takeDmaFrames] at hrun
    rcases hal : w.fa.allocDmaFrame with ⟨_ | frame, fa⟩
    · rw [hal] at hrun
      exact absurd (Prod.mk.inj hrun).1 (by simp)
    · obtain ⟨-, hsome⟩ := h.allocDmaFrame (p := frame) (by rw [hal])
      rw [hal] at hsome hrun
      have hacc : Account F fa ((got ++ [frame] : List ℕ) + H) := hsome.enlist
      refine ih (got ++ [frame]) hacc (fun f hf i => ?_) hrun
      show (w.mem.fill frame 0) f i = 0
      by_cases hff : f = frame
      · rw [hff]
        simp [RadixTree.Store.fill]
      · rw [RadixTree.Store.fill_of_ne _ hff 0]
        apply hgot
        rcases List.mem_append.1 hf with hf | hf
        · exact hf
        · exact absurd (List.mem_singleton.1 hf) hff

/-- **A region that `MAKE_REGION` returns** reads zero. -/
theorem syscallTrap_scrubs {frame : UserFrame} (hr : Ready s) (hi : s.idling = false) (ha : Accounted F s)
    (hnum : A.frameNum (snapshot A frame UserFrame.ZERO) = sysno.MAKE_REGION) (hrun : syscallTrap A C frame s = .ok ((), t))
    {i : ℕ} (hdead : (s.regions i).live = false) (hlive : (t.regions i).live = true) :
    ∀ f ∈ (t.regions i).frames, ∀ j, t.w.mem f j = 0 := by
  have hc := hr.called hi
  set f := snapshot A frame UserFrame.ZERO with hf
  have hserv : service A C s.current f = sysMakeRegion A s.current f := by
    rw [service, hnum]
    rfl
  have hnil : Account F s.w.fa (([] : List ℕ) + held s) := ha.account.congr (zero_add _).symm
  -- the handler alone
  have hmake : wp (sysMakeRegion A s.current f) (fun out u => ∃ f', out = some f' ∧ u.current = s.current ∧
      (u.procs s.current).pendingLen = 0 ∧ ((u.regions i).live = true → ∀ g ∈ (u.regions i).frames, ∀ j, u.w.mem g j = 0))
      (fun _ => True) s := by
    have hsame : (s.regions i).live = true → ∀ g ∈ (s.regions i).frames, ∀ j, s.w.mem g j = 0 := by
      intro hl
      exact absurd (hdead.symm.trans hl) (by decide)
    rw [sysMakeRegion, wp_bind, wp_get]
    cases capsMint (s.procs s.current).caps (A.frameArg f 0) with
    | none => exact ⟨_, rfl, rfl, hc.pending, hsame⟩
    | some c =>
      refine wp_ite (fun _ => ?_) fun _ => ⟨_, rfl, rfl, hc.pending, hsame⟩
      rw [wp_bind]
      refine wp_imp (makeRegion_spec s.current (A.frameArg f 1) c.rights s) (fun n u _ hu => ⟨_, rfl, ?_⟩) fun _ _ => trivial
      rcases hu with ⟨-, rfl | ⟨w, -, rfl⟩ | ⟨frames, w, -, rfl⟩⟩ | ⟨idx, frames, w, cap, caps, -, hw, -, -, rfl⟩
      · exact ⟨rfl, hc.pending, hsame⟩
      · exact ⟨rfl, hc.pending, fun hl => absurd (hdead.symm.trans hl) (by decide)⟩
      · exact ⟨rfl, hc.pending, fun hl => absurd (hdead.symm.trans hl) (by decide)⟩
      · refine ⟨rfl, ?_, fun hl g hg j => ?_⟩
        · show ((s.modProc s.current fun q => { q with caps := caps }).procs s.current).pendingLen = 0
          rw [KState.modProc_procs, Table.put_self]
          exact hc.pending
        · have hput : ∀ r : Region, (s.regions.put idx r) i = if i = idx then r else s.regions i :=
            fun r => Table.put_apply _ _ _ _
          simp only [KState.record_regions, hput] at hl hg
          split_ifs at hl hg with hidx
          · exact takeDmaFrames_zero _ [] hnil (fun g hg => absurd hg List.not_mem_nil) hw g hg j
          · exact absurd (hdead.symm.trans hl) (by decide)
  rw [← hserv] at hmake
  obtain ⟨f', u, hzero, rfl⟩ := wp_ok (wp_answered_back hmake) hrun
  exact hzero hlive

/-! ## Two runs -/

/-- a machine is booted, the device's registers apart from memory, the kernel's part of its address space closed to user mode -/
structure Booted (A : Arch) (C : Config) (s₀ : KState) : Prop where
  ready : PreUserland A C s₀
  bar : BarOutside A C s₀
  closed : KernelPrivate A C s₀.w.mem

/-- in some run, a `SPAWN` creates process `p` -/
structure Births (A : Arch) (C : Config) (s t : KState) (p : ℕ) : Prop where
  run : ∃ s₀, Booted A C s₀ ∧ Reachable A C s₀ s
  call : ∃ frame, A.frameNum (snapshot A frame UserFrame.ZERO) = sysno.SPAWN ∧ Step A C s (.syscall frame) t
  absent : s.live p = false
  alive : t.live p = true

/-- **A new process learns nothing about earlier ones.** In every run, what a spawned process sees is what its image and its
identity say, and so is what an initial process sees; two of one identity see the same. A new region reads zero. -/
theorem newborns_alike (hin : Inside A C.userElf) (hgrants : ∀ role, ∀ g ∈ grantsFor C role, g.1 ≠ .region) :
    (∀ s t p, Births A C s t p → t.view A p = freshView A C .child (t.procs p).id) ∧
    (∀ s t p s' t' p', Births A C s t p → Births A C s' t' p' → (t.procs p).id = (t'.procs p').id →
      t.view A p = t'.view A p') ∧
    (∀ s₀ t, Booted A C s₀ → bootUserland A C s₀ = .ok ((), t) →
      ∀ i < NUM_PROCS, t.view A i = freshView A C (bootRole i) i) ∧
    ∀ s₀ s t frame, PreUserland A C s₀ → Reachable A C s₀ s →
      A.frameNum (snapshot A frame UserFrame.ZERO) = sysno.MAKE_REGION → Step A C s (.syscall frame) t →
      ∀ i < MAX_REGIONS, (s.regions i).live = false → (t.regions i).live = true →
        ∀ f ∈ (t.regions i).frames, ∀ o < PAGE_SIZE, readByte t.w.mem (f + o) = 0 := by
  have hspawn : ∀ s t p, Births A C s t p → t.view A p = freshView A C .child (t.procs p).id := by
    intro s t p h
    obtain ⟨s₀, h₀, hreach⟩ := h.run
    obtain ⟨frame, hnum, hstep⟩ := h.call
    have hs := hreach.sound h₀.ready h₀.bar hin hgrants
    have ht := (hreach.step hstep).sound h₀.ready h₀.bar hin hgrants
    have hborn := syscallTrap_spawns (hreach.ready h₀.ready) hstep.1 hnum hstep.2 h.absent h.alive
    exact hborn.view_eq hin (h₀.ready.ground h₀.bar) hs ht.spaced h₀.closed h.absent ⟨ht.slots p h.alive, h.alive⟩
  refine ⟨hspawn, fun s t p s' t' p' h h' hid => ?_, fun s₀ t h₀ hboot i hi => ?_, ?_⟩
  · rw [hspawn s t p h, hspawn s' t' p' h', hid]
  · obtain ⟨hled, huntouched⟩ := wp_ok (boot_untouched h₀.ready h₀.bar hin) hboot
    obtain ⟨hun, hcaps⟩ := huntouched i hi
    have hsound := Reachable.sound h₀.ready h₀.bar hin hgrants (.boot hboot)
    have halive : t.Alive i := by
      obtain ⟨old, token, hd, frames, caps, -, hproc⟩ := hun.proc
      refine ⟨hi.trans_le (by decide), ?_⟩
      rw [KState.live, hproc]
      rfl
    refine hun.view_eq hsound.spaced halive h₀.closed fun k => ?_
    have hnone : t.delegatedTo i k = false := by
      rw [Bool.eq_false_iff]
      intro hd
      obtain ⟨j, -, hedge⟩ := anyIdx_iff.1 hd
      rw [hled] at hedge
      simp [Deleg.Ledger.new, Deleg.DEAD] at hedge
    rw [hnone, if_neg Bool.false_ne_true, hcaps]
  · intro s₀ s t frame h₀ hreach hnum hstep i hi hdead hlive f hf o ho
    have hs := hreach.accounted h₀
    have ht := (hreach.step hstep).accounted h₀
    have hzero := syscallTrap_scrubs (hreach.ready h₀) hstep.1 hs hnum hstep.2 hdead hlive f hf
    obtain ⟨-, -, hal, -⟩ := ht.out (Accounted.region_held hi hf)
    have hpage : pageAddr (f + o) = f := pageAddr_add hal ho
    have hfill : t.w.mem.fill f 0 f = t.w.mem f := by
      funext j
      rw [RadixTree.Store.fill_self, hzero j]
    rw [← readByte_fill t.w.mem hpage]
    exact readByte_congr (by rw [hpage, hfill])

/-- nothing is mapped in the tables of the kernel -/
theorem oneUnit_booted : Booted X86 oneUnitConfig oneUnitState where
  ready := oneUnitConfig_ready
  bar := oneUnitConfig_apart.toBarOutside
  closed v x _ hx := by
    have hnone : RadixTree.walk X86.fmt oneUnitState.w.mem v X86.depth (X86.root oneUnitConfig.ktoken) = none := by
      obtain ⟨d, hd⟩ := Nat.exists_eq_succ_of_ne_zero X86.depth_pos.ne'
      rw [hd]
      exact if_pos (RadixTree.Format.present_empty X86.toMmu.fmt)
    exact absurd (hnone.symm.trans hx) (by simp)

/-- the producer leaves a byte on its stack -/
def producerWrote : KState := fedTo oneUnitConfig unitBoot (.store (X86.userStackTop - 8) 7)

/-- the producer and the consumer exit -/
def slotLeft : KState := fedTo oneUnitConfig (fedTo oneUnitConfig producerWrote (.syscall exitFrame)) (.syscall exitFrame)

/-- the worker spawns a child, in the slot and the frames the producer had -/
def slotRecycled : KState := fedTo oneUnitConfig slotLeft (.syscall (lendFrame 2 2))

theorem slotLeft_reachable : Reachable X86 oneUnitConfig oneUnitState slotLeft := by
  have hwrote : Reachable X86 oneUnitConfig oneUnitState producerWrote :=
    unitBoot_reachable.stores (X86.user_own _ (by decide) (by decide)) (by decide +kernel)
  have hgone : Reachable X86 oneUnitConfig oneUnitState (fedTo oneUnitConfig producerWrote (.syscall exitFrame)) :=
    hwrote.called (by decide +kernel)
  exact hgone.called (by decide +kernel)

/-- the child sees nothing of the byte -/
theorem slotRecycled_fresh :
    (∃ f ∈ (producerWrote.procs 0).frames, f ∈ (slotRecycled.procs 0).frames ∧ readByte producerWrote.w.mem (f + 4088) = 7) ∧
      slotRecycled.view X86 0 = freshView X86 oneUnitConfig .child (slotRecycled.procs 0).id := by
  have hspawn : slotLeft.idling = false ∧ (handle X86 oneUnitConfig (.syscall (lendFrame 2 2)) slotLeft).toBool = true := by
    decide +kernel
  have hnum : X86.frameNum (snapshot X86 (lendFrame 2 2) UserFrame.ZERO) = sysno.SPAWN := by decide +kernel
  have hslot : slotLeft.live 0 = false ∧ slotRecycled.live 0 = true := by decide +kernel
  have hstep : Step X86 oneUnitConfig slotLeft (.syscall (lendFrame 2 2)) slotRecycled := fedTo_step hspawn.1 hspawn.2
  have hborn : Births X86 oneUnitConfig slotLeft slotRecycled 0 :=
    ⟨⟨oneUnitState, oneUnit_booted, slotLeft_reachable⟩, ⟨lendFrame 2 2, hnum, hstep⟩, hslot.1, hslot.2⟩
  exact ⟨by decide +kernel, (newborns_alike emptyX86_inside (roleGrants_apart rfl)).1 _ _ _ hborn⟩

end Rustproof.Kernel
