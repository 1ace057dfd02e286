/-
What `enumerate` (`crates/kernel/src/pci.rs`) finds: a breadth-first walk over the buses behind bridges, with room for `MAX_BUSES`
buses and for `cap` functions.

Configuration space is arbitrary: a bridge may lead back to a bus already walked, to its own bus, or to a bus another bridge leads
to. `Visited` says what the walk has after any number of functions; a visit keeps it (`Visited.visit`).

- `enumerate_runs`: the loop ends, and `enumerate` is where it ends.
- `enumerate_buses`, `enumerate_found`: what it has there.
- `enumerate_exact`: with nothing dropped, each visible function of each reachable bus, once; `truncated` exactly if one was.
-/
import Mathlib.Logic.Relation
import Rustproof.Boot.Pci

namespace Rustproof.Boot.Pci

variable (cs : ConfigSpace)

/-! ## The topology -/

/-- one of functions 1..7 of a device whose function 0 is there without the multifunction bit -/
def Hidden (bus dev func : ℕ) : Prop :=
  func ≠ 0 ∧ vendor cs bus dev 0 ≠ 0xFFFF ∧ header cs bus dev 0 &&& 0x80 = 0

def Visible (bus dev func : ℕ) : Prop :=
  dev < 32 ∧ func < 8 ∧ vendor cs bus dev func ≠ 0xFFFF ∧ ¬Hidden cs bus dev func

/-- a visible function of bus `a` has a type-1 header and `b` as its secondary bus -/
def Behind (a b : ℕ) : Prop :=
  ∃ dev func, Visible cs a dev func ∧ header cs a dev func &&& 0x7F = 1 ∧ secondary cs a dev func = b ∧ b ≠ 0

/-- bus 0 and the buses behind bridges, in any number of hops -/
def Reachable (bus : ℕ) : Prop := Relation.ReflTransGen (Behind cs) 0 bus

theorem answers_iff {bus dev func : ℕ} :
    answers cs bus dev func = true ↔ vendor cs bus dev func ≠ 0xFFFF ∧ ¬Hidden cs bus dev func := by
  by_cases hf : func = 0
  · simp [answers, Hidden, present, hf]
  · simp [answers, Hidden, present, singleFunction, hf, or_iff_not_imp_left]

theorem mem_busFunctions {bus : ℕ} {f : Function} :
    f ∈ busFunctions cs bus ↔ ∃ dev func, Visible cs bus dev func ∧ f = functionAt cs bus dev func := by
  simp only [busFunctions, List.mem_flatMap, List.mem_map, List.mem_filter, List.mem_range, answers_iff]
  constructor
  · rintro ⟨dev, hdev, func, ⟨hfunc, hv, hh⟩, rfl⟩
    exact ⟨dev, func, ⟨hdev, hfunc, hv, hh⟩, rfl⟩
  · rintro ⟨dev, func, ⟨hdev, hfunc, hv, hh⟩, rfl⟩
    exact ⟨dev, hdev, func, ⟨hfunc, hv, hh⟩, rfl⟩

theorem functionAt_inj {bus bus' dev dev' func func' : ℕ} (h : functionAt cs bus dev func = functionAt cs bus' dev' func') :
    bus = bus' ∧ dev = dev' ∧ func = func' :=
  ⟨congrArg Function.bus h, congrArg Function.dev h, congrArg Function.func h⟩

theorem nodup_busFunctions (bus : ℕ) : (busFunctions cs bus).Nodup := by
  refine List.nodup_flatMap.2 ⟨fun dev _ => ?_, ?_⟩
  · refine (List.nodup_range.filter _).map fun func func' h => ?_
    exact (functionAt_inj cs h).2.2
  · refine List.nodup_range.pairwise_of_forall_ne fun dev _ dev' _ hne f hf hf' => ?_
    obtain ⟨func, -, rfl⟩ := List.mem_map.1 hf
    obtain ⟨func', -, h⟩ := List.mem_map.1 hf'
    exact hne (functionAt_inj cs h).2.1.symm

/-- distinct buses have distinct functions -/
theorem nodup_functions {buses : List ℕ} (h : buses.Nodup) : (buses.flatMap (busFunctions cs)).Nodup := by
  refine List.nodup_flatMap.2 ⟨fun bus _ => nodup_busFunctions cs bus, ?_⟩
  refine h.pairwise_of_forall_ne fun bus _ bus' _ hne f hf hf' => ?_
  exact hne ((bus_of_mem_busFunctions cs hf).symm.trans (bus_of_mem_busFunctions cs hf'))

/-! ## What the walk has -/

/-- the bus behind a function, if it is a bridge -/
def LeadsTo (f : Function) (b : ℕ) : Prop :=
  header cs f.bus f.dev f.func &&& 0x7F = 1 ∧ secondary cs f.bus f.dev f.func = b ∧ b ≠ 0

theorem LeadsTo.unique {f : Function} {b c : ℕ} (hb : LeadsTo cs f b) (hc : LeadsTo cs f c) : b = c := hb.2.1.symm.trans hc.2.1

theorem Reachable.leadsTo {bus b : ℕ} {f : Function} (hbus : Reachable cs bus) (hf : f ∈ busFunctions cs bus)
    (hb : LeadsTo cs f b) : Reachable cs b := by
  obtain ⟨dev, func, hv, rfl⟩ := (mem_busFunctions cs).1 hf
  exact hbus.tail ⟨dev, func, hv, hb⟩

/-- a bus behind one of the functions is not in the worklist -/
def Missing (seen : List Function) (buses : List ℕ) : Prop := ∃ f ∈ seen, ∃ b, LeadsTo cs f b ∧ b ∉ buses

/-- the walk after it met the functions `seen`, in that order -/
structure Visited (cap : ℕ) (seen : List Function) (w : Walk) : Prop where
  out : w.out = seen.take cap
  nodup : w.buses.Nodup
  root : 0 ∈ w.buses
  reach : ∀ b ∈ w.buses, Reachable cs b
  bound : w.buses.length ≤ MAX_BUSES
  /-- a bus is left out only of a full worklist -/
  full : Missing cs seen w.buses → w.buses.length = MAX_BUSES
  truncated : w.truncated = true ↔ cap < seen.length ∨ Missing cs seen w.buses

theorem visited_start (cap : ℕ) : Visited cs cap [] ⟨[0], [], false⟩ where
  out := List.take_nil.symm
  nodup := List.nodup_singleton 0
  root := List.mem_singleton_self 0
  reach := fun b hb => by rw [List.mem_singleton.1 hb]; exact Relation.ReflTransGen.refl
  bound := by decide
  full := fun ⟨_, hf, _⟩ => absurd hf List.not_mem_nil
  truncated := by simp [Missing]

/-- what a bridge does to the worklist: its bus is queued, is left out of a full list, or is there already -/
theorem followBridge_cases (f : Function) {w : Walk} (hb : w.buses.length ≤ MAX_BUSES) :
    (∃ b, LeadsTo cs f b ∧ b ∉ w.buses ∧ w.buses.length < MAX_BUSES ∧
      followBridge cs f.bus f.dev f.func w = { w with buses := w.buses ++ [b] }) ∨
    (∃ b, LeadsTo cs f b ∧ b ∉ w.buses ∧ w.buses.length = MAX_BUSES ∧
      followBridge cs f.bus f.dev f.func w = { w with truncated := true }) ∨
    ((∀ b, LeadsTo cs f b → b ∈ w.buses) ∧ followBridge cs f.bus f.dev f.func w = w) := by
  unfold followBridge
  split_ifs with hbridge hnew hroom
  · exact Or.inl ⟨_, ⟨hbridge, rfl, hnew.1⟩, hnew.2, hroom, rfl⟩
  · exact Or.inr (Or.inl ⟨_, ⟨hbridge, rfl, hnew.1⟩, hnew.2, by omega, rfl⟩)
  · refine Or.inr (Or.inr ⟨fun b hl => ?_, rfl⟩)
    obtain ⟨-, rfl, hz⟩ := hl
    by_contra hmem
    exact hnew ⟨hz, hmem⟩
  · exact Or.inr (Or.inr ⟨fun b hl => absurd hl.1 hbridge, rfl⟩)

theorem missing_append {seen : List Function} {f : Function} {buses : List ℕ} :
    Missing cs (seen ++ [f]) buses ↔ Missing cs seen buses ∨ ∃ b, LeadsTo cs f b ∧ b ∉ buses := by
  simp only [Missing, List.mem_append, List.mem_singleton, or_and_right, exists_or, exists_eq_left]

/-- the function is written out if there is room; the worklist stays -/
theorem found_visited {cap : ℕ} {seen : List Function} {f : Function} {w : Walk} (hout : w.out = seen.take cap) :
    (w.found cap f).out = (seen ++ [f]).take cap ∧ (w.found cap f).buses = w.buses ∧
      ((w.found cap f).truncated = true ↔ w.truncated = true ∨ cap ≤ seen.length) := by
  have hlen : w.out.length = min cap seen.length := by rw [hout, List.length_take]
  unfold Walk.found
  split_ifs with hroom
  · have hall : seen.length < cap := by omega
    refine ⟨?_, rfl, ?_⟩
    · dsimp only
      rw [hout, List.take_of_length_le hall.le, List.take_of_length_le (by simpa using hall)]
    · simp [Nat.not_le.2 hall]
  · have hfull : cap ≤ seen.length := by omega
    refine ⟨?_, rfl, ?_⟩
    · dsimp only
      rw [hout, List.take_append_of_le_length hfull]
    · simp [hfull]

/-- **A visit**: the step of the walk. -/
theorem Visited.visit {cap : ℕ} {seen : List Function} {w : Walk} (h : Visited cs cap seen w) {bus : ℕ} {f : Function}
    (hbus : Reachable cs bus) (hf : f ∈ busFunctions cs bus) : Visited cs cap (seen ++ [f]) (visit cs cap w f) := by
  have hlen : cap < (seen ++ [f]).length ↔ cap ≤ seen.length := by
    rw [List.length_append, List.length_singleton, Nat.lt_succ_iff]
  unfold Pci.visit
  rcases followBridge_cases cs f h.bound with ⟨b, hl, hnew, hroom, heq⟩ | ⟨b, hl, hnew, hfull, heq⟩ | ⟨hall, heq⟩
  · -- with room in the worklist nothing was left out, and nothing is
    have hkept : ¬Missing cs seen w.buses := fun hm => absurd (h.full hm) hroom.ne
    have hkept' : ¬Missing cs (seen ++ [f]) (w.buses ++ [b]) := by
      rw [missing_append]
      rintro (⟨g, hg, c, hc, hmem⟩ | ⟨c, hc, hmem⟩)
      · exact hkept ⟨g, hg, c, hc, fun hw => hmem (List.mem_append_left _ hw)⟩
      · exact hmem (List.mem_append_right _ (List.mem_singleton.2 (hc.unique cs hl)))
    obtain ⟨hout, hbuses, htrunc⟩ := found_visited (f := f) (w := { w with buses := w.buses ++ [b] }) h.out
    rw [heq]
    refine ⟨hout, ?_, ?_, ?_, ?_, ?_, ?_⟩
    · rw [hbuses]
      exact List.nodup_append.2 ⟨h.nodup, List.nodup_singleton b, fun x hx y hy hxy =>
        hnew (List.mem_singleton.1 hy ▸ hxy ▸ hx)⟩
    · rw [hbuses]; exact List.mem_append_left _ h.root
    · rw [hbuses]
      intro c hc
      rcases List.mem_append.1 hc with hc | hc
      · exact h.reach c hc
      · rw [List.mem_singleton.1 hc]
        exact hbus.leadsTo cs hf hl
    · rw [hbuses, List.length_append]
      exact hroom
    · rw [hbuses]
      exact fun hm => absurd hm hkept'
    · rw [hbuses, htrunc, h.truncated, hlen]
      simp only [hkept, hkept', or_false]
      omega
  · obtain ⟨hout, hbuses, htrunc⟩ := found_visited (f := f) (w := { w with truncated := true }) h.out
    have hm : Missing cs (seen ++ [f]) w.buses := (missing_append cs).2 (Or.inr ⟨b, hl, hnew⟩)
    rw [heq]
    refine ⟨hout, by rw [hbuses]; exact h.nodup, by rw [hbuses]; exact h.root, by rw [hbuses]; exact h.reach,
      by rw [hbuses]; exact h.bound, fun _ => by rw [hbuses]; exact hfull, ?_⟩
    rw [hbuses, htrunc]
    simp [hm]
  · obtain ⟨hout, hbuses, htrunc⟩ := found_visited (f := f) (w := w) h.out
    have hm : Missing cs (seen ++ [f]) w.buses ↔ Missing cs seen w.buses := by
      rw [missing_append]
      exact or_iff_left fun ⟨b, hl, hnew⟩ => hnew (hall b hl)
    rw [heq]
    refine ⟨hout, by rw [hbuses]; exact h.nodup, by rw [hbuses]; exact h.root, by rw [hbuses]; exact h.reach,
      by rw [hbuses]; exact h.bound, ?_, ?_⟩
    · rw [hbuses, hm]; exact h.full
    · rw [hbuses, htrunc, h.truncated, hlen, hm, or_right_comm, or_iff_right_of_imp (a := cap < seen.length) fun hc => hc.le]

/-- a bus is walked: all its functions are met -/
theorem Visited.walkBus {cap : ℕ} {seen : List Function} {w : Walk} (h : Visited cs cap seen w) {bus : ℕ}
    (hbus : Reachable cs bus) : Visited cs cap (seen ++ busFunctions cs bus) (walkBus cs cap bus w) := by
  have hrun : ∀ (fs seen : List Function) (w : Walk), (∀ f ∈ fs, f ∈ busFunctions cs bus) → Visited cs cap seen w →
      Visited cs cap (seen ++ fs) (fs.foldl (Pci.visit cs cap) w) := by
    intro fs
    induction fs with
    | nil => exact fun seen w _ h => by simpa using h
    | cons f fs ih =>
      intro seen w hfs h
      have hstep := ih _ _ (fun g hg => hfs g (List.mem_cons_of_mem _ hg)) (h.visit cs hbus (hfs f List.mem_cons_self))
      simpa using hstep
  rw [walkBus_eq]
  exact hrun _ seen w (fun f hf => hf) h

/-! ## The whole walk -/

/-- `while next < nbuses`: the loop of `enumerate` goes from `w` to `w'` and ends -/
inductive Loop (cap : ℕ) : ℕ → Walk → Walk → Prop
  | done {next : ℕ} {w : Walk} : w.buses[next]? = none → Loop cap next w w
  | turn {next bus : ℕ} {w w' : Walk} :
    w.buses[next]? = some bus → Loop cap (next + 1) (walkBus cs cap bus w) w' → Loop cap next w w'

/-- the worklist never grows past `MAX_BUSES`, so the loop ends within as many turns -/
theorem walkBuses_loop (cap fuel next : ℕ) (w : Walk) (hw : w.buses.length ≤ MAX_BUSES) (hf : MAX_BUSES ≤ next + fuel) :
    Loop cs cap next w (walkBuses cs cap fuel next w) := by
  induction fuel generalizing next w with
  | zero => exact Loop.done (List.getElem?_eq_none (by omega))
  | succ fuel ih =>
    rw [walkBuses]
    cases hb : w.buses[next]? with
    | none => exact Loop.done hb
    | some bus => exact Loop.turn hb (ih _ _ ((grows_walkBus cs cap bus w).bound hw) (by omega))

/-- **The walk ends**, whatever configuration space holds. -/
theorem enumerate_runs (cap : ℕ) : Loop cs cap 0 ⟨[0], [], false⟩ (enumerate cs cap) :=
  walkBuses_loop cs cap MAX_BUSES 0 _ (by decide) (by decide)

/-- the loop keeps the walk's account: the buses before `next` have been walked -/
theorem Loop.visited {cap next : ℕ} {w w' : Walk} (hloop : Loop cs cap next w w')
    (h : Visited cs cap ((w.buses.take next).flatMap (busFunctions cs)) w) :
    Visited cs cap (w'.buses.flatMap (busFunctions cs)) w' := by
  induction hloop with
  | done hnone =>
    rwa [List.take_of_length_le (List.getElem?_eq_none_iff.1 hnone)] at h
  | @turn next bus w w' hbus _ ih =>
    apply ih
    obtain ⟨hlt, hget⟩ := List.getElem?_eq_some_iff.1 hbus
    obtain ⟨new, hnew, -⟩ := (grows_walkBus cs cap bus w).buses
    have hstep := h.walkBus cs (h.reach bus (List.mem_of_getElem? hbus))
    -- the list only grows at its end
    have htake : (Pci.walkBus cs cap bus w).buses.take (next + 1) = w.buses.take next ++ [bus] := by
      rw [hnew, List.take_append_of_le_length hlt, List.take_succ_eq_append_getElem hlt, hget]
    rw [htake, List.flatMap_append, List.flatMap_singleton]
    exact hstep

/-- what the walk has at its end -/
theorem enumerate_visited (cap : ℕ) :
    Visited cs cap ((enumerate cs cap).buses.flatMap (busFunctions cs)) (enumerate cs cap) :=
  (enumerate_runs cs cap).visited cs (visited_start cs cap)

/-- **The buses**: if none was left out, the worklist has exactly the reachable ones. -/
theorem enumerate_buses {cap : ℕ} {bus : ℕ}
    (h : ¬Missing cs ((enumerate cs cap).buses.flatMap (busFunctions cs)) (enumerate cs cap).buses) :
    bus ∈ (enumerate cs cap).buses ↔ Reachable cs bus := by
  have hv := enumerate_visited cs cap
  refine ⟨hv.reach bus, fun hr => ?_⟩
  induction hr with
  | refl => exact hv.root
  | @tail a b _ hab ih =>
    obtain ⟨dev, func, hvis, hb⟩ := hab
    by_contra hmem
    have hf : functionAt cs a dev func ∈ busFunctions cs a := (mem_busFunctions cs).2 ⟨dev, func, hvis, rfl⟩
    exact h ⟨_, List.mem_flatMap.2 ⟨a, ih, hf⟩, b, hb, hmem⟩

/-- **The functions**: with nothing dropped, the visible ones of the reachable buses. -/
theorem enumerate_found {cap : ℕ} (h : (enumerate cs cap).truncated = false) {f : Function} :
    f ∈ (enumerate cs cap).out ↔ ∃ bus dev func, Reachable cs bus ∧ Visible cs bus dev func ∧ f = functionAt cs bus dev func := by
  have hv := enumerate_visited cs cap
  have hkept := mt hv.truncated.2 (Bool.eq_false_iff.1 h)
  push Not at hkept
  rw [hv.out, List.take_of_length_le hkept.1, List.mem_flatMap]
  simp only [enumerate_buses cs hkept.2, mem_busFunctions, ← exists_and_left]

/-- **Enumeration is exact.** -/
theorem enumerate_exact (cap : ℕ) :
    Loop cs cap 0 ⟨[0], [], false⟩ (enumerate cs cap) ∧
    (enumerate cs cap).out.length ≤ cap ∧ (enumerate cs cap).out.Nodup ∧
    ((enumerate cs cap).truncated = false → ∀ f, f ∈ (enumerate cs cap).out ↔
      ∃ bus dev func, Reachable cs bus ∧ Visible cs bus dev func ∧ f = functionAt cs bus dev func) ∧
    ((enumerate cs cap).truncated = true ↔ (∃ bus, Reachable cs bus ∧ bus ∉ (enumerate cs cap).buses) ∨
      ∃ bus dev func, Reachable cs bus ∧ Visible cs bus dev func ∧ functionAt cs bus dev func ∉ (enumerate cs cap).out) := by
  have hv := enumerate_visited cs cap
  have hnodup := nodup_functions cs hv.nodup
  refine ⟨enumerate_runs cs cap, ?_, ?_, fun h f => enumerate_found cs h, fun h => ?_, fun h => ?_⟩
  · rw [hv.out]
    exact List.length_take_le _ _
  · rw [hv.out]
    exact hnodup.sublist (List.take_sublist _ _)
  · rcases hv.truncated.1 h with hlen | ⟨f, hf, b, hb, hmem⟩
    · -- the function that met a full list
      obtain ⟨bus, hbus, hf⟩ := List.mem_flatMap.1 (List.getElem_mem hlen)
      obtain ⟨dev, func, hvis, heq⟩ := (mem_busFunctions cs).1 hf
      refine Or.inr ⟨bus, dev, func, hv.reach bus hbus, hvis, ?_⟩
      rw [← heq, hv.out]
      intro hmem
      obtain ⟨i, hi, hget⟩ := List.mem_take_iff_getElem.1 hmem
      have := (hnodup.getElem_inj_iff).1 hget
      omega
    · obtain ⟨bus, hbus, hf⟩ := List.mem_flatMap.1 hf
      exact Or.inl ⟨b, (hv.reach bus hbus).leadsTo cs hf hb, hmem⟩
  · by_contra hne
    have hfalse := Bool.eq_false_iff.2 hne
    have hkept := mt hv.truncated.2 hne
    push Not at hkept
    rcases h with ⟨bus, hr, hmem⟩ | ⟨bus, dev, func, hr, hvis, hmem⟩
    · exact hmem ((enumerate_buses cs hkept.2).2 hr)
    · exact hmem ((enumerate_found cs hfalse).2 ⟨bus, dev, func, hr, hvis, rfl⟩)

end Rustproof.Boot.Pci
