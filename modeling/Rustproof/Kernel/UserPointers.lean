/-
The user-pointer check (`user_range_mapped` of `arch_x86.rs` and `arch_riscv.rs`) against the page walk of the processor.

The kernel looks at the flags of one leaf for each page; the processor refuses at any level. They agree in the spaces the kernel
builds because every upper entry it writes there is permissive: a space stays `Linked` under `create`, `share_kernel`, `map_page`
and `unmap_page` (`exec_linked`).

- `judge`: what the processor makes of an entry, for both instruction sets; `userAccess` is the walk.
- `userAccess_eq`: in a linked space the walk comes to what the leaf's flags say.
- `userPointers_agree`: the check passes exactly the ranges whose every byte the walk permits, and the copies stay within.
-/
import Rustproof.Lib.RadixLinks
import Rustproof.Loader.Content
import Rustproof.Vspace.UserAccess

namespace Rustproof.Kernel

open Lib RadixTree FrameAllocator Vspace Loader

/-! ## Spaces whose upper entries are links -/

section Linked

variable {U : Mmu} {α : Type} [FrameAllocator α] {P : Supply U α} {root : ℕ} {r : α}

/-- the upper entries of the space's own are links -/
def LinkedSpace (U : Mmu) (m : Mem) (root : ℕ) : Prop := Linked U.fmt U.depth U.window m root

theorem descend_linked {v : ℕ} (hv : U.Own v) {l : ℕ} (hl : l ≤ U.depth) {t : ℕ} (h : Built P root r)
    (hL : LinkedSpace U (mem r) root) (ht : tableAt U.fmt (mem r) root (outer U.depth v l) = some t) :
    LinkedSpace U (mem (descend U v l t r).2) root := by
  induction l generalizing t r with
  | zero => exact hL
  | succ l ih =>
    have hvalid : Valid U.depth U.window (outer U.depth v l) := valid_outer (U.window_path hv) (by omega)
    have hstep : ∀ m : Mem, tableAt U.fmt m root (outer U.depth v l) =
        tableAt U.fmt m root (v / 512 ^ (l + 1) % 512 :: outer U.depth v (l + 1)) := fun m => by rw [outer_step (by omega)]
    rw [outer_step (by omega)] at hvalid
    rw [descend]
    cases hpres : U.fmt.present (mem r t (v / 512 ^ (l + 1) % 512)) with
    | true =>
      have hhuge := h.tree.noHuge _ _ _ hvalid ht hpres
      simp only [hhuge, if_true, Bool.false_eq_true, if_false]
      refine ih (by omega) h hL ?_
      rw [hstep, tableAt, ht, Option.bind_some, follow, if_pos ⟨hpres, hhuge⟩]
    | false =>
      simp only [Bool.false_eq_true, if_false]
      have hsame : ∀ u ∈ U.tables (mem r) root, mem (allocFrame r).2 u = mem r u :=
        fun u hu => P.mem_alloc r u h.ok (h.apart u hu)
      obtain ⟨hgrown, htab, -⟩ := grown_alloc h
      rcases halloc : allocFrame r with ⟨_ | g, r'⟩
      · rw [halloc] at hsame
        exact hL.congr hsame
      · obtain ⟨hlink, -, hat⟩ := grown_link h (by rw [halloc]) hvalid ht hpres
        obtain ⟨hg, -⟩ := P.fresh r g h.ok (by rw [halloc])
        rw [halloc] at hgrown htab hsame hlink hat
        refine ih (by omega) hlink.built ?_ (by rw [hstep, mem_setMem]; exact hat)
        rw [mem_setMem]
        refine Linked.hang (hL.congr hsame) hgrown.built.tree hvalid ?_ ?_ ?_ (P.fits r g h.ok hg)
        · rw [tableAt_congr hsame hvalid.tail]
          exact ht
        · rw [hsame t (mem_tables hvalid.tail ht)]
          exact hpres
        · exact fun hc => h.apart g (htab ▸ hc) hg

theorem map_linked {va : ℕ} (pa : ℕ) (flags : Word) (hv : U.Own (va / PAGE_SIZE)) (h : Built P root r)
    (hL : LinkedSpace U (mem r) root) : LinkedSpace U (mem (map U root va pa flags r).2) root := by
  rw [map]
  split_ifs
  · exact hL
  · exact hL
  · exact hL
  · have hd := descend_linked (t := root) hv le_rfl h hL (by rw [outer_top]; rfl)
    obtain ⟨hgrown, -, hat⟩ := descend_spec (t := root) hv le_rfl h (by rw [outer_top]; rfl)
    simp only
    rcases hm : descend U (va / PAGE_SIZE) U.depth root r with ⟨_ | t, r'⟩
    · rw [hm] at hd
      exact hd
    · rw [hm] at hd hgrown hat
      simp only
      split_ifs
      · exact hd
      · rw [mem_setMem]
        exact Linked.setLeaf hd hgrown.built.tree (U.valid_path hv) (length_path _ _) hat _

theorem mapPage_linked {va : ℕ} (pa : ℕ) (perms : Perms) (hv : U.Own (va / PAGE_SIZE)) (h : Built P root r)
    (hL : LinkedSpace U (mem r) root) : LinkedSpace U (mem (mapPage U root va pa perms r).2) root := by
  rw [mapPage]
  cases U.encode perms with
  | none => exact hL
  | some flags =>
    have hmap := map_linked pa flags hv h hL
    simp only
    rcases hm : map U root va pa flags r with ⟨_ | _, r'⟩
    · rw [hm] at hmap; exact hmap
    · rw [hm] at hmap; exact hmap

theorem unmap_linked {va : ℕ} {m : Mem} (hv : U.Own (va / PAGE_SIZE)) (hT : U.Tree m root) (hL : LinkedSpace U m root) :
    LinkedSpace U (unmap U m root va).2 root := by
  rw [unmap]
  simp only
  rw [reach_of_tableAt (F := U.fmt) (m := m) (v := va / PAGE_SIZE) (le_refl U.depth) (t := root) (by rw [outer_top]; rfl)]
  cases ht : tableAt U.fmt m root (path U.depth (va / PAGE_SIZE)) with
  | none => exact hL
  | some t =>
    simp only
    split_ifs
    · exact Linked.setLeaf hL hT (U.valid_path hv) (length_path _ _) ht _
    · exact hL

/-- the root of a new space has the kernel's entries and no others -/
theorem create_linked {ktoken : ℕ} {r' : α} (hc : create U r = (some root, r')) (hne : root ≠ U.root ktoken) :
    LinkedSpace U (shareKernel U (mem r') root ktoken) root := by
  refine Linked.fresh fun i hi => ?_
  rw [(shareKernel_spec (mem r') hne).2.1 i hi]
  rw [create] at hc
  rcases ha : allocFrame r with ⟨_ | g, r₁⟩
  · rw [ha] at hc; simp at hc
  · rw [ha] at hc
    obtain ⟨hg, rfl⟩ := Prod.mk.inj hc
    obtain rfl := Option.some.inj hg
    rw [mem_setMem, Store.fill_self]
    exact U.fmt.present_empty

variable {m₀ : Mem} {ktoken : ℕ} {s : World α}

/-- **One operation** on pages of the spaces' own keeps them linked. -/
theorem exec_linked (h : Spaces P m₀ ktoken s) (hL : ∀ a ∈ s.roots, LinkedSpace U (mem s.r) a) {o : SpaceOp}
    (ho : ∀ v, o.page = some v → U.Own v) : ∀ a ∈ (s.exec U ktoken o).roots, LinkedSpace U (mem (s.exec U ktoken o).r) a := by
  cases o with
  | create =>
    have hkroot : U.root ktoken ∉ P.free s.r := h.kernelFree _ (root_mem_tables _ _)
    rw [World.exec]
    rcases hc : create U s.r with ⟨_ | root, r'⟩
    · -- the allocator is empty
      have hr' : r' = (allocFrame s.r).2 := by
        rw [create] at hc
        rcases ha : allocFrame s.r with ⟨_ | g, r₁⟩
        · rw [ha] at hc; exact (Prod.mk.inj hc).2.symm
        · rw [ha] at hc; simp at hc
      subst hr'
      exact fun a ha => (hL a ha).congr fun t ht => P.mem_alloc _ t h.ok ((h.built a ha).apart t ht)
    · obtain ⟨-, ⟨hfree, -, -⟩, -, -, hoff⟩ := create_spec h.ok hc hkroot
      intro a ha
      rcases List.mem_append.1 ha with ha | ha
      · exact (hL a ha).congr fun t ht => hoff t ((h.built a ha).apart t ht)
      · rw [List.mem_singleton.1 ha, mem_setMem]
        exact create_linked hc fun e => hkroot (e ▸ hfree)
  | mapPage j va pa perms =>
    rw [World.exec]
    cases hj : s.roots[j]? with
    | none => exact hL
    | some b =>
      have hb := List.mem_of_getElem? hj
      have hown := ho _ rfl
      have hothers := (h.within hb (mapPage_spec pa perms hown (h.built b hb)).1.toWithin).2
      intro a ha
      by_cases hab : a = b
      · rw [hab]
        exact mapPage_linked pa perms hown (h.built b hb) (hL b hb)
      · exact (hL a ha).congr (hothers a ha hab)
  | unmapPage j va =>
    rw [World.exec]
    cases hj : s.roots[j]? with
    | none => exact hL
    | some b =>
      have hb := List.mem_of_getElem? hj
      have hown := ho _ rfl
      have hothers := (h.within hb ((unmap_cleared va hown (h.built b hb).tree).within (h.built b hb))).2
      intro a ha
      by_cases hab : a = b
      · rw [hab, mem_setMem]
        exact unmap_linked hown (h.built b hb).tree (hL b hb)
      · exact (hL a ha).congr (hothers a ha hab)

theorem run_linked (h : Spaces P m₀ ktoken s) (hL : ∀ a ∈ s.roots, LinkedSpace U (mem s.r) a) {ops : List SpaceOp}
    (hops : ∀ o ∈ ops, ∀ v, o.page = some v → U.Own v) :
    ∀ a ∈ (s.run U ktoken ops).roots, LinkedSpace U (mem (s.run U ktoken ops).r) a := by
  induction ops generalizing s with
  | nil => exact hL
  | cons o ops ih =>
    have ho := hops o List.mem_cons_self
    exact ih (exec_spaces h ho).1 (exec_linked h hL ho) fun o' ho' => hops o' (List.mem_cons_of_mem _ ho')

end Linked

/-! ## The processor's walk -/

/-- what the x86-64 processor makes of an entry of level `l` on a user access: it must be present and `USER`, and `WRITABLE` for a
write; above the last level the size bit ends the walk at a large page, and is reserved in the root -/
def judgeX86 (write : Bool) (l : ℕ) (e : Word) : Option Bool :=
  if e.getLsbD 0 && e.getLsbD 2 && (!write || e.getLsbD 1) then
    if l = 0 then some true else if e.getLsbD 7 then some (decide (l < 3)) else none
  else some false

/-- the same under Sv39: an entry that is not valid, or writable and not readable, is refused; one with `R` or `X` is a leaf,
which needs `U` and `R`, and `W` for a write, and a large page must be aligned; any other is a pointer -/
def judgeSv39 (write : Bool) (l : ℕ) (e : Word) : Option Bool :=
  if !e.getLsbD 0 || (!e.getLsbD 1 && e.getLsbD 2) then some false
  else if e.getLsbD 1 || e.getLsbD 3 then
    some (e.getLsbD 4 && e.getLsbD 1 && (!write || e.getLsbD 2) && decide (Riscv.pteAddr e % (512 ^ l * PAGE_SIZE) = 0))
  else if l = 0 then some false else none

def judge : Isa → Bool → ℕ → Word → Option Bool
  | .x86_64 => judgeX86
  | .sv39 => judgeSv39

/-- the processor lets a user access to `va` through the tables under `root` -/
def userAccess (isa : Isa) (m : Mem) (root va : ℕ) (write : Bool) : Bool :=
  judged (machineOf isa).fmt (judge isa write) m (va / PAGE_SIZE) (machineOf isa).depth root

/-- links are permissive -/
theorem judge_lets (isa : Isa) (write : Bool) : Lets (machineOf isa).fmt (judge isa write) := by
  cases isa with
  | x86_64 =>
    refine ⟨fun l e he => ?_, fun l g => ?_⟩
    · have h0 : e.getLsbD 0 = false := he
      simp only [judge, judgeX86, h0, Bool.false_and, Bool.false_eq_true, if_false]
    · have hbit : ∀ i < 12, (X86.newEntry g (X86.PRESENT ||| X86.WRITABLE ||| X86.USER)).getLsbD i =
          (X86.PRESENT ||| X86.WRITABLE ||| X86.USER).getLsbD i := fun i hi => by
        rw [X86.getLsbD_newEntry _ _ (by omega), if_neg (by omega)]
      show judgeX86 write (l + 1) (X86.newEntry g (X86.PRESENT ||| X86.WRITABLE ||| X86.USER)) = none
      rw [judgeX86, hbit 0 (by decide), hbit 1 (by decide), hbit 2 (by decide), hbit 7 (by decide)]
      cases write <;> simp [X86.PRESENT, X86.WRITABLE, X86.USER]
  | sv39 =>
    refine ⟨fun l e he => ?_, fun l g => ?_⟩
    · have h0 : e.getLsbD 0 = false := he
      simp only [judge, judgeSv39, h0, Bool.not_false, Bool.true_or, if_true]
    · have hbit : ∀ i < 10, (Riscv.newPte g Riscv.V).getLsbD i = Riscv.V.getLsbD i := fun i hi => by
        rw [Riscv.getLsbD_newPte _ _ (by omega), if_neg (by omega)]
      show judgeSv39 write (l + 1) (Riscv.newPte g Riscv.V) = none
      rw [judgeSv39, hbit 0 (by decide), hbit 1 (by decide), hbit 2 (by decide), hbit 3 (by decide)]
      simp [Riscv.V]

/-- all bits of `n` are in `x` -/
theorem contains_iff {x n : Word} : (x &&& n == n) = true ↔ ∀ i < 64, n.getLsbD i = true → x.getLsbD i = true := by
  rw [beq_iff_eq]
  constructor
  · intro h i _ hn
    rw [← h, BitVec.getLsbD_and, Bool.and_eq_true] at hn
    exact hn.1
  · intro h
    refine BitVec.eq_of_getLsbD_eq fun i hi => ?_
    rw [BitVec.getLsbD_and]
    cases hn : n.getLsbD i with
    | false => simp
    | true => simp [h i hi hn]

/-- the flags the check asks for are the bits the processor looks at -/
theorem permits_x86 (w : Bool) (e : Word) :
    X86.permits w (X86.flags e) = (e.getLsbD 0 && e.getLsbD 2 && (!w || e.getLsbD 1)) := by
  have hbit : ∀ i < 12, (X86.flags e).getLsbD i = e.getLsbD i := fun i hi => by
    rw [X86.flags, BitVec.getLsbD_and, BitVec.getLsbD_not, X86.getLsbD_ADDR_MASK]
    simp [show i < 64 by omega, show ¬12 ≤ i by omega]
  have hneed : ∀ i < 64, (X86.needed w).getLsbD i = true ↔ i = 0 ∨ i = 2 ∨ w = true ∧ i = 1 := by
    cases w <;> decide
  rw [Bool.eq_iff_iff, X86.permits, contains_iff]
  simp only [Bool.and_eq_true, Bool.or_eq_true, Bool.not_eq_true']
  constructor
  · intro h
    have hget : ∀ i < 12, (X86.needed w).getLsbD i = true → e.getLsbD i = true := fun i hi hn => by
      rw [← hbit i hi]
      exact h i (by omega) hn
    refine ⟨⟨hget 0 (by decide) ((hneed 0 (by decide)).2 (Or.inl rfl)),
      hget 2 (by decide) ((hneed 2 (by decide)).2 (Or.inr (Or.inl rfl)))⟩, ?_⟩
    cases w with
    | false => exact Or.inl rfl
    | true => exact Or.inr (hget 1 (by decide) ((hneed 1 (by decide)).2 (Or.inr (Or.inr ⟨rfl, rfl⟩))))
  · rintro ⟨⟨h0, h2⟩, h1⟩ i hi hn
    rcases (hneed i hi).1 hn with rfl | rfl | ⟨rfl, rfl⟩
    · rw [hbit 0 (by decide)]; exact h0
    · rw [hbit 2 (by decide)]; exact h2
    · rw [hbit 1 (by decide)]; exact h1.resolve_left (by decide)

theorem permits_sv39 (w : Bool) (e : Word) :
    Riscv.permits w (Riscv.flags e) = (e.getLsbD 0 && e.getLsbD 1 && e.getLsbD 4 && (!w || e.getLsbD 2)) := by
  have hbit : ∀ i < 10, (Riscv.flags e).getLsbD i = e.getLsbD i := fun i hi => by
    rw [Riscv.flags, BitVec.getLsbD_and, BitVec.getLsbD_not, Riscv.getLsbD_PPN_MASK]
    simp [show i < 64 by omega, show ¬10 ≤ i by omega]
  have hneed : ∀ i < 64, (Riscv.needed w).getLsbD i = true ↔ i = 0 ∨ i = 1 ∨ i = 4 ∨ w = true ∧ i = 2 := by
    cases w <;> decide
  rw [Bool.eq_iff_iff, Riscv.permits, contains_iff]
  simp only [Bool.and_eq_true, Bool.or_eq_true, Bool.not_eq_true']
  constructor
  · intro h
    have hget : ∀ i < 10, (Riscv.needed w).getLsbD i = true → e.getLsbD i = true := fun i hi hn => by
      rw [← hbit i hi]
      exact h i (by omega) hn
    refine ⟨⟨⟨hget 0 (by decide) ((hneed 0 (by decide)).2 (by simp)), hget 1 (by decide) ((hneed 1 (by decide)).2 (by simp))⟩,
      hget 4 (by decide) ((hneed 4 (by decide)).2 (by simp))⟩, ?_⟩
    cases w with
    | false => exact Or.inl rfl
    | true => exact Or.inr (hget 2 (by decide) ((hneed 2 (by decide)).2 (by simp)))
  · rintro ⟨⟨⟨h0, h1⟩, h4⟩, h2⟩ i hi hn
    rcases (hneed i hi).1 hn with rfl | rfl | rfl | ⟨rfl, rfl⟩
    · rw [hbit 0 (by decide)]; exact h0
    · rw [hbit 1 (by decide)]; exact h1
    · rw [hbit 4 (by decide)]; exact h4
    · rw [hbit 2 (by decide)]; exact h2.resolve_left (by decide)

/-- the processor's verdict on a last-level entry is the check's -/
theorem judge_leaf (isa : Isa) (write : Bool) (e : Word) :
    (judge isa write 0 e).getD false = (decide (MapsPage (machineOf isa).toMmu e) &&
        (machineOf isa).permits write ((machineOf isa).flags e)) := by
  cases isa with
  | x86_64 =>
    show (judgeX86 write 0 e).getD false = (decide (e.getLsbD 0 = true ∧ true = true) && X86.permits write (X86.flags e))
    rw [permits_x86, judgeX86]
    cases e.getLsbD 0 <;> cases e.getLsbD 1 <;> cases e.getLsbD 2 <;> cases write <;> rfl
  | sv39 =>
    have hleaf : Riscv.isLeaf e = (e.getLsbD 1 || e.getLsbD 2 || e.getLsbD 3) := by
      have hbits : ∀ i < 64, Riscv.RWX.getLsbD i = true ↔ i = 1 ∨ i = 2 ∨ i = 3 := by decide
      rw [Bool.eq_iff_iff, Riscv.isLeaf, bne_iff_ne, ne_eq, ← not_iff_not, not_not]
      simp only [Bool.or_eq_true, not_or, Bool.not_eq_true]
      constructor
      · intro h
        have hget : ∀ i, Riscv.RWX.getLsbD i = true → e.getLsbD i = false := fun i hn => by
          have hb := congrArg (fun x : Word => x.getLsbD i) h
          simpa [hn] using hb
        exact ⟨⟨hget 1 (by decide), hget 2 (by decide)⟩, hget 3 (by decide)⟩
      · rintro ⟨⟨h1, h2⟩, h3⟩
        refine BitVec.eq_of_getLsbD_eq fun i hi => ?_
        rw [BitVec.getLsbD_and]
        cases hn : Riscv.RWX.getLsbD i with
        | false => simp
        | true =>
          rcases (hbits i hi).1 hn with rfl | rfl | rfl
          · rw [h1]; rfl
          · rw [h2]; rfl
          · rw [h3]; rfl
    have hal : Riscv.pteAddr e % (512 ^ 0 * PAGE_SIZE) = 0 := by rw [Riscv.pteAddr, pow_zero, one_mul, Nat.mul_mod_left]
    show (judgeSv39 write 0 e).getD false =
      (decide (e.getLsbD 0 = true ∧ Riscv.isLeaf e = true) && Riscv.permits write (Riscv.flags e))
    rw [permits_sv39, judgeSv39, hleaf, hal]
    cases e.getLsbD 0 <;> cases e.getLsbD 1 <;> cases e.getLsbD 2 <;> cases e.getLsbD 3 <;> cases e.getLsbD 4 <;>
      cases write <;> rfl

/-- **In a linked space the processor's walk says what the leaf's flags say.** -/
theorem userAccess_eq (isa : Isa) {m : Mem} {root va : ℕ} (hT : (machineOf isa).Tree m root)
    (hL : LinkedSpace (machineOf isa).toMmu m root) (hv : (machineOf isa).Own (va / PAGE_SIZE)) (write : Bool) :
    userAccess isa m root va write =
      (leafFlags (machineOf isa).toMmu m root va).elim false ((machineOf isa).permits write) := by
  have hjudged := judged_eq_leaf (judge_lets isa write) hT hL ((machineOf isa).window_path hv)
  rw [userAccess, hjudged, judge_leaf, leafFlags, walk_own hT hv]
  by_cases hm : MapsPage (machineOf isa).toMmu ((machineOf isa).leaf m root (va / PAGE_SIZE))
  · rw [if_pos hm]
    unfold Mmu.leaf at hm ⊢
    simp [hm]
  · rw [if_neg hm]
    unfold Mmu.leaf at hm
    simp [hm]

/-! ## The check and the copies -/

/-- **The user-pointer check agrees with the processor**, in every space built by `create`, `share_kernel` and any operations in
the user window; so a copy touches no byte the user could not. -/
theorem userPointers_agree (isa : Isa) {α : Type} [FrameAllocator α] {P : Supply (machineOf isa).toMmu α} {ktoken : ℕ} {r₀ : α}
    (hok : P.Ok r₀) (hkernel : ∀ t ∈ kernelFrames (machineOf isa).toMmu (mem r₀) ((machineOf isa).root ktoken), t ∉ P.free r₀)
    {ops : List SpaceOp} (hops : ∀ o ∈ ops, o.InWindow (machineOf isa)) :
    let s := World.run (machineOf isa).toMmu ktoken ops ⟨r₀, []⟩
    ∀ cr3, (machineOf isa).root cr3 ∈ s.roots → ∀ uptr,
      (∀ len write, userRangeMapped (machineOf isa) (mem s.r) cr3 uptr len write = true ↔
        len < 2 ^ 20 ∧ (machineOf isa).userBase ≤ uptr ∧ uptr + len < 2 ^ 64 ∧ uptr + len ≤ (machineOf isa).userLimit ∧
          ∀ k < len, userAccess isa (mem s.r) ((machineOf isa).root cr3) (uptr + k) write = true) ∧
      (∀ bytes m, copyToUser (machineOf isa) (mem s.r) cr3 uptr bytes = some m →
        ∀ k < bytes.length, userAccess isa (mem s.r) ((machineOf isa).root cr3) (uptr + k) true = true) ∧
      ∀ len bytes, copyFromUser (machineOf isa) (mem s.r) cr3 uptr len = some bytes →
        ∀ k < len, userAccess isa (mem s.r) ((machineOf isa).root cr3) (uptr + k) false = true := by
  intro s cr3 hroot uptr
  have hown : ∀ o ∈ ops, ∀ v, o.page = some v → (machineOf isa).Own v := fun o ho v hv => (hops o ho).own hv
  have hspaces := run_spaces (Spaces.start hok hkernel) hown
  have hlinked := run_linked (Spaces.start hok hkernel) (fun _ h => absurd h List.not_mem_nil) hown
  have hT := (hspaces.built _ hroot).tree
  have hL := hlinked _ hroot
  have hcheck : ∀ len write, userRangeMapped (machineOf isa) (mem s.r) cr3 uptr len write = true ↔
      len < 2 ^ 20 ∧ (machineOf isa).userBase ≤ uptr ∧ uptr + len < 2 ^ 64 ∧ uptr + len ≤ (machineOf isa).userLimit ∧
        ∀ k < len, userAccess isa (mem s.r) ((machineOf isa).root cr3) (uptr + k) write = true := by
    intro len write
    have hptr : userPtrOk (machineOf isa) uptr len = true ↔
        len < 2 ^ 20 ∧ (machineOf isa).userBase ≤ uptr ∧ uptr + len < 2 ^ 64 ∧ uptr + len ≤ (machineOf isa).userLimit := by
      rw [userPtrOk, decide_eq_true_eq]
    have hbytes : userPtrOk (machineOf isa) uptr len = true → ((∀ k < len,
        (leafFlags (machineOf isa).toMmu (mem s.r) ((machineOf isa).root cr3) (uptr + k)).elim false
          ((machineOf isa).permits write) = true) ↔
        ∀ k < len, userAccess isa (mem s.r) ((machineOf isa).root cr3) (uptr + k) write = true) := by
      intro hok
      refine forall₂_congr fun k hk => ?_
      rw [userAccess_eq isa hT hL (userPtrOk_own hok hk)]
    rcases Nat.eq_zero_or_pos len with rfl | hpos
    · rw [userRangeMapped, Bool.and_eq_true, hptr]
      simp
    · rw [userRangeMapped_iff hpos, and_congr_right hbytes, hptr]
      simp only [and_assoc]
  refine ⟨hcheck, fun bytes m hcopy => ?_, fun len bytes hcopy => ?_⟩
  · rw [copyToUser] at hcopy
    split_ifs at hcopy with hm
    exact ((hcheck _ _).1 hm).2.2.2.2
  · rw [copyFromUser] at hcopy
    split_ifs at hcopy with hm
    exact ((hcheck _ _).1 hm).2.2.2.2

/-- the second of two spaces, its page mapped for reading: every byte of the page may be read, and the first may not be written -/
theorem readOnlyPage_agrees :
    let s := World.run Riscv.toMmu (Riscv.token PAGE_SIZE) (sharedAddress Riscv) ⟨twelvePages, []⟩
    (∀ k < PAGE_SIZE, userAccess .sv39 (mem s.r) (Riscv.root (Riscv.token 0x3000)) (Riscv.userBase + k) false = true) ∧
      ¬∀ k < 1, userAccess .sv39 (mem s.r) (Riscv.root (Riscv.token 0x3000)) (Riscv.userBase + k) true = true := by
  intro s
  have hops : ∀ o ∈ sharedAddress Riscv, o.InWindow Riscv := by
    simp [sharedAddress, SpaceOp.InWindow, InUserWindow, Riscv]
  have hroot : Riscv.root (Riscv.token PAGE_SIZE) = PAGE_SIZE := Riscv.root_token _ (by decide) (by decide)
  have hspace : Riscv.root (Riscv.token 0x3000) ∈ s.roots := by
    rw [Riscv.root_token _ (by decide) (by decide)]
    decide +kernel
  have hagree := (userPointers_agree .sv39 (twelvePages_ok Riscv.toMmu) (twelvePages_kernel Riscv.toMmu hroot) hops _ hspace
    Riscv.userBase).1
  refine ⟨((hagree PAGE_SIZE false).1 (by decide +kernel)).2.2.2.2, fun hall => ?_⟩
  have hwrite := (hagree 1 true).2 ⟨by decide, by decide, by decide, by decide, hall⟩
  exact absurd hwrite (by decide +kernel)

end Rustproof.Kernel
