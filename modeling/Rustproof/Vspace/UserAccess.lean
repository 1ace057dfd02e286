/-
User memory as the kernel reaches it through a space: what the walk answers at a page of the space's own, what the range check
asks for, and what a copy leaves.

- `translate_of_leaf`, `leafFlags_of_leaf`, `sameReads_of_leaf`: the walk's answers, from the leaf.
- `userRangeMapped_iff`: the check, byte by byte.
- `storeUserBytes_reads`: what a copy wrote is read back, and the tables stay.
-/
import Rustproof.Vspace.Isolation

namespace Rustproof.Vspace

open Lib RadixTree

/-! ## The walk at a page of the space's own -/

section Walks

variable {U : Mmu} {m m' : Mem} {root va : ℕ}

/-- an entry a walk may end at -/
def MapsPage (U : Mmu) (e : Word) : Prop := U.fmt.present e = true ∧ U.fmt.isLeaf e = true

instance (e : Word) : Decidable (MapsPage U e) := inferInstanceAs (Decidable (_ ∧ _))

theorem walk_own {v : ℕ} (hT : U.Tree m root) (hv : U.Own v) :
    walk U.fmt m v U.depth root = if MapsPage U (U.leaf m root v) then some (0, U.leaf m root v) else none :=
  walk_eq_leaf hT (U.window_path hv)

theorem leafFlags_of_leaf (hT : U.Tree m root) (hv : U.Own (va / PAGE_SIZE)) (h : MapsPage U (U.leaf m root (va / PAGE_SIZE))) :
    leafFlags U m root va = some (U.flags (U.leaf m root (va / PAGE_SIZE))) := by
  rw [leafFlags, walk_own hT hv, if_pos h]
  rfl

theorem leafFlags_isSome (hT : U.Tree m root) (hv : U.Own (va / PAGE_SIZE)) :
    (leafFlags U m root va).isSome = true ↔ MapsPage U (U.leaf m root (va / PAGE_SIZE)) := by
  rw [leafFlags, walk_own hT hv]
  split_ifs with h
  · simp [h]
  · simp [h]

theorem translate_of_leaf (hT : U.Tree m root) (hv : U.Own (va / PAGE_SIZE)) (h : MapsPage U (U.leaf m root (va / PAGE_SIZE))) :
    translate U m root va = some (pageAddr (U.fmt.addr (U.leaf m root (va / PAGE_SIZE))) + va % PAGE_SIZE) := by
  rw [translate, walk_own hT hv, if_pos h, Option.map_some]
  simp only [pow_zero, one_mul]
  rfl

/-- two leaves that are the same, or are no leaves, read the same -/
theorem sameReads_of_leaf (hT : U.Tree m root) (hT' : U.Tree m' root) (hv : U.Own (va / PAGE_SIZE))
    (h : U.leaf m' root (va / PAGE_SIZE) = U.leaf m root (va / PAGE_SIZE) ∨
      ¬MapsPage U (U.leaf m' root (va / PAGE_SIZE)) ∧ ¬MapsPage U (U.leaf m root (va / PAGE_SIZE))) :
    SameReads U m m' root root va := by
  refine sameReads_of_walk ?_
  rw [walk_own hT hv, walk_own hT' hv]
  rcases h with h | ⟨h', h⟩
  · rw [h]
  · rw [if_neg h', if_neg h]

/-- addresses of one page have the same flags -/
theorem leafFlags_page {va' : ℕ} (h : va' / PAGE_SIZE = va / PAGE_SIZE) : leafFlags U m root va' = leafFlags U m root va := by
  rw [leafFlags, leafFlags, h]

end Walks

/-! ## The range check -/

variable {A : Arch} {cr3 va : ℕ} {m : Mem}

/-- every byte of the range is in a page the check passes -/
theorem userRangeMapped_iff {n : ℕ} (hn : 0 < n) {w : Bool} :
    userRangeMapped A m cr3 va n w = true ↔ userPtrOk A va n = true ∧
      ∀ k < n, (leafFlags A.toMmu m (A.root cr3) (va + k)).elim false (A.permits w) = true := by
  have hne : (n == 0) = false := beq_eq_false_iff_ne.2 hn.ne'
  rw [userRangeMapped, Bool.and_eq_true, hne, Bool.false_or, List.all_eq_true]
  refine and_congr_right fun _ => ⟨fun h k hk => ?_, fun h j hj => ?_⟩
  · -- the byte's page is among those checked
    have hpage : (pageAddr va + ((va + k) / PAGE_SIZE - va / PAGE_SIZE) * PAGE_SIZE) / PAGE_SIZE = (va + k) / PAGE_SIZE := by
      simp only [pageAddr, PAGE_SIZE]; omega
    have hin := h ((va + k) / PAGE_SIZE - va / PAGE_SIZE) (List.mem_range.2 (by simp only [pageAddr, PAGE_SIZE]; omega))
    rwa [leafFlags_page hpage] at hin
  · -- the page's first byte in the range
    have hj := List.mem_range.1 hj
    have hbyte := h (pageAddr va + j * PAGE_SIZE - va) (by simp only [pageAddr, PAGE_SIZE] at *; omega)
    have hpage : (va + (pageAddr va + j * PAGE_SIZE - va)) / PAGE_SIZE = (pageAddr va + j * PAGE_SIZE) / PAGE_SIZE := by
      simp only [pageAddr, PAGE_SIZE] at *; omega
    rwa [leafFlags_page hpage] at hbyte

/-! ## What a copy leaves -/

/-- a range of user memory whose pages are the space's own and name none of its tables -/
def Open (A : Arch) (m : Mem) (cr3 va n : ℕ) : Prop :=
  ∀ k < n, A.Own ((va + k) / PAGE_SIZE) ∧ MapsPage A.toMmu (A.leaf m (A.root cr3) ((va + k) / PAGE_SIZE)) ∧
    pageAddr (A.fmt.addr (A.leaf m (A.root cr3) ((va + k) / PAGE_SIZE))) ∉ A.tables m (A.root cr3)

/-- **A copy is read back**: the tables stay, every byte is where the walk finds it, and nothing else is stored to. -/
theorem storeUserBytes_reads {bs : List Byte} (hT : A.Tree m (A.root cr3)) (hlen : bs.length ≤ PAGE_SIZE)
    (hin : Open A m cr3 va bs.length) :
    (∀ t ∈ A.tables m (A.root cr3), storeUserBytes A cr3 m va bs t = m t) ∧
      (∀ k b, bs[k]? = some b → ∃ pa, translate A.toMmu m (A.root cr3) (va + k) = some pa ∧
        readByte (storeUserBytes A cr3 m va bs) pa = b) ∧
      ∀ q, (∀ k < bs.length, translate A.toMmu m (A.root cr3) (va + k) ≠ some q) →
        readByte (storeUserBytes A cr3 m va bs) q = readByte m q := by
  induction bs generalizing m va with
  | nil => exact ⟨fun _ _ => rfl, fun k b h => by simp at h, fun _ _ => rfl⟩
  | cons b bs ih =>
    obtain ⟨hv, hm, hoff⟩ := hin 0 (Nat.succ_pos _)
    rw [Nat.add_zero] at hv hm hoff
    have htr := translate_of_leaf hT hv hm
    set pa := pageAddr (A.fmt.addr (A.leaf m (A.root cr3) (va / PAGE_SIZE))) + va % PAGE_SIZE with hpa
    have hpage : pageAddr pa = pageAddr (A.fmt.addr (A.leaf m (A.root cr3) (va / PAGE_SIZE))) := by
      simp only [hpa, pageAddr, PAGE_SIZE]; omega
    have hstore : storeUser A cr3 m va b = writeByte m pa b := by rw [storeUser, htr]; rfl
    have hsame : ∀ t ∈ A.tables m (A.root cr3), writeByte m pa b t = m t := fun t ht =>
      writeByte_of_ne m (fun e => hoff (by rw [← hpage, ← e]; exact ht)) b
    have htab : A.tables (writeByte m pa b) (A.root cr3) = A.tables m (A.root cr3) := tables_congr hsame
    have hT' : A.Tree (writeByte m pa b) (A.root cr3) := hT.congr hsame
    have hin' : Open A (writeByte m pa b) cr3 (va + 1) bs.length := by
      intro k hk
      obtain ⟨hvk, hmk, hok⟩ := hin (k + 1) (Nat.succ_lt_succ hk)
      rw [show va + 1 + k = va + (k + 1) by omega, leaf_congr hsame hvk, htab]
      exact ⟨hvk, hmk, hok⟩
    -- the walk answers as before the store
    have hwalk : ∀ k < bs.length, translate A.toMmu (writeByte m pa b) (A.root cr3) (va + 1 + k) =
        translate A.toMmu m (A.root cr3) (va + (k + 1)) := by
      intro k hk
      have hvk := (hin (k + 1) (Nat.succ_lt_succ hk)).1
      rw [show va + 1 + k = va + (k + 1) by omega]
      exact (sameReads_of_leaf hT hT' hvk (Or.inl (leaf_congr hsame hvk))).1
    obtain ⟨htables, hreads, hrest⟩ := ih hT' (by simp only [List.length_cons] at hlen; omega) hin'
    rw [storeUserBytes, hstore]
    refine ⟨fun t ht => ?_, fun k c hk => ?_, fun q hq => ?_⟩
    · rw [htables t (by rw [htab]; exact ht), hsame t ht]
    · cases k with
      | zero =>
        obtain rfl : b = c := by simpa using hk
        refine ⟨pa, htr, ?_⟩
        rw [hrest pa, readByte_writeByte, if_pos rfl]
        -- no later byte falls on the first one: their offsets in the page differ
        intro k hk heq
        rw [hwalk k hk] at heq
        obtain ⟨hvk, hmk, -⟩ := hin (k + 1) (Nat.succ_lt_succ hk)
        rw [translate_of_leaf hT hvk hmk, Option.some.injEq] at heq
        simp only [List.length_cons] at hlen
        simp only [hpa, pageAddr, PAGE_SIZE] at *
        omega
      | succ k =>
        have hk' : bs[k]? = some c := by simpa using hk
        have hlt : k < bs.length := (List.getElem?_eq_some_iff.1 hk').1
        obtain ⟨p, hp, hb⟩ := hreads k c hk'
        rw [hwalk k hlt] at hp
        exact ⟨p, hp, hb⟩
    · rw [hrest q fun k hk => ?_, readByte_writeByte, if_neg fun e => ?_]
      · exact hq 0 (Nat.succ_pos _) (by rw [Nat.add_zero, htr, e])
      · rw [hwalk k hk]
        exact hq (k + 1) (Nat.succ_lt_succ hk)

end Rustproof.Vspace
