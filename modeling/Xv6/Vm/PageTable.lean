import Mathlib.Algebra.Order.BigOperators.Group.Multiset
import Xv6.Lib.Radix

namespace Xv6.Vm

open Lib

def pgSize : ℕ := 4096
def maxVa : ℕ := 2 ^ 38
def trampoline : ℕ := maxVa - pgSize
def trapframe : ℕ := trampoline - pgSize

def pgRoundUp (n : ℕ) : ℕ := (n + (pgSize - 1)) % 2 ^ 64 / pgSize * pgSize

def pgRoundDown (a : ℕ) : ℕ := a / pgSize * pgSize

def px (level va : ℕ) : Fin 512 := ⟨va / 2 ^ (12 + 9 * level) % 512, Nat.mod_lt _ (by decide)⟩

structure Pte where
  pa : ℕ
  r : Bool
  w : Bool
  x : Bool
  u : Bool
  leaf : (r || w || x) = true
  deriving DecidableEq

abbrev Node (α : Type) := Table 512 ℕ α

abbrev PageTable := Node (Node (Node Pte))

namespace PageTable

def node1 (pt : PageTable) (va : ℕ) : Option (Node (Node Pte)) := pt.entry (px 2 va)

def node0 (pt : PageTable) (va : ℕ) : Option (Node Pte) := (pt.node1 va).bind (·.entry (px 1 va))

def leaf (pt : PageTable) (va : ℕ) : Option Pte := (pt.node0 va).bind (·.entry (px 0 va))

def hasNode (pt : PageTable) (level va : ℕ) : Bool :=
  if level = 2 then (pt.node1 va).isSome else (pt.node0 va).isSome

def setNode0 (pt : PageTable) (va : ℕ) (o : Option (Node Pte)) : PageTable :=
  match pt.node1 va with
  | some n => pt.set (px 2 va) (some (n.set (px 1 va) o))
  | none => pt

def link (pt : PageTable) (level va page : ℕ) : PageTable :=
  if level = 2 then pt.set (px 2 va) (some (.empty page)) else pt.setNode0 va (some (.empty page))

def setLeaf (pt : PageTable) (va : ℕ) (o : Option Pte) : PageTable :=
  match pt.node0 va with
  | some n => pt.setNode0 va (some (n.set (px 0 va) o))
  | none => pt

def vaOf (i j k : Fin 512) : ℕ := ((i * 512 + j) * 512 + k) * pgSize

def pages0 (i j : Fin 512) (n : Node Pte) : Multiset ℕ :=
  n.tag ::ₘ n.total (fun k pte => if vaOf i j k < trapframe then {pte.pa} else 0)

def pages1 (i : Fin 512) (n : Node (Node Pte)) : Multiset ℕ := n.tag ::ₘ n.total (pages0 i)

def pages (pt : PageTable) : Multiset ℕ := pt.tag ::ₘ pt.total pages1

variable {pt : PageTable} {va va' : ℕ}

theorem px_eq_iff (h : va < 2 ^ 39) (h' : va' < 2 ^ 39) :
    (px 2 va' = px 2 va ∧ px 1 va' = px 1 va ∧ px 0 va' = px 0 va) ↔ va' / pgSize = va / pgSize := by
  simp only [px, Fin.mk.injEq, pgSize]
  omega

theorem vaOf_px (h : va < 2 ^ 39) : vaOf (px 2 va) (px 1 va) (px 0 va) = pgRoundDown va := by
  simp only [px, vaOf, pgRoundDown, pgSize]
  omega

theorem px_vaOf (i j k : Fin 512) :
    px 2 (vaOf i j k) = i ∧ px 1 (vaOf i j k) = j ∧ px 0 (vaOf i j k) = k := by
  simp only [px, vaOf, pgSize, Fin.ext_iff]
  omega

theorem vaOf_lt (i j k : Fin 512) : vaOf i j k < 2 ^ 39 := by
  simp only [vaOf, pgSize]
  omega

theorem vaOf_lt_iff (h : va < maxVa) : vaOf (px 2 va) (px 1 va) (px 0 va) < trapframe ↔ va < trapframe := by
  have hlt : va < 2 ^ 39 := h.trans (by decide)
  rw [vaOf_px hlt]
  simp only [pgRoundDown, trapframe, trampoline, maxVa, pgSize] at *
  omega

theorem node0_of_leaf {pte : Pte} (h : pt.leaf va = some pte) : ∃ n, pt.node0 va = some n :=
  (Option.bind_eq_some_iff.mp h).imp (fun _ hn => hn.1)

theorem node1_of_node0 {n : Node Pte} (h : pt.node0 va = some n) :
    ∃ m, pt.node1 va = some m ∧ m.entry (px 1 va) = some n := Option.bind_eq_some_iff.mp h

theorem node1_setNode0 {o : Option (Node Pte)} : (pt.setNode0 va o).node1 va' =
    if px 2 va' = px 2 va then (pt.node1 va).map (·.set (px 1 va) o) else pt.node1 va' := by
  unfold setNode0
  cases hn : pt.node1 va with
  | none =>
    split_ifs with h
    · unfold node1 at hn ⊢
      rw [h, hn]
      rfl
    · rfl
  | some n =>
    simp only [node1, Table.entry_set, Option.map_some]

theorem node0_setNode0 {o : Option (Node Pte)} {n : Node (Node Pte)} (hn : pt.node1 va = some n) :
    (pt.setNode0 va o).node0 va' =
      if px 2 va' = px 2 va ∧ px 1 va' = px 1 va then o else pt.node0 va' := by
  unfold node0
  rw [node1_setNode0, hn]
  by_cases h2 : px 2 va' = px 2 va
  · have hva' : pt.node1 va' = some n := by
      unfold node1 at hn ⊢
      rw [h2, hn]
    simp only [h2, ↓reduceIte, Option.map_some, Option.bind_some, Table.entry_set, true_and, hva']
  · simp only [h2, ↓reduceIte, false_and]

theorem leaf_setLeaf {o : Option Pte} {n : Node Pte} (hn : pt.node0 va = some n) (h : va < 2 ^ 39)
    (h' : va' < 2 ^ 39) :
    (pt.setLeaf va o).leaf va' = if va' / pgSize = va / pgSize then o else pt.leaf va' := by
  obtain ⟨m, hm, hmn⟩ := node1_of_node0 hn
  unfold setLeaf
  rw [hn]
  simp only [leaf]
  rw [node0_setNode0 hm]
  by_cases h21 : px 2 va' = px 2 va ∧ px 1 va' = px 1 va
  · have hva' : pt.node0 va' = some n := by
      unfold node0 node1 at hn ⊢
      rw [h21.1, h21.2, hn]
    rw [if_pos h21, hva']
    simp only [Option.bind_some, Table.entry_set]
    have hiff := px_eq_iff h h'
    simp only [h21, true_and] at hiff
    simp only [hiff]
  · rw [if_neg h21, if_neg]
    rw [← px_eq_iff h h']
    exact fun hx => h21 ⟨hx.1, hx.2.1⟩

theorem node0_setLeaf_isSome {o : Option Pte} :
    ((pt.setLeaf va o).node0 va').isSome = (pt.node0 va').isSome := by
  unfold setLeaf
  cases hn : pt.node0 va with
  | none => rfl
  | some n =>
    obtain ⟨m, hm, hmn⟩ := node1_of_node0 hn
    simp only
    rw [node0_setNode0 hm]
    split_ifs with h
    · unfold node0 node1 at hn ⊢
      rw [h.1, h.2, hn]
      rfl
    · rfl

theorem node1_link2 {page : ℕ} : (pt.link 2 va page).node1 va = some (.empty page) := by
  simp only [link, ↓reduceIte, node1, Table.entry_set_self]

theorem leaf_link2 {page : ℕ} (h : pt.node1 va = none) : (pt.link 2 va page).leaf va' = pt.leaf va' := by
  simp only [link, ↓reduceIte, leaf, node0, node1, Table.entry_set]
  split_ifs with hva
  · unfold node1 at h
    rw [hva, h]
    rfl
  · rfl

theorem node0_link1 {page : ℕ} {n : Node (Node Pte)} (hn : pt.node1 va = some n) :
    (pt.link 1 va page).node0 va = some (.empty page) := by
  simp only [link, Nat.reduceEqDiff, ↓reduceIte, node0_setNode0 hn, and_self]

theorem leaf_link1 {page : ℕ} {n : Node (Node Pte)} (hn : pt.node1 va = some n) (h : pt.node0 va = none) :
    (pt.link 1 va page).leaf va' = pt.leaf va' := by
  simp only [link, Nat.reduceEqDiff, ↓reduceIte, leaf, node0_setNode0 hn]
  split_ifs with hva
  · unfold node0 node1 at h ⊢
    rw [hva.1, hva.2, h]
    rfl
  · rfl

theorem pages_setNode0 {o : Option (Node Pte)} {n : Node (Node Pte)} (hn : pt.node1 va = some n) :
    (pt.setNode0 va o).pages + (n.entry (px 1 va)).elim 0 (pages0 (px 2 va) (px 1 va)) =
      pt.pages + o.elim 0 (pages0 (px 2 va) (px 1 va)) := by
  have h2 := pt.total_set (i := px 2 va) (o := some (n.set (px 1 va) o)) pages1
  have h1 := n.total_set (i := px 1 va) (o := o) (pages0 (px 2 va))
  rw [show pt.entry (px 2 va) = some n from hn] at h2
  simp only [Option.elim_some, pages1, Table.tag_set, Multiset.add_cons, Multiset.cons_inj_right] at h2
  unfold setNode0
  rw [hn]
  simp only [pages, Table.tag_set, Multiset.cons_add, Multiset.cons_inj_right]
  have key : Table.total pages1 (pt.set (px 2 va) (some (n.set (px 1 va) o))) +
      (n.entry (px 1 va)).elim 0 (pages0 (px 2 va) (px 1 va)) + Table.total (pages0 (px 2 va)) n =
      Table.total pages1 pt + o.elim 0 (pages0 (px 2 va) (px 1 va)) + Table.total (pages0 (px 2 va)) n := by
    rw [add_right_comm, h2, add_assoc, h1]
    abel
  exact add_right_cancel key

theorem pages_link2 {page : ℕ} (h : pt.node1 va = none) : (pt.link 2 va page).pages = page ::ₘ pt.pages := by
  have h2 := pt.total_set (i := px 2 va) (o := some (.empty page)) pages1
  rw [show pt.entry (px 2 va) = none from h] at h2
  simp only [Option.elim_none, Option.elim_some, add_zero, pages1, Table.total_empty] at h2
  simp only [link, ↓reduceIte, pages, Table.tag_set, h2, Multiset.add_cons, add_zero]
  exact Multiset.cons_swap _ _ _

theorem pages_link1 {page : ℕ} {n : Node (Node Pte)} (hn : pt.node1 va = some n) (h : pt.node0 va = none) :
    (pt.link 1 va page).pages = page ::ₘ pt.pages := by
  have hs := pages_setNode0 (o := some (.empty page)) hn
  have hnone : n.entry (px 1 va) = none := by
    unfold node0 at h
    rwa [hn, Option.bind_some] at h
  simp only [hnone, Option.elim_none, add_zero, Option.elim_some, pages0, Table.total_empty] at hs
  simp only [link, Nat.reduceEqDiff, ↓reduceIte, hs, Multiset.add_cons, add_zero]
  rfl

def leafPage (va : ℕ) (o : Option Pte) : Multiset ℕ := o.elim 0 (fun pte => if va < trapframe then {pte.pa} else 0)

theorem pages_setLeaf {o : Option Pte} {n : Node Pte} (hn : pt.node0 va = some n) (h : va < maxVa) :
    (pt.setLeaf va o).pages + leafPage va (pt.leaf va) = pt.pages + leafPage va o := by
  obtain ⟨m, hm, hmn⟩ := node1_of_node0 hn
  have h1 := pages_setNode0 (o := some (n.set (px 0 va) o)) hm
  have h0 := n.total_set (i := px 0 va) (o := o)
    (fun k pte => if vaOf (px 2 va) (px 1 va) k < trapframe then ({pte.pa} : Multiset ℕ) else 0)
  simp only [vaOf_lt_iff h] at h0
  rw [hmn] at h1
  simp only [Option.elim_some, pages0, Table.tag_set, Multiset.add_cons, Multiset.cons_inj_right] at h1
  have hleaf : pt.leaf va = n.entry (px 0 va) := by rw [leaf, hn, Option.bind_some]
  unfold setLeaf
  rw [hn, hleaf]
  simp only [leafPage]
  have key := congrArg (· + (n.entry (px 0 va)).elim 0
    (fun pte => if va < trapframe then ({pte.pa} : Multiset ℕ) else 0)) h1
  simp only [add_assoc, h0] at key
  have key' : (pt.setNode0 va (some (n.set (px 0 va) o))).pages + (n.entry (px 0 va)).elim 0
      (fun pte => if va < trapframe then ({pte.pa} : Multiset ℕ) else 0) +
      n.total (fun k pte => if vaOf (px 2 va) (px 1 va) k < trapframe then ({pte.pa} : Multiset ℕ) else 0) =
      pt.pages + o.elim 0 (fun pte => if va < trapframe then ({pte.pa} : Multiset ℕ) else 0) +
      n.total (fun k pte => if vaOf (px 2 va) (px 1 va) k < trapframe then ({pte.pa} : Multiset ℕ) else 0) := by
    rw [add_right_comm, add_assoc, key]
    abel
  exact add_right_cancel key'

theorem pages_clearLeaf {pte : Pte} (h : pt.leaf va = some pte) (hva : va < maxVa) :
    (pt.setLeaf va none).pages + leafPage va (some pte) = pt.pages := by
  obtain ⟨n, hn⟩ := node0_of_leaf h
  have hs := pages_setLeaf (o := none) hn hva
  rw [h] at hs
  exact hs.trans (add_zero _)

theorem pa_mem_pages {pte : Pte} (h : pt.leaf va = some pte) (hva : va < trapframe) : pte.pa ∈ pt.pages := by
  rw [← pages_clearLeaf h (hva.trans (by decide))]
  simp [leafPage, hva]

section Clear

variable {S T : ℕ → Bool}

def tag1 (pt : PageTable) (i : Fin 512) : Option ℕ := (pt.entry i).map (·.tag)

def tag0 (pt : PageTable) (i j : Fin 512) : Option ℕ := ((pt.entry i).bind (·.entry j)).map (·.tag)

def pteOf (pt : PageTable) (i j k : Fin 512) : Option Pte := ((pt.entry i).bind (·.entry j)).bind (·.entry k)

theorem leaf_eq_pteOf : pt.leaf va = pt.pteOf (px 2 va) (px 1 va) (px 0 va) := rfl

theorem node_ext {m m' : Node Pte} (htag : m.tag = m'.tag) (h : ∀ k, m.entry k = m'.entry k) : m = m' := by
  cases m
  cases m'
  cases htag
  cases funext h
  rfl

theorem ext_levels {pt' : PageTable} (htag : pt.tag = pt'.tag) (h1 : ∀ i, pt.tag1 i = pt'.tag1 i)
    (h0 : ∀ i j, pt.tag0 i j = pt'.tag0 i j) (h : ∀ i j k, pt.pteOf i j k = pt'.pteOf i j k) : pt = pt' := by
  have hentry : pt.entry = pt'.entry := by
    funext i
    have h1 := h1 i
    have h0 := h0 i
    have h := h i
    unfold tag1 at h1
    unfold tag0 at h0
    unfold pteOf at h
    cases hn : pt.entry i with
    | none =>
      rw [hn] at h1
      exact (Option.map_eq_none_iff.mp h1.symm).symm
    | some n =>
      rw [hn, Option.map_some] at h1
      obtain ⟨n', hn', htn⟩ := Option.map_eq_some_iff.mp h1.symm
      simp only [hn, hn', Option.bind_some] at h0 h
      rw [hn']
      have hnn : n.entry = n'.entry := by
        funext j
        have h0 := h0 j
        have h := h j
        cases hm : n.entry j with
        | none =>
          rw [hm] at h0
          exact (Option.map_eq_none_iff.mp h0.symm).symm
        | some m =>
          rw [hm, Option.map_some] at h0
          obtain ⟨m', hm', htm⟩ := Option.map_eq_some_iff.mp h0.symm
          simp only [hm, hm', Option.bind_some] at h
          rw [hm', node_ext htm.symm h]
      cases n
      cases n'
      cases htn
      cases hnn
      rfl
  cases pt
  cases pt'
  cases htag
  cases hentry
  rfl

def clear (pt : PageTable) (S : ℕ → Bool) : PageTable where
  tag := pt.tag
  entry i := (pt.entry i).map (fun n => ⟨n.tag, fun j => (n.entry j).map (fun m =>
    ⟨m.tag, fun k => if S (vaOf i j k) then none else m.entry k⟩)⟩)

@[simp] theorem tag1_clear {i : Fin 512} : (pt.clear S).tag1 i = pt.tag1 i := by
  simp only [tag1, clear]
  cases pt.entry i <;> rfl

@[simp] theorem tag0_clear {i j : Fin 512} : (pt.clear S).tag0 i j = pt.tag0 i j := by
  simp only [tag0, clear]
  cases pt.entry i with
  | none => rfl
  | some n =>
    simp only [Option.map_some, Option.bind_some]
    cases n.entry j <;> rfl

@[simp] theorem pteOf_clear {i j k : Fin 512} :
    (pt.clear S).pteOf i j k = if S (vaOf i j k) then none else pt.pteOf i j k := by
  simp only [pteOf, clear]
  cases pt.entry i with
  | none => simp
  | some n =>
    simp only [Option.map_some, Option.bind_some]
    cases n.entry j <;> simp

theorem clear_eq_clear (h : ∀ a, a % pgSize = 0 → S a = T a) : pt.clear S = pt.clear T := by
  have hva : ∀ i j k, S (vaOf i j k) = T (vaOf i j k) := fun i j k => h _ (Nat.mul_mod_left _ _)
  apply ext_levels <;> simp [clear, hva]

theorem clear_clear : (pt.clear S).clear T = pt.clear (fun a => S a || T a) := by
  apply ext_levels
  · rfl
  · simp
  · simp
  · intro i j k
    cases hS : S (vaOf i j k) <;> simp [hS]

theorem leaf_clear (h : va < 2 ^ 39) :
    (pt.clear S).leaf va = if S (pgRoundDown va) then none else pt.leaf va := by
  rw [← vaOf_px h, leaf_eq_pteOf, pteOf_clear, leaf_eq_pteOf]

theorem clear_of_none (h : ∀ a < 2 ^ 39, a % pgSize = 0 → S a → pt.leaf a = none) : pt.clear S = pt := by
  apply ext_levels
  · rfl
  · simp
  · simp
  · intro i j k
    rw [pteOf_clear]
    split_ifs with hS
    · obtain ⟨hi, hj, hk⟩ := px_vaOf i j k
      have hnone := h _ (vaOf_lt i j k) (Nat.mul_mod_left _ _) hS
      rw [leaf_eq_pteOf, hi, hj, hk] at hnone
      exact hnone.symm
    · rfl

theorem setLeaf_none {pte : Pte} (h : va < 2 ^ 39) (ha : va % pgSize = 0) (hl : pt.leaf va = some pte) :
    pt.setLeaf va none = pt.clear (fun a => a == va) := by
  obtain ⟨m, hm⟩ := node0_of_leaf hl
  obtain ⟨n, hn, hnm⟩ := node1_of_node0 hm
  have hentry : pt.entry (px 2 va) = some n := hn
  have hset : pt.setLeaf va none =
      pt.set (px 2 va) (some (n.set (px 1 va) (some (m.set (px 0 va) none)))) := by
    rw [setLeaf, hm]
    dsimp only
    rw [setNode0, hn]
  have hva : pgRoundDown va = va := by
    simp only [pgRoundDown, pgSize] at *
    omega
  have hiff : ∀ i j k, vaOf i j k = va ↔ i = px 2 va ∧ j = px 1 va ∧ k = px 0 va := by
    intro i j k
    constructor
    · rintro rfl
      obtain ⟨hi, hj, hk⟩ := px_vaOf i j k
      exact ⟨hi.symm, hj.symm, hk.symm⟩
    · rintro ⟨rfl, rfl, rfl⟩
      rw [vaOf_px h, hva]
  rw [hset]
  apply ext_levels
  · rfl
  · intro i
    rw [tag1_clear, tag1, tag1, Table.entry_set]
    split_ifs with hi
    · rw [hi, hentry]
      rfl
    · rfl
  · intro i j
    rw [tag0_clear, tag0, tag0, Table.entry_set]
    split_ifs with hi
    · rw [hi, hentry, Option.bind_some, Option.bind_some, Table.entry_set]
      split_ifs with hj
      · rw [hj, hnm]
        rfl
      · rfl
    · rfl
  · intro i j k
    rw [pteOf_clear, pteOf, pteOf, Table.entry_set]
    simp only [beq_iff_eq, hiff]
    by_cases hi : i = px 2 va
    · rw [if_pos hi, hi, hentry, Option.bind_some, Option.bind_some, Table.entry_set]
      by_cases hj : j = px 1 va
      · rw [if_pos hj, hj, hnm, Option.bind_some, Option.bind_some, Table.entry_set]
        simp
      · simp [hj]
    · simp [hi]

end Clear

end PageTable

end Xv6.Vm
