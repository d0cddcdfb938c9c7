import Xv6.Fs.Effects
import Xv6.Kernel.UvmSpec

namespace Xv6.Kernel

open Lib Vm Prog

variable {sys : Sys} {x y z : KState} {va : ℕ} {pt : PageTable} {α : Type} {E : Panic → Prop}

def leafOf (x : KState) (va : ℕ) : Option Pte := x.2.proc.pagetable.bind (·.leaf va)

structure Sound (sys : Sys) (x : KState) : Prop where
  table : ∃ pt, x.2.proc.pagetable = some pt
  nodup : x.1.freelist.Nodup
  pool : ∀ p ∈ x.1.freelist, sys.InPool p
  taken : ∀ va < Vm.trapframe, ∀ pte, leafOf x va = some pte → pte.pa ∉ x.1.freelist
  user : ∀ va < Vm.trapframe, ∀ pte, leafOf x va = some pte → sys.InPool pte.pa
  apart : ∀ va < Vm.trapframe, ∀ va' < Vm.trapframe, ∀ pte pte', leafOf x va = some pte →
    leafOf x va' = some pte' → pte.pa = pte'.pa → va / pgSize = va' / pgSize

theorem leafOf_eq (h : x.2.proc.pagetable = some pt) : leafOf x va = pt.leaf va := by
  rw [leafOf, h, Option.bind_some]

theorem leafOf_of_div (va : ℕ) {va' : ℕ} (h : va < 2 ^ 39) (h' : va' < 2 ^ 39) (heq : va' / pgSize = va / pgSize) :
    leafOf x va' = leafOf x va := by
  unfold leafOf
  cases x.2.proc.pagetable with
  | none => rfl
  | some pt => exact leaf_eq_of_div h h' heq

structure Takes (x y : KState) (used : List ℕ) : Prop where
  list : x.1.freelist = used ++ y.1.freelist
  mem : ∀ p ∉ used, y.1.mem p = x.1.mem p
  leaf : ∀ va, leafOf y va = leafOf x va
  table : y.2.proc.pagetable.isSome = x.2.proc.pagetable.isSome
  fs : y.1.fs = x.1.fs
  ftable : y.1.ftable = x.1.ftable
  vmas : y.2.proc.vmas = x.2.proc.vmas

namespace Takes

theorem refl (x : KState) : Takes x x [] := ⟨rfl, fun _ _ => rfl, fun _ => rfl, rfl, rfl, rfl, rfl⟩

theorem trans {used used' : List ℕ} (h : Takes x y used) (h' : Takes y z used') : Takes x z (used ++ used') where
  list := by rw [h.list, h'.list, List.append_assoc]
  mem p hp := by
    rw [List.mem_append, not_or] at hp
    rw [h'.mem p hp.2, h.mem p hp.1]
  leaf va := (h'.leaf va).trans (h.leaf va)
  table := h'.table.trans h.table
  fs := h'.fs.trans h.fs
  ftable := h'.ftable.trans h.ftable
  vmas := h'.vmas.trans h.vmas

end Takes

theorem post_kalloc {Q : Option ℕ → KState → Prop} (hnone : Q none x)
    (hsome : ∀ page rest, x.1.freelist = page :: rest → Q (some page)
      (Shared.fill { x.1 with freelist := rest } page (fun _ => 5), x.2.takePage page)) :
    kalloc.post x Q E := by
  refine ⟨hnone, ?_⟩
  show Q x.1.freelist.head? (popFree x)
  unfold popFree
  cases hl : x.1.freelist with
  | nil => exact hnone
  | cons page rest => exact hsome page rest hl

section Walk

theorem Takes.link {level page : ℕ} {rest : List ℕ} (h : x.2.proc.pagetable = some pt)
    (hlevel : level = 2 ∨ level = 1 ∧ (pt.node1 va).isSome) (hnode : ¬ pt.hasNode level va)
    (hl : x.1.freelist = page :: rest) :
    Takes x (Shared.fill { x.1 with freelist := rest } page (fun _ => 5),
      ((x.2.takePage page).mapTable .own (·.link level va page)).dropPage page) [page] where
  list := hl
  mem p hp := Function.update_of_ne (by simpa using hp) _ _
  leaf a := by
    simp only [leafOf, Local.dropPage, Local.mapTable, Local.setTable, Local.table, Local.takePage, h,
      Option.map_some, Option.bind_some]
    exact (grown_link hlevel hnode).leaf a
  table := by
    simp only [Local.dropPage, Local.mapTable, Local.setTable, Local.table, Local.takePage, h, Option.map_some,
      Option.isSome_some]
  fs := rfl
  ftable := rfl
  vmas := rfl

theorem post_descend {level : ℕ} (h : x.2.proc.pagetable = some pt)
    (hlevel : level = 2 ∨ level = 1 ∧ (pt.node1 va).isSome) :
    (descend .own level va true).post x (fun found y => ∃ used, Takes x y used ∧
      (found → ∃ pt', y.2.proc.pagetable = some pt' ∧ pt'.hasNode level va)) E := by
  have htable : (x.2.table .own).getD (.empty 0) = pt := by
    rw [show x.2.table .own = some pt from h, Option.getD_some]
  rw [descend, post_bind, table, post_read, htable, post_ite]
  by_cases hnode : pt.hasNode level va
  · rw [if_pos hnode]
    exact ⟨[], Takes.refl x, fun _ => ⟨pt, h, hnode⟩⟩
  · rw [if_neg hnode, if_pos rfl, post_bind]
    apply post_kalloc
    · exact ⟨[], Takes.refl x, fun hf => by cases hf⟩
    · intro page rest hl
      refine ⟨[page], Takes.link h hlevel hnode hl, fun _ => ⟨pt.link level va page, ?_, ?_⟩⟩
      · simp only [Local.dropPage, Local.mapTable, Local.setTable, Local.table, Local.takePage, h,
          Option.map_some]
      · rcases hlevel with rfl | ⟨rfl, hn⟩
        · simp only [PageTable.hasNode, ↓reduceIte, PageTable.node1, PageTable.link, Table.entry_set_self,
            Option.isSome_some]
        · obtain ⟨n, hn⟩ := Option.isSome_iff_exists.mp hn
          simp only [PageTable.hasNode, Nat.reduceEqDiff, ↓reduceIte, PageTable.link,
            PageTable.node0_setNode0 hn, and_self, Option.isSome_some]

theorem post_walk_alloc (h : x.2.proc.pagetable = some pt) (hva : va < maxVa) :
    (walk .own va true).post x (fun found y => ∃ used, Takes x y used ∧
      (found → ∃ pt', y.2.proc.pagetable = some pt' ∧ (pt'.node0 va).isSome)) E := by
  rw [walk, if_neg (by omega), post_bind]
  apply post_mono (post_descend h (Or.inl rfl)) _ (fun _ he => he)
  rintro found y ⟨used, hy, hfound⟩
  cases found with
  | false => exact ⟨used, hy, fun hf => by cases hf⟩
  | true =>
    obtain ⟨pt', hpt', hnode⟩ := hfound rfl
    apply post_mono (post_descend hpt' (Or.inr ⟨rfl, hnode⟩)) _ (fun _ he => he)
    rintro found z ⟨used', hz, hfound'⟩
    exact ⟨used ++ used', hy.trans hz, hfound'⟩

theorem post_walkAt {t : TableRef} {Q : Bool → KState → Prop} (h : x.2.table t = some pt) (hva : va < maxVa)
    (hQ : Q (pt.node0 va).isSome x) : (walk t va false).post x Q E := by
  have htable : (x.2.table t).getD (.empty 0) = pt := by
    rw [h, Option.getD_some]
  rw [walk, if_neg (by omega)]
  simp only [descend, table, post_bind, post_read, htable, post_ite, post_pure, Bool.false_eq_true, ↓reduceIte]
  cases hn : pt.node1 va with
  | none =>
    have h0 : pt.node0 va = none := by rw [PageTable.node0, hn, Option.bind_none]
    rw [h0] at hQ
    simpa [PageTable.hasNode, hn] using hQ
  | some n =>
    cases h0 : pt.node0 va with
    | none =>
      rw [h0] at hQ
      simpa [PageTable.hasNode, hn, h0] using hQ
    | some m =>
      rw [h0] at hQ
      simpa [PageTable.hasNode, hn, h0] using hQ

theorem post_walk {Q : Bool → KState → Prop} (h : x.2.proc.pagetable = some pt) (hva : va < maxVa)
    (hQ : Q (pt.node0 va).isSome x) : (walk .own va false).post x Q E :=
  post_walkAt (t := .own) h hva hQ

theorem post_pteAt {Q : Option Pte → KState → Prop} (h : x.2.proc.pagetable = some pt)
    (hQ : Q (pt.leaf va) x) : (pteAt .own va).post x Q E := by
  have htable : (x.2.table .own).getD (.empty 0) = pt := by
    rw [show x.2.table .own = some pt from h, Option.getD_some]
  rw [pteAt, post_bind, table, post_read, htable]
  exact hQ

end Walk

structure Maps (x y : KState) (va : ℕ) (pte : Pte) (used : List ℕ) : Prop where
  list : x.1.freelist = used ++ y.1.freelist
  mem : ∀ p ∉ used, y.1.mem p = x.1.mem p
  leaf : ∀ a < 2 ^ 39, leafOf y a = if a / pgSize = va / pgSize then some pte else leafOf x a
  table : ∃ pt, y.2.proc.pagetable = some pt
  fs : y.1.fs = x.1.fs
  ftable : y.1.ftable = x.1.ftable
  vmas : y.2.proc.vmas = x.2.proc.vmas

theorem Takes.install {used : List ℕ} {pte : Pte} (h : Takes x y used) (hy : y.2.proc.pagetable = some pt)
    (hn : (pt.node0 va).isSome) (hva : va < maxVa) : Maps x (y.1, y.2.install .own va pte) va pte used := by
  have htable : (y.2.install .own va pte).proc.pagetable = some (pt.setLeaf va (some pte)) := by
    unfold Local.install
    split_ifs <;> simp [Local.mapTable, Local.setTable, Local.table, hy, Local.dropPage]
  have hvmas : (y.2.install .own va pte).proc.vmas = y.2.proc.vmas := by
    unfold Local.install
    split_ifs <;> rfl
  obtain ⟨n, hn⟩ := Option.isSome_iff_exists.mp hn
  refine ⟨h.list, h.mem, fun a ha => ?_, ⟨_, htable⟩, h.fs, h.ftable, hvmas.trans h.vmas⟩
  rw [leafOf_eq htable, PageTable.leaf_setLeaf hn (hva.trans (by decide)) ha, ← h.leaf, leafOf_eq hy]

theorem post_mappages {pa : ℕ} {perm : ℕ → Pte} (h : x.2.proc.pagetable = some pt) (ha : va % pgSize = 0)
    (hva : va < maxVa) (hnone : pt.leaf va = none) :
    (mappages .own va pgSize pa perm).post x (fun mapped y => ∃ used,
      if mapped then Maps x y va (perm pa) used else Takes x y used) E := by
  have hone : (pgRoundDown (va + pgSize - 1) - pgRoundDown va) / pgSize + 1 = 1 := by
    simp only [pgRoundDown, pgSize] at *
    omega
  have hround : pgRoundDown va = va := by
    simp only [pgRoundDown, pgSize] at *
    omega
  rw [mappages, if_neg (by decide), hone, hround, mapLoop, post_bind]
  apply post_mono (post_walk_alloc h hva) _ (fun _ he => he)
  rintro found y ⟨used, hy, hfound⟩
  cases found with
  | false =>
    rw [if_neg Bool.false_ne_true, post_pure]
    exact ⟨used, hy⟩
  | true =>
    obtain ⟨pt', hpt', hnode⟩ := hfound rfl
    have hleaf : pt'.leaf va = none := by
      rw [← leafOf_eq hpt', hy.leaf, leafOf_eq h, hnone]
    rw [if_pos rfl, post_bind]
    apply post_pteAt hpt'
    rw [hleaf]
    exact ⟨used, hy.install hpt' hnode hva⟩

end Xv6.Kernel
