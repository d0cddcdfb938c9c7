import Mathlib.Algebra.BigOperators.Pi
import Mathlib.Algebra.Order.BigOperators.Group.Multiset
import Xv6.Kernel.Machine

namespace Xv6.Kernel

open Lib Vm Prog Transition

variable {sys : Sys} {strict : Prop} {ok : Op → Panic → Prop} {p : Proc} {l : Local} {c d : Machine}

section Tokens

theorem Proc.tokens_pages : p.tokens.1 = tablePages p.pagetable + p.trapframe.elim 0 ({·}) := by
  have hfds : (∑ fd, (p.ofile fd).elim (0 : Tokens) (fun f => ofFiles {.ref f})).1 = 0 := by
    rw [Prod.fst_sum]
    apply Finset.sum_eq_zero
    intro fd _
    cases p.ofile fd <;> rfl
  have hvmas : (∑ k, (p.vmas k).elim (0 : Tokens) (fun v => ofFiles {.map v.file})).1 = 0 := by
    rw [Prod.fst_sum]
    apply Finset.sum_eq_zero
    intro k _
    cases p.vmas k <;> rfl
  have htf : (p.trapframe.elim (0 : Tokens) (fun tf => ofPages {tf})).1 = p.trapframe.elim 0 ({·}) := by
    cases p.trapframe <;> rfl
  simp only [Proc.tokens, Prod.fst_add, hfds, hvmas, htf, add_zero]
  rfl

end Tokens

abbrev Place := Fin nProc × Option TableRef

instance : Fintype TableRef := ⟨{.own, .new, .child}, fun t => by cases t <;> decide⟩

theorem sum_tableRef {M : Type} [AddCommMonoid M] (f : TableRef → M) :
    ∑ t, f t = f .own + f .new + f .child := by
  change ∑ t ∈ {TableRef.own, TableRef.new, TableRef.child}, f t = _
  rw [Finset.sum_insert (by decide), Finset.sum_insert (by decide), Finset.sum_singleton, add_assoc]

def Pool.table (c : Machine) : Place → Option PageTable
  | (i, some t) => (c.locals i).table t
  | (i, none) => (c.shared.procs i).record.bind (·.pagetable)

def Pool.trapframe (c : Machine) : Place → Option ℕ
  | (i, some .own) => (c.locals i).proc.trapframe
  | (_, some .new) => none
  | (i, some .child) => (c.locals i).child.bind (·.2.trapframe)
  | (i, none) => (c.shared.procs i).record.bind (·.trapframe)

def Pool.pagesAt (c : Machine) (x : Place) : Multiset ℕ :=
  tablePages (Pool.table c x) + (Pool.trapframe c x).elim 0 ({·})

def Pool.allPages (sys : Sys) (c : Machine) : Multiset ℕ :=
  ↑c.shared.freelist + sys.pipePages c.shared + sys.kernelPages + ∑ x, Pool.pagesAt c x + ∑ i, (c.locals i).pages

theorem allPages_def (sys : Sys) (c : Machine) : Pool.allPages sys c =
    ↑c.shared.freelist + sys.pipePages c.shared + sys.kernelPages + ∑ x, Pool.pagesAt c x +
      ∑ i, (c.locals i).pages := rfl

attribute [irreducible] Pool.allPages

theorem heldAt_pages (i : Fin nProc) (o : Option Proc) : (heldAt i o).1 =
    tablePages (o.bind (·.pagetable)) + (o.bind (·.trapframe)).elim 0 ({·}) := by
  cases o with
  | none => rfl
  | some p =>
    rw [heldAt, Option.elim_some, Prod.fst_add, Proc.tokens_pages]
    exact add_zero _

theorem Local.tokens_pages (c : Machine) (i : Fin nProc) : (c.locals i).tokens.1 =
    ∑ t, Pool.pagesAt c (i, some t) + (c.locals i).pages := by
  have hslot : ((c.locals i).slot.elim (0 : Tokens) ofSlot).1 = 0 := by
    cases (c.locals i).slot <;> rfl
  have hchild : ((c.locals i).child.elim (0 : Tokens) (fun q => heldAt q.1 (some q.2))).1 =
      Pool.pagesAt c (i, some .child) := by
    simp only [Pool.pagesAt, Pool.table, Pool.trapframe, Local.table]
    cases (c.locals i).child with
    | none => rfl
    | some q => exact heldAt_pages q.1 (some q.2)
  have hfiles : (ofFiles ((c.locals i).fresh.map .fresh + (c.locals i).refs.map .ref)).1 = 0 := rfl
  have hends : (ofEnds (c.locals i).ends).1 = 0 := rfl
  rw [sum_tableRef, Local.tokens]
  simp only [Prod.fst_add, hslot, hchild, hfiles, hends, Proc.tokens_pages, add_zero]
  simp only [Pool.pagesAt, Pool.table, Pool.trapframe, Local.table, ofPages, Option.elim_none, add_zero]

theorem allPages_eq (h : KInv sys strict c.shared (∑ i, (c.locals i).tokens)) :
    Pool.allPages sys c = sys.pool.val := by
  have hpages := h.balanced.pages
  rw [Prod.fst_add, Prod.fst_sum, Shared.parked, Prod.fst_sum] at hpages
  simp only [heldAt_pages, Local.tokens_pages, Finset.sum_add_distrib] at hpages
  rw [← hpages, allPages_def, Fintype.sum_prod_type]
  simp only [Fintype.sum_option, Finset.sum_add_distrib]
  simp only [Pool.pagesAt, Pool.table, Pool.trapframe, Finset.sum_add_distrib]
  abel

section Unique

variable {x y : Place} {pt pt' : PageTable} {va va' : ℕ} {pte pte' : Pte}

theorem two_of_two_leaves (hleaf : pt.leaf va = some pte) (hleaf' : pt.leaf va' = some pte') (hva : va < trapframe)
    (hva' : va' < trapframe) (hne : va / pgSize ≠ va' / pgSize) (heq : pte.pa = pte'.pa) :
    2 ≤ pt.pages.count pte.pa := by
  obtain ⟨n, hn⟩ := PageTable.node0_of_leaf hleaf
  have hkeep : (pt.setLeaf va none).leaf va' = some pte' := by
    rw [PageTable.leaf_setLeaf hn (lt_of_lt_trapframe hva) (lt_of_lt_trapframe hva'), if_neg (Ne.symm hne)]
    exact hleaf'
  have hin := Multiset.count_pos.mpr (PageTable.pa_mem_pages hkeep hva')
  rw [← PageTable.pages_clearLeaf hleaf (hva.trans (by decide)), Multiset.count_add, heq]
  simp only [PageTable.leafPage, Option.elim_some, if_pos hva, heq, Multiset.count_singleton_self]
  omega

theorem leaf_inj (hnodup : pt.pages.Nodup) (hleaf : pt.leaf va = some pte) (hleaf' : pt.leaf va' = some pte')
    (hva : va < trapframe) (hva' : va' < trapframe) (heq : pte.pa = pte'.pa) : va / pgSize = va' / pgSize := by
  by_contra hne
  have htwo := two_of_two_leaves hleaf hleaf' hva hva' hne heq
  have hone := Multiset.nodup_iff_count_le_one.mp hnodup pte.pa
  omega

theorem pages_le_pagesAt (hx : Pool.table c x = some pt) : pt.pages ≤ Pool.pagesAt c x := by
  rw [Pool.pagesAt, hx]
  exact Multiset.le_add_right _ _

theorem pagesAt_le_allPages (x : Place) : Pool.pagesAt c x ≤ Pool.allPages sys c := by
  have hsplit (A B C D E : Multiset ℕ) : A + B + C + D + E = D + (A + B + C + E) := by abel
  rw [allPages_def, hsplit]
  have hsum := le_sum_of_term (Pool.pagesAt c) x
  generalize ∑ y, Pool.pagesAt c y = X at hsum ⊢
  exact hsum.trans (Multiset.le_add_right _ _)

theorem pagesAt_add_le_allPages (hne : x ≠ y) : Pool.pagesAt c x + Pool.pagesAt c y ≤ Pool.allPages sys c := by
  have hsplit (A B C D E : Multiset ℕ) : A + B + C + D + E = D + (A + B + C + E) := by abel
  rw [allPages_def, hsplit]
  have hsum := add_le_sum_of_ne (Pool.pagesAt c) hne
  generalize ∑ z, Pool.pagesAt c z = X at hsum ⊢
  exact hsum.trans (Multiset.le_add_right _ _)

theorem freelist_add_le_allPages (x : Place) : ↑c.shared.freelist + Pool.pagesAt c x ≤ Pool.allPages sys c := by
  have hsplit (A B C D E : Multiset ℕ) : A + B + C + D + E = A + D + (B + C + E) := by abel
  rw [allPages_def, hsplit]
  have hsum := le_sum_of_term (Pool.pagesAt c) x
  generalize ∑ y, Pool.pagesAt c y = X at hsum ⊢
  exact (Multiset.add_le_add_iff_left.mpr hsum).trans (Multiset.le_add_right _ _)

theorem leaf_unique (hnodup : (Pool.allPages sys c).Nodup) (hx : Pool.table c x = some pt)
    (hy : Pool.table c y = some pt') (hleaf : pt.leaf va = some pte) (hleaf' : pt'.leaf va' = some pte')
    (hva : va < trapframe) (hva' : va' < trapframe) (heq : pte.pa = pte'.pa) :
    x = y ∧ va / pgSize = va' / pgSize := by
  by_cases hxy : x = y
  · subst hxy
    rw [hx] at hy
    cases hy
    have hle : pt.pages ≤ Pool.allPages sys c := (pages_le_pagesAt hx).trans (pagesAt_le_allPages x)
    exact ⟨rfl, leaf_inj (Multiset.nodup_of_le hle hnodup) hleaf hleaf' hva hva' heq⟩
  · exfalso
    have hone := Multiset.nodup_iff_count_le_one.mp hnodup pte.pa
    have h1 := Multiset.count_pos.mpr (PageTable.pa_mem_pages hleaf hva)
    have h2 := Multiset.count_pos.mpr (PageTable.pa_mem_pages hleaf' hva')
    have hle : pt.pages + pt'.pages ≤ Pool.allPages sys c :=
      le_trans (add_le_add (pages_le_pagesAt hx) (pages_le_pagesAt hy)) (pagesAt_add_le_allPages hxy)
    have hcount := Multiset.count_le_of_le pte.pa hle
    rw [Multiset.count_add] at hcount
    rw [← heq] at h2
    omega

end Unique

section Boot

theorem Local.tokens_idle : Local.idle.tokens = 0 := by
  have hempty : Proc.empty.tokens = 0 := Proc.Bare.tokens ⟨rfl, rfl, rfl, fun _ => rfl, fun _ => rfl⟩
  simp only [Local.tokens, Local.idle, hempty]
  rfl

theorem Booted.parked (h : Booted sys c) (strict : Prop) : ∃ p pt tf, c.shared.procs sys.initproc = ⟨.runnable, 1, none, 0, false, some p⟩ ∧
    Proc.Live strict p pt ∧ c.shared.parked = ofPages (pt.pages + {tf}) + ∑ i, ofSlot i ∧
    pt.pages + {tf} + c.shared.freelist + sys.kernelPages = sys.pool.val := by
  obtain ⟨p, pt, tf, hinit, hsz, htable, htf, hofile, hvmas, him, hpages⟩ := h.init
  have htokens : p.tokens = ofPages (pt.pages + {tf}) := by
    simp only [Proc.tokens, htable, htf, hofile, hvmas, tablePages, Option.elim_some, Option.elim_none,
      Finset.sum_const_zero, add_zero]
    rfl
  have hheld (i : Fin nProc) : heldAt i (c.shared.procs i).record =
      (if i = sys.initproc then ofPages (pt.pages + {tf}) else 0) + ofSlot i := by
    by_cases hi : i = sys.initproc
    · rw [if_pos hi, hi, hinit, heldAt, Option.elim_some, htokens]
    · obtain ⟨-, q, hq, hbare⟩ := h.free i hi
      rw [if_neg hi, hq, heldAt, Option.elim_some, hbare.tokens]
  have hlive : p.Live strict pt := by
    apply him.live _ htable hsz _ hvmas
    · decide
    · rw [htf]
      exact Option.some_ne_none tf
  refine ⟨p, pt, tf, hinit, hlive, ?_, hpages⟩
  simp only [Shared.parked, hheld, Finset.sum_add_distrib]
  rw [Finset.sum_ite_eq' Finset.univ sys.initproc, if_pos (Finset.mem_univ _)]

theorem Booted.good (h : Booted sys c) : Pool.Good (ledger sys strict) ok (Rest strict) c := by
  obtain ⟨p, pt, tf, hinit, hlive, hparked, hpages⟩ := h.parked strict
  have hzero : ∑ i, (ledger sys strict).tok (c.locals i) = 0 := by
    apply Finset.sum_eq_zero
    intro i _
    rw [h.idle i]
    exact Local.tokens_idle
  constructor
  · rw [hzero]
    constructor
    · rw [zero_add, hparked]
      constructor
      · have hpipes : sys.pipePages c.shared = 0 := by
          simp only [Sys.pipePages, h.pipes]
          simp
        have hslots : (∑ i : Fin nProc, ofSlot i).1 = 0 := by
          rw [Prod.fst_sum]
          exact Finset.sum_const_zero
        rw [Prod.fst_add, hslots, hpipes, add_zero, add_zero]
        exact hpages
      · have hfiles : (ofPages (pt.pages + {tf}) + ∑ i : Fin nProc, ofSlot i).2.1 = 0 := by
          rw [Prod.snd_add, Prod.fst_add, Prod.snd_sum, Prod.fst_sum]
          exact (zero_add _).trans Finset.sum_const_zero
        rw [hfiles]
        refine ⟨fun f => ?_, fun f _ => (h.files f).2, fun f hf => absurd hf (Multiset.notMem_zero _),
          fun f hf => absurd hf (Multiset.notMem_zero _)⟩
        simp [(h.files f).1]
      · have hends : (ofPages (pt.pages + {tf}) + ∑ i : Fin nProc, ofSlot i).2.2.1 = 0 := by
          rw [Prod.snd_add, Prod.snd_add, Prod.fst_add, Prod.snd_sum, Prod.snd_sum, Prod.fst_sum]
          exact (zero_add _).trans Finset.sum_const_zero
        rw [hends]
        refine ⟨fun page hpage => absurd (h.pipes page) hpage, fun page pi hpi => ?_, fun page w => ?_⟩
        · rw [h.pipes page] at hpi
          cases hpi
        · rw [h.pipes page]
          simp [holders, (h.files _).1]
      · rw [Prod.snd_add, Prod.snd_add, Prod.snd_add, Prod.snd_sum, Prod.snd_sum, Prod.snd_sum]
        exact (zero_add _).trans (Finset.sum_multiset_singleton _)
    · intro i
      by_cases hi : i = sys.initproc
      · rw [hi, hinit]
        exact ⟨pt, hlive⟩
      · obtain ⟨hstate, q, hq, hbare⟩ := h.free i hi
        rw [Slot.Ok, hstate, hq]
        exact hbare
  · intro i
    rw [h.stopped i, h.idle i]
    exact Or.inl rfl

end Boot

end Xv6.Kernel
