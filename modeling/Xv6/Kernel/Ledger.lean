import Mathlib.Algebra.Group.Prod
import Mathlib.Order.Interval.Finset.Nat
import Xv6.Kernel.Exec

namespace Xv6.Kernel

open Lib Vm

inductive FileRef
  | fresh (f : Fin nFile)
  | ref (f : Fin nFile)
  | map (f : Fin nFile)
  deriving DecidableEq

abbrev Tokens := Multiset ℕ × Multiset FileRef × Multiset (ℕ × Bool) × Multiset (Fin nProc)

def ofPages (P : Multiset ℕ) : Tokens := (P, 0)
def ofFiles (F : Multiset FileRef) : Tokens := (0, F, 0)
def ofEnds (E : Multiset (ℕ × Bool)) : Tokens := (0, 0, E, 0)
def ofSlot (i : Fin nProc) : Tokens := (0, 0, 0, {i})

theorem ofPages_add (P P' : Multiset ℕ) : ofPages (P + P') = ofPages P + ofPages P' := rfl

def tablePages (o : Option PageTable) : Multiset ℕ := o.elim 0 PageTable.pages

def Proc.tokens (p : Proc) : Tokens :=
  ofPages (tablePages p.pagetable) + p.trapframe.elim 0 (fun tf => ofPages {tf}) +
    ∑ fd, (p.ofile fd).elim 0 (fun f => ofFiles {.ref f}) +
    ∑ k, (p.vmas k).elim 0 (fun v => ofFiles {.map v.file})

def heldAt (i : Fin nProc) (o : Option Proc) : Tokens := o.elim 0 (fun p => p.tokens + ofSlot i)

def Local.tokens (l : Local) : Tokens :=
  l.proc.tokens + l.slot.elim 0 ofSlot + ofPages (tablePages l.new) +
    l.child.elim 0 (fun c => heldAt c.1 (some c.2)) + ofPages l.pages +
    ofFiles (l.fresh.map .fresh + l.refs.map .ref) + ofEnds l.ends

def Shared.parked (s : Shared) : Tokens := ∑ i, heldAt i (s.procs i).record

def Sys.pool (sys : Sys) : Finset ℕ := Finset.Ico sys.endPage physTop

def Sys.kernelPages (sys : Sys) : Multiset ℕ := ↑sys.kernelTable + Finset.univ.val.map sys.kstack

def Sys.pipePages (sys : Sys) (s : Shared) : Multiset ℕ :=
  (sys.pool.filter (fun p => (s.pipes p).isSome)).val

structure Framed (pt : PageTable) : Prop where
  trapframe : pt.leaf Vm.trapframe ≠ none
  trampoline : pt.leaf Vm.trampoline ≠ none
  high : ∀ va, maxVa ≤ va → va < 2 ^ 39 → pt.leaf va = none

structure Vma.Ok (v : Vma) : Prop where
  addr : v.addr % pgSize = 0
  offset : v.offset % pgSize = 0
  length : v.length % pgSize = 0
  pos : 0 < v.length
  le : v.addr + v.length ≤ Vm.trapframe

def Vma.Covers (v : Vma) (va : ℕ) : Prop := v.addr ≤ va ∧ va < v.addr + v.length

structure VmasOk (vmas : Fin nVma → Option Vma) : Prop where
  each : ∀ k v, vmas k = some v → v.Ok
  disjoint : ∀ k k' v v', vmas k = some v → vmas k' = some v' → k ≠ k' →
    v.addr + v.length ≤ v'.addr ∨ v'.addr + v'.length ≤ v.addr

structure Heap (pt : PageTable) (sz : ℕ) (vmas : Fin nVma → Option Vma) : Prop where
  small : sz < 2 ^ 32
  mapped : ∀ va < pgRoundUp sz, pt.leaf va ≠ none
  covered : ∀ va, pgRoundUp sz ≤ va → va < Vm.trapframe → pt.leaf va ≠ none →
    ∃ k v, vmas k = some v ∧ v.Covers va
  above : ∀ k v, vmas k = some v → pgRoundUp sz ≤ v.addr

structure Proc.Live (strict : Prop) (p : Proc) (pt : PageTable) : Prop where
  table : p.pagetable = some pt
  trapframe : p.trapframe ≠ none
  framed : Framed pt
  vmas : VmasOk p.vmas
  heap : strict → Heap pt p.sz p.vmas

structure Proc.Bare (p : Proc) : Prop where
  sz : p.sz = 0
  table : p.pagetable = none
  trapframe : p.trapframe = none
  ofile : ∀ fd, p.ofile fd = none
  vmas : ∀ k, p.vmas k = none

def Slot.Ok (strict : Prop) (slot : Slot) : Prop :=
  match slot.state, slot.record with
  | .unused, some p => p.Bare
  | .unused, none => False
  | .zombie, some p => (∃ pt, p.Live strict pt) ∧ (∀ fd, p.ofile fd = none) ∧ ∀ k, p.vmas k = none
  | .runnable, some p => ∃ pt, p.Live strict pt
  | _, some _ => False
  | _, none => True

def holders (s : Shared) (page : ℕ) (writable : Bool) : Finset (Fin nFile) :=
  Finset.univ.filter (fun f => 0 < (s.ftable f).ref ∧ (s.ftable f).type = .pipe ∧
    (s.ftable f).pipe = page ∧ (s.ftable f).writable = writable)

structure FilesOk (s : Shared) (F : Multiset FileRef) : Prop where
  count : ∀ f, (s.ftable f).ref = F.count (.fresh f) + F.count (.ref f) + F.count (.map f)
  free : ∀ f, (s.ftable f).ref = 0 → (s.ftable f).type = .none
  fresh : ∀ f, .fresh f ∈ F → (s.ftable f).ref = 1 ∧ (s.ftable f).type = .none
  mapped : ∀ f, .map f ∈ F → (s.ftable f).type = .inode

structure PipesOk (sys : Sys) (s : Shared) (E : Multiset (ℕ × Bool)) : Prop where
  inPool : ∀ p, s.pipes p ≠ none → sys.InPool p
  isOpen : ∀ p pi, s.pipes p = some pi → pi.readopen = true ∨ pi.writeopen = true
  count : ∀ p w, E.count (p, w) + (holders s p w).card =
    if (s.pipes p).any (·.isOpen w) then 1 else 0

structure Balanced (sys : Sys) (s : Shared) (T : Tokens) : Prop where
  pages : T.1 + s.freelist + sys.pipePages s + sys.kernelPages = sys.pool.val
  files : FilesOk s T.2.1
  pipes : PipesOk sys s T.2.2.1
  slots : T.2.2.2 = Finset.univ.val

structure KInv (sys : Sys) (strict : Prop) (s : Shared) (m : Tokens) : Prop where
  balanced : Balanced sys s (m + s.parked)
  records : ∀ i, (s.procs i).Ok strict

def ledger (sys : Sys) (strict : Prop) : Ledger Shared Local Tokens := ⟨KInv sys strict, Local.tokens⟩

section Tokens

variable {l : Local} {t : TableRef} {pt : PageTable} {o o' : Option PageTable} {p : ℕ}

theorem table_setTable (h : l.table t = some pt) : (l.setTable t o).table t = o := by
  cases t with
  | own => rfl
  | new => rfl
  | child =>
    obtain ⟨c, hc, -⟩ := Option.bind_eq_some_iff.mp h
    simp only [Local.setTable, Local.table, hc, Option.map_some, Option.bind_some]

theorem setTable_setTable : (l.setTable t o).setTable t o' = l.setTable t o' := by
  cases t with
  | own => rfl
  | new => rfl
  | child => simp only [Local.setTable, Option.map_map, Function.comp_def]

theorem setTable_self (h : l.table t = some pt) : l.setTable t (some pt) = l := by
  cases t with
  | own =>
    rw [← h]
    rfl
  | new =>
    rw [← h]
    rfl
  | child =>
    obtain ⟨c, hc, hpt⟩ := Option.bind_eq_some_iff.mp h
    cases l
    cases hc
    simp only [Local.setTable, Option.map_some, ← hpt]

theorem mapTable_eq (h : l.table t = some pt) (f : PageTable → PageTable) :
    l.mapTable t f = l.setTable t (some (f pt)) := by
  rw [Local.mapTable, h, Option.map_some]

@[simp] theorem dropPage_takePage : (l.takePage p).dropPage p = l := by
  simp only [Local.takePage, Local.dropPage, Multiset.erase_cons_head]

@[simp] theorem table_takePage : (l.takePage p).table t = l.table t := by
  cases t <;> rfl

@[simp] theorem table_dropPage : (l.dropPage p).table t = l.table t := by
  cases t <;> rfl

@[simp] theorem setTable_takePage : (l.takePage p).setTable t o = (l.setTable t o).takePage p := by
  cases t <;> rfl

theorem tokens_takePage : (l.takePage p).tokens = l.tokens + ofPages {p} := by
  simp only [Local.tokens, Local.takePage, ← Multiset.singleton_add, ofPages_add]
  abel

theorem tokens_setTable (h : l.table t = some pt) :
    (l.setTable t o).tokens + ofPages pt.pages = l.tokens + ofPages (tablePages o) := by
  rw [show pt.pages = tablePages (some pt) from rfl, ← h]
  cases t with
  | own =>
    simp only [Local.tokens, Local.setTable, Local.table, Proc.tokens]
    abel
  | new =>
    simp only [Local.tokens, Local.setTable, Local.table]
    abel
  | child =>
    obtain ⟨c, hc, -⟩ := Option.bind_eq_some_iff.mp h
    simp only [Local.tokens, Local.setTable, Local.table, hc, Option.map_some, Option.elim_some, heldAt,
      Proc.tokens, Option.bind_some]
    abel

theorem tokens_setTable_add {P : Multiset ℕ} {pt' : PageTable} (h : l.table t = some pt)
    (hP : pt'.pages = pt.pages + P) : (l.setTable t (some pt')).tokens = l.tokens + ofPages P := by
  have hs := tokens_setTable (o := some pt') h
  rw [show tablePages (some pt') = pt.pages + P from hP, add_comm pt.pages, ofPages_add, ← add_assoc] at hs
  exact add_right_cancel hs

theorem tokens_setTable_sub {P : Multiset ℕ} {pt' : PageTable} (h : l.table t = some pt)
    (hP : pt'.pages + P = pt.pages) : (l.setTable t (some pt')).tokens + ofPages P = l.tokens := by
  have hs := tokens_setTable_add (P := P) (table_setTable h : (l.setTable t (some pt')).table t = some pt')
    hP.symm
  rwa [setTable_setTable, setTable_self h, eq_comm] at hs

theorem pages_le_tokens (h : l.table t = some pt) : pt.pages ≤ l.tokens.1 := by
  have hs := congrArg Prod.fst (tokens_setTable (o := none) h)
  simp only [tablePages, ofPages, Option.elim_none, Prod.fst_add, add_zero] at hs
  exact hs ▸ Multiset.le_add_left _ _

end Tokens

section Rules

variable {sys : Sys} {strict : Prop} {ok : Panic → Prop} {s : Shared} {m : Tokens} {l : Local}
variable {t : TableRef} {pt : PageTable} {p : ℕ}

theorem KInv.le_pool (h : KInv sys strict s m) : m.1 ≤ sys.pool.val := by
  rw [← h.balanced.pages, Prod.fst_add]
  simp only [add_assoc]
  exact Multiset.le_add_right _ _

theorem inPool_of_mem (h : p ∈ sys.pool) : sys.InPool p := Finset.mem_Ico.mp h

theorem KInv.withPages (h : KInv sys strict s m) {m' : Tokens} {freelist : List ℕ} (mem : ℕ → Page)
    (fs : Fs.FsState) (hm : m' + ofPages freelist = m + ofPages s.freelist) :
    KInv sys strict { s with freelist := freelist, mem := mem, fs := fs } m' := by
  have hpages : m'.1 + freelist = m.1 + s.freelist := congrArg Prod.fst hm
  have hrest : m'.2 = m.2 := (add_zero _).symm.trans ((congrArg Prod.snd hm).trans (add_zero _))
  obtain ⟨⟨hP, hF, hE, hS⟩, hR⟩ := h
  simp only [Prod.fst_add, Prod.snd_add] at hP hF hE hS
  refine ⟨⟨?_, ?_, ?_, ?_⟩, hR⟩
  · simp only [Prod.fst_add]
    rw [add_right_comm m'.1, hpages, add_right_comm m.1]
    exact hP
  · simp only [Prod.fst_add, Prod.snd_add, hrest]
    exact ⟨hF.count, hF.free, hF.fresh, hF.mapped⟩
  · simp only [Prod.fst_add, Prod.snd_add, hrest]
    exact ⟨hE.inPool, hE.isOpen, hE.count⟩
  · simp only [Prod.snd_add, hrest]
    exact hS

theorem ofPages_cons (ps : List ℕ) : ofPages ↑(p :: ps) = ofPages {p} + ofPages ps := rfl

open Prog

theorem wp_modifyLocal {f : Local → Local} {Q : Unit → Local → Prop} (h : (f l).tokens = l.tokens)
    (hQ : Q () (f l)) : wp (ledger sys strict) ok (modifyLocal f) l Q :=
  wp_modify (fun s rest hs => ⟨by rw [show (ledger sys strict).tok (f l) = _ from h]; exact hs, hQ⟩)

theorem wp_kalloc {Q : Option ℕ → Local → Prop} (hnone : Q none l)
    (hsome : ∀ p, sys.InPool p → Q (some p) (l.takePage p)) :
    wp (ledger sys strict) ok kalloc l Q := by
  refine ⟨hnone, fun s rest hs => ?_⟩
  simp only [popFree]
  cases hf : s.freelist with
  | nil => exact ⟨hs, hnone⟩
  | cons p ps =>
    have hmem : p ∈ sys.pool := by
      refine Multiset.mem_of_le hs.balanced.pages.le ?_
      simp only [hf, Multiset.mem_add, Multiset.mem_coe, List.mem_cons, true_or, or_true]
    refine ⟨hs.withPages _ s.fs ?_, hsome p (inPool_of_mem hmem)⟩
    simp only [ledger, tokens_takePage, hf, ofPages_cons]
    abel

theorem wp_kfree {drop : Local → Local} {Q : Unit → Local → Prop} (hp : sys.InPool p)
    (h : (drop l).tokens + ofPages {p} = l.tokens) (hQ : Q () (drop l)) :
    wp (ledger sys strict) ok (kfree sys p drop) l Q := by
  rw [kfree, if_pos hp]
  refine wp_modify (fun s rest hs => ⟨hs.withPages _ s.fs ?_, hQ⟩)
  simp only [ledger, ← h, ofPages_cons]
  abel

theorem wp_fill {p : KState → ℕ} {data : KState → Page} {Q : Unit → Local → Prop} (hQ : Q () l) :
    wp (ledger sys strict) ok (.modify (fun x => (x.1.fill (p x) (data x), x.2))) l Q :=
  wp_modify (fun s _ hs => ⟨hs.withPages _ s.fs rfl, hQ⟩)

theorem wp_fsStep {α : Type} {m : KState → Fs.FsM α} {Q : α → Local → Prop} (hfs : ∀ msg, ok (.fs msg))
    (hQ : ∀ a, Q a l) : wp (ledger sys strict) ok (fsStep m) l Q := by
  refine wp_step (fun s rest hs => ?_)
  cases hm : m (s, l) s.fs with
  | ok x => exact ⟨hs.withPages s.mem x.2 rfl, hQ x.1⟩
  | error e => exact hfs e

theorem wp_fsCall {α : Type} {m : Fs.FsM α} {Q : α → Local → Prop} (hfs : ∀ msg, ok (.fs msg))
    (hQ : ∀ a, Q a l) : wp (ledger sys strict) ok (fsCall m) l Q := wp_fsStep hfs hQ

theorem wp_table {Q : PageTable → Local → Prop} (h : l.table t = some pt)
    (hQ : pt.pages ≤ sys.pool.val → Q pt l) : wp (ledger sys strict) ok (table t) l Q := by
  refine wp_read (fun s rest hs => ?_)
  simp only [h, Option.getD_some]
  refine hQ ((pages_le_tokens h).trans (le_trans ?_ hs.le_pool))
  exact Multiset.le_add_right _ _

theorem wp_pteAt {va : ℕ} {Q : Option Pte → Local → Prop} (h : l.table t = some pt)
    (hQ : pt.pages ≤ sys.pool.val → Q (pt.leaf va) l) : wp (ledger sys strict) ok (pteAt t va) l Q := by
  rw [pteAt, wp_bind]
  exact wp_table h hQ

theorem wp_myproc {Q : Proc → Local → Prop} (hQ : Q l.proc l) : wp (ledger sys strict) ok myproc l Q :=
  wp_read (fun _ _ _ => hQ)

end Rules

end Xv6.Kernel
