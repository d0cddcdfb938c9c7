import Xv6.Kernel.Resources

namespace Xv6.Kernel

open Lib Vm Prog Transition

variable {sys : Sys} {strict : Prop} {c d : Machine} {p : Proc} {pt : PageTable} {i : Fin nProc}

def Pool.IsProcess (c : Machine) (p : Proc) : Prop :=
  (∃ i, c.running i = none ∧ (c.locals i).slot = some i ∧ (c.locals i).proc = p) ∨
    ∃ i, (c.shared.procs i).state ≠ .unused ∧ (c.shared.procs i).record = some p

structure MappingsOk (s : Shared) (p : Proc) : Prop where
  aligned : ∀ k v, p.vmas k = some v → v.addr % pgSize = 0 ∧ v.offset % pgSize = 0 ∧ v.length % pgSize = 0
  bounded : ∀ k v, p.vmas k = some v → 0 < v.length ∧ v.addr + v.length ≤ trapframe
  file : ∀ k v, p.vmas k = some v → 1 ≤ (s.ftable v.file).ref ∧ (s.ftable v.file).type = .inode
  disjoint : ∀ k k' v v', p.vmas k = some v → p.vmas k' = some v' → k ≠ k' →
    v.addr + v.length ≤ v'.addr ∨ v'.addr + v'.length ≤ v.addr
  resident : ∀ pt va, p.pagetable = some pt → va < 2 ^ 39 → pgRoundUp p.sz ≤ va → pt.leaf va ≠ none →
    va / pgSize = trapframe / pgSize ∨ va / pgSize = trampoline / pgSize ∨
      ∃ k v, p.vmas k = some v ∧ v.addr ≤ va ∧ va < v.addr + v.length

theorem Framed.page_above (h : Framed pt) {va : ℕ} (hva : va < 2 ^ 39) (hge : Vm.trapframe ≤ va)
    (hleaf : pt.leaf va ≠ none) : va / pgSize = Vm.trapframe / pgSize ∨ va / pgSize = Vm.trampoline / pgSize := by
  have hlt : va < maxVa := by
    by_contra hge
    exact hleaf (h.high va (not_lt.mp hge) hva)
  simp only [Vm.trapframe, Vm.trampoline, maxVa, pgSize] at *
  omega

theorem mem_refs_sum {ι : Type} [Fintype ι] {tok : ι → Tokens} {r : FileRef} {j : ι} (h : r ∈ (tok j).2.1) :
    r ∈ (∑ i, tok i).2.1 := by
  rw [Prod.snd_sum, Prod.fst_sum, Multiset.mem_sum]
  exact ⟨j, Finset.mem_univ j, h⟩

theorem refs_holding : (Local.holding i p).tokens.2.1 = p.tokens.2.1 := by
  have hsplit : (Local.holding i p).tokens = p.tokens + ofSlot i := by
    simp only [Local.tokens, Local.holding, Option.elim_some, Option.elim_none, tablePages]
    abel
  rw [hsplit]
  exact add_zero _

theorem refs_heldAt : (heldAt i (some p)).2.1 = p.tokens.2.1 := add_zero _

theorem Pool.IsProcess.live (hgood : Pool.Good (ledger sys strict) Tolerated (Rest strict) d)
    (hp : Pool.IsProcess d p) : (∃ pt, p.Live strict pt) ∧
      ∀ r ∈ p.tokens.2.1, r ∈ ((∑ i, (d.locals i).tokens) + d.shared.parked).2.1 := by
  rcases hp with ⟨i, hstop, hslot, rfl⟩ | ⟨i, hstate, hrec⟩
  · have hrest := hgood.threads i
    rw [hstop] at hrest
    rcases hrest with hidle | ⟨p, pt, hlive, hl⟩
    · rw [hidle] at hslot
      cases hslot
    · rw [hl]
      refine ⟨⟨pt, hlive⟩, fun r hr => Multiset.mem_add.mpr (Or.inl ?_)⟩
      apply mem_refs_sum (j := i)
      rw [hl, refs_holding]
      exact hr
  · have hok := hgood.ledger.records i
    refine ⟨?_, fun r hr => Multiset.mem_add.mpr (Or.inr ?_)⟩
    · rw [Slot.Ok, hrec] at hok
      cases hs : (d.shared.procs i).state with
      | unused => exact absurd hs hstate
      | zombie =>
        rw [hs] at hok
        exact hok.1
      | runnable =>
        rw [hs] at hok
        exact hok
      | used =>
        rw [hs] at hok
        exact hok.elim
      | sleeping =>
        rw [hs] at hok
        exact hok.elim
      | running =>
        rw [hs] at hok
        exact hok.elim
    · apply mem_refs_sum (j := i)
      rw [hrec, refs_heldAt]
      exact hr

/-- Along every run without `sbrk` the mappings of every process are in order, and no call of `walk` is
for an address outside the address space. -/
theorem mappings_in_order (h : Booted sys c) (hrun : Run (Pool.step (prog sys)) callsOtherThanSbrk c d) :
    (∀ p, Pool.IsProcess d p → MappingsOk d.shared p) ∧
      ∀ i op e, d.running i = some (op, .fail e) → e ≠ .kernel "walk" := by
  have hgood := good_without_sbrk h hrun
  constructor
  · intro p hp
    obtain ⟨⟨pt, hlive⟩, hrefs⟩ := hp.live hgood
    have hfiles := hgood.ledger.balanced.files
    constructor
    · intro k v hk
      have hv := hlive.vmas.each k v hk
      exact ⟨hv.addr, hv.offset, hv.length⟩
    · intro k v hk
      have hv := hlive.vmas.each k v hk
      exact ⟨hv.pos, hv.le⟩
    · intro k v hk
      have hin := hrefs _ (map_mem_proc hk)
      exact ⟨hfiles.ref_pos hin, hfiles.mapped _ hin⟩
    · exact hlive.vmas.disjoint
    · intro pt' va hpt hva hge hleaf
      rw [hlive.table] at hpt
      cases hpt
      by_cases hlt : va < trapframe
      · obtain ⟨k, v, hk, hc⟩ := (hlive.heap trivial).covered va hge hlt hleaf
        exact Or.inr (Or.inr ⟨k, v, hk, hc.1, hc.2⟩)
      · rcases hlive.framed.page_above hva (not_lt.mp hlt) hleaf with heq | heq
        · exact Or.inl heq
        · exact Or.inr (Or.inl heq)
  · intro i op e hfail
    rcases hgood.ok_of_fail hfail with ⟨msg, rfl⟩ | rfl | ⟨-, rfl | rfl⟩
    all_goals simp

theorem opened_mappings_in_order : MappingsOk opened.shared (opened.locals bootSys.initproc).proc :=
  (mappings_in_order (booted bootFs) opened_run).1 _ (Or.inl ⟨bootSys.initproc, rfl, by decide +kernel, rfl⟩)

/-- Along every run in which heaps grow below mappings only, they stay apart. -/
theorem heap_below_mappings (h : Booted sys c)
    (hrun : Run (Pool.step (prog sys)) (fun c m => Enabled c m ∧ GrowsBelowMappings c m) c d) :
    (∀ p, Pool.IsProcess d p → ∀ k v, p.vmas k = some v → pgRoundUp p.sz ≤ v.addr) ∧
      (∀ i op e, d.running i = some (op, .fail e) → e ≠ .kernel "uvmunmap: not mapped") ∧
      ∀ i n e, d.running i = some (.sbrk n, .fail e) → e ≠ .kernel "mappages: remap" := by
  have hgood : Pool.Good (ledger sys True) Tolerated (Rest True) d := by
    apply Good.of_kernel_run _ _ h.good _ hrun
    · intro hst
      exact absurd trivial hst
    · intro _ _ he
      exact he
    · intro c m hm
      exact ⟨hm.1, fun _ => hm.2⟩
  refine ⟨fun p hp k v hk => ?_, fun i op e hfail => ?_, fun i n e hfail => ?_⟩
  · obtain ⟨⟨pt, hlive⟩, -⟩ := hp.live hgood
    exact (hlive.heap trivial).above k v hk
  · rcases hgood.ok_of_fail hfail with ⟨msg, rfl⟩ | rfl | ⟨-, rfl | rfl⟩
    all_goals simp
  · rcases hgood.ok_of_fail hfail with ⟨msg, rfl⟩ | rfl | ⟨hexec, -⟩
    · simp
    · simp
    · cases hexec

def growsBelow (c : Machine) (i : Fin nProc) : Op → Bool
  | .sbrk n => (List.finRange nVma).all (fun k => ((c.locals i).proc.vmas k).all (fun v =>
      pgRoundUp (((c.locals i).proc.sz + n.toNat % 2 ^ 32) % 2 ^ 32) ≤ v.addr))
  | _ => true

theorem growsBelowMappings_of_growsBelow {op : Op} (h : growsBelow c i op = true) :
    GrowsBelowMappings c (.start i op) := by
  rintro j n heq
  cases heq
  intro _ _ k v hk
  have hall := List.all_eq_true.mp h k (List.mem_finRange k)
  rw [hk] at hall
  exact of_decide_eq_true hall

def mayGrow (c : Machine) (i : Fin nProc) (op : Op) : Bool := mayStart c i op && growsBelow c i op

def growing : List (Fin nProc × Op) :=
  [(bootSys.initproc, .run), (bootSys.initproc, .open theFile 2), (bootSys.initproc, .mmap 0 8192 3 1 0 0),
    (bootSys.initproc, .sbrk 4096)]

def grown : Machine := Pool.afterAll (prog bootSys) growing (bootMachine bootFs)

theorem grown_heap_below_mappings : ∃ k v, (grown.locals bootSys.initproc).proc.vmas k = some v ∧
    pgRoundUp (grown.locals bootSys.initproc).proc.sz ≤ v.addr := by
  have hrun : Run (Pool.step (prog bootSys)) (fun c m => Enabled c m ∧ GrowsBelowMappings c m)
      (bootMachine bootFs) grown := by
    have hdoable : Pool.doable (prog bootSys) mayGrow growing (bootMachine bootFs) = true := by decide +kernel
    apply Pool.run_afterAll _ _ _ hdoable
    · intro c m hm
      exact ⟨enabled_of_not_start c m hm, fun i n heq => absurd heq (hm i (.sbrk n))⟩
    · intro c i op hallowed
      obtain ⟨hmay, hgrows⟩ := Bool.and_eq_true_iff.mp hallowed
      exact ⟨enabled_of_mayStart hmay, growsBelowMappings_of_growsBelow hgrows⟩
    · intro _
      rfl
  have hproc : Pool.IsProcess grown (grown.locals bootSys.initproc).proc :=
    Or.inl ⟨bootSys.initproc, rfl, by decide +kernel, rfl⟩
  have hsome : ((grown.locals bootSys.initproc).proc.vmas ⟨0, by decide⟩).isSome = true := by decide +kernel
  obtain ⟨v, hv⟩ := Option.isSome_iff_exists.mp hsome
  exact ⟨⟨0, by decide⟩, v, hv, (heap_below_mappings (booted bootFs) hrun).1 _ hproc _ v hv⟩

def overlapping : Machine :=
  Pool.afterAll (prog bootSys) [(bootSys.initproc, .run), (bootSys.initproc, .open theFile 2),
    (bootSys.initproc, .mmap 0 (UInt64.ofNat (trapframe - pgSize)) 3 1 0 0), (bootSys.initproc, .sbrk 4096)]
    (bootMachine bootFs)

theorem sbrk_into_mapping : Run (Pool.step (prog bootSys)) Enabled (bootMachine bootFs) overlapping ∧
    Pool.IsProcess overlapping (overlapping.locals bootSys.initproc).proc ∧
    ∃ k v, (overlapping.locals bootSys.initproc).proc.vmas k = some v ∧
      v.addr < pgRoundUp (overlapping.locals bootSys.initproc).proc.sz := by
  refine ⟨?_, Or.inl ⟨bootSys.initproc, rfl, by decide +kernel, rfl⟩, ⟨0, by decide⟩, ?_⟩
  · exact Pool.run_afterAll enabled_of_not_start (fun _ _ _ => enabled_of_mayStart) (fun _ => rfl) (by decide +kernel)
  · have hany : ((overlapping.locals bootSys.initproc).proc.vmas ⟨0, by decide⟩).any
        (fun v => v.addr < pgRoundUp (overlapping.locals bootSys.initproc).proc.sz) = true := by decide +kernel
    cases hv : (overlapping.locals bootSys.initproc).proc.vmas ⟨0, by decide⟩ with
    | none =>
      rw [hv] at hany
      cases hany
    | some v =>
      rw [hv, Option.any_some, decide_eq_true_eq] at hany
      exact ⟨v, rfl, hany⟩

end Xv6.Kernel
