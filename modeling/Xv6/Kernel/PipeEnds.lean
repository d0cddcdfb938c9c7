import Xv6.Kernel.Resources

namespace Xv6.Kernel

open Lib Vm Prog Transition

variable {sys : Sys} {c d : Machine} {p : Proc} {l : Local}

theorem sum_ends {ι : Type} [Fintype ι] {f : ι → Tokens} (h : ∀ i, (f i).2.2.1 = 0) : (∑ i, f i).2.2.1 = 0 := by
  rw [Prod.snd_sum, Prod.snd_sum, Prod.fst_sum]
  exact Finset.sum_eq_zero (fun i _ => h i)

theorem Proc.tokens_ends : p.tokens.2.2.1 = 0 := by
  have htf : (p.trapframe.elim (0 : Tokens) (fun tf => ofPages {tf})).2.2.1 = 0 := by
    cases p.trapframe <;> rfl
  have hfds : (∑ fd, (p.ofile fd).elim (0 : Tokens) (fun f => ofFiles {.ref f})).2.2.1 = 0 := by
    apply sum_ends
    intro fd
    cases p.ofile fd <;> rfl
  have hvmas : (∑ k, (p.vmas k).elim (0 : Tokens) (fun v => ofFiles {.map v.file})).2.2.1 = 0 := by
    apply sum_ends
    intro k
    cases p.vmas k <;> rfl
  simp only [Proc.tokens, Prod.snd_add, Prod.fst_add, htf, hfds, hvmas, add_zero]
  rfl

theorem heldAt_ends (i : Fin nProc) (o : Option Proc) : (heldAt i o).2.2.1 = 0 := by
  cases o with
  | none => rfl
  | some p =>
    rw [heldAt, Option.elim_some, Prod.snd_add, Prod.snd_add, Prod.fst_add, Proc.tokens_ends]
    rfl

theorem Rest.tokens_ends {strict : Prop} {i : Fin nProc} (h : Rest strict i l) : l.tokens.2.2.1 = 0 := by
  rcases h with rfl | ⟨p, pt, -, rfl⟩
  · rw [Local.tokens_idle]
    rfl
  · simp only [Local.tokens, Local.holding, Prod.snd_add, Prod.fst_add, Proc.tokens_ends, zero_add]
    rfl

theorem good_of_run (h : Booted sys c) (hrun : Run (Pool.step (prog sys)) Enabled c d) :
    Pool.Good (ledger sys False) (fun _ _ => True) (Rest False) d := by
  apply Good.of_kernel_run _ _ h.good _ hrun
  · intro _ _ _
    trivial
  · intro _ _ _
    trivial
  · intro c m hm
    exact ⟨hm, False.elim⟩

/-- In every interleaving of the system calls, an open file for an end of a pipe finds that end open and is the only one for it;
and when no call is in progress, an open end is that of a file some process refers to. -/
theorem pipe_ends_in_use (h : Booted sys c) (hrun : Run (Pool.step (prog sys)) Enabled c d) :
    (∀ f page w, (d.shared.ftable f).Holds page w → ∃ pi, d.shared.pipes page = some pi ∧ pi.isOpen w = true) ∧
    (∀ f g page w, (d.shared.ftable f).Holds page w → (d.shared.ftable g).Holds page w → f = g) ∧
    (∀ page pi, d.shared.pipes page = some pi → pi.readopen = true ∨ pi.writeopen = true) ∧
    ((∀ i, d.running i = none) → ∀ page pi w, d.shared.pipes page = some pi → pi.isOpen w = true →
      ∃ f, (d.shared.ftable f).Holds page w ∧ 0 < Pool.refsTo d f) := by
  have hgood := good_of_run h hrun
  have hpipes := hgood.ledger.balanced.pipes
  refine ⟨?_, ?_, hpipes.isOpen, ?_⟩
  · intro f page w hf
    have hpos := Finset.card_pos.mpr ⟨f, mem_holders.mpr hf⟩
    have hcount := hpipes.count page w
    cases hpi : d.shared.pipes page with
    | none =>
      rw [hpi, Option.any_none, if_neg Bool.false_ne_true] at hcount
      omega
    | some pi =>
      rw [hpi, Option.any_some] at hcount
      split_ifs at hcount with hopen
      · exact ⟨pi, rfl, hopen⟩
      · omega
  · intro f g page w hf hg
    have hle : (holders d.shared page w).card ≤ 1 := by
      have hcount := hpipes.count page w
      split_ifs at hcount <;> omega
    exact Finset.card_le_one.mp hle f (mem_holders.mpr hf) g (mem_holders.mpr hg)
  · intro hidle page pi w hpi hopen
    have hrest (i : Fin nProc) : Rest False i (d.locals i) := by
      have hthread := hgood.threads i
      rw [hidle i] at hthread
      exact hthread
    have hends : ((∑ i, (d.locals i).tokens) + d.shared.parked).2.2.1 = 0 := by
      simp only [Shared.parked, Prod.snd_add, Prod.fst_add, Prod.snd_sum, Prod.fst_sum, heldAt_ends, (hrest _).tokens_ends,
        Finset.sum_const_zero, add_zero]
    have hcount := hpipes.count page w
    rw [show (∑ i, (ledger sys False).tok (d.locals i)) = ∑ i, (d.locals i).tokens from rfl, hends, hpi,
      Multiset.count_zero, Option.any_some, if_pos hopen] at hcount
    obtain ⟨f, hf⟩ := Finset.card_pos.mp (by omega : 0 < (holders d.shared page w).card)
    have hholds := mem_holders.mp hf
    refine ⟨f, hholds, ?_⟩
    have href : 0 < (d.shared.ftable f).ref := hholds.1
    have hnone : Pool.inFlight d f = 0 := Finset.sum_eq_zero (fun i _ => (hrest i).inFlight)
    have hsum := ref_eq hgood.ledger f
    omega

def exited : Machine :=
  Pool.afterAll (prog bootSys) [(bootSys.initproc, .run), (bootSys.initproc, .pipe 0), (bootSys.initproc, .fork),
    (⟨1, by decide⟩, .run), (⟨1, by decide⟩, .exit 0)] (bootMachine bootFs)

theorem exited_run : Run (Pool.step (prog bootSys)) Enabled (bootMachine bootFs) exited :=
  Pool.run_afterAll enabled_of_not_start (fun _ _ _ => enabled_of_mayStart) (fun _ => rfl) (by decide +kernel)

theorem pipe_ends_in_use_exited : ∃ page, ∃ f, (exited.shared.ftable f).Holds page true ∧ 0 < Pool.refsTo exited f := by
  obtain ⟨pi, hpi, hopen⟩ : ∃ pi, exited.shared.pipes (exited.shared.ftable ⟨1, by decide⟩).pipe = some pi ∧
      pi.isOpen true = true := ⟨_, rfl, rfl⟩
  exact ⟨_, (pipe_ends_in_use (booted bootFs) exited_run).2.2.2 (fun _ => rfl) _ pi true hpi hopen⟩

/-- In every interleaving of the system calls, a free entry of the process table has no memory, open file or mapping left, and a
zombie only its page table and trapframe. -/
theorem exited_processes_hold_nothing (h : Booted sys c) (hrun : Run (Pool.step (prog sys)) Enabled c d) {i : Fin nProc} {p : Proc}
    (hp : (d.shared.procs i).record = some p) :
    ((d.shared.procs i).state = .unused → p.sz = 0 ∧ p.pagetable = none ∧ p.trapframe = none ∧ (∀ fd, p.ofile fd = none) ∧
      ∀ k, p.vmas k = none) ∧
    ((d.shared.procs i).state = .zombie → p.pagetable ≠ none ∧ p.trapframe ≠ none ∧ (∀ fd, p.ofile fd = none) ∧
      ∀ k, p.vmas k = none) := by
  have hok := (good_of_run h hrun).ledger.records i
  rw [Slot.Ok, hp] at hok
  constructor
  · intro hstate
    rw [hstate] at hok
    exact ⟨hok.sz, hok.table, hok.trapframe, hok.ofile, hok.vmas⟩
  · intro hstate
    rw [hstate] at hok
    obtain ⟨⟨pt, hlive⟩, hfds, hvmas⟩ := hok
    exact ⟨hlive.table ▸ Option.some_ne_none pt, hlive.trapframe, hfds, hvmas⟩

theorem exited_processes_hold_nothing_child : ∃ p, (exited.shared.procs ⟨1, by decide⟩).record = some p ∧
    (exited.shared.procs ⟨1, by decide⟩).state = .zombie ∧ ∀ fd, p.ofile fd = none := by
  obtain ⟨p, hp⟩ : ∃ p, (exited.shared.procs ⟨1, by decide⟩).record = some p := ⟨_, rfl⟩
  have hstate : (exited.shared.procs ⟨1, by decide⟩).state = .zombie := by decide +kernel
  exact ⟨p, hp, hstate, ((exited_processes_hold_nothing (booted bootFs) exited_run hp).2 hstate).2.2.1⟩

end Xv6.Kernel
