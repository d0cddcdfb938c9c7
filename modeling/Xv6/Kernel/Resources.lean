import Xv6.Kernel.Boot

namespace Xv6.Kernel

open Lib Vm Prog Transition

variable {sys : Sys} {c d : Machine}

def forked : Machine :=
  Pool.afterAll (prog bootSys) [(bootSys.initproc, .run), (bootSys.initproc, .fork)] (bootMachine bootFs)

section Files

def Proc.refsTo (p : Proc) (f : Fin nFile) : ℕ :=
  (Finset.univ.filter (fun fd => p.ofile fd = some f)).card +
    (Finset.univ.filter (fun k => (p.vmas k).map (·.file) = some f)).card

def Pool.refsTo (c : Machine) (f : Fin nFile) : ℕ :=
  ∑ i, (c.locals i).proc.refsTo f + ∑ i, (c.shared.procs i).record.elim 0 (·.refsTo f)

def Pool.inFlight (c : Machine) (f : Fin nFile) : ℕ :=
  ∑ i, ((c.locals i).child.elim 0 (·.2.refsTo f) + ((c.locals i).fresh + (c.locals i).refs).count f)

def refCount (F : Multiset FileRef) (f : Fin nFile) : ℕ := F.count (.fresh f) + F.count (.ref f) + F.count (.map f)

variable {f : Fin nFile} {F F' : Multiset FileRef} {p : Proc} {l : Local}

theorem refCount_add : refCount (F + F') f = refCount F f + refCount F' f := by
  simp only [refCount, Multiset.count_add]
  omega

theorem refCount_sum {ι : Type} (s : Finset ι) (g : ι → Multiset FileRef) :
    refCount (∑ i ∈ s, g i) f = ∑ i ∈ s, refCount (g i) f := by
  simp only [refCount, Multiset.count_sum', Finset.sum_add_distrib]

theorem Proc.refCount_tokens : refCount p.tokens.2.1 f = p.refsTo f := by
  have hpages : refCount (ofPages (tablePages p.pagetable)).2.1 f = 0 := rfl
  have htf : refCount (p.trapframe.elim (0 : Tokens) (fun tf => ofPages {tf})).2.1 f = 0 := by
    cases p.trapframe <;> rfl
  have hfd (fd : Fin nOfile) : refCount ((p.ofile fd).elim (0 : Tokens) (fun g => ofFiles {.ref g})).2.1 f =
      if p.ofile fd = some f then 1 else 0 := by
    cases p.ofile fd with
    | none => rfl
    | some g =>
      simp only [Option.elim_some, refCount, ofFiles, Multiset.count_singleton, FileRef.ref.injEq, reduceCtorEq,
        if_false, zero_add, add_zero, Option.some.injEq]
      simp only [eq_comm]
  have hvma (k : Fin nVma) : refCount ((p.vmas k).elim (0 : Tokens) (fun v => ofFiles {.map v.file})).2.1 f =
      if (p.vmas k).map (·.file) = some f then 1 else 0 := by
    cases p.vmas k with
    | none => rfl
    | some v =>
      simp only [Option.elim_some, refCount, ofFiles, Multiset.count_singleton, FileRef.map.injEq, reduceCtorEq,
        if_false, zero_add, Option.map_some, Option.some.injEq]
      simp only [eq_comm]
  simp only [Proc.tokens, Prod.snd_add, Prod.fst_add, refCount_add, hpages, htf, zero_add, Prod.snd_sum,
    Prod.fst_sum, refCount_sum, hfd, hvma, Proc.refsTo, Finset.card_filter]

theorem refCount_heldAt (i : Fin nProc) (o : Option Proc) :
    refCount (heldAt i o).2.1 f = o.elim 0 (·.refsTo f) := by
  cases o with
  | none => rfl
  | some p =>
    rw [heldAt, Option.elim_some, Prod.snd_add, Prod.fst_add, refCount_add, Proc.refCount_tokens]
    rfl

theorem Local.refCount_tokens : refCount l.tokens.2.1 f =
    l.proc.refsTo f + (l.child.elim 0 (·.2.refsTo f) + (l.fresh + l.refs).count f) := by
  have hslot : refCount (l.slot.elim (0 : Tokens) ofSlot).2.1 f = 0 := by
    cases l.slot <;> rfl
  have hchild : refCount (l.child.elim (0 : Tokens) (fun q => heldAt q.1 (some q.2))).2.1 f =
      l.child.elim 0 (·.2.refsTo f) := by
    cases l.child with
    | none => rfl
    | some q => exact refCount_heldAt q.1 (some q.2)
  have hhand : refCount (ofFiles (l.fresh.map .fresh + l.refs.map .ref)).2.1 f = (l.fresh + l.refs).count f := by
    have hfresh : (l.fresh.map FileRef.fresh).count (.fresh f) = l.fresh.count f :=
      Multiset.count_map_eq_count' _ _ (fun a b h => FileRef.fresh.inj h) _
    have hrefs : (l.refs.map FileRef.ref).count (.ref f) = l.refs.count f :=
      Multiset.count_map_eq_count' _ _ (fun a b h => FileRef.ref.inj h) _
    simp only [refCount, ofFiles, Multiset.count_add, hfresh, hrefs]
    simp
  have hpages (P : Multiset ℕ) : refCount (ofPages P).2.1 f = 0 := rfl
  have hends : refCount (ofEnds l.ends).2.1 f = 0 := rfl
  simp only [Local.tokens, Prod.snd_add, Prod.fst_add, refCount_add, Proc.refCount_tokens, hslot, hchild, hhand,
    hpages, hends, add_zero, zero_add, add_assoc]

theorem ref_eq {strict : Prop} (h : KInv sys strict c.shared (∑ i, (c.locals i).tokens)) (f : Fin nFile) :
    (c.shared.ftable f).ref = Pool.refsTo c f + Pool.inFlight c f := by
  have hcount : (c.shared.ftable f).ref = refCount ((∑ i, (c.locals i).tokens) + c.shared.parked).2.1 f :=
    h.balanced.files.count f
  rw [hcount, Prod.snd_add, Prod.fst_add, refCount_add, Shared.parked]
  simp only [Prod.snd_sum, Prod.fst_sum, refCount_sum, refCount_heldAt, Local.refCount_tokens,
    Finset.sum_add_distrib, Pool.refsTo, Pool.inFlight]
  omega

theorem Rest.inFlight {strict : Prop} {i : Fin nProc} (h : Rest strict i l) :
    l.child.elim 0 (·.2.refsTo f) + (l.fresh + l.refs).count f = 0 := by
  rcases h with rfl | ⟨p, pt, -, rfl⟩
  · rfl
  · rfl

theorem releaseFile_some {s : Shared} {drop : Local → Local} :
    (∃ ff x, (releaseFile f drop).eval (s, l) = .ok (some ff, x)) ↔ (s.ftable f).ref = 1 := by
  simp only [releaseFile, Prog.step, Prog.eval]
  by_cases hzero : (s.ftable f).ref < 1
  · simp only [if_pos hzero, Prog.eval, reduceCtorEq, exists_false, false_iff]
    omega
  · by_cases hmore : (s.ftable f).ref - 1 > 0
    · simp only [if_neg hzero, if_pos hmore, Prog.eval, Except.ok.injEq, Prod.mk.injEq, reduceCtorEq, false_and,
        exists_false, false_iff]
      omega
    · simp only [if_neg hzero, if_neg hmore, Prog.eval, Except.ok.injEq, Prod.mk.injEq, Option.some.injEq,
        exists_and_left, exists_eq', and_true, true_iff]
      omega

def callsOtherThanSbrk (c : Machine) (m : Move (Fin nProc) Op) : Prop :=
  Enabled c m ∧ ∀ i n, m ≠ .start i (.sbrk n)

theorem good_without_sbrk (h : Booted sys c) (hrun : Run (Pool.step (prog sys)) callsOtherThanSbrk c d) :
    Pool.Good (ledger sys True) Tolerated (Rest True) d := by
  apply Good.of_kernel_run _ _ h.good _ hrun
  · intro hst
    exact absurd trivial hst
  · intro _ _ he
    exact he
  · rintro c m ⟨hen, hno⟩
    refine ⟨hen, fun _ i n hm => ?_⟩
    exact absurd hm (hno i n)

/-- The reference count of every open file is the number of descriptors and mappings that refer to it,
and of references in the hands of an operation. -/
theorem file_refs_counted (h : Booted sys c) (hrun : Run (Pool.step (prog sys)) callsOtherThanSbrk c d) :
    (∀ f, (d.shared.ftable f).ref = Pool.refsTo d f + Pool.inFlight d f) ∧
      ((∀ i, d.running i = none) → ∀ f, (d.shared.ftable f).ref = Pool.refsTo d f) ∧
      (∀ i op e, d.running i = some (op, .fail e) → e ≠ .kernel "filedup" ∧ e ≠ .kernel "fileclose") ∧
      (∀ f drop l, (∃ ff x, (releaseFile f drop).eval (d.shared, l) = .ok (some ff, x)) ↔
        Pool.refsTo d f + Pool.inFlight d f = 1) ∧
      ∀ f l, allocFile (d.shared, l) = some f → Pool.refsTo d f = 0 ∧ Pool.inFlight d f = 0 := by
  have hgood := good_without_sbrk h hrun
  have href := ref_eq hgood.ledger
  refine ⟨href, fun hrest f => ?_, fun i op e hfail => ?_, fun f drop l => ?_, fun f l halloc => ?_⟩
  · have hnone : Pool.inFlight d f = 0 := by
      apply Finset.sum_eq_zero
      intro i _
      have hthread := hgood.threads i
      rw [hrest i] at hthread
      exact Rest.inFlight hthread
    rw [href f, hnone, add_zero]
  · rcases hgood.ok_of_fail hfail with ⟨msg, rfl⟩ | rfl | ⟨-, rfl | rfl⟩
    all_goals
      constructor <;> simp
  · rw [← href f, releaseFile_some]
  · have hzero : (d.shared.ftable f).ref = 0 := by simpa using List.find?_some halloc
    have := href f
    omega

def opened : Machine :=
  Pool.afterAll (prog bootSys) [(bootSys.initproc, .run), (bootSys.initproc, .open theFile 2),
    (bootSys.initproc, .mmap 0 8192 3 1 0 0), (bootSys.initproc, .dup 0), (bootSys.initproc, .fork)]
    (bootMachine bootFs)

theorem callsOtherThanSbrk_of_not_start (c : Machine) (m : Move (Fin nProc) Op) (h : ∀ j o, m ≠ .start j o) :
    callsOtherThanSbrk c m :=
  ⟨enabled_of_not_start c m h, fun i n => h i (.sbrk n)⟩

def mayStartOther (c : Machine) (i : Fin nProc) : Op → Bool
  | .sbrk _ => false
  | op => mayStart c i op

theorem callsOtherThanSbrk_of_mayStart (c : Machine) (i : Fin nProc) (op : Op) (h : mayStartOther c i op = true) :
    callsOtherThanSbrk c (.start i op) := by
  have hno : ∀ j n, Move.start i op ≠ .start j (.sbrk n) := by
    rintro j n heq
    cases heq
    cases h
  refine ⟨enabled_of_mayStart ?_, hno⟩
  cases op with
  | sbrk n => cases h
  | _ => exact h

theorem opened_run : Run (Pool.step (prog bootSys)) callsOtherThanSbrk (bootMachine bootFs) opened :=
  Pool.run_afterAll callsOtherThanSbrk_of_not_start callsOtherThanSbrk_of_mayStart (fun _ => rfl) (by decide +kernel)

theorem opened_file_refs_counted : Pool.refsTo opened ⟨0, by decide⟩ = 6 := by
  have hrest : ∀ i, opened.running i = none := fun _ => rfl
  rw [← (file_refs_counted (booted bootFs) opened_run).2.1 hrest ⟨0, by decide⟩]
  decide +kernel

end Files

end Xv6.Kernel
