import Xv6.Kernel.ExecSpec
import Xv6.Lib.Pool

namespace Xv6.Kernel

open Lib Vm Prog Transition

inductive Op
  | run
  | mmap (requested length prot flags fd offset : UInt64)
  | munmap (addr length : UInt64)
  | fault (va cause : UInt64)
  | sbrk (n : UInt64)
  | fork
  | exec (namei : Fs.FsM (Option (Fin nInode))) (uargv : UInt64)
  | exit (status : ℤ)
  | wait (addr : UInt64)
  | open (lookup : Fs.FsM (Option (Fin nInode))) (omode : UInt64)
  | pipe (fdarray : UInt64)
  | dup (fd : UInt64)
  | close (fd : UInt64)

def Op.isExec : Op → Bool
  | .exec _ _ => true
  | _ => false

variable (sys : Sys)

def prog (i : Fin nProc) : Op → KM Unit
  | .run => forkret i
  | .mmap requested length prot flags fd offset => do let _ ← sysMmap requested length prot flags fd offset
  | .munmap addr length => do let _ ← sysMunmap sys addr length
  | .fault va cause => do let _ ← vmaFault sys va.toNat cause.toNat
  | .sbrk n => do let _ ← sysSbrk sys n
  | .fork => do let _ ← fork sys i
  | .exec namei uargv => do let _ ← sysExec sys namei uargv
  | .exit status => exit sys i status
  | .wait addr => do let _ ← wait sys i addr.toNat
  | .open lookup omode => do let _ ← sysOpen sys lookup omode
  | .pipe fdarray => do let _ ← sysPipe sys fdarray.toNat
  | .dup fd => do let _ ← sysDup fd
  | .close fd => do let _ ← sysClose sys fd

abbrev Machine := Pool (Fin nProc) Shared Local Op Panic

def Enabled (c : Machine) : Move (Fin nProc) Op → Prop
  | .start i .run => (c.locals i).slot = none
  | .start i _ => (c.locals i).slot = some i
  | _ => True

structure Booted (c : Machine) : Prop where
  idle : ∀ i, c.locals i = .idle
  stopped : ∀ i, c.running i = none
  files : ∀ f, (c.shared.ftable f).ref = 0 ∧ (c.shared.ftable f).type = .none
  pipes : ∀ page, c.shared.pipes page = none
  free : ∀ i, i ≠ sys.initproc → (c.shared.procs i).state = .unused ∧
    ∃ p : Proc, (c.shared.procs i).record = some p ∧ p.Bare
  init : ∃ p pt tf, c.shared.procs sys.initproc = ⟨.runnable, 1, none, 0, false, some p⟩ ∧ p.sz = pgSize ∧
    p.pagetable = some pt ∧ p.trapframe = some tf ∧ (∀ fd, p.ofile fd = none) ∧ (∀ k, p.vmas k = none) ∧
    Image pt pgSize ∧ pt.pages + {tf} + c.shared.freelist + sys.kernelPages = sys.pool.val

/-- The panics that a run may end with when heaps and mappings stay apart: those of `fs.c`, the exit of
`initproc`, and those of `exec` for a program that does not fit or whose segments overlap. -/
def Tolerated (op : Op) (e : Panic) : Prop :=
  (∃ msg, e = .fs msg) ∨ e = .kernel "init exiting" ∨
    op.isExec ∧ (e = .kernel "mappages: remap" ∨ e = .kernel "loadseg: address should exist")

variable {sys} {strict : Prop} {ok : Op → Panic → Prop} {p : Proc} {pt : PageTable} {i : Fin nProc}

theorem wp_discard {α : Type} {e : Panic → Prop} {m : KM α} {l : Local} (h : wp (ledger sys strict) e m l (fun _ => Rest strict i)) :
    wp (ledger sys strict) e (do let _ ← m) l (fun _ => Rest strict i) := by
  rw [wp_bind]
  exact h

theorem prog_spec (lax : ¬ strict → ∀ op e, ok op e) (hok : ∀ op e, Tolerated op e → ok op e)
    (h : p.Live strict pt) {op : Op} (hrun : op ≠ .run)
    (hsbrk : strict → ∀ n, op = .sbrk n → SbrkFits p (n.toNat % 2 ^ 32)) :
    wp (ledger sys strict) (ok op) (prog sys i op) (.holding i p) (fun _ => Rest strict i) := by
  have hlax : ¬ strict → ∀ e, ok op e := fun hst => lax hst op
  have hfs : ∀ msg, ok op (.fs msg) := fun msg => hok op _ (Or.inl ⟨msg, rfl⟩)
  cases op with
  | run => exact absurd rfl hrun
  | mmap requested length prot flags fd offset => exact wp_discard (sysMmap_spec h)
  | munmap addr length => exact wp_discard (sysMunmap_spec hlax hfs h)
  | fault va cause => exact wp_discard (vmaFault_spec hfs h)
  | sbrk n => exact wp_discard (sysSbrk_spec hlax h (fun hst => hsbrk hst n rfl))
  | fork => exact wp_discard (fork_spec hlax hfs h)
  | exec namei uargv =>
    apply wp_discard
    apply sysExec_spec hlax hfs _ _ h
    · exact hok _ _ (Or.inr (Or.inr ⟨rfl, Or.inl rfl⟩))
    · exact hok _ _ (Or.inr (Or.inr ⟨rfl, Or.inr rfl⟩))
  | exit status => exact exit_spec hlax hfs (fun _ => hok _ _ (Or.inr (Or.inl rfl))) h
  | wait addr => exact wp_discard (waitScan_spec hlax h)
  | «open» lookup omode => exact wp_discard (sysOpen_spec hfs h)
  | pipe fdarray => exact wp_discard (sysPipe_spec hfs h)
  | dup fd => exact wp_discard (sysDup_spec h)
  | close fd => exact wp_discard (sysClose_spec hfs h)

theorem start_spec (lax : ¬ strict → ∀ op e, ok op e) (hok : ∀ op e, Tolerated op e → ok op e) {c : Machine}
    {op : Op} (hen : Enabled c (.start i op)) (hrest : Rest strict i (c.locals i))
    (hsbrk : strict → ∀ n, op = .sbrk n → SbrkFits (c.locals i).proc (n.toNat % 2 ^ 32)) :
    wp (ledger sys strict) (ok op) (prog sys i op) (c.locals i) (fun _ => Rest strict i) := by
  rcases hrest with hidle | ⟨p, pt, hlive, hl⟩
  · cases op with
    | run =>
      rw [hidle]
      exact forkret_spec
    | _ =>
      have hslot : (c.locals i).slot = some i := hen
      rw [hidle] at hslot
      cases hslot
  · rw [hl] at hsbrk ⊢
    apply prog_spec lax hok hlive _ hsbrk
    rintro rfl
    have hslot : (c.locals i).slot = none := hen
    rw [hl] at hslot
    cases hslot

def GrowsBelowMappings (c : Machine) (m : Move (Fin nProc) Op) : Prop :=
  ∀ i n, m = .start i (.sbrk n) → SbrkFits (c.locals i).proc (n.toNat % 2 ^ 32)

theorem Good.of_kernel_run {c d : Machine} {C : Machine → Move (Fin nProc) Op → Prop}
    (lax : ¬ strict → ∀ op e, ok op e) (hok : ∀ op e, Tolerated op e → ok op e)
    (h : Pool.Good (ledger sys strict) ok (Rest strict) c)
    (hC : ∀ c m, C c m → Enabled c m ∧ (strict → GrowsBelowMappings c m))
    (hrun : Run (Pool.step (prog sys)) C c d) : Pool.Good (ledger sys strict) ok (Rest strict) d := by
  apply h.of_run _ hrun
  intro c i op hstart hrest
  apply start_spec lax hok (hC c _ hstart).1 hrest
  intro hst n hop
  subst hop
  exact (hC c _ hstart).2 hst i n rfl

end Xv6.Kernel
