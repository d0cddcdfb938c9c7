import Xv6.Kernel.FilesSpec

namespace Xv6.Kernel

open Lib Vm Prog

variable {sys : Sys} {strict : Prop} {ok : Panic → Prop} {l : Local} {p p' : Proc} {pt : PageTable}
variable {i : Fin nProc} {f : Fin nFile} {fd : Fin nOfile} {k : Fin nVma}

def Local.holding (i : Fin nProc) (p : Proc) : Local := ⟨some i, p, none, none, 0, 0, 0, 0⟩

def Rest (strict : Prop) (i : Fin nProc) (l : Local) : Prop :=
  l = .idle ∨ ∃ p pt, p.Live strict pt ∧ l = .holding i p

theorem Proc.Live.of_fds (h : p.Live strict pt) (htable : p'.pagetable = p.pagetable)
    (htf : p'.trapframe = p.trapframe) (hvmas : p'.vmas = p.vmas) (hsz : p'.sz = p.sz) : p'.Live strict pt := by
  constructor
  · rw [htable, h.table]
  · rw [htf]
    exact h.trapframe
  · exact h.framed
  · rw [hvmas]
    exact h.vmas
  · rw [hvmas, hsz]
    exact h.heap

theorem Proc.tokens_setFd (fd : Fin nOfile) (o : Option (Fin nFile)) :
    (p.setFd fd o).tokens + (p.ofile fd).elim 0 (fun f => ofFiles {.ref f}) =
      p.tokens + o.elim 0 (fun f => ofFiles {.ref f}) := by
  have hs := sum_update_add (fun _ o => o.elim 0 (fun f => ofFiles {.ref f})) p.ofile fd o
  simp only [Proc.tokens, Proc.setFd]
  rw [add_right_comm, add_assoc _ _ ((p.ofile fd).elim 0 _), hs]
  abel

theorem Proc.tokens_setVma (o : Option Vma) :
    (p.setVma k o).tokens + (p.vmas k).elim 0 (fun v => ofFiles {.map v.file}) =
      p.tokens + o.elim 0 (fun v => ofFiles {.map v.file}) := by
  have hs := sum_update_add (fun _ o => o.elim 0 (fun v : Vma => ofFiles {.map v.file})) p.vmas k o
  simp only [Proc.tokens, Proc.setVma]
  rw [add_assoc, hs]
  abel

theorem tokens_mapProc {m m' : Tokens} (g : Proc → Proc) (h : (g l.proc).tokens + m = l.proc.tokens + m') :
    (l.mapProc g).tokens + m = l.tokens + m' := by
  have hsplit (q : Proc) : Local.tokens { l with proc := q } + m = (q.tokens + m) +
      (l.slot.elim 0 ofSlot + ofPages (tablePages l.new) + l.child.elim 0 (fun c => heldAt c.1 (some c.2)) +
        ofPages l.pages + ofFiles (l.fresh.map .fresh + l.refs.map .ref) + ofEnds l.ends) := by
    simp only [Local.tokens]
    abel
  rw [Local.mapProc, hsplit, h]
  simp only [Local.tokens]
  abel

theorem tokens_clearFd (h : l.proc.ofile fd = some f) : (l.clearFd fd).tokens + ofFiles {.ref f} = l.tokens := by
  have hs := Proc.tokens_setFd (p := l.proc) fd none
  rw [h] at hs
  exact (tokens_mapProc (·.setFd fd none) hs).trans (add_zero _)

theorem tokens_putFd (h : l.proc.ofile fd = none) :
    (l.mapProc (·.setFd fd (some f))).tokens = l.tokens + ofFiles {.ref f} := by
  have hs := Proc.tokens_setFd (p := l.proc) fd (some f)
  rw [h] at hs
  exact (add_zero _).symm.trans (tokens_mapProc (·.setFd fd (some f)) hs)

theorem ref_mem_tokens (h : l.proc.ofile fd = some f) : .ref f ∈ l.tokens.2.1 := by
  rw [← tokens_clearFd h]
  exact Multiset.mem_add.mpr (Or.inr (Multiset.mem_singleton_self _))

theorem freeFd_eq (h : p.freeFd = some fd) : p.ofile fd = none := by
  have := List.find?_some h
  simpa using this

theorem argfd_eq {reg : UInt64} (h : p.argfd reg = some (fd, f)) : p.ofile fd = some f := by
  unfold Proc.argfd at h
  split at h
  · obtain ⟨g, hg, heq⟩ := Option.map_eq_some_iff.mp h
    cases heq
    exact hg
  · cases h

theorem wp_fdalloc {Q : Option (Fin nOfile) → Local → Prop} (hnone : Q none (l.takeRef f))
    (hsome : ∀ fd, l.proc.ofile fd = none → Q (some fd) (l.mapProc (·.setFd fd (some f)))) :
    wp (ledger sys strict) ok (fdalloc f) (l.takeRef f) Q := by
  intro s rest hs
  change (ledger sys strict).inv _ _ ∧ wp _ _ (.ret l.proc.freeFd) _ _
  simp only [show (l.takeRef f).proc = l.proc from rfl]
  cases hfree : l.proc.freeFd with
  | none => exact ⟨hs, hnone⟩
  | some fd =>
    have hfd := freeFd_eq hfree
    have hlocal : ((l.takeRef f).mapProc (·.setFd fd (some f))).dropRef f = l.mapProc (·.setFd fd (some f)) := by
      simp only [Local.takeRef, Local.mapProc, Local.dropRef, Multiset.erase_cons_head]
    simp only [hlocal]
    refine ⟨?_, hsome fd hfd⟩
    simp only [ledger, tokens_putFd hfd, ← tokens_takeRef]
    exact hs

theorem wp_closeFd {Q : Unit → Local → Prop} (hfs : ∀ msg, ok (.fs msg)) (hfd : l.proc.ofile fd = some f)
    (hQ : Q () (l.clearFd fd)) : wp (ledger sys strict) ok (fileclose sys f (·.clearFd fd)) l Q :=
  wp_fileclose (r := .ref f) hfs (tokens_clearFd hfd) hQ

theorem ofile_setFd_self {o : Option (Fin nFile)} : (p.setFd fd o).ofile fd = o := Function.update_self _ _ _

theorem ofile_setFd_ne {fd' : Fin nOfile} {o : Option (Fin nFile)} (h : fd' ≠ fd) :
    (p.setFd fd o).ofile fd' = p.ofile fd' := Function.update_of_ne h _ _

theorem Rest.live (h : p.Live strict pt) : Rest strict i (.holding i p) := Or.inr ⟨p, pt, h, rfl⟩

theorem sysClose_spec {reg : UInt64} (hfs : ∀ msg, ok (.fs msg)) (h : p.Live strict pt) :
    wp (ledger sys strict) ok (sysClose sys reg) (.holding i p) (fun _ => Rest strict i) := by
  rw [sysClose, wp_bind]
  apply wp_myproc
  cases harg : p.argfd reg with
  | none =>
    simp only [Local.holding, harg]
    exact Rest.live h
  | some x =>
    simp only [Local.holding, harg, wp_bind]
    apply wp_closeFd hfs (argfd_eq harg)
    exact Rest.live (h.of_fds rfl rfl rfl rfl)

theorem sysDup_spec {reg : UInt64} (h : p.Live strict pt) :
    wp (ledger sys strict) ok (sysDup reg) (.holding i p) (fun _ => Rest strict i) := by
  rw [sysDup, wp_bind]
  apply wp_myproc
  cases harg : p.argfd reg with
  | none =>
    simp only [Local.holding, harg]
    exact Rest.live h
  | some x =>
    cases hfree : p.freeFd with
    | none =>
      simp only [Local.holding, harg, hfree]
      exact Rest.live h
    | some fd =>
      simp only [Local.holding, harg, hfree, wp_bind]
      apply wp_filedup (r := .ref x.2) (ref_mem_tokens (argfd_eq harg)) (by simp) (Or.inl rfl)
      · exact tokens_putFd (freeFd_eq hfree)
      · exact Rest.live (h.of_fds rfl rfl rfl rfl)

theorem sysPipe_spec {fdarray : ℕ} (hfs : ∀ msg, ok (.fs msg)) (h : p.Live strict pt) :
    wp (ledger sys strict) ok (sysPipe sys fdarray) (.holding i p) (fun _ => Rest strict i) := by
  rw [sysPipe, wp_bind]
  apply wp_pipealloc hfs
  · exact Rest.live h
  intro rf wf
  simp only [wp_bind]
  apply wp_fdalloc
  · simp only [wp_bind]
    apply wp_closeRef hfs
    exact wp_closeRef hfs (Rest.live h)
  intro fd₀ hfd₀
  have hcomm (l : Local) (g : Proc → Proc) : (l.takeRef wf).mapProc g = (l.mapProc g).takeRef wf := rfl
  simp only [hcomm, wp_bind]
  apply wp_fdalloc
  · simp only [wp_bind]
    apply wp_closeFd hfs ofile_setFd_self
    rw [Local.clearFd, hcomm]
    exact wp_closeRef hfs (Rest.live (h.of_fds rfl rfl rfl rfl))
  intro fd₁ hfd₁
  have hne : fd₀ ≠ fd₁ := by
    rintro rfl
    rw [show ((Local.holding i p).mapProc (·.setFd fd₀ (some rf))).proc.ofile fd₀ = some rf from
      ofile_setFd_self] at hfd₁
    cases hfd₁
  have hundo : wp (ledger sys strict) ok
      (do fileclose sys rf (·.clearFd fd₀); fileclose sys wf (·.clearFd fd₁); return (-1 : ℤ))
      (((Local.holding i p).mapProc (·.setFd fd₀ (some rf))).mapProc (·.setFd fd₁ (some wf)))
      (fun _ => Rest strict i) := by
    simp only [wp_bind]
    apply wp_closeFd hfs ((ofile_setFd_ne hne).trans ofile_setFd_self)
    apply wp_closeFd hfs ((ofile_setFd_ne hne.symm).trans ofile_setFd_self)
    exact Rest.live (h.of_fds rfl rfl rfl rfl)
  have htable : (((Local.holding i p).mapProc (·.setFd fd₀ (some rf))).mapProc
      (·.setFd fd₁ (some wf))).table .own = some pt := h.table
  simp only [wp_bind]
  apply wp_copyout htable
  intro first
  have hcopied (both : Bool) : wp (ledger sys strict) ok (if both then return 0 else do
      fileclose sys rf (·.clearFd fd₀); fileclose sys wf (·.clearFd fd₁); return (-1 : ℤ))
      (((Local.holding i p).mapProc (·.setFd fd₀ (some rf))).mapProc (·.setFd fd₁ (some wf)))
      (fun _ => Rest strict i) := by
    cases both
    · exact hundo
    · exact Rest.live (h.of_fds rfl rfl rfl rfl)
  cases first with
  | false => exact hcopied false
  | true =>
    rw [if_pos rfl, wp_bind]
    exact wp_copyout htable hcopied

theorem Balanced.fdopen {s : Shared} {T : Tokens} {file : File} (h : Balanced sys s (T + ofFiles {.fresh f}))
    (href : file.ref = (s.ftable f).ref) (htype : file.type ≠ .pipe) :
    Balanced sys (s.setFile f file) (T + ofFiles {.ref f}) := by
  have hfiles : FilesOk s (T.2.1 + {.fresh f}) := h.files
  obtain ⟨hone, hnone⟩ := hfiles.fresh f (by simp)
  apply h.setFile
  · rfl
  · exact hfiles.settle (href.trans hone)
  · rw [show (T + ofFiles {.ref f}).2.2.1 = (T + ofFiles {.fresh f}).2.2.1 from rfl]
    apply h.pipes.setFile
    intro p w
    simp [File.Holds, htype, hnone]
  · rfl

theorem wp_fdopen {omode type : ℕ} {ip : Fin nInode} {Q : Option (Fin nOfile) → Local → Prop}
    (hnone : Q none (l.takeFresh f))
    (hsome : ∀ fd, l.proc.ofile fd = none → Q (some fd) (l.mapProc (·.setFd fd (some f)))) :
    wp (ledger sys strict) ok (fdopen f omode type ip) (l.takeFresh f) Q := by
  intro s rest hs
  change (ledger sys strict).inv _ _ ∧ wp _ _ (.ret l.proc.freeFd) _ _
  simp only [show (l.takeFresh f).proc = l.proc from rfl]
  cases hfree : l.proc.freeFd with
  | none => exact ⟨hs, hnone⟩
  | some fd =>
    have hfd := freeFd_eq hfree
    have hlocal : ((l.takeFresh f).mapProc (·.setFd fd (some f))).dropFresh f =
        l.mapProc (·.setFd fd (some f)) := by
      simp only [Local.takeFresh, Local.mapProc, Local.dropFresh, Multiset.erase_cons_head]
    simp only [hlocal]
    constructor
    · apply KInv.exchange hs
      · rfl
      · intro T hb
        change Balanced sys _ ((l.mapProc (·.setFd fd (some f))).tokens + T)
        rw [show (ledger sys strict).tok (l.takeFresh f) = _ from tokens_takeFresh, add_right_comm] at hb
        rw [tokens_putFd hfd, add_right_comm]
        apply hb.fdopen
        · rfl
        · simp only [File.opened]
          split <;> simp
    · exact hsome fd hfd

theorem sysOpen_spec {lookup : Fs.FsM (Option (Fin nInode))} {reg : UInt64} (hfs : ∀ msg, ok (.fs msg))
    (h : p.Live strict pt) :
    wp (ledger sys strict) ok (sysOpen sys lookup reg) (.holding i p) (fun _ => Rest strict i) := by
  have hput (ip : Fin nInode) : wp (ledger sys strict) ok (do
      fsCall (Fs.iput sys.sb ip)
      return -1 : KM ℤ) (.holding i p) (fun _ => Rest strict i) := by
    rw [wp_bind]
    apply wp_fsCall hfs
    intro _
    exact Rest.live h
  rw [sysOpen, wp_bind]
  apply wp_fsCall hfs
  intro found
  cases found with
  | none => exact Rest.live h
  | some ip =>
    dsimp only
    rw [wp_bind]
    apply wp_read
    intro s rest _
    generalize s.fs.itable ip = inode
    split
    · exact hput ip
    · rw [wp_bind]
      apply wp_filealloc
      · exact hput ip
      · intro f
        dsimp only
        rw [wp_bind]
        apply wp_fdopen
        · dsimp only
          rw [wp_bind]
          apply wp_closeFresh hfs
          exact hput ip
        · intro fd hfd
          have hlive : Proc.Live strict (p.setFd fd (some f)) pt := h.of_fds rfl rfl rfl rfl
          dsimp only
          split
          · rw [wp_bind]
            apply wp_fsCall hfs
            intro _
            exact Rest.live hlive
          · exact Rest.live hlive

end Xv6.Kernel
