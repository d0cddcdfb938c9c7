import Xv6.Kernel.Uvm

namespace Xv6.Kernel

open Lib Vm

def fsStep {α : Type} (m : KState → Fs.FsM α) : KM α :=
  .step (fun x => match m x x.1.fs with
    | .ok (a, fs) => .ok (a, ({ x.1 with fs := fs }, x.2))
    | .error e => .error (.fs e))

def fsCall {α : Type} (m : Fs.FsM α) : KM α := fsStep (fun _ => m)

def allocFile (x : KState) : Option (Fin nFile) :=
  (List.finRange nFile).find? (fun f => (x.1.ftable f).ref = 0)

def filealloc : KM (Option (Fin nFile)) :=
  .act (fun x => match allocFile x with
    | some f => (x.1.setFile f { x.1.ftable f with ref := 1 }, { x.2 with fresh := f ::ₘ x.2.fresh })
    | none => x)
    (fun x => .ret (allocFile x))

def filedup (f : Fin nFile) (put : Local → Local) : KM Unit :=
  .step (fun x =>
    if (x.1.ftable f).ref < 1 then .error (.kernel "filedup")
    else .ok ((), x.1.setFile f { x.1.ftable f with ref := (x.1.ftable f).ref + 1 }, put x.2))

variable (sys : Sys)

def releaseFile (f : Fin nFile) (drop : Local → Local) : KM (Option File) :=
  .step (fun x =>
    let file := x.1.ftable f
    if file.ref < 1 then .error (.kernel "fileclose")
    else if file.ref - 1 > 0 then
      .ok (none, x.1.setFile f { file with ref := file.ref - 1 }, drop x.2)
    else
      let l := drop x.2
      .ok (some file, x.1.setFile f { file with ref := 0, type := .none },
        if file.type = .pipe then { l with ends := (file.pipe, file.writable) ::ₘ l.ends } else l))

def Pipe.close (pi : Pipe) (writable : Bool) : Pipe :=
  if writable then { pi with writeopen := false } else { pi with readopen := false }

def closeEnd (page : ℕ) (writable : Bool) : KM Bool :=
  let isLast (x : KState) : Bool := match x.1.pipes page with
    | some pi => !(pi.close writable).readopen && !(pi.close writable).writeopen
    | none => false
  .act (fun x =>
    let l := { x.2 with ends := x.2.ends.erase (page, writable) }
    if isLast x then
      ({ x.1 with pipes := Function.update x.1.pipes page none }, l.takePage page)
    else
      ({ x.1 with pipes := Function.update x.1.pipes page ((x.1.pipes page).map (·.close writable)) }, l))
    (fun x => .ret (isLast x))

def pipeclose (page : ℕ) (writable : Bool) : KM Unit := do
  let last ← closeEnd page writable
  if last then kfree sys page (·.dropPage page) else return

def fileclose (f : Fin nFile) (drop : Local → Local) : KM Unit := do
  match ← releaseFile f drop with
  | none => return
  | some ff =>
    match ff.type with
    | .pipe => pipeclose sys ff.pipe ff.writable
    | .inode | .device => fsCall (Fs.iput sys.sb ff.ip)
    | .none => return

def Local.dropFresh (l : Local) (f : Fin nFile) : Local := { l with fresh := l.fresh.erase f }

def Local.dropRef (l : Local) (f : Fin nFile) : Local := { l with refs := l.refs.erase f }

def initPipe (f0 f1 : Fin nFile) (page : ℕ) (x : KState) : KState :=
  let s := { x.1 with pipes := Function.update x.1.pipes page (some ⟨true, true⟩) }
  let s := s.setFile f0
    { s.ftable f0 with type := .pipe, readable := true, writable := false, pipe := page }
  let s := s.setFile f1
    { s.ftable f1 with type := .pipe, readable := false, writable := true, pipe := page }
  (s, { ((x.2.dropFresh f0).dropFresh f1).dropPage page with refs := f0 ::ₘ f1 ::ₘ x.2.refs })

def pipealloc : KM (Option (Fin nFile × Fin nFile)) := do
  match ← filealloc with
  | none => return none
  | some f0 =>
    match ← filealloc with
    | none =>
      fileclose sys f0 (·.dropFresh f0)
      return none
    | some f1 =>
      match ← kalloc with
      | none =>
        fileclose sys f0 (·.dropFresh f0)
        fileclose sys f1 (·.dropFresh f1)
        return none
      | some page =>
        .modify (initPipe f0 f1 page)
        return some (f0, f1)

def Proc.setFd (p : Proc) (fd : Fin nOfile) (o : Option (Fin nFile)) : Proc :=
  { p with ofile := Function.update p.ofile fd o }

def Proc.setVma (p : Proc) (k : Fin nVma) (o : Option Vma) : Proc :=
  { p with vmas := Function.update p.vmas k o }

def Proc.freeFd (p : Proc) : Option (Fin nOfile) :=
  (List.finRange nOfile).find? (fun fd => (p.ofile fd).isNone)

def fdalloc (f : Fin nFile) : KM (Option (Fin nOfile)) :=
  .act (fun x => match x.2.proc.freeFd with
    | some fd => (x.1, (x.2.mapProc (·.setFd fd (some f))).dropRef f)
    | none => x)
    (fun x => .ret x.2.proc.freeFd)

def Proc.argfd (p : Proc) (reg : UInt64) : Option (Fin nOfile × Fin nFile) :=
  if h : reg.toNat % 2 ^ 32 < nOfile then
    (p.ofile ⟨reg.toNat % 2 ^ 32, h⟩).map (fun f => (⟨reg.toNat % 2 ^ 32, h⟩, f))
  else none

def myproc : KM Proc := .read (fun x => x.2.proc)

def Local.clearFd (l : Local) (fd : Fin nOfile) : Local := l.mapProc (·.setFd fd none)

def le32 (fd : Fin nOfile) (i : ℕ) : UInt8 := UInt8.ofNat (fd.val / 256 ^ i)

def sysPipe (fdarray : ℕ) : KM ℤ := do
  match ← pipealloc sys with
  | none => return -1
  | some (rf, wf) =>
    match ← fdalloc rf with
    | none =>
      fileclose sys rf (·.dropRef rf)
      fileclose sys wf (·.dropRef wf)
      return -1
    | some fd0 =>
      match ← fdalloc wf with
      | none =>
        fileclose sys rf (·.clearFd fd0)
        fileclose sys wf (·.dropRef wf)
        return -1
      | some fd1 =>
        let first ← copyout .own fdarray (le32 fd0) 4
        let both ← if first then copyout .own ((fdarray + 4) % 2 ^ 64) (le32 fd1) 4 else pure false
        if both then return 0
        else
          fileclose sys rf (·.clearFd fd0)
          fileclose sys wf (·.clearFd fd1)
          return -1

def oRdonly : ℕ := 0

def oWronly (omode : ℕ) : Bool := omode.testBit 0
def oRdwr (omode : ℕ) : Bool := omode.testBit 1
def oCreate (omode : ℕ) : Bool := omode.testBit 9
def oTrunc (omode : ℕ) : Bool := omode.testBit 10

def tDir : ℕ := 1
def tFile : ℕ := 2
def tDevice : ℕ := 3

def File.opened (file : File) (omode type : ℕ) (ip : Fin nInode) : File :=
  { file with type := if type = tDevice then .device else .inode, ip := ip,
              readable := !oWronly omode, writable := oWronly omode || oRdwr omode }

def fdopen (f : Fin nFile) (omode type : ℕ) (ip : Fin nInode) : KM (Option (Fin nOfile)) :=
  .act (fun x => match x.2.proc.freeFd with
    | some fd => (x.1.setFile f ((x.1.ftable f).opened omode type ip),
        (x.2.mapProc (·.setFd fd (some f))).dropFresh f)
    | none => x)
    (fun x => .ret x.2.proc.freeFd)

def sysOpen (lookup : Fs.FsM (Option (Fin nInode))) (reg : UInt64) : KM ℤ := do
  let omode := reg.toNat % 2 ^ 32
  match ← fsCall lookup with
  | none => return -1
  | some ip =>
    let i ← .read (fun x => x.1.fs.itable ip)
    -- a negative `major` is at least `NDEV` as an unsigned number
    if (!oCreate omode && i.type = tDir && omode ≠ oRdonly) || (i.type = tDevice && nDev ≤ i.major) then
      fsCall (Fs.iput sys.sb ip)
      return -1
    else
      match ← filealloc with
      | none =>
        fsCall (Fs.iput sys.sb ip)
        return -1
      | some f =>
        match ← fdopen f omode i.type ip with
        | none =>
          fileclose sys f (·.dropFresh f)
          fsCall (Fs.iput sys.sb ip)
          return -1
        | some fd =>
          (if oTrunc omode && i.type = tFile then fsCall (Fs.itrunc sys.sb ip) else pure ())
          return fd.val

def sysClose (reg : UInt64) : KM ℤ := do
  let p ← myproc
  match p.argfd reg with
  | none => return -1
  | some (fd, f) =>
    fileclose sys f (·.clearFd fd)
    return 0

def sysDup (reg : UInt64) : KM ℤ := do
  let p ← myproc
  match p.argfd reg with
  | none => return -1
  | some (_, f) =>
    match p.freeFd with
    | none => return -1
    | some fd =>
      filedup f (·.mapProc (·.setFd fd (some f)))
      return fd.val

end Xv6.Kernel
