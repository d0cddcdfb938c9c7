import Xv6.Kernel.Mmap

namespace Xv6.Kernel

open Lib Vm

variable (sys : Sys) (me : Fin nProc)

def trampolinePte (pa : ℕ) : Pte := ⟨pa, true, false, true, false, rfl⟩

def trapframePte (pa : ℕ) : Pte := ⟨pa, true, true, false, false, rfl⟩

def procPagetable (tf : ℕ) : KM Bool := do
  let created ← uvmcreate
  if created then
    let mapped ← mappages .new trampoline pgSize sys.trampolinePage trampolinePte
    if mapped then
      let mapped ← mappages .new trapframe pgSize tf trapframePte
      if mapped then return true
      else
        uvmunmap sys .new trampoline 1 false
        uvmfree sys .new 0
        return false
    else
      uvmfree sys .new 0
      return false
  else return false

def procFreepagetable (t : TableRef) (sz : ℕ) : KM Unit := do
  uvmunmap sys t trampoline 1 false
  uvmunmap sys t trapframe 1 false
  uvmfree sys t sz

def child : KM (Option (Fin nProc × Proc)) := .read (fun x => x.2.child)

def resetSlot (x : KState) : KState :=
  match x.2.child with
  | some (np, p) =>
    (x.1.setSlot np ⟨.unused, 0, none, 0, false, some { p with sz := 0 }⟩, { x.2 with child := none })
  | none => x

def freeproc : KM Unit := do
  match ← child with
  | none => return
  | some (_, p) =>
    (match p.trapframe with
      | some tf => kfree sys tf (·.mapChild (fun p => { p with trapframe := none }))
      | none => pure ())
    (if p.pagetable.isSome then procFreepagetable sys .child p.sz else pure ())
    .modify resetSlot

def claimSlot (i : Fin nProc) : KM Bool :=
  let isFree (x : KState) : Bool := (x.1.procs i).state = .unused
  .act (fun x =>
    if isFree x then
      let slot := x.1.procs i
      let record := slot.record.getD .empty
      ({ x.1.setSlot i { slot with state := .used, pid := x.1.nextpid, record := none } with
          nextpid := x.1.nextpid + 1 },
        { x.2 with child := some (i, { record with vmas := fun _ => none }) })
    else x)
    (fun x => .ret (isFree x))

def findSlot : List (Fin nProc) → KM (Option (Fin nProc))
  | [] => return none
  | i :: is => do
    let claimed ← claimSlot i
    if claimed then return some i else findSlot is

def allocproc : KM (Option (Fin nProc)) := do
  match ← findSlot (List.finRange nProc) with
  | none => return none
  | some np =>
    match ← kalloc with
    | none =>
      freeproc sys
      return none
    | some tf =>
      modifyLocal (fun l => (l.mapChild (fun p => { p with trapframe := some tf })).dropPage tf)
      let made ← procPagetable sys tf
      if made then
        modifyLocal (fun l => { l.setTable .child l.new with new := none })
        return some np
      else
        freeproc sys
        return none

def growproc (n : ℕ) : KM ℤ := do
  let p ← myproc
  let sz := p.sz % 2 ^ 32
  if 0 < n ∧ n < 2 ^ 31 then
    let sz ← uvmalloc sys .own sz ((sz + n) % 2 ^ 32)
    if sz = 0 then return -1
    else
      modifyLocal (·.mapProc (fun p => { p with sz := sz % 2 ^ 32 }))
      return 0
  else
    let sz ← if n = 0 then pure sz else uvmdealloc sys .own sz ((sz + n) % 2 ^ 32)
    modifyLocal (·.mapProc (fun p => { p with sz := sz % 2 ^ 32 }))
    return 0

def sysSbrk (reg : UInt64) : KM ℤ := do
  let p ← myproc
  let r ← growproc sys (reg.toNat % 2 ^ 32)
  return if r < 0 then -1 else p.sz

def copyTrapframe (src dst : ℕ) : KM Unit :=
  .modify (fun x => (x.1.fill dst ((x.1.mem src).setLe 112 8 0), x.2))

def dupFds : KM Unit :=
  (List.finRange nOfile).forM (fun fd => do
    let p ← myproc
    match p.ofile fd with
    | some f => filedup f (·.mapChild (·.setFd fd (some f)))
    | none => return)

def dupVmas : KM Unit :=
  (List.finRange nVma).forM (fun k => do
    let p ← myproc
    match p.vmas k with
    | some v => filedup v.file (·.mapChild (·.setVma k (some v)))
    | none => return)

def setParent (np : Fin nProc) : KM Unit :=
  .modify (fun x => (x.1.setSlot np { x.1.procs np with parent := some me }, x.2))

def launch (x : KState) : KState :=
  match x.2.child with
  | some (np, p) =>
    (x.1.setSlot np { x.1.procs np with state := .runnable, record := some p }, { x.2 with child := none })
  | none => x

def fork : KM ℤ := do
  match ← allocproc sys with
  | none => return -1
  | some np =>
    let p ← myproc
    let copied ← uvmcopy sys p.sz
    if copied then
      modifyLocal (·.mapChild (fun c => { c with sz := p.sz }))
      (match p.trapframe, ← child with
        | some src, some (_, c) => match c.trapframe with
          | some dst => copyTrapframe src dst
          | none => pure ()
        | _, _ => pure ())
      dupFds
      dupVmas
      (match p.cwd with
        | some ip => do
          fsCall (Fs.idup ip)
          modifyLocal (·.mapChild (fun c => { c with cwd := some ip }))
        | none => pure ())
      let pid ← .read (fun x => (x.1.procs np).pid)
      setParent me np
      .modify launch
      return pid
    else
      freeproc sys
      return -1

def forkret : KM Unit :=
  .modify (fun x => match (x.1.procs me).state, (x.1.procs me).record with
    | .runnable, some p =>
      (x.1.setSlot me { x.1.procs me with record := none }, { x.2 with slot := some me, proc := p })
    | _, _ => x)

def closeFds : KM Unit :=
  (List.finRange nOfile).forM (fun fd => do
    let p ← myproc
    match p.ofile fd with
    | some f => fileclose sys f (·.clearFd fd)
    | none => return)

def becomeZombie (status : ℤ) (x : KState) : KState :=
  let procs := fun i => if (x.1.procs i).parent = some me then
    { x.1.procs i with parent := some sys.initproc } else x.1.procs i
  let slot := { procs me with xstate := status, state := .zombie, record := some x.2.proc }
  ({ x.1 with procs := Function.update procs me slot }, { x.2 with slot := none, proc := .empty })

def exit (status : ℤ) : KM Unit := do
  if me = sys.initproc then panic "init exiting"
  else
    vmaUnmapAll sys
    closeFds sys
    let p ← myproc
    (match p.cwd with
      | some ip => do
        fsCall (Fs.iput sys.sb ip)
        modifyLocal (·.mapProc (fun p => { p with cwd := none }))
      | none => pure ())
    .modify (becomeZombie sys me status)

def reap (np : Fin nProc) (x : KState) : KState :=
  if (x.1.procs np).state = .zombie ∧ (x.1.procs np).parent = some me then
    (x.1.setSlot np { x.1.procs np with record := none },
      { x.2 with child := (x.1.procs np).record.map (fun p => (np, p)) })
  else x

def le32Int (v : ℤ) (i : ℕ) : UInt8 := UInt8.ofNat ((v % 2 ^ 32).toNat / 256 ^ i)

def waitScan (addr : ℕ) : Bool → List (Fin nProc) → KM (Option ℤ)
  | havekids, [] => do
    let killed ← .read (fun x => (x.1.procs me).killed)
    return if !havekids || killed then some (-1) else none
  | havekids, np :: nps => do
    let slot ← .read (fun x => x.1.procs np)
    if slot.parent = some me then
      if slot.state = .zombie then
        let copied ← if addr ≠ 0 then copyout .own addr (le32Int slot.xstate) 4 else pure true
        if copied then
          .modify (reap me np)
          freeproc sys
          return some slot.pid
        else return some (-1)
      else waitScan addr true nps
    else waitScan addr havekids nps

def wait (addr : ℕ) : KM (Option ℤ) := waitScan sys me addr false (List.finRange nProc)

end Xv6.Kernel
