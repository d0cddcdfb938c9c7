import Xv6.Kernel.Calls

namespace Xv6.Kernel

open Lib Vm

variable (sys : Sys)

def leOf (data : List UInt8) (off : ℕ) : ℕ → ℕ
  | 0 => 0
  | w + 1 => (data.getD off 0).toNat + 256 * leOf data (off + 1) w

def elfMagic : ℕ := 0x464C457F

structure Proghdr where
  type : ℕ
  off : ℕ
  vaddr : ℕ
  filesz : ℕ
  memsz : ℕ

def Proghdr.parse (data : List UInt8) : Proghdr :=
  ⟨leOf data 0 4, leOf data 8 8, leOf data 16 8, leOf data 32 8, leOf data 40 8⟩

def readFile (ip : Fin nInode) (off n : ℕ) : KM (ℤ × List UInt8) :=
  fsCall (Fs.readi sys.sb ip (fun _ => false) (off % 2 ^ 32) n)

def loadLoop (ip : Fin nInode) (va offset sz : ℕ) : ℕ → ℕ → KM Bool
  | 0, _ => return true
  | fuel + 1, i => do
    if i < sz then
      match ← walkaddr .new ((va + i) % 2 ^ 64) with
      | none => panic "loadseg: address should exist"
      | some pa =>
        let n := min (sz - i) pgSize
        let (r, data) ← readFile sys ip (offset + i) n
        storeBytes pa 0 data.length (fun j => data.getD j 0)
        if r = (n : ℤ) then loadLoop ip va offset sz fuel (i + pgSize) else return false
    else return true

def loadseg (ip : Fin nInode) (va offset sz : ℕ) : KM Bool :=
  loadLoop sys ip va (offset % 2 ^ 32) (sz % 2 ^ 32) (sz % 2 ^ 32 / pgSize + 1) 0

def loadProgram (ip : Fin nInode) : ℕ → ℕ → ℕ → KM (Bool × ℕ)
  | 0, _, sz => return (true, sz)
  | n + 1, off, sz => do
    let (r, data) ← readFile sys ip off 56
    if r = 56 then
      let ph := Proghdr.parse data
      if ph.type ≠ 1 then loadProgram ip n (off + 56) sz
      else if ph.memsz < ph.filesz then return (false, sz)
      else if (ph.vaddr + ph.memsz) % 2 ^ 64 < ph.vaddr then return (false, sz)
      else
        let sz1 ← uvmalloc sys .new sz ((ph.vaddr + ph.memsz) % 2 ^ 64)
        if sz1 = 0 then return (false, sz)
        else if ph.vaddr % pgSize ≠ 0 then return (false, sz1)
        else
          let loaded ← loadseg sys ip ph.vaddr ph.off ph.filesz
          if loaded then loadProgram ip n (off + 56) sz1 else return (false, sz1)
    else return (false, sz)

def strlen (data : Page) : ℕ := ((List.range pgSize).takeWhile (fun i => data.get i ≠ 0)).length

def pushArgs (stackbase : ℕ) : List ℕ → ℕ → List ℕ → KM (Option (ℕ × List ℕ))
  | [], sp, ustack => return some (sp, ustack)
  | arg :: args, sp, ustack => do
    if ustack.length ≥ maxArg then return none
    else
      let data ← .read (fun x => x.1.mem arg)
      let sp := sp - (strlen data + 1)
      let sp := sp - sp % 16
      if sp < stackbase then return none
      else
        let copied ← copyout .new sp data.get (strlen data + 1)
        if copied then pushArgs stackbase args sp (ustack ++ [sp]) else return none

def wordsByte (words : List ℕ) (i : ℕ) : UInt8 := UInt8.ofNat (words.getD (i / 8) 0 / 256 ^ (i % 8))

def setTrapframe (off v : ℕ) : KM Unit :=
  .modify (fun x => match x.2.proc.trapframe with
    | some tf => (x.1.fill tf ((x.1.mem tf).setLe off 8 v), x.2)
    | none => x)

def Local.swapTable (l : Local) (sz : ℕ) : Local :=
  { l with proc := { l.proc with pagetable := l.new, sz := sz }, new := l.proc.pagetable }

def runImage (argv : List ℕ) (entry sz : ℕ) : KM ℤ := do
  let p ← myproc
  let sz := pgRoundUp sz
  let sz1 ← uvmalloc sys .new sz ((sz + 2 * pgSize) % 2 ^ 64)
  if sz1 = 0 then
    procFreepagetable sys .new sz
    return -1
  else
    uvmclear .new (sz1 - 2 * pgSize)
    match ← pushArgs (sz1 - pgSize) argv sz1 [] with
    | none =>
      procFreepagetable sys .new sz1
      return -1
    | some (sp, ustack) =>
      let sp := sp - (ustack.length + 1) * 8
      let sp := sp - sp % 16
      if sp < sz1 - pgSize then
        procFreepagetable sys .new sz1
        return -1
      else
        let copied ← copyout .new sp (wordsByte ustack) ((ustack.length + 1) * 8)
        if copied then
          setTrapframe 120 sp
          vmaUnmapAll sys
          modifyLocal (·.swapTable sz1)
          setTrapframe 24 entry
          setTrapframe 48 sp
          procFreepagetable sys .new p.sz
          return ustack.length
        else
          procFreepagetable sys .new sz1
          return -1

def enterImage (entry old sz stackbase sp : ℕ) (ustack : List ℕ) : KM ℤ := do
  let sp := sp - (ustack.length + 1) * 8
  let sp := sp - sp % 16
  if sp < stackbase then
    procFreepagetable sys .new sz
    return -1
  else
    let copied ← copyout .new sp (wordsByte ustack) ((ustack.length + 1) * 8)
    if copied then
      setTrapframe 120 sp
      vmaUnmapAll sys
      modifyLocal (·.swapTable sz)
      setTrapframe 24 entry
      setTrapframe 48 sp
      procFreepagetable sys .new old
      return ustack.length
    else
      procFreepagetable sys .new sz
      return -1

def pushStack (argv : List ℕ) (entry old sz : ℕ) : KM ℤ := do
  match ← pushArgs (sz - pgSize) argv sz [] with
  | none =>
    procFreepagetable sys .new sz
    return -1
  | some (sp, ustack) => enterImage sys entry old sz (sz - pgSize) sp ustack

theorem runImage_eq (argv : List ℕ) (entry sz : ℕ) : runImage sys argv entry sz = (do
    let p ← myproc
    let sz1 ← uvmalloc sys .new (pgRoundUp sz) ((pgRoundUp sz + 2 * pgSize) % 2 ^ 64)
    if sz1 = 0 then
      procFreepagetable sys .new (pgRoundUp sz)
      return -1
    else
      uvmclear .new (sz1 - 2 * pgSize)
      pushStack sys argv entry p.sz sz1 : KM ℤ) := rfl

def exec (namei : Fs.FsM (Option (Fin nInode))) (argv : List ℕ) : KM ℤ := do
  match ← fsCall namei with
  | none => return -1
  | some ip =>
    fsCall (Fs.ilock sys.sb ip)
    let (r, elf) ← readFile sys ip 0 64
    if r = 64 ∧ leOf elf 0 4 = elfMagic then
      let p ← myproc
      let made ← procPagetable sys (p.trapframe.getD 0)
      if made then
        let (loaded, sz) ← loadProgram sys ip (leOf elf 56 2) (leOf elf 32 8) 0
        if loaded then
          fsCall (Fs.iput sys.sb ip)
          runImage sys argv (leOf elf 24 8) sz
        else
          procFreepagetable sys .new sz
          fsCall (Fs.iput sys.sb ip)
          return -1
      else
        fsCall (Fs.iput sys.sb ip)
        return -1
    else
      fsCall (Fs.iput sys.sb ip)
      return -1

def fetchaddr (addr : ℕ) : KM (Option ℕ) := do
  let p ← myproc
  if addr ≥ p.sz ∨ (addr + 8) % 2 ^ 64 > p.sz then return none
  else
    match ← copyin .own addr 8 with
    | none => return none
    | some data => return some (leOf data 0 8)

def fetchArgs (uargv : ℕ) : ℕ → ℕ → List ℕ → KM (Bool × List ℕ)
  | 0, _, argv => return (false, argv)
  | fuel + 1, i, argv => do
    match ← fetchaddr ((uargv + 8 * i) % 2 ^ 64) with
    | none => return (false, argv)
    | some uarg =>
      if uarg = 0 then return (true, argv)
      else
        match ← kalloc with
        | none => return (false, argv)
        | some page =>
          match ← copyinstr .own uarg pgSize with
          | none => return (false, argv ++ [page])
          | some str =>
            storeBytes page 0 (str.length + 1) (fun j => str.getD j 0)
            fetchArgs uargv fuel (i + 1) (argv ++ [page])

def freeArgs (argv : List ℕ) : KM Unit := argv.forM (fun page => kfree sys page (·.dropPage page))

def sysExec (namei : Fs.FsM (Option (Fin nInode))) (uargv : UInt64) : KM ℤ := do
  let (fetched, argv) ← fetchArgs uargv.toNat maxArg 0 []
  if fetched then
    let r ← exec sys namei argv
    freeArgs sys argv
    return r
  else
    freeArgs sys argv
    return -1

end Xv6.Kernel
