import Xv6.Fs.Inode
import Xv6.Lib.Prog
import Xv6.Vm.PageTable

namespace Xv6.Kernel

open Lib Vm

def nVma : ℕ := 16

def physTop : ℕ := (0x80000000 + 128 * 1024 * 1024) / pgSize

abbrev Page := Bytes pgSize

structure Sys where
  sb : Fs.Superblock
  endPage : ℕ
  trampolinePage : ℕ
  kernelTable : List ℕ
  kstack : Fin nProc → ℕ
  initproc : Fin nProc

def Sys.InPool (sys : Sys) (p : ℕ) : Prop := sys.endPage ≤ p ∧ p < physTop

instance (sys : Sys) (p : ℕ) : Decidable (sys.InPool p) := inferInstanceAs (Decidable (_ ∧ _))

inductive FileType
  | none
  | pipe
  | inode
  | device
  deriving DecidableEq

structure File where
  type : FileType
  ref : ℕ
  readable : Bool
  writable : Bool
  pipe : ℕ
  ip : Fin nInode

structure Pipe where
  readopen : Bool
  writeopen : Bool
  deriving DecidableEq

def Pipe.isOpen (pi : Pipe) (writable : Bool) : Bool := if writable then pi.writeopen else pi.readopen

structure Vma where
  addr : ℕ
  length : ℕ
  prot : ℕ
  flags : ℕ
  file : Fin nFile
  offset : ℕ
  prots : 0 < prot ∧ prot < 8

def mapShared : ℕ := 1
def mapPrivate : ℕ := 2

def protRead (prot : ℕ) : Bool := prot.testBit 0
def protWrite (prot : ℕ) : Bool := prot.testBit 1
def protExec (prot : ℕ) : Bool := prot.testBit 2

structure Proc where
  sz : ℕ
  pagetable : Option PageTable
  trapframe : Option ℕ
  ofile : Fin nOfile → Option (Fin nFile)
  vmas : Fin nVma → Option Vma
  cwd : Option (Fin nInode)

def Proc.empty : Proc := ⟨0, none, none, fun _ => none, fun _ => none, none⟩

inductive ProcState
  | unused
  | used
  | sleeping
  | runnable
  | running
  | zombie
  deriving DecidableEq

/-- An entry of the process table; `record` has the private fields while no kernel thread works on
them: before a process first runs, after it has exited, and when the entry is free. -/
structure Slot where
  state : ProcState
  pid : ℕ
  parent : Option (Fin nProc)
  xstate : ℤ
  killed : Bool
  record : Option Proc

structure Shared where
  freelist : List ℕ
  mem : ℕ → Page
  ftable : Fin nFile → File
  pipes : ℕ → Option Pipe
  procs : Fin nProc → Slot
  nextpid : ℕ
  fs : Fs.FsState

/-- What the kernel thread of a process works on: its entry and private fields, the page table and the process that it is making
or freeing, and what it has taken and not yet put anywhere. -/
structure Local where
  slot : Option (Fin nProc)
  proc : Proc
  new : Option PageTable
  child : Option (Fin nProc × Proc)
  pages : Multiset ℕ
  fresh : Multiset (Fin nFile)
  refs : Multiset (Fin nFile)
  ends : Multiset (ℕ × Bool)

def Local.idle : Local := ⟨none, .empty, none, none, 0, 0, 0, 0⟩

inductive TableRef
  | own
  | new
  | child
  deriving DecidableEq

def Local.table (l : Local) : TableRef → Option PageTable
  | .own => l.proc.pagetable
  | .new => l.new
  | .child => l.child.bind (·.2.pagetable)

def Local.setTable (l : Local) (t : TableRef) (o : Option PageTable) : Local :=
  match t with
  | .own => { l with proc := { l.proc with pagetable := o } }
  | .new => { l with new := o }
  | .child => { l with child := l.child.map (fun c => (c.1, { c.2 with pagetable := o })) }

def Local.mapTable (l : Local) (t : TableRef) (f : PageTable → PageTable) : Local :=
  l.setTable t ((l.table t).map f)

def Local.mapProc (l : Local) (f : Proc → Proc) : Local := { l with proc := f l.proc }

def Local.mapChild (l : Local) (f : Proc → Proc) : Local :=
  { l with child := l.child.map (fun c => (c.1, f c.2)) }

def Local.takePage (l : Local) (p : ℕ) : Local := { l with pages := p ::ₘ l.pages }

def Local.dropPage (l : Local) (p : ℕ) : Local := { l with pages := l.pages.erase p }

def Shared.fill (s : Shared) (p : ℕ) (data : Page) : Shared := { s with mem := Function.update s.mem p data }

def Shared.setFile (s : Shared) (f : Fin nFile) (file : File) : Shared :=
  { s with ftable := Function.update s.ftable f file }

def Shared.setSlot (s : Shared) (i : Fin nProc) (slot : Slot) : Shared :=
  { s with procs := Function.update s.procs i slot }

inductive Panic
  | fs (msg : String)
  | kernel (msg : String)
  deriving DecidableEq

abbrev KState := Shared × Local

abbrev KM := Prog KState Panic

def panic {α : Type} (msg : String) : KM α := .fail (.kernel msg)

end Xv6.Kernel
