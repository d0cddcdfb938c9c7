import Mathlib.Data.List.FinRange
import Mathlib.Logic.Function.Basic
import Xv6.Fs.Layout
import Xv6.Lib.Hoare

namespace Xv6.Fs

open Lib

structure Inode extends Dinode where
  inum : ℕ
  ref : ℕ
  valid : Bool

def Inode.withAddrs (i : Inode) (addrs : Fin (nDirect + 1) → ℕ) : Inode := { i with addrs := addrs }

def Inode.withSize (i : Inode) (size : ℕ) : Inode := { i with size := size }

structure FsState where
  cache : ℕ → Block
  saved : ℕ → Block
  itable : Fin nInode → Inode

abbrev FsM := StateT FsState (Except String)

def bread (b : ℕ) : FsM Block := do return (← get).cache b

def logWrite (b : ℕ) (data : Block) : FsM Unit :=
  modify fun s => { s with
    cache := Function.update s.cache b data, saved := Function.update s.saved b data }

def scribble (b : ℕ) (data : Block) : FsM Unit :=
  modify fun s => { s with cache := Function.update s.cache b data }

def inode (ip : Fin nInode) : FsM Inode := do return (← get).itable ip

def setInode (ip : Fin nInode) (i : Inode) : FsM Unit :=
  modify fun s => { s with itable := Function.update s.itable ip i }

def setAddr (ip : Fin nInode) (k : Fin (nDirect + 1)) (b : ℕ) : FsM Unit := do
  let i ← inode ip
  setInode ip (i.withAddrs (Function.update i.addrs k b))

def bzero (b : ℕ) : FsM Unit := logWrite b (fun _ => 0)

variable (sb : Superblock)

def findFree (b : ℕ) (data : Block) : Option ℕ :=
  (List.range (min bpb (sb.size - b))).find? (fun bi => Bitmap.isClear data bi)

def ballocFrom : List ℕ → FsM ℕ
  | [] => throw "balloc: out of blocks"
  | b :: bs => do
    let bp ← bread (sb.bblock b)
    match findFree sb b bp with
    | some bi =>
      logWrite (sb.bblock b) (Bitmap.set bp bi)
      bzero (b + bi)
      return b + bi
    | none => ballocFrom bs

def balloc : FsM ℕ := ballocFrom sb ((List.range ((sb.size + bpb - 1) / bpb)).map (· * bpb))

def bfree (b : ℕ) : FsM Unit := do
  let bp ← bread (sb.bblock b)
  if Bitmap.isClear bp (b % bpb) then throw "freeing free block"
  else logWrite (sb.bblock b) (Bitmap.reset bp (b % bpb))

def iupdate (ip : Fin nInode) : FsM Unit := do
  let i ← inode ip
  let bp ← bread (sb.iblock i.inum)
  logWrite (sb.iblock i.inum) (writeDinode bp (i.inum % ipb) i.toDinode)

def iget (inum : ℕ) : FsM (Fin nInode) := do
  let s ← get
  match (List.finRange nInode).find? (fun i => 0 < (s.itable i).ref ∧ (s.itable i).inum = inum) with
  | some ip =>
    setInode ip { s.itable ip with ref := (s.itable ip).ref + 1 }
    return ip
  | none =>
    match (List.finRange nInode).find? (fun i => (s.itable i).ref = 0) with
    | some ip =>
      setInode ip { s.itable ip with inum := inum, ref := 1, valid := false }
      return ip
    | none => throw "iget: no inodes"

def iallocFrom (type : ℕ) : List ℕ → FsM (Fin nInode)
  | [] => throw "ialloc: no inodes"
  | inum :: inums => do
    let bp ← bread (sb.iblock inum)
    if (readDinode bp (inum % ipb)).type = 0 then
      logWrite (sb.iblock inum) (writeDinode bp (inum % ipb) { Dinode.zero with type := type })
      iget inum
    else iallocFrom type inums

def ialloc (type : ℕ) : FsM (Fin nInode) := iallocFrom sb type (List.range' 1 (sb.ninodes - 1))

def idup (ip : Fin nInode) : FsM Unit := do
  let i ← inode ip
  setInode ip { i with ref := i.ref + 1 }

def ilock (ip : Fin nInode) : FsM Unit := do
  let i ← inode ip
  if i.ref < 1 then throw "ilock"
  else if i.valid then return
  else
    let bp ← bread (sb.iblock i.inum)
    let d := readDinode bp (i.inum % ipb)
    setInode ip { i with toDinode := d, valid := true }
    if d.type = 0 then throw "ilock: no type" else return

def loadAddr (ip : Fin nInode) (k : Fin (nDirect + 1)) : FsM ℕ := do
  let addr := (← inode ip).addrs k
  if addr = 0 then
    let addr ← balloc sb
    setAddr ip k addr
    return addr
  else return addr

def bmap (ip : Fin nInode) (bn : ℕ) : FsM ℕ := do
  if h : bn < nDirect then loadAddr sb ip ⟨bn, Nat.lt_succ_of_lt h⟩
  else if bn - nDirect < nIndirect then
    let ind ← loadAddr sb ip (Fin.last nDirect)
    let a ← bread ind
    let addr := a.le (4 * (bn - nDirect)) 4
    if addr = 0 then
      let addr ← balloc sb
      logWrite ind (a.setLe (4 * (bn - nDirect)) 4 addr)
      return addr
    else return addr
  else throw "bmap: out of range"

def freeAddr (ip : Fin nInode) (k : Fin (nDirect + 1)) : FsM Unit := do
  let addr := (← inode ip).addrs k
  if addr = 0 then return
  else
    bfree sb addr
    setAddr ip k 0

def freeEntry (a : Block) (j : ℕ) : FsM Unit :=
  if a.le (4 * j) 4 = 0 then return else bfree sb (a.le (4 * j) 4)

def freeIndirect (ip : Fin nInode) : FsM Unit := do
  let ind := (← inode ip).addrs (Fin.last nDirect)
  if ind = 0 then return
  else
    let a ← bread ind
    (List.range nIndirect).forM (freeEntry sb a)
    freeAddr sb ip (Fin.last nDirect)

def itrunc (ip : Fin nInode) : FsM Unit := do
  (List.finRange nDirect).forM (fun k => freeAddr sb ip k.castSucc)
  freeIndirect sb ip
  let i ← inode ip
  setInode ip (i.withSize 0)
  iupdate sb ip

def ifree (ip : Fin nInode) : FsM Unit := do
  itrunc sb ip
  let i ← inode ip
  setInode ip { i with type := 0 }
  iupdate sb ip
  let i ← inode ip
  setInode ip { i with valid := false }

def iput (ip : Fin nInode) : FsM Unit := do
  let i ← inode ip
  (if i.ref = 1 ∧ i.valid ∧ i.nlink = 0 then ifree sb ip else pure ())
  let i ← inode ip
  setInode ip { i with ref := i.ref - 1 }

def readLoop (ip : Fin nInode) (fails : ℕ → Bool) : ℕ → ℕ → ℕ → ℕ → List UInt8 → FsM (ℤ × List UInt8)
  | 0, _, _, tot, acc => return (tot, acc)
  | fuel + 1, off, n, tot, acc => do
    if tot < n then
      let bp ← bread (← bmap sb ip (off / bSize))
      let m := min (n - tot) (bSize - off % bSize)
      if fails tot then return (-1, acc)
      else
        readLoop ip fails fuel (off + m) n (tot + m)
          (acc ++ (List.range m).map (fun i => bp.get (off % bSize + i)))
    else return (tot, acc)

def readi (ip : Fin nInode) (fails : ℕ → Bool) (off n : ℕ) : FsM (ℤ × List UInt8) := do
  let size := (← inode ip).size
  if off > size ∨ (off + n) % 2 ^ 32 < off then return (0, [])
  else
    let n := if (off + n) % 2 ^ 32 > size then size - off else n
    readLoop sb ip fails n off n 0 []

/-- The source of a `writei`: its bytes, and for the piece at `src + tot` how many bytes are copied
before `either_copyin` fails, if it does. -/
structure Src where
  byte : ℕ → UInt8
  fault : ℕ → Option ℕ

def Src.kernel (byte : ℕ → UInt8) : Src := ⟨byte, fun _ => none⟩

def writeLoop (ip : Fin nInode) (src : Src) : ℕ → ℕ → ℕ → ℕ → FsM (ℕ × ℕ)
  | 0, off, _, tot => return (off, tot)
  | fuel + 1, off, n, tot => do
    if tot < n then
      let b ← bmap sb ip (off / bSize)
      let bp ← bread b
      let m := min (n - tot) (bSize - off % bSize)
      match src.fault tot with
      | some k =>
        scribble b (bp.patch (off % bSize) (min k m) (fun i => src.byte (tot + i)))
        return (off, tot)
      | none =>
        logWrite b (bp.patch (off % bSize) m (fun i => src.byte (tot + i)))
        writeLoop ip src fuel (off + m) n (tot + m)
    else return (off, tot)

def growTo (ip : Fin nInode) (off : ℕ) : FsM Unit := do
  let i ← inode ip
  if off > i.size then setInode ip (i.withSize off) else return

def writei (ip : Fin nInode) (src : Src) (off n : ℕ) : FsM ℤ := do
  let size := (← inode ip).size
  if off > size ∨ (off + n) % 2 ^ 32 < off then return -1
  else if (off + n) % 2 ^ 32 > maxFile * bSize then return -1
  else
    let (off, tot) ← writeLoop sb ip src n off n 0
    growTo ip off
    iupdate sb ip
    return tot

end Xv6.Fs
