import Xv6.Fs.Directory

namespace Xv6.Mkfs

open Lib Fs

abbrev sb : Superblock := mkfsSuperblock

def nbitmap : ℕ := fsSize / (bSize * 8) + 1
def ninodeblocks : ℕ := sb.ninodes / ipb + 1
def nmeta : ℕ := 2 + nlog + ninodeblocks + nbitmap

def fileType : ℕ := 2

def fsMagic : ℕ := 0x10203040

structure Mk where
  image : ℕ → Block
  length : ℕ
  freeinode : ℕ
  freeblock : ℕ

abbrev MkM := StateT Mk (Except String)

def wsect (sec : ℕ) (buf : Block) : MkM Unit :=
  modify fun s => { s with image := Function.update s.image sec buf, length := max s.length (sec + 1) }

def rsect (sec : ℕ) : MkM Block := do
  let s ← get
  if sec < s.length then return s.image sec else throw "read"

def winode (inum : ℕ) (d : Dinode) : MkM Unit := do
  let buf ← rsect (sb.iblock inum)
  wsect (sb.iblock inum) (writeDinode buf (inum % ipb) d)

def rinode (inum : ℕ) : MkM Dinode := do
  let buf ← rsect (sb.iblock inum)
  return readDinode buf (inum % ipb)

def ialloc (type : ℕ) : MkM ℕ := do
  let s ← get
  set { s with freeinode := s.freeinode + 1 }
  winode s.freeinode { Dinode.zero with type := type, nlink := 1 }
  return s.freeinode

def bump : MkM ℕ := do
  let s ← get
  set { s with freeblock := s.freeblock + 1 }
  return s.freeblock

def addrFor (din : Dinode) (k : Fin (nDirect + 1)) : MkM Dinode := do
  if din.addrs k = 0 then
    let b ← bump
    return { din with addrs := Function.update din.addrs k b }
  else return din

def blockFor (din : Dinode) (fbn : ℕ) : MkM (Dinode × ℕ) := do
  if h : fbn < nDirect then
    let din ← addrFor din ⟨fbn, Nat.lt_succ_of_lt h⟩
    return (din, din.addrs ⟨fbn, Nat.lt_succ_of_lt h⟩)
  else
    let din ← addrFor din (Fin.last nDirect)
    let indirect ← rsect (din.addrs (Fin.last nDirect))
    if indirect.le (4 * (fbn - nDirect)) 4 = 0 then
      let b ← bump
      wsect (din.addrs (Fin.last nDirect)) (indirect.setLe (4 * (fbn - nDirect)) 4 b)
      return (din, b)
    else return (din, indirect.le (4 * (fbn - nDirect)) 4)

def appendLoop : ℕ → Dinode → ℕ → List UInt8 → MkM (Dinode × ℕ)
  | 0, din, off, _ => return (din, off)
  | fuel + 1, din, off, p => do
    if p = [] then return (din, off)
    else if off / bSize < maxFile then
      let (din, x) ← blockFor din (off / bSize)
      let n1 := min p.length ((off / bSize + 1) * bSize - off)
      let buf ← rsect x
      wsect x (buf.patch (off - off / bSize * bSize) n1 (fun i => p.getD i 0))
      appendLoop fuel din (off + n1) (p.drop n1)
    else throw "fbn < MAXFILE"

def iappend (inum : ℕ) (p : List UInt8) : MkM Unit := do
  let din ← rinode inum
  let (din, off) ← appendLoop p.length din din.size p
  winode inum { din with size := off }

def bits (used : ℕ) : Block := (List.range used).foldl Bitmap.set (fun _ => 0)

def balloc (used : ℕ) : MkM Unit :=
  if used < bSize * 8 then wsect sb.bmapstart (bits used) else throw "used < BSIZE*8"

def dirent (inum : ℕ) (name : List UInt8) : List UInt8 :=
  (List.range 2).map (fun k => digit inum k) ++ strncpy dirSiz (fun k => name.getD k 0)

structure File where
  path : List UInt8
  reads : Option (List (List UInt8))

def userDir : List UInt8 := [117, 115, 101, 114, 47]

def slash : UInt8 := 47
def underscore : UInt8 := 95

def shortname (path : List UInt8) : List UInt8 :=
  if userDir <+: path then path.drop userDir.length else path

def entryName (short : List UInt8) : List UInt8 := if short.head? = some underscore then short.drop 1 else short

def addFile (f : File) : MkM Unit :=
  if slash ∈ shortname f.path then throw "index(shortname, '/') == 0"
  else match f.reads with
    | none => throw "open"
    | some reads => do
      let inum ← ialloc fileType
      iappend rootIno (dirent inum (entryName (shortname f.path)))
      reads.forM (iappend inum)

def superblock : Block :=
  [fsMagic, sb.size, sb.nblocks, sb.ninodes, nlog, 2, sb.inodestart, sb.bmapstart].zipIdx.foldl
    (fun b v => b.setLe (4 * v.2) 4 v.1) (fun _ => 0)

def mkfs (files : List File) : MkM Unit := do
  (List.range fsSize).forM (fun i => wsect i (fun _ => 0))
  wsect 1 superblock
  let rootino ← ialloc dirType
  if rootino ≠ rootIno then throw "rootino == ROOTINO"
  else
    iappend rootIno (dirent rootIno [46])
    iappend rootIno (dirent rootIno [46, 46])
    files.forM addFile
    let din ← rinode rootIno
    winode rootIno { din with size := (din.size / bSize + 1) * bSize }
    balloc (← get).freeblock

attribute [irreducible] mkfs

def start (image : ℕ → Block) : Mk := ⟨image, 0, 1, nmeta⟩

end Xv6.Mkfs
