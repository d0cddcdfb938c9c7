import Xv6.Kernel.Calls

namespace Xv6.Kernel

open Lib Vm

variable (sys : Sys)

def readiLoop (ip : Fin nInode) : ℕ → ℕ → ℕ → ℕ → ℕ → KM ℤ
  | 0, _, _, _, tot => return tot
  | fuel + 1, dst, off, n, tot => do
    if tot < n then
      let bp ← fsCall (do let b ← Fs.bmap sys.sb ip (off / bSize); Fs.bread b)
      let m := min (n - tot) (bSize - off % bSize)
      let copied ← copyout .own dst (fun i => bp.get (off % bSize + i)) m
      if copied then readiLoop ip fuel (dst + m) (off + m) n (tot + m) else return -1
    else return tot

def readi (ip : Fin nInode) (dst off n : ℕ) : KM ℤ := do
  let size ← .read (fun x => (x.1.fs.itable ip).size)
  if off > size ∨ (off + n) % 2 ^ 32 < off then return 0
  else
    let n := if (off + n) % 2 ^ 32 > size then size - off else n
    readiLoop sys ip n dst off n 0

def deliver : List UInt8 → ℕ → KM ℕ
  | [], _ => return 0
  | b :: bs, addr => do
    let copied ← copyout .own addr (fun _ => b) 1
    if copied then do
      let n ← deliver bs (addr + 1)
      return n + 1
    else return 0

def console : ℕ := 1

def fileread (f : Fin nFile) (off : ℕ) (input : List UInt8) (addr n : ℕ) : KM ℤ := do
  let file ← .read (fun x => x.1.ftable f)
  if !file.readable then return -1
  else
    -- `n` is an `int`, and a `uint` in `readi`
    let limit := if n < 2 ^ 31 then n else 0
    match file.type with
    | .pipe => return (← deliver (input.take limit) addr : ℕ)
    | .device => do
      let ip ← .read (fun x => x.1.fs.itable file.ip)
      if ip.major = console then return (← deliver (input.take limit) addr : ℕ) else return -1
    | .inode => do
      fsCall (Fs.ilock sys.sb file.ip)
      readi sys file.ip addr off n
    | .none => panic "fileread"

def sysRead (reg : UInt64) (off : ℕ) (input : List UInt8) (addr n : UInt64) : KM ℤ := do
  let p ← myproc
  match p.argfd reg with
  | none => return -1
  | some (_, f) => fileread sys f off input addr.toNat (n.toNat % 2 ^ 32)

def statSize : ℕ := 24

def stati (ip : Fs.Inode) (stack : ℕ → UInt8) (i : ℕ) : UInt8 :=
  if i < 4 then UInt8.ofNat (rootDev / 256 ^ i)
  else if i < 8 then UInt8.ofNat (ip.inum / 256 ^ (i - 4))
  else if i < 10 then UInt8.ofNat (ip.type / 256 ^ (i - 8))
  else if i < 12 then UInt8.ofNat (ip.nlink / 256 ^ (i - 10))
  else if i < 16 then stack i
  else UInt8.ofNat (ip.size / 256 ^ (i - 16))

def filestat (f : Fin nFile) (stack : ℕ → UInt8) (addr : ℕ) : KM ℤ := do
  let file ← .read (fun x => x.1.ftable f)
  if file.type = .inode ∨ file.type = .device then
    fsCall (Fs.ilock sys.sb file.ip)
    let ip ← .read (fun x => x.1.fs.itable file.ip)
    let copied ← copyout .own addr (stati ip stack) statSize
    return if copied then 0 else -1
  else return -1

def sysFstat (reg : UInt64) (stack : ℕ → UInt8) (addr : UInt64) : KM ℤ := do
  let p ← myproc
  match p.argfd reg with
  | none => return -1
  | some (_, f) => filestat sys f stack addr.toNat

end Xv6.Kernel
