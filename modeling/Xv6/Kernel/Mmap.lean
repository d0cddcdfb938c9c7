import Xv6.Kernel.Files

namespace Xv6.Kernel

open Lib Vm

variable (sys : Sys)

def findVma (vmas : Fin nVma → Option Vma) (test : Vma → Bool) : Option (Fin nVma × Vma) :=
  (List.finRange nVma).findSome? (fun k => (vmas k).bind (fun v => if test v then some (k, v) else none))

def Vma.fileOff (v : Vma) (va : ℕ) : ℕ := (v.offset + va + 2 ^ 64 - v.addr) % 2 ^ 32

def Vma.denies (v : Vma) (cause : ℕ) : Bool :=
  cause = 12 && !protExec v.prot || cause = 13 && !protRead v.prot || cause = 15 && !protWrite v.prot

theorem Vma.leaf (v : Vma) :
    (protRead v.prot || protWrite v.prot || protWrite v.prot || protExec v.prot) = true := by
  have hall : ∀ p < 8, 0 < p →
      (protRead p || protWrite p || protWrite p || protExec p) = true := by decide
  exact hall v.prot v.prots.2 v.prots.1

def Vma.pte (v : Vma) (pa : ℕ) : Pte :=
  ⟨pa, protRead v.prot || protWrite v.prot, protWrite v.prot, protExec v.prot, true, v.leaf⟩

def vmaFault (faultva cause : ℕ) : KM ℤ := do
  let p ← myproc
  match findVma p.vmas (fun v => v.addr ≤ faultva && faultva < (v.addr + v.length) % 2 ^ 64) with
  | none => return -1
  | some (_, v) =>
    if v.denies cause then return -1
    else
      let va := pgRoundDown faultva
      let found ← walk .own va false
      let pte ← pteAt .own va
      if found && pte.isSome then return -1
      else
        match ← kalloc with
        | none => return -1
        | some mem =>
          fillPage mem (fun _ => 0)
          let ip ← .read (fun x => (x.1.ftable v.file).ip)
          fsCall (Fs.ilock sys.sb ip)
          let (n, data) ← fsCall (Fs.readi sys.sb ip (fun _ => false) (v.fileOff va) pgSize)
          storeBytes mem 0 data.length (fun i => data.getD i 0)
          if n < 0 then
            kfree sys mem (·.dropPage mem)
            return -1
          else
            let mapped ← mappages .own va pgSize mem v.pte
            if mapped then return 0
            else
              kfree sys mem (·.dropPage mem)
              return -1

def Vma.writesBack (v : Vma) : Bool := v.flags = mapShared && protWrite v.prot

def writeBack (v : Vma) (va pa : ℕ) : KM Bool := do
  let ip ← .read (fun x => (x.1.ftable v.file).ip)
  fsCall (Fs.ilock sys.sb ip)
  let n ← fsStep (fun x => Fs.writei sys.sb ip (.kernel (x.1.mem pa).get) (v.fileOff va) pgSize)
  return n = (pgSize : ℤ)

def vmaUnmapLoop (v : Vma) : ℕ → ℕ → ℤ → KM ℤ
  | 0, _, error => return error
  | n + 1, va, error => do
    let found ← walk .own va false
    let pte ← pteAt .own va
    match found, pte with
    | true, some pte =>
      let written ← if v.writesBack then writeBack sys v va pte.pa else pure true
      uvmunmap sys .own va 1 true
      vmaUnmapLoop v n (va + pgSize) (if written then error else -1)
    | _, _ => vmaUnmapLoop v n (va + pgSize) error

def Vma.dropFirst (v : Vma) (length : ℕ) : Vma :=
  { v with addr := v.addr + length, offset := v.offset + length, length := v.length - length }

def Vma.dropLast (v : Vma) (length : ℕ) : Vma := { v with length := v.length - length }

def vmaUnmap (addr length : ℕ) : KM ℤ := do
  if addr % pgSize ≠ 0 ∨ length = 0 ∨ length > maxVa then return -1
  else
    let len := pgRoundUp length
    let last := (addr + len) % 2 ^ 64
    if last < addr then return -1
    else
      let p ← myproc
      match findVma p.vmas (fun v => v.addr ≤ addr && last ≤ (v.addr + v.length) % 2 ^ 64) with
      | none => return -1
      | some (k, v) =>
        if addr ≠ v.addr ∧ last ≠ (v.addr + v.length) % 2 ^ 64 then return -1
        else
          let error ← vmaUnmapLoop sys v ((last - addr) / pgSize) addr 0
          (if addr = v.addr ∧ last = (v.addr + v.length) % 2 ^ 64 then
            fileclose sys v.file (·.mapProc (·.setVma k none))
          else if addr = v.addr then
            modifyLocal (·.mapProc (·.setVma k (some (v.dropFirst len))))
          else
            modifyLocal (·.mapProc (·.setVma k (some (v.dropLast len)))))
          return error

def vmaUnmapAll : KM Unit :=
  (List.finRange nVma).forM (fun k => do
    let p ← myproc
    match p.vmas k with
    | some v =>
      let _ ← vmaUnmap sys v.addr v.length
      return
    | none => return)

def Proc.freeVma (p : Proc) : Option (Fin nVma) :=
  (List.finRange nVma).find? (fun k => (p.vmas k).isNone)

def Proc.lowest (p : Proc) : ℕ :=
  (List.finRange nVma).foldl (fun low k => match p.vmas k with
    | some v => if v.addr < low then v.addr else low
    | none => low) Vm.trapframe

def sysMmap (requested length prot flags fd offset : UInt64) : KM ℤ :=
  .step (fun x =>
    let p := x.2.proc
    match p.argfd fd with
    | none => .ok (-1, x)
    | some (_, f) =>
      let file := x.1.ftable f
      let prot := prot.toNat % 2 ^ 32
      let flags := flags.toNat % 2 ^ 32
      if h : requested = 0 ∧ offset = 0 ∧ length.toNat ≠ 0 ∧ length.toNat ≤ maxVa ∧
          (flags = mapShared ∨ flags = mapPrivate) ∧ (0 < prot ∧ prot < 8) ∧
          file.type = .inode ∧ file.readable ∧ ¬ (flags = mapShared ∧ protWrite prot ∧ ¬ file.writable) then
        let len := pgRoundUp length.toNat
        let lowest := p.lowest
        match p.freeVma with
        | none => .ok (-1, x)
        | some k =>
          if len > lowest ∨ lowest - len < pgRoundUp p.sz then .ok (-1, x)
          else if file.ref < 1 then .error (.kernel "filedup")
          else
            .ok (((lowest - len : ℕ) : ℤ), x.1.setFile f { file with ref := file.ref + 1 },
              x.2.mapProc (·.setVma k (some ⟨lowest - len, len, prot, flags, f, 0, h.2.2.2.2.2.1⟩)))
      else .ok (-1, x))

def sysMunmap (addr length : UInt64) : KM ℤ :=
  if length = 0 then return -1 else vmaUnmap sys addr.toNat length.toNat

end Xv6.Kernel
