import Mathlib.Data.List.FinRange
import Xv6.Kernel.State

namespace Xv6.Kernel

open Lib Vm

def popFree (x : KState) : KState :=
  match x.1.freelist with
  | [] => x
  | p :: ps => (Shared.fill { x.1 with freelist := ps } p (fun _ => 5), x.2.takePage p)

def kalloc : KM (Option ℕ) := .choose (.ret none) (.act popFree (fun x => .ret x.1.freelist.head?))

def Shared.free (s : Shared) (p : ℕ) : Shared :=
  { s with freelist := p :: s.freelist, mem := Function.update s.mem p (fun _ => 1) }

variable (sys : Sys)

def kfree (p : ℕ) (drop : Local → Local) : KM Unit :=
  if sys.InPool p then .modify (fun x => (x.1.free p, drop x.2)) else panic "kfree"

def table (t : TableRef) : KM PageTable := .read (fun x => (x.2.table t).getD (.empty 0))

def modifyLocal (f : Local → Local) : KM Unit := .modify (fun x => (x.1, f x.2))

def fillPage (p : ℕ) (data : Page) : KM Unit := .modify (fun x => (x.1.fill p data, x.2))

def descend (t : TableRef) (level va : ℕ) (alloc : Bool) : KM Bool := do
  let pt ← table t
  if pt.hasNode level va then return true
  else if alloc then
    match ← kalloc with
    | none => return false
    | some page =>
      modifyLocal (fun l => (l.mapTable t (·.link level va page)).dropPage page)
      return true
  else return false

def walk (t : TableRef) (va : ℕ) (alloc : Bool) : KM Bool := do
  if va ≥ maxVa then panic "walk"
  else
    let found ← descend t 2 va alloc
    if found then descend t 1 va alloc else return false

def pteAt (t : TableRef) (va : ℕ) : KM (Option Pte) := do return (← table t).leaf va

def walkaddr (t : TableRef) (va : ℕ) : KM (Option ℕ) := do
  if va ≥ maxVa then return none
  else
    let found ← walk t va false
    if found then
      match ← pteAt t va with
      | none => return none
      | some pte => return if pte.u then some pte.pa else none
    else return none

def Local.install (l : Local) (t : TableRef) (va : ℕ) (pte : Pte) : Local :=
  let l := l.mapTable t (·.setLeaf va (some pte))
  if va < trapframe then l.dropPage pte.pa else l

def mapLoop (t : TableRef) (perm : ℕ → Pte) : ℕ → ℕ → ℕ → KM Bool
  | 0, _, _ => return true
  | n + 1, a, pa => do
    let found ← walk t a true
    if found then
      match ← pteAt t a with
      | some _ => panic "mappages: remap"
      | none =>
        modifyLocal (·.install t a (perm pa))
        mapLoop t perm n (a + pgSize) (pa + 1)
    else return false

def mappages (t : TableRef) (va size pa : ℕ) (perm : ℕ → Pte) : KM Bool :=
  if size = 0 then panic "mappages: size"
  else mapLoop t perm ((pgRoundDown (va + size - 1) - pgRoundDown va) / pgSize + 1) (pgRoundDown va) pa

def unmapLoop (t : TableRef) (doFree : Bool) : ℕ → ℕ → KM Unit
  | 0, _ => return
  | n + 1, a => do
    let found ← walk t a false
    if found then
      match ← pteAt t a with
      | none => panic "uvmunmap: not mapped"
      | some pte =>
        (if doFree then kfree sys pte.pa (·.mapTable t (·.setLeaf a none))
          else modifyLocal (·.mapTable t (·.setLeaf a none)))
        unmapLoop t doFree n (a + pgSize)
    else panic "uvmunmap: walk"

def uvmunmap (t : TableRef) (va npages : ℕ) (doFree : Bool) : KM Unit :=
  if va % pgSize ≠ 0 then panic "uvmunmap: not aligned" else unmapLoop sys t doFree npages va

def uvmcreate : KM Bool := do
  match ← kalloc with
  | none => return false
  | some page =>
    modifyLocal (fun l => (l.setTable .new (some (.empty page))).dropPage page)
    return true

def uvmdealloc (t : TableRef) (oldsz newsz : ℕ) : KM ℕ := do
  if newsz ≥ oldsz then return oldsz
  else
    (if pgRoundUp newsz < pgRoundUp oldsz then
      uvmunmap sys t (pgRoundUp newsz) ((pgRoundUp oldsz - pgRoundUp newsz) / pgSize) true
      else pure ())
    return newsz

def userPte (pa : ℕ) : Pte := ⟨pa, true, true, true, true, rfl⟩

def allocLoop (t : TableRef) (oldsz : ℕ) : ℕ → ℕ → KM Bool
  | 0, _ => return true
  | n + 1, a => do
    match ← kalloc with
    | none =>
      let _ ← uvmdealloc sys t a oldsz
      return false
    | some mem =>
      fillPage mem (fun _ => 0)
      let mapped ← mappages t a pgSize mem userPte
      if mapped then allocLoop t oldsz n (a + pgSize)
      else
        kfree sys mem (·.dropPage mem)
        let _ ← uvmdealloc sys t a oldsz
        return false

def uvmalloc (t : TableRef) (oldsz newsz : ℕ) : KM ℕ := do
  if newsz < oldsz then return oldsz
  else
    let done ← allocLoop sys t (pgRoundUp oldsz) ((newsz - pgRoundUp oldsz + (pgSize - 1)) / pgSize)
      (pgRoundUp oldsz)
    return if done then newsz else 0

@[irreducible] def entries : List (Fin 512) := List.finRange 512

theorem mem_entries (i : Fin 512) : i ∈ entries := by
  unfold entries
  exact List.mem_finRange i

def freewalk0 (t : TableRef) (va : ℕ) : KM Unit := do
  let pt ← table t
  match pt.node0 va with
  | none => return
  | some n =>
    if entries.any (fun k => (n.entry k).isSome) then panic "freewalk: leaf"
    else kfree sys n.tag (·.mapTable t (·.setNode0 va none))

def freewalk1 (t : TableRef) (i : Fin 512) : KM Unit := do
  let pt ← table t
  match pt.entry i with
  | none => return
  | some n =>
    entries.forM (fun j => freewalk0 sys t (PageTable.vaOf i j 0))
    kfree sys n.tag (·.mapTable t (·.set i none))

def freewalk (t : TableRef) : KM Unit := do
  entries.forM (freewalk1 sys t)
  let pt ← table t
  kfree sys pt.tag (·.setTable t none)

def uvmfree (t : TableRef) (sz : ℕ) : KM Unit := do
  (if sz > 0 then uvmunmap sys t 0 (pgRoundUp sz / pgSize) true else pure ())
  freewalk sys t

def copyPage (src dst : ℕ) : KM Unit := .modify (fun x => (x.1.fill dst (x.1.mem src), x.2))

def copyLoop : ℕ → ℕ → KM Bool
  | 0, _ => return true
  | n + 1, i => do
    let found ← walk .own i false
    if found then
      match ← pteAt .own i with
      | none => panic "uvmcopy: page not present"
      | some pte =>
        match ← kalloc with
        | none =>
          uvmunmap sys .child 0 (i / pgSize) true
          return false
        | some mem =>
          copyPage pte.pa mem
          let mapped ← mappages .child i pgSize mem (fun pa => { pte with pa := pa })
          if mapped then copyLoop n (i + pgSize)
          else
            kfree sys mem (·.dropPage mem)
            uvmunmap sys .child 0 (i / pgSize) true
            return false
    else panic "uvmcopy: pte should exist"

def uvmcopy (sz : ℕ) : KM Bool := copyLoop sys ((sz + (pgSize - 1)) / pgSize) 0

def uvmclear (t : TableRef) (va : ℕ) : KM Unit := do
  let found ← walk t va false
  if found then modifyLocal (·.mapTable t (fun pt =>
    pt.setLeaf va ((pt.leaf va).map (fun pte => { pte with u := false }))))
  else panic "uvmclear"

def storeBytes (p off n : ℕ) (src : ℕ → UInt8) : KM Unit :=
  .modify (fun x => (x.1.fill p ((x.1.mem p).patch off n src), x.2))

def copyoutLoop (t : TableRef) (src : ℕ → UInt8) : ℕ → ℕ → ℕ → ℕ → KM Bool
  | 0, _, _, _ => return true
  | fuel + 1, dstva, len, tot => do
    if len = 0 then return true
    else
      match ← walkaddr t (pgRoundDown dstva) with
      | none => return false
      | some pa =>
        let off := dstva % pgSize
        let n := min (pgSize - off) len
        storeBytes pa off n (fun i => src (tot + i))
        copyoutLoop t src fuel (pgRoundDown dstva + pgSize) (len - n) (tot + n)

def copyout (t : TableRef) (dstva : ℕ) (src : ℕ → UInt8) (len : ℕ) : KM Bool :=
  copyoutLoop t src len dstva len 0

def loadBytes (p off n : ℕ) : KM (List UInt8) :=
  .read (fun x => (List.range n).map (fun i => (x.1.mem p).get (off + i)))

def copyinLoop (t : TableRef) : ℕ → ℕ → ℕ → List UInt8 → KM (Option (List UInt8))
  | 0, _, _, acc => return some acc
  | fuel + 1, srcva, len, acc => do
    if len = 0 then return some acc
    else
      match ← walkaddr t (pgRoundDown srcva) with
      | none => return none
      | some pa =>
        let off := srcva % pgSize
        let n := min (pgSize - off) len
        let data ← loadBytes pa off n
        copyinLoop t fuel (pgRoundDown srcva + pgSize) (len - n) (acc ++ data)

def copyin (t : TableRef) (srcva len : ℕ) : KM (Option (List UInt8)) := copyinLoop t len srcva len []

def copyinstrLoop (t : TableRef) : ℕ → ℕ → ℕ → List UInt8 → KM (Option (List UInt8))
  | 0, _, _, _ => return none
  | fuel + 1, srcva, max, acc => do
    if max = 0 then return none
    else
      match ← walkaddr t (pgRoundDown srcva) with
      | none => return none
      | some pa =>
        let off := srcva % pgSize
        let n := min (pgSize - off) max
        let data ← loadBytes pa off n
        if 0 ∈ data then return some (acc ++ data.takeWhile (· ≠ 0))
        else copyinstrLoop t fuel (pgRoundDown srcva + pgSize) (max - n) (acc ++ data)

def copyinstr (t : TableRef) (srcva max : ℕ) : KM (Option (List UInt8)) := copyinstrLoop t max srcva max []

end Xv6.Kernel
