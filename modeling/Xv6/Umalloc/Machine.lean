import Mathlib
import Xv6.Lib.Transition

namespace Xv6.Umalloc

/-- Addresses are counted in headers of 16 bytes, and 0 is the null pointer. The variable `base` is below the heap. -/
structure Layout where
  base : ℕ
  start : ℕ
  base_pos : 0 < base
  base_lt : base < start

structure St where
  ptr : ℕ → ℕ
  size : ℕ → ℕ
  freep : ℕ
  brk : ℕ
  live : List (ℕ × ℕ)

def St.init (L : Layout) : St := ⟨fun _ => 0, fun _ => 0, 0, L.start, []⟩

def headerSize : ℕ := 16

def uint (n : ℕ) : ℕ := n % 2 ^ 32

def int (n : ℕ) : ℤ := (BitVec.ofNat 32 n).toInt

namespace St

def setPtr (s : St) (a p : ℕ) : St := { s with ptr := Function.update s.ptr a p }

def setSize (s : St) (a n : ℕ) : St := { s with size := Function.update s.size a n }

def freeSearch (s : St) (bp : ℕ) : ℕ → ℕ → Option ℕ
  | 0, _ => none
  | fuel + 1, p =>
    if bp > p ∧ bp < s.ptr p then some p
    else if p ≥ s.ptr p ∧ (bp > p ∨ bp < s.ptr p) then some p
    else s.freeSearch bp fuel (s.ptr p)

def joinNext (s : St) (p bp : ℕ) : St :=
  if bp + s.size bp = s.ptr p then
    (s.setSize bp (uint (s.size bp + s.size (s.ptr p)))).setPtr bp (s.ptr (s.ptr p))
  else s.setPtr bp (s.ptr p)

def joinPrev (s : St) (p bp : ℕ) : St :=
  if p + s.size p = bp then (s.setSize p (uint (s.size p + s.size bp))).setPtr p (s.ptr bp)
  else s.setPtr p bp

def free (s : St) (fuel ap : ℕ) : Option St := do
  let bp := ap - 1
  let p ← s.freeSearch bp fuel s.freep
  return { (s.joinNext p bp).joinPrev p bp with freep := p }

def sbrk (s : St) (n : ℤ) (grant : ℕ → Bool) : Option (ℕ × St) :=
  if grant s.brk then some (s.brk, { s with brk := ((s.brk : ℤ) + n / headerSize).toNat }) else none

def morecore (s : St) (fuel nu : ℕ) (grant : ℕ → Bool) : Option (ℕ × St) :=
  let nu := if nu < 4096 then 4096 else nu
  match s.sbrk (int (nu * headerSize)) grant with
  | none => some (0, s)
  | some (hp, t) => do
    let t ← (t.setSize hp nu).free fuel (hp + 1)
    return (t.freep, t)

def take (s : St) (nunits prevp p : ℕ) : ℕ × St :=
  if s.size p = nunits then (p + 1, { s.setPtr prevp (s.ptr p) with freep := prevp })
  else
    let rest := uint (s.size p - nunits)
    (p + rest + 1, { (s.setSize p rest).setSize (p + rest) nunits with freep := prevp })

def mallocLoop (nunits : ℕ) (grant : ℕ → Bool) : ℕ → St → ℕ → ℕ → Option (ℕ × St)
  | 0, _, _, _ => none
  | fuel + 1, s, prevp, p =>
    if s.size p ≥ nunits then some (s.take nunits prevp p)
    else if p = s.freep then
      match s.morecore fuel nunits grant with
      | none => none
      | some (p, t) => if p = 0 then some (0, t) else mallocLoop nunits grant fuel t p (t.ptr p)
    else mallocLoop nunits grant fuel s p (s.ptr p)

def units (nbytes : UInt32) : ℕ := uint ((nbytes.toNat + headerSize - 1) / headerSize + 1)

def setup (L : Layout) (s : St) : St :=
  if s.freep = 0 then { (s.setPtr L.base L.base).setSize L.base 0 with freep := L.base } else s

def malloc (L : Layout) (s : St) (fuel : ℕ) (nbytes : UInt32) (grant : ℕ → Bool) : Option (ℕ × St) :=
  let s := s.setup L
  mallocLoop (units nbytes) grant fuel s s.freep (s.ptr s.freep)

end St

inductive Act
  | malloc (fuel : ℕ) (nbytes : UInt32) (grant : ℕ → Bool)
  | free (fuel ap : ℕ)

def step (L : Layout) (s : St) : Act → Option St
  | .malloc fuel nbytes grant => do
    let (ap, t) ← s.malloc L fuel nbytes grant
    return if ap = 0 then t else { t with live := (ap, nbytes.toNat) :: t.live }
  | .free fuel ap =>
    if ap ∈ s.live.map Prod.fst then do
      let t ← s.free fuel ap
      return { t with live := t.live.filter (fun x => x.1 ≠ ap) }
    else none

end Xv6.Umalloc
