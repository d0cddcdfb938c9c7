import Mathlib.Data.Nat.Bitwise
import Xv6.Lib.Hoare
import Xv6.Vm.PageTable

namespace Xv6.Vm.Ram

open Lib

def physTop : ℕ := 0x80000000 + 128 * 1024 * 1024

def pteV : ℕ := 1
def pteR : ℕ := 2
def pteW : ℕ := 4
def pteX : ℕ := 8
def pteU : ℕ := 16

def pa2pte (pa : ℕ) : ℕ := (pa >>> 12) <<< 10

def pte2pa (pte : ℕ) : ℕ := ((pte >>> 10) <<< 12) % 2 ^ 64

def pteFlags (pte : ℕ) : ℕ := pte &&& 0x3FF

/-- Physical memory, a page being 512 words. `refuse n` says that the call of `kalloc` after `n`
others finds no page, whatever this hart sees on the list. -/
structure Memory where
  word : ℕ → Fin 512 → ℕ
  freelist : List ℕ
  kend : ℕ
  refuse : ℕ → Bool
  calls : ℕ

namespace Memory

def fill (s : Memory) (page w : ℕ) : Memory :=
  { s with word := Function.update s.word page (fun _ => w) }

def store (s : Memory) (page : ℕ) (i : Fin 512) (w : ℕ) : Memory :=
  { s with word := Function.update s.word page (Function.update (s.word page) i w) }

end Memory

abbrev VmM := StateT Memory (Except String)

def kalloc : VmM (Option ℕ) := do
  let s ← get
  set { s with calls := s.calls + 1 }
  if s.refuse s.calls then return none
  else
    match s.freelist with
    | [] => return none
    | page :: rest =>
      modify (fun t => { t.fill page 0x0505050505050505 with freelist := rest })
      return some page

def Freeable (kend pa : ℕ) : Prop := pa % pgSize = 0 ∧ kend ≤ pa ∧ pa < physTop

instance (kend pa : ℕ) : Decidable (Freeable kend pa) := inferInstanceAs (Decidable (_ ∧ _ ∧ _))

def kfree (pa : ℕ) : VmM Unit := do
  let s ← get
  if Freeable s.kend pa then
    modify (fun t => { t.fill pa 0x0101010101010101 with freelist := pa :: t.freelist })
  else throw "kfree"

def walkLoop (va : ℕ) (alloc : Bool) : ℕ → ℕ → VmM (Option ℕ)
  | 0, pagetable => return some pagetable
  | level + 1, pagetable => do
    let s ← get
    let pte := s.word pagetable (px (level + 1) va)
    if pte &&& pteV ≠ 0 then walkLoop va alloc level (pte2pa pte)
    else if alloc then
      match ← kalloc with
      | none => return none
      | some page =>
        modify (·.fill page 0)
        modify (·.store pagetable (px (level + 1) va) (pa2pte page ||| pteV))
        walkLoop va alloc level page
    else return none

def walk (pagetable va : ℕ) (alloc : Bool) : VmM (Option (ℕ × Fin 512)) := do
  if va ≥ maxVa then throw "walk"
  else
    match ← walkLoop va alloc 2 pagetable with
    | none => return none
    | some page => return some (page, px 0 va)

def load (pte : ℕ × Fin 512) : VmM ℕ := do return (← get).word pte.1 pte.2

def store (pte : ℕ × Fin 512) (w : ℕ) : VmM Unit := modify (·.store pte.1 pte.2 w)

def walkaddr (pagetable va : ℕ) : VmM ℕ := do
  if va ≥ maxVa then return 0
  else
    match ← walk pagetable va false with
    | none => return 0
    | some pte =>
      let w ← load pte
      if w &&& pteV = 0 then return 0
      else if w &&& pteU = 0 then return 0
      else return pte2pa w

def mapLoop (pagetable last perm : ℕ) : ℕ → ℕ → ℕ → VmM ℤ
  | 0, _, _ => throw "walk"
  | fuel + 1, a, pa => do
    match ← walk pagetable a true with
    | none => return -1
    | some pte =>
      let w ← load pte
      if w &&& pteV ≠ 0 then throw "mappages: remap"
      else
        store pte (pa2pte pa ||| perm ||| pteV)
        if a = last then return 0
        else mapLoop pagetable last perm fuel (a + pgSize) ((pa + pgSize) % 2 ^ 64)

def mappages (pagetable va size pa perm : ℕ) : VmM ℤ :=
  if size = 0 then throw "mappages: size"
  else mapLoop pagetable (pgRoundDown ((va + size - 1) % 2 ^ 64)) perm (maxVa / pgSize + 1) (pgRoundDown va) pa

def unmapLoop (pagetable : ℕ) (doFree : Bool) : ℕ → ℕ → VmM Unit
  | 0, _ => return
  | n + 1, a => do
    match ← walk pagetable a false with
    | none => throw "uvmunmap: walk"
    | some pte =>
      let w ← load pte
      if w &&& pteV = 0 then throw "uvmunmap: not mapped"
      else if pteFlags w = pteV then throw "uvmunmap: not a leaf"
      else
        (if doFree then kfree (pte2pa w) else pure ())
        store pte 0
        unmapLoop pagetable doFree n (a + pgSize)

def uvmunmap (pagetable va npages : ℕ) (doFree : Bool) : VmM Unit :=
  if va % pgSize ≠ 0 then throw "uvmunmap: not aligned" else unmapLoop pagetable doFree npages va

def uvmcreate : VmM (Option ℕ) := do
  match ← kalloc with
  | none => return none
  | some pagetable =>
    modify (·.fill pagetable 0)
    return some pagetable

@[irreducible] def entries : List (Fin 512) := List.finRange 512

theorem mem_entries (i : Fin 512) : i ∈ entries := by
  unfold entries
  exact List.mem_finRange i

theorem nodup_entries : entries.Nodup := by
  unfold entries
  exact List.nodup_finRange 512

def freeEntry (freewalk : ℕ → VmM Unit) (pagetable : ℕ) (i : Fin 512) : VmM Unit := do
  let s ← get
  let pte := s.word pagetable i
  if pte &&& pteV ≠ 0 ∧ pte &&& (pteR ||| pteW ||| pteX) = 0 then
    freewalk (pte2pa pte)
    modify (·.store pagetable i 0)
  else if pte &&& pteV ≠ 0 then throw "freewalk: leaf"
  else pure ()

def freewalk : ℕ → ℕ → VmM Unit
  | 0, _ => throw "kernel stack"
  | depth + 1, pagetable => do
    entries.forM (freeEntry (freewalk depth) pagetable)
    kfree pagetable

def binding (s : Memory) (pagetable va : ℕ) : Option (ℕ × ℕ) :=
  match walk pagetable va false s with
  | .ok (some (page, i), _) =>
    if s.word page i &&& pteV ≠ 0 then some (pte2pa (s.word page i), pteFlags (s.word page i)) else none
  | _ => none

section Words

variable {pa perm : ℕ}

theorem pa2pte_or (h : perm < 1024) : pa2pte pa ||| perm = pa / 4096 * 1024 + perm := by
  have hlt : perm < 2 ^ 10 := h
  rw [pa2pte, ← Nat.shiftLeft_add_eq_or_of_lt hlt, Nat.shiftRight_eq_div_pow, Nat.shiftLeft_eq]

theorem or_lt (h : perm < 1024) : perm ||| pteV < 1024 :=
  Nat.or_lt_two_pow (n := 10) h (by decide)

theorem pte2pa_pte (hpa : pa < 2 ^ 64) (ha : pa % pgSize = 0) (h : perm < 1024) :
    pte2pa (pa2pte pa ||| perm) = pa := by
  rw [pa2pte_or h, pte2pa, Nat.shiftRight_eq_div_pow, Nat.shiftLeft_eq]
  simp only [pgSize] at ha
  omega

theorem pteFlags_pte (h : perm < 1024) : pteFlags (pa2pte pa ||| perm) = perm := by
  rw [pa2pte_or h, pteFlags, show (0x3FF : ℕ) = 2 ^ 10 - 1 from rfl, Nat.and_two_pow_sub_one_eq_mod]
  omega

theorem pteFlags_and {w mask : ℕ} (h : 0x3FF &&& mask = mask) : pteFlags w &&& mask = w &&& mask := by
  rw [pteFlags, Nat.and_assoc, h]

theorem and_pteV_or {w : ℕ} : (w ||| pteV) &&& pteV ≠ 0 := by
  have h : (w ||| 1) % 2 = 1 := by
    rw [Nat.or_mod_two_eq_one]
    exact Or.inr rfl
  rw [pteV, Nat.and_one_is_mod, h]
  decide

end Words

end Xv6.Vm.Ram
