import Mathlib.Data.Fintype.Basic
import Mathlib.Data.List.FinRange
import Xv6.Lib.Ring

namespace Xv6.Disk

open Lib
open Function (update)

def num : ℕ := 8

instance : NeZero num := ⟨by decide⟩

def idxMod : ℕ := 2 ^ 16

inductive Addr (P : Type)
  | null
  | op (i : Fin num)
  | data (p : P)
  | status (i : Fin num)

structure Desc (P : Type) where
  addr : Addr P
  hasNext : Bool
  write : Bool
  next : ℕ

def Desc.zero {P : Type} : Desc P := ⟨.null, false, false, 0⟩

inductive Pc
  | idle
  | waiting
  | flight (i j k : Fin num)
  deriving DecidableEq

/-- The driver and the device, which has taken the requests in `pending`. The last three fields record the history. -/
structure St (P : Type) where
  free : Fin num → Bool
  desc : Fin num → Desc P
  info : Fin num → Option P
  status : Fin num → UInt8
  availRing : Fin num → Fin num
  availIdx : ℕ
  usedRing : Fin num → Fin num
  usedIdx : ℕ
  seenIdx : ℕ
  disk : P → Bool
  pc : P → Pc
  panicked : Option String
  taken : ℕ
  pending : List (Fin num)
  served : P → Bool
  completions : List P
  processed : List P

def St.init (P : Type) : St P where
  free _ := true
  desc _ := .zero
  info _ := none
  status _ := 0
  availRing _ := 0
  availIdx := 0
  usedRing _ := 0
  usedIdx := 0
  seenIdx := 0
  disk _ := false
  pc _ := .idle
  panicked := none
  taken := 0
  pending := []
  served _ := false
  completions := []
  processed := []

variable {P : Type} [DecidableEq P]

namespace St

def allocDesc (s : St P) : Option (St P × Fin num) :=
  match (List.finRange num).find? s.free with
  | some i => some ({ s with free := update s.free i false }, i)
  | none => none

def freeDesc (s : St P) (i : ℕ) : Except String (St P) :=
  if h : i < num then
    if s.free ⟨i, h⟩ then .error "free_desc 2"
    else .ok { s with desc := update s.desc ⟨i, h⟩ .zero, free := update s.free ⟨i, h⟩ true }
  else .error "free_desc 1"

def freeChain : ℕ → St P → ℕ → Except String (St P)
  | 0, _, _ => .error "free_chain"
  | n + 1, s, i =>
    if h : i < num then do
      let d := s.desc ⟨i, h⟩
      let t ← s.freeDesc i
      if d.hasNext then freeChain n t d.next else return t
    else .error "free_desc 1"

def alloc3Desc (s : St P) : Except String (St P × Option (Fin num × Fin num × Fin num)) :=
  match s.allocDesc with
  | none => .ok (s, none)
  | some (s₁, i) =>
    match s₁.allocDesc with
    | none => do
      let t ← s₁.freeDesc i
      return (t, none)
    | some (s₂, j) =>
      match s₂.allocDesc with
      | none => do
        let t ← s₂.freeDesc i
        let t ← t.freeDesc j
        return (t, none)
      | some (s₃, k) => .ok (s₃, some (i, j, k))

def submit (s : St P) (p : P) (write : Bool) (i j k : Fin num) : St P :=
  { s with
    desc := update (update (update s.desc i ⟨.op i, true, false, j⟩) j
      ⟨.data p, true, !write, k⟩) k ⟨.status i, false, true, 0⟩
    status := update s.status i 0xff
    disk := update s.disk p true
    info := update s.info i (some p)
    availRing := update s.availRing (slot num s.availIdx) i
    availIdx := (s.availIdx + 1) % idxMod
    pc := update s.pc p (.flight i j k)
    served := update s.served p false }

def panic (s : St P) (e : String) : St P := { s with panicked := some e }

def rw (s : St P) (p : P) (write : Bool) : St P :=
  match s.alloc3Desc with
  | .error e => s.panic e
  | .ok (t, none) => { t with pc := update t.pc p .waiting }
  | .ok (t, some (i, j, k)) => t.submit p write i j k

def finish (s : St P) (p : P) (i : Fin num) : St P :=
  match freeChain num { s with info := update s.info i none } i with
  | .error e => s.panic e
  | .ok t => { t with pc := update t.pc p .idle }

def take (s : St P) : St P :=
  { s with taken := (s.taken + 1) % idxMod, pending := s.availRing (slot num s.taken) :: s.pending }

def second (s : St P) (h : Fin num) : Desc P := s.desc (slot num (s.desc h).next)

def third (s : St P) (h : Fin num) : Desc P := s.desc (slot num (s.second h).next)

def complete (s : St P) (h : Fin num) : St P :=
  let s := match (s.second h).addr with
    | .data p => { s with served := update s.served p true, completions := s.completions ++ [p] }
    | _ => s
  { s with
    pending := s.pending.erase h
    status := match (s.third h).addr with
      | .status i => update s.status i 0
      | _ => s.status
    usedRing := update s.usedRing (slot num s.usedIdx) h
    usedIdx := (s.usedIdx + 1) % idxMod }

def intr (s : St P) : St P :=
  let id := s.usedRing (slot num s.seenIdx)
  if s.status id ≠ 0 then s.panic "virtio_disk_intr status"
  else
    match s.info id with
    | none => s.panic "virtio_disk_intr"
    | some p => { s with
        disk := update s.disk p false
        seenIdx := (s.seenIdx + 1) % idxMod
        processed := s.processed ++ [p] }

end St

inductive Act (P : Type)
  | rw (p : P) (write : Bool)
  | take
  | complete (h : Fin num)
  | intr
  | finish (p : P)

def step (s : St P) (a : Act P) : Option (St P) :=
  if s.panicked.isSome then none
  else match a with
    | .rw p write => if s.pc p = .idle ∨ s.pc p = .waiting then some (s.rw p write) else none
    | .take => if s.taken ≠ s.availIdx then some s.take else none
    | .complete h => if h ∈ s.pending then some (s.complete h) else none
    | .intr => if s.seenIdx ≠ s.usedIdx then some s.intr else none
    | .finish p =>
      match s.pc p with
      | .flight i _ _ => if s.disk p = false then some (s.finish p i) else none
      | _ => none

end Xv6.Disk
