import Mathlib.Data.List.FinRange
import Xv6.Lib.Doubly
import Xv6.Lib.Transition

namespace Xv6.Bio

open Lib.Doubly
open Function (update)

/-- The buffer cache. In the links `none` is `bcache.head`; `leaving i` are the processes in `brelse` behind `releasesleep`, and
`stamp i` is the time of the last `brelse` to zero. -/
structure St (n : ℕ) (P : Type) where
  links : Links (Option (Fin n))
  valid : Fin n → Bool
  dev : Fin n → ℕ
  blockno : Fin n → ℕ
  refcnt : Fin n → ℕ
  lock : Fin n → Option P
  waiters : Fin n → List P
  leaving : Fin n → List P
  pins : Fin n → ℕ
  stamp : Fin n → ℕ
  clock : ℕ

def binitLinks {n : ℕ} (l : List (Fin n)) : Links (Option (Fin n)) :=
  l.foldl (fun L i => L.push none (some i)) ⟨fun _ => none, fun _ => none⟩

def binit (n : ℕ) (P : Type) : St n P where
  links := binitLinks (List.finRange n)
  valid _ := false
  dev _ := 0
  blockno _ := 0
  refcnt _ := 0
  lock _ := none
  waiters _ := []
  leaving _ := []
  pins _ := 0
  stamp i := i
  clock := n

def search {n : ℕ} (move : Option (Fin n) → Option (Fin n)) (test : Fin n → Bool) : ℕ → Option (Fin n) → Option (Fin n)
  | 0, _ => none
  | _ + 1, none => none
  | fuel + 1, some i => if test i then some i else search move test fuel (move (some i))

namespace St

variable {n : ℕ} {P : Type} (s : St n P)

def cached (dev blockno : ℕ) : Option (Fin n) :=
  search s.links.next (fun i => s.dev i = dev ∧ s.blockno i = blockno) (n + 1) (s.links.next none)

def recycled : Option (Fin n) :=
  search s.links.prev (fun i => s.refcnt i = 0) (n + 1) (s.links.prev none)

def bget (p : P) (dev blockno : ℕ) : Option (St n P) :=
  match s.cached dev blockno with
  | some i => some { s with
      refcnt := update s.refcnt i (s.refcnt i + 1)
      waiters := update s.waiters i (p :: s.waiters i) }
  | none =>
    match s.recycled with
    | none => none
    | some i => some { s with
        dev := update s.dev i dev
        blockno := update s.blockno i blockno
        valid := update s.valid i false
        refcnt := update s.refcnt i 1
        waiters := update s.waiters i (p :: s.waiters i) }

def acquiresleep [DecidableEq P] (p : P) (i : Fin n) : Option (St n P) :=
  if p ∈ s.waiters i ∧ s.lock i = none then some { s with
    lock := update s.lock i (some p)
    waiters := update s.waiters i ((s.waiters i).erase p) }
  else none

def releasesleep [DecidableEq P] (p : P) (i : Fin n) : Option (St n P) :=
  if s.lock i = some p then some { s with
    lock := update s.lock i none
    leaving := update s.leaving i (p :: s.leaving i) }
  else none

def moveFront (i : Fin n) : St n P :=
  { s with
    links := (s.links.unlink (some i)).push none (some i)
    stamp := update s.stamp i s.clock
    clock := s.clock + 1 }

def brelse [DecidableEq P] (p : P) (i : Fin n) : Option (St n P) :=
  if p ∈ s.leaving i then
    let t := { s with
      refcnt := update s.refcnt i (s.refcnt i - 1)
      leaving := update s.leaving i ((s.leaving i).erase p) }
    some (if t.refcnt i = 0 then t.moveFront i else t)
  else none

def bpin (i : Fin n) : St n P :=
  { s with
    refcnt := update s.refcnt i (s.refcnt i + 1)
    pins := update s.pins i (s.pins i + 1) }

def bunpin [DecidableEq P] (p : P) (i : Fin n) : Option (St n P) :=
  if s.lock i = some p ∧ 0 < s.pins i then some { s with
    refcnt := update s.refcnt i (s.refcnt i - 1)
    pins := update s.pins i (s.pins i - 1) }
  else none

end St

inductive Action (n : ℕ) (P : Type)
  | bget (p : P) (dev blockno : ℕ)
  | acquiresleep (p : P) (i : Fin n)
  | releasesleep (p : P) (i : Fin n)
  | brelse (p : P) (i : Fin n)
  | bpin (i : Fin n)
  | bunpin (p : P) (i : Fin n)

def step {n : ℕ} {P : Type} [DecidableEq P] (s : St n P) : Action n P → Option (St n P)
  | .bget p dev blockno => s.bget p dev blockno
  | .acquiresleep p i => s.acquiresleep p i
  | .releasesleep p i => s.releasesleep p i
  | .brelse p i => s.brelse p i
  | .bpin i => some (s.bpin i)
  | .bunpin p i => s.bunpin p i

end Xv6.Bio
