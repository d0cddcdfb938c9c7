import Mathlib.Data.Nat.Notation
import Mathlib.Logic.Function.Basic
import Mathlib.Tactic.SplitIfs
import Xv6.Lib.Transition

namespace Xv6.Interrupts

open Function (update)

inductive Lk (T L : Type)
  | proc (p : T)
  | other (l : L)
  deriving DecidableEq

structure Pend (T L : Type) where
  old : Bool
  lk : Option (Lk T L)

structure Frame (T L : Type) where
  ie : Bool
  pend : Option (Pend T L)

/-- A CPU with `noff`, `intena` and the bit `ie` that enables interrupts. `pushed` counts the calls of `push_off` of its thread
apart from those of `acquire`, and `held` are the locks whose `cpu` field is this CPU. -/
structure Cpu (T L : Type) where
  noff : ℕ
  intena : Bool
  ie : Bool
  cur : Option T
  pend : Option (Pend T L)
  spin : Option (Lk T L)
  pushed : ℕ
  held : List (Lk T L)

inductive Ctx
  | fresh
  | saved (intena : Bool)
  | running
  deriving DecidableEq

inductive Who (C T : Type)
  | scheduler (c : C)
  | proc (p : T)
  deriving DecidableEq

/-- `traps` are the kernel traps that a thread is in; `outer p` says whether interrupts were enabled at the outermost `push_off`. -/
structure St (C T L : Type) where
  cpu : C → Cpu T L
  lock : Lk T L → Option C
  ctx : T → Ctx
  traps : Who C T → List (Frame T L)
  outer : T → Bool
  first : T → Bool

def boot (C T L : Type) : St C T L where
  cpu _ := ⟨0, false, false, none, none, none, 0, []⟩
  lock _ := none
  ctx _ := .fresh
  traps _ := []
  outer _ := false
  first _ := true

section

variable {C T L : Type}

def Cpu.pushOff (x : Cpu T L) (old : Bool) : Cpu T L :=
  { x with
    ie := false
    intena := if x.noff = 0 then old else x.intena
    noff := x.noff + 1 }

def Cpu.popOff (x : Cpu T L) : Except String (Cpu T L) :=
  if x.ie then .error "pop_off - interruptible"
  else if x.noff < 1 then .error "pop_off"
  else .ok { x with
    noff := x.noff - 1
    ie := if x.noff - 1 = 0 ∧ x.intena = true then true else x.ie }

def Cpu.free (x : Cpu T L) : Prop := x.pend.isNone = true ∧ x.spin.isNone = true

instance Cpu.decidableFree (x : Cpu T L) : Decidable x.free := inferInstanceAs (Decidable (_ ∧ _))

namespace St

variable [DecidableEq C] [DecidableEq T] [DecidableEq L] (s : St C T L) (c : C)

def who : Who C T :=
  match (s.cpu c).cur with
  | none => .scheduler c
  | some p => .proc p

def setCpu (x : Cpu T L) : St C T L := { s with cpu := update s.cpu c x }

def mark (f : T → Bool) (b : Bool) : T → Bool :=
  match (s.cpu c).cur with
  | none => f
  | some p => update f p b

def intrGet (lk : Option (Lk T L)) : Option (St C T L) :=
  if (s.cpu c).free then some (s.setCpu c { s.cpu c with pend := some ⟨(s.cpu c).ie, lk⟩ }) else none

def pushOff : Option (St C T L) :=
  match (s.cpu c).pend with
  | none => none
  | some q =>
    let x := { (s.cpu c).pushOff q.old with pend := none }
    let outer := if (s.cpu c).noff = 0 then s.mark c s.outer q.old else s.outer
    match q.lk with
    | none => some { s.setCpu c { x with pushed := x.pushed + 1 } with outer := outer }
    | some lk => if s.lock lk = some c then none else some { s.setCpu c { x with spin := some lk } with outer := outer }

def take : Option (St C T L) :=
  match (s.cpu c).spin with
  | none => none
  | some lk =>
    if s.lock lk = none then some { s.setCpu c { s.cpu c with spin := none, held := lk :: (s.cpu c).held } with
      lock := update s.lock lk (some c) }
    else none

def popOff : Except String (St C T L) := do
  let x ← (s.cpu c).popOff
  return { s.setCpu c x with first := if x.noff = 0 then s.mark c s.first false else s.first }

def release (lk : Lk T L) : Except String (St C T L) :=
  if s.lock lk = some c then
    popOff { s.setCpu c { s.cpu c with held := (s.cpu c).held.erase lk } with lock := update s.lock lk none } c
  else .error "release"

def sched : Except String (St C T L) :=
  match (s.cpu c).cur with
  | none => .error "sched"
  | some p =>
    if s.lock (.proc p) ≠ some c then .error "sched p->lock"
    else if (s.cpu c).noff ≠ 1 then .error "sched locks"
    else if (s.cpu c).ie then .error "sched interruptible"
    else .ok { s.setCpu c { s.cpu c with cur := none } with
      ctx := update s.ctx p (.saved (s.cpu c).intena) }

def resume (p : T) : Cpu T L :=
  match s.ctx p with
  | .saved b => { s.cpu c with cur := some p, intena := b }
  | _ => { s.cpu c with cur := some p }

def swtch (p : T) : Option (St C T L) :=
  if (s.cpu c).free ∧ (s.cpu c).cur.isNone = true ∧ s.lock (.proc p) = some c ∧ (s.cpu c).noff = 1 ∧ s.ctx p ≠ .running then
    some { s.setCpu c (s.resume c p) with ctx := update s.ctx p .running }
  else none

def interrupt : Option (St C T L) :=
  if (s.cpu c).ie then some { s.setCpu c { s.cpu c with ie := false, pend := none } with
    traps := update s.traps (s.who c) (⟨(s.cpu c).ie, (s.cpu c).pend⟩ :: s.traps (s.who c)) }
  else none

def sret : Option (St C T L) :=
  match s.traps (s.who c) with
  | [] => none
  | f :: fs =>
    if (s.cpu c).free ∧ (s.cpu c).noff = 0 then some { s.setCpu c { s.cpu c with ie := f.ie, pend := f.pend } with
      traps := update s.traps (s.who c) fs }
    else none

def intrSet (b : Bool) : Option (St C T L) :=
  if (s.cpu c).free ∧ (s.cpu c).noff = 0 then some (s.setCpu c { s.cpu c with ie := b }) else none

def allocproc (p : T) : Option (St C T L) :=
  if s.lock (.proc p) = some c ∧ s.ctx p ≠ .running then some { s with
    ctx := update s.ctx p .fresh
    traps := update s.traps (.proc p) []
    first := update s.first p true }
  else none

end St

end

inductive Action (C T L : Type)
  | intrGet (c : C) (lk : Option (Lk T L))
  | pushOff (c : C)
  | take (c : C)
  | popOff (c : C)
  | release (c : C) (lk : Lk T L)
  | sched (c : C)
  | swtch (c : C) (p : T)
  | interrupt (c : C)
  | sret (c : C)
  | intrSet (c : C) (b : Bool)
  | allocproc (c : C) (p : T)

def step {C T L : Type} [DecidableEq C] [DecidableEq T] [DecidableEq L] (s : St C T L) : Action C T L → Option (St C T L)
  | .intrGet c lk => s.intrGet c lk
  | .pushOff c => s.pushOff c
  | .take c => s.take c
  | .popOff c =>
    if (s.cpu c).free ∧ 0 < (s.cpu c).pushed then
      ((s.setCpu c { s.cpu c with pushed := (s.cpu c).pushed - 1 }).popOff c).toOption
    else none
  | .release c lk => if (s.cpu c).free then (s.release c lk).toOption else none
  | .sched c => if (s.cpu c).free then (s.sched c).toOption else none
  | .swtch c p => s.swtch c p
  | .interrupt c => s.interrupt c
  | .sret c => s.sret c
  | .intrSet c b => s.intrSet c b
  | .allocproc c p => s.allocproc c p

end Xv6.Interrupts
