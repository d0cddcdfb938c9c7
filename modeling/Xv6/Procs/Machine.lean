import Mathlib.Data.Int.Notation
import Mathlib.Data.List.FinRange
import Mathlib.Logic.Function.Basic
import Mathlib.Tactic.SplitIfs
import Xv6.Kernel.State
import Xv6.Lib.Transition

namespace Xv6.Procs

open Kernel (ProcState)
open Function (update)

inductive Chan (n : ℕ) (Ch : Type)
  | proc (p : Fin n)
  | other (ch : Ch)
  deriving DecidableEq

/-- Where a process stands. A step is a section of code under one `p->lock`, or an operation on `wait_lock`. -/
inductive Pc (n : ℕ)
  | dead
  | free
  | asleep
  | alloc (todo : List (Fin n))
  | forkParent (q : Fin n)
  | forkSet (q : Fin n)
  | forkState (q : Fin n)
  | reparent (status : ℤ) (todo : List (Fin n))
  | wakeup (status : ℤ) (chan : Option (Fin n)) (todo : List (Fin n)) (rest : Option (List (Fin n)))
  | exitState (status : ℤ)
  | waitScan (havekids : Bool) (todo : List (Fin n))
  | waitDone
  | waitSleep
  | waitAgain
  | kill (pid : ℕ) (todo : List (Fin n))

structure Reap (n : ℕ) where
  parent : Fin n
  slot : Fin n
  life : ℕ
  pid : ℕ
  status : ℤ

structure St (n : ℕ) (Ch : Type) where
  state : Fin n → ProcState
  parent : Fin n → Option (Fin n)
  pid : Fin n → ℕ
  xstate : Fin n → ℤ
  killed : Fin n → Bool
  chan : Fin n → Option (Chan n Ch)
  nextpid : ℕ
  waitLock : Option (Fin n)
  pc : Fin n → Pc n
  life : Fin n → ℕ
  reaped : List (Reap n)

inductive Call
  | fork
  | exit (status : ℤ)
  | wait
  | kill (pid : ℕ)

inductive Action (n : ℕ) (Ch : Type)
  | run (p : Fin n)
  | yield (p : Fin n)
  | sleep (p : Fin n) (ch : Ch)
  | wake (q : Fin n) (ch : Ch)
  | call (p : Fin n) (f : Call)
  | next (p : Fin n) (ok : Bool)

variable {n : ℕ} {Ch : Type}

def Pc.holds : Pc n → Bool
  | .forkSet _ | .reparent _ _ | .wakeup _ _ _ _ | .exitState _ | .waitScan _ _ | .waitDone => true
  | _ => false

namespace St

variable (s : St n Ch) (p q : Fin n)

def goto (d : Pc n) : St n Ch := { s with pc := update s.pc p d }

def acquire (d : Pc n) : Option (St n Ch) :=
  if s.waitLock = none then some { s with waitLock := some p, pc := update s.pc p d } else none

def release (d : Pc n) : St n Ch := { s with waitLock := none, pc := update s.pc p d }

def freeproc : St n Ch :=
  { s with
    state := update s.state q .unused
    pid := update s.pid q 0
    parent := update s.parent q none
    chan := update s.chan q none
    killed := update s.killed q false
    xstate := update s.xstate q 0 }

def allocproc : St n Ch :=
  { s with
    state := update s.state q .used
    pid := update s.pid q s.nextpid
    nextpid := s.nextpid + 1
    life := update s.life q (s.life q + 1) }

def wakeup [DecidableEq Ch] (chan : Option (Chan n Ch)) : St n Ch :=
  if s.state q = .sleeping ∧ s.chan q = chan then { s with state := update s.state q .runnable } else s

def killProc : St n Ch :=
  { s with
    killed := update s.killed q true
    state := if s.state q = .sleeping then update s.state q .runnable else s.state }

def reap : St n Ch :=
  { (s.freeproc q).goto p .waitDone with reaped := ⟨p, q, s.life q, s.pid q, s.xstate q⟩ :: s.reaped }

def call (init : Fin n) : Call → Option (St n Ch)
  | .fork => some (s.goto p (.alloc (List.finRange n)))
  | .exit status => if p = init then none else s.acquire p (.reparent status (List.finRange n))
  | .wait => s.acquire p (.waitScan false (List.finRange n))
  | .kill pid => some (s.goto p (.kill pid (List.finRange n)))

def next [DecidableEq Ch] (init : Fin n) (ok : Bool) : Option (St n Ch) :=
  match s.pc p with
  | .dead | .free => none
  | .asleep => some { s.goto p .free with chan := update s.chan p none }
  | .alloc [] => some (s.goto p .free)
  | .alloc (q :: todo) =>
    if s.state q = .unused then
      if ok then some ((s.allocproc q).goto p (.forkParent q))
      else some (((s.allocproc q).freeproc q).goto p .free)
    else some (s.goto p (.alloc todo))
  | .forkParent q => s.acquire p (.forkSet q)
  | .forkSet q => some { s.release p (.forkState q) with parent := update s.parent q (some p) }
  | .forkState q => some { s with
      state := update s.state q .runnable
      pc := update (update s.pc q .free) p .free }
  | .reparent status [] => some (s.goto p (.wakeup status (s.parent p) (List.finRange n) none))
  | .reparent status (q :: todo) =>
    if s.parent q = some p then
      some { s.goto p (.wakeup status (some init) (List.finRange n) (some todo)) with
        parent := update s.parent q (some init) }
    else some (s.goto p (.reparent status todo))
  | .wakeup status _ [] (some todo) => some (s.goto p (.reparent status todo))
  | .wakeup status _ [] none => some (s.goto p (.exitState status))
  | .wakeup status chan (q :: todo) rest =>
    if q = p then some (s.goto p (.wakeup status chan todo rest))
    else some ((s.wakeup q (chan.map .proc)).goto p (.wakeup status chan todo rest))
  | .exitState status => some { s.release p .dead with
      xstate := update s.xstate p status
      state := update s.state p .zombie }
  | .waitScan havekids [] =>
    if havekids = false ∨ s.killed p = true then some (s.release p .free)
    else some { s.release p .waitSleep with
      chan := update s.chan p (some (.proc p))
      state := update s.state p .sleeping }
  | .waitScan havekids (q :: todo) =>
    if s.parent q = some p then
      if s.state q = .zombie then
        if ok then some (s.reap p q) else some (s.goto p .waitDone)
      else some (s.goto p (.waitScan true todo))
    else some (s.goto p (.waitScan havekids todo))
  | .waitDone => some (s.release p .free)
  | .waitSleep => some { s.goto p .waitAgain with chan := update s.chan p none }
  | .waitAgain => s.acquire p (.waitScan false (List.finRange n))
  | .kill _ [] => some (s.goto p .free)
  | .kill pid (q :: todo) =>
    if s.pid q = pid then some ((s.killProc q).goto p .free) else some (s.goto p (.kill pid todo))

end St

def step [DecidableEq Ch] (init : Fin n) (s : St n Ch) : Action n Ch → Option (St n Ch)
  | .run p => if s.state p = .runnable then some { s with state := update s.state p .running } else none
  | .yield p => if s.state p = .running then some { s with state := update s.state p .runnable } else none
  | .sleep p ch => match s.pc p with
    | .free => if s.state p = .running then some { s.goto p .asleep with
        chan := update s.chan p (some (.other ch))
        state := update s.state p .sleeping } else none
    | _ => none
  | .wake q ch => some (s.wakeup q (some (.other ch)))
  | .call p f => match s.pc p with
    | .free => if s.state p = .running then s.call p init f else none
    | _ => none
  | .next p ok => if s.state p = .running then s.next p init ok else none

def userinit (Ch : Type) (init : Fin n) : St n Ch where
  state p := if p = init then .runnable else .unused
  parent _ := none
  pid p := if p = init then 1 else 0
  xstate _ := 0
  killed _ := false
  chan _ := none
  nextpid := 2
  waitLock := none
  pc p := if p = init then .free else .dead
  life p := if p = init then 1 else 0
  reaped := []

end Xv6.Procs
