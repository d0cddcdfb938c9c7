import Mathlib.Algebra.BigOperators.Group.Finset.Basic
import Mathlib.Data.Fintype.BigOperators
import Xv6.Lib.Transition
import Xv6.Params

namespace Xv6.Logging

open Lib.Transition

structure Log where
  start : ℕ
  size : ℕ
  outstanding : ℕ
  committing : Bool
  block : List ℕ
  deriving DecidableEq

def Log.n (l : Log) : ℕ := l.block.length

def initlog (start size : ℕ) : Log := ⟨start, size, 0, false, []⟩

def beginOp (l : Log) : Option Log :=
  if l.committing then none
  else if l.n + (l.outstanding + 1) * maxOpBlocks > logSize then none
  else some { l with outstanding := l.outstanding + 1 }

def logWrite (l : Log) (blockno : ℕ) : Except String (Log × Bool) :=
  if l.n ≥ logSize ∨ l.n ≥ l.size - 1 then .error "too big a transaction"
  else if l.outstanding < 1 then .error "log_write outside of trans"
  else if blockno ∈ l.block then .ok (l, false)
  else .ok ({ l with block := l.block ++ [blockno] }, true)

def endOp (l : Log) : Except String (Log × Bool) :=
  let l := { l with outstanding := l.outstanding - 1 }
  if l.committing then .error "log.committing"
  else if l.outstanding = 0 then .ok ({ l with committing := true }, true)
  else .ok (l, false)

def endCommit (l : Log) : Log := { l with committing := false }

inductive Pc
  | idle
  | sleeping
  | woken
  | active (logged : List ℕ)
  | committing
  deriving DecidableEq

inductive Action (P : Type)
  | begin (p : P)
  | logWrite (p : P) (blockno : ℕ)
  | endOp (p : P)
  | clear (p : P)
  | endCommit (p : P)

structure St (P : Type) where
  log : Log
  pc : P → Pc
  panicked : Option String

def init (P : Type) (start size : ℕ) : St P := ⟨initlog start size, fun _ => .idle, none⟩

def wakeup {P : Type} (pc : P → Pc) (p : P) : Pc :=
  match pc p with
  | .sleeping => .woken
  | c => c

variable {P : Type} [DecidableEq P]

def St.begin (s : St P) (p : P) : St P :=
  match beginOp s.log with
  | none => { s with pc := Function.update s.pc p .sleeping }
  | some l => { s with log := l, pc := Function.update s.pc p (.active []) }

def St.logWrite (s : St P) (p : P) (logged : List ℕ) (b : ℕ) : St P :=
  match Logging.logWrite s.log b with
  | .error e => { s with panicked := some e }
  | .ok (l, _) => { s with log := l, pc := Function.update s.pc p (.active (logged.insert b)) }

def St.endOp (s : St P) (p : P) : St P :=
  match Logging.endOp s.log with
  | .error e => { s with panicked := some e }
  | .ok (l, true) => { s with log := l, pc := Function.update s.pc p .committing }
  | .ok (l, false) => { s with log := l, pc := wakeup (Function.update s.pc p .idle) }

def St.clear (s : St P) : St P := { s with log := { s.log with block := [] } }

def St.endCommit (s : St P) (p : P) : St P :=
  { s with log := Logging.endCommit s.log, pc := wakeup (Function.update s.pc p .idle) }

def step (s : St P) (a : Action P) : Option (St P) :=
  if s.panicked.isSome then none else
  match a with
  | .begin p =>
    match s.pc p with
    | .idle | .woken => some (s.begin p)
    | _ => none
  | .logWrite p b =>
    match s.pc p with
    | .active logged => some (s.logWrite p logged b)
    | _ => none
  | .endOp p =>
    match s.pc p with
    | .active _ => some (s.endOp p)
    | _ => none
  | .clear p => if s.pc p = .committing then some s.clear else none
  | .endCommit p =>
    if s.pc p = .committing ∧ s.log.block = [] then some (s.endCommit p) else none

end Xv6.Logging
