import Xv6.Logging.Recoverable

set_option linter.unusedSectionVars false

namespace Xv6.Logging

abbrev Txn := List (ℕ × Block)

structure Epoch where
  txns : List Txn
  returned : ℕ

inductive Mode (P : Type)
  | running
  | writeLog (p : P) (tail : ℕ)
  | writeHead (p : P)
  | install (p : P) (tail : ℕ)
  | clear (p : P)
  | done (p : P)
  | readHead
  | reinstall (tail : ℕ)
  | reclear
  deriving DecidableEq

def Mode.booting {P : Type} : Mode P → Bool
  | .readHead | .reinstall _ | .reclear => true
  | _ => false

/-- The kernel below the file system. The last four fields record the history of the run. -/
structure Machine (P : Type) where
  c : Bcache P
  st : St P
  want : P → Option (Fin nBuf)
  mode : Mode P
  dirty : Fin nBuf → Bool
  logged : ℕ → Block
  cur : Epoch
  past : List Epoch

inductive Act (P : Type)
  | begin (p : P)
  | bget (p : P) (blockno : ℕ)
  | acquire (p : P)
  | modify (p : P) (i : Fin nBuf) (data : Block)
  | logWrite (p : P) (i : Fin nBuf)
  | brelse (p : P) (i : Fin nBuf)
  | endOp (p : P)
  | commit
  | recover (p : P)
  | crash

def boot (P : Type) (start size : ℕ) (disk : ℕ → Block) (past : List Epoch) : Machine P where
  c := binit disk
  st := init P start size
  want := fun _ => none
  mode := .readHead
  dirty := fun _ => false
  logged := fun _ _ => 0
  cur := ⟨[], 0⟩
  past := past

variable {P : Type} [DecidableEq P]

namespace Machine

def txn (m : Machine P) : Txn := m.st.log.block.map (fun b => (b, m.logged b))

def setBlock (m : Machine P) (block : List ℕ) : Machine P :=
  { m with st := { m.st with log := { m.st.log with block := block } } }

def Free (m : Machine P) (p : P) : Prop :=
  m.want p = none ∧ (m.st.pc p = .idle ∨ (m.st.pc p).isActive = 1)

instance (m : Machine P) (p : P) : Decidable (m.Free p) := inferInstanceAs (Decidable (_ ∧ _))

def bget (m : Machine P) (p : P) (blockno : ℕ) : Option (Machine P) :=
  (m.c.bget blockno).map (fun r =>
    { m with c := r.1, want := Function.update m.want p (some r.2) })

def acquire (m : Machine P) (p : P) : Option (Machine P) :=
  (m.want p).bind (fun i => (m.c.acquire p i).map (fun c =>
    { m with c := c, want := Function.update m.want p none }))

def modify (m : Machine P) (i : Fin nBuf) (data : Block) : Machine P :=
  { m with c := m.c.setData i data, dirty := Function.update m.dirty i true }

def logWrite (m : Machine P) (p : P) (l : List ℕ) (i : Fin nBuf) : Machine P :=
  let b := (m.c.buf i).blockno
  match Logging.logWrite m.st.log b with
  | .error e => { m with st := { m.st with panicked := some e } }
  | .ok (log, pin) => { m with
      c := if pin then m.c.bpin i else m.c
      st := { m.st with log := log, pc := Function.update m.st.pc p (.active (l.insert b)) }
      dirty := Function.update m.dirty i false
      logged := Function.update m.logged b (m.c.buf i).data }

def endOp (m : Machine P) (p : P) : Machine P :=
  let st := m.st.endOp p
  if st.pc p = .committing then
    if st.log.n > 0 then
      { m with st := st, mode := .writeLog p 0, cur := { m.cur with txns := m.cur.txns ++ [m.txn] } }
    else { m with st := st, mode := .done p }
  else { m with st := st }

def commit (m : Machine P) (start : ℕ) : Option (Machine P) :=
  match m.mode with
  | .writeLog p tail =>
    match m.st.log.block[tail]? with
    | some b => (m.c.writeLog p start tail b).map (fun c => { m with c := c, mode := .writeLog p (tail + 1) })
    | none => some { m with mode := .writeHead p }
  | .writeHead p =>
    (m.c.writeHead p start m.st.log.block).map (fun c => { m with c := c, mode := .install p 0 })
  | .install p tail =>
    match m.st.log.block[tail]? with
    | some b =>
      (m.c.installTrans p false start tail b).map (fun c => { m with c := c, mode := .install p (tail + 1) })
    | none => some { m with mode := .clear p }
  | .clear p =>
    (m.c.writeHead p start []).map (fun c => { m with
      c := c, st := m.st.clear, mode := .done p, cur := { m.cur with returned := m.cur.txns.length } })
  | .done p => some { m with st := m.st.endCommit p, mode := .running }
  | _ => none

def recover (m : Machine P) (p : P) (start : ℕ) : Option (Machine P) :=
  match m.mode with
  | .readHead => (m.c.readHead p start).map (fun r => { m.setBlock r.2 with c := r.1, mode := .reinstall 0 })
  | .reinstall tail =>
    match m.st.log.block[tail]? with
    | some b =>
      (m.c.installTrans p true start tail b).map (fun c => { m with c := c, mode := .reinstall (tail + 1) })
    | none => some { m with mode := .reclear }
  | .reclear => (m.c.writeHead p start []).map (fun c => { m.setBlock [] with c := c, mode := .running })
  | _ => none

end Machine

/-- What a process may do between the `begin_op` and the `end_op` of an operation, or outside one
as a reader; an operation logs home blocks only and releases no buffer it has changed and not logged. -/
def Machine.userStep (start size : ℕ) (m : Machine P) : Act P → Option (Machine P)
  | .begin p =>
    if m.want p = none then (step m.st (.begin p)).map (fun st => { m with st := st }) else none
  | .bget p b => if m.Free p then m.bget p b else none
  | .acquire p => m.acquire p
  | .modify p i d =>
    if m.want p = none ∧ (m.st.pc p).isActive = 1 ∧ (m.c.buf i).lock = some p ∧
        ¬ InLog start size (m.c.buf i).blockno then
      some (m.modify i d)
    else none
  | .logWrite p i =>
    if m.want p = none ∧ (m.st.pc p).isActive = 1 ∧ (m.c.buf i).lock = some p ∧
        ¬ InLog start size (m.c.buf i).blockno ∧ (m.c.buf i).blockno < 2 ^ 32 then
      some (m.logWrite p (m.st.pc p).logged i)
    else none
  | .brelse p i =>
    if m.want p = none ∧ (m.c.buf i).lock = some p ∧ m.dirty i = false then
      some { m with c := m.c.brelse i }
    else none
  | .endOp p =>
    if m.want p = none ∧ (m.st.pc p).isActive = 1 ∧ ∀ i, (m.c.buf i).lock ≠ some p then
      some (m.endOp p)
    else none
  | _ => none

def machineStep (start size : ℕ) (m : Machine P) (a : Act P) : Option (Machine P) :=
  match a with
  | .crash => some (boot P start size m.c.disk (m.past ++ [m.cur]))
  | a =>
    if m.st.panicked.isSome then none else
    match a with
    | .recover p => m.recover p start
    | .commit => m.commit start
    | a => if m.mode.booting then none else m.userStep start size a

end Xv6.Logging
