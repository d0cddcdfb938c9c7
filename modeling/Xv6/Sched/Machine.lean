import Mathlib.Data.List.FinRange
import Mathlib.Logic.Function.Basic
import Mathlib.Tactic.SplitIfs
import Xv6.Kernel.State
import Xv6.Lib.Transition

namespace Xv6.Sched

open Kernel (ProcState)
open Function (update)

inductive Kont (L Ch : Type)
  | yield
  | sleep (chan : Ch) (lk : L)
  | exit
  | fork

/-- What the kernel thread of a process does next; at `free` it runs other code and may call any of the functions below. -/
inductive Pc (n : ℕ) (L Ch : Type)
  | free
  | yieldState
  | sleepRelease (chan : Ch) (lk : L)
  | sleepChan (chan : Ch) (lk : L)
  | sleepState (chan : Ch) (lk : L)
  | swtchSave (k : Kont L Ch)
  | swtchLoad (k : Kont L Ch)
  | parked (k : Kont L Ch)
  | resumed (k : Kont L Ch)
  | sleepDone (lk : L)
  | sleepReacquire (lk : L)
  | wakeup (chan : Ch) (todo : List (Fin n))
  | wakeTest (chan : Ch) (q : Fin n) (todo : List (Fin n))
  | wakeRelease (chan : Ch) (q : Fin n) (todo : List (Fin n))
  | kill (pid : ℕ) (todo : List (Fin n))
  | killTest (pid : ℕ) (q : Fin n) (todo : List (Fin n))
  | killSkip (pid : ℕ) (q : Fin n) (todo : List (Fin n))
  | alloc (todo : List (Fin n))
  | allocTest (q : Fin n) (todo : List (Fin n))
  | allocSkip (q : Fin n) (todo : List (Fin n))
  | forkCopy (q : Fin n)
  | forkParent (q : Fin n)
  | forkState (q : Fin n)
  | exitState
  | waitTest (q : Fin n)
  | dropLock (q : Fin n)

inductive Mode (n : ℕ)
  | scan
  | test (p : Fin n)
  | picked (p : Fin n)
  | switchIn (p : Fin n)
  | thread (p : Fin n)
  | switched (p : Fin n)
  | unlock (p : Fin n)

/-- Who runs where: `lock p` is the CPU that holds `p->lock`, `saved p` says that `p->context` is complete, and `back p` is where a
`yield` of `p` goes on. -/
structure Core (C : Type) (n : ℕ) (L Ch : Type) where
  lock : Fin n → Option C
  state : Fin n → ProcState
  saved : Fin n → Bool
  pc : Fin n → Pc n L Ch
  back : Fin n → Pc n L Ch
  mode : C → Mode n
  proc : C → Option (Fin n)

structure St (C : Type) (n : ℕ) (L Ch : Type) extends Core C n L Ch where
  chan : Fin n → Option Ch
  killed : Fin n → Bool
  pid : Fin n → ℕ
  nextpid : ℕ
  lk : L → Option (Fin n)

inductive Call (n : ℕ) (L Ch : Type)
  | sleep (chan : Ch) (lk : L)
  | wakeup (chan : Ch)
  | kill (pid : ℕ)
  | fork
  | exit
  | wait (q : Fin n)
  | acquire (lk : L)
  | release (lk : L)

inductive Action (C : Type) (n : ℕ) (L Ch : Type)
  | pick (c : C) (p : Fin n)
  | scheduler (c : C)
  | yield (c : C)
  | call (c : C) (f : Call n L Ch)
  | next (c : C) (ok : Bool)

section

variable {C : Type} {n : ℕ} {L Ch : Type} [DecidableEq C] [DecidableEq L] [DecidableEq Ch]

def Pc.held (p : Fin n) : Pc n L Ch → Option (Fin n)
  | .yieldState | .sleepRelease _ _ | .sleepChan _ _ | .sleepState _ _ | .swtchSave _ | .swtchLoad _ | .resumed _
  | .sleepDone _ | .exitState => some p
  | .wakeTest _ q _ | .wakeRelease _ q _ | .killTest _ q _ | .killSkip _ q _ | .allocTest q _ | .allocSkip q _
  | .forkCopy q | .forkState q | .waitTest q | .dropLock q => some q
  | _ => none

def Pc.isParked : Pc n L Ch → Bool
  | .parked _ => true
  | _ => false

def Pc.asleepOn : Pc n L Ch → Option Ch
  | .sleepChan chan _ | .sleepState chan _ | .swtchSave (.sleep chan _) | .swtchLoad (.sleep chan _)
  | .parked (.sleep chan _) => some chan
  | _ => none

def Pc.pending : Pc n L Ch → List (Fin n)
  | .wakeup _ todo | .wakeRelease _ _ todo => todo
  | .wakeTest _ q todo => q :: todo
  | _ => []

def Pc.wakes : Pc n L Ch → Option Ch
  | .wakeup chan _ | .wakeRelease chan _ _ | .wakeTest chan _ _ => some chan
  | _ => none

namespace St

variable (s : St C n L Ch) (c : C) (p q : Fin n)

def goto (d : Pc n L Ch) : St C n L Ch := { s with pc := update s.pc p d }

def acquire (d : Pc n L Ch) : Option (St C n L Ch) :=
  if s.lock q = none then
    some { s with lock := update s.lock q (some c), pc := update s.pc p d }
  else none

def release (d : Pc n L Ch) : St C n L Ch :=
  { s with lock := update s.lock q none, pc := update s.pc p d }

def setState (st : ProcState) (d : Pc n L Ch) : St C n L Ch :=
  { s with state := update s.state q st, pc := update s.pc p d }

def freeproc (d : Pc n L Ch) : St C n L Ch :=
  { s.setState p q .unused d with
    pid := update s.pid q 0
    chan := update s.chan q none
    killed := update s.killed q false }

def allocproc : St C n L Ch :=
  { s with
    state := update s.state q .used
    saved := update s.saved q true
    pc := update (update s.pc q (.parked .fork)) p (.forkCopy q)
    pid := update s.pid q s.nextpid
    nextpid := s.nextpid + 1 }

def killProc (pid : ℕ) (todo : List (Fin n)) : St C n L Ch :=
  if s.pid q = pid then
    let s := { s with killed := update s.killed q true }
    if s.state q = .sleeping then s.setState p q .runnable (.dropLock q) else s.goto p (.dropLock q)
  else s.goto p (.killSkip pid q todo)

def call : Call n L Ch → Option (St C n L Ch)
  | .sleep chan lk => if s.lk lk = some p then s.acquire c p p (.sleepRelease chan lk) else none
  | .wakeup chan => some (s.goto p (.wakeup chan (List.finRange n)))
  | .kill pid => some (s.goto p (.kill pid (List.finRange n)))
  | .fork => some (s.goto p (.alloc (List.finRange n)))
  | .exit => s.acquire c p p .exitState
  | .wait q => s.acquire c p q (.waitTest q)
  | .acquire lk => if s.lk lk = none then some { s with lk := update s.lk lk (some p) } else none
  | .release lk => if s.lk lk = some p then some { s with lk := update s.lk lk none } else none

def next (ok : Bool) : Option (St C n L Ch) :=
  match s.pc p with
  | .free | .parked _ => none
  | .yieldState => some (s.setState p p .runnable (.swtchSave .yield))
  | .sleepRelease chan lk => some { s.goto p (.sleepChan chan lk) with lk := update s.lk lk none }
  | .sleepChan chan lk => some { s.goto p (.sleepState chan lk) with chan := update s.chan p (some chan) }
  | .sleepState chan lk => some (s.setState p p .sleeping (.swtchSave (.sleep chan lk)))
  | .swtchSave k => some { s.goto p (.swtchLoad k) with saved := update s.saved p true }
  | .swtchLoad k => some { s.goto p (.parked k) with mode := update s.mode c (.switched p) }
  | .resumed .yield => some (s.release p p (s.back p))
  | .resumed .fork => some (s.release p p .free)
  | .resumed (.sleep _ lk) => some { s.goto p (.sleepDone lk) with chan := update s.chan p none }
  | .resumed .exit => none
  | .sleepDone lk => some (s.release p p (.sleepReacquire lk))
  | .sleepReacquire lk =>
    if s.lk lk = none then some { s.goto p .free with lk := update s.lk lk (some p) } else none
  | .wakeup _ [] => some (s.goto p .free)
  | .wakeup chan (q :: todo) =>
    if q = p then some (s.goto p (.wakeup chan todo)) else s.acquire c p q (.wakeTest chan q todo)
  | .wakeTest chan q todo =>
    if s.state q = .sleeping ∧ s.chan q = some chan then some (s.setState p q .runnable (.wakeRelease chan q todo))
    else some (s.goto p (.wakeRelease chan q todo))
  | .wakeRelease chan q todo => some (s.release p q (.wakeup chan todo))
  | .kill _ [] => some (s.goto p .free)
  | .kill pid (q :: todo) => s.acquire c p q (.killTest pid q todo)
  | .killTest pid q todo => some (s.killProc p q pid todo)
  | .killSkip pid q todo => some (s.release p q (.kill pid todo))
  | .alloc [] => some (s.goto p .free)
  | .alloc (q :: todo) => s.acquire c p q (.allocTest q todo)
  | .allocTest q todo =>
    if s.state q = .unused then some (s.allocproc p q) else some (s.goto p (.allocSkip q todo))
  | .allocSkip q todo => some (s.release p q (.alloc todo))
  | .forkCopy q => if ok then some (s.release p q (.forkParent q)) else some (s.freeproc p q (.dropLock q))
  | .forkParent q => s.acquire c p q (.forkState q)
  | .forkState q => some (s.setState p q .runnable (.dropLock q))
  | .exitState => some (s.setState p p .zombie (.swtchSave .exit))
  | .waitTest q =>
    if s.state q = .zombie ∧ ok = true then some (s.freeproc p q (.dropLock q)) else some (s.goto p (.dropLock q))
  | .dropLock q => some (s.release p q .free)

def scheduler : Option (St C n L Ch) :=
  match s.mode c with
  | .scan | .thread _ => none
  | .test p =>
    if s.state p = .runnable then some { s with
      state := update s.state p .running
      mode := update s.mode c (.picked p) }
    else some { s with mode := update s.mode c (.unlock p) }
  | .picked p => some { s with
      proc := update s.proc c (some p)
      mode := update s.mode c (.switchIn p) }
  | .switchIn p =>
    match s.pc p with
    | .parked k => some { s with
        saved := update s.saved p false
        pc := update s.pc p (.resumed k)
        mode := update s.mode c (.thread p) }
    | _ => none
  | .switched p => some { s with
      proc := update s.proc c none
      mode := update s.mode c (.unlock p) }
  | .unlock p => some { s with
      lock := update s.lock p none
      mode := update s.mode c .scan }

end St

def step (s : St C n L Ch) : Action C n L Ch → Option (St C n L Ch)
  | .pick c p => match s.mode c with
    | .scan => if s.lock p = none then some { s with
        lock := update s.lock p (some c)
        mode := update s.mode c (.test p) } else none
    | _ => none
  | .scheduler c => s.scheduler c
  | .yield c => match s.mode c with
    | .thread p => if (s.pc p).held p = none then
        (s.acquire c p p .yieldState).map (fun t => { t with back := update s.back p (s.pc p) }) else none
    | _ => none
  | .call c f => match s.mode c with
    | .thread p => match s.pc p with
      | .free => s.call c p f
      | _ => none
    | _ => none
  | .next c ok => match s.mode c with
    | .thread p => s.next c p ok
    | _ => none

def userinit (C L Ch : Type) (init : Fin n) : St C n L Ch where
  lock _ := none
  state p := if p = init then .runnable else .unused
  saved p := p = init
  pc _ := .parked .fork
  back _ := .free
  mode _ := .scan
  proc _ := none
  chan _ := none
  killed _ := false
  pid p := if p = init then 1 else 0
  nextpid := 2
  lk _ := none

end

end Xv6.Sched
