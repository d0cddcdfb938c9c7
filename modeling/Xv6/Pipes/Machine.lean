import Mathlib
import Xv6.Lib.Transition

namespace Xv6.Pipes

open Function (update)

def pipeSize : ℕ := 512

structure Pipe where
  data : Fin pipeSize → UInt8
  nread : ℕ
  nwrite : ℕ
  readopen : Bool
  writeopen : Bool

def slot (n : ℕ) : Fin pipeSize := ⟨n % pipeSize, Nat.mod_lt _ (by decide)⟩

def pipealloc : Pipe := ⟨fun _ => 0, 0, 0, true, true⟩

def Pipe.empty (pi : Pipe) : Prop := pi.nread = pi.nwrite

def Pipe.full (pi : Pipe) : Prop := pi.nwrite = (pi.nread + pipeSize) % 2 ^ 32

instance (pi : Pipe) : Decidable pi.empty := inferInstanceAs (Decidable (_ = _))
instance (pi : Pipe) : Decidable pi.full := inferInstanceAs (Decidable (_ = _))

def Pipe.put (pi : Pipe) (ch : UInt8) : Pipe :=
  { pi with data := update pi.data (slot pi.nwrite) ch, nwrite := (pi.nwrite + 1) % 2 ^ 32 }

def Pipe.advance (pi : Pipe) : Pipe := { pi with nread := (pi.nread + 1) % 2 ^ 32 }

def Pipe.front (pi : Pipe) : UInt8 := pi.data (slot pi.nread)

def Pipe.close (pi : Pipe) (writable : Bool) : Pipe :=
  if writable then { pi with writeopen := false } else { pi with readopen := false }

inductive Pc
  | idle
  | enterWrite (src : ℕ → UInt8) (n : ℤ)
  | enterRead (n : ℤ)
  | enterClose (writable : Bool)
  | writing (src : ℕ → UInt8) (n : ℤ) (i : ℕ)
  | writeAsleep (src : ℕ → UInt8) (n : ℤ) (i : ℕ)
  | writeWoken (src : ℕ → UInt8) (n : ℤ) (i : ℕ)
  | reading (n : ℤ)
  | readAsleep (n : ℤ)
  | readWoken (n : ℤ)
  | copying (n : ℤ) (i : ℕ)
  | closing (writable : Bool)
  | returned (r : ℤ)

def Pc.holds : Pc → Bool
  | .writing _ _ _ | .reading _ | .copying _ _ | .closing _ => true
  | _ => false

def Pc.entered : Pc → Option Pc
  | .enterWrite src n => some (.writing src n 0)
  | .writeWoken src n i => some (.writing src n i)
  | .enterRead n | .readWoken n => some (.reading n)
  | .enterClose w => some (.closing w)
  | _ => none

def Pc.wakeRead : Pc → Pc
  | .readAsleep n => .readWoken n
  | c => c

def Pc.wakeWrite : Pc → Pc
  | .writeAsleep src n i => .writeWoken src n i
  | c => c

structure St (P : Type) where
  pipe : Pipe
  lock : Option P
  pc : P → Pc
  killed : P → Bool
  accepted : List UInt8
  delivered : List UInt8

def init (P : Type) : St P := ⟨pipealloc, none, fun _ => .idle, fun _ => false, [], []⟩

inductive Action (P : Type)
  | pipewrite (p : P) (src : ℕ → UInt8) (n : ℤ)
  | piperead (p : P) (n : ℤ)
  | pipeclose (p : P) (writable : Bool)
  | acquire (p : P)
  | next (p : P) (copied : Bool)
  | kill (p : P)
  | leave (p : P)

variable {P : Type} [DecidableEq P]

namespace St

def goto (s : St P) (p : P) (c : Pc) : St P := { s with pc := update s.pc p c }

def release (s : St P) (p : P) (c : Pc) : St P := { s with lock := none, pc := update s.pc p c }

def wakeRead (s : St P) : St P := { s with pc := fun p => (s.pc p).wakeRead }

def wakeWrite (s : St P) : St P := { s with pc := fun p => (s.pc p).wakeWrite }

def write (s : St P) (p : P) (src : ℕ → UInt8) (n : ℤ) (i : ℕ) (copied : Bool) : St P :=
  if ¬ (i : ℤ) < n then s.wakeRead.release p (.returned i)
  else if s.pipe.readopen = false ∨ s.killed p = true then s.release p (.returned (-1))
  else if s.pipe.full then s.wakeRead.release p (.writeAsleep src n i)
  else if copied = false then s.wakeRead.release p (.returned i)
  else { s with
    pipe := s.pipe.put (src i)
    pc := update s.pc p (.writing src n (i + 1))
    accepted := s.accepted ++ [src i] }

def read (s : St P) (p : P) (n : ℤ) : St P :=
  if s.pipe.empty ∧ s.pipe.writeopen = true then
    if s.killed p = true then s.release p (.returned (-1)) else s.release p (.readAsleep n)
  else s.goto p (.copying n 0)

def copy (s : St P) (p : P) (n : ℤ) (i : ℕ) (copied : Bool) : St P :=
  if ¬ (i : ℤ) < n ∨ s.pipe.empty then s.wakeWrite.release p (.returned i)
  else if copied = false then { s.wakeWrite.release p (.returned i) with pipe := s.pipe.advance }
  else { s with
    pipe := s.pipe.advance
    pc := update s.pc p (.copying n (i + 1))
    delivered := s.delivered ++ [s.pipe.front] }

def close (s : St P) (p : P) (writable : Bool) : St P :=
  { (if writable then s.wakeRead else s.wakeWrite).release p (.returned 0) with pipe := s.pipe.close writable }

def kill (s : St P) (p : P) : St P :=
  { s with killed := update s.killed p true, pc := update s.pc p (s.pc p).wakeRead.wakeWrite }

end St

def step (s : St P) : Action P → Option (St P)
  | .pipewrite p src n => match s.pc p with
    | .idle => some (s.goto p (.enterWrite src n))
    | _ => none
  | .piperead p n => match s.pc p with
    | .idle => some (s.goto p (.enterRead n))
    | _ => none
  | .pipeclose p w => match s.pc p with
    | .idle => some (s.goto p (.enterClose w))
    | _ => none
  | .acquire p => if s.lock.isSome then none
    else (s.pc p).entered.map (fun c => { s with lock := some p, pc := update s.pc p c })
  | .next p copied => match s.pc p with
    | .writing src n i => some (s.write p src n i copied)
    | .reading n => some (s.read p n)
    | .copying n i => some (s.copy p n i copied)
    | .closing w => some (s.close p w)
    | _ => none
  | .kill p => some (s.kill p)
  | .leave p => match s.pc p with
    | .returned _ => some (s.goto p .idle)
    | _ => none

inductive Step : St P → Action P → St P → Prop
  | call {s : St P} {p : P} {a : Action P} {c : Pc} (hp : s.pc p = .idle) (hc : c.entered.isSome)
      (hh : c.holds = false) (hs : c.wakeRead = c ∧ c.wakeWrite = c) : Step s a (s.goto p c)
  | acquire {s : St P} {p : P} {c : Pc} (hl : s.lock = none) (hp : (s.pc p).entered = some c) :
      Step s (.acquire p) { s with lock := some p, pc := update s.pc p c }
  | wrote {s : St P} {p : P} {src : ℕ → UInt8} {n : ℤ} {i : ℕ} {copied : Bool} {c : Pc} (hp : s.pc p = .writing src n i)
      (hc : c = .returned i ∨ s.pipe.full ∧ s.pipe.readopen = true ∧ c = .writeAsleep src n i) :
      Step s (.next p copied) (s.wakeRead.release p c)
  | refused {s : St P} {p : P} {src : ℕ → UInt8} {n : ℤ} {i : ℕ} {copied : Bool} (hp : s.pc p = .writing src n i)
      (hr : s.pipe.readopen = false ∨ s.killed p = true) : Step s (.next p copied) (s.release p (.returned (-1)))
  | put {s : St P} {p : P} {src : ℕ → UInt8} {n : ℤ} {i : ℕ} {copied : Bool} (hp : s.pc p = .writing src n i)
      (hr : s.pipe.readopen = true) (hk : s.killed p = false) (hf : ¬ s.pipe.full) (hc : copied = true) :
      Step s (.next p copied) { s with
        pipe := s.pipe.put (src i)
        pc := update s.pc p (.writing src n (i + 1))
        accepted := s.accepted ++ [src i] }
  | readKilled {s : St P} {p : P} {n : ℤ} {copied : Bool} (hp : s.pc p = .reading n) :
      Step s (.next p copied) (s.release p (.returned (-1)))
  | readSleep {s : St P} {p : P} {n : ℤ} {copied : Bool} (hp : s.pc p = .reading n) (he : s.pipe.empty)
      (hw : s.pipe.writeopen = true) : Step s (.next p copied) (s.release p (.readAsleep n))
  | readStart {s : St P} {p : P} {n : ℤ} {copied : Bool} (hp : s.pc p = .reading n)
      (he : ¬ (s.pipe.empty ∧ s.pipe.writeopen = true)) : Step s (.next p copied) (s.goto p (.copying n 0))
  | readDone {s : St P} {p : P} {n : ℤ} {i : ℕ} {copied : Bool} (hp : s.pc p = .copying n i)
      (he : ¬ (i : ℤ) < n ∨ s.pipe.empty) : Step s (.next p copied) (s.wakeWrite.release p (.returned i))
  | lose {s : St P} {p : P} {n : ℤ} {i : ℕ} {copied : Bool} (hp : s.pc p = .copying n i) (he : ¬ s.pipe.empty)
      (hc : copied = false) :
      Step s (.next p copied) { s.wakeWrite.release p (.returned i) with pipe := s.pipe.advance }
  | deliver {s : St P} {p : P} {n : ℤ} {i : ℕ} {copied : Bool} (hp : s.pc p = .copying n i) (he : ¬ s.pipe.empty)
      (hc : copied = true) :
      Step s (.next p copied) { s with
        pipe := s.pipe.advance
        pc := update s.pc p (.copying n (i + 1))
        delivered := s.delivered ++ [s.pipe.front] }
  | close {s : St P} {p : P} {w copied : Bool} (hp : s.pc p = .closing w) : Step s (.next p copied) (s.close p w)
  | kill {s : St P} (p : P) : Step s (.kill p) (s.kill p)
  | leave {s : St P} {p : P} {r : ℤ} (hp : s.pc p = .returned r) : Step s (.leave p) (s.goto p .idle)

theorem write_step {s : St P} {p : P} {src : ℕ → UInt8} {n : ℤ} {i : ℕ} (hp : s.pc p = .writing src n i)
    (copied : Bool) : Step s (.next p copied) (s.write p src n i copied) := by
  unfold St.write
  split_ifs with hn hr hf hc
  · exact .refused hp hr
  · rw [not_or, Bool.not_eq_false] at hr
    exact .wrote hp (Or.inr ⟨hf, hr.1, rfl⟩)
  · exact .wrote hp (Or.inl rfl)
  · rw [not_or, Bool.not_eq_false, Bool.not_eq_true] at hr
    exact .put hp hr.1 hr.2 hf (by simpa using hc)
  · exact .wrote hp (Or.inl rfl)

theorem read_step {s : St P} {p : P} {n : ℤ} (hp : s.pc p = .reading n) (copied : Bool) :
    Step s (.next p copied) (s.read p n) := by
  unfold St.read
  split_ifs with he hk
  · exact .readKilled hp
  · exact .readSleep hp he.1 he.2
  · exact .readStart hp he

theorem copy_step {s : St P} {p : P} {n : ℤ} {i : ℕ} (hp : s.pc p = .copying n i) (copied : Bool) :
    Step s (.next p copied) (s.copy p n i copied) := by
  unfold St.copy
  split_ifs with he hc
  · exact .readDone hp he
  · exact .lose hp (fun h => he (Or.inr h)) hc
  · exact .deliver hp (fun h => he (Or.inr h)) (by simpa using hc)

theorem step_inv {s t : St P} {a : Action P} (h : step s a = some t) : Step s a t := by
  cases a with
  | pipewrite p src n =>
    simp only [step] at h
    split at h <;> cases h
    exact .call ‹_› rfl rfl ⟨rfl, rfl⟩
  | piperead p n =>
    simp only [step] at h
    split at h <;> cases h
    exact .call ‹_› rfl rfl ⟨rfl, rfl⟩
  | pipeclose p w =>
    simp only [step] at h
    split at h <;> cases h
    exact .call ‹_› rfl rfl ⟨rfl, rfl⟩
  | acquire p =>
    simp only [step] at h
    split_ifs at h with hl
    obtain ⟨c, hc, rfl⟩ := Option.map_eq_some_iff.mp h
    exact .acquire (by simpa using hl) hc
  | next p copied =>
    simp only [step] at h
    split at h <;> cases h
    · exact write_step ‹_› copied
    · exact read_step ‹_› copied
    · exact copy_step ‹_› copied
    · exact .close ‹_›
  | kill p =>
    cases h
    exact .kill p
  | leave p =>
    simp only [step] at h
    split at h <;> cases h
    exact .leave ‹_›

end Xv6.Pipes
