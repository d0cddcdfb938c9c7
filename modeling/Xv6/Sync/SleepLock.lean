import Mathlib.Data.List.FinRange
import Mathlib.Logic.Function.Basic
import Mathlib.Tactic.SplitIfs
import Xv6.Kernel.State
import Xv6.Lib.Transition

namespace Xv6.Sync

open Kernel (ProcState)
open Lib.Transition

inductive Chan
  | sleepLock
  | other
  deriving DecidableEq

/-- Where a process stands with one sleep-lock. At `sleepRelease` and `sleepSet` it also holds its own `p->lock`. -/
inductive Pc (n : ℕ)
  | outside
  | acquire
  | test
  | sleepAcquire
  | sleepRelease
  | sleepSet
  | asleep
  | reacquire
  | set
  | acquired
  | inside
  | release
  | clear
  | wakeup (todo : List (Fin n))
  | released
  | holding (inner : Bool)
  | holdingTest (inner : Bool)
  | holdingDone (inner r : Bool)
  deriving DecidableEq

structure St (n : ℕ) where
  locked : Bool
  owner : ℕ
  lk : Option (Fin n)
  state : Fin n → ProcState
  chan : Fin n → Option Chan
  pid : Fin n → ℕ
  pc : Fin n → Pc n

inductive Call
  | acquiresleep
  | releasesleep
  | holdingsleep

inductive Action (n : ℕ)
  | run (p : Fin n)
  | yield (p : Fin n)
  | kill (q : Fin n)
  | doze (p : Fin n)
  | stir (q : Fin n)
  | renew (p : Fin n) (pid : ℕ)
  | call (p : Fin n) (f : Call)
  | next (p : Fin n)

variable {n : ℕ}

namespace Pc

def holdsLk : Pc n → Bool
  | .test | .sleepAcquire | .sleepRelease | .set | .acquired | .clear | .wakeup _ | .released | .holdingTest _
  | .holdingDone _ _ => true
  | _ => false

def holdsOwn : Pc n → Bool
  | .sleepRelease | .sleepSet => true
  | _ => false

def isInside : Pc n → Bool
  | .inside | .holding true | .holdingTest true | .holdingDone true _ => true
  | _ => false

def owns : Pc n → Bool
  | .acquired | .release | .clear => true
  | d => d.isInside

def back (inner : Bool) : Pc n := if inner then .inside else .outside

end Pc

namespace St

variable (s : St n) (p q : Fin n)

def goto (d : Pc n) : St n := { s with pc := Function.update s.pc p d }

def acquire (d : Pc n) : Option (St n) := if s.lk = none then some { s.goto p d with lk := some p } else none

def release (d : Pc n) : St n := { s.goto p d with lk := none }

def wake (ch : Option Chan) : St n :=
  if s.state q = .sleeping ∧ (ch = none ∨ s.chan q = ch) then { s with state := Function.update s.state q .runnable } else s

def call : Call → Option (St n)
  | .acquiresleep => if s.pc p = .outside then some (s.goto p .acquire) else none
  | .releasesleep => if s.pc p = .inside then some (s.goto p .release) else none
  | .holdingsleep =>
    if s.pc p = .outside then some (s.goto p (.holding false))
    else if s.pc p = .inside then some (s.goto p (.holding true))
    else none

def next : Option (St n) :=
  match s.pc p with
  | .outside | .inside => none
  | .acquire => s.acquire p .test
  | .test => some (s.goto p (if s.locked then .sleepAcquire else .set))
  | .sleepAcquire => some (s.goto p .sleepRelease)
  | .sleepRelease => some (s.release p .sleepSet)
  | .sleepSet => some { s.goto p .asleep with
      chan := Function.update s.chan p (some .sleepLock)
      state := Function.update s.state p .sleeping }
  | .asleep => some { s.goto p .reacquire with chan := Function.update s.chan p none }
  | .reacquire => s.acquire p .test
  | .set => some { s.goto p .acquired with locked := true, owner := s.pid p }
  | .acquired => some (s.release p .inside)
  | .release => s.acquire p .clear
  | .clear => some { s.goto p (.wakeup (List.finRange n)) with locked := false, owner := 0 }
  | .wakeup [] => some (s.goto p .released)
  | .wakeup (q :: todo) =>
    if q = p then some (s.goto p (.wakeup todo))
    -- `acquire(&q->lock)` waits for a process that is about to sleep
    else if (s.pc q).holdsOwn then none
    else some ((s.wake q (some .sleepLock)).goto p (.wakeup todo))
  | .released => some (s.release p .outside)
  | .holding inner => s.acquire p (.holdingTest inner)
  | .holdingTest inner => some (s.goto p (.holdingDone inner (s.locked && s.owner == s.pid p)))
  | .holdingDone inner _ => some (s.release p (.back inner))

end St

def step (s : St n) : Action n → Option (St n)
  | .run p => if s.state p = .runnable then some { s with state := Function.update s.state p .running } else none
  | .yield p =>
    if s.state p = .running ∧ (s.pc p).holdsLk = false ∧ (s.pc p).holdsOwn = false then
      some { s with state := Function.update s.state p .runnable } else none
  | .kill q => if (s.pc q).holdsOwn then none else some (s.wake q none)
  | .doze p =>
    if s.state p = .running ∧ (s.pc p = .outside ∨ s.pc p = .inside) then
      some { s with chan := Function.update s.chan p (some .other), state := Function.update s.state p .sleeping }
    else none
  | .stir q => if (s.pc q).holdsOwn then none else some (s.wake q (some .other))
  | .renew p pid => if s.pc p = .outside then some { s with pid := Function.update s.pid p pid } else none
  | .call p f => if s.state p = .running then s.call p f else none
  | .next p => if s.state p = .running then s.next p else none

def initsleeplock (pid : Fin n → ℕ) : St n where
  locked := false
  owner := 0
  lk := none
  state _ := .runnable
  chan _ := none
  pid := pid
  pc _ := .outside

def Distinct (s : St n) : Action n → Prop
  | .renew p pid => ∀ q, q ≠ p → s.pid q ≠ pid
  | _ => True

def Told (s : St n) (p : Fin n) : Prop := s.locked = true ∨ ∃ q todo, s.pc q = .wakeup todo ∧ p ∈ todo

structure Inv (s : St n) : Prop where
  lock : ∀ p, (s.pc p).holdsLk = true ↔ s.lk = some p
  owner : ∀ p, (s.pc p).owns = true → s.locked = true ∧ s.owner = s.pid p
  held : s.locked = true → ∃ p, (s.pc p).owns = true
  one : ∀ p q, (s.pc p).owns = true → (s.pc q).owns = true → p = q
  free : ∀ p, s.pc p = .set → s.locked = false
  busy : ∀ p, s.pc p = .sleepAcquire ∨ s.pc p = .sleepRelease → s.locked = true
  chan : ∀ p, s.state p = .sleeping → (s.pc p = .asleep ↔ s.chan p = some .sleepLock)
  told : ∀ p, s.pc p = .sleepSet ∨ s.pc p = .asleep ∧ s.state p = .sleeping → Told s p
  pids : ∀ p q, s.pid p = s.pid q → p = q
  answer : ∀ p inner r, s.pc p = .holdingDone inner r → r = inner

section Steps

variable {s t : St n} {p q : Fin n} {d : Pc n} {l : Option (Fin n)} {chan' : Fin n → Option Chan}

theorem St.wake_pc {ch : Option Chan} : (s.wake q ch).pc = s.pc := by
  unfold St.wake
  split_ifs <;> rfl

theorem St.wake_state_of_ne {ch : Option Chan} (h : p ≠ q) : (s.wake q ch).state p = s.state p := by
  unfold St.wake
  split_ifs
  · exact Function.update_of_ne h _ _
  · rfl

def Waits (s : St n) (p : Fin n) : Prop := s.pc p = .sleepSet ∨ s.pc p = .asleep ∧ s.state p = .sleeping

theorem Told.update (h : Told s q) (hlocked : t.locked = s.locked) (hpc : t.pc = Function.update s.pc p d)
    (hd : ∀ todo, s.pc p = .wakeup todo → q ∈ todo → ∃ todo', d = .wakeup todo' ∧ q ∈ todo') : Told t q := by
  rcases h with h | ⟨r, todo, hr, hq⟩
  · exact Or.inl (hlocked.trans h)
  · by_cases hrp : r = p
    · subst hrp
      obtain ⟨todo', hd', hq'⟩ := hd todo hr hq
      exact Or.inr ⟨r, todo', by rw [hpc, Function.update_self, hd'], hq'⟩
    · exact Or.inr ⟨r, todo, by rw [hpc, Function.update_of_ne hrp, hr], hq⟩

namespace Inv

theorem owner_update (h : s.locked = true → ∃ r, (s.pc r).owns = true) (ho : d.owns = (s.pc p).owns) (hl : s.locked = true) :
    ∃ r, (Function.update s.pc p d r).owns = true := by
  obtain ⟨r, hr⟩ := h hl
  refine ⟨r, ?_⟩
  by_cases hrp : r = p
  · subst hrp
    rw [Function.update_self, ho, hr]
  · rw [Function.update_of_ne hrp, hr]

theorem move (h : Inv s) (hrun : s.state p = .running) (hchan : ∀ q, q ≠ p → chan' q = s.chan q)
    (hl : ∀ q, q ≠ p → (l = some q ↔ s.lk = some q)) (hlk : d.holdsLk = true ↔ l = some p) (ho : d.owns = (s.pc p).owns)
    (hset : d = .set → s.locked = false)
    (hbusy : d = .sleepAcquire ∨ d = .sleepRelease ∨ d = .sleepSet → s.locked = true)
    (hd : ∀ inner r, d = .holdingDone inner r → r = inner)
    (htold : ∀ q todo, q ≠ p → Waits s q → s.pc p = .wakeup todo → q ∈ todo → ∃ todo', d = .wakeup todo' ∧ q ∈ todo') :
    Inv { s with pc := Function.update s.pc p d, lk := l, chan := chan' } := by
  constructor
  · have := h.lock
    grind [Function.update_apply]
  · have := h.owner
    grind [Function.update_apply]
  · exact owner_update h.held ho
  · have := h.one
    grind [Function.update_apply]
  · have := h.free
    grind [Function.update_apply]
  · have := h.busy
    grind [Function.update_apply]
  · have := h.chan
    grind [Function.update_apply]
  · intro q hq
    by_cases hqp : q = p
    · subst hqp
      simp only [Function.update_self, hrun, reduceCtorEq, and_false, or_false] at hq
      exact Or.inl (hbusy (Or.inr (Or.inr hq)))
    · simp only [Function.update_of_ne hqp] at hq
      exact (h.told q hq).update rfl rfl (fun todo hp hmem => htold q todo hqp hq hp hmem)
  · exact h.pids
  · have := h.answer
    grind [Function.update_apply]

theorem restate {st : ProcState} (h : Inv s) (hst : st ≠ .sleeping) :
    Inv { s with state := Function.update s.state q st } := by
  refine ⟨h.lock, h.owner, h.held, h.one, h.free, h.busy, fun p hp => ?_, fun p hp => ?_, h.pids, h.answer⟩
  · have := h.chan p
    grind [Function.update_apply]
  · have := h.told p
    unfold Told at *
    grind [Function.update_apply]

theorem wake {ch : Option Chan} (h : Inv s) : Inv (s.wake q ch) := by
  unfold St.wake
  split_ifs
  · exact h.restate (by decide)
  · exact h

theorem fallAsleep (h : Inv s) (hp : s.pc p = .sleepSet) : Inv { s with
    pc := Function.update s.pc p .asleep
    chan := Function.update s.chan p (some .sleepLock)
    state := Function.update s.state p .sleeping } := by
  have howns : (Pc.asleep : Pc n).owns = (s.pc p).owns := by rw [hp]; rfl
  constructor
  · have := h.lock
    grind [Function.update_apply, Pc.holdsLk]
  · have := h.owner
    grind [Function.update_apply]
  · exact owner_update h.held howns
  · have := h.one
    grind [Function.update_apply]
  · have := h.free
    grind [Function.update_apply]
  · have := h.busy
    grind [Function.update_apply]
  · have := h.chan
    grind [Function.update_apply]
  · intro q hq
    have hwait : Waits s q := by
      unfold Waits
      grind [Function.update_apply]
    exact (h.told q hwait).update rfl rfl (by rw [hp]; simp)
  · exact h.pids
  · have := h.answer
    grind [Function.update_apply]

theorem take (h : Inv s) (hp : s.pc p = .set) : Inv { s with
    pc := Function.update s.pc p .acquired
    locked := true
    owner := s.pid p } := by
  have hfree := h.free p hp
  have hnone : ∀ q, (s.pc q).owns = false := by
    intro q
    by_contra hq
    rw [(h.owner q (by simpa using hq)).1] at hfree
    cases hfree
  have hlk := (h.lock p).mp (by rw [hp]; rfl)
  constructor
  · have := h.lock
    grind [Function.update_apply, Pc.holdsLk]
  · grind [Function.update_apply]
  · intro _
    refine ⟨p, ?_⟩
    dsimp only
    rw [Function.update_self]
    rfl
  · grind [Function.update_apply]
  · have := h.lock
    grind [Function.update_apply, Pc.holdsLk]
  · exact fun _ _ => rfl
  · have := h.chan
    grind [Function.update_apply]
  · exact fun _ _ => Or.inl rfl
  · exact h.pids
  · have := h.answer
    grind [Function.update_apply]

theorem drop (h : Inv s) (hp : s.pc p = .clear) : Inv { s with
    pc := Function.update s.pc p (.wakeup (List.finRange n))
    locked := false
    owner := 0 } := by
  have hlk := (h.lock p).mp (by rw [hp]; rfl)
  have hone : ∀ q, q ≠ p → (s.pc q).owns = false := by
    intro q hq
    by_contra ho
    exact hq (h.one q p (by simpa using ho) (by rw [hp]; rfl))
  constructor
  · have := h.lock
    grind [Function.update_apply, Pc.holdsLk]
  · grind [Function.update_apply, Pc.owns, Pc.isInside]
  · exact fun hf => absurd hf Bool.false_ne_true
  · grind [Function.update_apply, Pc.owns, Pc.isInside]
  · exact fun _ _ => rfl
  · have := h.lock
    grind [Function.update_apply, Pc.holdsLk]
  · have := h.chan
    grind [Function.update_apply]
  · exact fun q _ => Or.inr ⟨p, List.finRange n, Function.update_self _ _ _, List.mem_finRange q⟩
  · exact h.pids
  · have := h.answer
    grind [Function.update_apply]

theorem woken (h : Inv s) (hown : (s.pc q).holdsOwn = false) : ¬ Waits (s.wake q (some .sleepLock)) q := by
  rintro (hpc | ⟨hpc, hst⟩)
  · rw [St.wake_pc] at hpc
    rw [hpc] at hown
    cases hown
  · rw [St.wake_pc] at hpc
    unfold St.wake at hst
    by_cases hc : s.state q = .sleeping ∧ (some Chan.sleepLock = none ∨ s.chan q = some .sleepLock)
    · rw [if_pos hc] at hst
      simp at hst
    · rw [if_neg hc] at hst
      exact hc ⟨hst, Or.inr ((h.chan q hst).mp hpc)⟩

theorem answers {inner : Bool} (h : Inv s) (hp : s.pc p = .holdingTest inner) :
    (s.locked && s.owner == s.pid p) = inner := by
  cases inner with
  | true =>
    obtain ⟨hl, ho⟩ := h.owner p (by rw [hp]; rfl)
    rw [hl, ho]
    simp
  | false =>
    by_contra hne
    simp only [Bool.not_eq_false, Bool.and_eq_true, beq_iff_eq] at hne
    obtain ⟨r, hr⟩ := h.held hne.1
    have hpid := (h.owner r hr).2
    rw [h.pids r p (by rw [← hpid, hne.2]), hp] at hr
    cases hr

theorem of_acquire (h : Inv s) (hrun : s.state p = .running) (hd : d.holdsLk = true) (ho : d.owns = (s.pc p).owns)
    (hnot : ∀ inner r, d ≠ .holdingDone inner r) (hset : d ≠ .set) (hbusy : d ≠ .sleepAcquire ∧ d ≠ .sleepRelease)
    (hpc : ∀ todo, s.pc p ≠ .wakeup todo) (ht : s.acquire p d = some t) : Inv t := by
  unfold St.acquire at ht
  split_ifs at ht with hlk
  cases ht
  have hsleep : d ≠ .sleepSet := by
    rintro rfl
    cases hd
  apply h.move hrun (fun _ _ => rfl)
  · intro q hq
    rw [hlk]
    simp [hq.symm]
  · simp [hd]
  · exact ho
  · exact fun hd' => absurd hd' hset
  · rintro (hd' | hd' | hd')
    · exact absurd hd' hbusy.1
    · exact absurd hd' hbusy.2
    · exact absurd hd' hsleep
  · exact fun inner r hd' => absurd hd' (hnot inner r)
  · exact fun q todo _ _ hp _ => absurd hp (hpc todo)

theorem of_release (h : Inv s) (hrun : s.state p = .running) (hp : (s.pc p).holdsLk = true) (hd : d.holdsLk = false)
    (ho : d.owns = (s.pc p).owns) (hsleep : d = .sleepSet → s.locked = true) (hpc : ∀ todo, s.pc p ≠ .wakeup todo) :
    Inv (s.release p d) := by
  have hlk := (h.lock p).mp hp
  have hne : ∀ e : Pc n, e.holdsLk = true → d ≠ e := by
    rintro e he rfl
    rw [hd] at he
    cases he
  apply h.move hrun (fun _ _ => rfl)
  · intro q hq
    rw [hlk]
    simp [hq.symm]
  · simp [hd]
  · exact ho
  · exact fun hd' => absurd hd' (hne _ rfl)
  · rintro (hd' | hd' | hd')
    · exact absurd hd' (hne _ rfl)
    · exact absurd hd' (hne _ rfl)
    · exact hsleep hd'
  · exact fun inner r hd' => absurd hd' (hne _ rfl)
  · exact fun q todo _ _ hp _ => absurd hp (hpc todo)

theorem goto (h : Inv s) (hrun : s.state p = .running) (hlk : d.holdsLk = (s.pc p).holdsLk) (ho : d.owns = (s.pc p).owns)
    (hset : d = .set → s.locked = false)
    (hbusy : d = .sleepAcquire ∨ d = .sleepRelease ∨ d = .sleepSet → s.locked = true)
    (hd : ∀ inner r, d = .holdingDone inner r → r = inner)
    (htold : ∀ q todo, q ≠ p → Waits s q → s.pc p = .wakeup todo → q ∈ todo → ∃ todo', d = .wakeup todo' ∧ q ∈ todo') :
    Inv (s.goto p d) := by
  apply h.move hrun (fun _ _ => rfl) (fun _ _ => Iff.rfl) _ ho hset hbusy hd htold
  rw [hlk]
  exact h.lock p

theorem of_call {f : Call} (h : Inv s) (hrun : s.state p = .running) (ht : s.call p f = some t) : Inv t := by
  have hgo : ∀ e : Pc n, s.pc p = .outside ∨ s.pc p = .inside → e.holdsLk = false → e.owns = (s.pc p).owns →
      e ≠ .sleepSet → Inv (s.goto p e) := by
    intro e hp he ho hsleep
    have hne : ∀ e' : Pc n, e'.holdsLk = true → e ≠ e' := by
      rintro e' he' rfl
      rw [he] at he'
      cases he'
    apply h.goto hrun _ ho (fun hd => absurd hd (hne _ rfl)) _ (fun inner r hd => absurd hd (hne _ rfl))
    · rcases hp with hp | hp <;> simp [hp]
    · rw [he]
      rcases hp with hp | hp <;> rw [hp] <;> rfl
    · rintro (hd | hd | hd)
      · exact absurd hd (hne _ rfl)
      · exact absurd hd (hne _ rfl)
      · exact absurd hd hsleep
  cases f with
  | acquiresleep =>
    simp only [St.call] at ht
    split_ifs at ht with hp
    cases ht
    exact hgo _ (Or.inl hp) rfl (by rw [hp]; rfl) (by simp)
  | releasesleep =>
    simp only [St.call] at ht
    split_ifs at ht with hp
    cases ht
    exact hgo _ (Or.inr hp) rfl (by rw [hp]; rfl) (by simp)
  | holdingsleep =>
    simp only [St.call] at ht
    split_ifs at ht with hp hp'
    · cases ht
      exact hgo _ (Or.inl hp) rfl (by rw [hp]; rfl) (by simp)
    · cases ht
      exact hgo _ (Or.inr hp') rfl (by rw [hp']; rfl) (by simp)

theorem of_next (h : Inv s) (hrun : s.state p = .running) (ht : s.next p = some t) : Inv t := by
  unfold St.next at ht
  cases hp : s.pc p with
  | outside =>
    rw [hp] at ht
    cases ht
  | inside =>
    rw [hp] at ht
    cases ht
  | acquire =>
    rw [hp] at ht
    exact h.of_acquire hrun rfl (by rw [hp]; rfl) (by simp) (by simp) (by simp) (by simp [hp]) ht
  | test =>
    rw [hp] at ht
    cases ht
    cases hl : s.locked with
    | true => exact h.goto hrun (by rw [hp]; rfl) (by rw [hp]; rfl) (by simp) (fun _ => hl) (by simp) (by simp [hp])
    | false => exact h.goto hrun (by rw [hp]; rfl) (by rw [hp]; rfl) (fun _ => hl) (by simp) (by simp) (by simp [hp])
  | sleepAcquire =>
    rw [hp] at ht
    cases ht
    exact h.goto hrun (by rw [hp]; rfl) (by rw [hp]; rfl) (by simp) (fun _ => h.busy p (Or.inl hp)) (by simp) (by simp [hp])
  | sleepRelease =>
    rw [hp] at ht
    cases ht
    exact h.of_release hrun (by rw [hp]; rfl) rfl (by rw [hp]; rfl) (fun _ => h.busy p (Or.inr hp)) (by simp [hp])
  | sleepSet =>
    rw [hp] at ht
    cases ht
    exact h.fallAsleep hp
  | asleep =>
    rw [hp] at ht
    cases ht
    apply h.move hrun (fun q hq => Function.update_of_ne hq _ _) (fun _ _ => Iff.rfl) _ (by rw [hp]; rfl) (by simp) (by simp)
      (by simp) (by simp [hp])
    rw [← h.lock p, hp]
    rfl
  | reacquire =>
    rw [hp] at ht
    exact h.of_acquire hrun rfl (by rw [hp]; rfl) (by simp) (by simp) (by simp) (by simp [hp]) ht
  | set =>
    rw [hp] at ht
    cases ht
    exact h.take hp
  | acquired =>
    rw [hp] at ht
    cases ht
    exact h.of_release hrun (by rw [hp]; rfl) rfl (by rw [hp]; rfl) (by simp) (by simp [hp])
  | release =>
    rw [hp] at ht
    exact h.of_acquire hrun rfl (by rw [hp]; rfl) (by simp) (by simp) (by simp) (by simp [hp]) ht
  | clear =>
    rw [hp] at ht
    cases ht
    exact h.drop hp
  | wakeup todo =>
    rw [hp] at ht
    cases todo with
    | nil =>
      cases ht
      apply h.goto hrun (by rw [hp]; rfl) (by rw [hp]; rfl) (by simp) (by simp) (by simp)
      intro q todo _ _ hp' hq
      rw [hp] at hp'
      cases hp'
      cases hq
    | cons q todo =>
      dsimp only at ht
      split_ifs at ht with hqp hown
      · cases ht
        apply h.goto hrun (by rw [hp]; rfl) (by rw [hp]; rfl) (by simp) (by simp) (by simp)
        intro r todo' hr _ hp' hmem
        rw [hp] at hp'
        cases hp'
        rcases List.mem_cons.mp hmem with rfl | hmem
        · exact absurd hqp hr
        · exact ⟨todo, rfl, hmem⟩
      · cases ht
        have hp' : (s.wake q (some .sleepLock)).pc p = .wakeup (q :: todo) := by
          rw [St.wake_pc, hp]
        have hrun' : (s.wake q (some .sleepLock)).state p = .running := by
          rw [St.wake_state_of_ne (Ne.symm hqp), hrun]
        apply h.wake.goto hrun' (by rw [hp']; rfl) (by rw [hp']; rfl) (by simp) (by simp) (by simp)
        intro r todo' _ hwait hp'' hmem
        rw [hp'] at hp''
        cases hp''
        rcases List.mem_cons.mp hmem with rfl | hmem
        · exact absurd hwait (h.woken (by simpa using hown))
        · exact ⟨todo, rfl, hmem⟩
  | released =>
    rw [hp] at ht
    cases ht
    exact h.of_release hrun (by rw [hp]; rfl) rfl (by rw [hp]; rfl) (by simp) (by simp [hp])
  | holding inner =>
    rw [hp] at ht
    exact h.of_acquire hrun rfl (by rw [hp]; cases inner <;> rfl) (by simp) (by simp) (by simp) (by simp [hp]) ht
  | holdingTest inner =>
    rw [hp] at ht
    cases ht
    have hr : (s.locked && s.owner == s.pid p) = inner := h.answers hp
    apply h.goto hrun (by rw [hp]; rfl) (by rw [hp]; cases inner <;> rfl) (by simp) (by simp) _ (by simp [hp])
    intro inner' r hd
    cases hd
    exact hr
  | holdingDone inner r =>
    rw [hp] at ht
    cases ht
    apply h.of_release hrun (by rw [hp]; rfl) _ (by rw [hp]; cases inner <;> rfl) _ (by simp [hp])
    · cases inner <;> rfl
    · cases inner <;> simp [Pc.back]

theorem of_step {a : Action n} (h : Inv s) (hd : Distinct s a) (ht : step s a = some t) : Inv t := by
  cases a with
  | run p =>
    simp only [step] at ht
    split_ifs at ht
    cases ht
    exact h.restate (by decide)
  | yield p =>
    simp only [step] at ht
    split_ifs at ht
    cases ht
    exact h.restate (by decide)
  | kill q =>
    simp only [step] at ht
    split_ifs at ht
    cases ht
    exact h.wake
  | doze p =>
    simp only [step] at ht
    split_ifs at ht with hp
    cases ht
    refine ⟨h.lock, h.owner, h.held, h.one, h.free, h.busy, fun q hq => ?_, fun q hq => ?_, h.pids, h.answer⟩
    · have := h.chan q
      grind [Function.update_apply]
    · have := h.told q
      unfold Told at *
      grind [Function.update_apply]
  | stir q =>
    simp only [step] at ht
    split_ifs at ht
    cases ht
    exact h.wake
  | renew p pid =>
    simp only [step] at ht
    split_ifs at ht with hp
    cases ht
    have hout : (s.pc p).owns = false := by rw [hp]; rfl
    refine ⟨h.lock, fun q hq => ?_, h.held, h.one, h.free, h.busy, h.chan, h.told, fun q r hqr => ?_, h.answer⟩
    · have := h.owner q hq
      grind [Function.update_apply]
    · have := h.pids q r
      unfold Distinct at hd
      grind [Function.update_apply]
  | call p f =>
    simp only [step] at ht
    split_ifs at ht with hrun
    exact h.of_call hrun ht
  | next p =>
    simp only [step] at ht
    split_ifs at ht with hrun
    exact h.of_next hrun ht

theorem of_initsleeplock {pid : Fin n → ℕ} (h : Function.Injective pid) : Inv (initsleeplock pid) := by
  constructor
  · simp [initsleeplock, Pc.holdsLk]
  · simp [initsleeplock, Pc.owns, Pc.isInside]
  · simp [initsleeplock]
  · simp [initsleeplock, Pc.owns, Pc.isInside]
  · simp [initsleeplock]
  · simp [initsleeplock]
  · simp [initsleeplock]
  · simp [initsleeplock]
  · exact fun p q hpq => h hpq
  · simp [initsleeplock]

end Inv

end Steps

theorem sleep_lock_excludes {s : St n} (pid : Fin n → ℕ) (hpid : Function.Injective pid)
    (h : Run step Distinct (initsleeplock pid) s) :
    (∀ p q, (s.pc p).isInside = true → (s.pc q).isInside = true → p = q) ∧
    (∀ p inner r, s.pc p = .holdingDone inner r → (r = true ↔ (s.pc p).isInside = true)) ∧
    ∀ p, s.lk = none → s.state p = .sleeping → s.chan p = some .sleepLock → s.locked = true := by
  have hinv : Inv s := h.invariant (Inv.of_initsleeplock hpid) (fun _ _ _ hi hd ht => hi.of_step hd ht)
  have howns : ∀ p, (s.pc p).isInside = true → (s.pc p).owns = true := by
    intro p hp
    unfold Pc.owns
    split
    · rfl
    · rfl
    · rfl
    · exact hp
  refine ⟨fun p q hp hq => hinv.one p q (howns p hp) (howns q hq), fun p inner r hp => ?_, fun p hlk hst hchan => ?_⟩
  · rw [hinv.answer p inner r hp, hp]
    cases inner <;> simp [Pc.isInside]
  · rcases hinv.told p (Or.inr ⟨(hinv.chan p hst).mpr hchan, hst⟩) with hl | ⟨q, todo, hq, -⟩
    · exact hl
    · have hlock := (hinv.lock q).mp (by rw [hq]; rfl)
      rw [hlk] at hlock
      cases hlock

section Example

instance decidableDistinct (s : St n) : (a : Action n) → Decidable (Distinct s a)
  | .renew p pid => inferInstanceAs (Decidable (∀ q, q ≠ p → s.pid q ≠ pid))
  | .run _ | .yield _ | .kill _ | .doze _ | .stir _ | .call _ _ | .next _ => inferInstanceAs (Decidable True)

def contention (p q : Fin 2) : List (Action 2) :=
  [.run p, .call p .acquiresleep, .next p, .next p, .next p, .next p, .run q, .call q .acquiresleep, .next q, .next q,
    .next q, .next q, .next q, .call p .holdingsleep, .next p, .next p]

theorem contended_lock : ∃ s, execute step Distinct (initsleeplock (Fin.val : Fin 2 → ℕ)) (contention 0 1) = some s ∧
    s.state 1 = .sleeping ∧ s.chan 1 = some .sleepLock ∧ s.pc 0 = .holdingDone true true ∧ s.locked = true ∧
    ∀ p q, (s.pc p).isInside = true → (s.pc q).isInside = true → p = q := by
  obtain ⟨s, hs⟩ : ∃ s, execute step Distinct (initsleeplock (Fin.val : Fin 2 → ℕ)) (contention 0 1) = some s := ⟨_, rfl⟩
  have h := sleep_lock_excludes Fin.val Fin.val_injective (run_of_execute hs)
  have hfacts : s.state 1 = .sleeping ∧ s.chan 1 = some .sleepLock ∧ s.pc 0 = .holdingDone true true ∧ s.locked = true := by
    cases hs
    decide
  exact ⟨s, hs, hfacts.1, hfacts.2.1, hfacts.2.2.1, hfacts.2.2.2, h.1⟩

end Example

end Xv6.Sync
