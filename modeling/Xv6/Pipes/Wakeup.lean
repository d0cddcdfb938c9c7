import Xv6.Pipes.Fifo

namespace Xv6.Pipes

open Lib.Transition
open Function (update update_of_ne update_self)

variable {P : Type} [DecidableEq P] {s t : St P} {a : Action P} {p q : P}

def ReaderSleeps (s : St P) : Prop := ∀ q n, s.pc q = .readAsleep n →
  (s.pipe.empty ∧ s.pipe.writeopen = true) ∨
    ∃ p src m i, s.lock = some p ∧ s.pc p = .writing src m i ∧ s.pipe.readopen = true ∧ s.killed p = false

def Pc.isWriting : Pc → Bool
  | .writing _ _ _ => true
  | _ => false

def SparesWriters (s : St P) : Action P → Prop
  | .kill p => (s.pc p).isWriting = false
  | _ => True

instance (s : St P) (a : Action P) : Decidable (SparesWriters s a) :=
  match a with
  | .kill p => inferInstanceAs (Decidable ((s.pc p).isWriting = false))
  | .next _ _ | .pipewrite _ _ _ | .piperead _ _ | .pipeclose _ _ | .acquire _ | .leave _ => isTrue trivial

theorem wakeRead_ne (c : Pc) (n : ℤ) : c.wakeRead ≠ .readAsleep n := by
  cases c <;> exact nofun

theorem wakeWrite_eq {c : Pc} {n : ℤ} (h : c.wakeWrite = .readAsleep n) : c = .readAsleep n := by
  cases c <;> first | exact h | cases h

omit [DecidableEq P] in
theorem ReaderSleeps.empty {n : ℤ} (h : ReaderSleeps s) (hm : Mutex s) (hp : (s.pc p).holds = true)
    (hnot : ∀ src m i, s.pc p = .writing src m i → s.pipe.readopen = false ∨ s.killed p = true)
    (hq : s.pc q = .readAsleep n) : s.pipe.empty ∧ s.pipe.writeopen = true := by
  rcases h q n hq with hempty | ⟨r, src, m, i, hl, hr, hopen, hk⟩
  · exact hempty
  · rw [hm p hp] at hl
    cases hl
    rcases hnot src m i hr with hn | hn
    · rw [hopen] at hn
      cases hn
    · rw [hk] at hn
      cases hn

theorem ReaderSleeps.hold {c : Pc} {pc : P → Pc} (h : ReaderSleeps s) (hm : Mutex s) (hp : (s.pc p).holds = true)
    (hnot : ∀ src m i, s.pc p = .writing src m i → s.pipe.readopen = false ∨ s.killed p = true)
    (ht : t.pc = update pc p c) (hpc : ∀ q n, pc q = .readAsleep n → s.pc q = .readAsleep n)
    (hc : (s.pipe.empty ∧ s.pipe.writeopen = true) ∨ ∀ n, c ≠ .readAsleep n)
    (hpipe : s.pipe.empty ∧ s.pipe.writeopen = true → t.pipe.empty ∧ t.pipe.writeopen = true) : ReaderSleeps t := by
  intro q n hq
  refine Or.inl (hpipe ?_)
  rw [ht] at hq
  by_cases hqp : q = p
  · subst hqp
    rw [update_self] at hq
    exact hc.resolve_right (fun hc => hc n hq)
  · rw [update_of_ne hqp] at hq
    exact h.empty hm hp hnot (hpc q n hq)

theorem ReaderSleeps.goto {c : Pc} (h : ReaderSleeps s) (hc : ∀ n, c ≠ .readAsleep n)
    (hp : (s.pc p).isWriting = false) {k : P → Bool} (hk : ∀ q ≠ p, k q = s.killed q) :
    ReaderSleeps { s with killed := k, pc := update s.pc p c } := by
  intro q n hq
  have hqp : q ≠ p := by
    rintro rfl
    exact hc n ((update_self _ _ _).symm.trans hq)
  rcases h q n ((update_of_ne hqp _ _).symm.trans hq) with hempty | ⟨r, src, m, i, hl, hr, hopen, hkr⟩
  · exact Or.inl hempty
  · have hrp : r ≠ p := by
      rintro rfl
      rw [hr] at hp
      cases hp
    exact Or.inr ⟨r, src, m, i, hl, (update_of_ne hrp _ _).trans hr, hopen, (hk r hrp).trans hkr⟩

theorem ReaderSleeps.wake {c : Pc} (ht : t.pc = update (fun q => (s.pc q).wakeRead) p c)
    (hc : ∀ n, c ≠ .readAsleep n) : ReaderSleeps t := by
  intro q n hq
  rw [ht] at hq
  by_cases hqp : q = p
  · subst hqp
    rw [update_self] at hq
    exact absurd hq (hc n)
  · rw [update_of_ne hqp] at hq
    exact absurd hq (wakeRead_ne _ _)

theorem ReaderSleeps.of_step (h : ReaderSleeps s) (hm : Mutex s) (hs : SparesWriters s a) (ht : Step s a t) :
    ReaderSleeps t := by
  cases ht with
  | call hp hc hh hw =>
    apply h.goto _ (by rw [hp]; rfl) (fun _ _ => rfl)
    rintro n rfl
    cases hc
  | @acquire p c hl hp =>
    intro q n hq
    have hqp : q ≠ p := by
      rintro rfl
      have hc : c = _ := (update_self _ _ _).symm.trans hq
      have := (holds_of_entered hp).2
      rw [hc] at this
      cases this
    rcases h q n ((update_of_ne hqp _ _).symm.trans hq) with hempty | ⟨r, src, m, i, hl', -⟩
    · exact Or.inl hempty
    · rw [hl] at hl'
      cases hl'
  | wrote hp hc =>
    refine ReaderSleeps.wake rfl ?_
    rintro n rfl
    rcases hc with hc | ⟨-, -, hc⟩ <;> cases hc
  | refused hp hr =>
    exact h.hold hm (by rw [hp]; rfl) (fun _ _ _ _ => hr) rfl (fun _ _ => id) (Or.inr nofun) id
  | @put p src m i copied hp hr hk hf hc =>
    exact fun q n hq => Or.inr ⟨p, src, m, i + 1, hm p (by rw [hp]; rfl), update_self _ _ _, hr, hk⟩
  | readKilled hp =>
    exact h.hold hm (by rw [hp]; rfl) (by rw [hp]; exact nofun) rfl (fun _ _ => id) (Or.inr nofun) id
  | readSleep hp he hw =>
    exact h.hold hm (by rw [hp]; rfl) (by rw [hp]; exact nofun) rfl (fun _ _ => id) (Or.inl ⟨he, hw⟩) id
  | readStart hp he =>
    exact h.hold hm (by rw [hp]; rfl) (by rw [hp]; exact nofun) rfl (fun _ _ => id) (Or.inr nofun) id
  | readDone hp he =>
    exact h.hold hm (by rw [hp]; rfl) (by rw [hp]; exact nofun) rfl (fun _ _ => wakeWrite_eq) (Or.inr nofun) id
  | lose hp he hc =>
    exact h.hold hm (by rw [hp]; rfl) (by rw [hp]; exact nofun) rfl (fun _ _ => wakeWrite_eq) (Or.inr nofun)
      (fun hempty => absurd hempty.1 he)
  | deliver hp he hc =>
    exact h.hold hm (by rw [hp]; rfl) (by rw [hp]; exact nofun) rfl (fun _ _ => id) (Or.inr nofun)
      (fun hempty => absurd hempty.1 he)
  | @close p w copied hp =>
    cases w with
    | true => exact ReaderSleeps.wake rfl nofun
    | false =>
      exact h.hold hm (by rw [hp]; rfl) (by rw [hp]; exact nofun) rfl (fun _ _ => wakeWrite_eq) (Or.inr nofun) id
  | kill p =>
    refine h.goto ?_ hs (fun q hq => update_of_ne hq _ _)
    intro n hc
    exact wakeRead_ne _ _ (wakeWrite_eq hc)
  | leave hp =>
    refine h.goto ?_ (by rw [hp]; rfl) (fun _ _ => rfl)
    exact nofun

/-- While no process is killed within the loop of `pipewrite`, no reader sleeps on a pipe that has bytes in it
or whose write end is closed. -/
theorem readers_sleep_on_empty_pipes (h : Run step SparesWriters (init P) s) (hl : s.lock = none) {n : ℤ}
    (hq : s.pc q = .readAsleep n) : s.pipe.nread = s.pipe.nwrite ∧ s.pipe.writeopen = true := by
  have hinv : Mutex s ∧ ReaderSleeps s := by
    apply h.invariant (I := fun s => Mutex s ∧ ReaderSleeps s) ⟨nofun, nofun⟩
    rintro s a t ⟨hm, hr⟩ hc he
    exact ⟨hm.of_step (step_inv he), hr.of_step hm hc (step_inv he)⟩
  rcases hinv.2 q n hq with hempty | ⟨r, src, m, i, hl', -⟩
  · exact hempty
  · rw [hl] at hl'
    cases hl'

theorem reader_waits_for_bytes :
    ∃ s, execute step SparesWriters (init Bool) [.piperead false 1, .acquire false, .next false true] = some s ∧
      s.lock = none ∧ s.pc false = .readAsleep 1 ∧ s.pipe.nread = s.pipe.nwrite ∧ s.pipe.writeopen = true := by
  refine ⟨_, rfl, rfl, rfl, ?_⟩
  exact readers_sleep_on_empty_pipes (run_of_execute
    (show execute step SparesWriters (init Bool) [.piperead false 1, .acquire false, .next false true] = some _ from rfl))
    rfl (q := false) rfl

def killMidWrite : List (Action Bool) :=
  [.piperead false 1, .acquire false, .next false true, .pipewrite true threeBytes 2, .acquire true, .next true true,
    .kill true, .next true true]

theorem killed_writer_leaves_reader_asleep :
    ∃ s, Run step (fun _ _ => True) (init Bool) s ∧ s.lock = none ∧ s.pc false = .readAsleep 1 ∧
      s.pipe.nread = 0 ∧ s.pipe.nwrite = 1 := by
  have hrun : execute step (fun _ _ => True) (init Bool) killMidWrite = some _ := rfl
  exact ⟨_, run_of_execute hrun, rfl, rfl, rfl, rfl⟩

end Xv6.Pipes
