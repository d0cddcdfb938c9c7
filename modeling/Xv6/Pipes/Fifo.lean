import Mathlib.Order.Basic
import Xv6.Pipes.Machine

namespace Xv6.Pipes

open Lib.Transition
open Function (update update_of_ne update_self)

variable {P : Type} [DecidableEq P] {s t : St P} {a : Action P}

@[simp] theorem holds_wakeRead (c : Pc) : c.wakeRead.holds = c.holds := by
  cases c <;> rfl

@[simp] theorem holds_wakeWrite (c : Pc) : c.wakeWrite.holds = c.holds := by
  cases c <;> rfl

theorem holds_of_entered {c d : Pc} (h : c.entered = some d) : c.holds = false ∧ d.holds = true := by
  cases c <;> cases h <;> exact ⟨rfl, rfl⟩

def Mutex (s : St P) : Prop := ∀ p, (s.pc p).holds = true → s.lock = some p

theorem Mutex.goto {p : P} {c : Pc} (h : Mutex s) (hc : c.holds = true → (s.pc p).holds = true) : Mutex (s.goto p c) := by
  intro q hq
  by_cases hqp : q = p
  · subst hqp
    simp only [St.goto, update_self] at hq
    exact h q (hc hq)
  · simp only [St.goto, update_of_ne hqp] at hq
    exact h q hq

theorem Mutex.release {p : P} {c : Pc} {pc : P → Pc} (h : Mutex s) (hp : (s.pc p).holds = true) (hc : c.holds = false)
    (hpc : ∀ q, (pc q).holds = (s.pc q).holds) (q : P) : (update pc p c q).holds = false := by
  by_cases hqp : q = p
  · subst hqp
    rw [update_self, hc]
  · rw [update_of_ne hqp, hpc]
    by_contra hq
    rw [Bool.not_eq_false] at hq
    exact hqp (Option.some_inj.mp ((h q hq).symm.trans (h p hp)))

theorem Mutex.of_step (h : Mutex s) (ht : Step s a t) : Mutex t := by
  have hfree {pc : P → Pc} (hpc : ∀ q, (pc q).holds = false) {l : Option P} (q : P) (hq : (pc q).holds = true) :
      l = some q := by
    rw [hpc q] at hq
    cases hq
  cases ht with
  | call hp hc hh hs => exact h.goto (fun hc' => by rw [hh] at hc'; cases hc')
  | @acquire p c hl hp =>
    intro q hq
    by_cases hqp : q = p
    · rw [hqp]
    · dsimp only at hq
      rw [update_of_ne hqp] at hq
      have := h q hq
      rw [hl] at this
      cases this
  | wrote hp hc =>
    apply hfree
    apply h.release (by rw [hp]; rfl)
    · rcases hc with rfl | ⟨-, -, rfl⟩ <;> rfl
    · exact fun q => holds_wakeRead _
  | refused hp hr => exact fun q => hfree (h.release (by rw [hp]; rfl) rfl (fun _ => rfl)) q
  | put hp hr hk hf hc => exact h.goto (fun _ => by rw [hp]; rfl)
  | readKilled hp => exact fun q => hfree (h.release (by rw [hp]; rfl) rfl (fun _ => rfl)) q
  | readSleep hp he hw => exact fun q => hfree (h.release (by rw [hp]; rfl) rfl (fun _ => rfl)) q
  | readStart hp he => exact h.goto (fun _ => by rw [hp]; rfl)
  | readDone hp he => exact fun q => hfree (h.release (by rw [hp]; rfl) rfl (fun q => holds_wakeWrite _)) q
  | lose hp he hc => exact fun q => hfree (h.release (by rw [hp]; rfl) rfl (fun q => holds_wakeWrite _)) q
  | deliver hp he hc => exact h.goto (fun _ => by rw [hp]; rfl)
  | @close p w copied hp =>
    cases w with
    | true => exact fun q => hfree (h.release (by rw [hp]; rfl) rfl (fun q => holds_wakeRead _)) q
    | false => exact fun q => hfree (h.release (by rw [hp]; rfl) rfl (fun q => holds_wakeWrite _)) q
  | kill p => exact h.goto (fun hc => by rwa [holds_wakeWrite, holds_wakeRead] at hc)
  | leave hp => exact h.goto nofun

structure Fifo (pi : Pipe) (accepted delivered : List UInt8) : Prop where
  taken : delivered <+: accepted
  room : accepted.length ≤ delivered.length + pipeSize
  nread : pi.nread = delivered.length % 2 ^ 32
  nwrite : pi.nwrite = accepted.length % 2 ^ 32
  data : ∀ k, delivered.length ≤ k → ∀ h : k < accepted.length, pi.data (slot k) = accepted[k]

theorem slot_mod (n : ℕ) : slot (n % 2 ^ 32) = slot n := by
  apply Fin.ext
  simp only [slot, pipeSize]
  omega

theorem slot_inj {m n : ℕ} (h : slot m = slot n) (hlt : m < n + pipeSize) (hlt' : n < m + pipeSize) : m = n := by
  have := congrArg Fin.val h
  simp only [slot, pipeSize] at *
  omega

theorem Fifo.full_iff {pi : Pipe} {xs ys : List UInt8} (h : Fifo pi xs ys) :
    pi.full ↔ xs.length = ys.length + pipeSize := by
  have := h.room
  have := h.taken.length_le
  rw [Pipe.full, h.nread, h.nwrite]
  simp only [pipeSize] at *
  omega

theorem Fifo.empty_iff {pi : Pipe} {xs ys : List UInt8} (h : Fifo pi xs ys) : pi.empty ↔ xs.length = ys.length := by
  have := h.room
  have := h.taken.length_le
  rw [Pipe.empty, h.nread, h.nwrite]
  simp only [pipeSize] at *
  omega

theorem Fifo.put {pi : Pipe} {xs ys : List UInt8} (h : Fifo pi xs ys) (hf : ¬ pi.full) (ch : UInt8) :
    Fifo (pi.put ch) (xs ++ [ch]) ys := by
  rw [h.full_iff] at hf
  have hroom := h.room
  have hle := h.taken.length_le
  refine ⟨h.taken.trans (List.prefix_append _ _), ?_, h.nread, ?_, ?_⟩
  · rw [List.length_append, List.length_singleton]
    omega
  · rw [List.length_append, List.length_singleton, Pipe.put, h.nwrite]
    dsimp only
    omega
  · intro k hk hlt
    simp only [Pipe.put, h.nwrite, slot_mod]
    rw [List.length_append, List.length_singleton] at hlt
    by_cases hkx : k = xs.length
    · subst hkx
      simp
    · rw [update_of_ne, List.getElem_append_left (by omega)]
      · exact h.data k hk (by omega)
      · intro he
        exact hkx (slot_inj he (by omega) (by omega))

theorem Fifo.take {pi : Pipe} {xs ys : List UInt8} (h : Fifo pi xs ys) (he : ¬ pi.empty) :
    Fifo pi.advance xs (ys ++ [pi.front]) := by
  rw [h.empty_iff] at he
  have hle := h.taken.length_le
  have hlt : ys.length < xs.length := by omega
  have hfront : pi.front = xs[ys.length] := by
    rw [Pipe.front, h.nread, slot_mod]
    exact h.data ys.length (Nat.le_refl _) hlt
  refine ⟨?_, ?_, ?_, h.nwrite, fun k hk => ?_⟩
  · rw [hfront]
    obtain ⟨zs, rfl⟩ := h.taken
    cases zs with
    | nil => simp at hlt
    | cons z zs =>
      rw [List.getElem_append_right (Nat.le_refl _)]
      simp
  · have := h.room
    rw [List.length_append, List.length_singleton]
    omega
  · rw [List.length_append, List.length_singleton, Pipe.advance, h.nread]
    dsimp only
    omega
  · rw [List.length_append, List.length_singleton] at hk
    exact h.data k (by omega)

def Copies : Action P → Prop
  | .next _ copied => copied = true
  | _ => True

instance (a : Action P) : Decidable (Copies a) :=
  match a with
  | .next _ copied => inferInstanceAs (Decidable (copied = true))
  | .pipewrite _ _ _ | .piperead _ _ | .pipeclose _ _ | .acquire _ | .kill _ | .leave _ => isTrue trivial

theorem Fifo.of_step (h : Fifo s.pipe s.accepted s.delivered) (hc : Copies a) (ht : Step s a t) :
    Fifo t.pipe t.accepted t.delivered := by
  cases ht with
  | put hp hr hk hf => exact h.put hf _
  | lose hp he hl => exact absurd (show _ = true from hc) (by simp [hl])
  | deliver hp he => exact h.take he
  | @close p w copied hp =>
    cases w with
    | true => exact ⟨h.taken, h.room, h.nread, h.nwrite, h.data⟩
    | false => exact ⟨h.taken, h.room, h.nread, h.nwrite, h.data⟩
  | _ => exact h

def WriterSleeps (s : St P) : Prop := ∀ q src n i, s.pc q = .writeAsleep src n i →
  (s.pipe.full ∧ s.pipe.readopen = true) ∨ ∃ p m j, s.lock = some p ∧ s.pc p = .copying m j

theorem wakeWrite_ne (c : Pc) (src : ℕ → UInt8) (n : ℤ) (i : ℕ) : c.wakeWrite ≠ .writeAsleep src n i := by
  cases c <;> exact nofun

theorem wakeRead_eq {c : Pc} {src : ℕ → UInt8} {n : ℤ} {i : ℕ} (h : c.wakeRead = .writeAsleep src n i) :
    c = .writeAsleep src n i := by
  cases c <;> first | exact h | cases h

omit [DecidableEq P] in
theorem WriterSleeps.full {p : P} (h : WriterSleeps s) (hm : Mutex s) (hp : (s.pc p).holds = true)
    (hnot : ∀ m j, s.pc p ≠ .copying m j) {q : P} {src : ℕ → UInt8} {n : ℤ} {i : ℕ}
    (hq : s.pc q = .writeAsleep src n i) : s.pipe.full ∧ s.pipe.readopen = true := by
  rcases h q src n i hq with hfull | ⟨r, m, j, hl, hr⟩
  · exact hfull
  · rw [hm p hp] at hl
    cases hl
    exact absurd hr (hnot m j)

theorem WriterSleeps.goto {p : P} {c : Pc} (h : WriterSleeps s) (hc : ∀ src n i, c ≠ .writeAsleep src n i)
    (hp : ∀ m j, s.pc p = .copying m j → ∃ m j, c = .copying m j) : WriterSleeps (s.goto p c) := by
  intro q src n i hq
  have hqp : q ≠ p := by
    rintro rfl
    exact hc src n i ((update_self _ _ _).symm.trans hq)
  rcases h q src n i ((update_of_ne hqp _ _).symm.trans hq) with hfull | ⟨r, m, j, hl, hr⟩
  · exact Or.inl hfull
  · by_cases hrp : r = p
    · subst hrp
      obtain ⟨m', j', hc'⟩ := hp m j hr
      exact Or.inr ⟨r, m', j', hl, (update_self _ _ _).trans hc'⟩
    · exact Or.inr ⟨r, m, j, hl, (update_of_ne hrp _ _).trans hr⟩

theorem WriterSleeps.hold {p : P} {c : Pc} {pc : P → Pc} (h : WriterSleeps s) (hm : Mutex s)
    (hp : (s.pc p).holds = true) (hnot : ∀ m j, s.pc p ≠ .copying m j) (ht : t.pc = update pc p c)
    (hpc : ∀ q src n i, pc q = .writeAsleep src n i → s.pc q = .writeAsleep src n i)
    (hc : (s.pipe.full ∧ s.pipe.readopen = true) ∨ ∀ src n i, c ≠ .writeAsleep src n i)
    (hpipe : s.pipe.full ∧ s.pipe.readopen = true → t.pipe.full ∧ t.pipe.readopen = true) : WriterSleeps t := by
  intro q src n i hq
  refine Or.inl (hpipe ?_)
  rw [ht] at hq
  by_cases hqp : q = p
  · subst hqp
    rw [update_self] at hq
    exact hc.resolve_right (fun hc => hc src n i hq)
  · rw [update_of_ne hqp] at hq
    exact h.full hm hp hnot (hpc _ _ _ _ hq)

theorem not_asleep_wakeWrite {p q : P} {c : Pc} {src : ℕ → UInt8} {n : ℤ} {i : ℕ}
    (hc : ∀ src n i, c ≠ .writeAsleep src n i) :
    update (fun q => (s.pc q).wakeWrite) p c q ≠ .writeAsleep src n i := by
  by_cases hqp : q = p
  · subst hqp
    rw [update_self]
    exact hc src n i
  · rw [update_of_ne hqp]
    exact wakeWrite_ne _ _ _ _

theorem WriterSleeps.of_step (h : WriterSleeps s) (hm : Mutex s) (ht : Step s a t) : WriterSleeps t := by
  cases ht with
  | call hp hc hh hs =>
    apply h.goto
    · rintro src n i rfl
      cases hc
    · intro m j hr
      rw [hp] at hr
      cases hr
  | @acquire p c hl hp =>
    intro q src n i hq
    have hqp : q ≠ p := by
      rintro rfl
      have hc : c = _ := (update_self _ _ _).symm.trans hq
      have := (holds_of_entered hp).2
      rw [hc] at this
      cases this
    rcases h q src n i ((update_of_ne hqp _ _).symm.trans hq) with hfull | ⟨r, m, j, hl', -⟩
    · exact Or.inl hfull
    · rw [hl] at hl'
      cases hl'
  | wrote hp hc =>
    refine h.hold hm (by rw [hp]; rfl) (by rw [hp]; exact nofun) rfl (fun _ _ _ _ => wakeRead_eq) ?_ id
    rcases hc with rfl | ⟨hf, hr, -⟩
    · exact Or.inr nofun
    · exact Or.inl ⟨hf, hr⟩
  | refused hp hr =>
    exact h.hold hm (by rw [hp]; rfl) (by rw [hp]; exact nofun) rfl (fun _ _ _ _ => id) (Or.inr nofun) id
  | put hp hr hk hf hc =>
    exact h.hold hm (by rw [hp]; rfl) (by rw [hp]; exact nofun) rfl (fun _ _ _ _ => id) (Or.inr nofun)
      (fun hfull => absurd hfull.1 hf)
  | readKilled hp =>
    exact h.hold hm (by rw [hp]; rfl) (by rw [hp]; exact nofun) rfl (fun _ _ _ _ => id) (Or.inr nofun) id
  | readSleep hp he hw =>
    exact h.hold hm (by rw [hp]; rfl) (by rw [hp]; exact nofun) rfl (fun _ _ _ _ => id) (Or.inr nofun) id
  | @readStart p m _ hp he =>
    exact fun _ _ _ _ _ => Or.inr ⟨p, m, 0, hm p (by rw [hp]; rfl), update_self _ _ _⟩
  | readDone hp he => exact fun _ _ _ _ hq => absurd hq (not_asleep_wakeWrite nofun)
  | lose hp he hc => exact fun _ _ _ _ hq => absurd hq (not_asleep_wakeWrite nofun)
  | @deliver p m j _ hp he hc =>
    exact fun _ _ _ _ _ => Or.inr ⟨p, m, j + 1, hm p (by rw [hp]; rfl), update_self _ _ _⟩
  | @close p w _ hp =>
    cases w with
    | true => exact h.hold hm (by rw [hp]; rfl) (by rw [hp]; exact nofun) rfl (fun _ _ _ _ => wakeRead_eq) (Or.inr nofun) id
    | false => exact fun _ _ _ _ hq => absurd hq (not_asleep_wakeWrite nofun)
  | kill p =>
    apply h.goto
    · exact wakeWrite_ne _
    · intro m j hr
      exact ⟨m, j, by rw [hr]; rfl⟩
  | leave hp =>
    apply h.goto
    · exact nofun
    · intro m j hr
      rw [hp] at hr
      cases hr

def Started (s : St P) : Prop := ∀ p n, s.pc p = .copying n 0 → ¬ (s.pipe.empty ∧ s.pipe.writeopen = true)

theorem Started.goto {p : P} {c : Pc} {l : Option P} {k : P → Bool} (h : Started s)
    (hc : ∀ n, c = .copying n 0 → s.pc p = .copying n 0) :
    Started { s with lock := l, killed := k, pc := update s.pc p c } := by
  intro q n hq
  by_cases hqp : q = p
  · subst hqp
    exact h q n (hc n ((update_self _ _ _).symm.trans hq))
  · exact h q n ((update_of_ne hqp _ _).symm.trans hq)

theorem Started.hold {p : P} {c : Pc} {pc : P → Pc} (hm : Mutex s) (hp : (s.pc p).holds = true)
    (ht : t.pc = update pc p c) (hpc : ∀ q, (pc q).holds = (s.pc q).holds) (hc : ∀ n, c ≠ .copying n 0) :
    Started t := by
  intro q n hq
  rw [ht] at hq
  by_cases hqp : q = p
  · subst hqp
    rw [update_self] at hq
    exact absurd hq (hc n)
  · rw [update_of_ne hqp] at hq
    have hqh : (s.pc q).holds = true := by
      rw [← hpc, hq]
      rfl
    exact absurd (Option.some_inj.mp ((hm q hqh).symm.trans (hm p hp))) hqp

theorem Started.of_step (h : Started s) (hm : Mutex s) (ht : Step s a t) : Started t := by
  cases ht with
  | call hp hc hh hs =>
    apply h.goto
    rintro n rfl
    cases hc
  | acquire hl hp =>
    apply h.goto
    rintro n rfl
    revert hp
    cases s.pc _ <;> exact nofun
  | @wrote p _ _ _ _ c hp hc =>
    refine Started.hold hm (by rw [hp]; rfl) rfl (fun q => holds_wakeRead _) ?_
    rintro n rfl
    rcases hc with hc | ⟨-, -, hc⟩ <;> cases hc
  | refused hp hr => exact h.goto nofun
  | put hp hr hk hf hc =>
    exact Started.hold hm (by rw [hp]; rfl) rfl (fun _ => rfl) nofun
  | readKilled hp => exact h.goto nofun
  | readSleep hp he hw => exact h.goto nofun
  | @readStart p m _ hp he =>
    exact fun q n _ => he
  | readDone hp he =>
    exact Started.hold hm (by rw [hp]; rfl) rfl (fun q => holds_wakeWrite _) nofun
  | lose hp he hc =>
    exact Started.hold hm (by rw [hp]; rfl) rfl (fun q => holds_wakeWrite _) nofun
  | deliver hp he hc =>
    exact Started.hold hm (by rw [hp]; rfl) rfl (fun _ => rfl) nofun
  | @close p w _ hp =>
    cases w with
    | true => exact Started.hold hm (by rw [hp]; rfl) rfl (fun q => holds_wakeRead _) nofun
    | false => exact Started.hold hm (by rw [hp]; rfl) rfl (fun q => holds_wakeWrite _) nofun
  | kill p =>
    apply h.goto
    intro n hc
    revert hc
    cases s.pc p <;> intro hc <;> first | exact hc | cases hc
  | leave hp => exact h.goto nofun

structure Inv (s : St P) : Prop where
  mutex : Mutex s
  fifo : Fifo s.pipe s.accepted s.delivered
  writers : WriterSleeps s
  started : Started s

omit [DecidableEq P] in
theorem Inv.init : Inv (init P) where
  mutex := nofun
  fifo := ⟨List.prefix_rfl, Nat.le_add_right _ _, rfl, rfl, nofun⟩
  writers := nofun
  started := nofun

theorem Inv.of_run {C : St P → Action P → Prop} (hC : ∀ s a, C s a → Copies a) (h : Run step C (Pipes.init P) s) :
    Inv s := by
  apply h.invariant Inv.init
  intro s a t hi hc he
  have hstep := step_inv he
  exact ⟨hi.mutex.of_step hstep, hi.fifo.of_step (hC s a hc) hstep, hi.writers.of_step hi.mutex hstep,
    hi.started.of_step hi.mutex hstep⟩

/-- The pipe hands on the bytes in order, whoever reads and writes and however far the counters run. -/
theorem pipe_is_fifo_channel (h : Run step (fun _ a => Copies a) (init P) s) :
    s.delivered <+: s.accepted ∧
    s.accepted.length = s.delivered.length + (s.pipe.nwrite + 2 ^ 32 - s.pipe.nread) % 2 ^ 32 ∧
    (s.pipe.nwrite + 2 ^ 32 - s.pipe.nread) % 2 ^ 32 ≤ pipeSize ∧
    (∀ p n i t, s.pc p = .copying n i → step s (.next p true) = some t → t.pc p = .returned 0 → 0 < n →
      s.pipe.nread = s.pipe.nwrite ∧ s.pipe.writeopen = false) ∧
    (s.lock = none → ∀ q src n i, s.pc q = .writeAsleep src n i →
      s.pipe.nwrite = (s.pipe.nread + pipeSize) % 2 ^ 32 ∧ s.pipe.readopen = true) := by
  have hi := Inv.of_run (fun _ _ hc => hc) h
  have hroom := hi.fifo.room
  have hle := hi.fifo.taken.length_le
  have hcount : s.accepted.length = s.delivered.length + (s.pipe.nwrite + 2 ^ 32 - s.pipe.nread) % 2 ^ 32 := by
    rw [hi.fifo.nread, hi.fifo.nwrite]
    simp only [pipeSize] at hroom
    omega
  refine ⟨hi.fifo.taken, hcount, by omega, ?_, ?_⟩
  · intro p n i t hp ht hr hn
    simp only [step, hp, Option.some.injEq] at ht
    subst ht
    unfold St.copy at hr
    rw [if_neg (show ¬ true = false by decide)] at hr
    split_ifs at hr with he
    · simp only [St.release, update_self, Pc.returned.injEq] at hr
      have hi0 : i = 0 := by omega
      subst hi0
      have hempty : s.pipe.empty := he.resolve_left (fun hlt => hlt (by simpa using hn))
      have hstart := hi.started p n hp
      exact ⟨hempty, by simpa [hempty] using hstart⟩
    · simp only [update_self] at hr
      cases hr
  · intro hl q src n i hq
    rcases hi.writers q src n i hq with hfull | ⟨r, m, j, hl', -⟩
    · exact hfull
    · rw [hl] at hl'
      cases hl'

def threeBytes (i : ℕ) : UInt8 := UInt8.ofNat (i + 1)

def writeThenRead : List (Action Bool) :=
  [.pipewrite true threeBytes 3, .acquire true, .next true true, .next true true, .next true true, .next true true,
    .piperead false 2, .acquire false, .next false true, .next false true, .next false true, .next false true]

theorem two_of_three_delivered : ∃ s, execute step (fun _ a => Copies a) (init Bool) writeThenRead = some s ∧
    s.delivered = [1, 2] ∧ s.delivered <+: s.accepted := by
  have hsome : (execute step (fun _ a => Copies a) (init Bool) writeThenRead).map (fun s => s.delivered) =
      some [1, 2] := by decide +kernel
  obtain ⟨s, hs, hdel⟩ := Option.map_eq_some_iff.mp hsome
  exact ⟨s, hs, hdel, (pipe_is_fifo_channel (run_of_execute hs)).1⟩

end Xv6.Pipes
