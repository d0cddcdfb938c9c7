import Xv6.Logging.Admission

set_option linter.unusedSectionVars false

namespace Xv6.Logging

open Lib.Transition Lib

variable {P : Type} [DecidableEq P] [Fintype P]

def Blocked (l : Log) : Prop := l.committing = true ∨ l.n + (l.outstanding + 1) * maxOpBlocks > logSize

def Waits (s : St P) : Prop := ∀ p, s.pc p = .sleeping → Blocked s.log

theorem blocked_iff {l : Log} : Blocked l ↔ beginOp l = none := by
  unfold Blocked beginOp
  split_ifs with hc hn
  · simp [hc]
  · simp [hn]
  · simp [hc, hn]

theorem not_sleeping_wakeup (pc : P → Pc) (p : P) : wakeup pc p ≠ .sleeping := by
  unfold wakeup
  split
  · exact nofun
  · assumption

theorem Waits.update {s : St P} (h : Waits s) {p : P} {c : Pc} {l : Log} (hc : c ≠ .sleeping)
    (hl : Blocked s.log → Blocked l) : Waits { s with log := l, pc := Function.update s.pc p c } := by
  intro q hq
  apply hl
  by_cases hqp : q = p
  · subst hqp
    exact absurd ((Function.update_self _ _ _).symm.trans hq) hc
  · exact h q ((Function.update_of_ne hqp _ _).symm.trans hq)

theorem Waits.of_step {s t : St P} {a : Action P} (h : Waits s) (hi : Inv s) (ht : Step s a t) : Waits t := by
  cases ht with
  | @sleep p hp hb =>
    intro q hq
    by_cases hqp : q = p
    · exact blocked_iff.mpr hb
    · exact h q ((Function.update_of_ne hqp _ _).symm.trans hq)
  | enter hp hc hn =>
    apply h.update
    · exact nofun
    · rintro (hb | hb)
      · exact Or.inl hb
      · exact absurd hn (by omega)
  | tooBig hp hn => exact h
  | outside hp ho => exact h
  | absorb hp hn hb => exact h.update nofun id
  | append hp hn hb =>
    apply h.update
    · exact nofun
    · rintro (hc | hc)
      · exact Or.inl hc
      · right
        simp only [Log.n, List.length_append] at hc ⊢
        omega
  | reenter hp hc => exact h
  | commit hp hc ho => exact h.update nofun (fun _ => Or.inl rfl)
  | leave hp hc ho => exact fun q hq => absurd hq (not_sleeping_wakeup _ q)
  | clear hp => exact fun q hq => Or.inl (hi.committing_of_pc hp)
  | finish hp hb => exact fun q hq => absurd hq (not_sleeping_wakeup _ q)

theorem Waits.of_run {C : St P → Action P → Prop} {start size : ℕ} {s : St P}
    (h : Run step C (init P start size) s) : Waits s := by
  apply (h.invariant (I := fun s => Inv s ∧ Waits s) ⟨Inv.init start size, nofun⟩ _).2
  rintro s a t ⟨hi, hw⟩ _ he
  have hstep := (step_inv he).2
  exact ⟨hi.of_step hstep, hw.of_step hi hstep⟩

theorem begin_while_committing {s t : St P} {p : P} (hc : s.log.committing = true)
    (h : step s (.begin p) = some t) : t.log = s.log ∧ t.pc p = .sleeping := by
  cases (step_inv h).2 with
  | sleep hp hb => exact ⟨rfl, Function.update_self _ _ _⟩
  | enter hp hn => exact absurd hc (by simp [hn])

theorem logWrite_while_committing {s : St P} (hi : Inv s) (hc : s.log.committing = true) (p : P) (b : ℕ) :
    step s (.logWrite p b) = none := by
  cases h : step s (.logWrite p b) with
  | none => rfl
  | some t =>
    have hpos {L : List ℕ} (hp : s.pc p = .active L) : False := by
      have := hi.active_pos hp
      have := hi.quiet hc
      omega
    cases (step_inv h).2 with
    | tooBig hp => exact (hpos hp).elim
    | outside hp => exact (hpos hp).elim
    | absorb hp => exact (hpos hp).elim
    | append hp => exact (hpos hp).elim

theorem group_commit_protocol {C : St P → Action P → Prop} {start size : ℕ} {s : St P}
    (h : Run step C (init P start size) s) :
    (s.log.committing = true → s.log.outstanding = 0 ∧ (∀ p b, step s (.logWrite p b) = none) ∧
      ∀ p t, step s (.begin p) = some t → t.log = s.log ∧ t.pc p = .sleeping) ∧
    s.log.block.Nodup ∧
    s.panicked ≠ some "log.committing" ∧ s.panicked ≠ some "log_write outside of trans" ∧
    ∀ p, s.pc p = .sleeping →
      s.log.committing = true ∨ s.log.n + (s.log.outstanding + 1) * maxOpBlocks > logSize := by
  have hi := Inv.of_run h
  refine ⟨fun hc => ⟨hi.quiet hc, logWrite_while_committing hi hc, fun p t => begin_while_committing hc⟩,
    hi.nodup, ?_, ?_, Waits.of_run h⟩
  · rcases hi.sane with hs | hs <;> simp [hs]
  · rcases hi.sane with hs | hs <;> simp [hs]

theorem fourth_operation_waits :
    ∃ s : St (Fin 4), execute step (fun _ _ => True) (init (Fin 4) 2 30) [.begin 0, .begin 1, .begin 2, .begin 3] = some s ∧
      s.pc 3 = .sleeping ∧ (s.log.committing = true ∨ s.log.n + (s.log.outstanding + 1) * maxOpBlocks > logSize) := by
  obtain ⟨s, hs⟩ := Option.isSome_iff_exists.mp (show (execute step (fun _ _ => True) (init (Fin 4) 2 30)
    [.begin 0, .begin 1, .begin 2, .begin 3]).isSome = true by decide)
  have hpc : (execute step (fun _ _ => True) (init (Fin 4) 2 30)
    [.begin 0, .begin 1, .begin 2, .begin 3]).map (fun s => s.pc 3) = some .sleeping := by decide
  rw [hs] at hpc
  have hsleep : s.pc 3 = .sleeping := Option.some_inj.mp hpc
  exact ⟨s, hs, hsleep, (group_commit_protocol (run_of_execute hs)).2.2.2.2 3 hsleep⟩

end Xv6.Logging
