import Xv6.Logging.Admission

set_option linter.unusedSectionVars false

namespace Xv6.Logging

open Lib.Transition Lib

variable {P : Type} [DecidableEq P]

def Within (s : St P) : Action P → Prop
  | .logWrite p b => ((s.pc p).logged.insert b).length ≤ maxOpBlocks
  | _ => True

instance (s : St P) (a : Action P) : Decidable (Within s a) :=
  match a with
  | .logWrite p b => inferInstanceAs (Decidable (((s.pc p).logged.insert b).length ≤ maxOpBlocks))
  | .begin _ | .endOp _ | .clear _ | .endCommit _ => isTrue trivial

def Admits (s : St P) (p : P) : Prop :=
  (s.pc p = .idle ∨ s.pc p = .woken) ∧ (beginOp s.log).isSome

variable [Fintype P]

def reserved (s : St P) : ℕ := s.log.n + ∑ p, (s.pc p).remaining

def Slack (s : St P) : Action P → Prop
  | .begin p => Admits s p → reserved s + maxOpBlocks < s.log.size - 1
  | _ => True

theorem size_of_step {s t : St P} {a : Action P} (h : Step s a t) : t.log.size = s.log.size := by
  cases h <;> rfl

theorem admits_of_enter {s : St P} {p : P} (hp : s.pc p = .idle ∨ s.pc p = .woken)
    (hc : s.log.committing = false)
    (hn : s.log.n + (s.log.outstanding + 1) * maxOpBlocks ≤ logSize) : Admits s p := by
  refine ⟨hp, ?_⟩
  unfold beginOp
  simp [hc, hn]

theorem remaining_insert_le (L : List ℕ) (b : ℕ) :
    (Pc.active (L.insert b)).remaining ≤ (Pc.active L).remaining := by
  have : L.length ≤ (L.insert b).length := by
    rw [List.length_insert]
    split <;> omega
  simp only [Pc.remaining]
  omega

theorem reserved_of_step {s t : St P} {a : Action P} (hi : Inv s) (hw : Within s a)
    (h : Step s a t) : reserved t ≤ reserved s ∨
      ∃ p, a = .begin p ∧ Admits s p ∧ reserved t = reserved s + maxOpBlocks := by
  cases h with
  | @sleep p hp _ =>
    have hr := sum_set Pc.remaining s.pc p .sleeping 0 0 (by rcases hp with hp | hp <;> rw [hp] <;> rfl) rfl
    exact Or.inl (by simp only [reserved]; omega)
  | @enter p hp hc hn =>
    have hr := sum_set Pc.remaining s.pc p (.active []) 0 maxOpBlocks
      (by rcases hp with hp | hp <;> rw [hp] <;> rfl) rfl
    refine Or.inr ⟨p, rfl, admits_of_enter hp hc hn, ?_⟩
    simp only [reserved, Log.n] at hr ⊢
    omega
  | tooBig _ _ => exact Or.inl le_rfl
  | outside _ _ => exact Or.inl le_rfl
  | @absorb p b L hp hn hb =>
    have hr := sum_set Pc.remaining s.pc p (.active (L.insert b)) (Pc.active L).remaining _ (by rw [hp]) rfl
    have := remaining_insert_le L b
    exact Or.inl (by simp only [reserved]; omega)
  | @append p b L hp hn hb =>
    have hr := sum_set Pc.remaining s.pc p (.active (L.insert b)) (Pc.active L).remaining _ (by rw [hp]) rfl
    have hl := (hi.logged p).1
    simp only [Within, hp, Pc.logged] at hw hl
    have hbL : b ∉ L := fun hx => hb (hl hx)
    rw [List.insert_of_not_mem hbL, List.length_cons] at hw
    rw [List.insert_of_not_mem hbL] at hr ⊢
    left
    simp only [reserved, Log.n, Pc.remaining, List.length_append, List.length_cons, List.length_nil] at hr ⊢
    omega
  | reenter _ _ => exact Or.inl le_rfl
  | @commit p L hp _ _ =>
    have hr := sum_set Pc.remaining s.pc p .committing (Pc.active L).remaining 0 (by rw [hp]) rfl
    exact Or.inl (by simp only [reserved, Log.n] at hr ⊢; omega)
  | @leave p L hp _ _ =>
    have hr := sum_set Pc.remaining s.pc p .idle (Pc.active L).remaining 0 (by rw [hp]) rfl
    exact Or.inl (by simp only [reserved, Log.n, sum_wakeup Pc.remaining rfl] at hr ⊢; omega)
  | clear _ => exact Or.inl (by simp [reserved, Log.n])
  | @finish p hp _ =>
    have hr := sum_set Pc.remaining s.pc p .idle 0 0 (by rw [hp]; rfl) rfl
    exact Or.inl (by simp only [reserved, Log.n, sum_wakeup Pc.remaining rfl] at hr ⊢; omega)

structure Fits (s : St P) : Prop where
  inv : Inv s
  size : s.log.size = nlog
  fits : reserved s < s.log.size - 1
  fine : s.panicked = none

theorem Fits.of_step {s t : St P} {a : Action P} (h : Fits s) (hw : Within s a) (hk : Slack s a)
    (ht : Step s a t) : Fits t := by
  have hr := reserved_of_step h.inv hw ht
  have hsize := size_of_step ht
  have hfits : reserved t < t.log.size - 1 := by
    rw [hsize]
    rcases hr with hr | ⟨p, rfl, ha, hr⟩
    · exact hr.trans_lt h.fits
    · rw [hr]
      exact hk ha
  have hi := h.inv.of_step ht
  refine ⟨hi, hsize.trans h.size, hfits, ?_⟩
  have hlt : s.log.n < nlog - 1 := by
    have := h.fits
    simp only [reserved, h.size] at this
    omega
  cases ht with
  | tooBig _ hn =>
    rw [h.size] at hn
    simp only [nlog] at hn hlt
    omega
  | outside hp ho =>
    have := h.inv.active_pos hp
    omega
  | reenter hp hc =>
    have := h.inv.active_pos hp
    have := h.inv.quiet hc
    omega
  | _ => exact h.fine

theorem Fits.of_run {start : ℕ} {s : St P}
    (h : Run step (fun s a => Within s a ∧ Slack s a) (init P start nlog) s) : Fits s := by
  refine h.invariant ⟨Inv.init start nlog, rfl, ?_, rfl⟩
    (fun _ _ _ hi hc he => hi.of_step hc.1 hc.2 (step_inv he).2)
  simp [reserved, init, initlog, Log.n, Pc.remaining, nlog, logSize, maxOpBlocks]

structure Budgeted (s : St P) : Prop where
  inv : Inv s
  size : s.log.size = nlog
  budget : ∀ p, (s.pc p).logged.length ≤ maxOpBlocks

theorem Budgeted.of_step {s t : St P} {a : Action P} (h : Budgeted s) (hw : Within s a)
    (ht : Step s a t) : Budgeted t := by
  refine ⟨h.inv.of_step ht, (size_of_step ht).trans h.size, ?_⟩
  have hset (p : P) (c : Pc) (hc : c.logged.length ≤ maxOpBlocks) (q : P) :
      (Function.update s.pc p c q).logged.length ≤ maxOpBlocks := by
    by_cases hq : q = p
    · subst hq
      simpa only [Function.update_self] using hc
    · simpa only [Function.update_of_ne hq] using h.budget q
  cases ht with
  | sleep _ _ => exact hset _ _ (Nat.zero_le _)
  | enter _ _ _ => exact hset _ _ (Nat.zero_le _)
  | absorb hp _ _ =>
    simp only [Within, hp] at hw
    exact hset _ _ hw
  | append hp _ _ =>
    simp only [Within, hp] at hw
    exact hset _ _ hw
  | commit _ _ _ => exact hset _ _ (Nat.zero_le _)
  | leave _ _ _ =>
    intro q
    rw [logged_wakeup]
    exact hset _ _ (Nat.zero_le _) q
  | finish _ _ =>
    intro q
    rw [logged_wakeup]
    exact hset _ _ (Nat.zero_le _) q
  | _ => exact h.budget

theorem Budgeted.of_run {start : ℕ} {s : St P} (h : Run step Within (init P start nlog) s) :
    Budgeted s :=
  h.invariant ⟨Inv.init start nlog, rfl, fun _ => Nat.zero_le _⟩
    (fun _ _ _ hi hc he => hi.of_step hc (step_inv he).2)

theorem exists_not_mem (l : List ℕ) : ∃ b, b ∉ l := by
  obtain ⟨b, hb⟩ := Infinite.exists_notMem_finset l.toFinset
  exact ⟨b, by simpa using hb⟩

theorem step_logWrite {s : St P} {p : P} {L : List ℕ} (hs : s.panicked = none)
    (hp : s.pc p = .active L) (b : ℕ) : step s (.logWrite p b) = some (s.logWrite p L b) := by
  simp [step, hs, hp]

theorem exists_within {s : St P} (h : Budgeted s) {p : P} {L : List ℕ} (hp : s.pc p = .active L) :
    ∃ b, Within s (.logWrite p b) := by
  have hb := h.budget p
  simp only [hp, Pc.logged] at hb
  cases L with
  | nil => exact ⟨0, by simp [Within, hp, Pc.logged, maxOpBlocks]⟩
  | cons b L => exact ⟨b, by simpa [Within, hp, Pc.logged] using hb⟩

theorem exists_tooBig {s : St P} (h : Budgeted s) (hs : s.panicked = none) {p : P} {L : List ℕ}
    (hp : s.pc p = .active L) (hr : nlog - 1 ≤ reserved s) :
    ∃ u, Run step Within s u ∧ u.panicked = some "too big a transaction" := by
  induction hk : nlog - 1 - s.log.n generalizing s L with
  | zero =>
    obtain ⟨b, hb⟩ := exists_within h hp
    refine ⟨_, Run.refl.tail hb (step_logWrite hs hp b), ?_⟩
    have hn : s.log.n ≥ logSize ∨ s.log.n ≥ s.log.size - 1 := Or.inr (by rw [h.size]; omega)
    simp only [St.logWrite, logWrite, if_pos hn]
  | succ k ih =>
    have hpos : ∃ q, 0 < (s.pc q).remaining := by
      by_contra hz
      simp only [not_exists, not_lt, Nat.le_zero] at hz
      simp only [reserved, hz, Finset.sum_const_zero] at hr
      omega
    obtain ⟨q, hq⟩ := hpos
    obtain ⟨M, hM⟩ : ∃ M, s.pc q = .active M := by
      cases hc : s.pc q with
      | active M => exact ⟨M, rfl⟩
      | _ => simp [hc, Pc.remaining] at hq
    simp only [hM, Pc.remaining] at hq
    obtain ⟨b, hb⟩ := exists_not_mem s.log.block
    have hbM : b ∉ M := fun hx => hb ((h.inv.logged q).1 (by simpa [hM, Pc.logged] using hx))
    have hw : Within s (.logWrite q b) := by
      simp only [Within, hM, Pc.logged, List.insert_of_not_mem hbM, List.length_cons]
      omega
    have hn : s.log.n < logSize ∧ s.log.n < s.log.size - 1 := by
      rw [h.size]
      simp only [nlog] at hk ⊢
      omega
    let t : St P := { s with
      log := { s.log with block := s.log.block ++ [b] }
      pc := Function.update s.pc q (.active (M.insert b)) }
    have hst : step s (.logWrite q b) = some t := by
      have ho : ¬ s.log.outstanding < 1 := by
        have := h.inv.active_pos hM
        omega
      rw [step_logWrite hs hM, St.logWrite, logWrite, if_neg (by omega), if_neg ho, if_neg hb]
    have hset := sum_set Pc.remaining s.pc q (.active (M.insert b)) (Pc.active M).remaining _
      (by rw [hM]) rfl
    have hrt : nlog - 1 ≤ reserved t := by
      simp only [reserved, t, Log.n, List.insert_of_not_mem hbM, Pc.remaining, List.length_cons,
        List.length_append, List.length_nil] at hset hr ⊢
      omega
    have hpt : ∃ L', t.pc p = .active L' := by
      by_cases hpq : p = q
      · exact ⟨M.insert b, by simp [t, hpq]⟩
      · exact ⟨L, by simp [t, Function.update_of_ne hpq, hp]⟩
    obtain ⟨L', hL'⟩ := hpt
    have hkt : nlog - 1 - t.log.n = k := by
      simp only [t, Log.n, List.length_append, List.length_cons, List.length_nil] at hk ⊢
      omega
    obtain ⟨u, hu, hpanic⟩ := ih (h.of_step hw (step_inv hst).2) hs hL' hrt hkt
    exact ⟨u, (Run.refl.tail hw hst).trans hu, hpanic⟩

/-- Runs whose admissions all leave slack never overflow the log; any other admission can be
continued, within the budgets, to the panic of `log_write`. -/
theorem log_space_iff_slack (P : Type) [DecidableEq P] [Fintype P] (start : ℕ) :
    (∀ s : St P, Run step (fun s a => Within s a ∧ Slack s a) (init P start nlog) s →
      s.panicked ≠ some "too big a transaction" ∧ reserved s ≤ s.log.size - 1) ∧
    (∀ (s t : St P) (p : P), Run step Within (init P start nlog) s → Admits s p →
      ¬ Slack s (.begin p) → step s (.begin p) = some t →
      ∃ u, Run step Within t u ∧ u.panicked = some "too big a transaction") := by
  constructor
  · intro s h
    have hf := Fits.of_run h
    exact ⟨by simp [hf.fine], hf.fits.le⟩
  · intro s t p h ha hk ht
    have hb := Budgeted.of_run h
    have hw : Within s (.begin p) := trivial
    have hbt : Budgeted t := hb.of_step hw (step_inv ht).2
    obtain ⟨hs, hst⟩ := step_inv ht
    simp only [Slack, ha, forall_true_left, not_lt, hb.size] at hk
    cases hst with
    | sleep _ hn => simp [Admits, hn] at ha
    | enter hp hc hn =>
      apply exists_tooBig hbt hs (p := p) (L := []) (by simp)
      rcases reserved_of_step hb.inv hw (Step.enter hp hc hn) with hr | ⟨_, -, -, hr⟩
      · have hset := sum_set Pc.remaining s.pc p (.active []) 0 maxOpBlocks
          (by rcases hp with hp | hp <;> rw [hp] <;> rfl) rfl
        simp only [reserved, Log.n] at hr hset hk ⊢
        omega
      · rw [hr]
        exact hk

def threeOps : List (Action (Fin 3)) :=
  [.begin 0, .begin 1, .begin 2] ++
    (List.range 30).map (fun i => .logWrite (if i < 10 then 0 else if i < 20 then 1 else 2) (100 + i))

theorem log_overflow_three_ops : ∃ s, Run step Within (init (Fin 3) 2 nlog) s ∧
    s.panicked = some "too big a transaction" := by
  have h : (execute step Within (init (Fin 3) 2 nlog) threeOps).map St.panicked =
      some (some "too big a transaction") := by decide
  obtain ⟨s, hs, hp⟩ := Option.map_eq_some_iff.mp h
  exact ⟨s, run_of_execute hs, hp⟩

end Xv6.Logging
