import Mathlib.Algebra.Order.BigOperators.Group.Finset
import Xv6.Lib.SumUpdate
import Xv6.Logging.Protocol

set_option linter.unusedSectionVars false

namespace Xv6.Logging

open Lib.Transition Lib
open Function (update update_of_ne update_self)

variable {P : Type} [DecidableEq P]

inductive Step : St P → Action P → St P → Prop
  | sleep {s : St P} {p : P} (hp : s.pc p = .idle ∨ s.pc p = .woken) (h : beginOp s.log = none) :
      Step s (.begin p) { s with pc := update s.pc p .sleeping }
  | enter {s : St P} {p : P} (hp : s.pc p = .idle ∨ s.pc p = .woken)
      (hc : s.log.committing = false)
      (hn : s.log.n + (s.log.outstanding + 1) * maxOpBlocks ≤ logSize) :
      Step s (.begin p) { s with
        log := { s.log with outstanding := s.log.outstanding + 1 }
        pc := update s.pc p (.active []) }
  | tooBig {s : St P} {p : P} {b : ℕ} {L : List ℕ} (hp : s.pc p = .active L)
      (hn : s.log.n ≥ logSize ∨ s.log.n ≥ s.log.size - 1) :
      Step s (.logWrite p b) { s with panicked := some "too big a transaction" }
  | outside {s : St P} {p : P} {b : ℕ} {L : List ℕ} (hp : s.pc p = .active L)
      (ho : s.log.outstanding < 1) :
      Step s (.logWrite p b) { s with panicked := some "log_write outside of trans" }
  | absorb {s : St P} {p : P} {b : ℕ} {L : List ℕ} (hp : s.pc p = .active L)
      (hn : s.log.n < logSize ∧ s.log.n < s.log.size - 1) (hb : b ∈ s.log.block) :
      Step s (.logWrite p b) { s with pc := update s.pc p (.active (L.insert b)) }
  | append {s : St P} {p : P} {b : ℕ} {L : List ℕ} (hp : s.pc p = .active L)
      (hn : s.log.n < logSize ∧ s.log.n < s.log.size - 1) (hb : b ∉ s.log.block) :
      Step s (.logWrite p b) { s with
        log := { s.log with block := s.log.block ++ [b] }
        pc := update s.pc p (.active (L.insert b)) }
  | reenter {s : St P} {p : P} {L : List ℕ} (hp : s.pc p = .active L)
      (hc : s.log.committing = true) :
      Step s (.endOp p) { s with panicked := some "log.committing" }
  | commit {s : St P} {p : P} {L : List ℕ} (hp : s.pc p = .active L)
      (hc : s.log.committing = false) (ho : s.log.outstanding - 1 = 0) :
      Step s (.endOp p) { s with
        log := { s.log with outstanding := s.log.outstanding - 1, committing := true }
        pc := update s.pc p .committing }
  | leave {s : St P} {p : P} {L : List ℕ} (hp : s.pc p = .active L)
      (hc : s.log.committing = false) (ho : s.log.outstanding - 1 ≠ 0) :
      Step s (.endOp p) { s with
        log := { s.log with outstanding := s.log.outstanding - 1 }
        pc := wakeup (update s.pc p .idle) }
  | clear {s : St P} {p : P} (hp : s.pc p = .committing) :
      Step s (.clear p) { s with log := { s.log with block := [] } }
  | finish {s : St P} {p : P} (hp : s.pc p = .committing) (hb : s.log.block = []) :
      Step s (.endCommit p) { s with
        log := { s.log with committing := false }
        pc := wakeup (update s.pc p .idle) }

theorem begin_step {s : St P} {p : P} (hp : s.pc p = .idle ∨ s.pc p = .woken) :
    Step s (.begin p) (s.begin p) := by
  unfold St.begin
  cases h : beginOp s.log with
  | none => exact .sleep hp h
  | some l =>
    unfold beginOp at h
    split_ifs at h with hc hn
    obtain rfl := Option.some.inj h
    exact .enter hp (by simpa using hc) (by omega)

theorem logWrite_step {s : St P} {p : P} {L : List ℕ} (hp : s.pc p = .active L) (b : ℕ) :
    Step s (.logWrite p b) (s.logWrite p L b) := by
  unfold St.logWrite logWrite
  split_ifs with hn ho hb
  · exact .tooBig hp hn
  · exact .outside hp ho
  · exact .absorb hp (by omega) hb
  · exact .append hp (by omega) hb

theorem endOp_step {s : St P} {p : P} {L : List ℕ} (hp : s.pc p = .active L) :
    Step s (.endOp p) (s.endOp p) := by
  unfold St.endOp endOp
  dsimp only
  split_ifs with hc ho
  · exact .reenter hp hc
  · exact .commit hp (by simpa using hc) ho
  · exact .leave hp (by simpa using hc) ho

theorem step_inv {s t : St P} {a : Action P} (h : step s a = some t) :
    s.panicked = none ∧ Step s a t := by
  unfold step at h
  split_ifs at h with hs
  refine ⟨by simpa using hs, ?_⟩
  cases a with
  | begin p =>
    dsimp only at h
    split at h <;> cases h
    · exact begin_step (Or.inl ‹_›)
    · exact begin_step (Or.inr ‹_›)
  | logWrite p b =>
    dsimp only at h
    split at h <;> cases h
    exact logWrite_step ‹_› b
  | endOp p =>
    dsimp only at h
    split at h <;> cases h
    exact endOp_step ‹_›
  | clear p =>
    dsimp only at h
    split_ifs at h with hp
    cases h
    exact .clear hp
  | endCommit p =>
    dsimp only at h
    split_ifs at h with hp
    cases h
    exact .finish hp.1 hp.2

def Pc.isActive : Pc → ℕ
  | .active _ => 1
  | _ => 0

def Pc.isCommitting : Pc → ℕ
  | .committing => 1
  | _ => 0

def Pc.remaining : Pc → ℕ
  | .active L => maxOpBlocks - L.length
  | _ => 0

def Pc.logged : Pc → List ℕ
  | .active L => L
  | _ => []

theorem sum_wakeup [Fintype P] (f : Pc → ℕ) (hf : f .sleeping = f .woken) (pc : P → Pc) :
    ∑ p, f (wakeup pc p) = ∑ p, f (pc p) := by
  apply Finset.sum_congr rfl
  intro p _
  unfold wakeup
  split <;> simp_all

theorem logged_wakeup (pc : P → Pc) (p : P) : (wakeup pc p).logged = (pc p).logged := by
  unfold wakeup
  split <;> simp_all [Pc.logged]

structure Inv [Fintype P] (s : St P) : Prop where
  outstanding : s.log.outstanding = ∑ p, (s.pc p).isActive
  committing : (if s.log.committing then 1 else 0) = ∑ p, (s.pc p).isCommitting
  quiet : s.log.committing = true → s.log.outstanding = 0
  nodup : s.log.block.Nodup
  logged : ∀ p, (s.pc p).logged ⊆ s.log.block ∧ (s.pc p).logged.Nodup
  sane : s.panicked = none ∨ s.panicked = some "too big a transaction"

variable [Fintype P]

theorem le_sum (f : Pc → ℕ) (pc : P → Pc) (p : P) : f (pc p) ≤ ∑ q, f (pc q) :=
  Finset.single_le_sum (f := fun q => f (pc q)) (fun _ _ => Nat.zero_le _) (Finset.mem_univ p)

theorem sum_set (f : Pc → ℕ) (pc : P → Pc) (p : P) (c : Pc) (m k : ℕ) (hm : f (pc p) = m)
    (hk : f c = k) : ∑ q, f (update pc p c q) + m = ∑ q, f (pc q) + k := by
  rw [← hm, ← hk]
  exact sum_update_add (fun _ => f) pc p c

theorem Inv.init (start size : ℕ) : Inv (init P start size) where
  outstanding := by simp [Logging.init, initlog, Pc.isActive]
  committing := by simp [Logging.init, initlog, Pc.isCommitting]
  quiet := by simp [Logging.init, initlog]
  nodup := by simp [Logging.init, initlog]
  logged := by simp [Logging.init, Pc.logged]
  sane := Or.inl rfl

theorem Inv.active_pos {s : St P} (h : Inv s) {p : P} {L : List ℕ} (hp : s.pc p = .active L) :
    0 < s.log.outstanding := by
  have hle := le_sum Pc.isActive s.pc p
  have hone : (s.pc p).isActive = 1 := by rw [hp]; rfl
  rw [h.outstanding]
  omega

theorem Inv.not_active {s : St P} (h : Inv s) (hc : s.log.committing = true) (p : P) :
    (s.pc p).logged = [] := by
  cases hp : s.pc p with
  | active L =>
    have := h.active_pos hp
    have := h.quiet hc
    omega
  | _ => rfl

theorem Inv.committing_of_pc {s : St P} (h : Inv s) {p : P} (hp : s.pc p = .committing) :
    s.log.committing = true := by
  have hle := le_sum Pc.isCommitting s.pc p
  have hone : (s.pc p).isCommitting = 1 := by rw [hp]; rfl
  have hc := h.committing
  by_contra hn
  simp only [hn, ↓reduceIte] at hc
  omega

theorem logged_update {s : St P} (h : Inv s) {l : List ℕ} (hl : s.log.block ⊆ l) {p : P} {c : Pc}
    (hc : c.logged ⊆ l ∧ c.logged.Nodup) (q : P) :
    (update s.pc p c q).logged ⊆ l ∧ (update s.pc p c q).logged.Nodup := by
  by_cases hq : q = p
  · subst hq
    simpa only [update_self] using hc
  · rw [update_of_ne hq]
    exact ⟨fun _ hx => hl ((h.logged q).1 hx), (h.logged q).2⟩

theorem Inv.of_step {s t : St P} {a : Action P} (h : Inv s) (ht : Step s a t) : Inv t := by
  cases ht with
  | @sleep p hp hb =>
    have hz : (s.pc p).isActive = 0 ∧ (s.pc p).isCommitting = 0 := by
      rcases hp with hp | hp <;> rw [hp] <;> exact ⟨rfl, rfl⟩
    have ha := sum_set Pc.isActive s.pc p .sleeping 0 0 hz.1 rfl
    have hc := sum_set Pc.isCommitting s.pc p .sleeping 0 0 hz.2 rfl
    exact ⟨h.outstanding.trans ha.symm, h.committing.trans hc.symm, h.quiet, h.nodup,
      logged_update h (fun _ hx => hx) (by simp [Pc.logged]), h.sane⟩
  | @enter p hp hcm hn =>
    have hz : (s.pc p).isActive = 0 ∧ (s.pc p).isCommitting = 0 := by
      rcases hp with hp | hp <;> rw [hp] <;> exact ⟨rfl, rfl⟩
    have ha := sum_set Pc.isActive s.pc p (.active []) 0 1 hz.1 rfl
    have hc := sum_set Pc.isCommitting s.pc p (.active []) 0 0 hz.2 rfl
    refine ⟨?_, h.committing.trans hc.symm, ?_, h.nodup,
      logged_update h (fun _ hx => hx) (by simp [Pc.logged]), h.sane⟩
    · simp only [h.outstanding]
      exact ha.symm
    · simp [hcm]
  | tooBig hp hn => exact ⟨h.outstanding, h.committing, h.quiet, h.nodup, h.logged, Or.inr rfl⟩
  | outside hp ho =>
    have := h.active_pos hp
    omega
  | @absorb p b L hp hn hb =>
    have ha := sum_set Pc.isActive s.pc p (.active (L.insert b)) 1 1 (by rw [hp]; rfl) rfl
    have hc := sum_set Pc.isCommitting s.pc p (.active (L.insert b)) 0 0 (by rw [hp]; rfl) rfl
    have hl := h.logged p
    simp only [hp, Pc.logged] at hl
    refine ⟨h.outstanding.trans (Nat.add_right_cancel ha).symm, h.committing.trans hc.symm, h.quiet, h.nodup,
      logged_update h (fun _ hx => hx) ⟨?_, hl.2.insert⟩, h.sane⟩
    intro x hx
    rcases List.mem_insert_iff.mp hx with rfl | hx
    · exact hb
    · exact hl.1 hx
  | @append p b L hp hn hb =>
    have ha := sum_set Pc.isActive s.pc p (.active (L.insert b)) 1 1 (by rw [hp]; rfl) rfl
    have hc := sum_set Pc.isCommitting s.pc p (.active (L.insert b)) 0 0 (by rw [hp]; rfl) rfl
    have hl := h.logged p
    simp only [hp, Pc.logged] at hl
    refine ⟨h.outstanding.trans (Nat.add_right_cancel ha).symm, h.committing.trans hc.symm, h.quiet, ?_,
      logged_update h (by simp) ⟨?_, hl.2.insert⟩, h.sane⟩
    · exact List.nodup_append.mpr ⟨h.nodup, by simp, by
        intro x hx y hy he
        rw [List.mem_singleton] at hy
        exact hb (hy ▸ he ▸ hx)⟩
    · intro x hx
      rcases List.mem_insert_iff.mp hx with rfl | hx
      · simp
      · simp [hl.1 hx]
  | reenter hp hc =>
    have := h.active_pos hp
    have := h.quiet hc
    omega
  | @commit p L hp hcm ho =>
    have ha := sum_set Pc.isActive s.pc p .committing 1 0 (by rw [hp]; rfl) rfl
    have hc := sum_set Pc.isCommitting s.pc p .committing 0 1 (by rw [hp]; rfl) rfl
    have hcs := h.committing
    have hos := h.outstanding
    simp only [hcm, Bool.false_eq_true, ↓reduceIte] at hcs
    refine ⟨?_, ?_, fun _ => ho, h.nodup, logged_update h (fun _ hx => hx) (by simp [Pc.logged]), h.sane⟩
    · simp only; omega
    · simp only [↓reduceIte]; omega
  | @leave p L hp hcm ho =>
    have ha := sum_set Pc.isActive s.pc p .idle 1 0 (by rw [hp]; rfl) rfl
    have hc := sum_set Pc.isCommitting s.pc p .idle 0 0 (by rw [hp]; rfl) rfl
    have hos := h.outstanding
    refine ⟨?_, ?_, ?_, h.nodup, ?_, h.sane⟩
    · simp only [sum_wakeup Pc.isActive rfl]; omega
    · simp only [sum_wakeup Pc.isCommitting rfl]; exact h.committing.trans hc.symm
    · simp [hcm]
    · intro q
      rw [logged_wakeup]
      exact logged_update h (fun _ hx => hx) (by simp [Pc.logged]) q
  | clear hp =>
    have hc := h.committing_of_pc hp
    refine ⟨h.outstanding, h.committing, h.quiet, by simp, ?_, h.sane⟩
    intro q
    simp [h.not_active hc q]
  | @finish p hp hb =>
    have ha := sum_set Pc.isActive s.pc p .idle 0 0 (by rw [hp]; rfl) rfl
    have hc := sum_set Pc.isCommitting s.pc p .idle 1 0 (by rw [hp]; rfl) rfl
    have hcm := h.committing_of_pc hp
    have hcs := h.committing
    simp only [hcm, ↓reduceIte] at hcs
    refine ⟨?_, ?_, by simp, h.nodup, ?_, h.sane⟩
    · simp only [sum_wakeup Pc.isActive rfl]; exact h.outstanding.trans ha.symm
    · simp only [sum_wakeup Pc.isCommitting rfl, Bool.false_eq_true, ↓reduceIte]; omega
    · intro q
      rw [logged_wakeup]
      exact logged_update h (fun _ hx => hx) (by simp [Pc.logged]) q

theorem Inv.of_run {C : St P → Action P → Prop} {start size : ℕ} {s : St P}
    (h : Run step C (Logging.init P start size) s) : Inv s :=
  h.invariant (Inv.init start size)
    (fun _ _ _ hi _ he => hi.of_step (step_inv he).2)

end Xv6.Logging
