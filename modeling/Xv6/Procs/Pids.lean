import Xv6.Procs.Kill

namespace Xv6.Procs

open Kernel (ProcState)
open Lib.Transition

variable {n : ℕ} {Ch : Type} {s t : St n Ch} {p q r init : Fin n}

/-- `p->pid` as the `int` that it is: the counter of the model goes on where `nextpid` wraps. -/
def St.pidInt (s : St n Ch) (q : Fin n) : ℤ := (BitVec.ofNat 32 (s.pid q)).toInt

theorem pidInt_eq (h : s.pid q < 2 ^ 31) : s.pidInt q = s.pid q := by
  have hnat : (BitVec.ofNat 32 (s.pid q)).toNat = s.pid q := by
    rw [BitVec.toNat_ofNat, Nat.mod_eq_of_lt (by omega)]
  rw [St.pidInt, BitVec.toInt_eq_toNat_of_lt (by omega), hnat]

def Quiet (_ : St n Ch) (a : Action n Ch) : Prop := 0 ∉ a.asks

instance decidableQuiet (s : St n Ch) (a : Action n Ch) : Decidable (Quiet s a) :=
  inferInstanceAs (Decidable (0 ∉ a.asks))

theorem marks_of_run [DecidableEq Ch] (h : Run (step init) Quiet (userinit Ch init) s) :
    Inv init s ∧ ∃ kills, Marks kills s := by
  apply h.invariant (I := fun s => Inv init s ∧ ∃ kills, Marks kills s) ⟨.of_userinit init, [], .of_userinit init⟩
  rintro s a t ⟨hi, kills, hm⟩ hask hstep
  exact ⟨hi.of_step hstep, _, hm.of_step hi hask hstep⟩

/-- As long as `nextpid` has not passed the largest `int`, processes have positive pids of their own, and so has the child
whose pid a `fork` is going to return. -/
theorem pids_unique [DecidableEq Ch] (init : Fin n) (h : Run (step init) Quiet (userinit Ch init) s) (hn : s.nextpid ≤ 2 ^ 31) :
    (∀ q, s.state q ≠ .unused → 0 < s.pidInt q) ∧
    (∀ q r, s.state q ≠ .unused → s.state r ≠ .unused → s.pidInt q = s.pidInt r → q = r) ∧
    ∀ p q, (s.pc p).creates = some q → 0 < s.pidInt q := by
  obtain ⟨hi, kills, hm⟩ := marks_of_run h
  have hint : ∀ q, s.state q ≠ .unused → s.pidInt q = s.pid q := by
    intro q hq
    exact pidInt_eq ((hm.named q hq).2.trans_le hn)
  have hpos : ∀ q, s.state q ≠ .unused → 0 < s.pidInt q := by
    intro q hq
    rw [hint q hq]
    exact Int.natCast_pos.mpr (hm.named q hq).1
  refine ⟨hpos, ?_, ?_⟩
  · intro q r hq hr heq
    rw [hint q hq, hint r hr] at heq
    exact hm.apart q r hq hr (Int.natCast_inj.mp heq)
  · intro p q hp
    apply hpos
    rw [hi.making p q hp]
    simp

theorem pids_unique_fork : ∃ s : St 2 Unit, Run (step 0) Quiet (userinit Unit 0) s ∧ s.state 1 = .used ∧
    0 < s.pidInt 1 ∧ (s.pidInt 0 = s.pidInt 1 → (0 : Fin 2) = 1) := by
  obtain ⟨s, hs, hst0, hst1, hn⟩ : ∃ s, execute (step 0) Quiet (userinit Unit (0 : Fin 2))
      [.run 0, .call 0 .fork, .next 0 true, .next 0 true] = some s ∧
      s.state 0 = .running ∧ s.state 1 = .used ∧ s.nextpid = 3 := ⟨_, rfl, rfl, rfl, rfl⟩
  obtain ⟨hpos, hapart, -⟩ := pids_unique 0 (run_of_execute hs) (by rw [hn]; decide)
  refine ⟨s, run_of_execute hs, hst1, hpos 1 (by rw [hst1]; simp), hapart 0 1 ?_ ?_⟩
  · rw [hst0]
    simp
  · rw [hst1]
    simp

/-! ### Runs of any length -/

local instance twoEntries : NeZero 2 := ⟨by decide⟩

def alone (k : ℕ) (life : ℕ) (reaped : List (Reap 2)) : St 2 Unit :=
  { userinit Unit 0 with
    state := fun p => if p = 0 then .running else .unused
    nextpid := k
    life := fun p => if p = 0 then 1 else life
    reaped := reaped }

def forkOnce : List (Action 2 Unit) := [.call 0 .fork, .next 0 true, .next 0 true]

def childLife : List (Action 2 Unit) :=
  forkOnce ++ List.replicate 3 (.next 0 true) ++ [.run 1, .call 1 (.exit 0)] ++ List.replicate 7 (.next 1 true) ++
    [.call 0 .wait] ++ List.replicate 3 (.next 0 true)

theorem St.eq_of_fields (hstate : ∀ q, s.state q = t.state q) (hparent : ∀ q, s.parent q = t.parent q)
    (hpid : ∀ q, s.pid q = t.pid q) (hx : ∀ q, s.xstate q = t.xstate q) (hkilled : ∀ q, s.killed q = t.killed q)
    (hchan : ∀ q, s.chan q = t.chan q) (hnext : s.nextpid = t.nextpid) (hlock : s.waitLock = t.waitLock)
    (hpc : ∀ q, s.pc q = t.pc q) (hlife : ∀ q, s.life q = t.life q) (hreaped : s.reaped = t.reaped) : s = t := by
  cases s
  cases t
  congr
  all_goals
    funext q
    apply_assumption

theorem execute_childLife (k life : ℕ) (reaped : List (Reap 2)) :
    execute (step 0) Quiet (alone k life reaped) childLife = some (alone (k + 1) (life + 1) (⟨0, 1, life + 1, k, 0⟩ :: reaped)) := by
  have hex : ∃ t, execute (step 0) Quiet (alone k life reaped) childLife = some t ∧
      t = alone (k + 1) (life + 1) (⟨0, 1, life + 1, k, 0⟩ :: reaped) := by
    refine ⟨_, rfl, St.eq_of_fields ?_ ?_ ?_ ?_ ?_ ?_ rfl rfl ?_ ?_ rfl⟩
    all_goals exact Fin.forall_fin_two.mpr ⟨rfl, rfl⟩
  obtain ⟨t, ht, rfl⟩ := hex
  exact ht

theorem run_alone {k : ℕ} (hk : 2 ≤ k) : ∃ life reaped, Run (step 0) Quiet (userinit Unit 0) (alone k life reaped) := by
  induction k, hk using Nat.le_induction with
  | base =>
    have hex : ∃ t, execute (step 0) Quiet (userinit Unit 0) [.run 0] = some t ∧ t = alone 2 0 [] := by
      refine ⟨_, rfl, St.eq_of_fields ?_ ?_ ?_ ?_ ?_ ?_ rfl rfl ?_ ?_ rfl⟩
      all_goals exact Fin.forall_fin_two.mpr ⟨rfl, rfl⟩
    obtain ⟨t, ht, rfl⟩ := hex
    exact ⟨0, [], run_of_execute ht⟩
  | succ k _ ih =>
    obtain ⟨life, reaped, hrun⟩ := ih
    exact ⟨_, _, hrun.trans (run_of_execute (execute_childLife k life reaped))⟩

theorem run_fork {k : ℕ} (hk : 2 ≤ k) : ∃ s : St 2 Unit, Run (step 0) Quiet (userinit Unit 0) s ∧
    s.state 0 = .running ∧ s.state 1 = .used ∧ s.pid 0 = 1 ∧ s.pid 1 = k ∧ (s.pc 0).creates = some 1 := by
  obtain ⟨life, reaped, hrun⟩ := run_alone hk
  obtain ⟨s, hs, hstate⟩ : ∃ s, execute (step 0) Quiet (alone k life reaped) forkOnce = some s ∧
      s.state 0 = .running ∧ s.state 1 = .used ∧ s.pid 0 = 1 ∧ s.pid 1 = k ∧ (s.pc 0).creates = some 1 :=
    ⟨_, rfl, rfl, rfl, rfl, rfl, rfl⟩
  exact ⟨s, hrun.trans (run_of_execute hs), hstate⟩

theorem pids_wrap :
    (∃ s : St 2 Unit, Run (step 0) Quiet (userinit Unit 0) s ∧ (s.pc 0).creates = some 1 ∧ s.pidInt 1 = -2147483648) ∧
    (∃ s : St 2 Unit, Run (step 0) Quiet (userinit Unit 0) s ∧ (s.pc 0).creates = some 1 ∧ s.pidInt 1 = 0) ∧
    ∃ s : St 2 Unit, Run (step 0) Quiet (userinit Unit 0) s ∧ s.state 0 ≠ .unused ∧ s.state 1 ≠ .unused ∧
      s.pidInt 0 = s.pidInt 1 := by
  refine ⟨?_, ?_, ?_⟩
  · obtain ⟨s, hrun, -, -, -, hpid, hc⟩ := @run_fork 2147483648 (by decide)
    refine ⟨s, hrun, hc, ?_⟩
    rw [St.pidInt, hpid]
    rfl
  · obtain ⟨s, hrun, -, -, -, hpid, hc⟩ := @run_fork 4294967296 (by decide)
    refine ⟨s, hrun, hc, ?_⟩
    rw [St.pidInt, hpid]
    rfl
  · obtain ⟨s, hrun, h0, h1, hpid0, hpid1, -⟩ := @run_fork 4294967297 (by decide)
    refine ⟨s, hrun, ?_, ?_, ?_⟩
    · rw [h0]
      simp
    · rw [h1]
      simp
    · rw [St.pidInt, St.pidInt, hpid0, hpid1]
      rfl

end Xv6.Procs
