import Mathlib
import Xv6.Sched.Cpus

namespace Xv6.Sched

open Kernel (ProcState)
open Lib.Transition

variable {C : Type} {n : ℕ} {L Ch : Type} {s t : St C n L Ch} {c : C} {p q : Fin n} {d : Pc n L Ch}

namespace Inv

theorem walk (h : Inv s.toCore) (hm : s.mode c = .thread p) (hheld : d.held p = (s.pc p).held p)
    (hleft : (s.pc p).left = false) (hleft' : d.left = false) (hpark : d.isParked = false) (hy : d.inYield = false)
    (hcr : d.creates = none) : Inv (s.goto p d).toCore := by
  apply h.move hm (fun _ _ _ => Iff.rfl) _ hleft hleft' hpark hy (Or.inl hcr)
  intro r
  rw [h.held_self hm, hheld]

theorem acquire (h : Inv s.toCore) (hm : s.mode c = .thread p) (ht : s.acquire c p q d = some t)
    (hheld : (s.pc p).held p = none) (hheld' : d.held p = some q) (hpark : (s.pc p).isParked = false)
    (hleft' : d.left = false) (hpark' : d.isParked = false) (hy : d.inYield = false)
    (hcr : d.creates = none ∨ d.creates = (s.view p).creates) : Inv t.toCore := by
  obtain ⟨-, hleft⟩ := Pc.not_inYield hheld hpark
  rw [St.acquire] at ht
  split_ifs at ht with hl
  cases ht
  have hself := h.held_self hm
  apply h.move hm _ _ hleft hleft' hpark' hy hcr
  · grind [Function.update_apply]
  · grind [Function.update_apply]

theorem release (h : Inv s.toCore) (hm : s.mode c = .thread p) (hheld : (s.pc p).held p = some q)
    (hheld' : d.held p = none) (hleft : (s.pc p).left = false) (hpark : d.isParked = false)
    (hcr : d.creates = none ∨ d.creates = (s.view p).creates) : Inv (s.release p q d).toCore := by
  obtain ⟨hy, hleft'⟩ := Pc.not_inYield hheld' hpark
  have hself := h.held_self hm
  apply h.move hm _ _ hleft hleft' hpark hy hcr
  · grind [Function.update_apply]
  · grind [Function.update_apply]

theorem view_eq (hp : (s.pc p).inYield = false) : s.view p = s.pc p := by
  simp only [Core.view, hp, Bool.false_eq_true, ↓reduceIte]

theorem made (h : Inv s.toCore) (hq : s.state q ≠ .used) (r : Fin n) (hr : (s.view r).creates = some q) : r = p :=
  absurd (h.creating r q hr) hq

theorem wake (h : Inv s.toCore) (hm : s.mode c = .thread p) (hheld : (s.pc p).held p = some q)
    (hd : d.held p = some q) (hleft : (s.pc p).left = false) (hleft' : d.left = false) (hpark : d.isParked = false)
    (hy : d.inYield = false) (hcr : d.creates = none) (hq : s.state q = .sleeping) : Inv (s.setState p q .runnable d).toCore := by
  have hst : ProcState.runnable ≠ .running := nofun
  apply h.change hm hheld hd hleft hleft' hpark hy hcr hst
  · rw [hq]
    exact nofun
  · rw [hq]
    exact nofun
  · exact h.made (by rw [hq]; exact nofun)

theorem killProc {pid : ℕ} {todo : List (Fin n)} (h : Inv s.toCore) (hm : s.mode c = .thread p)
    (hp : s.pc p = .killTest pid q todo) : Inv (s.killProc p q pid todo).toCore := by
  have hleft : (s.pc p).left = false := by rw [hp]; rfl
  rw [St.killProc]
  dsimp only
  split_ifs with hpid hst
  · exact h.wake hm (by rw [hp]; rfl) rfl hleft rfl rfl rfl rfl hst
  · exact h.walk hm (by rw [hp]; rfl) hleft rfl rfl rfl rfl
  · exact h.walk hm (by rw [hp]; rfl) hleft rfl rfl rfl rfl

theorem freeproc (h : Inv s.toCore) (hm : s.mode c = .thread p) (hheld : (s.pc p).held p = some q)
    (hleft : (s.pc p).left = false) (hq : s.state q ≠ .running) (hmine : ∀ r, (s.view r).creates = some q → r = p) :
    Inv (s.freeproc p q (.dropLock q)).toCore := by
  have hst : ProcState.unused ≠ .running := nofun
  exact h.change hm hheld rfl hleft rfl rfl rfl rfl hst hq (fun _ => rfl) hmine

theorem making (h : Inv s.toCore) (hy : (s.pc p).inYield = false) (hp : (s.pc p).creates = some q) :
    s.state q = .used ∧ ∀ r, (s.view r).creates = some q → r = p := by
  have hv : (s.view p).creates = some q := by rw [view_eq hy, hp]
  exact ⟨h.creating p q hv, fun r hr => h.creator r p q hr hv⟩

section Step

variable [DecidableEq C] [DecidableEq L] [DecidableEq Ch]

omit [DecidableEq C] in
theorem of_call {f : Call n L Ch} (h : Inv s.toCore) (hm : s.mode c = .thread p) (hp : s.pc p = .free)
    (ht : s.call c p f = some t) : Inv t.toCore := by
  have hpark : (s.pc p).isParked = false := by rw [hp]; rfl
  have hheld : (s.pc p).held p = none := by rw [hp]; rfl
  have hleft : (s.pc p).left = false := by rw [hp]; rfl
  cases f with
  | sleep chan lk =>
    simp only [St.call] at ht
    split_ifs at ht
    exact h.acquire hm ht hheld rfl hpark rfl rfl rfl (Or.inl rfl)
  | wakeup chan =>
    cases ht
    exact h.walk hm hheld.symm hleft rfl rfl rfl rfl
  | kill pid =>
    cases ht
    exact h.walk hm hheld.symm hleft rfl rfl rfl rfl
  | fork =>
    cases ht
    exact h.walk hm hheld.symm hleft rfl rfl rfl rfl
  | exit => exact h.acquire hm ht hheld rfl hpark rfl rfl rfl (Or.inl rfl)
  | wait q => exact h.acquire hm ht hheld rfl hpark rfl rfl rfl (Or.inl rfl)
  | acquire lk =>
    simp only [St.call] at ht
    split_ifs at ht
    cases ht
    exact h
  | release lk =>
    simp only [St.call] at ht
    split_ifs at ht
    cases ht
    exact h

theorem of_next {ok : Bool} (h : Inv s.toCore) (hm : s.mode c = .thread p) (ht : s.next c p ok = some t) :
    Inv t.toCore := by
  have hpark := h.on c p hm
  cases hp : s.pc p with
  | free =>
    simp only [St.next, hp] at ht
    cases ht
  | parked k =>
    rw [hp] at hpark
    cases hpark
  | yieldState =>
    simp only [St.next, hp] at ht
    cases ht
    exact h.leave hm (by rw [hp]; rfl) (by rw [hp]; rfl) (Or.inl rfl) (fun _ => by rw [hp]; rfl)
  | sleepRelease chan lk =>
    simp only [St.next, hp] at ht
    cases ht
    exact h.walk hm (by rw [hp]; rfl) (by rw [hp]; rfl) rfl rfl rfl rfl
  | sleepChan chan lk =>
    simp only [St.next, hp] at ht
    cases ht
    exact h.walk hm (by rw [hp]; rfl) (by rw [hp]; rfl) rfl rfl rfl rfl
  | sleepState chan lk =>
    simp only [St.next, hp] at ht
    cases ht
    exact h.leave hm (by rw [hp]; rfl) (by rw [hp]; rfl) (Or.inr (Or.inl rfl)) nofun
  | swtchSave k =>
    simp only [St.next, hp] at ht
    cases ht
    exact h.save hm hp
  | swtchLoad k =>
    simp only [St.next, hp] at ht
    cases ht
    exact h.park hm hp
  | resumed k =>
    cases k with
    | yield =>
      simp only [St.next, hp] at ht
      cases ht
      exact h.leaveYield hm hp
    | fork =>
      simp only [St.next, hp] at ht
      cases ht
      exact h.release hm (by rw [hp]; rfl) rfl (by rw [hp]; rfl) rfl (Or.inl rfl)
    | sleep chan lk =>
      simp only [St.next, hp] at ht
      cases ht
      exact h.walk hm (by rw [hp]; rfl) (by rw [hp]; rfl) rfl rfl rfl rfl
    | exit =>
      simp only [St.next, hp] at ht
      cases ht
  | sleepDone lk =>
    simp only [St.next, hp] at ht
    cases ht
    exact h.release hm (by rw [hp]; rfl) rfl (by rw [hp]; rfl) rfl (Or.inl rfl)
  | sleepReacquire lk =>
    simp only [St.next, hp] at ht
    split_ifs at ht
    cases ht
    exact h.walk hm (by rw [hp]; rfl) (by rw [hp]; rfl) rfl rfl rfl rfl
  | wakeup chan todo =>
    cases todo with
    | nil =>
      simp only [St.next, hp] at ht
      cases ht
      exact h.walk hm (by rw [hp]; rfl) (by rw [hp]; rfl) rfl rfl rfl rfl
    | cons q todo =>
      simp only [St.next, hp] at ht
      split_ifs at ht
      · cases ht
        exact h.walk hm (by rw [hp]; rfl) (by rw [hp]; rfl) rfl rfl rfl rfl
      · exact h.acquire hm ht (by rw [hp]; rfl) rfl hpark rfl rfl rfl (Or.inl rfl)
  | wakeTest chan q todo =>
    simp only [St.next, hp] at ht
    split_ifs at ht with hst
    · cases ht
      exact h.wake hm (by rw [hp]; rfl) rfl (by rw [hp]; rfl) rfl rfl rfl rfl hst.1
    · cases ht
      exact h.walk hm (by rw [hp]; rfl) (by rw [hp]; rfl) rfl rfl rfl rfl
  | wakeRelease chan q todo =>
    simp only [St.next, hp] at ht
    cases ht
    exact h.release hm (by rw [hp]; rfl) rfl (by rw [hp]; rfl) rfl (Or.inl rfl)
  | kill pid todo =>
    cases todo with
    | nil =>
      simp only [St.next, hp] at ht
      cases ht
      exact h.walk hm (by rw [hp]; rfl) (by rw [hp]; rfl) rfl rfl rfl rfl
    | cons q todo =>
      simp only [St.next, hp] at ht
      exact h.acquire hm ht (by rw [hp]; rfl) rfl hpark rfl rfl rfl (Or.inl rfl)
  | killTest pid q todo =>
    simp only [St.next, hp] at ht
    cases ht
    exact h.killProc hm hp
  | killSkip pid q todo =>
    simp only [St.next, hp] at ht
    cases ht
    exact h.release hm (by rw [hp]; rfl) rfl (by rw [hp]; rfl) rfl (Or.inl rfl)
  | alloc todo =>
    cases todo with
    | nil =>
      simp only [St.next, hp] at ht
      cases ht
      exact h.walk hm (by rw [hp]; rfl) (by rw [hp]; rfl) rfl rfl rfl rfl
    | cons q todo =>
      simp only [St.next, hp] at ht
      exact h.acquire hm ht (by rw [hp]; rfl) rfl hpark rfl rfl rfl (Or.inl rfl)
  | allocTest q todo =>
    simp only [St.next, hp] at ht
    split_ifs at ht with hst
    · cases ht
      exact h.alloc hm (by rw [hp]; rfl) (by rw [hp]; rfl) hst
    · cases ht
      exact h.walk hm (by rw [hp]; rfl) (by rw [hp]; rfl) rfl rfl rfl rfl
  | allocSkip q todo =>
    simp only [St.next, hp] at ht
    cases ht
    exact h.release hm (by rw [hp]; rfl) rfl (by rw [hp]; rfl) rfl (Or.inl rfl)
  | forkCopy q =>
    have hy : (s.pc p).inYield = false := by rw [hp]; rfl
    have hmake := h.making (q := q) hy (by rw [hp]; rfl)
    simp only [St.next, hp] at ht
    split_ifs at ht
    · cases ht
      exact h.release hm (by rw [hp]; rfl) rfl (by rw [hp]; rfl) rfl (Or.inr (by rw [view_eq hy, hp]; rfl))
    · cases ht
      exact h.freeproc hm (by rw [hp]; rfl) (by rw [hp]; rfl) (by rw [hmake.1]; exact nofun) hmake.2
  | forkParent q =>
    have hy : (s.pc p).inYield = false := by rw [hp]; rfl
    simp only [St.next, hp] at ht
    exact h.acquire hm ht (by rw [hp]; rfl) rfl hpark rfl rfl rfl (Or.inr (by rw [view_eq hy, hp]; rfl))
  | forkState q =>
    have hmake := h.making (p := p) (q := q) (by rw [hp]; rfl) (by rw [hp]; rfl)
    simp only [St.next, hp] at ht
    cases ht
    exact h.change hm (by rw [hp]; rfl) rfl (by rw [hp]; rfl) rfl rfl rfl rfl nofun (by rw [hmake.1]; exact nofun)
      (by rw [hmake.1]; exact nofun) hmake.2
  | exitState =>
    simp only [St.next, hp] at ht
    cases ht
    exact h.leave hm (by rw [hp]; rfl) (by rw [hp]; rfl) (Or.inr (Or.inr rfl)) nofun
  | waitTest q =>
    simp only [St.next, hp] at ht
    split_ifs at ht with hst
    · cases ht
      exact h.freeproc hm (by rw [hp]; rfl) (by rw [hp]; rfl) (by rw [hst.1]; exact nofun)
        (h.made (by rw [hst.1]; exact nofun))
    · cases ht
      exact h.walk hm (by rw [hp]; rfl) (by rw [hp]; rfl) rfl rfl rfl rfl
  | dropLock q =>
    simp only [St.next, hp] at ht
    cases ht
    exact h.release hm (by rw [hp]; rfl) rfl (by rw [hp]; rfl) rfl (Or.inl rfl)

omit [DecidableEq L] [DecidableEq Ch] in
theorem of_scheduler (h : Inv s.toCore) (ht : s.scheduler c = some t) : Inv t.toCore := by
  cases hm : s.mode c with
  | scan =>
    simp only [St.scheduler, hm] at ht
    cases ht
  | thread p =>
    simp only [St.scheduler, hm] at ht
    cases ht
  | test p =>
    simp only [St.scheduler, hm] at ht
    split_ifs at ht with hst
    · cases ht
      exact h.choose hm hst
    · cases ht
      have hproc : Function.update s.proc c none = s.proc := by
        rw [Function.update_eq_self_iff, h.proc, hm]
        rfl
      have hpass := h.pass (o := none) (m := .unlock p) (Or.inl hm) (Or.inr ⟨by rw [hm]; exact nofun, rfl, rfl⟩)
      rw [hproc] at hpass
      exact hpass
  | picked p =>
    simp only [St.scheduler, hm] at ht
    cases ht
    exact h.pass (Or.inr (Or.inl hm)) (Or.inl ⟨hm, rfl, rfl⟩)
  | switchIn p =>
    simp only [St.scheduler, hm] at ht
    cases hp : s.pc p with
    | parked k =>
      simp only [hp] at ht
      cases ht
      exact h.resume hm hp
    | _ =>
      simp only [hp] at ht
      cases ht
  | switched p =>
    simp only [St.scheduler, hm] at ht
    cases ht
    exact h.pass (Or.inr (Or.inr hm)) (Or.inr ⟨by rw [hm]; exact nofun, rfl, rfl⟩)
  | unlock p =>
    simp only [St.scheduler, hm] at ht
    cases ht
    exact h.unlock hm

theorem of_step {a : Action C n L Ch} (h : Inv s.toCore) (ht : step s a = some t) : Inv t.toCore := by
  cases a with
  | pick c p =>
    cases hm : s.mode c with
    | scan =>
      simp only [step, hm] at ht
      split_ifs at ht with hl
      cases ht
      exact h.pick hm hl
    | _ =>
      simp only [step, hm] at ht
      cases ht
  | scheduler c => exact h.of_scheduler ht
  | yield c =>
    cases hm : s.mode c with
    | thread p =>
      simp only [step, hm] at ht
      split_ifs at ht with hheld
      rw [St.acquire] at ht
      split_ifs at ht with hl
      · cases ht
        exact h.enterYield hm hl hheld
      · cases ht
    | _ =>
      simp only [step, hm] at ht
      cases ht
  | call c f =>
    cases hm : s.mode c with
    | thread p =>
      simp only [step, hm] at ht
      cases hp : s.pc p with
      | free =>
        simp only [hp] at ht
        exact h.of_call hm hp ht
      | _ =>
        simp only [hp] at ht
        cases ht
    | _ =>
      simp only [step, hm] at ht
      cases ht
  | next c ok =>
    cases hm : s.mode c with
    | thread p =>
      simp only [step, hm] at ht
      exact h.of_next hm ht
    | _ =>
      simp only [step, hm] at ht
      cases ht

end Step

theorem of_userinit (init : Fin n) : Inv (userinit C L Ch init).toCore := by
  constructor
  · exact fun _ _ => ⟨nofun, nofun⟩
  · exact fun _ => rfl
  · exact nofun
  · exact nofun
  · exact nofun
  · exact nofun
  · intro c p hm
    rcases hm with hm | hm <;> cases hm
  · exact nofun
  · intro p _ hst
    simp only [userinit] at hst
    split_ifs at hst
  · intro p _ hst
    simp only [userinit] at hst ⊢
    split_ifs at hst with hp
    · exact decide_eq_true hp
    · exact absurd rfl hst
  · exact nofun
  · exact nofun
  · exact nofun
  · exact nofun
  · exact nofun

variable {s : Core C n L Ch} {c' : C}

theorem proc_cases (h : Inv s) (hc : s.proc c = some p) :
    s.mode c = .thread p ∨ (s.mode c).held s.pc = some p ∧ (s.pc p).isParked = true := by
  rw [h.proc] at hc
  cases hm : s.mode c with
  | switchIn r =>
    rw [hm] at hc
    cases hc
    exact Or.inr ⟨rfl, (h.coming c p (Or.inr hm)).2⟩
  | switched r =>
    rw [hm] at hc
    cases hc
    exact Or.inr ⟨rfl, h.going c p hm⟩
  | thread r =>
    rw [hm] at hc
    cases hc
    exact Or.inl rfl
  | _ =>
    rw [hm] at hc
    cases hc

theorem not_thread_of_parked (h : Inv s) (hp : (s.pc p).isParked = true) (c : C) : s.mode c ≠ .thread p := by
  intro hm
  rw [h.on c p hm] at hp
  cases hp

theorem proc_unique (h : Inv s) (hc : s.proc c = some p) (hc' : s.proc c' = some p) : c = c' := by
  rcases h.proc_cases hc with hm | ⟨hl, hp⟩ <;> rcases h.proc_cases hc' with hm' | ⟨hl', hp'⟩
  · exact h.one c c' p hm hm'
  · exact absurd hm (h.not_thread_of_parked hp' c)
  · exact absurd hm' (h.not_thread_of_parked hp c')
  · rw [← h.lock] at hl hl'
    rw [hl] at hl'
    exact Option.some_inj.mp hl'

theorem running_iff (h : Inv s) (hl : s.lock p = none) : s.state p = .running ↔ ∃ c, s.proc c = some p := by
  have hfree : ∀ c, (s.mode c).held s.pc ≠ some p := by
    intro c hc
    rw [← h.lock, hl] at hc
    cases hc
  constructor
  · intro hst
    cases hp : (s.pc p).isParked with
    | false =>
      obtain ⟨c, hm⟩ := h.off p hp
      exact ⟨c, by rw [h.proc, hm]; rfl⟩
    | true =>
      obtain ⟨c, hm | hm⟩ := h.chosen p hp hst
      · exact absurd (by rw [hm]; rfl) (hfree c)
      · exact absurd (by rw [hm]; rfl) (hfree c)
  · rintro ⟨c, hc⟩
    obtain hm | ⟨hheld, -⟩ := h.proc_cases hc
    · apply (h.run p (h.on c p hm)).mpr
      by_contra hleft
      apply hfree c
      rw [hm]
      exact Pc.held_of_left (by simpa using hleft)
    · exact absurd hheld (hfree c)

end Inv

/-- In every interleaving of the CPUs a process runs on one CPU at most, and a context that `scheduler` loads has been saved. -/
theorem process_runs_on_one_cpu [DecidableEq C] [DecidableEq L] [DecidableEq Ch] (init : Fin n)
    (h : Run step (fun _ _ => True) (userinit C L Ch init) s) :
    (∀ p, s.lock p = none → (s.state p = .running ↔ ∃! c, s.proc c = some p)) ∧
      (∀ c c' p, s.proc c = some p → s.proc c' = some p → c = c') ∧
      (∀ c p, s.mode c = .switchIn p → s.saved p = true ∧ ∀ c', s.mode c' ≠ .thread p) ∧
      ∀ c p q, s.mode c = .thread p → s.pc p = .waitTest q → s.state q = .zombie → ∀ c', s.mode c' ≠ .thread q := by
  have hinv : Inv s.toCore := by
    apply h.invariant (I := fun s => Inv s.toCore) (Inv.of_userinit init)
    exact fun s a t hs _ ht => hs.of_step ht
  refine ⟨?_, fun c c' p => hinv.proc_unique, ?_, ?_⟩
  · intro p hl
    rw [hinv.running_iff hl]
    constructor
    · rintro ⟨c, hc⟩
      exact ⟨c, hc, fun c' hc' => hinv.proc_unique hc' hc⟩
    · exact ExistsUnique.exists
  · intro c p hm
    obtain ⟨hst, hp⟩ := hinv.coming c p (Or.inr hm)
    exact ⟨hinv.saved p hp (by rw [hst]; exact nofun), hinv.not_thread_of_parked hp⟩
  · intro c p q hm hp hst
    have hparked := hinv.parked hm (by rw [hp]; rfl) (by rw [hp]; rfl) (by rw [hst]; exact nofun)
    exact hinv.not_thread_of_parked hparked.1

local instance twoProcs : NeZero 2 := ⟨by decide⟩

def forkAndRun : List (Action Bool 2 Unit Unit) :=
  [.pick true 0, .scheduler true, .scheduler true, .scheduler true, .next true true, .call true .fork] ++
    List.replicate 9 (.next true true) ++
    [.pick false 1, .scheduler false, .scheduler false, .scheduler false, .next false true]

theorem two_processes_on_two_cpus :
    ∃ s, execute step (fun _ _ => True) (userinit Bool Unit Unit 0) forkAndRun = some s ∧
      s.state 0 = .running ∧ s.state 1 = .running ∧ (∃! c, s.proc c = some 0) ∧ ∃! c, s.proc c = some 1 := by
  obtain ⟨s, hs⟩ : ∃ s, execute step (fun _ _ => True) (userinit Bool Unit Unit 0) forkAndRun = some s := ⟨_, rfl⟩
  obtain ⟨hrun, -⟩ := process_runs_on_one_cpu 0 (run_of_execute hs)
  have hl : s.lock 0 = none ∧ s.lock 1 = none := by
    cases hs
    exact ⟨rfl, rfl⟩
  have hst : s.state 0 = .running ∧ s.state 1 = .running := by
    cases hs
    exact ⟨rfl, rfl⟩
  exact ⟨s, hs, hst.1, hst.2, (hrun 0 hl.1).mp hst.1, (hrun 1 hl.2).mp hst.2⟩

end Xv6.Sched
