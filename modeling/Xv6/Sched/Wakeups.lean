import Xv6.Sched.Running

namespace Xv6.Sched

open Kernel (ProcState)
open Lib.Transition
open Function (update update_of_ne update_self)

variable {C : Type} {n : ℕ} {L Ch : Type} {s t : St C n L Ch} {c : C} {p q : Fin n} {ch : Ch}

def Pc.suspended : Pc n L Ch → Bool
  | .swtchSave .yield | .swtchLoad .yield | .parked .yield => true
  | .swtchSave (.sleep _ _) | .swtchLoad (.sleep _ _) | .parked (.sleep _ _) => true
  | _ => false

structure Wakes (s t : St C n L Ch) (ch : Ch) (p : Fin n) : Prop where
  asleep : s.state p = .sleeping
  chan : s.chan p = some ch
  runnable : t.state p = .runnable
  by_thread : ∃ q c, s.mode c = .thread q ∧
    ((∃ todo, s.pc q = .wakeTest ch p todo) ∨ ∃ todo, s.pc q = .killTest (s.pid p) p todo)

inductive Seen (s t : St C n L Ch) (p : Fin n) : Prop
  | same (hpc : t.pc p = s.pc p) (hback : t.back p = s.back p) (hst : t.state p = s.state p)
      (hchan : t.chan p = s.chan p)
  | chosen (hpc : t.pc p = s.pc p) (hback : t.back p = s.back p) (hst : s.state p = .runnable)
      (hst' : t.state p = .running)
  | woken (hpc : t.pc p = s.pc p) (hback : t.back p = s.back p) (hst : s.state p = .sleeping)
      (hst' : t.state p = .runnable) (hw : ∀ ch, s.chan p = some ch → Wakes s t ch p)
  | forked (hpc : t.pc p = s.pc p) (hback : t.back p = s.back p) (hst : s.state p = .used)
      (hst' : t.state p = .runnable)
  | freed (hpc : t.pc p = s.pc p) (hback : t.back p = s.back p) (hst : s.state p = .used ∨ s.state p = .zombie)
  | alloc (hpc : t.pc p = .parked .fork) (hst : s.state p = .unused)
  | resumed (c : C) (k : Kont L Ch) (hm : s.mode c = .switchIn p) (hpc : s.pc p = .parked k)
      (hpc' : t.pc p = .resumed k) (hback : t.back p = s.back p)

namespace Seen

variable {d : Pc n L Ch} {r : Fin n} {st : ProcState}

theorem goto (hpq : p ≠ q) : Seen s (s.goto q d) p :=
  .same (update_of_ne hpq _ _) rfl rfl rfl

theorem acquire (hpq : p ≠ q) (ht : s.acquire c q r d = some t) : Seen s t p := by
  rw [St.acquire] at ht
  split_ifs at ht
  cases ht
  exact .same (update_of_ne hpq _ _) rfl rfl rfl

theorem release (hpq : p ≠ q) : Seen s (s.release q r d) p :=
  .same (update_of_ne hpq _ _) rfl rfl rfl

theorem setState (hpq : p ≠ q) (hpr : p ≠ r) : Seen s (s.setState q r st d) p :=
  .same (update_of_ne hpq _ _) rfl (update_of_ne hpr _ _) rfl

theorem freeproc (hpq : p ≠ q) (hst : s.state r = .used ∨ s.state r = .zombie) : Seen s (s.freeproc q r d) p := by
  by_cases hpr : p = r
  · subst hpr
    exact .freed (update_of_ne hpq _ _) rfl hst
  · exact .same (update_of_ne hpq _ _) rfl (update_of_ne hpr _ _) (update_of_ne hpr _ _)

theorem allocproc (hpq : p ≠ q) (hst : s.state r = .unused) : Seen s (s.allocproc q r) p := by
  by_cases hpr : p = r
  · subst hpr
    exact .alloc ((update_of_ne hpq _ _).trans (update_self _ _ _)) hst
  · exact .same ((update_of_ne hpq _ _).trans (update_of_ne hpr _ _)) rfl (update_of_ne hpr _ _) rfl

theorem killProc {pid : ℕ} {todo : List (Fin n)} (hpq : p ≠ q) (hm : s.mode c = .thread q)
    (hq : s.pc q = .killTest pid r todo) : Seen s (s.killProc q r pid todo) p := by
  rw [St.killProc]
  dsimp only
  split_ifs with hpid hst
  · by_cases hpr : p = r
    · subst hpr
      subst hpid
      have hrun : update s.state p .runnable p = .runnable := update_self _ _ _
      exact .woken (update_of_ne hpq _ _) rfl hst hrun (fun ch hc => ⟨hst, hc, hrun, q, c, hm, Or.inr ⟨todo, hq⟩⟩)
    · exact .same (update_of_ne hpq _ _) rfl (update_of_ne hpr _ _) rfl
  · exact .same (update_of_ne hpq _ _) rfl rfl rfl
  · exact goto hpq

section Step

variable [DecidableEq C] [DecidableEq L] [DecidableEq Ch]

omit [DecidableEq C] [DecidableEq Ch] in
theorem of_call {f : Call n L Ch} (hpq : p ≠ q) (ht : s.call c q f = some t) : Seen s t p := by
  cases f with
  | sleep chan lk =>
    simp only [St.call] at ht
    split_ifs at ht
    exact acquire hpq ht
  | wakeup chan | kill pid | fork =>
    cases ht
    exact goto hpq
  | exit | wait r => exact acquire hpq ht
  | acquire lk | release lk =>
    simp only [St.call] at ht
    split_ifs at ht
    cases ht
    exact .same rfl rfl rfl rfl

theorem of_next {ok : Bool} (h : Inv s.toCore) (hm : s.mode c = .thread q) (hpq : p ≠ q)
    (ht : s.next c q ok = some t) : Seen s t p := by
  have hpc : ∀ d, update s.pc q d p = s.pc p := fun d => update_of_ne hpq _ _
  cases hq : s.pc q with
  | free | parked k =>
    simp only [St.next, hq] at ht
    cases ht
  | yieldState | sleepState chan lk | exitState =>
    simp only [St.next, hq] at ht
    cases ht
    exact setState hpq hpq
  | sleepRelease chan lk | swtchSave k | swtchLoad k =>
    simp only [St.next, hq] at ht
    cases ht
    exact .same (hpc _) rfl rfl rfl
  | sleepChan chan lk =>
    simp only [St.next, hq] at ht
    cases ht
    exact .same (hpc _) rfl rfl (update_of_ne hpq _ _)
  | resumed k =>
    cases k with
    | yield | fork =>
      simp only [St.next, hq] at ht
      cases ht
      exact release hpq
    | sleep chan lk =>
      simp only [St.next, hq] at ht
      cases ht
      exact .same (hpc _) rfl rfl (update_of_ne hpq _ _)
    | exit =>
      simp only [St.next, hq] at ht
      cases ht
  | sleepReacquire lk =>
    simp only [St.next, hq] at ht
    split_ifs at ht
    cases ht
    exact .same (hpc _) rfl rfl rfl
  | wakeup chan todo =>
    cases todo with
    | nil =>
      simp only [St.next, hq] at ht
      cases ht
      exact goto hpq
    | cons r todo =>
      simp only [St.next, hq] at ht
      split_ifs at ht
      · cases ht
        exact goto hpq
      · exact acquire hpq ht
  | wakeTest chan r todo =>
    simp only [St.next, hq] at ht
    split_ifs at ht with hst
    · cases ht
      by_cases hpr : p = r
      · subst hpr
        have hrun : update s.state p .runnable p = .runnable := update_self _ _ _
        refine .woken (hpc _) rfl hst.1 hrun ?_
        intro ch hc
        cases hst.2.symm.trans hc
        exact ⟨hst.1, hc, hrun, q, c, hm, Or.inl ⟨todo, hq⟩⟩
      · exact setState hpq hpr
    · cases ht
      exact goto hpq
  | kill pid todo | alloc todo =>
    cases todo with
    | nil =>
      simp only [St.next, hq] at ht
      cases ht
      exact goto hpq
    | cons r todo =>
      simp only [St.next, hq] at ht
      exact acquire hpq ht
  | killTest pid r todo =>
    simp only [St.next, hq] at ht
    cases ht
    exact killProc hpq hm hq
  | wakeRelease chan r todo | killSkip pid r todo | allocSkip r todo | sleepDone lk | dropLock r =>
    simp only [St.next, hq] at ht
    cases ht
    exact release hpq
  | allocTest r todo =>
    simp only [St.next, hq] at ht
    split_ifs at ht with hst
    · cases ht
      exact allocproc hpq hst
    · cases ht
      exact goto hpq
  | forkCopy r =>
    have hmake := h.making (p := q) (q := r) (by rw [hq]; rfl) (by rw [hq]; rfl)
    simp only [St.next, hq] at ht
    split_ifs at ht
    · cases ht
      exact release hpq
    · cases ht
      exact freeproc hpq (Or.inl hmake.1)
  | forkParent r =>
    simp only [St.next, hq] at ht
    exact acquire hpq ht
  | forkState r =>
    have hmake := h.making (p := q) (q := r) (by rw [hq]; rfl) (by rw [hq]; rfl)
    simp only [St.next, hq] at ht
    cases ht
    by_cases hpr : p = r
    · subst hpr
      exact .forked (hpc _) rfl hmake.1 (update_self _ _ _)
    · exact setState hpq hpr
  | waitTest r =>
    simp only [St.next, hq] at ht
    split_ifs at ht with hst
    · cases ht
      exact freeproc hpq (Or.inr hst.1)
    · cases ht
      exact goto hpq

omit [DecidableEq L] [DecidableEq Ch] in
theorem of_scheduler (ht : s.scheduler c = some t) : Seen s t p := by
  cases hm : s.mode c with
  | scan | thread q =>
    simp only [St.scheduler, hm] at ht
    cases ht
  | test q =>
    simp only [St.scheduler, hm] at ht
    split_ifs at ht with hst
    · cases ht
      by_cases hpq : p = q
      · subst hpq
        exact .chosen rfl rfl hst (update_self _ _ _)
      · exact .same rfl rfl (update_of_ne hpq _ _) rfl
    · cases ht
      exact .same rfl rfl rfl rfl
  | picked q | switched q | unlock q =>
    simp only [St.scheduler, hm] at ht
    cases ht
    exact .same rfl rfl rfl rfl
  | switchIn q =>
    simp only [St.scheduler, hm] at ht
    cases hq : s.pc q with
    | parked k =>
      simp only [hq] at ht
      cases ht
      by_cases hpq : p = q
      · subst hpq
        exact .resumed c k hm hq (update_self _ _ _) rfl
      · exact .same (update_of_ne hpq _ _) rfl rfl rfl
    | _ =>
      simp only [hq] at ht
      cases ht

theorem of_step {a : Action C n L Ch} (h : Inv s.toCore) (ht : step s a = some t) :
    Seen s t p ∨ ∃ c, s.mode c = .thread p ∧
      ((a = .yield c ∧ (s.pc p).held p = none ∧ t.pc p = .yieldState ∧ t.back p = s.pc p) ∨
        (∃ f, s.pc p = .free ∧ s.call c p f = some t) ∨ ∃ ok, s.next c p ok = some t) := by
  cases a with
  | pick c q =>
    left
    cases hm : s.mode c with
    | scan =>
      simp only [step, hm] at ht
      split_ifs at ht with hl
      cases ht
      exact .same rfl rfl rfl rfl
    | _ =>
      simp only [step, hm] at ht
      cases ht
  | scheduler c => exact Or.inl (of_scheduler ht)
  | yield c =>
    cases hm : s.mode c with
    | thread q =>
      simp only [step, hm] at ht
      split_ifs at ht with hheld
      rw [St.acquire] at ht
      split_ifs at ht with hl
      · cases ht
        by_cases hpq : p = q
        · subst hpq
          exact Or.inr ⟨c, hm, Or.inl ⟨rfl, hheld, update_self _ _ _, update_self _ _ _⟩⟩
        · exact Or.inl (.same (update_of_ne hpq _ _) (update_of_ne hpq _ _) rfl rfl)
      · cases ht
    | _ =>
      simp only [step, hm] at ht
      cases ht
  | call c f =>
    cases hm : s.mode c with
    | thread q =>
      simp only [step, hm] at ht
      cases hq : s.pc q with
      | free =>
        simp only [hq] at ht
        by_cases hpq : p = q
        · subst hpq
          exact Or.inr ⟨c, hm, Or.inr (Or.inl ⟨f, hq, ht⟩)⟩
        · exact Or.inl (of_call hpq ht)
      | _ =>
        simp only [hq] at ht
        cases ht
    | _ =>
      simp only [step, hm] at ht
      cases ht
  | next c ok =>
    cases hm : s.mode c with
    | thread q =>
      simp only [step, hm] at ht
      by_cases hpq : p = q
      · subst hpq
        exact Or.inr ⟨c, hm, Or.inr (Or.inr ⟨ok, ht⟩)⟩
      · exact Or.inl (of_next h hm hpq ht)
    | _ =>
      simp only [step, hm] at ht
      cases ht

end Step

end Seen

def Suspends (s : St C n L Ch) : Prop :=
  ∀ p, (s.pc p).suspended = true → s.state p = .sleeping ∨ s.state p = .runnable ∨ s.state p = .running

inductive Unwoken (s : St C n L Ch) (ch : Ch) (p : Fin n) : Prop
  | released (lk : L) (hp : s.pc p = .sleepChan ch lk)
  | marked (lk : L) (hp : s.pc p = .sleepState ch lk) (hc : s.chan p = some ch)
  | asleep (lk : L) (hp : s.pc p = .swtchSave (.sleep ch lk) ∨ s.pc p = .swtchLoad (.sleep ch lk) ∨ s.pc p = .parked (.sleep ch lk))
      (hst : s.state p = .sleeping) (hc : s.chan p = some ch)

def Sweeps (s : St C n L Ch) (ch : Ch) (p q : Fin n) : Prop :=
  (s.view q).wakes = some ch ∧ p ∈ (s.view q).pending

theorem Pc.not_suspended {d : Pc n L Ch} (hheld : d.held p = none) (hpark : d.isParked = false) :
    d.suspended = false := by
  cases d with
  | parked k => cases hpark
  | _ => first | rfl | cases hheld

theorem Unwoken.state_cases (h : Inv s.toCore) (hw : Unwoken s ch p) :
    s.state p = .running ∨ s.state p = .sleeping ∧ s.chan p = some ch := by
  cases hw with
  | released lk hp | marked lk hp _ => exact Or.inl ((h.run p (by rw [hp]; rfl)).mpr (by rw [hp]; rfl))
  | asleep lk _ hst hc => exact Or.inr ⟨hst, hc⟩

theorem Unwoken.view (hw : Unwoken s ch p) : (s.view p).wakes = none := by
  cases hw with
  | released lk hp | marked lk hp _ => simp [Core.view, hp, Pc.inYield, Pc.wakes]
  | asleep lk hp _ _ => rcases hp with hp | hp | hp <;> simp [Core.view, hp, Pc.inYield, Pc.wakes]

theorem Unwoken.asleep_of_held (h : Inv s.toCore) (hw : Unwoken s ch p) (hm : s.mode c = .thread q) (hpq : p ≠ q)
    (hheld : (s.pc q).held q = some p) : s.state p = .sleeping ∧ s.chan p = some ch := by
  rcases hw.state_cases h with hst | hst
  · exfalso
    have hp : (s.pc p).held p = some p ∧ (s.pc p).isParked = false := by
      cases hw with
      | released lk hp | marked lk hp _ => rw [hp]; exact ⟨rfl, rfl⟩
      | asleep lk _ hst' _ =>
        rw [hst] at hst'
        cases hst'
    obtain ⟨c', hc'⟩ := h.off p hp.2
    have hl := (h.held_self hm p).mpr hheld
    rw [(h.held_self hc' p).mpr hp.1] at hl
    cases hl
    rw [hm] at hc'
    exact hpq (Mode.thread.inj hc').symm
  · exact hst

theorem view_of_same (hpc : t.pc q = s.pc q) (hback : t.back q = s.back q) : t.view q = s.view q := by
  simp only [Core.view, hpc, hback]

theorem view_of_yield (hy : (s.pc q).inYield = true) (hy' : (t.pc q).inYield = true) (hback : t.back q = s.back q) :
    t.view q = s.view q := by
  simp only [Core.view, hy, hy', hback, ↓reduceIte]

theorem Sweeps.of_view (hw : Sweeps s ch p q) (hv : t.view q = s.view q) : Sweeps t ch p q := by
  rw [Sweeps, hv]
  exact hw

theorem Sweeps.parked {k : Kont L Ch} (hw : Sweeps s ch p q) (hq : s.pc q = .parked k) : k = .yield := by
  cases k with
  | yield => rfl
  | _ =>
    have hwakes := hw.1
    simp only [Core.view, hq, Pc.inYield, Pc.wakes, Bool.false_eq_true, ↓reduceIte] at hwakes
    cases hwakes

theorem Sweeps.not_unused (h : Inv s.toCore) (hs : Suspends s) (hw : Sweeps s ch p q) : s.state q ≠ .unused := by
  cases hpark : (s.pc q).isParked with
  | false =>
    cases hleft : (s.pc q).left with
    | false =>
      rw [(h.run q hpark).mpr hleft]
      exact nofun
    | true => exact h.leaving q hleft
  | true =>
    obtain ⟨k, hk⟩ : ∃ k, s.pc q = .parked k := by
      cases hq : s.pc q with
      | parked k => exact ⟨k, rfl⟩
      | _ =>
        rw [hq] at hpark
        cases hpark
    cases hw.parked hk
    rcases hs q (by rw [hk]; rfl) with he | he | he <;> rw [he] <;> exact nofun

structure Quiet (s : St C n L Ch) : Prop where
  inv : Inv s.toCore
  suspends : Suspends s

theorem Quiet.of_userinit (init : Fin n) : Quiet (userinit C L Ch init) :=
  ⟨Inv.of_userinit init, nofun⟩

section Step

variable [DecidableEq C] [DecidableEq L] [DecidableEq Ch]

theorem Suspends.of_next {ok : Bool} (h : Inv s.toCore) (hs : Suspends s) (ht : s.next c p ok = some t)
    (hp' : (t.pc p).suspended = true) : t.state p = .sleeping ∨ t.state p = .runnable ∨ t.state p = .running := by
  cases hp : s.pc p with
  | yieldState =>
    simp only [St.next, hp] at ht
    cases ht
    exact Or.inr (Or.inl (update_self _ _ _))
  | sleepState chan lk =>
    simp only [St.next, hp] at ht
    cases ht
    exact Or.inl (update_self _ _ _)
  | swtchSave k | swtchLoad k =>
    simp only [St.next, hp] at ht
    cases ht
    apply hs p
    simp only [St.goto, update_self] at hp'
    rw [hp]
    cases k <;> first | rfl | cases hp'
  | resumed k =>
    cases k with
    | yield =>
      simp only [St.next, hp] at ht
      cases ht
      obtain ⟨hheld, hpark⟩ := h.kept p (by rw [hp]; rfl)
      simp only [St.release, update_self, Pc.not_suspended hheld hpark] at hp'
      cases hp'
    | fork | sleep chan lk =>
      simp only [St.next, hp] at ht
      cases ht
      simp only [St.goto, St.release, update_self] at hp'
      cases hp'
    | exit =>
      simp only [St.next, hp] at ht
      cases ht
  | wakeup chan todo | kill pid todo | alloc todo =>
    cases todo <;> simp only [St.next, hp, St.acquire] at ht <;> (try split_ifs at ht) <;> cases ht <;>
      simp only [St.goto, update_self] at hp' <;> cases hp'
  | _ =>
    simp only [St.next, hp, St.acquire, St.killProc] at ht
    (try split_ifs at ht) <;> cases ht <;>
      simp only [St.goto, St.release, St.setState, St.freeproc, St.allocproc, update_self] at hp' <;> cases hp'

theorem Suspends.of_step {a : Action C n L Ch} (h : Inv s.toCore) (hs : Suspends s) (ht : step s a = some t) :
    Suspends t := by
  intro p hp'
  rcases Seen.of_step (p := p) h ht with hseen | ⟨c, hm, hy | hf | ⟨ok, hn⟩⟩
  · cases hseen with
    | same hpc _ hst _ =>
      rw [hst]
      exact hs p (by rw [← hpc]; exact hp')
    | chosen _ _ _ hst' => exact Or.inr (Or.inr hst')
    | woken _ _ _ hst' _ => exact Or.inr (Or.inl hst')
    | forked _ _ _ hst' => exact Or.inr (Or.inl hst')
    | freed hpc _ hst =>
      rw [hpc] at hp'
      rcases hs p hp' with h₁ | h₁ | h₁ <;> rw [h₁] at hst <;> rcases hst with h₂ | h₂ <;> cases h₂
    | alloc hpc _ =>
      rw [hpc] at hp'
      cases hp'
    | resumed c k _ _ hpc' _ =>
      rw [hpc'] at hp'
      cases hp'
  · rw [hy.2.2.1] at hp'
    cases hp'
  · obtain ⟨f, -, hf⟩ := hf
    cases f <;> simp only [St.call, St.acquire] at hf <;> (try split_ifs at hf) <;> cases hf <;>
      simp only [St.goto, update_self] at hp' <;> first | exact hs p hp' | cases hp'
  · exact hs.of_next h hn hp'

theorem Unwoken.of_step {a : Action C n L Ch} (h : Inv s.toCore) (hw : Unwoken s ch p) (ht : step s a = some t) :
    Unwoken t ch p ∨ Wakes s t ch p := by
  have hstate := hw.state_cases h
  rcases Seen.of_step (p := p) h ht with hseen | ⟨c, hm, hy | hf | ⟨ok, hn⟩⟩
  · cases hseen with
    | same hpc _ hst hchan =>
      left
      cases hw with
      | released lk hp => exact .released lk (hpc.trans hp)
      | marked lk hp hc => exact .marked lk (hpc.trans hp) (hchan.trans hc)
      | asleep lk hp hs hc => exact .asleep lk (by rw [hpc]; exact hp) (hst.trans hs) (hchan.trans hc)
    | chosen _ _ hst _ =>
      rw [hst] at hstate
      rcases hstate with he | ⟨he, -⟩ <;> cases he
    | woken _ _ hst _ hw =>
      rw [hst] at hstate
      rcases hstate with he | ⟨-, hc⟩
      · cases he
      · exact Or.inr (hw ch hc)
    | forked _ _ hst _ | alloc _ hst =>
      rw [hst] at hstate
      rcases hstate with he | ⟨he, -⟩ <;> cases he
    | freed _ _ hst => rcases hst with hst | hst <;> rw [hst] at hstate <;> rcases hstate with he | ⟨he, -⟩ <;> cases he
    | resumed c k hm hpc _ _ =>
      have hrun := (h.coming c p (Or.inr hm)).1
      cases hw with
      | released lk hp | marked lk hp _ =>
        rw [hp] at hpc
        cases hpc
      | asleep lk _ hst _ =>
        rw [hrun] at hst
        cases hst
  · -- a thread within `sleep` holds its own lock, so it is not preempted
    cases hw with
    | released lk hp | marked lk hp _ =>
      rw [hp] at hy
      cases hy.2.1
    | asleep lk hp _ _ =>
      have hpark := h.on c p hm
      rcases hp with hp | hp | hp
      · rw [hp] at hy
        cases hy.2.1
      · rw [hp] at hy
        cases hy.2.1
      · rw [hp] at hpark
        cases hpark
  · obtain ⟨f, hfree, -⟩ := hf
    cases hw with
    | released lk hp | marked lk hp _ =>
      rw [hp] at hfree
      cases hfree
    | asleep lk hp _ _ => rcases hp with hp | hp | hp <;> rw [hp] at hfree <;> cases hfree
  · left
    cases hw with
    | released lk hp =>
      simp only [St.next, hp] at hn
      cases hn
      exact .marked lk (update_self _ _ _) (update_self _ _ _)
    | marked lk hp hc =>
      simp only [St.next, hp] at hn
      cases hn
      exact .asleep lk (Or.inl (update_self _ _ _)) (update_self _ _ _) hc
    | asleep lk hp hst hc =>
      rcases hp with hp | hp | hp <;> simp only [St.next, hp] at hn <;> cases hn
      · exact .asleep lk (Or.inr (Or.inl (update_self _ _ _))) hst hc
      · exact .asleep lk (Or.inr (Or.inr (update_self _ _ _))) hst hc

theorem Sweeps.of_next {ok : Bool} (h : Inv s.toCore) (hu : Unwoken s ch p) (hw : Sweeps s ch p q)
    (hm : s.mode c = .thread q) (hn : s.next c q ok = some t) :
    Sweeps t ch p q ∨ Wakes s t ch p := by
  have hpq : p ≠ q := by
    rintro rfl
    have hwakes := hw.1
    rw [hu.view] at hwakes
    cases hwakes
  obtain ⟨hwakes, hpend⟩ := hw
  cases hq : s.pc q with
  | yieldState =>
    simp only [St.next, hq] at hn
    cases hn
    refine Or.inl (Sweeps.of_view ⟨hwakes, hpend⟩ (view_of_yield (by rw [hq]; rfl) ?_ rfl))
    simp only [St.setState, update_self]
    rfl
  | swtchSave k | swtchLoad k =>
    cases k with
    | yield =>
      simp only [St.next, hq] at hn
      cases hn
      refine Or.inl (Sweeps.of_view ⟨hwakes, hpend⟩ (view_of_yield (by rw [hq]; rfl) ?_ rfl))
      simp only [St.goto, update_self]
      rfl
    | _ =>
      simp only [Core.view, hq, Pc.inYield, Pc.wakes, Bool.false_eq_true, ↓reduceIte] at hwakes
      cases hwakes
  | resumed k =>
    cases k with
    | yield =>
      obtain ⟨hheld, hpark⟩ := h.kept q (by rw [hq]; rfl)
      have hy := (Pc.not_inYield hheld hpark).1
      simp only [Core.view, hq, Pc.inYield, ↓reduceIte] at hwakes hpend
      simp only [St.next, hq] at hn
      cases hn
      left
      simp only [Sweeps, Core.view, St.release, update_self, hy, Bool.false_eq_true, ↓reduceIte]
      exact ⟨hwakes, hpend⟩
    | _ =>
      simp only [Core.view, hq, Pc.inYield, Pc.wakes, Bool.false_eq_true, ↓reduceIte] at hwakes
      cases hwakes
  | wakeup chan todo =>
    simp only [Core.view, hq, Pc.inYield, Bool.false_eq_true, ↓reduceIte] at hwakes hpend
    left
    cases todo with
    | nil => cases hpend
    | cons r todo =>
      simp only [St.next, hq, St.acquire] at hn
      split_ifs at hn with hr
      · cases hn
        simp only [Sweeps, Core.view, St.goto, update_self, Pc.inYield, Bool.false_eq_true, ↓reduceIte]
        rcases List.mem_cons.mp hpend with he | he
        · exact absurd (he.trans hr) hpq
        · exact ⟨hwakes, he⟩
      · cases hn
        simp only [Sweeps, Core.view, update_self, Pc.inYield, Bool.false_eq_true, ↓reduceIte]
        exact ⟨hwakes, hpend⟩
  | wakeTest chan r todo =>
    simp only [Core.view, hq, Pc.inYield, Bool.false_eq_true, ↓reduceIte] at hwakes hpend
    have hlater : p ∈ todo → t.pc q = .wakeRelease chan r todo → Sweeps t ch p q := by
      intro hmem hpc
      simp only [Sweeps, Core.view, hpc, Pc.inYield, Bool.false_eq_true, ↓reduceIte]
      exact ⟨hwakes, hmem⟩
    cases Option.some_inj.mp hwakes
    simp only [St.next, hq] at hn
    rcases List.mem_cons.mp hpend with he | he
    · -- the thread holds the sleeper's lock
      subst he
      have hasleep := hu.asleep_of_held h hm hpq (by rw [hq]; rfl)
      rw [if_pos hasleep] at hn
      cases hn
      exact Or.inr ⟨hasleep.1, hasleep.2, update_self _ _ _, q, c, hm, Or.inl ⟨todo, hq⟩⟩
    · left
      split_ifs at hn <;> cases hn <;> exact hlater he (update_self _ _ _)
  | wakeRelease chan r todo =>
    simp only [Core.view, hq, Pc.inYield, Bool.false_eq_true, ↓reduceIte] at hwakes hpend
    simp only [St.next, hq] at hn
    cases hn
    left
    simp only [Sweeps, Core.view, St.release, update_self, Pc.inYield, Bool.false_eq_true, ↓reduceIte]
    exact ⟨hwakes, hpend⟩
  | parked k =>
    simp only [St.next, hq] at hn
    cases hn
  | _ =>
    simp only [Core.view, hq, Pc.inYield, Pc.wakes, Bool.false_eq_true, ↓reduceIte] at hwakes
    cases hwakes

theorem Sweeps.of_step {a : Action C n L Ch} (h : Inv s.toCore) (hs : Suspends s) (hu : Unwoken s ch p)
    (hw : Sweeps s ch p q) (ht : step s a = some t) : Sweeps t ch p q ∨ Wakes s t ch p := by
  rcases Seen.of_step (p := q) h ht with hseen | ⟨c, hm, hy | ⟨f, hfree, -⟩ | ⟨ok, hn⟩⟩
  · left
    cases hseen with
    | same hpc hback _ _ | chosen hpc hback _ _ | woken hpc hback _ _ _ | forked hpc hback _ _ | freed hpc hback _ =>
      exact hw.of_view (view_of_same hpc hback)
    | alloc _ hst => exact absurd hst (hw.not_unused h hs)
    | resumed c k _ hpc hpc' hback =>
      cases hw.parked hpc
      exact hw.of_view (view_of_yield (by rw [hpc]; rfl) (by rw [hpc']; rfl) hback)
  · obtain ⟨-, hheld, hpc, hback⟩ := hy
    left
    have hin := (Pc.not_inYield hheld (h.on c q hm)).1
    simp only [Sweeps, Core.view, hin, Bool.false_eq_true, ↓reduceIte] at hw
    simp only [Sweeps, Core.view, hpc, hback, Pc.inYield, ↓reduceIte]
    exact hw
  · have hwakes := hw.1
    simp only [Core.view, hfree, Pc.inYield, Pc.wakes, Bool.false_eq_true, ↓reduceIte] at hwakes
    cases hwakes
  · exact hw.of_next h hu hm hn

def MadeRunnable (s t : St C n L Ch) (ch : Ch) (p : Fin n) : Prop :=
  ∃ u v a, Run step (fun _ _ => True) s u ∧ step u a = some v ∧ Wakes u v ch p ∧ Run step (fun _ _ => True) v t

theorem MadeRunnable.tail {u : St C n L Ch} {a : Action C n L Ch} (h : MadeRunnable s t ch p)
    (ht : step t a = some u) : MadeRunnable s u ch p := by
  obtain ⟨v, w, b, hrun, hstep, hw, hrun'⟩ := h
  exact ⟨v, w, b, hrun, hstep, hw, hrun'.tail trivial ht⟩

theorem Quiet.of_step {a : Action C n L Ch} (h : Quiet s) (ht : step s a = some t) : Quiet t :=
  ⟨h.inv.of_step ht, h.suspends.of_step h.inv ht⟩

theorem Quiet.of_run (h : Quiet s) (hr : Run step (fun _ _ => True) s t) : Quiet t :=
  hr.invariant h (fun _ _ _ hs _ ht => hs.of_step ht)

theorem Unwoken.of_run (h : Quiet s) (hw : Unwoken s ch p) (hr : Run step (fun _ _ => True) s t) :
    Unwoken t ch p ∨ MadeRunnable s t ch p := by
  induction hr with
  | refl => exact Or.inl hw
  | tail hr _ ht ih =>
    rcases ih with hu | hu
    · rcases hu.of_step (h.of_run hr).inv ht with hu' | hu'
      · exact Or.inl hu'
      · exact Or.inr ⟨_, _, _, hr, ht, hu', .refl⟩
    · exact Or.inr (hu.tail ht)

theorem Sweeps.of_run {s₁ : St C n L Ch} (h : Quiet s) (hr : Run step (fun _ _ => True) s s₁) (hu : Unwoken s₁ ch p)
    (hw : Sweeps s₁ ch p q) (hr' : Run step (fun _ _ => True) s₁ t) :
    Unwoken t ch p ∧ Sweeps t ch p q ∨ MadeRunnable s t ch p := by
  induction hr' with
  | refl => exact Or.inl ⟨hu, hw⟩
  | tail hr' _ ht ih =>
    rcases ih with ⟨hu', hw'⟩ | hmade
    · have hq := h.of_run (hr.trans hr')
      rcases hw'.of_step hq.inv hq.suspends hu' ht with hw'' | hwk
      · rcases hu'.of_step hq.inv ht with hu'' | hwk
        · exact Or.inl ⟨hu'', hw''⟩
        · exact Or.inr ⟨_, _, _, hr.trans hr', ht, hwk, .refl⟩
      · exact Or.inr ⟨_, _, _, hr.trans hr', ht, hwk, .refl⟩
    · exact Or.inr (hmade.tail ht)

/-- A `wakeup` after the release of the condition lock in `sleep` is not lost, and the sleeper goes on only after one or a `kill`. -/
theorem wakeups_are_not_lost (init : Fin n) {lk : L} (h : Run step (fun _ _ => True) (userinit C L Ch init) s)
    (hp : s.pc p = .sleepChan ch lk) :
    (∀ c q u v t, Run step (fun _ _ => True) s u → u.mode c = .thread q → step u (.call c (.wakeup ch)) = some v →
        Run step (fun _ _ => True) v t → p ∉ (t.view q).pending → MadeRunnable s t ch p) ∧
      ∀ t, Run step (fun _ _ => True) s t → (t.pc p).asleepOn = none → MadeRunnable s t ch p := by
  have hq := (Quiet.of_userinit init).of_run h
  have hu : Unwoken s ch p := .released lk hp
  constructor
  · intro c q u v t hr hm hcall hr' hdone
    rcases hu.of_run hq hr with hu' | hmade
    · have hqu := hq.of_run hr
      have hfree : u.pc q = .free := by
        cases hf : u.pc q with
        | free => rfl
        | _ =>
          simp only [step, hm, hf] at hcall
          cases hcall
      have hv : v = u.goto q (.wakeup ch (List.finRange n)) := by
        simp only [step, hm, hfree, St.call] at hcall
        cases hcall
        rfl
      have hw : Sweeps v ch p q := by
        simp only [hv, Sweeps, Core.view, St.goto, update_self, Pc.inYield, Bool.false_eq_true, ↓reduceIte]
        exact ⟨rfl, List.mem_finRange p⟩
      have hr₁ := hr.tail trivial hcall
      rcases hu'.of_step hqu.inv hcall with hv' | hv'
      · rcases hw.of_run hq hr₁ hv' hr' with ⟨-, hw'⟩ | hmade
        · exact absurd hw'.2 hdone
        · exact hmade
      · exact ⟨u, v, _, hr, hcall, hv', hr'⟩
    · obtain ⟨x, y, a, hx, hstep, hwk, hy⟩ := hmade
      exact ⟨x, y, a, hx, hstep, hwk, (hy.tail trivial hcall).trans hr'⟩
  · intro t hr hout
    rcases hu.of_run hq hr with hu' | hmade
    · cases hu' with
      | released lk hp | marked lk hp _ =>
        rw [hp] at hout
        cases hout
      | asleep lk hp _ _ => rcases hp with hp | hp | hp <;> rw [hp] at hout <;> cases hout
    · exact hmade

end Step

def intoSleep : List (Action Bool 2 Unit Unit) :=
  forkAndRun ++ [.call false (.acquire ()), .call false (.sleep () ()), .next false true]

def switchAway : List (Action Bool 2 Unit Unit) :=
  [.next false true, .next false true, .next false true, .next false true, .scheduler false, .scheduler false]

theorem sleeper_is_woken :
    ∃ s u v t, execute step (fun _ _ => True) (userinit Bool Unit Unit 0) intoSleep = some s ∧
      execute step (fun _ _ => True) s switchAway = some u ∧ step u (.call true (.wakeup ())) = some v ∧
      execute step (fun _ _ => True) v (List.replicate 5 (.next true true)) = some t ∧ MadeRunnable s t () 1 := by
  obtain ⟨s, hs⟩ : ∃ s, execute step (fun _ _ => True) (userinit Bool Unit Unit 0) intoSleep = some s := ⟨_, rfl⟩
  obtain ⟨u, hu⟩ : ∃ u, execute step (fun _ _ => True) s switchAway = some u := by
    cases hs
    exact ⟨_, rfl⟩
  obtain ⟨v, hv⟩ : ∃ v, step u (.call true (.wakeup ())) = some v := by
    cases hs
    cases hu
    exact ⟨_, rfl⟩
  obtain ⟨t, ht⟩ : ∃ t, execute step (fun _ _ => True) v (List.replicate 5 (.next true true)) = some t := by
    cases hs
    cases hu
    cases hv
    exact ⟨_, rfl⟩
  have hp : s.pc 1 = .sleepChan () () := by
    cases hs
    rfl
  have hm : u.mode true = .thread 0 := by
    cases hs
    cases hu
    rfl
  have hdone : 1 ∉ (t.view 0).pending := by
    cases hs
    cases hu
    cases hv
    cases ht
    exact List.not_mem_nil
  refine ⟨s, u, v, t, hs, hu, hv, ht, ?_⟩
  exact (wakeups_are_not_lost 0 (run_of_execute hs) hp).1 true 0 u v t (run_of_execute hu) hm hv (run_of_execute ht) hdone

end Xv6.Sched
