import Xv6.Procs.Wait

namespace Xv6.Procs

open Kernel (ProcState)
open Lib.Transition
open Function (update update_of_ne update_self)

variable {n : ℕ} {Ch : Type} {s t : St n Ch} {p q r init : Fin n}

inductive Kept (s t : St n Ch) (q : Fin n) : Prop
  | same (hst : t.state q = s.state q) (hpid : t.pid q = s.pid q) (hx : t.xstate q = s.xstate q) (hlife : t.life q = s.life q)
  | alloc (hst : s.state q = .unused) (hlife : t.life q = s.life q + 1)
  | moved (hst : s.state q ≠ .unused) (hz : s.state q ≠ .zombie) (hlife : t.life q = s.life q)

def Fate (s t : St n Ch) (a : Action n Ch) : Prop :=
  (t.reaped = s.reaped ∧ ∀ q, Kept s t q) ∨
    ∃ p q, a = .next p true ∧ s.parent q = some p ∧ s.state q = .zombie ∧ t = s.reap p q

variable {a : Action n Ch}

theorem Fate.same (hst : t.state = s.state) (hpid : t.pid = s.pid) (hx : t.xstate = s.xstate) (hlife : t.life = s.life)
    (hr : t.reaped = s.reaped) : Fate s t a := by
  refine Or.inl ⟨hr, fun q => ?_⟩
  exact .same (congrFun hst q) (congrFun hpid q) (congrFun hx q) (congrFun hlife q)

theorem Fate.move (hst : s.state p ≠ .unused) (hz : s.state p ≠ .zombie) (hst' : ∀ q, q ≠ p → t.state q = s.state q)
    (hx : ∀ q, q ≠ p → t.xstate q = s.xstate q) (hpid : t.pid = s.pid) (hlife : t.life = s.life)
    (hr : t.reaped = s.reaped) : Fate s t a := by
  refine Or.inl ⟨hr, fun q => ?_⟩
  by_cases hq : q = p
  · subst hq
    exact .moved hst hz (congrFun hlife q)
  · exact .same (hst' q hq) (congrFun hpid q) (hx q hq) (congrFun hlife q)

theorem Fate.alloc (hst : s.state p = .unused) (hlife : t.life p = s.life p + 1) (hst' : ∀ q, q ≠ p → t.state q = s.state q)
    (hx : ∀ q, q ≠ p → t.xstate q = s.xstate q) (hpid : ∀ q, q ≠ p → t.pid q = s.pid q)
    (hlife' : ∀ q, q ≠ p → t.life q = s.life q) (hr : t.reaped = s.reaped) : Fate s t a := by
  refine Or.inl ⟨hr, fun q => ?_⟩
  by_cases hq : q = p
  · subst hq
    exact .alloc hst hlife
  · exact .same (hst' q hq) (hpid q hq) (hx q hq) (hlife' q hq)

theorem Fate.acquire {d : Pc n} (ht : s.acquire p d = some t) : Fate s t a := by
  rw [St.acquire] at ht
  split_ifs at ht
  cases ht
  exact .same rfl rfl rfl rfl rfl

theorem Fate.wakeup [DecidableEq Ch] {c : Option (Chan n Ch)} {pc : Fin n → Pc n} :
    Fate s { s.wakeup q c with pc := pc } a := by
  rw [St.wakeup]
  split_ifs with hq
  · apply Fate.move (p := q)
    · rw [hq.1]
      simp
    · rw [hq.1]
      simp
    · exact fun r hr => update_of_ne hr _ _
    · exact fun _ _ => rfl
    · rfl
    · rfl
    · rfl
  · exact .same rfl rfl rfl rfl rfl

theorem Fate.of_running (hrun : s.state p = .running) (hst' : ∀ q, q ≠ p → t.state q = s.state q)
    (hx : ∀ q, q ≠ p → t.xstate q = s.xstate q) (hpid : t.pid = s.pid) (hlife : t.life = s.life)
    (hr : t.reaped = s.reaped) : Fate s t a :=
  .move (by rw [hrun]; simp) (by rw [hrun]; simp) hst' hx hpid hlife hr

theorem Fate.of_next [DecidableEq Ch] {ok : Bool} (h : Inv init s) (hrun : s.state p = .running)
    (ht : s.next p init ok = some t) : Fate s t (.next p ok) := by
  cases hp : s.pc p with
  | dead | free =>
    simp only [St.next, hp] at ht
    cases ht
  | asleep | waitSleep | waitDone | forkSet q =>
    simp only [St.next, hp] at ht
    cases ht
    exact .same rfl rfl rfl rfl rfl
  | forkParent q | waitAgain =>
    simp only [St.next, hp] at ht
    exact .acquire ht
  | alloc todo =>
    cases todo with
    | nil =>
      simp only [St.next, hp] at ht
      cases ht
      exact .same rfl rfl rfl rfl rfl
    | cons q todo =>
      simp only [St.next, hp] at ht
      split_ifs at ht with hq
      · cases ht
        exact .alloc hq (update_self _ _ _) (fun r hr => update_of_ne hr _ _) (fun _ _ => rfl)
          (fun r hr => update_of_ne hr _ _) (fun r hr => update_of_ne hr _ _) rfl
      · cases ht
        have htwice {α : Type} {f : Fin n → α} {x y : α} (r : Fin n) (hr : r ≠ q) :
            update (update f q x) q y r = f r :=
          (update_of_ne hr _ _).trans (update_of_ne hr _ _)
        exact .alloc hq (update_self _ _ _) (fun r hr => htwice r hr) (fun r hr => update_of_ne hr _ _)
          (fun r hr => htwice r hr) (fun r hr => update_of_ne hr _ _) rfl
      · cases ht
        exact .same rfl rfl rfl rfl rfl
  | forkState q =>
    have hq := h.making p q (by rw [hp]; rfl)
    simp only [St.next, hp] at ht
    cases ht
    exact .move (p := q) (by rw [hq]; simp) (by rw [hq]; simp) (fun r hr => update_of_ne hr _ _)
      (fun _ _ => rfl) rfl rfl rfl
  | reparent status todo =>
    cases todo with
    | nil =>
      simp only [St.next, hp] at ht
      cases ht
      exact .same rfl rfl rfl rfl rfl
    | cons q todo =>
      simp only [St.next, hp] at ht
      split_ifs at ht
      · cases ht
        exact .same rfl rfl rfl rfl rfl
      · cases ht
        exact .same rfl rfl rfl rfl rfl
  | wakeup status chan todo rest =>
    cases todo with
    | nil =>
      cases rest <;> simp only [St.next, hp] at ht <;> cases ht <;> exact .same rfl rfl rfl rfl rfl
    | cons q todo =>
      simp only [St.next, hp] at ht
      split_ifs at ht
      · cases ht
        exact .same rfl rfl rfl rfl rfl
      · cases ht
        exact Fate.wakeup
  | exitState status =>
    simp only [St.next, hp] at ht
    cases ht
    exact .of_running hrun (fun q hq => update_of_ne hq _ _) (fun q hq => update_of_ne hq _ _) rfl rfl rfl
  | waitScan havekids todo =>
    cases todo with
    | nil =>
      simp only [St.next, hp] at ht
      split_ifs at ht
      · cases ht
        exact .same rfl rfl rfl rfl rfl
      · cases ht
        exact .of_running hrun (fun q hq => update_of_ne hq _ _) (fun _ _ => rfl) rfl rfl rfl
    | cons q todo =>
      simp only [St.next, hp] at ht
      split_ifs at ht with hq hz hok
      · cases ht
        subst hok
        exact Or.inr ⟨p, q, rfl, hq, hz, rfl⟩
      · cases ht
        exact .same rfl rfl rfl rfl rfl
      · cases ht
        exact .same rfl rfl rfl rfl rfl
      · cases ht
        exact .same rfl rfl rfl rfl rfl
  | kill pid todo =>
    cases todo with
    | nil =>
      simp only [St.next, hp] at ht
      cases ht
      exact .same rfl rfl rfl rfl rfl
    | cons q todo =>
      simp only [St.next, hp] at ht
      split_ifs at ht
      · cases ht
        by_cases hq : s.state q = .sleeping
        · apply Fate.move (p := q)
          · rw [hq]
            simp
          · rw [hq]
            simp
          · intro r hr
            simp only [St.killProc, St.goto, if_pos hq, update_of_ne hr]
          · exact fun _ _ => rfl
          · rfl
          · rfl
          · rfl
        · apply Fate.same
          · simp only [St.killProc, St.goto, if_neg hq]
          · rfl
          · rfl
          · rfl
          · rfl
      · cases ht
        exact .same rfl rfl rfl rfl rfl

theorem Fate.of_step [DecidableEq Ch] (h : Inv init s) (ht : step init s a = some t) : Fate s t a := by
  cases a with
  | run p =>
    simp only [step] at ht
    split_ifs at ht with hst
    cases ht
    exact .move (p := p) (by rw [hst]; simp) (by rw [hst]; simp) (fun q hq => update_of_ne hq _ _)
      (fun _ _ => rfl) rfl rfl rfl
  | yield p =>
    simp only [step] at ht
    split_ifs at ht with hst
    cases ht
    exact .of_running hst (fun q hq => update_of_ne hq _ _) (fun _ _ => rfl) rfl rfl rfl
  | sleep p ch =>
    cases hp : s.pc p with
    | free =>
      simp only [step, hp] at ht
      split_ifs at ht with hst
      cases ht
      exact .of_running hst (fun q hq => update_of_ne hq _ _) (fun _ _ => rfl) rfl rfl rfl
    | _ =>
      simp only [step, hp] at ht
      cases ht
  | wake q ch =>
    cases ht
    exact Fate.wakeup
  | call p f =>
    cases hp : s.pc p with
    | free =>
      simp only [step, hp] at ht
      split_ifs at ht with hst
      cases f with
      | fork | kill pid =>
        cases ht
        exact .same rfl rfl rfl rfl rfl
      | wait => exact .acquire ht
      | exit status =>
        simp only [St.call] at ht
        split_ifs at ht
        exact .acquire ht
    | _ =>
      simp only [step, hp] at ht
      cases ht
  | next p ok =>
    simp only [step] at ht
    split_ifs at ht with hst
    exact .of_next h hst ht

structure History (s : St n Ch) : Prop where
  past : ∀ e ∈ s.reaped, e.life ≤ s.life e.slot
  gone : ∀ e ∈ s.reaped, e.life = s.life e.slot → s.state e.slot = .unused
  once : (s.reaped.map (fun e => (e.slot, e.life))).Nodup

theorem History.of_fate (h : History s) (hf : Fate s t a) : History t := by
  rcases hf with ⟨hr, hkept⟩ | ⟨p, q, -, -, hz, rfl⟩
  · constructor
    · intro e he
      rw [hr] at he
      have := h.past e he
      cases hkept e.slot with
      | same _ _ _ hlife => omega
      | alloc _ hlife => omega
      | moved _ _ hlife => omega
    · intro e he hl
      rw [hr] at he
      have hpast := h.past e he
      cases hkept e.slot with
      | same hst _ _ hlife =>
        rw [hst]
        exact h.gone e he (by omega)
      | alloc _ hlife => omega
      | moved hst _ hlife => exact absurd (h.gone e he (by omega)) hst
    · rw [hr]
      exact h.once
  · constructor
    · intro e he
      rcases List.mem_cons.mp he with rfl | he
      · exact Nat.le_refl _
      · exact h.past e he
    · intro e he hl
      rcases List.mem_cons.mp he with rfl | he
      · exact update_self _ _ _
      · have hgone := h.gone e he hl
        by_cases hq : e.slot = q
        · rw [hq, hz] at hgone
          cases hgone
        · exact (update_of_ne hq _ _).trans hgone
    · -- the zombie has not been returned before, or its entry would be free
      simp only [St.reap, List.map_cons, List.nodup_cons]
      refine ⟨?_, h.once⟩
      intro hmem
      obtain ⟨e, he, heq⟩ := List.mem_map.mp hmem
      obtain ⟨hslot, hlife⟩ := Prod.mk.inj heq
      have hgone := h.gone e he (by rw [hslot, hlife])
      rw [hslot, hz] at hgone
      cases hgone

/-- The exit/wait protocol, in every interleaving of `fork`, `exit`, `wait` and `kill`: no process is returned twice, and none is
lost or slept through. -/
theorem exit_wait_protocol [DecidableEq Ch] (init : Fin n) (h : Run (step init) (fun _ _ => True) (userinit Ch init) s) :
    (s.reaped.map (fun e => (e.slot, e.life))).Nodup ∧
      (∀ a t, step init s a = some t →
        (t.reaped = s.reaped ∧ ∀ q, s.state q = .zombie →
          t.state q = .zombie ∧ t.pid q = s.pid q ∧ t.xstate q = s.xstate q ∧ t.life q = s.life q) ∨
        ∃ p q, a = .next p true ∧ s.parent q = some p ∧ s.state q = .zombie ∧ t = s.reap p q) ∧
      (∀ p status ok t, s.pc p = .exitState status → step init s (.next p ok) = some t →
        t.state p = .zombie ∧ t.pid p = s.pid p ∧ t.xstate p = status) ∧
      (s.waitLock = none →
        (∀ q, s.state q ≠ .unused → q ≠ init → (∀ p, (s.pc p).creates ≠ some q) →
          ∃ r, s.parent q = some r ∧ s.state r ≠ .unused ∧ s.state r ≠ .zombie) ∧
        ∀ p q, s.pc p = .waitSleep → s.state p = .sleeping → s.parent q = some p → s.state q ≠ .zombie) := by
  have hinv : Inv init s ∧ History s := by
    apply h.invariant (I := fun s => Inv init s ∧ History s) ⟨Inv.of_userinit init, ⟨nofun, nofun, List.nodup_nil⟩⟩
    rintro s a t ⟨hi, hh⟩ - ht
    exact ⟨hi.of_step ht, hh.of_fate (Fate.of_step hi ht)⟩
  obtain ⟨hi, hh⟩ := hinv
  refine ⟨hh.once, ?_, ?_, ?_⟩
  · intro a t ht
    rcases Fate.of_step hi ht with ⟨hr, hkept⟩ | hreap
    · refine Or.inl ⟨hr, fun q hq => ?_⟩
      cases hkept q with
      | same hst hpid hx hlife => exact ⟨hst.trans hq, hpid, hx, hlife⟩
      | alloc hst _ =>
        rw [hq] at hst
        cases hst
      | moved _ hz _ => exact absurd hq hz
    · exact Or.inr hreap
  · intro p status ok t hp ht
    simp only [step] at ht
    split_ifs at ht
    simp only [St.next, hp] at ht
    cases ht
    exact ⟨update_self _ _ _, rfl, update_self _ _ _⟩
  · intro hl
    constructor
    · intro q hq hqi hmade
      have hused : s.state q ≠ .used := by
        intro hu
        obtain ⟨p, hp⟩ := hi.made q hu
        exact hmade p hp
      obtain ⟨r, hr⟩ := Option.ne_none_iff_exists'.mp (hi.orphan q hq hused hqi)
      have hdead : s.pc r ≠ .dead := by
        intro hd
        have hch := (hi.child q r hr).1
        rw [hd] at hch
        exact hch
      refine ⟨r, hr, ?_, ?_⟩
      · exact fun hst => hdead ((hi.dead r).mpr (Or.inl hst))
      · exact fun hst => hdead ((hi.dead r).mpr (Or.inr (Or.inr hst)))
    · intro p q hp hst hq hz
      obtain ⟨r, hr⟩ := hi.sleeper p q hq hz ⟨hp, hst⟩
      have hholds : (s.pc r).holds = true := by
        cases hpc : s.pc r <;> rw [hpc] at hr <;> first | rfl | cases hr
      rw [hi.lock r hholds] at hl
      cases hl

def forkExitWait : List (Action 2 Unit) :=
  [.run 0, .call 0 .fork] ++ List.replicate 5 (.next 0 true) ++ [.run 1, .call 1 (.exit 7)] ++
    List.replicate 7 (.next 1 true) ++ [.call 0 .wait, .next 0 true, .next 0 true]

theorem child_returned_once :
    ∃ s, execute (step 0) (fun _ _ => True) (userinit Unit 0) forkExitWait = some s ∧
      s.reaped = [⟨0, 1, 1, 2, 7⟩] ∧ (s.reaped.map (fun e => (e.slot, e.life))).Nodup := by
  obtain ⟨s, hs⟩ : ∃ s, execute (step 0) (fun _ _ => True) (userinit Unit (0 : Fin 2)) forkExitWait = some s := ⟨_, rfl⟩
  have hreaped : s.reaped = [⟨0, 1, 1, 2, 7⟩] := by
    cases hs
    rfl
  exact ⟨s, hs, hreaped, (exit_wait_protocol 0 (run_of_execute hs)).1⟩

end Xv6.Procs
