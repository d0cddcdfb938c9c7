import Xv6.Procs.Wait

namespace Xv6.Procs

open Kernel (ProcState)
open Lib.Transition
open Function (update update_of_ne update_self update_eq_self update_idem)

variable {n : ℕ} {Ch : Type}

/-! ### `kill` on a table that nobody else changes -/

namespace St

variable (s : St n Ch)

def killScan (pid : ℤ) : List (Fin n) → ℤ × St n Ch
  | [] => (-1, s)
  | q :: todo => if (s.pid q : ℤ) = pid then (0, s.killProc q) else killScan pid todo

def kill (pid : ℤ) : ℤ × St n Ch := s.killScan pid (List.finRange n)

variable {s} {pid : ℤ} {todo : List (Fin n)}

theorem killScan_miss (h : ∀ q ∈ todo, (s.pid q : ℤ) ≠ pid) : s.killScan pid todo = (-1, s) := by
  induction todo with
  | nil => rfl
  | cons q todo ih =>
    rw [killScan, if_neg (h q List.mem_cons_self)]
    exact ih (fun r hr => h r (List.mem_cons_of_mem _ hr))

theorem killScan_hit {q : Fin n} (hq : q ∈ todo) (hpid : (s.pid q : ℤ) = pid)
    (huniq : ∀ r, (s.pid r : ℤ) = pid → r = q) : s.killScan pid todo = (0, s.killProc q) := by
  induction todo with
  | nil => cases hq
  | cons r todo ih =>
    by_cases hr : (s.pid r : ℤ) = pid
    · rw [killScan, if_pos hr, huniq r hr]
    · rw [killScan, if_neg hr]
      apply ih
      rcases List.mem_cons.mp hq with rfl | hq'
      · exact absurd hpid hr
      · exact hq'

theorem killScan_goto {p : Fin n} {d : Pc n} :
    (s.goto p d).killScan pid todo = ((s.killScan pid todo).1, (s.killScan pid todo).2.goto p d) := by
  induction todo with
  | nil => rfl
  | cons q todo ih =>
    by_cases hq : (s.pid q : ℤ) = pid
    · rw [killScan, killScan, if_pos hq, if_pos (show ((s.goto p d).pid q : ℤ) = pid from hq)]
      rfl
    · rw [killScan, killScan, if_neg hq, if_neg (show ((s.goto p d).pid q : ℤ) ≠ pid from hq)]
      exact ih

theorem goto_goto {p : Fin n} {d d' : Pc n} : (s.goto p d).goto p d' = s.goto p d' := by
  simp only [goto, update_idem]

theorem run_killScan [DecidableEq Ch] {init p : Fin n} {pid : ℕ} (hrun : s.state p = .running)
    (hp : s.pc p = .kill pid todo) : Run (Procs.step init) (fun _ _ => True) s ((s.killScan pid todo).2.goto p .free) := by
  induction todo generalizing s with
  | nil =>
    have hnext : Procs.step init s (.next p true) = some (s.goto p .free) := by
      simp only [Procs.step, if_pos hrun, next, hp]
    exact Run.refl.tail trivial hnext
  | cons q todo ih =>
    by_cases hq : s.pid q = pid
    · have hnext : Procs.step init s (.next p true) = some ((s.killProc q).goto p .free) := by
        simp only [Procs.step, if_pos hrun, next, hp, if_pos hq]
      rw [killScan, if_pos (by rw [hq])]
      exact Run.refl.tail trivial hnext
    · have hnext : Procs.step init s (.next p true) = some (s.goto p (.kill pid todo)) := by
        simp only [Procs.step, if_pos hrun, next, hp, if_neg hq]
      have hrest := ih (s := s.goto p (.kill pid todo)) hrun (update_self _ _ _)
      rw [killScan_goto, goto_goto] at hrest
      rw [killScan, if_neg (fun he => hq (Int.natCast_inj.mp he))]
      exact (Run.refl.tail trivial hnext).trans hrest

theorem run_kill [DecidableEq Ch] {init p : Fin n} (pid : ℕ) (hrun : s.state p = .running) (hp : s.pc p = .free) :
    Run (Procs.step init) (fun _ _ => True) s (s.kill pid).2 := by
  have hcall : Procs.step init s (.call p (.kill pid)) = some (s.goto p (.kill pid (List.finRange n))) := by
    simp only [Procs.step, hp, if_pos hrun, call]
  have hscan := @run_killScan n Ch (s.goto p (.kill pid (List.finRange n))) (List.finRange n) _ init p pid hrun (update_self _ _ _)
  have hself : s.goto p .free = s := by
    rw [goto, ← hp, update_eq_self]
  rw [killScan_goto, goto_goto] at hscan
  have hfree : (s.kill pid).2.goto p .free = (s.kill pid).2 := by
    have h := congrArg Prod.snd (@killScan_goto n Ch s pid (List.finRange n) p .free)
    rw [hself] at h
    exact h.symm
  rw [kill] at hfree
  rw [hfree] at hscan
  exact (Run.refl.tail trivial hcall).trans hscan

end St

/-! ### Runs with the arguments of `kill` -/

structure Log (n : ℕ) (Ch : Type) where
  table : St n Ch
  kills : List ℕ

inductive Event (n : ℕ) (Ch : Type)
  | act (a : Action n Ch)
  | fault (p : Fin n)

def Action.asks : Action n Ch → List ℕ
  | .call _ (.kill pid) => [pid]
  | _ => []

def Log.step [DecidableEq Ch] (init : Fin n) (l : Log n Ch) : Event n Ch → Option (Log n Ch)
  | .act a => (Procs.step init l.table a).map (fun t => ⟨t, a.asks ++ l.kills⟩)
  | .fault p => match l.table.pc p with
    | .free => if l.table.state p = .running then
        some { l with table := { l.table with killed := update l.table.killed p true } } else none
    | _ => none

def Event.asks : Event n Ch → List ℕ
  | .act a => a.asks
  | .fault _ => []

def NonZero (_ : Log n Ch) (e : Event n Ch) : Prop := 0 ∉ e.asks

instance decidableNonZero (l : Log n Ch) (e : Event n Ch) : Decidable (NonZero l e) :=
  inferInstanceAs (Decidable (0 ∉ e.asks))

variable {s t : St n Ch} {p q r init : Fin n} {kills : List ℕ} {d : Pc n}

structure Marks (kills : List ℕ) (s : St n Ch) : Prop where
  nonzero : 0 ∉ kills
  asked : ∀ p pid todo, s.pc p = .kill pid todo → pid ∈ kills
  unused : ∀ q, s.state q = .unused → s.pid q = 0 ∧ s.killed q = false
  named : ∀ q, s.state q ≠ .unused → 0 < s.pid q ∧ s.pid q < s.nextpid
  next : 0 < s.nextpid
  apart : ∀ q r, s.state q ≠ .unused → s.state r ≠ .unused → s.pid q = s.pid r → q = r
  fresh : ∀ q, s.state q = .used → s.killed q = true → s.pid q ∈ kills

inductive Slot (kills : List ℕ) (s t : St n Ch) (q : Fin n) : Prop
  | same (hst : t.state q = s.state q) (hpid : t.pid q = s.pid q) (hk : t.killed q = s.killed q)
  | moved (hst : s.state q ≠ .unused) (hst' : t.state q ≠ .unused ∧ t.state q ≠ .used) (hpid : t.pid q = s.pid q)
  | marked (hst : s.state q ≠ .unused) (hst' : t.state q = s.state q) (hpid : t.pid q = s.pid q)
      (hk : s.state q = .used → s.pid q ∈ kills)
  | freed (hst : t.state q = .unused) (hpid : t.pid q = 0) (hk : t.killed q = false)
  | alloc (hst : s.state q = .unused) (hst' : t.state q = .used) (hpid : t.pid q = s.nextpid) (hk : t.killed q = s.killed q)
      (hn : t.nextpid = s.nextpid + 1) (hother : ∀ r, r ≠ q → t.state r = s.state r ∧ t.pid r = s.pid r)

namespace Marks

theorem pid_of_slot (hq : Slot kills s t q) (hst : t.state q ≠ .unused) :
    (s.state q ≠ .unused ∧ t.pid q = s.pid q) ∨ (t.pid q = s.nextpid ∧ t.nextpid = s.nextpid + 1 ∧
      ∀ r, r ≠ q → t.state r = s.state r ∧ t.pid r = s.pid r) := by
  cases hq with
  | same hst' hpid hk =>
    rw [hst'] at hst
    exact Or.inl ⟨hst, hpid⟩
  | moved hs _ hpid => exact Or.inl ⟨hs, hpid⟩
  | marked hs _ hpid _ => exact Or.inl ⟨hs, hpid⟩
  | freed hf _ _ => exact absurd hf hst
  | alloc _ _ hpid _ hn hother => exact Or.inr ⟨hpid, hn, hother⟩

theorem of_slots (h : Marks kills s) (hslot : ∀ q, Slot kills s t q) (hn : s.nextpid ≤ t.nextpid)
    (hasked : ∀ p pid todo, t.pc p = .kill pid todo → pid ∈ kills) : Marks kills t := by
  refine ⟨h.nonzero, hasked, ?_, ?_, h.next.trans_le hn, ?_, ?_⟩
  · intro q hst
    cases hslot q with
    | same hst' hpid hk =>
      rw [hpid, hk]
      exact h.unused q (hst'.symm.trans hst)
    | moved _ hst' _ => exact absurd hst hst'.1
    | marked hs hst' _ _ => exact absurd (hst'.symm.trans hst) hs
    | freed _ hpid hk => exact ⟨hpid, hk⟩
    | alloc _ hst' _ _ _ _ => cases hst'.symm.trans hst
  · intro q hst
    rcases pid_of_slot (hslot q) hst with ⟨hs, hpid⟩ | ⟨hpid, hnext, -⟩
    · rw [hpid]
      exact ⟨(h.named q hs).1, (h.named q hs).2.trans_le hn⟩
    · rw [hpid, hnext]
      exact ⟨h.next, Nat.lt_succ_self _⟩
  · intro q r hq hr heq
    by_contra hne
    rcases pid_of_slot (hslot q) hq with ⟨hsq, hpq⟩ | ⟨hpq, -, hother⟩
    · rcases pid_of_slot (hslot r) hr with ⟨hsr, hpr⟩ | ⟨hpr, -, -⟩
      · exact hne (h.apart q r hsq hsr (hpq.symm.trans (heq.trans hpr)))
      · have := (h.named q hsq).2
        omega
    · obtain ⟨hstr, hpr⟩ := hother r (Ne.symm hne)
      have := (h.named r (fun hu => hr (hstr.trans hu))).2
      omega
  · intro q hst hk
    cases hslot q with
    | same hst' hpid hk' =>
      rw [hpid]
      exact h.fresh q (hst'.symm.trans hst) (hk'.symm.trans hk)
    | moved _ hst' _ => exact absurd hst hst'.2
    | marked _ hst' hpid hk' =>
      rw [hpid]
      exact hk' (hst'.symm.trans hst)
    | freed hf _ _ => cases hf.symm.trans hst
    | alloc hs _ _ hk' _ _ => cases (h.unused q hs).2.symm.trans (hk'.symm.trans hk)

theorem asked_update (h : Marks kills s) (hd : ∀ pid todo, d = .kill pid todo → pid ∈ kills) :
    ∀ r pid todo, update s.pc p d r = .kill pid todo → pid ∈ kills := by
  intro r pid todo hr
  by_cases hrp : r = p
  · rw [hrp, update_self] at hr
    exact hd pid todo hr
  · rw [update_of_ne hrp] at hr
    exact h.asked r pid todo hr

theorem move (h : Marks kills s) (hpc : t.pc = update s.pc p d) (hst : t.state = s.state) (hpid : t.pid = s.pid)
    (hk : t.killed = s.killed) (hn : t.nextpid = s.nextpid) (hd : ∀ pid todo, d = .kill pid todo → pid ∈ kills) :
    Marks kills t := by
  apply h.of_slots
  · exact fun q => .same (congrFun hst q) (congrFun hpid q) (congrFun hk q)
  · exact hn.ge
  · rw [hpc]
    exact h.asked_update hd

theorem goto (h : Marks kills s) (hd : ∀ pid todo, d = .kill pid todo → pid ∈ kills) : Marks kills (s.goto p d) :=
  h.move rfl rfl rfl rfl rfl hd

theorem restate (h : Marks kills s) (hq : s.state q ≠ .unused) (hq' : t.state q ≠ .unused ∧ t.state q ≠ .used)
    (hst : ∀ r, r ≠ q → t.state r = s.state r) (hpid : t.pid = s.pid) (hk : t.killed = s.killed) (hn : t.nextpid = s.nextpid)
    (hasked : ∀ p pid todo, t.pc p = .kill pid todo → pid ∈ kills) : Marks kills t := by
  refine h.of_slots (fun r => ?_) hn.ge hasked
  by_cases hr : r = q
  · subst hr
    exact .moved hq hq' (congrFun hpid r)
  · exact .same (hst r hr) (congrFun hpid r) (congrFun hk r)

theorem acquire (h : Marks kills s) (ht : s.acquire p d = some t) (hd : ∀ pid todo, d ≠ .kill pid todo) : Marks kills t := by
  rw [St.acquire] at ht
  split_ifs at ht
  cases ht
  exact h.move rfl rfl rfl rfl rfl (fun pid todo he => absurd he (hd pid todo))

theorem wakeup [DecidableEq Ch] {c : Option (Chan n Ch)} (h : Marks kills s) : Marks kills (s.wakeup q c) := by
  rw [St.wakeup]
  split_ifs with hq
  · apply h.restate (q := q)
    · rw [hq.1]
      simp
    · simp
    · exact fun r hr => update_of_ne hr _ _
    · rfl
    · rfl
    · rfl
    · exact h.asked
  · exact h

theorem killProc (h : Marks kills s) (hq : s.pid q ∈ kills) : Marks kills (s.killProc q) := by
  have hlive : s.state q ≠ .unused := by
    intro hu
    rw [(h.unused q hu).1] at hq
    exact h.nonzero hq
  refine h.of_slots (fun r => ?_) le_rfl h.asked
  by_cases hr : r = q
  · subst hr
    by_cases hs : s.state r = .sleeping
    · refine .moved hlive ?_ rfl
      simp only [St.killProc, if_pos hs, update_self]
      simp
    · refine .marked hlive ?_ rfl (fun _ => hq)
      simp only [St.killProc, if_neg hs]
  · refine .same ?_ rfl (update_of_ne hr _ _)
    simp only [St.killProc]
    split_ifs
    · exact update_of_ne hr _ _
    · rfl

theorem freeproc (h : Marks kills s) : Marks kills (s.freeproc q) := by
  refine h.of_slots (fun r => ?_) le_rfl h.asked
  by_cases hr : r = q
  · subst hr
    exact .freed (update_self _ _ _) (update_self _ _ _) (update_self _ _ _)
  · exact .same (update_of_ne hr _ _) (update_of_ne hr _ _) (update_of_ne hr _ _)

theorem allocproc (h : Marks kills s) (hq : s.state q = .unused) : Marks kills (s.allocproc q) := by
  refine h.of_slots (fun r => ?_) (Nat.le_succ _) h.asked
  by_cases hr : r = q
  · subst hr
    refine .alloc hq (update_self _ _ _) (update_self _ _ _) rfl rfl (fun r' hr' => ?_)
    exact ⟨update_of_ne hr' _ _, update_of_ne hr' _ _⟩
  · exact .same (update_of_ne hr _ _) (update_of_ne hr _ _) rfl

theorem of_next [DecidableEq Ch] {ok : Bool} (h : Marks kills s) (hi : Inv init s) (hrun : s.state p = .running)
    (ht : s.next p init ok = some t) : Marks kills t := by
  have hlive : s.state p ≠ .unused := by
    rw [hrun]
    simp
  cases hp : s.pc p with
  | dead | free =>
    simp only [St.next, hp] at ht
    cases ht
  | asleep | waitSleep | waitDone | forkSet q =>
    simp only [St.next, hp] at ht
    cases ht
    exact h.move rfl rfl rfl rfl rfl (by simp)
  | forkParent q | waitAgain =>
    simp only [St.next, hp] at ht
    exact h.acquire ht (by simp)
  | alloc todo =>
    cases todo with
    | nil =>
      simp only [St.next, hp] at ht
      cases ht
      exact h.goto (by simp)
    | cons q todo =>
      simp only [St.next, hp] at ht
      split_ifs at ht with hq
      · cases ht
        exact (h.allocproc hq).goto (by simp)
      · cases ht
        exact (h.allocproc hq).freeproc.goto (by simp)
      · cases ht
        exact h.goto (by simp)
  | forkState q =>
    have hq := hi.making p q (by rw [hp]; rfl)
    simp only [St.next, hp] at ht
    cases ht
    apply h.restate (q := q)
    · rw [hq]
      simp
    · simp
    · exact fun r hr => update_of_ne hr _ _
    · rfl
    · rfl
    · rfl
    · exact (h.goto (p := q) (d := .free) (by simp)).asked_update (by simp)
  | reparent status todo =>
    cases todo with
    | nil =>
      simp only [St.next, hp] at ht
      cases ht
      exact h.goto (by simp)
    | cons q todo =>
      simp only [St.next, hp] at ht
      split_ifs at ht <;> cases ht <;> exact h.move rfl rfl rfl rfl rfl (by simp)
  | wakeup status chan todo rest =>
    cases todo with
    | nil => cases rest <;> simp only [St.next, hp] at ht <;> cases ht <;> exact h.goto (by simp)
    | cons q todo =>
      simp only [St.next, hp] at ht
      split_ifs at ht
      · cases ht
        exact h.goto (by simp)
      · cases ht
        exact h.wakeup.goto (by simp)
  | exitState status =>
    simp only [St.next, hp] at ht
    cases ht
    apply h.restate hlive
    · simp
    · exact fun r hr => update_of_ne hr _ _
    · rfl
    · rfl
    · rfl
    · exact h.asked_update (by simp)
  | waitScan havekids todo =>
    cases todo with
    | nil =>
      simp only [St.next, hp] at ht
      split_ifs at ht
      · cases ht
        exact h.move rfl rfl rfl rfl rfl (by simp)
      · cases ht
        apply h.restate hlive
        · simp
        · exact fun r hr => update_of_ne hr _ _
        · rfl
        · rfl
        · rfl
        · exact h.asked_update (by simp)
    | cons q todo =>
      simp only [St.next, hp] at ht
      split_ifs at ht
      · cases ht
        exact (h.freeproc (q := q)).move rfl rfl rfl rfl rfl (by simp)
      all_goals
        cases ht
        exact h.goto (by simp)
  | kill pid todo =>
    have hpid := h.asked p pid todo hp
    cases todo with
    | nil =>
      simp only [St.next, hp] at ht
      cases ht
      exact h.goto (by simp)
    | cons q todo =>
      simp only [St.next, hp] at ht
      split_ifs at ht with hq
      · cases ht
        exact (h.killProc (by rw [hq]; exact hpid)).goto (by simp)
      · cases ht
        apply h.goto
        intro pid' todo' he
        cases he
        exact hpid

theorem of_call {f : Call} (h : Marks kills s) (ht : s.call p init f = some t)
    (hask : ∀ pid, f = .kill pid → pid ∈ kills) : Marks kills t := by
  cases f with
  | fork =>
    cases ht
    exact h.goto (by simp)
  | kill pid =>
    cases ht
    apply h.goto
    intro pid' todo he
    cases he
    exact hask pid rfl
  | wait => exact h.acquire ht (by simp)
  | exit status =>
    simp only [St.call] at ht
    split_ifs at ht
    exact h.acquire ht (by simp)

theorem more {new : List ℕ} (h : Marks kills s) (hnew : 0 ∉ new) : Marks (new ++ kills) s := by
  refine ⟨?_, fun p pid todo hp => List.mem_append_right _ (h.asked p pid todo hp), h.unused, h.named, h.next, h.apart,
    fun q hq hk => List.mem_append_right _ (h.fresh q hq hk)⟩
  rw [List.mem_append]
  exact not_or.mpr ⟨hnew, h.nonzero⟩

theorem of_step [DecidableEq Ch] {a : Action n Ch} (h : Marks kills s) (hi : Inv init s) (hask : 0 ∉ a.asks)
    (ht : step init s a = some t) : Marks (a.asks ++ kills) t := by
  replace h := h.more hask
  cases a with
  | run p =>
    simp only [step] at ht
    split_ifs at ht with hst
    cases ht
    apply h.restate (q := p)
    · rw [hst]
      simp
    · simp
    · exact fun r hr => update_of_ne hr _ _
    · rfl
    · rfl
    · rfl
    · exact h.asked
  | yield p =>
    simp only [step] at ht
    split_ifs at ht with hst
    cases ht
    apply h.restate (q := p)
    · rw [hst]
      simp
    · simp
    · exact fun r hr => update_of_ne hr _ _
    · rfl
    · rfl
    · rfl
    · exact h.asked
  | sleep p ch =>
    cases hp : s.pc p with
    | free =>
      simp only [step, hp] at ht
      split_ifs at ht with hst
      cases ht
      apply h.restate (q := p)
      · rw [hst]
        simp
      · simp
      · exact fun r hr => update_of_ne hr _ _
      · rfl
      · rfl
      · rfl
      · exact h.asked_update (by simp)
    | _ =>
      simp only [step, hp] at ht
      cases ht
  | wake q ch =>
    cases ht
    exact h.wakeup
  | call p f =>
    cases hp : s.pc p with
    | free =>
      simp only [step, hp] at ht
      split_ifs at ht with hst
      apply h.of_call ht
      rintro pid rfl
      exact List.mem_append_left _ (List.mem_singleton_self pid)
    | _ =>
      simp only [step, hp] at ht
      cases ht
  | next p ok =>
    simp only [step] at ht
    split_ifs at ht with hst
    exact h.of_next hi hst ht

theorem of_userinit (init : Fin n) : Marks [] (userinit Ch init) := by
  have hstate : ∀ q : Fin n, (userinit Ch init).state q ≠ .unused → q = init := by
    intro q hq
    by_contra hne
    exact hq (if_neg hne)
  refine ⟨List.not_mem_nil, ?_, ?_, ?_, Nat.zero_lt_two, ?_, ?_⟩
  · intro p pid todo hp
    simp only [userinit] at hp
    split_ifs at hp
  · intro q hq
    simp only [userinit] at hq ⊢
    split_ifs at hq with hqi
    exact ⟨if_neg hqi, trivial⟩
  · intro q hq
    rw [hstate q hq]
    simp [userinit]
  · intro q r hq hr _
    rw [hstate q hq, hstate r hr]
  · intro q _ hk
    cases hk

end Marks

theorem Log.of_run [DecidableEq Ch] {l : Log n Ch} (h : Run (Log.step init) NonZero ⟨userinit Ch init, []⟩ l) :
    Inv init l.table ∧ Marks l.kills l.table := by
  apply h.invariant (I := fun l => Inv init l.table ∧ Marks l.kills l.table) ⟨.of_userinit init, .of_userinit init⟩
  rintro l e l' ⟨hi, hm⟩ hask hstep
  cases e with
  | act a =>
    obtain ⟨t, ht, rfl⟩ := Option.map_eq_some_iff.mp hstep
    exact ⟨hi.of_step ht, hm.of_step hi hask ht⟩
  | fault p =>
    cases hp : l.table.pc p with
    | free =>
      simp only [Log.step, hp] at hstep
      split_ifs at hstep with hst
      cases hstep
      refine ⟨hi.frame, hm.of_slots (fun r => ?_) le_rfl hm.asked⟩
      by_cases hr : r = p
      · subst hr
        refine .marked ?_ rfl rfl (fun hu => ?_)
        · rw [hst]
          simp
        · cases hst.symm.trans hu
      · exact .same rfl rfl (update_of_ne hr _ _)
    | _ =>
      simp only [Log.step, hp] at hstep
      cases hstep

end Xv6.Procs
