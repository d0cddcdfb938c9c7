import Xv6.Procs.Machine

namespace Xv6.Procs

open Kernel (ProcState)
open Lib.Transition
open Function (update update_of_ne update_self update_apply update_eq_self update_idem)

variable {n : ℕ} {Ch : Type} {s t : St n Ch} {p q r init : Fin n}

def Pc.creates : Pc n → Option (Fin n)
  | .forkParent q | .forkSet q | .forkState q => some q
  | _ => none

def Pc.exits : Pc n → Bool
  | .reparent _ _ | .wakeup _ _ _ _ | .exitState _ => true
  | _ => false

def Pc.children (d : Pc n) (q : Fin n) : Prop :=
  match d with
  | .reparent _ todo | .wakeup _ _ _ (some todo) => q ∈ todo
  | .wakeup _ _ _ none | .exitState _ | .dead => False
  | _ => True

def Pc.finds (d : Pc n) (q : Fin n) : Prop :=
  match d with
  | .waitScan _ todo => q ∈ todo
  | _ => True

def Pc.wakes (d : Pc n) (p : Fin n) : Prop :=
  match d with
  | .wakeup _ chan todo _ => chan = some p ∧ p ∈ todo
  | _ => False

def Pc.told (d : Pc n) (p : Fin n) : Prop :=
  match d with
  | .wakeup _ _ todo none => p ∉ todo
  | .exitState _ => True
  | _ => False

def Pc.idle : Pc n → Bool
  | .free | .asleep | .alloc _ | .waitDone | .waitAgain | .kill _ _ => true
  | _ => false

def St.waiting (s : St n Ch) (p : Fin n) : Prop := s.pc p = .waitSleep ∧ s.state p = .sleeping

structure Inv (init : Fin n) (s : St n Ch) : Prop where
  lock : ∀ p, (s.pc p).holds = true → s.waitLock = some p
  dead : ∀ p, s.pc p = .dead ↔ s.state p = .unused ∨ s.state p = .used ∨ s.state p = .zombie
  making : ∀ p q, (s.pc p).creates = some q → s.state q = .used
  maker : ∀ p p' q, (s.pc p).creates = some q → (s.pc p').creates = some q → p = p'
  made : ∀ q, s.state q = .used → ∃ p, (s.pc p).creates = some q
  init_alive : s.pc init ≠ .dead
  init_parent : s.parent init = none
  init_stays : (s.pc init).exits = false
  child : ∀ q r, s.parent q = some r → (s.pc r).children q ∧ q ≠ r
  orphan : ∀ q, s.state q ≠ .unused → s.state q ≠ .used → q ≠ init → s.parent q ≠ none
  adopted : ∀ p q, s.pc p = .forkState q → s.parent q ≠ none
  scan : ∀ p q, s.parent q = some p → s.state q = .zombie → (s.pc p).finds q
  target : ∀ p st ch todo, s.pc p = .wakeup st ch todo none → ch = s.parent p
  sleeper : ∀ p q, s.parent q = some p → s.state q = .zombie → s.waiting p → ∃ r, (s.pc r).wakes p
  told : ∀ p q, s.parent q = some p → (s.pc q).told p → ¬ s.waiting p
  chan : ∀ p, s.waiting p → s.chan p = some (.proc p)

theorem exists_update {P : Pc n → Prop} {pc : Fin n → Pc n} {d : Pc n} (h : ∃ r, P (pc r)) (hd : P (pc p) → P d) :
    ∃ r, P (update pc p d r) := by
  obtain ⟨r, hr⟩ := h
  by_cases hrp : r = p
  · subst hrp
    exact ⟨r, by rw [update_self]; exact hd hr⟩
  · exact ⟨r, by rw [update_of_ne hrp]; exact hr⟩

namespace Inv

variable {d : Pc n} {l : Option (Fin n)} {st : ProcState} {chan' : Fin n → Option (Chan n Ch)}
  {pid' : Fin n → ℕ} {xstate' : Fin n → ℤ} {killed' : Fin n → Bool} {nextpid' : ℕ} {life' : Fin n → ℕ} {reaped' : List (Reap n)}

theorem frame (h : Inv init s) : Inv init { s with
    pid := pid', xstate := xstate', killed := killed', nextpid := nextpid', life := life', reaped := reaped' } :=
  ⟨h.lock, h.dead, h.making, h.maker, h.made, h.init_alive, h.init_parent, h.init_stays, h.child, h.orphan, h.adopted,
    h.scan, h.target, h.sleeper, h.told, h.chan⟩

theorem goto (h : Inv init s) (hchan : ∀ q, q ≠ p → chan' q = s.chan q) (hl : d.holds = true → l = some p)
    (hl' : l = s.waitLock ∨ s.waitLock = none ∨ s.waitLock = some p)
    (hd : d ≠ .dead) (hd' : s.pc p ≠ .dead) (hcr : d.creates = (s.pc p).creates) (hinit : p = init → d.exits = false)
    (hchild : ∀ q, s.parent q = some p → (s.pc p).children q → d.children q)
    (hadopt : ∀ q, d ≠ .forkState q)
    (hscan : ∀ q, s.parent q = some p → s.state q = .zombie → (s.pc p).finds q → d.finds q)
    (hwake : ∀ q, (s.pc p).wakes q → d.wakes q ∨ ¬ s.waiting q)
    (htarget : ∀ st ch todo, d = .wakeup st ch todo none → ch = s.parent p)
    (htold : ∀ r, s.parent p = some r → d.told r → (s.pc p).told r ∨ ¬ s.waiting r) (hw : d ≠ .waitSleep) :
    Inv init { s with waitLock := l, pc := update s.pc p d, chan := chan' } := by
  obtain ⟨hlock, hdead, hmaking, hmaker, hmade, hia, hip, his, hch, horphan, hadopted, hsc, htg, hsl, htl, hcn⟩ := h
  simp only [St.waiting] at hsl htl hcn htold hwake
  constructor <;> simp only [St.waiting]
  · grind [update_apply]
  · grind [update_apply]
  · grind [update_apply]
  · grind [update_apply]
  · exact fun q hq => exists_update (P := fun d => d.creates = some q) (hmade q hq) (fun hp => hcr.trans hp)
  · grind [update_apply]
  · exact hip
  · grind [update_apply]
  · grind [update_apply]
  · exact horphan
  · grind [update_apply]
  · grind [update_apply]
  · grind [update_apply]
  · intro r q hq hz hr
    have hrp : r ≠ p := by
      rintro rfl
      rw [update_self] at hr
      exact hw hr.1
    rw [update_of_ne hrp] at hr
    exact exists_update (P := fun d => d.wakes r) (hsl r q hq hz hr) (fun hp => (hwake r hp).resolve_right (not_not.mpr hr))
  · grind [update_apply]
  · grind [update_apply]

theorem restate (h : Inv init s) (hq : s.pc q ≠ .dead) (hst : st = .runnable ∨ st = .running) :
    Inv init { s with state := update s.state q st } := by
  obtain ⟨hlock, hdead, hmaking, hmaker, hmade, hia, hip, his, hch, horphan, hadopted, hsc, htg, hsl, htl, hcn⟩ := h
  simp only [St.waiting] at hsl htl hcn
  constructor <;> simp only [St.waiting]
  · exact hlock
  · grind [update_apply]
  · grind [update_apply]
  · exact hmaker
  · grind [update_apply]
  · exact hia
  · exact hip
  · exact his
  · exact hch
  · grind [update_apply]
  · exact hadopted
  · grind [update_apply]
  · exact htg
  · grind [update_apply]
  · grind [update_apply]
  · grind [update_apply]

theorem doze (h : Inv init s) (hchan : ∀ q, q ≠ p → chan' q = s.chan q) (hd : d = .asleep ∨ d = .waitSleep)
    (hp : s.pc p = .free ∧ d = .asleep ∧ l = s.waitLock ∨ (∃ b, s.pc p = .waitScan b []) ∧ d = .waitSleep ∧ l = none)
    (hc : d = .waitSleep → chan' p = some (.proc p)) :
    Inv init { s with
      waitLock := l, pc := update s.pc p d, chan := chan', state := update s.state p .sleeping } := by
  have hnone : d = .waitSleep → ∀ q, s.parent q = some p → s.state q ≠ .zombie := by
    rintro rfl q hq hz
    rcases hp with ⟨-, hp, -⟩ | ⟨⟨b, hp⟩, -, -⟩
    · cases hp
    · have hfind := h.scan p q hq hz
      rw [hp] at hfind
      cases hfind
  have hdp : s.pc p ≠ .dead ∧ (s.pc p).creates = none ∧ (d = .waitSleep → (s.pc p).holds = true) ∧
      (∀ q, ¬ (s.pc p).wakes q) := by
    rcases hp with ⟨hp, hd', -⟩ | ⟨⟨b, hp⟩, hd', -⟩ <;> rw [hp, hd'] <;> simp [Pc.creates, Pc.holds, Pc.wakes]
  have hd' : d.holds = false ∧ d.creates = none ∧ d.exits = false ∧ d ≠ .dead ∧ (∀ q, d.children q) ∧ (∀ q, d.finds q) ∧
      (∀ q, ¬ d.told q) ∧ (∀ q, d ≠ .forkState q) ∧ ∀ st ch todo, d ≠ .wakeup st ch todo none := by
    rcases hd with rfl | rfl <;> simp [Pc.creates, Pc.holds, Pc.exits, Pc.children, Pc.finds, Pc.told]
  have htoldlock : ∀ q r, (s.pc q).told r → (s.pc q).holds = true := by
    intro q r hq
    cases hpc : s.pc q <;> rw [hpc] at hq <;> first | rfl | cases hq
  obtain ⟨hlock, hdead, hmaking, hmaker, hmade, hia, hip, his, hch, horphan, hadopted, hsc, htg, hsl, htl, hcn⟩ := h
  simp only [St.waiting] at hsl htl hcn
  constructor <;> simp only [St.waiting]
  · grind [update_apply]
  · grind [update_apply]
  · grind [update_apply]
  · grind [update_apply]
  · intro q hq
    have hqp : q ≠ p := by
      rintro rfl
      rw [update_self] at hq
      cases hq
    rw [update_of_ne hqp] at hq
    exact exists_update (P := fun d => d.creates = some q) (hmade q hq) (fun hp => by rw [hdp.2.1] at hp; cases hp)
  · grind [update_apply]
  · exact hip
  · grind [update_apply]
  · grind [update_apply]
  · grind [update_apply]
  · grind [update_apply]
  · grind [update_apply]
  · grind [update_apply]
  · intro r q hq hz hr
    have hqp : q ≠ p := by
      rintro rfl
      rw [update_self] at hz
      cases hz
    rw [update_of_ne hqp] at hz
    by_cases hrp : r = p
    · subst hrp
      rw [update_self] at hr
      exact absurd hz (hnone hr.1 q hq)
    · rw [update_of_ne hrp, update_of_ne hrp] at hr
      exact exists_update (P := fun d => d.wakes r) (hsl r q hq hz hr) (fun hp => absurd hp (hdp.2.2.2 r))
  · grind [update_apply]
  · grind [update_apply]

theorem alloc (h : Inv init s) {todo : List (Fin n)} (hp : s.pc p = .alloc todo) (hq : s.state q = .unused) :
    Inv init { s with state := update s.state q .used, pc := update s.pc p (.forkParent q) } := by
  have hqd : s.pc q = .dead := (h.dead q).mpr (Or.inl hq)
  have hd : (Pc.forkParent q).holds = false ∧ (Pc.forkParent q).creates = some q ∧ (Pc.forkParent q).exits = false ∧
      (∀ r, (Pc.forkParent q).children r) ∧ (∀ r, (Pc.forkParent q).finds r) ∧ ∀ r, ¬ (Pc.forkParent q).told r := by
    simp [Pc.creates, Pc.holds, Pc.exits, Pc.children, Pc.finds, Pc.told]
  have hdp : (s.pc p).creates = none ∧ (∀ r, ¬ (s.pc p).wakes r) := by
    rw [hp]
    simp [Pc.creates, Pc.wakes]
  obtain ⟨hlock, hdead, hmaking, hmaker, hmade, hia, hip, his, hch, horphan, hadopted, hsc, htg, hsl, htl, hcn⟩ := h
  simp only [St.waiting] at hsl htl hcn
  constructor <;> simp only [St.waiting]
  · grind [update_apply]
  · grind [update_apply]
  · grind [update_apply]
  · grind [update_apply]
  · intro r hr
    by_cases hrq : r = q
    · exact ⟨p, by rw [update_self, hrq]; rfl⟩
    · rw [update_of_ne hrq] at hr
      exact exists_update (P := fun d => d.creates = some r) (hmade r hr) (fun hp => by rw [hdp.1] at hp; cases hp)
  · grind [update_apply]
  · exact hip
  · grind [update_apply]
  · grind [update_apply]
  · grind [update_apply]
  · grind [update_apply]
  · grind [update_apply]
  · grind [update_apply]
  · intro r q' hq' hz hr
    have hqq : q' ≠ q := by
      rintro rfl
      rw [update_self] at hz
      cases hz
    have hrp : r ≠ p := by
      rintro rfl
      rw [update_self] at hr
      cases hr.1
    have hrq : r ≠ q := by
      rintro rfl
      rw [update_self] at hr
      cases hr.2
    rw [update_of_ne hqq] at hz
    rw [update_of_ne hrp, update_of_ne hrq] at hr
    exact exists_update (P := fun d => d.wakes r) (hsl r q' hq' hz hr) (fun hp => absurd hp (hdp.2 r))
  · grind [update_apply]
  · grind [update_apply]

theorem clear (h : Inv init s) (hchan : ∀ r, r ≠ q → chan' r = s.chan r) (hq : s.state q = .unused) :
    Inv init { s with parent := update s.parent q none, chan := chan' } := by
  have hqd : s.pc q = .dead := (h.dead q).mpr (Or.inl hq)
  obtain ⟨hlock, hdead, hmaking, hmaker, hmade, hia, hip, his, hch, horphan, hadopted, hsc, htg, hsl, htl, hcn⟩ := h
  simp only [St.waiting] at hsl htl hcn
  constructor <;> simp only [St.waiting]
  · exact hlock
  · exact hdead
  · exact hmaking
  · exact hmaker
  · exact hmade
  · exact hia
  · grind [update_apply]
  · exact his
  · grind [update_apply]
  · grind [update_apply]
  · grind [update_apply, Pc.creates]
  · grind [update_apply]
  · grind [update_apply]
  · grind [update_apply]
  · grind [update_apply]
  · grind [update_apply]

theorem adopt (h : Inv init s) (hp : s.pc p = .forkSet q) :
    Inv init { s with
      waitLock := none
      pc := update s.pc p (.forkState q)
      parent := update s.parent q (some p) } := by
  have hq : s.state q = .used := h.making p q (by rw [hp]; rfl)
  have hqd : s.pc q = .dead := (h.dead q).mpr (Or.inr (Or.inl hq))
  have hqp : q ≠ p := by
    rintro rfl
    rw [hp] at hqd
    cases hqd
  have hd : (Pc.forkState q).holds = false ∧ (Pc.forkState q).creates = (s.pc p).creates ∧ (Pc.forkState q).exits = false ∧
      (∀ r, (Pc.forkState q).children r) ∧ (∀ r, (Pc.forkState q).finds r) ∧ ∀ r, ¬ (Pc.forkState q).told r := by
    rw [hp]
    simp [Pc.creates, Pc.holds, Pc.exits, Pc.children, Pc.finds, Pc.told]
  have hdp : (s.pc p).holds = true ∧ (∀ r, ¬ (s.pc p).wakes r) := by
    rw [hp]
    simp [Pc.holds, Pc.wakes]
  have htq : ∀ r, ¬ (s.pc q).told r := by
    rw [hqd]
    simp [Pc.told]
  obtain ⟨hlock, hdead, hmaking, hmaker, hmade, hia, hip, his, hch, horphan, hadopted, hsc, htg, hsl, htl, hcn⟩ := h
  simp only [St.waiting] at hsl htl hcn
  constructor <;> simp only [St.waiting]
  · grind [update_apply]
  · grind [update_apply]
  · grind [update_apply]
  · grind [update_apply]
  · exact fun r hr => exists_update (P := fun d => d.creates = some r) (hmade r hr) (fun hp => hd.2.1.trans hp)
  · grind [update_apply]
  · grind [update_apply]
  · grind [update_apply]
  · grind [update_apply]
  · grind [update_apply]
  · grind [update_apply]
  · grind [update_apply]
  · grind [update_apply]
  · intro r q' hq' hz hr
    have hqq : q' ≠ q := by
      rintro rfl
      rw [hq] at hz
      cases hz
    have hrp : r ≠ p := by
      rintro rfl
      rw [update_self] at hr
      cases hr.1
    rw [update_of_ne hqq] at hq'
    rw [update_of_ne hrp] at hr
    exact exists_update (P := fun d => d.wakes r) (hsl r q' hq' hz hr) (fun hp => absurd hp (hdp.2 r))
  · grind [update_apply]
  · grind [update_apply]

theorem start (h : Inv init s) (hp : s.pc p = .forkState q) :
    Inv init { s with
      state := update s.state q .runnable
      pc := update (update s.pc q .free) p .free } := by
  have hq : s.state q = .used := h.making p q (by rw [hp]; rfl)
  have hqd : s.pc q = .dead := (h.dead q).mpr (Or.inr (Or.inl hq))
  have hqp : q ≠ p := by
    rintro rfl
    rw [hp] at hqd
    cases hqd
  have hpar := h.adopted p q hp
  have hd : (Pc.free : Pc n).holds = false ∧ (Pc.free : Pc n).creates = none ∧ (Pc.free : Pc n).exits = false ∧
      (∀ r, (Pc.free : Pc n).children r) ∧ (∀ r, (Pc.free : Pc n).finds r) ∧ ∀ r, ¬ (Pc.free : Pc n).told r := by
    simp [Pc.creates, Pc.holds, Pc.exits, Pc.children, Pc.finds, Pc.told]
  have hdp : (s.pc p).creates = some q ∧ (∀ r, ¬ (s.pc p).wakes r) ∧ (s.pc q).creates = none ∧ (∀ r, ¬ (s.pc q).wakes r) := by
    rw [hp, hqd]
    simp [Pc.creates, Pc.wakes]
  obtain ⟨hlock, hdead, hmaking, hmaker, hmade, hia, hip, his, hch, horphan, hadopted, hsc, htg, hsl, htl, hcn⟩ := h
  simp only [St.waiting] at hsl htl hcn
  constructor <;> simp only [St.waiting]
  · grind [update_apply]
  · grind [update_apply]
  · grind [update_apply]
  · grind [update_apply]
  · intro r hr
    have hrq : r ≠ q := by
      rintro rfl
      rw [update_self] at hr
      cases hr
    rw [update_of_ne hrq] at hr
    refine exists_update (P := fun d => d.creates = some r) (exists_update (P := fun d => d.creates = some r) (hmade r hr) ?_) ?_
    · intro hc
      rw [hdp.2.2.1] at hc
      cases hc
    · intro hc
      rw [update_of_ne hqp.symm, hdp.1] at hc
      exact absurd (Option.some_inj.mp hc).symm hrq
  · grind [update_apply]
  · exact hip
  · grind [update_apply]
  · grind [update_apply]
  · grind [update_apply]
  · grind [update_apply]
  · grind [update_apply]
  · grind [update_apply]
  · intro r q' hq' hz hr
    have hqq : q' ≠ q := by
      rintro rfl
      rw [update_self] at hz
      cases hz
    have hrp : r ≠ p := by
      rintro rfl
      rw [update_self] at hr
      cases hr.1
    have hrq : r ≠ q := by
      rintro rfl
      rw [update_self] at hr
      cases hr.2
    rw [update_of_ne hqq] at hz
    rw [update_of_ne hrp, update_of_ne hrq, update_of_ne hrq] at hr
    refine exists_update (P := fun d => d.wakes r) (exists_update (P := fun d => d.wakes r) (hsl r q' hq' hz hr) ?_) ?_
    · exact fun hw => absurd hw (hdp.2.2.2 r)
    · intro hw
      rw [update_of_ne hqp.symm] at hw
      exact absurd hw (hdp.2.1 r)
  · grind [update_apply]
  · grind [update_apply]

theorem give (h : Inv init s) {st : ℤ} {todo : List (Fin n)} (hp : s.pc p = .reparent st (q :: todo))
    (hq : s.parent q = some p) :
    Inv init { s with
      pc := update s.pc p (.wakeup st (some init) (List.finRange n) (some todo))
      parent := update s.parent q (some init) } := by
  have hpi : p ≠ init := by
    rintro rfl
    have := h.init_stays
    rw [hp] at this
    cases this
  have hqi : q ≠ init := by
    rintro rfl
    rw [h.init_parent] at hq
    cases hq
  have hci : ∀ r, (s.pc init).children r := by
    intro r
    have hstays := h.init_stays
    have halive := h.init_alive
    cases hi : s.pc init <;> rw [hi] at hstays halive <;> first | exact trivial | exact absurd rfl halive | cases hstays
  obtain ⟨d, hd⟩ : ∃ d : Pc n, d = .wakeup st (some init) (List.finRange n) (some todo) := ⟨_, rfl⟩
  rw [← hd]
  have hdd : d.holds = true ∧ d.creates = none ∧ d ≠ .dead ∧ (∀ r, d.children r ↔ r ∈ todo) ∧ (∀ r, d.finds r) ∧
      (∀ r, ¬ d.told r) ∧ d.wakes init ∧ (∀ r, d ≠ .forkState r) ∧ (∀ st ch todo, d ≠ .wakeup st ch todo none) ∧
      d ≠ .waitSleep := by
    rw [hd]
    simp [Pc.creates, Pc.holds, Pc.children, Pc.finds, Pc.told, Pc.wakes]
  have hdp : (s.pc p).holds = true ∧ (∀ r, ¬ (s.pc p).wakes r) ∧ (s.pc p).creates = none ∧
      ∀ r, (s.pc p).children r ↔ r = q ∨ r ∈ todo := by
    rw [hp]
    simp [Pc.holds, Pc.wakes, Pc.creates, Pc.children]
  have hwlock : ∀ r r', (s.pc r).wakes r' → (s.pc r).holds = true := by
    intro r r' hr
    cases hpc : s.pc r <;> rw [hpc] at hr <;> first | rfl | cases hr
  have hfinds : ∀ r, (s.pc init).holds = false → (s.pc init).finds r := by
    intro r hr
    cases hi : s.pc init <;> rw [hi] at hr <;> first | exact trivial | cases hr
  have htoldlock : ∀ q r, (s.pc q).told r → (s.pc q).holds = true := by
    intro q r hq
    cases hpc : s.pc q <;> rw [hpc] at hq <;> first | rfl | cases hq
  have htlock : ∀ r st ch todo, s.pc r = .wakeup st ch todo none → (s.pc r).holds = true := by
    intro r st ch todo hr
    rw [hr]
    rfl
  obtain ⟨hlock, hdead, hmaking, hmaker, hmade, hia, hip, his, hch, horphan, hadopted, hsc, htg, hsl, htl, hcn⟩ := h
  simp only [St.waiting] at hsl htl hcn
  constructor <;> simp only [St.waiting]
  · grind [update_apply]
  · grind [update_apply]
  · grind [update_apply]
  · grind [update_apply]
  · exact fun r hr => exists_update (P := fun d => d.creates = some r) (hmade r hr) (fun hp => by rw [hdp.2.2.1] at hp; cases hp)
  · grind [update_apply]
  · grind [update_apply]
  · grind [update_apply]
  · grind [update_apply]
  · grind [update_apply]
  · grind [update_apply]
  · grind [update_apply]
  · grind [update_apply]
  · intro r q' hq' hz hr
    have hrp : r ≠ p := by
      rintro rfl
      rw [update_self] at hr
      exact hdd.2.2.2.2.2.2.2.2.2 hr.1
    by_cases hri : r = init
    · exact ⟨p, by rw [update_self, hri]; exact hdd.2.2.2.2.2.2.1⟩
    · have hqq : q' ≠ q := by
        rintro rfl
        rw [update_self] at hq'
        exact hri (Option.some_inj.mp hq').symm
      rw [update_of_ne hqq] at hq'
      rw [update_of_ne hrp] at hr
      exact exists_update (P := fun d => d.wakes r) (hsl r q' hq' hz hr) (fun hp => absurd hp (hdp.2.1 r))
  · grind [update_apply]
  · grind [update_apply]

theorem exit (h : Inv init s) {st : ℤ} (hp : s.pc p = .exitState st) :
    Inv init { s with
      waitLock := none
      pc := update s.pc p .dead
      state := update s.state p .zombie } := by
  have hpi : p ≠ init := by
    rintro rfl
    have := h.init_stays
    rw [hp] at this
    cases this
  have hd : (Pc.dead : Pc n).holds = false ∧ (Pc.dead : Pc n).creates = none ∧
      (∀ r, (Pc.dead : Pc n).finds r) ∧ ∀ r, ¬ (Pc.dead : Pc n).told r := by
    simp [Pc.creates, Pc.holds, Pc.finds, Pc.told]
  have hdp : (s.pc p).holds = true ∧ (∀ r, ¬ (s.pc p).wakes r) ∧ (s.pc p).creates = none ∧
      (∀ r, ¬ (s.pc p).children r) ∧ (∀ r, (s.pc p).told r) ∧ s.pc p ≠ .dead := by
    rw [hp]
    simp [Pc.holds, Pc.wakes, Pc.creates, Pc.children, Pc.told]
  have hfinds : ∀ r, (s.pc r).holds = false → ∀ q, (s.pc r).finds q := by
    intro r hr q
    cases hi : s.pc r <;> rw [hi] at hr <;> first | exact trivial | cases hr
  obtain ⟨hlock, hdead, hmaking, hmaker, hmade, hia, hip, his, hch, horphan, hadopted, hsc, htg, hsl, htl, hcn⟩ := h
  simp only [St.waiting] at hsl htl hcn
  constructor <;> simp only [St.waiting]
  · grind [update_apply]
  · grind [update_apply]
  · grind [update_apply]
  · grind [update_apply]
  · intro r hr
    have hrp : r ≠ p := by
      rintro rfl
      rw [update_self] at hr
      cases hr
    rw [update_of_ne hrp] at hr
    exact exists_update (P := fun d => d.creates = some r) (hmade r hr) (fun hp => by rw [hdp.2.2.1] at hp; cases hp)
  · grind [update_apply]
  · exact hip
  · grind [update_apply]
  · grind [update_apply]
  · grind [update_apply]
  · grind [update_apply]
  · grind [update_apply]
  · grind [update_apply]
  · intro r q' hq' hz hr
    have hrp : r ≠ p := by
      rintro rfl
      rw [update_self] at hr
      cases hr.1
    rw [update_of_ne hrp, update_of_ne hrp] at hr
    by_cases hqp : q' = p
    · subst hqp
      exact absurd hr (htl r q' hq' (hdp.2.2.2.2.1 r))
    · rw [update_of_ne hqp] at hz
      exact exists_update (P := fun d => d.wakes r) (hsl r q' hq' hz hr) (fun hp => absurd hp (hdp.2.1 r))
  · grind [update_apply]
  · grind [update_apply]

theorem free (h : Inv init s) (hchan : ∀ r, r ≠ q → chan' r = s.chan r) {b : Bool} {todo : List (Fin n)}
    (hp : s.pc p = .waitScan b todo) (hq : s.state q = .zombie) :
    Inv init { s with
      pc := update s.pc p .waitDone
      state := update s.state q .unused
      parent := update s.parent q none
      chan := chan' } := by
  have hqd : s.pc q = .dead := (h.dead q).mpr (Or.inr (Or.inr hq))
  have hqp : q ≠ p := by
    rintro rfl
    rw [hp] at hqd
    cases hqd
  have hd : (Pc.waitDone : Pc n).holds = true ∧ (Pc.waitDone : Pc n).creates = none ∧ (Pc.waitDone : Pc n).exits = false ∧
      (∀ r, (Pc.waitDone : Pc n).children r) ∧ (∀ r, (Pc.waitDone : Pc n).finds r) ∧ ∀ r, ¬ (Pc.waitDone : Pc n).told r := by
    simp [Pc.creates, Pc.holds, Pc.exits, Pc.children, Pc.finds, Pc.told]
  have hdp : (s.pc p).holds = true ∧ (∀ r, ¬ (s.pc p).wakes r) ∧ (s.pc p).creates = none := by
    rw [hp]
    simp [Pc.holds, Pc.wakes, Pc.creates]
  obtain ⟨hlock, hdead, hmaking, hmaker, hmade, hia, hip, his, hch, horphan, hadopted, hsc, htg, hsl, htl, hcn⟩ := h
  simp only [St.waiting] at hsl htl hcn
  constructor <;> simp only [St.waiting]
  · grind [update_apply]
  · grind [update_apply]
  · grind [update_apply]
  · grind [update_apply]
  · intro r hr
    have hrq : r ≠ q := by
      rintro rfl
      rw [update_self] at hr
      cases hr
    rw [update_of_ne hrq] at hr
    exact exists_update (P := fun d => d.creates = some r) (hmade r hr) (fun hp => by rw [hdp.2.2] at hp; cases hp)
  · grind [update_apply]
  · grind [update_apply]
  · grind [update_apply]
  · grind [update_apply]
  · grind [update_apply]
  · grind [update_apply, Pc.creates]
  · grind [update_apply]
  · grind [update_apply]
  · intro r q' hq' hz hr
    have hqq : q' ≠ q := by
      rintro rfl
      rw [update_self] at hz
      cases hz
    have hrp : r ≠ p := by
      rintro rfl
      rw [update_self] at hr
      cases hr.1
    have hrq : r ≠ q := by
      rintro rfl
      rw [update_self] at hr
      cases hr.2
    rw [update_of_ne hqq] at hz hq'
    rw [update_of_ne hrp, update_of_ne hrq] at hr
    exact exists_update (P := fun d => d.wakes r) (hsl r q' hq' hz hr) (fun hp => absurd hp (hdp.2.1 r))
  · grind [update_apply]
  · grind [update_apply]

theorem rest (h : Inv init s) (hchan : ∀ q, q ≠ p → chan' q = s.chan q) (hd : d.idle = true)
    (hl : d.holds = true → l = some p) (hl' : l = s.waitLock ∨ s.waitLock = none ∨ s.waitLock = some p)
    (hd' : s.pc p ≠ .dead) (hcr : (s.pc p).creates = none) (hwake : ∀ q, ¬ (s.pc p).wakes q) :
    Inv init { s with waitLock := l, pc := update s.pc p d, chan := chan' } := by
  have hfacts : d ≠ .dead ∧ d.creates = none ∧ d.exits = false ∧ (∀ q, d.children q) ∧ (∀ q, d ≠ .forkState q) ∧
      (∀ q, d.finds q) ∧ (∀ st ch todo, d ≠ .wakeup st ch todo none) ∧ (∀ r, ¬ d.told r) ∧ d ≠ .waitSleep := by
    cases d <;> first | (simp [Pc.creates, Pc.exits, Pc.children, Pc.finds, Pc.told]; done) | cases hd
  obtain ⟨hdead, hnone, hexit, hch, hfs, hfd, hwk, htd, hws⟩ := hfacts
  exact h.goto hchan hl hl' hdead hd' (hnone.trans hcr.symm) (fun _ => hexit) (fun q _ _ => hch q) hfs
    (fun q _ _ _ => hfd q) (fun q hq => absurd hq (hwake q)) (fun st ch todo he => absurd he (hwk st ch todo))
    (fun r _ hr => absurd hr (htd r)) hws

theorem scanAll (h : Inv init s) (hl : s.waitLock = none) (hd' : s.pc p ≠ .dead) (hcr : (s.pc p).creates = none)
    (hwake : ∀ q, ¬ (s.pc p).wakes q) {t : St n Ch}
    (ht : s.acquire p (.waitScan false (List.finRange n)) = some t) : Inv init t := by
  rw [St.acquire, if_pos hl] at ht
  cases ht
  refine h.goto (fun _ _ => rfl) (fun _ => rfl) (Or.inr (Or.inl hl)) ?_ hd' hcr.symm (fun _ => rfl) ?_ ?_ ?_ ?_ ?_ ?_ ?_
  · exact nofun
  · exact fun q _ _ => trivial
  · exact nofun
  · exact fun q _ _ _ => List.mem_finRange q
  · exact fun q hq => absurd hq (hwake q)
  · exact nofun
  · exact fun r _ hr => hr.elim
  · exact nofun

theorem wake [DecidableEq Ch] {c : Option (Chan n Ch)} (h : Inv init s) : Inv init (s.wakeup q c) := by
  rw [St.wakeup]
  split_ifs with hq
  · apply h.restate _ (Or.inl rfl)
    intro hd
    have := (h.dead q).mp hd
    rw [hq.1] at this
    rcases this with he | he | he <;> cases he
  · exact h

theorem kill (h : Inv init s) : Inv init (s.killProc q) := by
  rw [St.killProc]
  split_ifs with hq
  · have halive : s.pc q ≠ .dead := by
      intro hd
      have := (h.dead q).mp hd
      rw [hq] at this
      rcases this with he | he | he <;> cases he
    have hrun : Inv init { s with state := update s.state q .runnable } := h.restate halive (Or.inl rfl)
    exact hrun.frame
  · exact h.frame

theorem alive (h : Inv init s) (hp : s.state p = .running) : s.pc p ≠ .dead := by
  intro hd
  have := (h.dead p).mp hd
  rw [hp] at this
  rcases this with he | he | he <;> cases he

theorem held (h : Inv init s) (hp : (s.pc p).holds = true) : s.waitLock = some p := h.lock p hp

theorem of_call {f : Call} (h : Inv init s) (hrun : s.state p = .running) (hp : s.pc p = .free)
    (ht : s.call p init f = some t) : Inv init t := by
  have hd := h.alive hrun
  have hcr : (s.pc p).creates = none := by rw [hp]; rfl
  have hwake : ∀ q, ¬ (s.pc p).wakes q := by
    rw [hp]
    exact fun q hq => hq
  cases f with
  | fork =>
    cases ht
    exact h.rest (fun _ _ => rfl) rfl nofun (Or.inl rfl) hd hcr hwake
  | kill pid =>
    cases ht
    exact h.rest (fun _ _ => rfl) rfl nofun (Or.inl rfl) hd hcr hwake
  | wait =>
    have hl : s.waitLock = none := by
      by_contra hl
      simp only [St.call, St.acquire, if_neg hl] at ht
      cases ht
    exact h.scanAll hl hd hcr hwake ht
  | exit status =>
    simp only [St.call, St.acquire] at ht
    split_ifs at ht with hi hl
    cases ht
    refine h.goto (fun _ _ => rfl) (fun _ => rfl) (Or.inr (Or.inl hl)) ?_ hd hcr.symm (fun he => absurd he hi)
      ?_ ?_ ?_ ?_ ?_ ?_ ?_
    · exact nofun
    · exact fun q _ _ => List.mem_finRange q
    · exact nofun
    · exact fun q _ _ _ => trivial
    · exact fun q hq => absurd hq (hwake q)
    · exact nofun
    · exact fun r _ hr => hr.elim
    · exact nofun

theorem of_next [DecidableEq Ch] {ok : Bool} (h : Inv init s) (hrun : s.state p = .running)
    (ht : s.next p init ok = some t) : Inv init t := by
  have hd := h.alive hrun
  have hnot : ∀ q, s.waiting q → q ≠ p := by
    rintro q hq rfl
    cases hrun.symm.trans hq.2
  cases hp : s.pc p with
  | dead => exact absurd hp hd
  | free =>
    simp only [St.next, hp] at ht
    cases ht
  | asleep =>
    simp only [St.next, hp] at ht
    cases ht
    exact h.rest (fun _ hq => update_of_ne hq _ _) rfl nofun (Or.inl rfl) hd (by rw [hp]; rfl)
      (by rw [hp]; exact fun _ => id)
  | alloc todo =>
    have hcr : (s.pc p).creates = none := by rw [hp]; rfl
    have hwake : ∀ q, ¬ (s.pc p).wakes q := by rw [hp]; exact fun _ => id
    cases todo with
    | nil =>
      simp only [St.next, hp] at ht
      cases ht
      exact h.rest (fun _ _ => rfl) rfl nofun (Or.inl rfl) hd hcr hwake
    | cons q todo =>
      simp only [St.next, hp] at ht
      split_ifs at ht with hq
      · cases ht
        exact (h.alloc hp hq).frame
      · -- `freeproc` undoes what `allocproc` did to the entry
        cases ht
        have hst : update (update s.state q .used) q .unused = s.state := by
          rw [update_idem, ← hq, update_eq_self]
        have hchan : ∀ r, r ≠ q → update s.chan q none r = s.chan r := fun _ hr => update_of_ne hr _ _
        have hclear := h.clear hchan hq
        have hrest := hclear.rest (p := p) (d := .free) (fun _ _ => rfl) rfl nofun (Or.inl rfl) hd hcr hwake
        simp only [St.goto, St.freeproc, St.allocproc, hst]
        exact hrest.frame
      · cases ht
        exact h.rest (fun _ _ => rfl) rfl nofun (Or.inl rfl) hd hcr hwake
  | forkParent q =>
    simp only [St.next, hp, St.acquire] at ht
    split_ifs at ht with hl
    cases ht
    refine h.goto (fun _ _ => rfl) (fun _ => rfl) (Or.inr (Or.inl hl)) ?_ hd (by rw [hp]; rfl) (fun _ => rfl)
      ?_ ?_ ?_ ?_ ?_ ?_ ?_
    · exact nofun
    · exact fun q _ _ => trivial
    · exact nofun
    · exact fun q _ _ _ => trivial
    · rw [hp]
      exact fun q hq => hq.elim
    · exact nofun
    · exact fun r _ hr => hr.elim
    · exact nofun
  | forkSet q =>
    simp only [St.next, hp] at ht
    cases ht
    exact h.adopt hp
  | forkState q =>
    simp only [St.next, hp] at ht
    cases ht
    exact h.start hp
  | reparent status todo =>
    have hinit : p = init → False := by
      rintro rfl
      have := h.init_stays
      rw [hp] at this
      cases this
    have hl := h.held (by rw [hp]; rfl)
    cases todo with
    | nil =>
      simp only [St.next, hp] at ht
      cases ht
      refine h.goto (fun _ _ => rfl) (fun _ => hl) (Or.inl rfl) ?_ hd (by rw [hp]; rfl) (fun he => (hinit he).elim)
        ?_ ?_ ?_ ?_ ?_ ?_ ?_
      · exact nofun
      · rw [hp]
        exact fun q _ hq => absurd hq List.not_mem_nil
      · exact nofun
      · exact fun q _ _ _ => trivial
      · rw [hp]
        exact fun q hq => hq.elim
      · rintro _ _ _ ⟨⟩
        rfl
      · exact fun r _ hr => absurd (List.mem_finRange r) hr
      · exact nofun
    | cons q todo =>
      simp only [St.next, hp] at ht
      split_ifs at ht with hq
      · cases ht
        exact h.give hp hq
      · cases ht
        refine h.goto (fun _ _ => rfl) (fun _ => hl) (Or.inl rfl) ?_ hd (by rw [hp]; rfl) (fun he => (hinit he).elim)
          ?_ ?_ ?_ ?_ ?_ ?_ ?_
        · exact nofun
        · rw [hp]
          intro r hr hmem
          rcases List.mem_cons.mp hmem with rfl | hmem
          · exact absurd hr hq
          · exact hmem
        · exact nofun
        · exact fun q _ _ _ => trivial
        · rw [hp]
          exact fun q hq => hq.elim
        · exact nofun
        · exact fun r _ hr => hr.elim
        · exact nofun
  | wakeup status chan todo rest =>
    have hinit : p = init → False := by
      rintro rfl
      have := h.init_stays
      rw [hp] at this
      cases this
    have hl := h.held (by rw [hp]; rfl)
    cases todo with
    | nil =>
      cases rest with
      | none =>
        simp only [St.next, hp] at ht
        cases ht
        refine h.goto (fun _ _ => rfl) (fun _ => hl) (Or.inl rfl) ?_ hd (by rw [hp]; rfl) (fun he => (hinit he).elim)
          ?_ ?_ ?_ ?_ ?_ ?_ ?_
        · exact nofun
        · rw [hp]
          exact fun q _ hq => hq
        · exact nofun
        · exact fun q _ _ _ => trivial
        · rw [hp]
          exact fun q hq => absurd hq.2 List.not_mem_nil
        · exact nofun
        · rw [hp]
          exact fun r _ _ => Or.inl List.not_mem_nil
        · exact nofun
      | some todo =>
        simp only [St.next, hp] at ht
        cases ht
        refine h.goto (fun _ _ => rfl) (fun _ => hl) (Or.inl rfl) ?_ hd (by rw [hp]; rfl) (fun he => (hinit he).elim)
          ?_ ?_ ?_ ?_ ?_ ?_ ?_
        · exact nofun
        · rw [hp]
          exact fun q _ hq => hq
        · exact nofun
        · exact fun q _ _ _ => trivial
        · rw [hp]
          exact fun q hq => absurd hq.2 List.not_mem_nil
        · exact nofun
        · exact fun r _ hr => hr.elim
        · exact nofun
    | cons q todo =>
      -- past `q`: it is not asleep in `wait` any more if this is its channel
      have hpast : ∀ u : St n Ch, Inv init u → u.pc = s.pc → u.waitLock = s.waitLock → u.parent = s.parent →
          (chan = some q → ¬ u.waiting q) → Inv init (u.goto p (.wakeup status chan todo rest)) := by
        intro u hu hpc hlk hpar hq
        refine hu.goto (fun _ _ => rfl) (fun _ => hlk.trans hl) (Or.inl rfl) ?_ (by rw [hpc]; exact hd) (by rw [hpc, hp]; rfl)
          (fun he => (hinit he).elim) ?_ ?_ ?_ ?_ ?_ ?_ ?_
        · exact nofun
        · rw [hpc, hp]
          cases rest <;> exact fun r _ hr => hr
        · exact nofun
        · exact fun q _ _ _ => trivial
        · rw [hpc, hp]
          rintro r ⟨hc, hr⟩
          rcases List.mem_cons.mp hr with rfl | hr
          · exact Or.inr (hq hc)
          · exact Or.inl ⟨hc, hr⟩
        · rintro _ _ _ ⟨⟩
          rw [hpar]
          exact h.target p status chan (q :: todo) hp
        · intro r hr htold
          rw [hpc, hp]
          cases rest with
          | some rest => exact htold.elim
          | none =>
            by_cases hrq : r = q
            · subst hrq
              right
              apply hq
              rw [h.target p status chan _ hp, ← hpar, hr]
            · left
              intro hmem
              exact (List.mem_cons.mp hmem).elim hrq htold
        · exact nofun
      simp only [St.next, hp] at ht
      split_ifs at ht with hqp
      · cases ht
        exact hpast s h rfl rfl rfl (fun _ hw => hnot q hw hqp)
      · cases ht
        apply hpast _ h.wake
        · rw [St.wakeup]
          split_ifs <;> rfl
        · rw [St.wakeup]
          split_ifs <;> rfl
        · rw [St.wakeup]
          split_ifs <;> rfl
        · rintro rfl
          rw [St.wakeup]
          split_ifs with hq
          · intro hw
            have := hw.2
            simp only [update_self] at this
            cases this
          · intro hw
            exact hq ⟨hw.2, h.chan q hw⟩
  | exitState status =>
    simp only [St.next, hp] at ht
    cases ht
    exact (h.exit hp).frame
  | waitScan havekids todo =>
    have hl := h.held (by rw [hp]; rfl)
    have hcr : (s.pc p).creates = none := by rw [hp]; rfl
    have hwake : ∀ q, ¬ (s.pc p).wakes q := by rw [hp]; exact fun _ => id
    cases todo with
    | nil =>
      simp only [St.next, hp] at ht
      split_ifs at ht with hk
      · cases ht
        exact h.rest (fun _ _ => rfl) rfl nofun (Or.inr (Or.inr hl)) hd hcr hwake
      · cases ht
        exact h.doze (fun _ hq => update_of_ne hq _ _) (Or.inr rfl) (Or.inr ⟨⟨havekids, hp⟩, rfl, rfl⟩)
          (fun _ => update_self _ _ _)
    | cons q todo =>
      have hscan : ∀ b, (s.parent q = some p → s.state q ≠ .zombie) → Inv init (s.goto p (.waitScan b todo)) := by
        intro b hq
        refine h.goto (fun _ _ => rfl) (fun _ => hl) (Or.inl rfl) ?_ hd hcr.symm (fun _ => rfl) ?_ ?_ ?_ ?_ ?_ ?_ ?_
        · exact nofun
        · exact fun q _ _ => trivial
        · exact nofun
        · rw [hp]
          intro r hr hz hmem
          rcases List.mem_cons.mp hmem with rfl | hmem
          · exact absurd hz (hq hr)
          · exact hmem
        · exact fun q hq => absurd hq (hwake q)
        · exact nofun
        · exact fun r _ hr => hr.elim
        · exact nofun
      simp only [St.next, hp] at ht
      split_ifs at ht with hq hz
      · cases ht
        exact (h.free (q := q) (fun _ hr => update_of_ne hr _ _) hp hz).frame
      · cases ht
        exact h.rest (fun _ _ => rfl) rfl (fun _ => hl) (Or.inl rfl) hd hcr hwake
      · cases ht
        exact hscan true (fun _ => hz)
      · cases ht
        exact hscan havekids (fun he => absurd he hq)
  | waitDone =>
    simp only [St.next, hp] at ht
    cases ht
    exact h.rest (fun _ _ => rfl) rfl nofun (Or.inr (Or.inr (h.held (by rw [hp]; rfl)))) hd (by rw [hp]; rfl)
      (by rw [hp]; exact fun _ => id)
  | waitSleep =>
    simp only [St.next, hp] at ht
    cases ht
    exact h.rest (fun _ hq => update_of_ne hq _ _) rfl nofun (Or.inl rfl) hd (by rw [hp]; rfl)
      (by rw [hp]; exact fun _ => id)
  | waitAgain =>
    simp only [St.next, hp] at ht
    have hl : s.waitLock = none := by
      by_contra hl
      simp only [St.acquire, if_neg hl] at ht
      cases ht
    exact h.scanAll hl hd (by rw [hp]; rfl) (by rw [hp]; exact fun _ => id) ht
  | kill pid todo =>
    have hcr : (s.pc p).creates = none := by rw [hp]; rfl
    have hwake : ∀ q, ¬ (s.pc p).wakes q := by rw [hp]; exact fun _ => id
    cases todo with
    | nil =>
      simp only [St.next, hp] at ht
      cases ht
      exact h.rest (fun _ _ => rfl) rfl nofun (Or.inl rfl) hd hcr hwake
    | cons q todo =>
      simp only [St.next, hp] at ht
      split_ifs at ht with hq
      · cases ht
        exact (h.kill (q := q)).rest (p := p) (fun _ _ => rfl) rfl nofun (Or.inl rfl) hd hcr hwake
      · cases ht
        exact h.rest (fun _ _ => rfl) rfl nofun (Or.inl rfl) hd hcr hwake

theorem of_step [DecidableEq Ch] {a : Action n Ch} (h : Inv init s) (ht : step init s a = some t) : Inv init t := by
  cases a with
  | run p =>
    simp only [step] at ht
    split_ifs at ht with hst
    cases ht
    apply h.restate _ (Or.inr rfl)
    intro hd
    have := (h.dead p).mp hd
    rw [hst] at this
    rcases this with he | he | he <;> cases he
  | yield p =>
    simp only [step] at ht
    split_ifs at ht with hst
    cases ht
    exact h.restate (h.alive hst) (Or.inl rfl)
  | sleep p ch =>
    cases hp : s.pc p with
    | free =>
      simp only [step, hp] at ht
      split_ifs at ht with hst
      cases ht
      exact h.doze (fun _ hq => update_of_ne hq _ _) (Or.inl rfl) (Or.inl ⟨hp, rfl, rfl⟩) nofun
    | _ =>
      simp only [step, hp] at ht
      cases ht
  | wake q ch =>
    cases ht
    exact h.wake
  | call p f =>
    cases hp : s.pc p with
    | free =>
      simp only [step, hp] at ht
      split_ifs at ht with hst
      exact h.of_call hst hp ht
    | _ =>
      simp only [step, hp] at ht
      cases ht
  | next p ok =>
    simp only [step] at ht
    split_ifs at ht with hst
    exact h.of_next hst ht

theorem of_userinit (init : Fin n) : Inv init (userinit Ch init) := by
  have hpc : ∀ p, (userinit Ch init).pc p = if p = init then .free else .dead := fun p => rfl
  have hst : ∀ p, (userinit Ch init).state p = if p = init then .runnable else .unused := fun p => rfl
  have hpar : ∀ p, (userinit Ch init).parent p = none := fun p => rfl
  have hfree : (Pc.free : Pc n).holds = false ∧ (Pc.dead : Pc n).holds = false ∧ (Pc.free : Pc n).creates = none ∧
      (Pc.dead : Pc n).creates = none ∧ (Pc.free : Pc n).exits = false := ⟨rfl, rfl, rfl, rfl, rfl⟩
  constructor <;> grind [St.waiting]

end Inv

end Xv6.Procs
