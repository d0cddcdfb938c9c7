import Xv6.Sched.Machine

namespace Xv6.Sched

open Kernel (ProcState)
open Function (update update_of_ne update_self update_apply)

variable {C : Type} {n : ℕ} {L Ch : Type} {s t : Core C n L Ch} {c : C} {p q : Fin n}

def Mode.held (pc : Fin n → Pc n L Ch) : Mode n → Option (Fin n)
  | .test p | .picked p | .switchIn p | .switched p | .unlock p => some p
  | .thread p => (pc p).held p
  | .scan => none

def Mode.proc : Mode n → Option (Fin n)
  | .switchIn p | .thread p | .switched p => some p
  | _ => none

def Pc.left : Pc n L Ch → Bool
  | .swtchSave _ | .swtchLoad _ => true
  | _ => false

def Pc.inYield : Pc n L Ch → Bool
  | .yieldState | .swtchSave .yield | .swtchLoad .yield | .parked .yield | .resumed .yield => true
  | _ => false

def Pc.creates : Pc n L Ch → Option (Fin n)
  | .forkCopy q | .forkParent q | .forkState q => some q
  | _ => none

def Core.view (s : Core C n L Ch) (p : Fin n) : Pc n L Ch := if (s.pc p).inYield then s.back p else s.pc p

structure Inv (s : Core C n L Ch) : Prop where
  lock : ∀ p c, s.lock p = some c ↔ (s.mode c).held s.pc = some p
  proc : ∀ c, s.proc c = (s.mode c).proc
  on : ∀ c p, s.mode c = .thread p → (s.pc p).isParked = false
  off : ∀ p, (s.pc p).isParked = false → ∃ c, s.mode c = .thread p
  one : ∀ c c' p, s.mode c = .thread p → s.mode c' = .thread p → c = c'
  run : ∀ p, (s.pc p).isParked = false → (s.state p = .running ↔ (s.pc p).left = false)
  coming : ∀ c p, s.mode c = .picked p ∨ s.mode c = .switchIn p → s.state p = .running ∧ (s.pc p).isParked = true
  going : ∀ c p, s.mode c = .switched p → (s.pc p).isParked = true
  chosen : ∀ p, (s.pc p).isParked = true → s.state p = .running → ∃ c, s.mode c = .picked p ∨ s.mode c = .switchIn p
  saved : ∀ p, (s.pc p).isParked = true → s.state p ≠ .unused → s.saved p = true
  leaving : ∀ p, (s.pc p).left = true → s.state p ≠ .unused
  stored : ∀ p k, s.pc p = .swtchLoad k → s.saved p = true
  kept : ∀ p, (s.pc p).inYield = true → (s.back p).held p = none ∧ (s.back p).isParked = false
  creating : ∀ p q, (s.view p).creates = some q → s.state q = .used
  creator : ∀ p p' q, (s.view p).creates = some q → (s.view p').creates = some q → p = p'

theorem Pc.held_of_left {d : Pc n L Ch} (h : d.left = true) : d.held p = some p := by
  cases d <;> first | rfl | cases h

theorem Pc.not_inYield {d : Pc n L Ch} (hheld : d.held p = none) (hpark : d.isParked = false) :
    d.inYield = false ∧ d.left = false := by
  cases d with
  | parked k => cases hpark
  | _ => first | exact ⟨rfl, rfl⟩ | cases hheld

theorem Pc.not_left_of_parked {d : Pc n L Ch} (h : d.isParked = true) : d.left = false := by
  cases d <;> first | rfl | cases h

theorem Mode.held_of_ne {m : Mode n} {pc : Fin n → Pc n L Ch} {d : Pc n L Ch} (h : m ≠ .thread p) :
    m.held (update pc p d) = m.held pc := by
  cases m with
  | thread r =>
    have hr : r ≠ p := fun he => h (he ▸ rfl)
    simp only [Mode.held, update_of_ne hr]
  | _ => rfl

theorem exists_mode [DecidableEq C] {mode : C → Mode n} {m x : Mode n} (h : ∃ c', mode c' = x) (hc : mode c ≠ x) :
    ∃ c', update mode c m c' = x := by
  obtain ⟨c', hc'⟩ := h
  refine ⟨c', (update_of_ne ?_ _ _).trans hc'⟩
  rintro rfl
  exact hc hc'

theorem exists_chosen [DecidableEq C] {mode : C → Mode n} {m : Mode n} (h : ∃ c', mode c' = .picked p ∨ mode c' = .switchIn p)
    (hc : mode c ≠ .picked p ∧ mode c ≠ .switchIn p) :
    ∃ c', update mode c m c' = .picked p ∨ update mode c m c' = .switchIn p := by
  obtain ⟨c', hc' | hc'⟩ := h
  · obtain ⟨c₁, h₁⟩ := exists_mode (m := m) ⟨c', hc'⟩ hc.1
    exact ⟨c₁, Or.inl h₁⟩
  · obtain ⟨c₁, h₁⟩ := exists_mode (m := m) ⟨c', hc'⟩ hc.2
    exact ⟨c₁, Or.inr h₁⟩

theorem lock_of_thread {lock lock' : Fin n → Option C} {pc : Fin n → Pc n L Ch} {mode : C → Mode n} {d : Pc n L Ch}
    (h : ∀ r c', lock r = some c' ↔ (mode c').held pc = some r) (hm : mode c = .thread p)
    (hone : ∀ c', mode c' = .thread p → c' = c) (hother : ∀ r c', c' ≠ c → (lock' r = some c' ↔ lock r = some c'))
    (hself : ∀ r, lock' r = some c ↔ d.held p = some r) (r : Fin n) (c' : C) :
    lock' r = some c' ↔ (mode c').held (update pc p d) = some r := by
  by_cases hc : c' = c
  · subst hc
    rw [hself, hm]
    simp only [Mode.held, update_self]
  · rw [hother r c' hc, h, Mode.held_of_ne (fun he => hc (hone c' he))]

namespace Inv

theorem parked (h : Inv s) (hm : s.mode c = .thread p) (hh : (s.pc p).held p = some q)
    (hleft : (s.pc p).left = false) (hst : s.state q ≠ .running) : (s.pc q).isParked = true ∧ q ≠ p := by
  have hqp : q ≠ p := by
    rintro rfl
    exact hst ((h.run q (h.on c q hm)).mpr hleft)
  refine ⟨?_, hqp⟩
  by_contra hq
  rw [Bool.not_eq_true] at hq
  obtain ⟨c', hc'⟩ := h.off q hq
  have hl : (s.pc q).left = true := by
    by_contra hl
    exact hst ((h.run q hq).mpr (by simpa using hl))
  have hlock' := (h.lock q c').mpr (by rw [hc']; exact Pc.held_of_left hl)
  have hlock := (h.lock q c).mpr (by rw [hm]; exact hh)
  rw [hlock] at hlock'
  cases hlock'
  rw [hm] at hc'
  cases hc'
  exact hqp rfl

theorem held_self (h : Inv s) (hm : s.mode c = .thread p) (r : Fin n) :
    s.lock r = some c ↔ (s.pc p).held p = some r := by
  rw [h.lock, hm]
  rfl

theorem only (h : Inv s) (hm : s.mode c = .thread p) (c' : C) (he : s.mode c' = .thread p) : c' = c :=
  h.one c' c p he hm

section Thread

variable {d : Pc n L Ch} {st : ProcState} {k : Kont L Ch} {lock' : Fin n → Option C}

theorem move (h : Inv s) (hm : s.mode c = .thread p) (hother : ∀ r c', c' ≠ c → (lock' r = some c' ↔ s.lock r = some c'))
    (hself : ∀ r, lock' r = some c ↔ d.held p = some r) (hleft : (s.pc p).left = false) (hleft' : d.left = false)
    (hpark : d.isParked = false) (hy : d.inYield = false) (hcr : d.creates = none ∨ d.creates = (s.view p).creates) :
    Inv { s with lock := lock', pc := update s.pc p d } := by
  have hlock' := lock_of_thread h.lock hm (h.only hm) hother hself
  obtain ⟨-, hproc, hon, hoff, hone, hrun, hcoming, hgoing, hchosen, hsaved, hleaving, hstored, hkept, hcreating, hcreator⟩ := h
  have hp := hon c p hm
  simp only [Core.view] at hcreating hcreator hcr
  constructor <;> simp only [Core.view]
  · exact hlock'
  · exact hproc
  · grind [update_apply]
  · grind [update_apply]
  · exact hone
  · grind [update_apply]
  · grind [update_apply]
  · grind [update_apply]
  · grind [update_apply]
  · grind [update_apply]
  · grind [update_apply]
  · grind [update_apply, Pc.left]
  · grind [update_apply]
  · grind [update_apply]
  · grind [update_apply]

theorem enterYield (h : Inv s) (hm : s.mode c = .thread p) (hl : s.lock p = none) (hheld : (s.pc p).held p = none) :
    Inv { s with
      lock := update s.lock p (some c)
      pc := update s.pc p .yieldState
      back := update s.back p (s.pc p) } := by
  have hself := h.held_self hm
  have hlock' : ∀ r c', update s.lock p (some c) r = some c' ↔
      (s.mode c').held (update s.pc p .yieldState) = some r := by
    apply lock_of_thread h.lock hm (h.only hm)
    · grind [update_apply]
    · grind [update_apply, Pc.held]
  obtain ⟨hy, hleft⟩ := Pc.not_inYield hheld (h.on c p hm)
  obtain ⟨-, hproc, hon, hoff, hone, hrun, hcoming, hgoing, hchosen, hsaved, hleaving, hstored, hkept, hcreating, hcreator⟩ := h
  have hp := hon c p hm
  have hview : ∀ r, (if (update s.pc p .yieldState r).inYield = true then update s.back p (s.pc p) r
      else update s.pc p .yieldState r) = s.view r := by
    intro r
    by_cases hr : r = p
    · subst hr
      rw [update_self, update_self, Core.view, hy]
      rfl
    · simp only [update_of_ne hr, Core.view]
  constructor
  · exact hlock'
  · exact hproc
  · grind [update_apply, Pc.isParked]
  · grind [update_apply, Pc.isParked]
  · exact hone
  · grind [update_apply, Pc.isParked, Pc.left]
  · grind [update_apply]
  · grind [update_apply]
  · grind [update_apply, Pc.isParked]
  · grind [update_apply, Pc.isParked]
  · grind [update_apply, Pc.left]
  · grind [update_apply]
  · grind [update_apply]
  · intro r q hr
    exact hcreating r q (by rw [← hview r]; exact hr)
  · intro r r' q hr hr'
    exact hcreator r r' q (by rw [← hview r]; exact hr) (by rw [← hview r']; exact hr')

theorem leaveYield (h : Inv s) (hm : s.mode c = .thread p) (hp : s.pc p = .resumed .yield) :
    Inv { s with lock := update s.lock p none, pc := update s.pc p (s.back p) } := by
  have hself := h.held_self hm
  obtain ⟨hheld, hpark⟩ := h.kept p (by rw [hp]; rfl)
  obtain ⟨hy, hleft'⟩ := Pc.not_inYield hheld hpark
  have hin : (s.pc p).inYield = true := by rw [hp]; rfl
  apply h.move hm _ _ (by rw [hp]; rfl) hleft' hpark hy
  · right
    simp only [Core.view, hin, ↓reduceIte]
  · grind [update_apply, Pc.held]
  · grind [update_apply, Pc.held]

theorem leave (h : Inv s) (hm : s.mode c = .thread p) (hheld : (s.pc p).held p = some p)
    (hleft : (s.pc p).left = false) (hst : st = .runnable ∨ st = .sleeping ∨ st = .zombie)
    (hk : k = .yield → (s.pc p).inYield = true) :
    Inv { s with state := update s.state p st, pc := update s.pc p (.swtchSave k) } := by
  have hself := h.held_self hm
  have hlock' : ∀ r c', s.lock r = some c' ↔ (s.mode c').held (update s.pc p (.swtchSave k)) = some r := by
    apply lock_of_thread h.lock hm (h.only hm)
    · exact fun _ _ _ => Iff.rfl
    · intro r
      rw [hself, hheld]
      rfl
  obtain ⟨-, hproc, hon, hoff, hone, hrun, hcoming, hgoing, hchosen, hsaved, hleaving, hstored, hkept, hcreating, hcreator⟩ := h
  have hp := hon c p hm
  have hrunning := (hrun p hp).mpr hleft
  have hy : (Pc.swtchSave k : Pc n L Ch).inYield = true → (s.pc p).inYield = true := by
    intro hy
    apply hk
    cases k <;> first | rfl | cases hy
  have hview : ∀ r q, ((if (update s.pc p (.swtchSave k) r).inYield = true then s.back r
      else update s.pc p (.swtchSave k) r) : Pc n L Ch).creates = some q → (s.view r).creates = some q := by
    intro r q hq
    by_cases hr : r = p
    · subst hr
      rw [update_self] at hq
      split_ifs at hq with hin
      · rw [Core.view, if_pos (hy hin)]
        exact hq
      · cases hq
    · rw [update_of_ne hr] at hq
      exact hq
  have hused : ∀ r q, (s.view r).creates = some q → q ≠ p := by
    rintro r q hq rfl
    rw [hcreating r q hq] at hrunning
    cases hrunning
  constructor
  · exact hlock'
  · exact hproc
  · grind [update_apply, Pc.isParked]
  · grind [update_apply, Pc.isParked]
  · exact hone
  · grind [update_apply, Pc.isParked, Pc.left]
  · grind [update_apply]
  · grind [update_apply]
  · grind [update_apply, Pc.isParked]
  · grind [update_apply, Pc.isParked]
  · grind [update_apply, Pc.left]
  · grind [update_apply]
  · grind [update_apply]
  · intro r q hq
    have hr := hview r q hq
    exact (update_of_ne (hused r q hr) _ _).trans (hcreating r q hr)
  · exact fun r r' q hq hq' => hcreator r r' q (hview r q hq) (hview r' q hq')

theorem save (h : Inv s) (hm : s.mode c = .thread p) (hp : s.pc p = .swtchSave k) :
    Inv { s with pc := update s.pc p (.swtchLoad k), saved := update s.saved p true } := by
  have hself := h.held_self hm
  have hlock' : ∀ r c', s.lock r = some c' ↔ (s.mode c').held (update s.pc p (.swtchLoad k)) = some r := by
    apply lock_of_thread h.lock hm (h.only hm)
    · exact fun _ _ _ => Iff.rfl
    · intro r
      rw [hself, hp]
      rfl
  obtain ⟨-, hproc, hon, hoff, hone, hrun, hcoming, hgoing, hchosen, hsaved, hleaving, hstored, hkept, hcreating, hcreator⟩ := h
  have hin : (Pc.swtchLoad k : Pc n L Ch).inYield = (s.pc p).inYield := by
    rw [hp]
    cases k <;> rfl
  have hview : ∀ r, ((if (update s.pc p (.swtchLoad k) r).inYield = true then s.back r
      else update s.pc p (.swtchLoad k) r) : Pc n L Ch).creates = (s.view r).creates := by
    intro r
    by_cases hr : r = p
    · subst hr
      rw [update_self, Core.view, hin, hp]
      split_ifs <;> rfl
    · rw [update_of_ne hr, Core.view]
  constructor
  · exact hlock'
  · exact hproc
  · grind [update_apply, Pc.isParked]
  · grind [update_apply, Pc.isParked]
  · exact hone
  · grind [update_apply, Pc.isParked, Pc.left]
  · grind [update_apply, Pc.isParked]
  · grind [update_apply, Pc.isParked]
  · grind [update_apply, Pc.isParked]
  · grind [update_apply, Pc.isParked]
  · grind [update_apply, Pc.left]
  · grind [update_apply]
  · grind [update_apply]
  · intro r q hr
    exact hcreating r q (by rw [← hview r]; exact hr)
  · intro r r' q hr hr'
    exact hcreator r r' q (by rw [← hview r]; exact hr) (by rw [← hview r']; exact hr')

theorem park [DecidableEq C] (h : Inv s) (hm : s.mode c = .thread p) (hp : s.pc p = .swtchLoad k) :
    Inv { s with pc := update s.pc p (.parked k), mode := update s.mode c (.switched p) } := by
  have hself := h.held_self hm
  have honly := h.only hm
  have hlock' : ∀ r c', s.lock r = some c' ↔
      (update s.mode c (.switched p) c').held (update s.pc p (.parked k)) = some r := by
    intro r c'
    by_cases hc : c' = c
    · subst hc
      rw [hself, hp, update_self]
      rfl
    · rw [update_of_ne hc, h.lock, Mode.held_of_ne (fun he => hc (honly c' he))]
  obtain ⟨-, hproc, hon, hoff, hone, hrun, hcoming, hgoing, hchosen, hsaved, hleaving, hstored, hkept, hcreating, hcreator⟩ := h
  have hin : (Pc.parked k : Pc n L Ch).inYield = (s.pc p).inYield := by
    rw [hp]
    cases k <;> rfl
  have hview : ∀ r, ((if (update s.pc p (.parked k) r).inYield = true then s.back r
      else update s.pc p (.parked k) r) : Pc n L Ch).creates = (s.view r).creates := by
    intro r
    by_cases hr : r = p
    · subst hr
      rw [update_self, Core.view, hin, hp]
      split_ifs <;> rfl
    · rw [update_of_ne hr, Core.view]
  have hrunning : s.state p ≠ .running := by
    intro he
    have := (hrun p (hon c p hm)).mp he
    rw [hp] at this
    cases this
  have hun := hleaving p (by rw [hp]; rfl)
  constructor
  · exact hlock'
  · intro c'
    by_cases hc : c' = c
    · subst hc
      simp only [update_self, hproc, hm, Mode.proc]
    · simp only [update_of_ne hc, hproc]
  · grind [update_apply, Pc.isParked]
  · intro r hr
    dsimp only at hr ⊢
    have hrp : r ≠ p := by
      rintro rfl
      rw [update_self] at hr
      cases hr
    rw [update_of_ne hrp] at hr
    exact exists_mode (hoff r hr) (by rw [hm]; exact fun he => hrp (Mode.thread.inj he).symm)
  · grind [update_apply]
  · grind [update_apply, Pc.isParked, Pc.left]
  · grind [update_apply, Pc.isParked]
  · grind [update_apply, Pc.isParked]
  · intro r hr hst
    dsimp only at hr hst ⊢
    have hrp : r ≠ p := by
      rintro rfl
      exact hrunning hst
    rw [update_of_ne hrp] at hr
    exact exists_chosen (hchosen r hr hst) (by rw [hm]; exact ⟨nofun, nofun⟩)
  · grind [update_apply, Pc.isParked]
  · grind [update_apply, Pc.left]
  · grind [update_apply]
  · grind [update_apply]
  · intro r q hr
    exact hcreating r q (by rw [← hview r]; exact hr)
  · intro r r' q hr hr'
    exact hcreator r r' q (by rw [← hview r]; exact hr) (by rw [← hview r']; exact hr')

theorem change (h : Inv s) (hm : s.mode c = .thread p) (hheld : (s.pc p).held p = some q)
    (hd : d.held p = some q) (hleft : (s.pc p).left = false) (hleft' : d.left = false) (hpark : d.isParked = false)
    (hy : d.inYield = false) (hcr : d.creates = none) (hst : st ≠ .running) (hq : s.state q ≠ .running)
    (hun : s.state q = .unused → st = .unused) (hmine : ∀ r, (s.view r).creates = some q → r = p) :
    Inv { s with state := update s.state q st, pc := update s.pc p d } := by
  obtain ⟨hparked, hqp⟩ := h.parked hm hheld hleft hq
  have hself := h.held_self hm
  have hlock' : ∀ r c', s.lock r = some c' ↔ (s.mode c').held (update s.pc p d) = some r := by
    apply lock_of_thread h.lock hm (h.only hm)
    · exact fun _ _ _ => Iff.rfl
    · intro r
      rw [hself, hheld, hd]
  obtain ⟨-, hproc, hon, hoff, hone, hrun, hcoming, hgoing, hchosen, hsaved, hleaving, hstored, hkept, hcreating, hcreator⟩ := h
  have hp := hon c p hm
  have hql : (s.pc q).left = false := Pc.not_left_of_parked hparked
  simp only [Core.view] at hcreating hcreator hmine
  constructor <;> simp only [Core.view]
  · exact hlock'
  · exact hproc
  · grind [update_apply]
  · grind [update_apply]
  · exact hone
  · grind [update_apply]
  · grind [update_apply]
  · grind [update_apply]
  · grind [update_apply]
  · grind [update_apply]
  · grind [update_apply]
  · grind [update_apply, Pc.left]
  · grind [update_apply]
  · grind [update_apply]
  · grind [update_apply]

theorem alloc (h : Inv s) (hm : s.mode c = .thread p) (hheld : (s.pc p).held p = some q)
    (hleft : (s.pc p).left = false) (hq : s.state q = .unused) :
    Inv { s with
      state := update s.state q .used
      saved := update s.saved q true
      pc := update (update s.pc q (.parked .fork)) p (.forkCopy q) } := by
  obtain ⟨hparked, hqp⟩ := h.parked hm hheld hleft (by rw [hq]; exact nofun)
  have hself := h.held_self hm
  have hlock' : ∀ r c', s.lock r = some c' ↔
      (s.mode c').held (update (update s.pc q (.parked .fork)) p (.forkCopy q)) = some r := by
    have hq' : ∀ r c', s.lock r = some c' ↔ (s.mode c').held (update s.pc q (.parked .fork)) = some r := by
      intro r c'
      rw [h.lock]
      by_cases he : s.mode c' = .thread q
      · have := h.on c' q he
        rw [hparked] at this
        cases this
      · rw [Mode.held_of_ne he]
    apply lock_of_thread hq' hm (h.only hm)
    · exact fun _ _ _ => Iff.rfl
    · intro r
      rw [hself, hheld]
      rfl
  obtain ⟨-, hproc, hon, hoff, hone, hrun, hcoming, hgoing, hchosen, hsaved, hleaving, hstored, hkept, hcreating, hcreator⟩ := h
  have hp := hon c p hm
  have hfork : (Pc.forkCopy q : Pc n L Ch).creates = some q ∧ (Pc.forkCopy q : Pc n L Ch).inYield = false ∧
      (Pc.forkCopy q : Pc n L Ch).left = false ∧ (Pc.forkCopy q : Pc n L Ch).isParked = false := ⟨rfl, rfl, rfl, rfl⟩
  have hnew : (Pc.parked .fork : Pc n L Ch).creates = none ∧ (Pc.parked .fork : Pc n L Ch).inYield = false ∧
      (Pc.parked .fork : Pc n L Ch).left = false ∧ (Pc.parked .fork : Pc n L Ch).isParked = true := ⟨rfl, rfl, rfl, rfl⟩
  simp only [Core.view] at hcreating hcreator
  constructor <;> simp only [Core.view]
  · exact hlock'
  · exact hproc
  · grind [update_apply]
  · grind [update_apply]
  · exact hone
  · grind [update_apply]
  · grind [update_apply]
  · grind [update_apply]
  · grind [update_apply]
  · grind [update_apply]
  · grind [update_apply]
  · grind [update_apply, Pc.left]
  · grind [update_apply]
  · grind [update_apply]
  · grind [update_apply]

end Thread

section Scheduler

variable [DecidableEq C]

theorem lock_of_scheduler {lock' : Fin n → Option C} {m : Mode n} (h : Inv s)
    (hm : ∀ r, s.mode c ≠ .thread r) (hother : ∀ r c', c' ≠ c → (lock' r = some c' ↔ s.lock r = some c'))
    (hself : ∀ r, lock' r = some c ↔ m.held s.pc = some r) (r : Fin n) (c' : C) :
    lock' r = some c' ↔ (update s.mode c m c').held s.pc = some r := by
  by_cases hc : c' = c
  · subst hc
    rw [hself, update_self]
  · rw [hother r c' hc, update_of_ne hc, h.lock]

theorem pick (h : Inv s) (hm : s.mode c = .scan) (hl : s.lock p = none) :
    Inv { s with lock := update s.lock p (some c), mode := update s.mode c (.test p) } := by
  have hself : ∀ r, s.lock r ≠ some c := by
    intro r hr
    rw [h.lock, hm] at hr
    cases hr
  have hlock' : ∀ r c', update s.lock p (some c) r = some c' ↔
      (update s.mode c (.test p) c').held s.pc = some r := by
    apply h.lock_of_scheduler (fun r => by rw [hm]; exact nofun)
    · grind [update_apply]
    · grind [update_apply, Mode.held]
  obtain ⟨-, hproc, hon, hoff, hone, hrun, hcoming, hgoing, hchosen, hsaved, hleaving, hstored, hkept, hcreating, hcreator⟩ := h
  refine ⟨hlock', ?_, ?_, ?_, ?_, hrun, ?_, ?_, ?_, hsaved, hleaving, hstored, hkept, hcreating, hcreator⟩
  · grind [update_apply, Mode.proc]
  · grind [update_apply]
  · exact fun r hr => exists_mode (hoff r hr) (by rw [hm]; exact nofun)
  · grind [update_apply]
  · grind [update_apply]
  · grind [update_apply]
  · exact fun r hr hst => exists_chosen (hchosen r hr hst) (by rw [hm]; exact ⟨nofun, nofun⟩)

theorem choose (h : Inv s) (hm : s.mode c = .test p) (hst : s.state p = .runnable) :
    Inv { s with state := update s.state p .running, mode := update s.mode c (.picked p) } := by
  have hlock := (h.lock p c).mpr (by rw [hm]; rfl)
  have hlock' : ∀ r c', s.lock r = some c' ↔ (update s.mode c (.picked p) c').held s.pc = some r := by
    apply h.lock_of_scheduler (fun r => by rw [hm]; exact nofun)
    · exact fun _ _ _ => Iff.rfl
    · intro r
      rw [h.lock, hm]
      rfl
  -- a runnable process whose lock a scheduler holds is on no CPU
  have hparked : (s.pc p).isParked = true := by
    by_contra hq
    rw [Bool.not_eq_true] at hq
    obtain ⟨c', hc'⟩ := h.off p hq
    have hl : (s.pc p).left = true := by
      by_contra hl
      rw [(h.run p hq).mpr (by simpa using hl)] at hst
      cases hst
    have hlock' := (h.lock p c').mpr (by rw [hc']; exact Pc.held_of_left hl)
    rw [hlock] at hlock'
    cases hlock'
    rw [hm] at hc'
    cases hc'
  obtain ⟨-, hproc, hon, hoff, hone, hrun, hcoming, hgoing, hchosen, hsaved, hleaving, hstored, hkept, hcreating, hcreator⟩ := h
  refine ⟨hlock', ?_, ?_, ?_, ?_, ?_, ?_, ?_, ?_, ?_, ?_, hstored, hkept, ?_, hcreator⟩
  · grind [update_apply, Mode.proc]
  · grind [update_apply]
  · exact fun r hr => exists_mode (hoff r hr) (by rw [hm]; exact nofun)
  · grind [update_apply]
  · grind [update_apply]
  · grind [update_apply]
  · grind [update_apply]
  · intro r hr hst'
    dsimp only at hr hst' ⊢
    by_cases hrp : r = p
    · exact ⟨c, Or.inl (by rw [update_self, hrp])⟩
    · apply exists_chosen (hchosen r hr ((update_of_ne hrp _ _).symm.trans hst'))
      rw [hm]
      exact ⟨nofun, nofun⟩
  · grind [update_apply]
  · grind [update_apply]
  · intro r q hr
    have := hcreating r q hr
    have hqp : q ≠ p := by
      rintro rfl
      rw [this] at hst
      cases hst
    exact (update_of_ne hqp _ _).trans this

theorem pass {o : Option (Fin n)} {m : Mode n} (h : Inv s) (hold : s.mode c = .test p ∨ s.mode c = .picked p ∨ s.mode c = .switched p)
    (hnew : (s.mode c = .picked p ∧ m = .switchIn p ∧ o = some p) ∨ (s.mode c ≠ .picked p ∧ m = .unlock p ∧ o = none)) :
    Inv { s with proc := update s.proc c o, mode := update s.mode c m } := by
  have hlock' : ∀ r c', s.lock r = some c' ↔ (update s.mode c m c').held s.pc = some r := by
    apply h.lock_of_scheduler
    · rcases hold with he | he | he <;> rw [he] <;> exact nofun
    · exact fun _ _ _ => Iff.rfl
    · intro r
      rw [h.lock]
      rcases hold with he | he | he <;> rw [he] <;> rcases hnew with ⟨-, rfl, -⟩ | ⟨-, rfl, -⟩ <;> rfl
  obtain ⟨-, hproc, hon, hoff, hone, hrun, hcoming, hgoing, hchosen, hsaved, hleaving, hstored, hkept, hcreating, hcreator⟩ := h
  refine ⟨hlock', ?_, ?_, ?_, ?_, hrun, ?_, ?_, ?_, hsaved, hleaving, hstored, hkept, hcreating, hcreator⟩
  · grind [update_apply, Mode.proc]
  · grind [update_apply]
  · intro r hr
    apply exists_mode (hoff r hr)
    rcases hold with he | he | he <;> rw [he] <;> exact nofun
  · grind [update_apply]
  · grind [update_apply]
  · grind [update_apply]
  · intro r hr hst
    dsimp only at hr hst ⊢
    by_cases hrp : s.mode c = .picked p ∧ r = p
    · obtain ⟨-, rfl, -⟩ | ⟨hn, -, -⟩ := hnew
      · exact ⟨c, Or.inr (by rw [update_self, hrp.2])⟩
      · exact absurd hrp.1 hn
    · apply exists_chosen (hchosen r hr hst)
      rcases hold with he | he | he
      · rw [he]
        exact ⟨nofun, nofun⟩
      · rw [he]
        exact ⟨fun hpr => hrp ⟨he, (Mode.picked.inj hpr).symm⟩, nofun⟩
      · rw [he]
        exact ⟨nofun, nofun⟩

theorem resume {k : Kont L Ch} (h : Inv s) (hm : s.mode c = .switchIn p) (hp : s.pc p = .parked k) :
    Inv { s with
      saved := update s.saved p false
      pc := update s.pc p (.resumed k)
      mode := update s.mode c (.thread p) } := by
  have hlock := h.lock
  have hnot : ∀ c', s.mode c' ≠ .thread p := by
    intro c' hc'
    have := h.on c' p hc'
    rw [hp] at this
    cases this
  have hlock' : ∀ r c', s.lock r = some c' ↔
      (update s.mode c (.thread p) c').held (update s.pc p (.resumed k)) = some r := by
    intro r c'
    by_cases hc : c' = c
    · subst hc
      rw [hlock, hm, update_self]
      simp only [Mode.held, update_self, Pc.held]
    · rw [update_of_ne hc, hlock, Mode.held_of_ne (hnot c')]
  obtain ⟨-, hproc, hon, hoff, hone, hrun, hcoming, hgoing, hchosen, hsaved, hleaving, hstored, hkept, hcreating, hcreator⟩ := h
  have hin : (Pc.resumed k : Pc n L Ch).inYield = (s.pc p).inYield := by
    rw [hp]
    cases k <;> rfl
  have hview : ∀ r, ((if (update s.pc p (.resumed k) r).inYield = true then s.back r
      else update s.pc p (.resumed k) r) : Pc n L Ch).creates = (s.view r).creates := by
    intro r
    by_cases hr : r = p
    · subst hr
      rw [update_self, Core.view, hin, hp]
      split_ifs <;> rfl
    · rw [update_of_ne hr, Core.view]
  have hlockp := (hlock p c).mpr (by rw [hm]; rfl)
  have honly : ∀ c', s.mode c' = .picked p ∨ s.mode c' = .switchIn p ∨ s.mode c' = .switched p → c' = c := by
    intro c' hc'
    have : s.lock p = some c' := by
      rw [hlock]
      rcases hc' with he | he | he <;> rw [he] <;> rfl
    rw [hlockp] at this
    cases this
    rfl
  have hstate := (hcoming c p (Or.inr hm)).1
  constructor
  · exact hlock'
  · grind [update_apply, Mode.proc]
  · grind [update_apply, Pc.isParked]
  · intro r hr
    dsimp only at hr ⊢
    by_cases hrp : r = p
    · exact ⟨c, by rw [update_self, hrp]⟩
    · rw [update_of_ne hrp] at hr
      exact exists_mode (hoff r hr) (by rw [hm]; exact nofun)
  · grind [update_apply]
  · grind [update_apply, Pc.isParked, Pc.left]
  · grind [update_apply, Pc.isParked]
  · grind [update_apply, Pc.isParked]
  · intro r hr hst
    dsimp only at hr hst ⊢
    have hrp : r ≠ p := by
      rintro rfl
      rw [update_self] at hr
      cases hr
    rw [update_of_ne hrp] at hr
    apply exists_chosen (hchosen r hr hst)
    rw [hm]
    exact ⟨nofun, fun he => hrp (Mode.switchIn.inj he).symm⟩
  · grind [update_apply, Pc.isParked]
  · grind [update_apply, Pc.left]
  · grind [update_apply]
  · grind [update_apply]
  · intro r q hr
    exact hcreating r q (by rw [← hview r]; exact hr)
  · intro r r' q hr hr'
    exact hcreator r r' q (by rw [← hview r]; exact hr) (by rw [← hview r']; exact hr')

theorem unlock (h : Inv s) (hm : s.mode c = .unlock p) :
    Inv { s with lock := update s.lock p none, mode := update s.mode c .scan } := by
  have hself : ∀ r, s.lock r = some c ↔ r = p := by
    intro r
    rw [h.lock, hm]
    exact ⟨fun he => (Option.some_inj.mp he).symm, fun he => by rw [he]; rfl⟩
  have hlock' : ∀ r c', update s.lock p none r = some c' ↔
      (update s.mode c .scan c').held s.pc = some r := by
    apply h.lock_of_scheduler (fun r => by rw [hm]; exact nofun)
    · grind [update_apply]
    · grind [update_apply, Mode.held]
  obtain ⟨-, hproc, hon, hoff, hone, hrun, hcoming, hgoing, hchosen, hsaved, hleaving, hstored, hkept, hcreating, hcreator⟩ := h
  refine ⟨hlock', ?_, ?_, ?_, ?_, hrun, ?_, ?_, ?_, hsaved, hleaving, hstored, hkept, hcreating, hcreator⟩
  · grind [update_apply, Mode.proc]
  · grind [update_apply]
  · exact fun r hr => exists_mode (hoff r hr) (by rw [hm]; exact nofun)
  · grind [update_apply]
  · grind [update_apply]
  · grind [update_apply]
  · exact fun r hr hst => exists_chosen (hchosen r hr hst) (by rw [hm]; exact ⟨nofun, nofun⟩)

end Scheduler

end Inv

end Xv6.Sched
