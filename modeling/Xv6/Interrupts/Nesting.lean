import Mathlib.Data.List.Nodup
import Xv6.Interrupts.Machine

set_option linter.unusedSectionVars false

namespace Xv6.Interrupts

open Lib.Transition
open Function (update update_of_ne update_self update_apply update_idem)

variable {C T L : Type}

structure Cpu.Ok (x : Cpu T L) : Prop where
  count : x.noff = x.pushed + x.held.length + x.spin.isSome.toNat
  off : 0 < x.noff → x.ie = false
  nodup : x.held.Nodup
  pend : ∀ q, x.pend = some q → x.ie = q.old
  apart : ∀ q, x.pend = some q → x.spin = none

structure Frame.Ok (f : Frame T L) : Prop where
  ie : f.ie = true
  pend : ∀ q, f.pend = some q → q.old = true

structure Inv (s : St C T L) : Prop where
  ok : ∀ c, (s.cpu c).Ok
  held : ∀ c lk, lk ∈ (s.cpu c).held ↔ s.lock lk = some c
  flag : ∀ c p, (s.cpu c).cur = some p → 0 < (s.cpu c).noff → s.first p = false → (s.cpu c).intena = s.outer p
  saved : ∀ p b, s.ctx p = .saved b → s.first p = false → b = s.outer p
  fresh : ∀ p, s.ctx p = .fresh → s.first p = true
  running : ∀ c p, (s.cpu c).cur = some p → s.ctx p = .running
  alone : ∀ c c' p, (s.cpu c).cur = some p → (s.cpu c').cur = some p → c = c'
  frames : ∀ w, ∀ f ∈ s.traps w, f.Ok

theorem inv_boot : Inv (boot C T L) where
  ok _ := ⟨rfl, fun h => absurd h (Nat.lt_irrefl 0), List.nodup_nil, fun _ h => (by cases h), fun _ h => (by cases h)⟩
  held _ _ := iff_of_false List.not_mem_nil (Option.some_ne_none _).symm
  flag _ _ h := by cases h
  saved _ _ h := by cases h
  fresh _ _ := rfl
  running _ _ h := by cases h
  alone _ _ _ h := by cases h
  frames _ f hf := by cases hf

variable [DecidableEq C] [DecidableEq T] {s t : St C T L} {c : C} {p : T} {x : Cpu T L}

theorem mark_apply (s : St C T L) (c : C) (f : T → Bool) (b : Bool) (p : T) :
    s.mark c f b p = if (s.cpu c).cur = some p then b else f p := by
  unfold St.mark
  cases hcur : (s.cpu c).cur with
  | none => rfl
  | some q =>
    dsimp only
    rw [update_apply]
    by_cases hp : p = q
    · rw [if_pos hp, if_pos (by rw [hp])]
    · rw [if_neg hp, if_neg (fun h => hp (Option.some.inj h).symm)]

theorem mark_self {f : T → Bool} {b : Bool} (h : (s.cpu c).cur = some p) : s.mark c f b p = b := by
  rw [mark_apply, if_pos h]

theorem mark_of_ne {f : T → Bool} {b : Bool} (h : (s.cpu c).cur ≠ some p) : s.mark c f b p = f p := by
  rw [mark_apply, if_neg h]

theorem cpu_setCpu (s : St C T L) (c : C) (x : Cpu T L) : (s.setCpu c x).cpu c = x := update_self _ _ _

theorem cpu_setCpu_of_ne {c' : C} (s : St C T L) (x : Cpu T L) (h : c' ≠ c) : (s.setCpu c x).cpu c' = s.cpu c' :=
  update_of_ne h _ _

namespace Inv

theorem step_on (h : Inv s) (hcpu : t.cpu = update s.cpu c x) (hok : x.Ok) (hcur : x.cur = (s.cpu c).cur) (hctx : t.ctx = s.ctx)
    (hheld : ∀ lk, lk ∈ x.held ↔ t.lock lk = some c) (hlock : ∀ c' lk, c' ≠ c → (s.lock lk = some c' ↔ t.lock lk = some c'))
    (hmine : ∀ p, (s.cpu c).cur = some p → 0 < x.noff → t.first p = false → x.intena = t.outer p)
    (hghost : ∀ p, (s.cpu c).cur ≠ some p → t.outer p = s.outer p ∧ t.first p = s.first p)
    (hframes : ∀ w, ∀ f ∈ t.traps w, f.Ok) : Inv t := by
  have hx : t.cpu c = x := by rw [hcpu, update_self]
  have hother : ∀ c', c' ≠ c → t.cpu c' = s.cpu c' := by
    intro c' hc
    rw [hcpu, update_of_ne hc]
  have hcurs : ∀ c', (t.cpu c').cur = (s.cpu c').cur := by
    intro c'
    by_cases hc : c' = c
    · rw [hc, hx, hcur]
    · rw [hother c' hc]
  constructor
  · intro c'
    by_cases hc : c' = c
    · rw [hc, hx]
      exact hok
    · rw [hother c' hc]
      exact h.ok c'
  · intro c' lk
    by_cases hc : c' = c
    · rw [hc, hx]
      exact hheld lk
    · rw [hother c' hc]
      exact (h.held c' lk).trans (hlock c' lk hc)
  · intro c' p hp hnoff hfirst
    rw [hcurs] at hp
    by_cases hc : c' = c
    · rw [hc] at hp
      rw [hc, hx] at hnoff ⊢
      exact hmine p hp hnoff hfirst
    · have hnot : (s.cpu c).cur ≠ some p := fun hp' => hc (h.alone c' c p hp hp')
      rw [hother c' hc] at hnoff ⊢
      rw [(hghost p hnot).1]
      rw [(hghost p hnot).2] at hfirst
      exact h.flag c' p hp hnoff hfirst
  · intro p b hp hfirst
    rw [hctx] at hp
    have hnot : (s.cpu c).cur ≠ some p := by
      intro hp'
      rw [h.running c p hp'] at hp
      cases hp
    rw [(hghost p hnot).1]
    rw [(hghost p hnot).2] at hfirst
    exact h.saved p b hp hfirst
  · intro p hp
    rw [hctx] at hp
    have hnot : (s.cpu c).cur ≠ some p := by
      intro hp'
      rw [h.running c p hp'] at hp
      cases hp
    rw [(hghost p hnot).2]
    exact h.fresh p hp
  · intro c' p hp
    rw [hcurs] at hp
    rw [hctx]
    exact h.running c' p hp
  · intro c' c'' p hp hp'
    rw [hcurs] at hp hp'
    exact h.alone c' c'' p hp hp'
  · exact hframes

theorem setCpu (h : Inv s) {traps : Who C T → List (Frame T L)} (hok : x.Ok) (hcur : x.cur = (s.cpu c).cur)
    (hheld : x.held = (s.cpu c).held) (hnoff : x.noff = (s.cpu c).noff) (hintena : x.intena = (s.cpu c).intena)
    (hframes : ∀ w, ∀ f ∈ traps w, f.Ok) : Inv { s.setCpu c x with traps := traps } := by
  refine h.step_on rfl hok hcur rfl ?_ (fun _ _ _ => Iff.rfl) ?_ (fun p _ => ⟨rfl, rfl⟩) hframes
  · intro lk
    rw [hheld]
    exact h.held c lk
  · intro p hp hpos hfirst
    rw [hintena]
    rw [hnoff] at hpos
    exact h.flag c p hp hpos hfirst

theorem intrGet {lk : Option (Lk T L)} (h : Inv s) (ht : s.intrGet c lk = some t) : Inv t := by
  unfold St.intrGet at ht
  split_ifs at ht with hfree
  cases ht
  have hok := h.ok c
  refine h.setCpu ⟨hok.count, hok.off, hok.nodup, ?_, ?_⟩ rfl rfl rfl rfl h.frames
  · intro q hq
    cases hq
    rfl
  · intro q _
    exact Option.isNone_iff_eq_none.mp hfree.2

theorem intrSet {b : Bool} (h : Inv s) (ht : s.intrSet c b = some t) : Inv t := by
  unfold St.intrSet at ht
  split_ifs at ht with hc
  cases ht
  have hok := h.ok c
  have hpend := Option.isNone_iff_eq_none.mp hc.1.1
  refine h.setCpu ⟨hok.count, ?_, hok.nodup, ?_, ?_⟩ rfl rfl rfl rfl h.frames
  · intro hpos
    dsimp only at hpos
    omega
  · intro q hq
    cases hpend.symm.trans hq
  · intro q hq
    cases hpend.symm.trans hq

theorem interrupt (h : Inv s) (ht : s.interrupt c = some t) : Inv t := by
  unfold St.interrupt at ht
  split_ifs at ht with hie
  cases ht
  have hok := h.ok c
  refine h.setCpu ⟨hok.count, fun _ => rfl, hok.nodup, fun q hq => ?_, fun q hq => ?_⟩ rfl rfl rfl rfl ?_
  · cases hq
  · cases hq
  · intro w f hf
    rw [update_apply] at hf
    split_ifs at hf
    · rcases List.mem_cons.mp hf with rfl | hf
      · refine ⟨hie, ?_⟩
        intro q hq
        rw [← hok.pend q hq]
        exact hie
      · exact h.frames _ f hf
    · exact h.frames w f hf

theorem sret (h : Inv s) (ht : s.sret c = some t) : Inv t := by
  unfold St.sret at ht
  have hframe := h.frames (s.who c)
  cases htraps : s.traps (s.who c) with
  | nil =>
    rw [htraps] at ht
    cases ht
  | cons f fs =>
    rw [htraps] at ht hframe
    dsimp only at ht
    split_ifs at ht with hc
    cases ht
    have hok := h.ok c
    have hf := hframe f List.mem_cons_self
    refine h.setCpu ⟨hok.count, ?_, hok.nodup, ?_, ?_⟩ rfl rfl rfl rfl ?_
    · intro hpos
      dsimp only at hpos
      omega
    · intro q hq
      exact hf.ie.trans (hf.pend q hq).symm
    · intro q _
      exact Option.isNone_iff_eq_none.mp hc.1.2
    · intro w g hg
      rw [update_apply] at hg
      split_ifs at hg
      · exact hframe g (List.mem_cons_of_mem _ hg)
      · exact h.frames w g hg

theorem raise {q : Pend T L} (h : Inv s) (hq : (s.cpu c).pend = some q) (hnoff : x.noff = (s.cpu c).noff + 1)
    (hintena : x.intena = if (s.cpu c).noff = 0 then q.old else (s.cpu c).intena) (hie : x.ie = false)
    (hcur : x.cur = (s.cpu c).cur) (hheld : x.held = (s.cpu c).held) (hpend : x.pend = none)
    (hcount : x.pushed + x.spin.isSome.toNat = (s.cpu c).pushed + 1) :
    Inv { s.setCpu c x with outer := if (s.cpu c).noff = 0 then s.mark c s.outer q.old else s.outer } := by
  have hok := h.ok c
  have hspin := hok.apart q hq
  refine h.step_on rfl ?_ hcur rfl ?_ (fun _ _ _ => Iff.rfl) ?_ ?_ h.frames
  · refine ⟨?_, fun _ => hie, ?_, ?_, ?_⟩
    · have hold := hok.count
      rw [hspin] at hold
      rw [hnoff, hold, hheld]
      change (s.cpu c).pushed + (s.cpu c).held.length + 0 + 1 = _
      omega
    · rw [hheld]
      exact hok.nodup
    · intro q' hq'
      cases hpend.symm.trans hq'
    · intro q' hq'
      cases hpend.symm.trans hq'
  · intro lk
    rw [hheld]
    exact h.held c lk
  · intro p hp _ hfirst
    rw [hintena]
    dsimp only
    split_ifs with hz
    · rw [mark_self hp]
    · exact h.flag c p hp (Nat.pos_of_ne_zero hz) hfirst
  · intro p hp
    refine ⟨?_, rfl⟩
    dsimp only
    split_ifs
    · exact mark_of_ne hp
    · rfl

theorem lower {l : Lk T L → Option C} (h : Inv s) (hnoff : x.noff + 1 = (s.cpu c).noff) (hintena : x.intena = (s.cpu c).intena)
    (hie : 0 < x.noff → x.ie = false) (hcur : x.cur = (s.cpu c).cur) (hpend : x.pend = none)
    (hcount : x.noff = x.pushed + x.held.length + x.spin.isSome.toNat) (hnodup : x.held.Nodup)
    (hmine : ∀ lk, lk ∈ x.held ↔ l lk = some c) (hothers : ∀ c' lk, c' ≠ c → (s.lock lk = some c' ↔ l lk = some c')) :
    Inv { s.setCpu c x with
      lock := l
      first := if x.noff = 0 then s.mark c s.first false else s.first } := by
  refine h.step_on rfl ?_ hcur rfl hmine hothers ?_ ?_ h.frames
  · refine ⟨hcount, hie, hnodup, ?_, ?_⟩
    · intro q hq
      cases hpend.symm.trans hq
    · intro q hq
      cases hpend.symm.trans hq
  · intro p hp hpos hfirst
    rw [hintena]
    rw [if_neg (Nat.ne_of_gt hpos)] at hfirst
    exact h.flag c p hp (by omega) hfirst
  · intro p hp
    refine ⟨rfl, ?_⟩
    dsimp only
    split_ifs
    · exact mark_of_ne hp
    · rfl

variable [DecidableEq L] {lk : Lk T L}

theorem pushOff (h : Inv s) (ht : s.pushOff c = some t) : Inv t := by
  unfold St.pushOff at ht
  cases hq : (s.cpu c).pend with
  | none =>
    rw [hq] at ht
    cases ht
  | some q =>
    rw [hq] at ht
    dsimp only at ht
    have hspin := (h.ok c).apart q hq
    cases hlk : q.lk with
    | none =>
      rw [hlk] at ht
      cases ht
      refine h.raise hq rfl rfl rfl rfl rfl rfl ?_
      dsimp only [Cpu.pushOff]
      rw [hspin]
      rfl
    | some lk =>
      rw [hlk] at ht
      dsimp only at ht
      by_cases hheld : s.lock lk = some c
      · rw [if_pos hheld] at ht
        cases ht
      · rw [if_neg hheld] at ht
        cases ht
        exact h.raise (x := { (s.cpu c).pushOff q.old with pend := none, spin := some lk }) hq rfl rfl rfl rfl rfl rfl rfl

theorem take (h : Inv s) (ht : s.take c = some t) : Inv t := by
  unfold St.take at ht
  cases hspin : (s.cpu c).spin with
  | none =>
    rw [hspin] at ht
    cases ht
  | some lk =>
    rw [hspin] at ht
    dsimp only at ht
    split_ifs at ht with hfree
    cases ht
    have hok := h.ok c
    have hnew : lk ∉ (s.cpu c).held := by
      rw [h.held, hfree]
      exact (Option.some_ne_none c).symm
    refine h.step_on rfl ?_ rfl rfl ?_ ?_ (h.flag c) (fun p _ => ⟨rfl, rfl⟩) h.frames
    · refine ⟨?_, hok.off, List.nodup_cons.mpr ⟨hnew, hok.nodup⟩, hok.pend, fun _ _ => rfl⟩
      have hcount := hok.count
      rw [hspin] at hcount
      exact hcount
    · intro lk'
      dsimp only
      rw [update_apply, List.mem_cons, h.held]
      by_cases hl : lk' = lk
      · rw [if_pos hl]
        exact iff_of_true (.inl hl) rfl
      · rw [if_neg hl]
        exact or_iff_right hl
    · intro c' lk' hc
      dsimp only
      rw [update_apply]
      by_cases hl : lk' = lk
      · rw [if_pos hl, hl, hfree]
        exact iff_of_false (Option.some_ne_none _).symm (fun heq => hc (Option.some.inj heq).symm)
      · rw [if_neg hl]

end Inv

/-! ### `pop_off` -/

theorem popOff_ok (hoff : x.ie = false) (hpos : 0 < x.noff) : x.popOff = .ok { x with
    noff := x.noff - 1
    ie := if x.noff - 1 = 0 ∧ x.intena = true then true else x.ie } := by
  unfold Cpu.popOff
  rw [if_neg (by rw [hoff]; exact Bool.false_ne_true), if_neg (by omega)]

def Cpu.popped (x : Cpu T L) : Cpu T L :=
  { x with
    noff := x.noff - 1
    ie := if x.noff - 1 = 0 ∧ x.intena = true then true else x.ie }

theorem St.popOff_eq (hoff : (s.cpu c).ie = false) (hpos : 0 < (s.cpu c).noff) : s.popOff c =
    .ok { s.setCpu c (s.cpu c).popped with
      first := if (s.cpu c).noff - 1 = 0 then s.mark c s.first false else s.first } := by
  unfold St.popOff
  rw [popOff_ok hoff hpos]
  rfl

namespace Inv

variable [DecidableEq L] {lk : Lk T L}

theorem off_of_held (h : Inv s) (hlk : s.lock lk = some c) : 0 < (s.cpu c).noff ∧ (s.cpu c).ie = false := by
  have hmem := List.length_pos_of_mem ((h.held c lk).mpr hlk)
  have hcount := (h.ok c).count
  have hpos : 0 < (s.cpu c).noff := by omega
  exact ⟨hpos, (h.ok c).off hpos⟩

theorem off_of_pushed (h : Inv s) (hpushed : 0 < (s.cpu c).pushed) : 0 < (s.cpu c).noff ∧ (s.cpu c).ie = false := by
  have hcount := (h.ok c).count
  have hpos : 0 < (s.cpu c).noff := by omega
  exact ⟨hpos, (h.ok c).off hpos⟩

theorem popOff_eq (h : Inv s) (hpushed : 0 < (s.cpu c).pushed) :
    (s.setCpu c { s.cpu c with pushed := (s.cpu c).pushed - 1 }).popOff c =
      .ok { s.setCpu c { (s.cpu c).popped with pushed := (s.cpu c).pushed - 1 } with
        first := if (s.cpu c).noff - 1 = 0 then s.mark c s.first false else s.first } := by
  obtain ⟨hpos, hoff⟩ := h.off_of_pushed hpushed
  have hx := cpu_setCpu s c { s.cpu c with pushed := (s.cpu c).pushed - 1 }
  rw [St.popOff_eq (by rw [hx]; exact hoff) (by rw [hx]; exact hpos), hx]
  simp only [St.setCpu, St.mark, update_idem, update_self, Cpu.popped]

theorem release_eq (h : Inv s) (hlk : s.lock lk = some c) : s.release c lk =
    .ok { s.setCpu c { (s.cpu c).popped with held := (s.cpu c).held.erase lk } with
      lock := update s.lock lk none
      first := if (s.cpu c).noff - 1 = 0 then s.mark c s.first false else s.first } := by
  obtain ⟨hpos, hoff⟩ := h.off_of_held hlk
  have hx := cpu_setCpu s c { s.cpu c with held := (s.cpu c).held.erase lk }
  unfold St.release
  rw [if_pos hlk, St.popOff_eq (by dsimp only; rw [hx]; exact hoff) (by dsimp only; rw [hx]; exact hpos)]
  simp only [St.setCpu, St.mark, update_idem, update_self, Cpu.popped]

theorem popOff (h : Inv s) (hfree : (s.cpu c).free) (hpushed : 0 < (s.cpu c).pushed)
    (ht : ((s.setCpu c { s.cpu c with pushed := (s.cpu c).pushed - 1 }).popOff c).toOption = some t) : Inv t := by
  obtain ⟨hpos, hoff⟩ := h.off_of_pushed hpushed
  rw [h.popOff_eq hpushed] at ht
  cases ht
  have hok := h.ok c
  refine h.lower (l := s.lock) ?_ rfl ?_ rfl ?_ ?_ hok.nodup (h.held c) (fun _ _ _ => Iff.rfl)
  · dsimp only [Cpu.popped]
    omega
  · intro hpos'
    dsimp only [Cpu.popped] at hpos' ⊢
    rw [if_neg (by omega), hoff]
  · exact Option.isNone_iff_eq_none.mp hfree.1
  · have hcount := hok.count
    dsimp only [Cpu.popped]
    omega

theorem release (h : Inv s) (hfree : (s.cpu c).free) (ht : (s.release c lk).toOption = some t) : Inv t := by
  by_cases hlk : s.lock lk = some c
  · obtain ⟨hpos, hoff⟩ := h.off_of_held hlk
    have hok := h.ok c
    have hmem := (h.held c lk).mpr hlk
    rw [h.release_eq hlk] at ht
    cases ht
    refine h.lower ?_ rfl ?_ rfl ?_ ?_ (hok.nodup.erase lk) ?_ ?_
    · dsimp only [Cpu.popped]
      omega
    · intro hpos'
      dsimp only [Cpu.popped] at hpos' ⊢
      rw [if_neg (by omega), hoff]
    · exact Option.isNone_iff_eq_none.mp hfree.1
    · have hcount := hok.count
      have hlen := List.length_pos_of_mem hmem
      dsimp only [Cpu.popped]
      rw [List.length_erase_of_mem hmem]
      omega
    · intro lk'
      dsimp only [Cpu.popped]
      rw [hok.nodup.mem_erase_iff, h.held, update_apply]
      by_cases hl : lk' = lk
      · rw [if_pos hl]
        exact iff_of_false (fun hne => hne.1 hl) (Option.some_ne_none _).symm
      · rw [if_neg hl]
        exact and_iff_right hl
    · intro c' lk' hc
      rw [update_apply]
      by_cases hl : lk' = lk
      · rw [if_pos hl, hl, hlk]
        exact iff_of_false (fun heq => hc (Option.some.inj heq).symm) (Option.some_ne_none _).symm
      · rw [if_neg hl]
  · unfold St.release at ht
    rw [if_neg hlk] at ht
    cases ht

/-! ### Switches -/

theorem of_sched (ht : (s.sched c).toOption = some t) : ∃ p, (s.cpu c).cur = some p ∧ s.lock (.proc p) = some c ∧
    (s.cpu c).noff = 1 ∧ t = { s.setCpu c { s.cpu c with cur := none } with
      ctx := update s.ctx p (.saved (s.cpu c).intena) } := by
  unfold St.sched at ht
  cases hp : (s.cpu c).cur with
  | none =>
    rw [hp] at ht
    cases ht
  | some p =>
    rw [hp] at ht
    dsimp only at ht
    split_ifs at ht with hlk hnoff hie
    · cases ht
    · cases ht
    · cases ht
    · cases ht
      exact ⟨p, rfl, not_not.mp hlk, not_not.mp hnoff, rfl⟩

theorem sched (h : Inv s) (ht : (s.sched c).toOption = some t) : Inv t := by
  obtain ⟨p, hp, -, hnoff, rfl⟩ := of_sched ht
  have hok := h.ok c
  have hx := cpu_setCpu s c { s.cpu c with cur := none }
  have hnot : ∀ c' p', ((s.setCpu c { s.cpu c with cur := none }).cpu c').cur = some p' → c' ≠ c ∧ (s.cpu c').cur = some p' := by
    intro c' p' hp'
    by_cases hc : c' = c
    · rw [hc, hx] at hp'
      cases hp'
    · rw [cpu_setCpu_of_ne s _ hc] at hp'
      exact ⟨hc, hp'⟩
  constructor
  · intro c'
    dsimp only
    by_cases hc : c' = c
    · rw [hc, hx]
      exact ⟨hok.count, hok.off, hok.nodup, hok.pend, hok.apart⟩
    · rw [cpu_setCpu_of_ne s _ hc]
      exact h.ok c'
  · intro c' lk
    dsimp only
    by_cases hc : c' = c
    · rw [hc, hx]
      exact h.held c lk
    · rw [cpu_setCpu_of_ne s _ hc]
      exact h.held c' lk
  · intro c' p' hp' hpos hfirst
    obtain ⟨hc, hcur⟩ := hnot c' p' hp'
    dsimp only at hpos ⊢
    rw [cpu_setCpu_of_ne s _ hc] at hpos ⊢
    exact h.flag c' p' hcur hpos hfirst
  · intro p' b hb hfirst
    dsimp only at hb
    rw [update_apply] at hb
    split_ifs at hb with hpp
    · cases hb
      rw [hpp]
      exact h.flag c p hp (by omega) (hpp ▸ hfirst)
    · exact h.saved p' b hb hfirst
  · intro p' hb
    dsimp only at hb
    rw [update_apply] at hb
    split_ifs at hb
    exact h.fresh p' hb
  · intro c' p' hp'
    obtain ⟨hc, hcur⟩ := hnot c' p' hp'
    have hne : p' ≠ p := by
      rintro rfl
      exact hc (h.alone c' c p' hcur hp)
    dsimp only
    rw [update_of_ne hne]
    exact h.running c' p' hcur
  · intro c' c'' p' hp' hp''
    exact h.alone c' c'' p' (hnot c' p' hp').2 (hnot c'' p' hp'').2
  · exact h.frames

theorem swtch (h : Inv s) (ht : s.swtch c p = some t) : Inv t := by
  unfold St.swtch at ht
  split_ifs at ht with hc
  obtain ⟨hfree, hcur, hlk, hnoff, hctx⟩ := hc
  cases ht
  have hok := h.ok c
  have hx := cpu_setCpu s c (s.resume c p)
  have hsame : (s.resume c p).cur = some p ∧ (s.resume c p).noff = (s.cpu c).noff ∧ (s.resume c p).ie = (s.cpu c).ie ∧
      (s.resume c p).held = (s.cpu c).held ∧ (s.resume c p).pushed = (s.cpu c).pushed ∧
      (s.resume c p).spin = (s.cpu c).spin ∧ (s.resume c p).pend = (s.cpu c).pend := by
    unfold St.resume
    cases s.ctx p <;> exact ⟨rfl, rfl, rfl, rfl, rfl, rfl, rfl⟩
  obtain ⟨hrcur, hrnoff, hrie, hrheld, hrpushed, hrspin, hrpend⟩ := hsame
  -- no CPU runs `p` yet
  have hidle : ∀ c', (s.cpu c').cur ≠ some p := fun c' hp => hctx (h.running c' p hp)
  constructor
  · intro c'
    dsimp only
    by_cases hcc : c' = c
    · rw [hcc, hx]
      refine ⟨?_, ?_, ?_, ?_, ?_⟩
      · rw [hrnoff, hrpushed, hrheld, hrspin]
        exact hok.count
      · rw [hrnoff, hrie]
        exact hok.off
      · rw [hrheld]
        exact hok.nodup
      · rw [hrpend, hrie]
        exact hok.pend
      · rw [hrpend, hrspin]
        exact hok.apart
    · rw [cpu_setCpu_of_ne s _ hcc]
      exact h.ok c'
  · intro c' lk
    dsimp only
    by_cases hcc : c' = c
    · rw [hcc, hx, hrheld]
      exact h.held c lk
    · rw [cpu_setCpu_of_ne s _ hcc]
      exact h.held c' lk
  · intro c' p' hp' hpos hfirst
    dsimp only at hp' hpos hfirst ⊢
    by_cases hcc : c' = c
    · rw [hcc, hx] at hp' ⊢
      rw [hrcur] at hp'
      cases hp'
      unfold St.resume
      cases hsaved : s.ctx p with
      | fresh =>
        cases (h.fresh p hsaved).symm.trans hfirst
      | saved b => exact h.saved p b hsaved hfirst
      | running => exact absurd hsaved hctx
    · rw [cpu_setCpu_of_ne s _ hcc] at hp' hpos ⊢
      exact h.flag c' p' hp' hpos hfirst
  · intro p' b hb hfirst
    dsimp only at hb
    rw [update_apply] at hb
    split_ifs at hb
    exact h.saved p' b hb hfirst
  · intro p' hb
    dsimp only at hb
    rw [update_apply] at hb
    split_ifs at hb
    exact h.fresh p' hb
  · intro c' p' hp'
    dsimp only at hp' ⊢
    by_cases hcc : c' = c
    · rw [hcc, hx, hrcur] at hp'
      cases hp'
      exact update_self _ _ _
    · rw [cpu_setCpu_of_ne s _ hcc] at hp'
      have hne : p' ≠ p := by
        rintro rfl
        exact hidle c' hp'
      rw [update_of_ne hne]
      exact h.running c' p' hp'
  · intro c' c'' p' hp' hp''
    dsimp only at hp' hp''
    by_cases hcc : c' = c
    · by_cases hcc' : c'' = c
      · rw [hcc, hcc']
      · rw [hcc, hx, hrcur] at hp'
        cases hp'
        rw [cpu_setCpu_of_ne s _ hcc'] at hp''
        exact absurd hp'' (hidle c'')
    · rw [cpu_setCpu_of_ne s _ hcc] at hp'
      by_cases hcc' : c'' = c
      · rw [hcc', hx, hrcur] at hp''
        cases hp''
        exact absurd hp' (hidle c')
      · rw [cpu_setCpu_of_ne s _ hcc'] at hp''
        exact h.alone c' c'' p' hp' hp''
  · exact h.frames

theorem allocproc (h : Inv s) (ht : s.allocproc c p = some t) : Inv t := by
  unfold St.allocproc at ht
  split_ifs at ht with hc
  cases ht
  have hne : ∀ c' p', (s.cpu c').cur = some p' → p' ≠ p := by
    rintro c' p' hp' rfl
    exact hc.2 (h.running c' p' hp')
  refine ⟨h.ok, h.held, ?_, ?_, ?_, ?_, h.alone, ?_⟩
  · intro c' p' hp' hpos hfirst
    dsimp only at hp' hfirst
    rw [update_of_ne (hne c' p' hp')] at hfirst
    exact h.flag c' p' hp' hpos hfirst
  · intro p' b hb hfirst
    dsimp only at hb hfirst
    by_cases hpp : p' = p
    · rw [hpp, update_self] at hb
      cases hb
    · rw [update_of_ne hpp] at hb hfirst
      exact h.saved p' b hb hfirst
  · intro p' hb
    dsimp only at hb ⊢
    by_cases hpp : p' = p
    · rw [hpp, update_self]
    · rw [update_of_ne hpp] at hb ⊢
      exact h.fresh p' hb
  · intro c' p' hp'
    dsimp only at hp' ⊢
    rw [update_of_ne (hne c' p' hp')]
    exact h.running c' p' hp'
  · intro w f hf
    dsimp only at hf
    rw [update_apply] at hf
    split_ifs at hf
    · cases hf
    · exact h.frames w f hf

theorem of_step {a : Action C T L} (h : Inv s) (ht : step s a = some t) : Inv t := by
  cases a with
  | intrGet c lk => exact h.intrGet ht
  | pushOff c => exact h.pushOff ht
  | take c => exact h.take ht
  | popOff c =>
    rw [step] at ht
    split_ifs at ht with hc
    exact h.popOff hc.1 hc.2 ht
  | release c lk =>
    rw [step] at ht
    split_ifs at ht with hc
    exact h.release hc ht
  | sched c =>
    rw [step] at ht
    split_ifs at ht
    exact h.sched ht
  | swtch c p => exact h.swtch ht
  | interrupt c => exact h.interrupt ht
  | sret c => exact h.sret ht
  | intrSet c b => exact h.intrSet ht
  | allocproc c p => exact h.allocproc ht

theorem of_run (h : Run step (fun _ _ => True) (boot C T L) s) : Inv s :=
  h.invariant inv_boot (fun _ _ _ hs _ ht => hs.of_step ht)

end Inv

/-! ### What a step does to `noff` -/

inductive Effect (s t : St C T L) : Prop
  | raise (c : C) (q : Pend T L) (hq : (s.cpu c).pend = some q) (hnoff : (t.cpu c).noff = (s.cpu c).noff + 1)
      (hother : ∀ c', c' ≠ c → (t.cpu c').noff = (s.cpu c').noff)
      (houter : t.outer = if (s.cpu c).noff = 0 then s.mark c s.outer q.old else s.outer)
  | lower (c : C) (hnoff : (t.cpu c).noff + 1 = (s.cpu c).noff) (hie : (t.cpu c).noff = 0 → (t.cpu c).ie = (s.cpu c).intena)
      (hother : ∀ c', c' ≠ c → (t.cpu c').noff = (s.cpu c').noff) (houter : t.outer = s.outer)
  | keep (hnoff : ∀ c, (t.cpu c).noff = (s.cpu c).noff) (houter : t.outer = s.outer)

namespace Effect

variable [DecidableEq L]

theorem of_cpu (hcpu : t.cpu = update s.cpu c x) (hnoff : x.noff = (s.cpu c).noff) (houter : t.outer = s.outer) :
    Effect s t := by
  refine .keep (fun c' => ?_) houter
  rw [hcpu]
  by_cases hc : c' = c
  · rw [hc, update_self, hnoff]
  · rw [update_of_ne hc]

theorem of_popped (hcpu : t.cpu = update s.cpu c x) (hnoff : x.noff + 1 = (s.cpu c).noff)
    (hie : x.ie = if x.noff = 0 ∧ (s.cpu c).intena = true then true else false) (houter : t.outer = s.outer) : Effect s t := by
  have hx : t.cpu c = x := by rw [hcpu, update_self]
  refine .lower c ?_ ?_ (fun c' hc => ?_) houter
  · rw [hx]
    exact hnoff
  · intro hz
    rw [hx] at hz ⊢
    rw [hie]
    cases hb : (s.cpu c).intena with
    | false => exact if_neg (fun hboth => Bool.false_ne_true hboth.2)
    | true => exact if_pos ⟨hz, rfl⟩
  · rw [hcpu, update_of_ne hc]

theorem of_step {a : Action C T L} (h : Inv s) (ht : step s a = some t) : Effect s t := by
  cases a with
  | intrGet c lk =>
    simp only [step, St.intrGet] at ht
    split_ifs at ht
    cases ht
    exact of_cpu rfl rfl rfl
  | pushOff c =>
    simp only [step, St.pushOff] at ht
    cases hq : (s.cpu c).pend with
    | none =>
      rw [hq] at ht
      cases ht
    | some q =>
      rw [hq] at ht
      dsimp only at ht
      have hraise (x : Cpu T L) (hx : x.noff = (s.cpu c).noff + 1) : Effect s { s.setCpu c x with
          outer := if (s.cpu c).noff = 0 then s.mark c s.outer q.old else s.outer } := by
        refine .raise c q hq ?_ (fun c' hc => ?_) rfl
        · dsimp only
          rw [cpu_setCpu, hx]
        · dsimp only
          rw [cpu_setCpu_of_ne s x hc]
      cases hlk : q.lk with
      | none =>
        rw [hlk] at ht
        cases ht
        exact hraise _ rfl
      | some lk =>
        rw [hlk] at ht
        dsimp only at ht
        by_cases hheld : s.lock lk = some c
        · rw [if_pos hheld] at ht
          cases ht
        · rw [if_neg hheld] at ht
          cases ht
          exact hraise _ rfl
  | take c =>
    simp only [step, St.take] at ht
    cases hspin : (s.cpu c).spin with
    | none =>
      rw [hspin] at ht
      cases ht
    | some lk =>
      rw [hspin] at ht
      dsimp only at ht
      split_ifs at ht
      cases ht
      exact of_cpu rfl rfl rfl
  | popOff c =>
    rw [step] at ht
    split_ifs at ht with hc
    obtain ⟨hpos, hoff⟩ := h.off_of_pushed hc.2
    rw [h.popOff_eq hc.2] at ht
    cases ht
    refine of_popped rfl ?_ ?_ rfl
    · dsimp only [Cpu.popped]
      omega
    · dsimp only [Cpu.popped]
      rw [hoff]
      rfl
  | release c lk =>
    rw [step] at ht
    split_ifs at ht
    by_cases hlk : s.lock lk = some c
    · obtain ⟨hpos, hoff⟩ := h.off_of_held hlk
      rw [h.release_eq hlk] at ht
      cases ht
      refine of_popped rfl ?_ ?_ rfl
      · dsimp only [Cpu.popped]
        omega
      · dsimp only [Cpu.popped]
        rw [hoff]
        rfl
    · unfold St.release at ht
      rw [if_neg hlk] at ht
      cases ht
  | sched c =>
    rw [step] at ht
    split_ifs at ht
    obtain ⟨p, -, -, -, rfl⟩ := Inv.of_sched ht
    exact of_cpu rfl rfl rfl
  | swtch c p =>
    simp only [step, St.swtch] at ht
    split_ifs at ht
    cases ht
    refine of_cpu rfl ?_ rfl
    unfold St.resume
    cases s.ctx p <;> rfl
  | interrupt c =>
    simp only [step, St.interrupt] at ht
    split_ifs at ht
    cases ht
    exact of_cpu rfl rfl rfl
  | sret c =>
    simp only [step, St.sret] at ht
    cases htraps : s.traps (s.who c) with
    | nil =>
      rw [htraps] at ht
      cases ht
    | cons f fs =>
      rw [htraps] at ht
      dsimp only at ht
      split_ifs at ht
      cases ht
      exact of_cpu rfl rfl rfl
  | intrSet c b =>
    simp only [step, St.intrSet] at ht
    split_ifs at ht
    cases ht
    exact of_cpu rfl rfl rfl
  | allocproc c p =>
    simp only [step, St.allocproc] at ht
    split_ifs at ht
    cases ht
    exact .keep (fun _ => rfl) rfl

theorem outermost (h : Inv s) (he : Effect s t) (hp : (s.cpu c).cur = some p) (hz : (s.cpu c).noff = 0)
    (hpos : 0 < (t.cpu c).noff) : t.outer p = (s.cpu c).ie := by
  cases he with
  | raise c' q hq hnoff hother houter =>
    by_cases hc : c = c'
    · subst hc
      rw [houter, if_pos hz, mark_self hp]
      exact ((h.ok c).pend q hq).symm
    · rw [hother c hc] at hpos
      omega
  | lower c' hnoff hie hother houter =>
    by_cases hc : c = c'
    · subst hc
      omega
    · rw [hother c hc] at hpos
      omega
  | keep hnoff houter =>
    rw [hnoff] at hpos
    omega

theorem outer_changes (he : Effect s t) (hne : t.outer p ≠ s.outer p) :
    ∃ c, (s.cpu c).cur = some p ∧ (s.cpu c).noff = 0 ∧ 0 < (t.cpu c).noff := by
  cases he with
  | raise c q hq hnoff hother houter =>
    rw [houter] at hne
    split_ifs at hne with hz
    · refine ⟨c, ?_, hz, by omega⟩
      by_contra hcur
      exact hne (mark_of_ne hcur)
    · exact absurd rfl hne
  | lower c' hnoff hie hother houter => exact absurd (congrFun houter p) hne
  | keep hnoff houter => exact absurd (congrFun houter p) hne

theorem restores (h : Inv s) (he : Effect s t) (hp : (s.cpu c).cur = some p) (hpos : 0 < (s.cpu c).noff)
    (hz : (t.cpu c).noff = 0) (hfirst : s.first p = false) : (t.cpu c).ie = s.outer p := by
  cases he with
  | raise c' q hq hnoff hother houter =>
    by_cases hc : c = c'
    · subst hc
      omega
    · rw [hother c hc] at hz
      omega
  | lower c' hnoff hie hother houter =>
    by_cases hc : c = c'
    · subst hc
      rw [hie hz]
      exact h.flag c p hp hpos hfirst
    · rw [hother c hc] at hz
      omega
  | keep hnoff houter =>
    rw [hnoff] at hz
    omega

end Effect

/-- In every run `noff` counts the calls of `push_off` of the running thread, and when it comes back to 0 interrupts are as they
were at the outermost one. -/
theorem interrupt_nesting [DecidableEq L] (h : Run step (fun _ _ => True) (boot C T L) s) :
    (∀ c, (s.cpu c).noff = (s.cpu c).pushed + (s.cpu c).held.length + (s.cpu c).spin.isSome.toNat ∧
      (s.cpu c).held.Nodup ∧ ∀ lk, lk ∈ (s.cpu c).held ↔ s.lock lk = some c) ∧
    (∀ c, 0 < (s.cpu c).noff → (s.cpu c).ie = false) ∧
    (∀ c lk, s.lock lk = some c → 0 < (s.cpu c).noff ∧ (s.cpu c).ie = false) ∧
    (∀ c, 0 < (s.cpu c).pushed →
      ∃ t, (s.setCpu c { s.cpu c with pushed := (s.cpu c).pushed - 1 }).popOff c = .ok t) ∧
    (∀ c lk, s.lock lk = some c → ∃ t, s.release c lk = .ok t) ∧
    ∀ a t, step s a = some t →
      (∀ c p, (s.cpu c).cur = some p → (s.cpu c).noff = 0 → 0 < (t.cpu c).noff → t.outer p = (s.cpu c).ie) ∧
      (∀ p, t.outer p ≠ s.outer p → ∃ c, (s.cpu c).cur = some p ∧ (s.cpu c).noff = 0 ∧ 0 < (t.cpu c).noff) ∧
      ∀ c p, (s.cpu c).cur = some p → 0 < (s.cpu c).noff → (t.cpu c).noff = 0 → s.first p = false →
        (t.cpu c).ie = s.outer p := by
  have hinv := Inv.of_run h
  refine ⟨?_, fun c => (hinv.ok c).off, fun c lk => hinv.off_of_held, ?_, ?_, ?_⟩
  · intro c
    exact ⟨(hinv.ok c).count, (hinv.ok c).nodup, hinv.held c⟩
  · intro c hpushed
    exact ⟨_, hinv.popOff_eq hpushed⟩
  · intro c lk hlk
    exact ⟨_, hinv.release_eq hlk⟩
  · intro a t ht
    have he := Effect.of_step hinv ht
    exact ⟨fun c p hp hz hpos => he.outermost hinv hp hz hpos, fun p hne => he.outer_changes hne,
      fun c p hp hpos hz hfirst => he.restores hinv hp hpos hz hfirst⟩

def migration : List (Action Bool Unit Unit) :=
  [.intrSet false true, .intrGet false (some (.proc ())), .pushOff false, .take false, .swtch false (),
    .release false (.proc ()), .intrSet false true, .intrGet false (some (.proc ())), .pushOff false, .take false, .sched false,
    .release false (.proc ()), .intrGet true (some (.proc ())), .pushOff true, .take true, .swtch true ()]

theorem interrupt_nesting_migration : ∃ s t : St Bool Unit Unit, Run step (fun _ _ => True) (boot Bool Unit Unit) s ∧
    step s (.release true (.proc ())) = some t ∧ (t.cpu true).noff = 0 ∧ (t.cpu true).ie = true := by
  obtain ⟨s, t, hs, ht, hcur, hpos, hz, hfirst, houter⟩ : ∃ s t : St Bool Unit Unit,
      execute step (fun _ _ => True) (boot Bool Unit Unit) migration = some s ∧ step s (.release true (.proc ())) = some t ∧
      (s.cpu true).cur = some () ∧ (s.cpu true).noff = 1 ∧ (t.cpu true).noff = 0 ∧ s.first () = false ∧ s.outer () = true :=
    ⟨_, _, rfl, rfl, rfl, rfl, rfl, rfl, rfl⟩
  obtain ⟨-, -, -, -, -, hstep⟩ := interrupt_nesting (run_of_execute hs)
  refine ⟨s, t, run_of_execute hs, ht, hz, ?_⟩
  rw [(hstep _ t ht).2.2 true () hcur (by omega) hz hfirst, houter]

end Xv6.Interrupts
