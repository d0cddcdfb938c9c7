import Mathlib.Data.Fintype.BigOperators
import Xv6.Lib.Prog
import Xv6.Lib.Transition

namespace Xv6.Lib

open Transition
open Function (update update_of_ne update_self update_eq_self update_idem)

/-- Threads that run programs one action at a time over a shared state, each with a local state of
its own; a thread at rest has no program. -/
structure Pool (ι S L Op ε : Type) where
  shared : S
  locals : ι → L
  running : ι → Option (Op × Prog (S × L) ε Unit)

inductive Move (ι Op : Type)
  | start (i : ι) (op : Op)
  | act (i : ι)
  | left (i : ι)
  | right (i : ι)
  | finish (i : ι)

namespace Pool

variable {ι S L M Op ε : Type} [DecidableEq ι]

def step (prog : ι → Op → Prog (S × L) ε Unit) (c : Pool ι S L Op ε) :
    Move ι Op → Option (Pool ι S L Op ε)
  | .start i op =>
    match c.running i with
    | none => some ⟨c.shared, c.locals, update c.running i (some (op, prog i op))⟩
    | some _ => none
  | .act i =>
    match c.running i with
    | some (op, .act f k) => some ⟨(f (c.shared, c.locals i)).1,
        update c.locals i (f (c.shared, c.locals i)).2,
        update c.running i (some (op, k (c.shared, c.locals i)))⟩
    | _ => none
  | .left i =>
    match c.running i with
    | some (op, .choose p _) => some ⟨c.shared, c.locals, update c.running i (some (op, p))⟩
    | _ => none
  | .right i =>
    match c.running i with
    | some (op, .choose _ q) => some ⟨c.shared, c.locals, update c.running i (some (op, q))⟩
    | _ => none
  | .finish i =>
    match c.running i with
    | some (_, .ret _) => some ⟨c.shared, c.locals, update c.running i none⟩
    | _ => none

variable [AddCommMonoid M] (A : Ledger S L M) (ok : Op → ε → Prop) (rest : ι → L → Prop)

def Thread (i : ι) (l : L) : Option (Op × Prog (S × L) ε Unit) → Prop
  | none => rest i l
  | some (op, p) => p.wp A (ok op) l (fun _ l' => rest i l')

structure Good [Fintype ι] (c : Pool ι S L Op ε) : Prop where
  ledger : A.inv c.shared (∑ i, A.tok (c.locals i))
  threads : ∀ i, Thread A ok rest i (c.locals i) (c.running i)

variable {A ok rest} [Fintype ι] {c c' : Pool ι S L Op ε}

theorem sum_eq (tok : L → M) (l : ι → L) (i : ι) :
    ∑ j, tok (l j) = tok (l i) + ∑ j ∈ Finset.univ.erase i, tok (l j) :=
  (Finset.add_sum_erase _ _ (Finset.mem_univ i)).symm

theorem sum_update (tok : L → M) (l : ι → L) (i : ι) (l' : L) :
    ∑ j, tok (update l i l' j) = tok l' + ∑ j ∈ Finset.univ.erase i, tok (l j) := by
  rw [sum_eq tok _ i, update_self]
  congr 1
  apply Finset.sum_congr rfl
  intro j hj
  rw [update_of_ne (Finset.ne_of_mem_erase hj)]

omit [Fintype ι] in
theorem thread_update {l : ι → L} {r : ι → Option (Op × Prog (S × L) ε Unit)} {i : ι} {l' : L}
    {x : Option (Op × Prog (S × L) ε Unit)} (h : ∀ j, Thread A ok rest j (l j) (r j))
    (hi : Thread A ok rest i l' x) (j : ι) :
    Thread A ok rest j (update l i l' j) (update r i x j) := by
  by_cases hj : j = i
  · subst hj
    rw [update_self, update_self]
    exact hi
  · rw [update_of_ne hj, update_of_ne hj]
    exact h j

theorem Good.set_running (h : Good A ok rest c) {i : ι} {x : Option (Op × Prog (S × L) ε Unit)}
    (hx : Thread A ok rest i (c.locals i) x) :
    Good A ok rest ⟨c.shared, c.locals, update c.running i x⟩ := by
  refine ⟨h.ledger, fun j => ?_⟩
  have := thread_update h.threads hx j
  rwa [update_eq_self] at this

theorem Good.of_step {prog : ι → Op → Prog (S × L) ε Unit} {m : Move ι Op} (h : Good A ok rest c)
    (hstart : ∀ i op, m = .start i op → rest i (c.locals i) →
      (prog i op).wp A (ok op) (c.locals i) (fun _ l' => rest i l'))
    (hs : step prog c m = some c') : Good A ok rest c' := by
  cases m with
  | start i op =>
    have hi := h.threads i
    simp only [step] at hs
    split at hs
    · rename_i hn
      rw [hn] at hi
      cases hs
      exact h.set_running (hstart i op rfl hi)
    · cases hs
  | act i =>
    have hi := h.threads i
    have hl := h.ledger
    simp only [step] at hs
    split at hs
    · rename_i op f k hr
      rw [hr] at hi
      rw [sum_eq A.tok c.locals i] at hl
      cases hs
      obtain ⟨hinv, hk⟩ := hi c.shared _ hl
      exact ⟨by rw [sum_update]; exact hinv, thread_update h.threads hk⟩
    · cases hs
  | left i =>
    have hi := h.threads i
    simp only [step] at hs
    split at hs
    · rename_i op p q hr
      rw [hr] at hi
      cases hs
      exact h.set_running (x := some (op, p)) hi.1
    · cases hs
  | right i =>
    have hi := h.threads i
    simp only [step] at hs
    split at hs
    · rename_i op p q hr
      rw [hr] at hi
      cases hs
      exact h.set_running (x := some (op, q)) hi.2
    · cases hs
  | finish i =>
    have hi := h.threads i
    simp only [step] at hs
    split at hs
    · rename_i op a hr
      rw [hr] at hi
      cases hs
      exact h.set_running (x := none) hi
    · cases hs

theorem Good.of_run {prog : ι → Op → Prog (S × L) ε Unit}
    {C : Pool ι S L Op ε → Move ι Op → Prop} (h : Good A ok rest c)
    (hstart : ∀ c i op, C c (.start i op) → rest i (c.locals i) →
      (prog i op).wp A (ok op) (c.locals i) (fun _ l' => rest i l'))
    (hrun : Run (step prog) C c c') : Good A ok rest c' := by
  refine hrun.invariant h (fun d m d' hd hC hs => hd.of_step (fun i op hm => ?_) hs)
  subst hm
  exact hstart d i op hC

omit [DecidableEq ι] in
theorem Good.ok_of_fail (h : Good A ok rest c) {i : ι} {op : Op} {e : ε}
    (hr : c.running i = some (op, .fail e)) : ok op e := by
  have hi := h.threads i
  rw [hr] at hi
  exact hi

section Alone

variable {prog : ι → Op → Prog (S × L) ε Unit} {C : Pool ι S L Op ε → Move ι Op → Prop} {i : ι} {op : Op}

def after (prog : ι → Op → Prog (S × L) ε Unit) (i : ι) (op : Op) (c : Pool ι S L Op ε) : Pool ι S L Op ε :=
  match (prog i op).eval (c.shared, c.locals i) with
  | .ok (_, s, l) => ⟨s, update c.locals i l, c.running⟩
  | .error _ => c

omit [Fintype ι] in
theorem run_of_eval {p : Prog (S × L) ε Unit} {s s' : S} {ls : ι → L} {l' : L}
    {r : ι → Option (Op × Prog (S × L) ε Unit)} (hC : ∀ c m, (∀ j o, m ≠ .start j o) → C c m)
    (he : p.eval (s, ls i) = .ok ((), s', l')) :
    Run (step prog) C ⟨s, ls, update r i (some (op, p))⟩
      ⟨s', update ls i l', update r i none⟩ := by
  induction p generalizing s ls with
  | ret a =>
    cases he
    apply Run.refl.tail (a := .finish i) (hC _ _ (fun _ _ h => nomatch h))
    simp only [step, update_self, update_idem, update_eq_self]
  | fail e => cases he
  | act f k ih =>
    have hfirst : Run (step prog) C ⟨s, ls, update r i (some (op, .act f k))⟩
        ⟨(f (s, ls i)).1, update ls i (f (s, ls i)).2,
          update r i (some (op, k (s, ls i)))⟩ := by
      apply Run.refl.tail (a := .act i) (hC _ _ (fun _ _ h => nomatch h))
      simp only [step, update_self, update_idem]
    have he' : (k (s, ls i)).eval ((f (s, ls i)).1, update ls i (f (s, ls i)).2 i) = .ok ((), s', l') := by
      rw [update_self]
      exact he
    have hrest := ih (s, ls i) he'
    rw [update_idem] at hrest
    exact hfirst.trans hrest
  | choose p q ihp ihq =>
    have hfirst : Run (step prog) C ⟨s, ls, update r i (some (op, .choose p q))⟩
        ⟨s, ls, update r i (some (op, q))⟩ := by
      apply Run.refl.tail (a := .right i) (hC _ _ (fun _ _ h => nomatch h))
      simp only [step, update_self, update_idem]
    exact hfirst.trans (ihq he)

omit [Fintype ι] in
theorem run_after (hC : ∀ c m, (∀ j o, m ≠ .start j o) → C c m) (hi : c.running i = none)
    (hstart : C c (.start i op)) (hok : ((prog i op).eval (c.shared, c.locals i)).toBool) :
    Run (step prog) C c (after prog i op c) := by
  cases he : (prog i op).eval (c.shared, c.locals i) with
  | error e =>
    rw [he] at hok
    cases hok
  | ok x =>
    obtain ⟨⟨⟩, s, l⟩ := x
    have hfirst : Run (step prog) C c ⟨c.shared, c.locals, update c.running i (some (op, prog i op))⟩ := by
      apply Run.refl.tail (a := .start i op) hstart
      simp only [step, hi]
    have hrest : Run (step prog) C ⟨c.shared, c.locals, update c.running i (some (op, prog i op))⟩
        ⟨s, update c.locals i l, update c.running i none⟩ := run_of_eval hC he
    have hnone : update c.running i none = c.running := by
      rw [← hi, update_eq_self]
    rw [hnone] at hrest
    rw [after, he]
    exact hfirst.trans hrest

def afterAll (prog : ι → Op → Prog (S × L) ε Unit) (ops : List (ι × Op)) (c : Pool ι S L Op ε) : Pool ι S L Op ε :=
  ops.foldl (fun c x => after prog x.1 x.2 c) c

def doable (prog : ι → Op → Prog (S × L) ε Unit) (allowed : Pool ι S L Op ε → ι → Op → Bool) :
    List (ι × Op) → Pool ι S L Op ε → Bool
  | [], _ => true
  | (i, op) :: ops, c => allowed c i op && ((prog i op).eval (c.shared, c.locals i)).toBool &&
      doable prog allowed ops (after prog i op c)

omit [Fintype ι] in
theorem running_after : (after prog i op c).running = c.running := by
  unfold after
  split <;> rfl

omit [Fintype ι] in
theorem run_afterAll {allowed : Pool ι S L Op ε → ι → Op → Bool} {ops : List (ι × Op)}
    (hC : ∀ c m, (∀ j o, m ≠ .start j o) → C c m) (hstart : ∀ c i op, allowed c i op = true → C c (.start i op))
    (hr : ∀ i, c.running i = none) (hd : doable prog allowed ops c = true) :
    Run (step prog) C c (afterAll prog ops c) := by
  induction ops generalizing c with
  | nil => exact .refl
  | cons x ops ih =>
    obtain ⟨i, op⟩ := x
    simp only [doable, Bool.and_eq_true] at hd
    have hfirst : Run (step prog) C c (after prog i op c) := run_after hC (hr i) (hstart c i op hd.1.1) hd.1.2
    apply hfirst.trans
    apply ih _ hd.2
    rw [running_after]
    exact hr

end Alone

end Pool

end Xv6.Lib
