import Mathlib.Tactic.SplitIfs

namespace Xv6.Lib.Transition

variable {S A : Type*}

inductive Run (step : S → A → Option S) (C : S → A → Prop) (s₀ : S) : S → Prop
  | refl : Run step C s₀ s₀
  | tail {s t : S} {a : A} : Run step C s₀ s → C s a → step s a = some t → Run step C s₀ t

theorem Run.invariant {step : S → A → Option S} {C : S → A → Prop} {s₀ s : S} {I : S → Prop}
    (h : Run step C s₀ s) (hi : I s₀)
    (hs : ∀ s a t, I s → C s a → step s a = some t → I t) : I s := by
  induction h with
  | refl => exact hi
  | tail _ hc he ih => exact hs _ _ _ ih hc he

theorem Run.trans {step : S → A → Option S} {C : S → A → Prop} {s₀ s t : S}
    (h : Run step C s₀ s) (h' : Run step C s t) : Run step C s₀ t := by
  induction h' with
  | refl => exact h
  | tail _ hc he ih => exact ih.tail hc he

def execute (step : S → A → Option S) (C : S → A → Prop) [∀ s a, Decidable (C s a)] :
    S → List A → Option S
  | s, [] => some s
  | s, a :: as => if C s a then (step s a).bind (fun t => execute step C t as) else none

theorem run_of_execute {step : S → A → Option S} {C : S → A → Prop} [∀ s a, Decidable (C s a)]
    {s t : S} {as : List A} (h : execute step C s as = some t) : Run step C s t := by
  induction as generalizing s with
  | nil =>
    simp only [execute, Option.some.injEq] at h
    rw [← h]
    exact .refl
  | cons a as ih =>
    simp only [execute] at h
    split_ifs at h with hc
    obtain ⟨u, hu, ht⟩ := Option.bind_eq_some_iff.mp h
    exact (Run.refl.tail hc hu).trans (ih ht)

end Xv6.Lib.Transition
