import Xv6.Lib.Prog

namespace Xv6.Lib.Prog

variable {σ ε α β : Type} {I : σ → Prop} {R T : α → Prop}

def Preserves (I : σ → Prop) (m : Prog σ ε α) (R : α → Prop) : Prop :=
  ∀ s, I s → m.post s (fun a t => I t ∧ R a) (fun _ => True)

namespace Preserves

theorem pure {a : α} (h : R a) : Preserves I (Pure.pure a : Prog σ ε α) R := fun _ hs => ⟨hs, h⟩

theorem ret {a : α} (h : R a) : Preserves I (.ret a : Prog σ ε α) R := fun _ hs => ⟨hs, h⟩

theorem fail {e : ε} : Preserves I (.fail e : Prog σ ε α) R := fun _ _ => trivial

theorem mono {m : Prog σ ε α} (h : Preserves I m R) (hR : ∀ a, R a → T a) : Preserves I m T := by
  intro s hs
  apply post_mono (h s hs) _ (fun _ he => he)
  exact fun a _ hat => ⟨hat.1, hR a hat.2⟩

theorem bind {m : Prog σ ε α} {k : α → Prog σ ε β} {T : β → Prop} (h : Preserves I m R) (hk : ∀ a, R a → Preserves I (k a) T) :
    Preserves I (m >>= k) T := by
  intro s hs
  rw [post_bind]
  apply post_mono (h s hs) _ (fun _ he => he)
  exact fun a t hat => hk a hat.2 t hat.1

theorem read {f : σ → α} (h : ∀ s, I s → R (f s)) : Preserves I (.read f : Prog σ ε α) R := fun s hs => ⟨hs, h s hs⟩

theorem modify {f : σ → σ} (h : ∀ s, I s → I (f s)) : Preserves I (.modify f : Prog σ ε Unit) (fun _ => True) :=
  fun s hs => ⟨h s hs, trivial⟩

theorem step {f : σ → Except ε (α × σ)} (h : ∀ s a t, I s → f s = .ok (a, t) → I t ∧ R a) : Preserves I (.step f) R := by
  intro s hs
  rw [post_step]
  cases hf : f s with
  | ok r => exact h s r.1 r.2 hs hf
  | error e => trivial

theorem ite {c : Prop} [Decidable c] {m m' : Prog σ ε α} (h : c → Preserves I m R) (h' : ¬c → Preserves I m' R) :
    Preserves I (if c then m else m') R := by
  split
  · next hc => exact h hc
  · next hc => exact h' hc

theorem forM {l : List α} {f : α → Prog σ ε Unit} (h : ∀ a ∈ l, Preserves I (f a) (fun _ => True)) :
    Preserves I (l.forM f) (fun _ => True) := by
  induction l with
  | nil => exact pure trivial
  | cons a l ih =>
    exact (h a List.mem_cons_self).bind (fun _ _ => ih (fun b hb => h b (List.mem_cons_of_mem _ hb)))

end Preserves

end Xv6.Lib.Prog
