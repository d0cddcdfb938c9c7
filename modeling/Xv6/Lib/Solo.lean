import Xv6.Lib.Preserves

namespace Xv6.Lib.Prog

section

variable {σ ε α : Type} {s : σ} {Q Q' : α → σ → Prop} {E E' : ε → Prop}

theorem post_and {p : Prog σ ε α} (h : p.post s Q E) (h' : p.post s Q' E') :
    p.post s (fun a t => Q a t ∧ Q' a t) (fun e => E e ∧ E' e) := by
  induction p generalizing s with
  | ret a => exact ⟨h, h'⟩
  | fail e => exact ⟨h, h'⟩
  | act f k ih => exact ih s h h'
  | choose p q ihp ihq => exact ⟨ihp h.1 h'.1, ihq h.2 h'.2⟩

theorem post_true (p : Prog σ ε α) : p.post s (fun _ _ => True) (fun _ => True) := by
  induction p generalizing s with
  | ret a => trivial
  | fail e => trivial
  | act f k ih => exact ih s
  | choose p q ihp ihq => exact ⟨ihp, ihq⟩

theorem post_keeping {I : σ → Prop} {R : α → Prop} {p : Prog σ ε α} (h : p.post s Q E) (hI : Preserves I p R) (hs : I s) :
    p.post s (fun a t => Q a t ∧ I t) E := by
  apply post_mono (post_and h (hI s hs))
  · intro a t hat
    exact ⟨hat.1, hat.2.1⟩
  · intro e he
    exact he.1

end

theorem post_of_wp {S L M ε α : Type} [AddCommMonoid M] {A : Ledger S L M} {ok : ε → Prop} {m : Prog (S × L) ε α}
    {s : S} {l : L} {rest : M} {Q : α → L → Prop} (h : wp A ok m l Q) (hs : A.inv s (A.tok l + rest)) :
    m.post (s, l) (fun a x => A.inv x.1 (A.tok x.2 + rest) ∧ Q a x.2) ok := by
  induction m generalizing s l with
  | ret a => exact ⟨hs, h⟩
  | fail e => exact h
  | act f k ih =>
    obtain ⟨hinv, hk⟩ := h s rest hs
    exact ih (s, l) hk hinv
  | choose p q ihp ihq => exact ⟨ihp h.1 hs, ihq h.2 hs⟩

end Xv6.Lib.Prog
