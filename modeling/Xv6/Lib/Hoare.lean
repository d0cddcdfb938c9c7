import Mathlib.Logic.Basic

namespace Xv6.Lib.Hoare

variable {σ ε α β : Type}

/-- Weakest precondition of a program with state and exceptions: `Q` of the result and the state
after it, or `E` of the exception. -/
def wp (m : StateT σ (Except ε) α) (s : σ) (Q : α → σ → Prop) (E : ε → Prop) : Prop :=
  match m s with
  | .ok (a, t) => Q a t
  | .error e => E e

variable {s t : σ} {Q Q' : α → σ → Prop} {E E' : ε → Prop} {m : StateT σ (Except ε) α}

@[simp] theorem wp_pure (a : α) : wp (pure a : StateT σ (Except ε) α) s Q E ↔ Q a s := Iff.rfl

@[simp] theorem wp_throw (e : ε) : wp (throw e : StateT σ (Except ε) α) s Q E ↔ E e := Iff.rfl

@[simp] theorem wp_get {Q : σ → σ → Prop} : wp (get : StateT σ (Except ε) σ) s Q E ↔ Q s s := Iff.rfl

@[simp] theorem wp_set {Q : PUnit → σ → Prop} :
    wp (set t : StateT σ (Except ε) PUnit) s Q E ↔ Q ⟨⟩ t := Iff.rfl

@[simp] theorem wp_modify (f : σ → σ) {Q : PUnit → σ → Prop} :
    wp (modify f : StateT σ (Except ε) PUnit) s Q E ↔ Q ⟨⟩ (f s) := Iff.rfl

@[simp] theorem wp_bind {m : StateT σ (Except ε) β} {f : β → StateT σ (Except ε) α} :
    wp (m >>= f) s Q E ↔ wp m s (fun b t => wp (f b) t Q E) E := by
  simp only [wp, bind, StateT.bind]
  cases h : m s <;> simp [Except.bind]

@[simp] theorem wp_ite {c : Prop} [Decidable c] {m' : StateT σ (Except ε) α} :
    wp (if c then m else m') s Q E ↔ if c then wp m s Q E else wp m' s Q E := by
  split <;> rfl

theorem wp_mono (h : wp m s Q E) (hQ : ∀ a t, Q a t → Q' a t) (hE : ∀ e, E e → E' e) :
    wp m s Q' E' := by
  unfold wp at h ⊢
  split at h
  · exact hQ _ _ h
  · exact hE _ h

theorem wp_forM {f : β → StateT σ (Except ε) PUnit} {l : List β} {I : List β → σ → Prop} (h : I [] s)
    (hstep : ∀ done x rest, l = done ++ x :: rest → ∀ t, I done t →
      wp (f x) t (fun _ => I (done ++ [x])) E) :
    wp (l.forM f) s (fun _ => I l) E := by
  suffices hgen : ∀ rest done, l = done ++ rest → ∀ t, I done t → wp (rest.forM f) t (fun _ => I l) E from
    hgen l [] rfl s h
  intro rest
  induction rest with
  | nil =>
    rintro done rfl t ht
    simpa using ht
  | cons x rest ih =>
    intro done hl t ht
    simp only [List.forM, wp_bind]
    refine wp_mono (hstep done x rest hl t ht) (fun _ u hu => ?_) (fun _ he => he)
    exact ih (done ++ [x]) (by simp [hl]) u hu

theorem wp_of_ok {a : α} (hm : m s = .ok (a, t)) (h : Q a t) : wp m s Q E := by
  simpa only [wp, hm] using h

theorem wp_ok {a : α} (h : wp m s Q E) (hm : m s = .ok (a, t)) : Q a t := by
  simpa only [wp, hm] using h

theorem wp_error {e : ε} (h : wp m s Q E) (hm : m s = .error e) : E e := by
  simpa only [wp, hm] using h

theorem exists_ok (h : wp m s Q (fun _ => False)) : ∃ a t, m s = .ok (a, t) ∧ Q a t := by
  unfold wp at h
  split at h
  · exact ⟨_, _, ‹_›, h⟩
  · exact h.elim

end Xv6.Lib.Hoare
