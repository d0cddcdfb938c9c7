import Mathlib.Algebra.Group.Defs

namespace Xv6.Lib

/-- Programs made of atomic actions on a state, with panics and free choices. What follows an action
sees the state before it. -/
inductive Prog (σ ε α : Type) : Type
  | ret (a : α)
  | fail (e : ε)
  | act (f : σ → σ) (k : σ → Prog σ ε α)
  | choose (p q : Prog σ ε α)

namespace Prog

variable {σ ε α β : Type}

protected def bind : Prog σ ε α → (α → Prog σ ε β) → Prog σ ε β
  | ret a, g => g a
  | fail e, _ => fail e
  | act f k, g => act f (fun s => (k s).bind g)
  | choose p q, g => choose (p.bind g) (q.bind g)

instance : Monad (Prog σ ε) where
  pure := ret
  bind := Prog.bind

def read (f : σ → α) : Prog σ ε α := act id (fun s => ret (f s))

def modify (f : σ → σ) : Prog σ ε Unit := act f (fun _ => ret ())

def step (m : σ → Except ε (α × σ)) : Prog σ ε α :=
  act (fun s => match m s with
    | .ok (_, t) => t
    | .error _ => s)
    (fun s => match m s with
    | .ok (a, _) => ret a
    | .error e => fail e)

def eval : Prog σ ε α → σ → Except ε (α × σ)
  | ret a, s => .ok (a, s)
  | fail e, _ => .error e
  | act f k, s => (k s).eval (f s)
  | choose _ q, s => q.eval s

def post : Prog σ ε α → σ → (α → σ → Prop) → (ε → Prop) → Prop
  | ret a, s, Q, _ => Q a s
  | fail e, _, _, E => E e
  | act f k, s, Q, E => (k s).post (f s) Q E
  | choose p q, s, Q, E => p.post s Q E ∧ q.post s Q E

def returns : Prog σ ε α → σ → α → σ → Prop
  | ret b, s, a, t => a = b ∧ t = s
  | fail _, _, _, _ => False
  | act f k, s, a, t => (k s).returns (f s) a t
  | choose p q, s, a, t => p.returns s a t ∨ q.returns s a t

variable {s t : σ} {Q Q' : α → σ → Prop} {E E' : ε → Prop}

@[simp] theorem post_pure (a : α) : (pure a : Prog σ ε α).post s Q E ↔ Q a s := Iff.rfl

@[simp] theorem post_fail (e : ε) : (fail e : Prog σ ε α).post s Q E ↔ E e := Iff.rfl

@[simp] theorem post_read (f : σ → α) : (read f : Prog σ ε α).post s Q E ↔ Q (f s) s := Iff.rfl

@[simp] theorem post_modify (f : σ → σ) {Q : Unit → σ → Prop} :
    (modify f : Prog σ ε Unit).post s Q E ↔ Q () (f s) := Iff.rfl

theorem post_step {m : σ → Except ε (α × σ)} :
    (step m).post s Q E ↔ match m s with
      | .ok (a, t) => Q a t
      | .error e => E e := by
  simp only [step, post]
  cases hm : m s with
  | ok x => rfl
  | error e => rfl

@[simp] theorem post_bind (p : Prog σ ε α) (g : α → Prog σ ε β) {Q : β → σ → Prop} :
    (p >>= g).post s Q E ↔ p.post s (fun a t => (g a).post t Q E) E := by
  change (p.bind g).post s Q E ↔ _
  induction p generalizing s with
  | ret a => rfl
  | fail e => rfl
  | act f k ih => exact ih s
  | choose p q ihp ihq => exact and_congr ihp ihq

@[simp] theorem post_ite {c : Prop} [Decidable c] {p q : Prog σ ε α} :
    (if c then p else q).post s Q E ↔ if c then p.post s Q E else q.post s Q E := by
  split <;> rfl

theorem post_mono {p : Prog σ ε α} (h : p.post s Q E) (hQ : ∀ a t, Q a t → Q' a t) (hE : ∀ e, E e → E' e) :
    p.post s Q' E' := by
  induction p generalizing s with
  | ret a => exact hQ a s h
  | fail e => exact hE e h
  | act f k ih => exact ih s h
  | choose p q ihp ihq => exact ⟨ihp h.1, ihq h.2⟩

theorem post_returns {p : Prog σ ε α} {a : α} (h : p.post s Q E) (hr : p.returns s a t) : Q a t := by
  induction p generalizing s with
  | ret b =>
    obtain ⟨rfl, rfl⟩ := hr
    exact h
  | fail e => exact hr.elim
  | act f k ih => exact ih s h hr
  | choose p q ihp ihq => exact hr.elim (ihp h.1) (ihq h.2)

theorem returns_of_eval {p : Prog σ ε α} {a : α} (he : p.eval s = .ok (a, t)) : p.returns s a t := by
  induction p generalizing s with
  | ret b =>
    cases he
    exact ⟨rfl, rfl⟩
  | fail e => cases he
  | act f k ih => exact ih s he
  | choose p q _ ihq => exact Or.inr (ihq he)

end Prog

/-- How local states account for a shared one: each local state holds tokens, and the shared state
agrees with all tokens together. -/
structure Ledger (S L M : Type) where
  inv : S → M → Prop
  tok : L → M

namespace Prog

section Wp

variable {S L M ε α β : Type} [AddCommMonoid M] (A : Ledger S L M) (ok : ε → Prop)

/-- The weakest precondition of a program that runs beside others: whatever tokens the others hold,
each action keeps the ledger right; no panic is reached but those that are `ok`. -/
def wp : Prog (S × L) ε α → L → (α → L → Prop) → Prop
  | ret a, l, Q => Q a l
  | fail e, _, _ => ok e
  | act f k, l, Q => ∀ s rest, A.inv s (A.tok l + rest) →
    A.inv (f (s, l)).1 (A.tok (f (s, l)).2 + rest) ∧ wp (k (s, l)) (f (s, l)).2 Q
  | choose p q, l, Q => wp p l Q ∧ wp q l Q

variable {A ok} {l : L} {Q Q' : α → L → Prop}

@[simp] theorem wp_pure (a : α) : wp A ok (pure a) l Q ↔ Q a l := Iff.rfl

@[simp] theorem wp_fail (e : ε) : wp A ok (fail e) l Q ↔ ok e := Iff.rfl

@[simp] theorem wp_bind (p : Prog (S × L) ε α) (g : α → Prog (S × L) ε β) {Q : β → L → Prop} :
    wp A ok (p >>= g) l Q ↔ wp A ok p l (fun a l' => wp A ok (g a) l' Q) := by
  change wp A ok (p.bind g) l Q ↔ _
  induction p generalizing l with
  | ret a => rfl
  | fail e => rfl
  | act f k ih => exact forall₃_congr (fun s _ _ => and_congr_right' (ih (s, l)))
  | choose p q ihp ihq => exact and_congr ihp ihq

@[simp] theorem wp_ite {c : Prop} [Decidable c] {p q : Prog (S × L) ε α} :
    wp A ok (if c then p else q) l Q ↔ if c then wp A ok p l Q else wp A ok q l Q := by
  split <;> rfl

theorem wp_mono {p : Prog (S × L) ε α} (h : wp A ok p l Q) (hQ : ∀ a l', Q a l' → Q' a l') :
    wp A ok p l Q' := by
  induction p generalizing l with
  | ret a => exact hQ a l h
  | fail e => exact h
  | act f k ih => exact fun s rest hs => ⟨(h s rest hs).1, ih (s, l) (h s rest hs).2⟩
  | choose p q ihp ihq => exact ⟨ihp h.1, ihq h.2⟩

theorem wp_read {f : S × L → α} (h : ∀ s rest, A.inv s (A.tok l + rest) → Q (f (s, l)) l) :
    wp A ok (read f) l Q := fun s rest hs => ⟨hs, h s rest hs⟩

theorem wp_step {m : S × L → Except ε (α × (S × L))}
    (h : ∀ s rest, A.inv s (A.tok l + rest) → match m (s, l) with
      | .ok (a, s', l') => A.inv s' (A.tok l' + rest) ∧ Q a l'
      | .error e => ok e) : wp A ok (step m) l Q := by
  intro s rest hs
  have := h s rest hs
  cases hm : m (s, l) with
  | ok x =>
    simp only [hm] at this ⊢
    exact this
  | error e =>
    simp only [hm] at this ⊢
    exact ⟨hs, this⟩

theorem wp_modify {f : S × L → S × L} {Q : Unit → L → Prop}
    (h : ∀ s rest, A.inv s (A.tok l + rest) →
      A.inv (f (s, l)).1 (A.tok (f (s, l)).2 + rest) ∧ Q () (f (s, l)).2) :
    wp A ok (modify f) l Q := h

theorem wp_forM {f : β → Prog (S × L) ε Unit} {xs : List β} {I : List β → L → Prop} (h : I [] l)
    (hstep : ∀ done x rest, xs = done ++ x :: rest → ∀ l, I done l →
      wp A ok (f x) l (fun _ => I (done ++ [x]))) :
    wp A ok (xs.forM f) l (fun _ => I xs) := by
  suffices hgen : ∀ rest done, xs = done ++ rest → ∀ l, I done l → wp A ok (rest.forM f) l (fun _ => I xs) from
    hgen xs [] rfl l h
  intro rest
  induction rest with
  | nil =>
    rintro done rfl l hl
    simpa using hl
  | cons x rest ih =>
    intro done hxs l hl
    simp only [List.forM, wp_bind]
    exact wp_mono (hstep done x rest hxs l hl) (fun _ l' hl' => ih (done ++ [x]) (by simp [hxs]) l' hl')

end Wp

end Prog

end Xv6.Lib
