import Xv6.Lib.SumUpdate

namespace Xv6.Lib

structure Table (n : ℕ) (τ α : Type) where
  tag : τ
  entry : Fin n → Option α

namespace Table

variable {n : ℕ} {τ α M : Type} [AddCommMonoid M] {t : Table n τ α} {i j : Fin n} {o : Option α}

def empty (tag : τ) : Table n τ α := ⟨tag, fun _ => none⟩

def set (t : Table n τ α) (i : Fin n) (o : Option α) : Table n τ α :=
  ⟨t.tag, Function.update t.entry i o⟩

@[simp] theorem tag_set : (t.set i o).tag = t.tag := rfl

@[simp] theorem entry_set_self : (t.set i o).entry i = o := Function.update_self _ _ _

theorem entry_set : (t.set i o).entry j = if j = i then o else t.entry j := Function.update_apply _ _ _ _

@[simp] theorem set_entry_self : t.set i (t.entry i) = t := by
  simp only [set, Function.update_eq_self]

@[simp] theorem set_set {o' : Option α} : (t.set i o).set i o' = t.set i o' := by
  simp only [set, Function.update_idem]

@[irreducible] def total (m : Fin n → α → M) (t : Table n τ α) : M := ∑ i, (t.entry i).elim 0 (m i)

theorem total_eq_zero (m : Fin n → α → M) (h : ∀ i, t.entry i = none) : total m t = 0 := by
  simp [total, h]

@[simp] theorem total_empty (m : Fin n → α → M) (tag : τ) : total m (empty tag : Table n τ α) = 0 :=
  total_eq_zero m (fun _ => rfl)

theorem total_set (m : Fin n → α → M) :
    total m (t.set i o) + (t.entry i).elim 0 (m i) = total m t + o.elim 0 (m i) := by
  unfold total
  exact sum_update_add (fun j o => o.elim 0 (m j)) t.entry i o

end Table

end Xv6.Lib
