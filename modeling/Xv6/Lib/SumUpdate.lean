import Mathlib.Algebra.BigOperators.Group.Finset.Basic
import Mathlib.Algebra.BigOperators.Group.Finset.Piecewise
import Mathlib.Data.Fintype.BigOperators
import Mathlib.Tactic.Abel

namespace Xv6.Lib

theorem sum_update_add {ι α M : Type*} [Fintype ι] [DecidableEq ι] [AddCommMonoid M]
    (f : ι → α → M) (g : ι → α) (i : ι) (a : α) :
    ∑ j, f j (Function.update g i a j) + f i (g i) = ∑ j, f j (g j) + f i a := by
  have hu : ∑ j, f j (Function.update g i a j) = f i a + ∑ j ∈ Finset.univ.erase i, f j (g j) := by
    rw [← Finset.add_sum_erase _ _ (Finset.mem_univ i), Function.update_self]
    congr 1
    apply Finset.sum_congr rfl
    intro j hj
    rw [Function.update_of_ne (Finset.ne_of_mem_erase hj)]
  rw [hu, ← Finset.add_sum_erase _ (fun j => f j (g j)) (Finset.mem_univ i)]
  abel

theorem add_le_sum_of_ne {ι α : Type} [Fintype ι] [DecidableEq ι] (f : ι → Multiset α) {i j : ι} (h : i ≠ j) :
    f i + f j ≤ ∑ k, f k := by
  have hj : j ∈ Finset.univ.erase i := Finset.mem_erase.mpr ⟨h.symm, Finset.mem_univ j⟩
  rw [← Finset.add_sum_erase Finset.univ f (Finset.mem_univ i), ← Finset.add_sum_erase _ f hj, ← add_assoc]
  exact Multiset.le_add_right _ _

theorem le_sum_of_term {ι α : Type} [Fintype ι] [DecidableEq ι] (f : ι → Multiset α) (i : ι) : f i ≤ ∑ k, f k := by
  rw [← Finset.add_sum_erase Finset.univ f (Finset.mem_univ i)]
  exact Multiset.le_add_right _ _

end Xv6.Lib
