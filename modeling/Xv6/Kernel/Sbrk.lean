import Xv6.Kernel.AddressSpace

namespace Xv6.Kernel

open Lib Vm Prog

def argint (reg : UInt64) : ℤ := (reg.toNat : ℤ).bmod (2 ^ 32)

section

variable {sys : Sys} {ok : Panic → Prop} {s : Shared} {l : Local} {rest : Tokens} {pt : PageTable} {reg : UInt64} {n : ℕ}

theorem bmod_eq (m : ℕ) : (m : ℤ).bmod (2 ^ 32) =
    if m % 2 ^ 32 < 2 ^ 31 then ((m % 2 ^ 32 : ℕ) : ℤ) else ((m % 2 ^ 32 : ℕ) : ℤ) - 2 ^ 32 := by
  rw [Int.bmod_def]
  push_cast
  split_ifs <;> omega

def Moves (l : Local) (pt : PageTable) (n r : ℤ) (l' : Local) : Prop :=
  r = -1 ∧ l'.proc.sz = l.proc.sz ∧ (∃ pt', l'.proc.pagetable = some pt' ∧ ∀ va < 2 ^ 39, pt'.leaf va = pt.leaf va) ∨
    r = 0 ∧ (l'.proc.sz : ℤ) = l.proc.sz + n

theorem wp_growproc_moves (ht : l.proc.pagetable = some pt) (htrap : pt.leaf Vm.trapframe ≠ none) (hsz : l.proc.sz < 2 ^ 31)
    (hmapped : ∀ va < pgRoundUp l.proc.sz, pt.leaf va ≠ none)
    (hclear : ∀ va, pgRoundUp l.proc.sz ≤ va → (va : ℤ) < pgRoundUp (l.proc.sz + argint reg).toNat → pt.leaf va = none)
    (hneg : 0 ≤ (l.proc.sz : ℤ) + argint reg) :
    wp (ledger sys True) ok (growproc sys (reg.toNat % 2 ^ 32)) l (Moves l pt (argint reg)) := by
  have lax : ¬ True → ∀ e, ok e := fun hn => absurd trivial hn
  have hn32 : reg.toNat % 2 ^ 32 < 2 ^ 32 := Nat.mod_lt _ (by norm_num)
  have harg : argint reg = _ := bmod_eq reg.toNat
  generalize argint reg = a at *
  generalize reg.toNat % 2 ^ 32 = n at *
  have hold : l.proc.sz % 2 ^ 32 = l.proc.sz := Nat.mod_eq_of_lt (by omega)
  have hmoved : ((l.proc.sz + n) % 2 ^ 32 : ℕ) = (l.proc.sz : ℤ) + a := by
    split_ifs at harg <;> omega
  have hset : ∀ m : ℕ, ∀ l' : Local, (m : ℤ) = l.proc.sz + a → wp (ledger sys True) ok (do
      modifyLocal (·.mapProc (fun p => { p with sz := m % 2 ^ 32 }))
      return (0 : ℤ)) l' (Moves l pt a) := by
    intro m l' hm
    rw [wp_bind]
    apply wp_modifyLocal
    · exact tokens_setSz _
    right
    have hmod : m % 2 ^ 32 = m := by
      apply Nat.mod_eq_of_lt
      split_ifs at harg <;> omega
    refine ⟨rfl, ?_⟩
    change ((m % 2 ^ 32 : ℕ) : ℤ) = _
    rw [hmod, hm]
  have hkeep : ∀ pt', (∀ va < 2 ^ 39, pt'.leaf va = pt.leaf va) → Moves l pt a (-1) (l.setTable .own (some pt')) := by
    intro pt' hleaf
    left
    exact ⟨rfl, rfl, pt', rfl, hleaf⟩
  rw [growproc, wp_bind]
  apply wp_myproc
  dsimp only
  rw [hold]
  by_cases hpos : 0 < n ∧ n < 2 ^ 31
  · rw [if_pos hpos, wp_bind]
    have htarget : (l.proc.sz + n) % 2 ^ 32 = (l.proc.sz + a).toNat := by omega
    have hlarger : l.proc.sz < (l.proc.sz + n) % 2 ^ 32 := by
      rw [if_pos hpos.2] at harg
      omega
    have hnew : (l.proc.sz + n) % 2 ^ 32 < 2 ^ 32 := Nat.mod_lt _ (by norm_num)
    apply wp_uvmalloc lax (show l.table .own = some pt from ht) htrap (small_le_trapframe (by omega))
    · right
      refine ⟨small_le_maxVa hnew, fun va hlo hhi => ?_⟩
      rw [htarget] at hhi
      exact hclear va hlo (by exact_mod_cast hhi)
    · intro hlt
      omega
    · intro pt' _ _ _
      rw [if_neg (by omega)]
      exact hset _ _ hmoved
    · intro pt' hleaf
      rw [if_pos rfl]
      exact hkeep pt' hleaf
  · rw [if_neg hpos]
    by_cases h0 : n = 0
    · rw [if_pos h0, wp_bind]
      apply hset
      rw [h0, add_zero, hold] at hmoved
      exact hmoved
    · rw [if_neg h0, wp_bind]
      have hsmaller : (l.proc.sz + n) % 2 ^ 32 < l.proc.sz := by
        rw [if_neg (by omega)] at harg
        omega
      apply wp_uvmdealloc lax (show l.table .own = some pt from ht) (small_le_trapframe (by omega))
      · intro _ va _ hhi
        exact hmapped va hhi
      · intro hle
        omega
      · intro pt' _ _
        exact hset _ _ hmoved

end

end Xv6.Kernel
