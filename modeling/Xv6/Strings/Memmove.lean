import Mathlib.Data.Int.Notation
import Mathlib.Data.Nat.Notation
import Mathlib.Logic.Function.Basic
import Mathlib.Tactic.SplitIfs

namespace Xv6.Strings

abbrev Memory := ℕ → UInt8

def copyUp (mem : Memory) (d s : ℕ) : ℕ → Memory
  | 0 => mem
  | n + 1 => copyUp (Function.update mem d (mem s)) (d + 1) (s + 1) n

def copyDown (mem : Memory) (d s : ℕ) : ℕ → Memory
  | 0 => mem
  | n + 1 => copyDown (Function.update mem (d - 1) (mem (s - 1))) (d - 1) (s - 1) n

variable {mem : Memory} {d s n : ℕ}

theorem copyUp_apply (h : d ≤ s ∨ s + n ≤ d) (a : ℕ) :
    copyUp mem d s n a = if d ≤ a ∧ a < d + n then mem (s + (a - d)) else mem a := by
  induction n generalizing mem d s with
  | zero =>
    rw [if_neg (by omega)]
    rfl
  | succ n ih =>
    rw [copyUp, ih (by omega)]
    by_cases hin : d + 1 ≤ a ∧ a < d + 1 + n
    · -- the byte for `a` has not been overwritten: it is not at `d`
      have hsrc : s + 1 + (a - (d + 1)) = s + (a - d) := by omega
      rw [if_pos hin, if_pos (by omega), Function.update_of_ne (by omega), hsrc]
    · rw [if_neg hin]
      by_cases ha : a = d
      · rw [ha, Function.update_self, if_pos (by omega), Nat.sub_self, Nat.add_zero]
      · rw [Function.update_of_ne ha, if_neg (by omega)]

theorem copyDown_apply (h : s ≤ d ∨ d + n ≤ s) (a : ℕ) :
    copyDown mem (d + n) (s + n) n a = if d ≤ a ∧ a < d + n then mem (s + (a - d)) else mem a := by
  induction n generalizing mem with
  | zero =>
    rw [if_neg (by omega)]
    rfl
  | succ n ih =>
    rw [copyDown, show d + (n + 1) - 1 = d + n from rfl, show s + (n + 1) - 1 = s + n from rfl, ih (by omega)]
    by_cases hin : d ≤ a ∧ a < d + n
    · rw [if_pos hin, if_pos (by omega), Function.update_of_ne (by omega)]
    · rw [if_neg hin]
      by_cases ha : a = d + n
      · rw [ha, Function.update_self, if_pos (by omega), Nat.add_sub_cancel_left]
      · rw [Function.update_of_ne ha, if_neg (by omega)]

namespace Kernel

def memmove (mem : Memory) (dst src n : ℕ) : Memory :=
  if n = 0 then mem
  else if src < dst ∧ src + n > dst then copyDown mem (dst + n) (src + n) n
  else copyUp mem dst src n

theorem memmove_apply (mem : Memory) (dst src n a : ℕ) :
    memmove mem dst src n a = if dst ≤ a ∧ a < dst + n then mem (src + (a - dst)) else mem a := by
  unfold memmove
  split_ifs with hn hlt
  · omega
  · rfl
  · rw [copyDown_apply (by omega), if_pos (by assumption)]
  · rw [copyDown_apply (by omega), if_neg (by assumption)]
  · rw [copyUp_apply (by omega), if_pos (by assumption)]
  · rw [copyUp_apply (by omega), if_neg (by assumption)]

end Kernel

namespace User

def memmove (mem : Memory) (dst src : ℕ) (n : ℤ) : Memory :=
  if src > dst then copyUp mem dst src n.toNat else copyDown mem (dst + n.toNat) (src + n.toNat) n.toNat

theorem memmove_apply (mem : Memory) (dst src : ℕ) (n : ℤ) (a : ℕ) :
    memmove mem dst src n a = if dst ≤ a ∧ a < dst + n.toNat then mem (src + (a - dst)) else mem a := by
  unfold memmove
  by_cases hlt : src > dst
  · rw [if_pos hlt, copyUp_apply (by omega)]
  · rw [if_neg hlt, copyDown_apply (by omega)]

end User

/-- Both versions of `memmove` give the destination the bytes that the source had and change nothing else. -/
theorem memmove_overlap (mem : Memory) (dst src n : ℕ) :
    (∀ i < n, Kernel.memmove mem dst src n (dst + i) = mem (src + i)) ∧
    (∀ i < n, User.memmove mem dst src n (dst + i) = mem (src + i)) ∧
    (∀ a, a < dst ∨ dst + n ≤ a → Kernel.memmove mem dst src n a = mem a ∧ User.memmove mem dst src n a = mem a) ∧
    Kernel.memmove mem dst src n = User.memmove mem dst src n ∧
    ∀ k : ℤ, k < 0 → User.memmove mem dst src k = mem := by
  have hagree : Kernel.memmove mem dst src n = User.memmove mem dst src n := by
    funext a
    rw [Kernel.memmove_apply, User.memmove_apply, Int.toNat_natCast]
  have hcopied : ∀ i < n, Kernel.memmove mem dst src n (dst + i) = mem (src + i) := by
    intro i hi
    rw [Kernel.memmove_apply, if_pos (by omega), Nat.add_sub_cancel_left]
  have hrest : ∀ a, a < dst ∨ dst + n ≤ a → Kernel.memmove mem dst src n a = mem a := by
    intro a ha
    rw [Kernel.memmove_apply, if_neg (by omega)]
  refine ⟨hcopied, ?_, ?_, hagree, ?_⟩
  · rw [← hagree]
    exact hcopied
  · intro a ha
    rw [← hagree]
    exact ⟨hrest a ha, hrest a ha⟩
  · intro k hk
    funext a
    rw [User.memmove_apply, if_neg (by omega)]

end Xv6.Strings
