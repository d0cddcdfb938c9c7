import Xv6.Lib.Bytes

namespace Xv6.Lib.Bitmap

variable {n : ℕ}

def mask (i : ℕ) : UInt8 := 1 <<< UInt8.ofNat (i % 8)

def isClear (b : Bytes n) (i : ℕ) : Bool := b.get (i / 8) &&& mask i == 0

def set (b : Bytes n) (i : ℕ) : Bytes n := b.patch (i / 8) 1 (fun _ => b.get (i / 8) ||| mask i)

def reset (b : Bytes n) (i : ℕ) : Bytes n := b.patch (i / 8) 1 (fun _ => b.get (i / 8) &&& ~~~mask i)

theorem toBitVec_mask (i : ℕ) : (mask i).toBitVec = BitVec.twoPow 8 (i % 8) := by
  have h : ∀ j : Fin 8, (1 <<< UInt8.ofNat j.val : UInt8).toBitVec = BitVec.twoPow 8 j.val := by decide
  exact h ⟨i % 8, Nat.mod_lt _ (by decide)⟩

theorem and_mask_eq_zero (x : UInt8) (i : ℕ) :
    x &&& mask i = 0 ↔ x.toBitVec.getLsbD (i % 8) = false := by
  have hi : i % 8 < 8 := Nat.mod_lt _ (by decide)
  rw [← UInt8.toBitVec_inj, UInt8.toBitVec_and, toBitVec_mask, BitVec.and_twoPow]
  cases h : x.toBitVec.getLsbD (i % 8) with
  | false => simp
  | true =>
    simp only [↓reduceIte, Bool.true_eq_false, iff_false]
    intro hz
    have := congrArg (fun b : BitVec 8 => b.getLsbD (i % 8)) hz
    simp [hi] at this

theorem or_mask_eq_zero (x : UInt8) (i j : ℕ) :
    (x ||| mask i) &&& mask j = 0 ↔ i % 8 ≠ j % 8 ∧ x &&& mask j = 0 := by
  have hi : i % 8 < 8 := Nat.mod_lt _ (by decide)
  rw [and_mask_eq_zero, and_mask_eq_zero, UInt8.toBitVec_or, toBitVec_mask, BitVec.getLsbD_or,
    BitVec.getLsbD_twoPow]
  simp [hi, and_comm]

theorem and_not_mask_eq_zero (x : UInt8) (i j : ℕ) :
    (x &&& ~~~mask i) &&& mask j = 0 ↔ i % 8 = j % 8 ∨ x &&& mask j = 0 := by
  have hi : i % 8 < 8 := Nat.mod_lt _ (by decide)
  have hj : j % 8 < 8 := Nat.mod_lt _ (by decide)
  rw [and_mask_eq_zero, and_mask_eq_zero, UInt8.toBitVec_and, UInt8.toBitVec_not, toBitVec_mask,
    BitVec.getLsbD_and, BitVec.getLsbD_not, BitVec.getLsbD_twoPow]
  cases x.toBitVec.getLsbD (j % 8) <;> simp [hi, hj]

theorem isClear_set {b : Bytes n} {i j : ℕ} (hi : i / 8 < n) :
    isClear (set b i) j = true ↔ i ≠ j ∧ isClear b j = true := by
  unfold isClear set
  by_cases hij : j / 8 = i / 8
  · rw [Bytes.get_patch_of_mem (by omega) (by omega), hij]
    simp only [beq_iff_eq, or_mask_eq_zero]
    exact and_congr_left (fun _ => not_congr (by omega))
  · rw [Bytes.get_patch_of_not_mem (by omega)]
    exact (and_iff_right (by rintro rfl; exact hij rfl)).symm

theorem isClear_reset {b : Bytes n} {i j : ℕ} (hi : i / 8 < n) :
    isClear (reset b i) j = true ↔ i = j ∨ isClear b j = true := by
  unfold isClear reset
  by_cases hij : j / 8 = i / 8
  · rw [Bytes.get_patch_of_mem (by omega) (by omega), hij]
    simp only [beq_iff_eq, and_not_mask_eq_zero]
    exact or_congr_left (by omega)
  · rw [Bytes.get_patch_of_not_mem (by omega)]
    exact (or_iff_right (by rintro rfl; exact hij rfl)).symm

end Xv6.Lib.Bitmap
