import Mathlib.Data.Nat.Notation
import Mathlib.Tactic.Ring
import Mathlib.Tactic.SplitIfs

namespace Xv6.Lib

abbrev Bytes (n : ℕ) := Fin n → UInt8

namespace Bytes

variable {n : ℕ}

def get (b : Bytes n) (i : ℕ) : UInt8 := if h : i < n then b ⟨i, h⟩ else 0

def patch (b : Bytes n) (off len : ℕ) (src : ℕ → UInt8) : Bytes n :=
  fun i => if off ≤ i ∧ i < off + len then src (i - off) else b i

def le (b : Bytes n) (off : ℕ) : ℕ → ℕ
  | 0 => 0
  | w + 1 => (b.get off).toNat + 256 * le b (off + 1) w

def setLe (b : Bytes n) (off w v : ℕ) : Bytes n :=
  b.patch off w (fun k => UInt8.ofNat (v / 256 ^ k))

@[ext] theorem ext_get {b c : Bytes n} (h : ∀ i < n, b.get i = c.get i) : b = c := by
  funext ⟨i, hi⟩
  simpa only [get, hi, ↓reduceDIte] using h i hi

theorem get_zero (i : ℕ) : get (fun _ => 0 : Bytes n) i = 0 := by
  unfold get
  split_ifs <;> rfl

theorem get_patch_of_mem {b : Bytes n} {off len i : ℕ} {src : ℕ → UInt8} (hi : i < n)
    (h : off ≤ i ∧ i < off + len) : (b.patch off len src).get i = src (i - off) := by
  simp only [get, patch, hi, ↓reduceDIte, h, and_self, ↓reduceIte]

theorem get_patch_of_not_mem {b : Bytes n} {off len i : ℕ} {src : ℕ → UInt8}
    (h : ¬ (off ≤ i ∧ i < off + len)) : (b.patch off len src).get i = b.get i := by
  unfold get patch
  simp only [h, ↓reduceIte]

theorem le_congr {b c : Bytes n} {off w : ℕ} (h : ∀ k < w, b.get (off + k) = c.get (off + k)) :
    le b off w = le c off w := by
  induction w generalizing off with
  | zero => rfl
  | succ w ih =>
    have h0 := h 0 (by omega)
    rw [Nat.add_zero] at h0
    rw [le, le, h0, ih]
    intro k hk
    have hk' := h (k + 1) (by omega)
    rwa [show off + (k + 1) = off + 1 + k by omega] at hk'

theorem le_of_digits {b : Bytes n} {off w v : ℕ}
    (h : ∀ k < w, b.get (off + k) = UInt8.ofNat (v / 256 ^ k)) : le b off w = v % 256 ^ w := by
  induction w generalizing off v with
  | zero => simp [le, Nat.mod_one]
  | succ w ih =>
    have h0 := h 0 (by omega)
    rw [Nat.add_zero, Nat.pow_zero, Nat.div_one] at h0
    have hrest : le b (off + 1) w = v / 256 % 256 ^ w := by
      apply ih
      intro k hk
      have hk' := h (k + 1) (by omega)
      rw [show off + (k + 1) = off + 1 + k by omega] at hk'
      rw [hk', Nat.div_div_eq_div_mul, pow_succ, Nat.mul_comm]
    rw [le, h0, hrest, UInt8.toNat_ofNat', Nat.pow_succ' (n := w), Nat.mod_mul]

theorem le_setLe {b : Bytes n} {off w : ℕ} (v : ℕ) (h : off + w ≤ n) :
    le (b.setLe off w v) off w = v % 256 ^ w := by
  apply le_of_digits
  intro k hk
  rw [setLe, get_patch_of_mem (by omega) (by omega), Nat.add_sub_cancel_left]

theorem le_setLe_of_disjoint {b : Bytes n} {off w off' w' v : ℕ}
    (h : off' + w' ≤ off ∨ off + w ≤ off') : le (b.setLe off w v) off' w' = le b off' w' := by
  apply le_congr
  intro k hk
  rw [setLe, get_patch_of_not_mem (by omega)]

theorem le_lt (b : Bytes n) (off w : ℕ) : le b off w < 256 ^ w := by
  induction w generalizing off with
  | zero => simp [le]
  | succ w ih =>
    have h := ih (off + 1)
    have hb := (b.get off).toNat_lt
    rw [le, pow_succ]
    omega

theorem le_zero (off w : ℕ) : le (fun _ => 0 : Bytes n) off w = 0 := by
  induction w generalizing off with
  | zero => rfl
  | succ w ih => rw [le, ih, get_zero]; rfl

end Bytes

end Xv6.Lib
