import Xv6.Kernel.Sbrk
import Xv6.Kernel.UserMemory

namespace Xv6.Kernel

open Lib Vm Prog

def nextOff (type : FileType) (off : ℕ) (r : ℤ) : ℕ :=
  if type = .inode ∧ 0 < r then (off + r.toNat) % 2 ^ 32 else off

structure Within (pt : PageTable) (x : KState) (type : FileType) (addr off : ℕ) (n r : ℤ) (y : KState) : Prop where
  stores : ∀ b, ¬ (addr ≤ b ∧ (b : ℤ) < addr + max n 0) → seen pt y.1 b = seen pt x.1 b
  result : r ≤ max n 0
  offset : (nextOff type off r : ℤ) ≤ off + max n 0

structure Confined (pt : PageTable) (x y : KState) (a n : ℕ) : Prop where
  thread : y.2 = x.2
  ftable : y.1.ftable = x.1.ftable
  outside : ∀ b, ¬ (a ≤ b ∧ b < a + n) → seen pt y.1 b = seen pt x.1 b

section

variable {sys : Sys} {x y z : KState} {pt : PageTable} {a n m off tot fuel : ℕ} {ip : Fin nInode} {E : Panic → Prop}

theorem Confined.refl (x : KState) (a n : ℕ) : Confined pt x x a n := ⟨rfl, rfl, fun _ _ => rfl⟩

theorem Confined.trans (h : Confined pt x y a n) (h' : Confined pt y z a n) : Confined pt x z a n :=
  ⟨h'.thread.trans h.thread, h'.ftable.trans h.ftable, fun b hb => (h'.outside b hb).trans (h.outside b hb)⟩

theorem Confined.mono {a' n' : ℕ} (h : Confined pt x y a n) (hlo : a' ≤ a) (hhi : a + n ≤ a' + n') : Confined pt x y a' n' :=
  ⟨h.thread, h.ftable, fun b hb => h.outside b (by omega)⟩

theorem Confined.table (h : Confined pt x y a n) (hx : x.2.table .own = some pt) : y.2.table .own = some pt := by
  rw [h.thread]
  exact hx

theorem Wrote.confined {src : ℕ → UInt8} (h : Wrote pt x y a m src) (hm : m ≤ n) : Confined pt x y a n := by
  refine ⟨?_, ?_, fun b hb => h.outside b (by omega)⟩
  · rw [h.state]
  · rw [h.state]

theorem confined_copyout {src : ℕ → UInt8} (h : x.2.table .own = some pt) (hap : Apart pt) :
    (copyout .own a src n).post x (fun _ y => Confined pt x y a n) E := by
  apply post_mono (post_copyout h hap) _ (fun _ he => he)
  rintro _ y ⟨k, hk, hwrote, -⟩
  exact hwrote.confined hk

theorem confined_fsCall {α : Type} {g : Fs.FsM α} :
    (fsCall g).post x (fun _ y => Confined pt x y a n) (fun _ => True) := by
  rw [fsCall, fsStep, post_step]
  cases hg : g x.1.fs with
  | ok r => exact ⟨rfl, rfl, fun _ _ => rfl⟩
  | error e => trivial

theorem confined_readiLoop {dst : ℕ} (h : x.2.table .own = some pt) (hap : Apart pt) (htot : tot ≤ n) :
    (readiLoop sys ip fuel dst off n tot).post x (fun r y => Confined pt x y dst (n - tot) ∧ r ≤ n) (fun _ => True) := by
  induction fuel generalizing x dst off tot with
  | zero => exact ⟨Confined.refl x _ _, by exact_mod_cast htot⟩
  | succ fuel ih =>
    unfold readiLoop
    by_cases hlt : tot < n
    · rw [if_pos hlt, post_bind]
      apply post_mono (Q := fun _ y => Confined pt x y dst (n - tot)) confined_fsCall _ (fun _ he => he)
      intro bp y hy
      obtain ⟨k, hk⟩ : ∃ k, min (n - tot) (bSize - off % bSize) = k := ⟨_, rfl⟩
      rw [hk, post_bind]
      apply post_mono (confined_copyout (hy.table h) hap) _ (fun _ he => he)
      intro copied z hz
      have hsofar : Confined pt x z dst (n - tot) := hy.trans (hz.mono (le_refl _) (by omega))
      cases copied with
      | false => exact ⟨hsofar, (show (-1 : ℤ) ≤ 0 by decide).trans (by positivity)⟩
      | true =>
        rw [if_pos rfl]
        apply post_mono (ih (hsofar.table h) (by omega)) _ (fun _ he => he)
        rintro r w ⟨hw, hr⟩
        exact ⟨hsofar.trans (hw.mono (by omega) (by omega)), hr⟩
    · rw [if_neg hlt]
      exact ⟨Confined.refl x _ _, by exact_mod_cast htot⟩

theorem confined_readi {dst : ℕ} (h : x.2.table .own = some pt) (hap : Apart pt) (hoff : off < 2 ^ 32) (hn : n < 2 ^ 32) :
    (readi sys ip dst off n).post x (fun r y => Confined pt x y dst n ∧ r ≤ n) (fun _ => True) := by
  rw [readi, post_bind, post_read, post_ite]
  by_cases hout : off > (x.1.fs.itable ip).size ∨ (off + n) % 2 ^ 32 < off
  · rw [if_pos hout]
    exact ⟨Confined.refl x _ _, by positivity⟩
  · rw [if_neg hout]
    obtain ⟨m, hm, hle⟩ : ∃ m, (if (off + n) % 2 ^ 32 > (x.1.fs.itable ip).size then (x.1.fs.itable ip).size - off
        else n) = m ∧ m ≤ n := by
      refine ⟨_, rfl, ?_⟩
      split_ifs <;> omega
    rw [hm]
    apply post_mono (confined_readiLoop h hap (Nat.zero_le m)) _ (fun _ he => he)
    rintro r y ⟨hy, hr⟩
    exact ⟨hy.mono (le_refl _) (by omega), hr.trans (by exact_mod_cast hle)⟩

theorem confined_deliver {bs : List UInt8} (h : x.2.table .own = some pt) (hap : Apart pt) :
    (deliver bs a).post x (fun r y => Confined pt x y a bs.length ∧ r ≤ bs.length) (fun _ => True) := by
  induction bs generalizing x a with
  | nil => exact ⟨Confined.refl x _ _, le_refl _⟩
  | cons b bs ih =>
    rw [deliver, post_bind]
    apply post_mono (confined_copyout h hap) _ (fun _ he => he)
    intro copied y hy
    have hsofar : Confined pt x y a (b :: bs).length := hy.mono (le_refl _) (by rw [List.length_cons]; omega)
    cases copied with
    | false => exact ⟨hsofar, Nat.zero_le _⟩
    | true =>
      rw [if_pos rfl, post_bind]
      apply post_mono (ih (hy.table h)) _ (fun _ he => he)
      rintro r z ⟨hz, hr⟩
      rw [List.length_cons] at hsofar ⊢
      exact ⟨hsofar.trans (hz.mono (by omega) (by omega)), Nat.succ_le_succ hr⟩

theorem Confined.within {type : FileType} {c r : ℤ} (h : Confined pt x y a m) (hm : (m : ℤ) ≤ max c 0) (hr : r ≤ m) :
    Within pt x type a off c r y := by
  refine ⟨fun b hb => h.outside b (by omega), by omega, ?_⟩
  unfold nextOff
  split_ifs with hpos
  · have := Nat.mod_le (off + r.toNat) (2 ^ 32)
    omega
  · omega

def fdType (x : KState) (reg : UInt64) : FileType :=
  match x.2.proc.argfd reg with
  | none => .none
  | some (_, f) => (x.1.ftable f).type

end

def reader : KState := (linkedFile.1, linkedFile.2.mapProc (fun p => { p with pagetable := some bootTable, sz := pgSize }))

theorem reader_table : reader.2.table .own = some bootTable := rfl

-- The elaborator would run the model when it looks at what a call returns.
attribute [irreducible] reader

def readAll : KState := after (sysRead bootSys 0 0 [] 0 (0 - 1)) reader

end Xv6.Kernel
