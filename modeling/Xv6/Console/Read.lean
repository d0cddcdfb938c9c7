import Xv6.Pipes.Delivery

namespace Xv6.Console

open Pipes

def inputBuf : ℕ := 128

def ctrlD : UInt8 := 4

def newline : UInt8 := 10

theorem mod_inputBuf (i : ℕ) : i % inputBuf < inputBuf := Nat.mod_lt _ (by decide)

structure Cons where
  buf : Fin inputBuf → UInt8
  r : ℕ
  w : ℕ
  e : ℕ

def Cons.front (c : Cons) : UInt8 := c.buf ⟨c.r % inputBuf, mod_inputBuf c.r⟩

def Cons.advance (c : Cons) : Cons := { c with r := (c.r + 1) % 2 ^ 32 }

def Cons.retreat (c : Cons) : Cons := { c with r := (c.r + 2 ^ 32 - 1) % 2 ^ 32 }

structure Wake where
  buf : Fin inputBuf → UInt8
  w : ℕ
  e : ℕ
  killed : Bool

inductive Await
  | ready (c : Cons) (killed : Bool) (wakes : List Wake)
  | killed (c : Cons)
  | asleep (c : Cons)

def Await.cons : Await → Cons
  | .ready c _ _ | .killed c | .asleep c => c

def await (c : Cons) (killed : Bool) : List Wake → Await
  | [] => if c.r ≠ c.w then .ready c killed [] else if killed then .killed c else .asleep c
  | wake :: wakes =>
    if c.r ≠ c.w then .ready c killed (wake :: wakes)
    else if killed then .killed c
    else await { c with buf := wake.buf, w := wake.w, e := wake.e } wake.killed wakes

structure Result where
  value : Option ℤ
  cons : Cons
  delivered : List UInt8
  removed : List UInt8

def readLoop (copied : ℕ → Bool) (target : ℕ) : ℕ → Cons → Bool → List Wake → List UInt8 → Result
  | 0, c, _, _, out => ⟨some target, c, out, out⟩
  | n + 1, c, killed, wakes, out =>
    match await c killed wakes with
    | .killed c => ⟨some (-1), c, out, out⟩
    | .asleep c => ⟨none, c, out, out⟩
    | .ready c killed wakes =>
      if c.front = ctrlD then
        -- ^D is kept for the next read unless it is the first byte of this one
        if n + 1 < target then ⟨some (target - (n + 1)), c.advance.retreat, out, out⟩
        else ⟨some (target - (n + 1)), c.advance, out, out ++ [ctrlD]⟩
      else if copied (target - (n + 1)) then
        if c.front = newline then ⟨some (target - n), c.advance, out ++ [c.front], out ++ [c.front]⟩
        else readLoop copied target n c.advance killed wakes (out ++ [c.front])
      else ⟨some (target - (n + 1)), c.advance, out, out ++ [c.front]⟩

def consoleread (copied : ℕ → Bool) (n : ℤ) (c : Cons) (killed : Bool) (wakes : List Wake) : Result :=
  readLoop copied n.toNat n.toNat c killed wakes []

variable {copied : ℕ → Bool} {target n : ℕ} {c : Cons} {killed : Bool} {wakes : List Wake} {out : List UInt8}

theorem await_r (c : Cons) (killed : Bool) (wakes : List Wake) : (await c killed wakes).cons.r = c.r := by
  induction wakes generalizing c killed with
  | nil =>
    unfold await
    split_ifs <;> rfl
  | cons wake wakes ih =>
    unfold await
    split_ifs
    · rfl
    · rfl
    · exact ih _ _

theorem retreat_advance (h : c.r < 2 ^ 32) : c.advance.retreat.r = c.r := by
  unfold Cons.retreat Cons.advance
  dsimp only
  omega

structure Accounts (copied : ℕ → Bool) (target : ℕ) (start : ℕ) (res : Result) : Prop where
  index : res.cons.r = (start + res.removed.length) % 2 ^ 32
  value : ∀ k, res.value = some k → 0 ≤ k → (res.delivered.length : ℤ) = k
  removed : res.removed = res.delivered ∨ res.delivered = [] ∧ res.removed = [ctrlD] ∨
    ∃ b, res.delivered.length < target ∧ copied res.delivered.length = false ∧ res.removed = res.delivered ++ [b]

theorem accounts_readLoop {start : ℕ} (hr : c.r = (start + out.length) % 2 ^ 32) (hout : out.length + n = target) :
    Accounts copied target start (readLoop copied target n c killed wakes out) := by
  induction n generalizing c killed wakes out with
  | zero =>
    refine ⟨hr, fun k hk _ => ?_, Or.inl rfl⟩
    cases hk
    change (out.length : ℤ) = target
    omega
  | succ n ih =>
    have hlt : c.r < 2 ^ 32 := by
      rw [hr]
      exact Nat.mod_lt _ (by norm_num)
    have hvalue : ∀ k : ℤ, some ((target : ℤ) - (n + 1)) = some k → (out.length : ℤ) = k := by
      intro k hk
      cases hk
      omega
    have hnext : ∀ c' : Cons, c'.r = c.r → c'.advance.r = (start + (out.length + 1)) % 2 ^ 32 := by
      intro c' hc'
      change (c'.r + 1) % 2 ^ 32 = _
      rw [hc', hr, Nat.mod_add_mod, Nat.add_assoc]
    have hawait := await_r c killed wakes
    unfold readLoop
    split
    · next c' hc =>
      rw [hc] at hawait
      refine ⟨hawait.trans hr, fun k hk hpos => ?_, Or.inl rfl⟩
      cases hk
      exact absurd hpos (by decide)
    · next c' hc =>
      rw [hc] at hawait
      refine ⟨hawait.trans hr, fun k hk => ?_, Or.inl rfl⟩
      cases hk
    · next c' killed' wakes' hc =>
      rw [hc] at hawait
      change c'.r = c.r at hawait
      by_cases hd : c'.front = ctrlD
      · rw [if_pos hd]
        by_cases hfirst : n + 1 < target
        · rw [if_pos hfirst]
          refine ⟨?_, fun k hk _ => hvalue k hk, Or.inl rfl⟩
          change c'.advance.retreat.r = _
          rw [retreat_advance (by omega), hawait, hr]
        · rw [if_neg hfirst]
          have hnil : out = [] := List.eq_nil_of_length_eq_zero (by omega)
          refine ⟨?_, fun k hk _ => hvalue k hk, Or.inr (Or.inl ⟨hnil, ?_⟩)⟩
          · rw [List.length_append, List.length_singleton]
            exact hnext c' hawait
          · rw [hnil]
            rfl
      rw [if_neg hd]
      by_cases hcopy : copied (target - (n + 1)) = true
      · rw [if_pos hcopy]
        by_cases hline : c'.front = newline
        · rw [if_pos hline]
          refine ⟨?_, fun k hk _ => ?_, Or.inl rfl⟩
          · rw [List.length_append, List.length_singleton]
            exact hnext c' hawait
          · cases hk
            rw [List.length_append, List.length_singleton]
            push_cast
            omega
        · rw [if_neg hline]
          apply ih
          · rw [List.length_append, List.length_singleton]
            exact hnext c' hawait
          · rw [List.length_append, List.length_singleton]
            omega
      · rw [if_neg hcopy]
        have hlen : out.length = target - (n + 1) := by omega
        refine ⟨?_, fun k hk _ => hvalue k hk, Or.inr (Or.inr ⟨c'.front, ?_, ?_, rfl⟩)⟩
        · rw [List.length_append, List.length_singleton]
          exact hnext c' hawait
        · change out.length < target
          omega
        · change copied out.length = false
          rw [hlen]
          simpa using hcopy

theorem accounts_consoleread {n : ℤ} (hr : c.r < 2 ^ 32) :
    Accounts copied n.toNat c.r (consoleread copied n c killed wakes) := by
  apply accounts_readLoop
  · exact (Nat.mod_eq_of_lt hr).symm
  · rw [List.length_nil, Nat.zero_add]

def twoBytes : Pipe := (pipealloc.put 97).put 98

def typed : Cons := ⟨fun i => if i.val = 0 then 97 else if i.val = 1 then 98 else newline, 0, 3, 3⟩

def oneByte (i : ℕ) : Bool := i < 1

theorem advance_proj (c : Cons) :
    c.advance.buf = c.buf ∧ c.advance.r = (c.r + 1) % 2 ^ 32 ∧ c.advance.w = c.w ∧ c.advance.e = c.e := by
  simp only [Cons.advance, and_self]

theorem retreat_advance_eq (h : c.r < 2 ^ 32) : c.advance.retreat = c := by
  have hr := retreat_advance h
  simp only [Cons.retreat, Cons.advance] at hr ⊢
  rw [hr]

attribute [irreducible] Cons.advance Cons.retreat

end Xv6.Console
