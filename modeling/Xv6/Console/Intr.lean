import Xv6.Console.Read

namespace Xv6.Console

open Lib

instance : NeZero inputBuf := ⟨by decide⟩

def ctrlP : UInt8 := 16

def ctrlU : UInt8 := 21

def ctrlH : UInt8 := 8

def delete : UInt8 := 127

def carriageReturn : UInt8 := 13

namespace Cons

def last (c : Cons) : UInt8 := c.buf (slot inputBuf ((c.e + 2 ^ 32 - 1) % 2 ^ 32))

def back (c : Cons) : Cons := { c with e := (c.e + 2 ^ 32 - 1) % 2 ^ 32 }

def put (c : Cons) (b : UInt8) : Cons :=
  { c with buf := Function.update c.buf (slot inputBuf c.e) b, e := (c.e + 1) % 2 ^ 32 }

theorem back_proj (c : Cons) :
    c.back.buf = c.buf ∧ c.back.r = c.r ∧ c.back.w = c.w ∧ c.back.e = (c.e + 2 ^ 32 - 1) % 2 ^ 32 := by
  unfold back
  exact ⟨rfl, rfl, rfl, rfl⟩

theorem put_proj (c : Cons) (b : UInt8) : (c.put b).buf = Function.update c.buf (slot inputBuf c.e) b ∧
    (c.put b).r = c.r ∧ (c.put b).w = c.w ∧ (c.put b).e = (c.e + 1) % 2 ^ 32 := by
  unfold put
  exact ⟨rfl, rfl, rfl, rfl⟩

attribute [irreducible] back put

def killLoop : ℕ → Cons → Cons
  | 0, c => c
  | m + 1, c => if c.e ≠ c.w ∧ c.last ≠ newline then killLoop m c.back else c

def consoleintr (c : Cons) (b : UInt8) : Cons × Bool :=
  if b = ctrlP then (c, false)
  else if b = ctrlU then (killLoop (ahead (2 ^ 32) c.w c.e) c, false)
  else if b = ctrlH ∨ b = delete then (if c.e ≠ c.w then c.back else c, false)
  else if b ≠ 0 ∧ ahead (2 ^ 32) c.r c.e < inputBuf then
    let b := if b = carriageReturn then newline else b
    let c := c.put b
    if b = newline ∨ b = ctrlD ∨ c.e = (c.r + inputBuf) % 2 ^ 32 then ({ c with w := c.e }, true) else (c, false)
  else (c, false)

end Cons

/-! ### Two lists -/

structure Typed where
  unread : List UInt8
  line : List UInt8

def Typed.enter (a : Typed) (b : UInt8) : Typed :=
  if b = ctrlP then a
  else if b = ctrlU then { a with line := [] }
  else if b = ctrlH ∨ b = delete then { a with line := a.line.dropLast }
  else if b ≠ 0 ∧ (a.unread ++ a.line).length < inputBuf then
    let b := if b = carriageReturn then newline else b
    if b = newline ∨ b = ctrlD ∨ (a.unread ++ a.line).length + 1 = inputBuf then ⟨a.unread ++ a.line ++ [b], []⟩
    else { a with line := a.line ++ [b] }
  else a

theorem Typed.unread_enter (a : Typed) (b : UInt8) : a.unread <+: (a.enter b).unread := by
  unfold Typed.enter
  dsimp only
  split_ifs
  any_goals exact List.prefix_rfl
  all_goals
    rw [List.append_assoc]
    exact List.prefix_append _ _

structure Holds (c : Cons) (a : Typed) : Prop where
  ring : RingHolds (2 ^ 32) c.buf c.r c.e (a.unread ++ a.line)
  w : c.w = (c.r + a.unread.length) % 2 ^ 32
  small : (a.unread ++ a.line).length ≤ inputBuf
  plain : newline ∉ a.line

namespace Holds

variable {c : Cons} {a : Typed} {u l : List UInt8} {x : UInt8}

theorem dvd : inputBuf ∣ 2 ^ 32 := ⟨2 ^ 25, by decide⟩

theorem lt (h : Holds c a) : (a.unread ++ a.line).length < 2 ^ 32 := h.small.trans_lt (by decide)

theorem unread_lt (h : Holds c a) : a.unread.length < 2 ^ 32 := by
  have hlt := h.lt
  rw [List.length_append] at hlt
  omega

theorem before (h : Holds c a) : RingHolds (2 ^ 32) c.buf c.r c.w a.unread := by
  rw [h.w]
  exact h.ring.take

theorem ahead_w (h : Holds c a) : ahead (2 ^ 32) c.r c.w = a.unread.length := h.before.ahead_eq h.unread_lt

theorem ahead_e (h : Holds c a) : ahead (2 ^ 32) c.r c.e = (a.unread ++ a.line).length := h.ring.ahead_eq h.lt

theorem empty_iff (h : Holds c a) : c.r = c.w ↔ a.unread = [] := h.before.eq_iff h.unread_lt

theorem shift (h : Holds c a) : c.e = (c.w + a.line.length) % 2 ^ 32 ∧ c.w < 2 ^ 32 ∧ a.line.length < 2 ^ 32 := by
  have hlt := h.lt
  rw [List.length_append] at hlt
  refine ⟨?_, ?_, by omega⟩
  · rw [h.ring.idx, h.w, List.length_append, Nat.mod_add_mod, Nat.add_assoc]
  · rw [h.w]
    exact Nat.mod_lt _ (by norm_num)

theorem line_iff (h : Holds c a) : c.e = c.w ↔ a.line = [] := by
  obtain ⟨he, hw, hl⟩ := h.shift
  rw [← List.length_eq_zero_iff]
  omega

theorem ahead_line (h : Holds c a) : ahead (2 ^ 32) c.w c.e = a.line.length := by
  obtain ⟨he, hw, hl⟩ := h.shift
  unfold ahead
  omega

theorem back (h : Holds c ⟨u, l ++ [x]⟩) : c.last = x ∧ Holds c.back ⟨u, l⟩ := by
  have hring := h.ring
  have hsmall := h.small
  have hplain := h.plain
  dsimp only at hring hsmall hplain
  rw [← List.append_assoc] at hring hsmall
  rw [List.length_append] at hsmall
  obtain ⟨hlast, hring'⟩ := hring.erase dvd
  refine ⟨hlast, ?_, ?_, ?_, fun hn => hplain (List.mem_append_left _ hn)⟩
  · rw [c.back_proj.1, c.back_proj.2.1, c.back_proj.2.2.2]
    exact hring'
  · rw [c.back_proj.2.2.1, c.back_proj.2.1]
    exact h.w
  · exact Nat.le_of_succ_le hsmall

theorem killLoop (h : Holds c ⟨u, l⟩) : Holds (Cons.killLoop l.length c) ⟨u, []⟩ := by
  induction l using List.reverseRecOn generalizing c with
  | nil => exact h
  | append_singleton l x ih =>
    obtain ⟨hlast, hback⟩ := h.back
    have hne : c.e ≠ c.w := by
      rw [Ne, h.line_iff]
      simp
    have hx : c.last ≠ newline := by
      rw [hlast]
      rintro rfl
      exact h.plain (List.mem_append_right _ (List.mem_singleton_self _))
    rw [List.length_append, List.length_singleton, Cons.killLoop, if_pos ⟨hne, hx⟩]
    exact ih hback

theorem erase (h : Holds c ⟨u, l⟩) : Holds (if c.e ≠ c.w then c.back else c) ⟨u, l.dropLast⟩ := by
  induction l using List.reverseRecOn with
  | nil =>
    rw [if_neg (not_not.mpr (h.line_iff.mpr rfl))]
    exact h
  | append_singleton l x _ =>
    have hne : c.e ≠ c.w := by
      rw [Ne, h.line_iff]
      simp
    rw [if_pos hne, List.dropLast_concat]
    exact h.back.2

theorem put (h : Holds c ⟨u, l⟩) (hlen : (u ++ l).length < inputBuf) :
    RingHolds (2 ^ 32) (c.put x).buf (c.put x).r (c.put x).e (u ++ l ++ [x]) := by
  obtain ⟨hbuf, hr, -, he⟩ := c.put_proj x
  rw [hbuf, hr, he]
  exact h.ring.push dvd hlen

theorem full_iff (h : Holds c ⟨u, l⟩) (hlen : (u ++ l).length < inputBuf) :
    (c.put x).e = (c.r + inputBuf) % 2 ^ 32 ↔ (u ++ l).length + 1 = inputBuf := by
  have he := (h.put (x := x) hlen).idx
  have hr := h.ring.lt
  rw [List.length_append, List.length_singleton, (c.put_proj x).2.1] at he
  rw [he]
  simp only [inputBuf] at hlen ⊢
  omega

theorem consoleintr (h : Holds c a) (b : UInt8) : Holds (c.consoleintr b).1 (a.enter b) := by
  obtain ⟨u, l⟩ := a
  unfold Cons.consoleintr Typed.enter
  by_cases hP : b = ctrlP
  · rw [if_pos hP, if_pos hP]
    exact h
  rw [if_neg hP, if_neg hP]
  by_cases hU : b = ctrlU
  · rw [if_pos hU, if_pos hU, h.ahead_line]
    exact h.killLoop
  rw [if_neg hU, if_neg hU]
  by_cases hH : b = ctrlH ∨ b = delete
  · rw [if_pos hH, if_pos hH]
    exact h.erase
  rw [if_neg hH, if_neg hH, h.ahead_e]
  by_cases hfit : b ≠ 0 ∧ (u ++ l).length < inputBuf
  · rw [if_pos hfit, if_pos hfit]
    dsimp only
    generalize hx : (if b = carriageReturn then newline else b) = x
    have hring := h.put (x := x) hfit.2
    have hiff := h.full_iff (x := x) hfit.2
    obtain ⟨-, hr, hw, -⟩ := c.put_proj x
    have hlen : (u ++ l ++ [x]).length ≤ inputBuf := by
      rw [List.length_append, List.length_singleton]
      exact hfit.2
    by_cases hend : x = newline ∨ x = ctrlD ∨ (u ++ l).length + 1 = inputBuf
    · rw [if_pos hend, if_pos (by rw [hr, hiff]; exact hend)]
      refine ⟨?_, ?_, ?_, List.not_mem_nil⟩
      · dsimp only
        rw [List.append_nil]
        exact hring
      · exact hring.idx
      · dsimp only
        rw [List.append_nil]
        exact hlen
    · rw [if_neg hend, if_neg (by rw [hr, hiff]; exact hend)]
      refine ⟨?_, by rw [hw, hr]; exact h.w, ?_, ?_⟩
      · dsimp only
        rw [← List.append_assoc]
        exact hring
      · dsimp only
        rw [← List.append_assoc]
        exact hlen
      · intro hmem
        rcases List.mem_append.mp hmem with hl | hx'
        · exact h.plain hl
        · exact hend (Or.inl (List.mem_singleton.mp hx').symm)
  · rw [if_neg hfit, if_neg hfit]
    exact h

theorem advance (h : Holds c ⟨x :: u, l⟩) : c.front = x ∧ Holds c.advance ⟨u, l⟩ := by
  obtain ⟨hx, hring⟩ := h.ring.pop dvd
  obtain ⟨hbuf, hr, hw, he⟩ := Console.advance_proj c
  refine ⟨hx, ?_, ?_, ?_, h.plain⟩
  · rw [hbuf, hr, he]
    exact hring
  · rw [hw, hr]
    exact (h.before.pop dvd).2.idx
  · have hsmall := h.small
    simp only [List.cons_append, List.length_cons] at hsmall
    exact Nat.le_of_succ_le hsmall

end Holds

theorem r_killLoop (m : ℕ) (c : Cons) : (c.killLoop m).r = c.r ∧ (c.killLoop m).w = c.w := by
  induction m generalizing c with
  | zero => exact ⟨rfl, rfl⟩
  | succ m ih =>
    unfold Cons.killLoop
    split_ifs
    · rw [(ih c.back).1, (ih c.back).2]
      exact ⟨c.back_proj.2.1, c.back_proj.2.2.1⟩
    · exact ⟨rfl, rfl⟩

theorem w_consoleintr (c : Cons) (b : UInt8) :
    (c.consoleintr b).1.r = c.r ∧ ((c.consoleintr b).2 = false → (c.consoleintr b).1.w = c.w) := by
  unfold Cons.consoleintr
  dsimp only
  generalize (if b = carriageReturn then newline else b) = x
  split_ifs
  · exact ⟨rfl, fun _ => rfl⟩
  · exact ⟨(r_killLoop _ c).1, fun _ => (r_killLoop _ c).2⟩
  · exact ⟨c.back_proj.2.1, fun _ => c.back_proj.2.2.1⟩
  · exact ⟨rfl, fun _ => rfl⟩
  · refine ⟨(c.put_proj _).2.1, fun hf => ?_⟩
    cases hf
  · exact ⟨(c.put_proj _).2.1, fun _ => (c.put_proj _).2.2.1⟩
  · exact ⟨rfl, fun _ => rfl⟩

end Xv6.Console
