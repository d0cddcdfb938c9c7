import Xv6.Lib.Ring
import Xv6.Pipes.Fifo

namespace Xv6.Pipes

open Lib Transition

def Pipe.pending (pi : Pipe) : List UInt8 :=
  (List.range (ahead (2 ^ 32) pi.nread pi.nwrite)).map (fun t => pi.data (slot (pi.nread + t)))

def Pipe.copyLoop (copied : ℕ → Bool) : ℕ → ℕ → Pipe → ℕ × Pipe
  | 0, i, pi => (i, pi)
  | m + 1, i, pi =>
    if pi.empty then (i, pi)
    else if copied i then copyLoop copied m (i + 1) pi.advance
    else (i, pi.advance)

def Pipe.piperead (pi : Pipe) (copied : ℕ → Bool) (n : ℤ) : ℕ × Pipe := pi.copyLoop copied n.toNat 0

structure Pipe.Ok (pi : Pipe) : Prop where
  nread : pi.nread < 2 ^ 32
  nwrite : pi.nwrite < 2 ^ 32

namespace Pipe

variable {pi : Pipe}

theorem Ok.advance (h : pi.Ok) : pi.advance.Ok := ⟨Nat.mod_lt _ (by norm_num), h.nwrite⟩

theorem ahead_advance (h : pi.Ok) (he : ¬ pi.empty) :
    ahead (2 ^ 32) pi.nread pi.nwrite = ahead (2 ^ 32) pi.advance.nread pi.advance.nwrite + 1 := by
  have h1 := h.nread
  have h2 := h.nwrite
  unfold Pipe.empty at he
  unfold ahead Pipe.advance
  dsimp only
  omega

theorem pending_cons (h : pi.Ok) (he : ¬ pi.empty) : pi.pending = pi.front :: pi.advance.pending := by
  rw [Pipe.pending, ahead_advance h he, List.range_succ_eq_map, List.map_cons, List.map_map]
  congr 1
  apply List.map_congr_left
  intro t _
  have hslot : slot (pi.nread + (t + 1)) = slot (pi.advance.nread + t) := by
    rw [← slot_mod (pi.advance.nread + t)]
    unfold Pipe.advance
    dsimp only
    rw [Nat.mod_add_mod, slot_mod]
    congr 1
    omega
  rw [Function.comp_apply, Nat.succ_eq_add_one, hslot]
  rfl

theorem Ok.pending_copyLoop (h : pi.Ok) (copied : ℕ → Bool) (m i : ℕ) : ∃ k ≤ m, (pi.copyLoop copied m i).1 = i + k ∧
    ((pi.copyLoop copied m i).2.pending = pi.pending.drop k ∨
      k < m ∧ copied (i + k) = false ∧ (pi.copyLoop copied m i).2.pending = pi.pending.drop (k + 1)) ∧
    k ≤ pi.pending.length := by
  induction m generalizing i pi with
  | zero => exact ⟨0, le_refl _, rfl, Or.inl rfl, Nat.zero_le _⟩
  | succ m ih =>
    rw [copyLoop]
    by_cases he : pi.empty
    · rw [if_pos he]
      exact ⟨0, Nat.zero_le _, rfl, Or.inl rfl, Nat.zero_le _⟩
    rw [if_neg he, pending_cons h he]
    by_cases hc : copied i = true
    · rw [if_pos hc]
      obtain ⟨k, hk, hret, hleft, hlen⟩ := ih h.advance (i + 1)
      refine ⟨k + 1, by omega, by omega, ?_, by rw [List.length_cons]; omega⟩
      rw [List.drop_succ_cons, List.drop_succ_cons, show i + (k + 1) = i + 1 + k by omega]
      exact hleft.imp_right (fun hl => ⟨by omega, hl.2⟩)
    · rw [if_neg hc]
      exact ⟨0, Nat.zero_le _, rfl, Or.inr ⟨Nat.succ_pos m, by simpa using hc, rfl⟩, Nat.zero_le _⟩

end Pipe

section Machine

variable {P : Type} [DecidableEq P] {p : P} {n : ℤ} {copied : ℕ → Bool}

theorem run_copyLoop {m i : ℕ} {s : St P} (hp : s.pc p = .copying n i) (hm : n = i + m) :
    ∃ t, Run step (fun s a => ∃ i, s.pc p = .copying n i ∧ a = .next p (copied i)) s t ∧
      t.pipe = (s.pipe.copyLoop copied m i).2 ∧ t.pc p = .returned (s.pipe.copyLoop copied m i).1 := by
  induction m generalizing s i with
  | zero =>
    refine ⟨_, Run.refl.tail ⟨i, hp, rfl⟩ (show step s (.next p (copied i)) = some (s.copy p n i (copied i)) from ?_), ?_, ?_⟩
    · simp only [step, hp]
    · rw [St.copy, if_pos (Or.inl (by omega))]
      rfl
    · rw [St.copy, if_pos (Or.inl (by omega))]
      exact Function.update_self _ _ _
  | succ m ih =>
    have hstep : step s (.next p (copied i)) = some (s.copy p n i (copied i)) := by
      simp only [step, hp]
    rw [Pipe.copyLoop]
    by_cases he : s.pipe.empty
    · refine ⟨_, Run.refl.tail ⟨i, hp, rfl⟩ hstep, ?_, ?_⟩
      · rw [St.copy, if_pos (Or.inr he), if_pos he]
        rfl
      · rw [St.copy, if_pos (Or.inr he), if_pos he]
        exact Function.update_self _ _ _
    rw [if_neg he]
    rw [St.copy, if_neg (by rw [not_or]; exact ⟨by omega, he⟩)] at hstep
    by_cases hc : copied i = true
    · rw [hc, if_neg (by decide), ← hc] at hstep
      rw [if_pos hc]
      obtain ⟨t, hrun, hpipe, hpc⟩ := ih (s := { s with
        pipe := s.pipe.advance
        pc := Function.update s.pc p (.copying n (i + 1))
        delivered := s.delivered ++ [s.pipe.front] }) (i := i + 1) (Function.update_self _ _ _) (by push_cast; omega)
      exact ⟨t, (Run.refl.tail ⟨i, hp, rfl⟩ hstep).trans hrun, hpipe, hpc⟩
    · rw [if_pos (by simpa using hc)] at hstep
      rw [if_neg hc]
      refine ⟨_, Run.refl.tail ⟨i, hp, rfl⟩ hstep, rfl, ?_⟩
      exact Function.update_self _ _ _

end Machine

end Xv6.Pipes
