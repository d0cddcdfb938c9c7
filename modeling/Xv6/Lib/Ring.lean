import Mathlib

namespace Xv6.Lib

def slot (n : ℕ) [NeZero n] (i : ℕ) : Fin n := Fin.ofNat n i

def ahead (w start idx : ℕ) : ℕ := (idx + w - start) % w

structure RingHolds {α : Type} {n : ℕ} [NeZero n] (w : ℕ) (ring : Fin n → α) (start idx : ℕ) (q : List α) : Prop where
  lt : start < w
  idx : idx = (start + q.length) % w
  get : ∀ t (h : t < q.length), ring (slot n (start + t)) = q.get ⟨t, h⟩

namespace RingHolds

variable {α : Type} {n w start idx : ℕ} [NeZero n] {ring : Fin n → α} {q : List α} {x : α}

theorem slot_mod (hn : n ∣ w) (i : ℕ) : slot n (i % w) = slot n i := by
  apply Fin.ext
  exact Nat.mod_mod_of_dvd i hn

theorem slot_ne {i d : ℕ} (hd : 0 < d) (hdn : d < n) : slot n i ≠ slot n (i + d) := by
  intro h
  have hval : i % n = (i + d) % n := congrArg Fin.val h
  have hzero := Nat.sub_mod_eq_zero_of_mod_eq hval.symm
  rw [Nat.add_sub_cancel_left, Nat.mod_eq_of_lt hdn] at hzero
  exact absurd hzero (Nat.ne_of_gt hd)

theorem push (hn : n ∣ w) (h : RingHolds w ring start idx q) (hlen : q.length < n) :
    RingHolds w (Function.update ring (slot n idx) x) start ((idx + 1) % w) (q ++ [x]) := by
  have hidx : slot n idx = slot n (start + q.length) := by rw [h.idx, slot_mod hn]
  refine ⟨h.lt, ?_, fun t ht => ?_⟩
  · rw [h.idx, List.length_append, List.length_singleton, Nat.mod_add_mod, Nat.add_assoc]
  · rw [List.length_append, List.length_singleton] at ht
    by_cases hlast : t = q.length
    · subst hlast
      rw [hidx, Function.update_self]
      simp
    · have ht' : t < q.length := by omega
      have hne : slot n (start + t) ≠ slot n idx := by
        rw [hidx, show start + q.length = start + t + (q.length - t) by omega]
        exact slot_ne (by omega) (by omega)
      rw [Function.update_of_ne hne, h.get t ht']
      simp [List.getElem_append_left ht']

theorem pop (hn : n ∣ w) (h : RingHolds w ring start idx (x :: q)) :
    ring (slot n start) = x ∧ RingHolds w ring ((start + 1) % w) idx q := by
  have hw : 0 < w := Nat.lt_of_le_of_lt (Nat.zero_le _) h.lt
  refine ⟨h.get 0 (Nat.succ_pos _), Nat.mod_lt _ hw, ?_, fun t ht => ?_⟩
  · rw [h.idx, List.length_cons, Nat.mod_add_mod]
    congr 1
    omega
  · have hslot : slot n ((start + 1) % w + t) = slot n (start + (t + 1)) := by
      rw [← slot_mod hn, Nat.mod_add_mod, slot_mod hn]
      congr 1
      omega
    rw [hslot]
    exact h.get (t + 1) (Nat.succ_lt_succ ht)

theorem erase (hn : n ∣ w) (h : RingHolds w ring start idx (q ++ [x])) :
    ring (slot n ((idx + w - 1) % w)) = x ∧ RingHolds w ring start ((idx + w - 1) % w) q := by
  have hw : 0 < w := Nat.lt_of_le_of_lt (Nat.zero_le _) h.lt
  have hidx : (idx + w - 1) % w = (start + q.length) % w := by
    rw [h.idx, List.length_append, List.length_singleton, Nat.add_sub_assoc hw, Nat.mod_add_mod,
      show start + (q.length + 1) + (w - 1) = start + q.length + w by omega, Nat.add_mod_right]
  refine ⟨?_, h.lt, hidx, fun t ht => ?_⟩
  · rw [hidx, slot_mod hn, h.get q.length (by simp)]
    simp
  · rw [h.get t (by rw [List.length_append]; omega)]
    simp [List.getElem_append_left ht]

theorem take {l : List α} (h : RingHolds w ring start idx (q ++ l)) :
    RingHolds w ring start ((start + q.length) % w) q := by
  refine ⟨h.lt, rfl, fun t ht => ?_⟩
  rw [h.get t (by rw [List.length_append]; omega)]
  simp [List.getElem_append_left ht]

theorem drop (hn : n ∣ w) {l : List α} (h : RingHolds w ring start idx (q ++ l)) :
    RingHolds w ring ((start + q.length) % w) idx l := by
  induction q generalizing start with
  | nil =>
    rw [List.length_nil, Nat.add_zero, Nat.mod_eq_of_lt h.lt]
    exact h
  | cons y q ih =>
    have hrest := ih (h.pop hn).2
    rw [Nat.mod_add_mod, Nat.add_right_comm] at hrest
    exact hrest

theorem ahead_eq (h : RingHolds w ring start idx q) (hlen : q.length < w) : ahead w start idx = q.length := by
  have hlt := h.lt
  rw [ahead, h.idx]
  by_cases hwrap : start + q.length < w
  · rw [Nat.mod_eq_of_lt hwrap, show start + q.length + w - start = q.length + w by omega, Nat.add_mod_right,
      Nat.mod_eq_of_lt hlen]
  · have hmod : (start + q.length) % w = start + q.length - w := by
      rw [Nat.mod_eq_sub_mod (Nat.le_of_not_lt hwrap), Nat.mod_eq_of_lt (by omega)]
    rw [hmod, show start + q.length - w + w - start = q.length by omega, Nat.mod_eq_of_lt hlen]

theorem entries_eq (h : RingHolds w ring start idx q) (hlen : q.length < w) :
    (List.range (ahead w start idx)).map (fun t => ring (slot n (start + t))) = q := by
  apply List.ext_getElem
  · rw [List.length_map, List.length_range, h.ahead_eq hlen]
  · intro t ht ht'
    rw [List.getElem_map, List.getElem_range, h.get t ht']
    rfl

theorem eq_iff (h : RingHolds w ring start idx q) (hlen : q.length < w) : start = idx ↔ q = [] := by
  constructor
  · intro heq
    have hahead := h.ahead_eq hlen
    rw [ahead, heq, Nat.add_sub_cancel_left, Nat.mod_self] at hahead
    exact List.length_eq_zero_iff.mp hahead.symm
  · rintro rfl
    rw [h.idx, List.length_nil, Nat.add_zero, Nat.mod_eq_of_lt h.lt]

end RingHolds

end Xv6.Lib
