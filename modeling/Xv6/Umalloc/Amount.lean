import Xv6.Umalloc.Partition

namespace Xv6.Umalloc

open Lib Extent Transition

variable {L : Layout} {s t : St} {fuel nunits : ℕ} {nbytes : UInt32} {grant : ℕ → Bool} {r : ℕ × St}

def amount (nu : ℕ) : ℤ := int ((if nu < 4096 then 4096 else nu) * headerSize)

theorem amount_eq (hn : nunits < 2 ^ 27) : amount nunits = (max 4096 nunits * headerSize : ℕ) := by
  have hnu : (if nunits < 4096 then 4096 else nunits) = max 4096 nunits := by
    split_ifs <;> omega
  rw [amount, hnu, int_eq]
  simp only [headerSize]
  omega

theorem amount_pos (hn : nunits < 2 ^ 27) : 0 < amount nunits := by
  rw [amount_eq hn]
  simp only [headerSize]
  omega

/-! ### The break -/

theorem brk_free {ap : ℕ} (h : s.free fuel ap = some t) : t.brk = s.brk := by
  rw [St.free, Option.bind_eq_bind, Option.bind_eq_some_iff] at h
  obtain ⟨p, -, ht⟩ := h
  cases ht
  unfold St.joinPrev St.joinNext
  split_ifs <;> rfl

theorem brk_sbrk {n : ℤ} {hp : ℕ} (hn : 0 ≤ n) (h : s.sbrk n grant = some (hp, t)) : s.brk ≤ t.brk := by
  unfold St.sbrk at h
  split_ifs at h
  cases h
  dsimp only
  have : 0 ≤ n / headerSize := Int.ediv_nonneg hn (Int.natCast_nonneg _)
  omega

theorem brk_morecore {p : ℕ} (hn : nunits < 2 ^ 27) (h : s.morecore fuel nunits grant = some (p, t)) : s.brk ≤ t.brk := by
  have hpos := amount_pos hn
  unfold amount at hpos
  unfold St.morecore at h
  dsimp only at h
  cases hs : s.sbrk (int ((if nunits < 4096 then 4096 else nunits) * headerSize)) grant with
  | none =>
    rw [hs] at h
    cases h
    exact le_rfl
  | some q =>
    rw [hs, Option.bind_eq_bind, Option.bind_eq_some_iff] at h
    obtain ⟨t', hfree, ht⟩ := h
    cases ht
    have hfreed := brk_free hfree
    have hgrown := brk_sbrk (le_of_lt hpos) hs
    exact hgrown.trans (le_of_eq hfreed.symm)

theorem brk_take (s : St) (nunits prevp p : ℕ) : (s.take nunits prevp p).2.brk = s.brk := by
  unfold St.take
  split_ifs <;> rfl

theorem brk_mallocLoop {prevp p : ℕ} (hn : nunits < 2 ^ 27) (h : St.mallocLoop nunits grant fuel s prevp p = some r) :
    s.brk ≤ r.2.brk := by
  induction fuel generalizing s prevp p with
  | zero => cases h
  | succ fuel ih =>
    rw [St.mallocLoop] at h
    split_ifs at h with hsize hlast
    · cases h
      rw [brk_take]
    · cases hm : s.morecore fuel nunits grant with
      | none =>
        rw [hm] at h
        cases h
      | some q =>
        have hgrown := brk_morecore hn hm
        rw [hm] at h
        dsimp only at h
        split_ifs at h
        · cases h
          exact hgrown
        · exact hgrown.trans (ih h)
    · exact ih h

theorem brk_malloc (hn : St.units nbytes < 2 ^ 27) (h : s.malloc L fuel nbytes grant = some r) : s.brk ≤ r.2.brk := by
  have hsetup : (s.setup L).brk = s.brk := by
    unfold St.setup
    split_ifs <;> rfl
  rw [← hsetup]
  exact brk_mallocLoop hn h

theorem Heap.backed {l : List Extent} {x b : ℕ} (h : Heap L s l) (hx : (x, b) ∈ lives L.start l) :
    L.start ≤ x ∧ b ≤ headerSize * (s.brk - (x + 1)) := by
  obtain ⟨l₁, n, l₂, rfl, haddr⟩ := exists_of_mem_lives hx
  change x = L.start + total l₁ at haddr
  have hroom : b ≤ headerSize * (n - 1) := h.room n b (by simp)
  have hbrk := h.brk
  simp only [total_append, total_cons, len_live] at hbrk
  refine ⟨by omega, hroom.trans (Nat.mul_le_mul_left _ ?_)⟩
  omega

theorem Inv.backed (h : Inv L s) (hfits : Fits L s (.malloc fuel nbytes grant)) (hr : s.malloc L fuel nbytes grant = some r)
    (hne : r.1 ≠ 0) : L.start < r.1 ∧ nbytes.toNat ≤ headerSize * (r.2.brk - r.1) := by
  obtain ⟨fuel', r', l, hr', ⟨-, l', hheap, hres⟩, -, -⟩ := h.malloc hfits
  obtain rfl := eq_of_fuel (f := fun n => s.malloc L n nbytes grant) (fun _ _ => mallocLoop_succ) hr' hr
  obtain ⟨-, hperm⟩ := hres.resolve_left (fun hzero => hne hzero.1)
  obtain ⟨hstart, hbytes⟩ := hheap.backed (hperm.mem_iff.mpr List.mem_cons_self)
  rw [Nat.sub_add_cancel (Nat.pos_of_ne_zero hne)] at hbytes
  exact ⟨by omega, hbytes⟩

end Xv6.Umalloc
