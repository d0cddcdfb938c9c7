import Xv6.Fs.File

namespace Xv6.Fs

open Lib Hoare

variable {sb : Superblock} {s : FsState} {ip : Fin nInode}

theorem Op.memRefs_indirect_of_entry (h : Op sb s ip ∅) {j : Fin nIndirect}
    (hj : memRefs sb s ip (.entry j) ≠ none) : memRefs sb s ip .indirect ≠ none := by
  intro hi
  apply hj
  have h0 := h.refs_self .indirect
  rw [show refs sb s.cache (view sb s ip) ((s.itable ip).inum, .indirect) = none from hi] at h0
  have haddr : (s.itable ip).addrs (Fin.last nDirect) = 0 := by
    by_contra hne
    simp [slot, hne] at h0
  rw [memRefs, h.refs_self]
  simp [slot, haddr]

theorem Op.cost_eq_zero (h : Op sb s ip ∅) {bn : ℕ} (hb : (dataSlot bn).bind (memRefs sb s ip) ≠ none) :
    cost sb s ip bn = 0 := by
  unfold cost
  rw [if_neg hb, if_neg]
  rintro ⟨hn, hi⟩
  unfold dataSlot at hb
  rw [dif_neg hn] at hb
  split_ifs at hb with hlt
  · exact h.memRefs_indirect_of_entry hb hi
  · exact hb rfl

def bytesFrom (sb : Superblock) (s : FsState) (i off n : ℕ) : List UInt8 :=
  (List.range n).map (fun j => byteOf sb s.cache (disk sb s.cache) i (off + j))

theorem bytesFrom_append (i off m n : ℕ) :
    bytesFrom sb s i off m ++ bytesFrom sb s i (off + m) n = bytesFrom sb s i off (m + n) := by
  unfold bytesFrom
  rw [List.range_add, List.map_append, List.map_map]
  simp only [Function.comp_def, Nat.add_assoc]

theorem readLoop_spec {fails : ℕ → Bool} {fuel off n tot : ℕ} {acc : List UInt8} (h : FsInv sb s)
    (hr : 0 < (s.itable ip).ref) (hv : (s.itable ip).valid = true) (hfuel : n - tot ≤ fuel) (htot : tot ≤ n)
    (hoff : off + (n - tot) ≤ (s.itable ip).size) :
    wp (readLoop sb ip fails fuel off n tot acc) s
      (fun r t => t = s ∧ ∃ m ≤ n - tot, r.2 = acc ++ bytesFrom sb s (s.itable ip).inum off m ∧
        ((∀ k, fails k = false) → r.1 = n ∧ m = n - tot))
      (fun _ => False) := by
  have hop := h.op hr hv
  have hview := h.view_eq hr hv
  induction fuel generalizing off tot acc with
  | zero =>
    refine ⟨rfl, 0, Nat.zero_le _, by simp [bytesFrom], fun _ => ⟨?_, by omega⟩⟩
    simp only [Nat.cast_inj]
    omega
  | succ fuel ih =>
    rw [readLoop]
    by_cases hlt : tot < n
    · rw [if_pos hlt]
      simp only [wp_bind]
      obtain ⟨hmax, hfull⟩ := h.full _ hop.inum (by rw [← hview]; exact hop.view_type)
      rw [← hview, view_self] at hmax hfull
      have hblock := hfull (off / bSize) (by simp only [bSize] at *; omega)
      have hcost := hop.cost_eq_zero hblock
      refine wp_mono (bmap_spec hop (div_lt_maxFile (n := n - tot) (by omega) (by omega))) ?_ ?_
      · intro b t hmap
        obtain rfl := hmap.same hcost
        simp only [bread, wp_bind, wp_get, wp_pure, wp_ite]
        generalize hm : min (n - tot) (bSize - off % bSize) = m
        have hm0 : 0 < m ∧ m ≤ n - tot ∧ off % bSize + m ≤ bSize := by
          simp only [bSize] at hm ⊢
          omega
        have hpiece : (List.range m).map (fun i => (t.cache b).get (off % bSize + i)) =
            bytesFrom sb t (t.itable ip).inum off m := by
          unfold bytesFrom
          apply List.map_congr_left
          intro j hj
          rw [List.mem_range] at hj
          have hdiv : (off + j) / bSize = off / bSize ∧ (off + j) % bSize = off % bSize + j := by
            simp only [bSize] at hm0 ⊢
            omega
          rw [byteOf_eq, hdiv.1, hdiv.2, ← hview]
          have hb : fileBlock sb t.cache (view sb t ip) (t.itable ip).inum (off / bSize) = some b := hmap.block
          rw [hb]
        split_ifs with hf
        · exact ⟨trivial, 0, Nat.zero_le _, by simp [bytesFrom], fun hno => by simp [hno] at hf⟩
        · refine wp_mono (ih (by omega) (by omega) (by omega)) ?_ (fun _ he => he)
          rintro r u ⟨rfl, k, hk, hr₂, hex⟩
          refine ⟨rfl, m + k, by omega, ?_, fun hno => ?_⟩
          · rw [hr₂, List.append_assoc, hpiece, bytesFrom_append]
          · obtain ⟨h₁, h₂⟩ := hex hno
            exact ⟨h₁, by omega⟩
      · rintro e ⟨-, he⟩
        omega
    · rw [if_neg hlt]
      refine ⟨rfl, 0, Nat.zero_le _, by simp [bytesFrom], fun _ => ⟨?_, by omega⟩⟩
      simp only [Nat.cast_inj]
      omega

theorem readi_spec {fails : ℕ → Bool} {off n : ℕ} (h : FsInv sb s) (hr : 0 < (s.itable ip).ref)
    (hv : (s.itable ip).valid = true) (hoff : off < 2 ^ 32) (hn : n < 2 ^ 32) :
    wp (readi sb ip fails off n) s
      (fun r t => t = s ∧ if off + n < 2 ^ 32 then
          ∃ m ≤ min n ((s.itable ip).size - off), r.2 = bytesFrom sb s (s.itable ip).inum off m ∧
            ((∀ k, fails k = false) → r.1 = m ∧ m = min n ((s.itable ip).size - off))
        else r = (0, []))
      (fun _ => False) := by
  have hsize : (s.itable ip).size < 2 ^ 32 := (h.op hr hv).fits.size
  simp only [readi, inode, wp_bind, wp_get, wp_pure, wp_ite]
  by_cases hbad : off > (s.itable ip).size ∨ (off + n) % 2 ^ 32 < off
  · rw [if_pos hbad]
    refine ⟨trivial, ?_⟩
    split_ifs
    exact ⟨0, Nat.zero_le _, by simp [bytesFrom], fun _ => ⟨rfl, by omega⟩⟩
  · rw [if_neg hbad]
    have hlt : off + n < 2 ^ 32 := by omega
    have hclip : (if (off + n) % 2 ^ 32 > (s.itable ip).size then (s.itable ip).size - off else n) =
        min n ((s.itable ip).size - off) := by
      split_ifs <;> omega
    rw [hclip]
    generalize hm : min n ((s.itable ip).size - off) = m
    refine wp_mono (readLoop_spec h hr hv (le_refl _) (Nat.zero_le _) (by omega)) ?_ (fun _ he => he)
    rintro r t ⟨rfl, k, hk, hr₂, hex⟩
    rw [if_pos hlt]
    refine ⟨rfl, k, hk, by simpa using hr₂, fun hno => ?_⟩
    obtain ⟨h₁, rfl⟩ := hex hno
    exact ⟨h₁, rfl⟩

end Xv6.Fs
