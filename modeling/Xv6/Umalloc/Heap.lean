import Xv6.Lib.Extent
import Xv6.Umalloc.Machine

namespace Xv6.Umalloc

open Lib Extent

variable {L : Layout} {s t : St} {l l₁ l₂ : List Extent} {n m b e p q x y bp fuel : ℕ}

structure Heap (L : Layout) (s : St) (l : List Extent) : Prop where
  freep : s.freep ∈ L.base :: frees L.start l
  base : s.size L.base = 0
  ends : Ends s.ptr s.size L.base L.base L.start l
  brk : s.brk = L.start + total l
  positive : Positive l
  room : ∀ n b, .live n b ∈ l → b ≤ headerSize * (n - 1)
  coalesced : Coalesced l
  small : total l < 2 ^ 32

/-! ### The list -/

theorem ends_last (h : Ends s.ptr s.size e p x l) : s.ptr (lastFree p x l) = e := by
  rw [← List.append_nil l] at h
  exact (ends_append.mp h).2

theorem ends_first (h : Ends s.ptr s.size e p x l) : s.ptr p ∈ frees x l ∨ s.ptr p = e := by
  have hchain := h.isChain
  cases hf : frees x l with
  | nil =>
    rw [hf, List.nil_append, List.isChain_pair] at hchain
    exact .inr hchain
  | cons y r =>
    rw [hf, List.cons_append, List.isChain_cons_cons] at hchain
    rw [hchain.1]
    exact .inl List.mem_cons_self

namespace Heap

theorem nodes_ge (_ : Heap L s l) (hx : x ∈ L.base :: frees L.start l) : L.base ≤ x := by
  have := L.base_lt
  rcases List.mem_cons.mp hx with rfl | hx
  · exact Nat.le_refl _
  · have := frees_ge hx
    omega

theorem lt_ptr (h : Heap L s l) (hx : x ∈ L.base :: frees L.start l) : x < s.ptr x ∨ s.ptr x = L.base := by
  by_cases hlast : x = lastFree L.base L.start l
  · rw [hlast]
    exact .inr (ends_last h.ends)
  · exact .inl (h.ends.linked.next L.base_lt h.positive hx hlast).1

theorem nodup (h : Heap L s l) : (L.base :: frees L.start l).Nodup := by
  have hbase := L.base_lt
  rw [List.nodup_cons]
  constructor
  · intro hmem
    have := frees_ge hmem
    omega
  · apply (pairwise_frees h.ends.linked h.positive h.coalesced).imp
    intro x y hxy
    omega

theorem cycle (h : Heap L s l) : Cycle.Chain (fun x y => s.ptr x = y) (L.base :: frees L.start l : List ℕ) :=
  (Cycle.chain_coe_cons _ _ _).mpr h.ends.isChain

theorem round (h : Heap L s l) (hx : x ∈ L.base :: frees L.start l) : ∃ r, List.IsChain (fun x y => s.ptr x = y) (x :: (r ++ [x])) ∧
    (∀ y, y ∈ x :: r ↔ y ∈ L.base :: frees L.start l) ∧ x ∉ r := by
  obtain ⟨r₁, r₂, hr⟩ := List.append_of_mem hx
  have hrot : ((L.base :: frees L.start l : List ℕ) : Cycle ℕ) = (x :: (r₂ ++ r₁) : List ℕ) := by
    rw [hr, Cycle.coe_eq_coe, ← List.cons_append]
    exact List.IsRotated.symm ⟨(x :: r₂).length, List.rotate_append_length_eq _ _⟩
  have hperm : (x :: (r₂ ++ r₁)).Perm (r₁ ++ x :: r₂) := by
    rw [← List.cons_append]
    exact List.perm_append_comm
  refine ⟨r₂ ++ r₁, ?_, ?_, ?_⟩
  · rw [← Cycle.chain_coe_cons, ← hrot]
    exact h.cycle
  · intro y
    rw [hr]
    exact hperm.mem_iff
  · have hnodup := h.nodup
    rw [hr, ← hperm.nodup_iff, List.nodup_cons] at hnodup
    exact hnodup.1

theorem ptr_mem (h : Heap L s l) (hx : x ∈ L.base :: frees L.start l) : s.ptr x ∈ L.base :: frees L.start l := by
  obtain ⟨r, hchain, hmem, -⟩ := h.round hx
  rw [← hmem]
  cases r with
  | nil =>
    rw [List.nil_append, List.isChain_pair] at hchain
    rw [hchain]
    exact List.mem_cons_self
  | cons y r =>
    rw [List.cons_append, List.isChain_cons_cons] at hchain
    rw [hchain.1]
    exact List.mem_cons_of_mem _ List.mem_cons_self

theorem eq_lastFree (h : Heap L s (l₁ ++ l₂)) (hx : x ∈ L.base :: frees L.start (l₁ ++ l₂)) (hlt : x < L.start + total l₁)
    (hptr : L.start + total l₁ ≤ s.ptr x ∨ s.ptr x ≤ x) : x = lastFree L.base L.start l₁ := by
  by_contra hne
  have hx₁ : x ∈ L.base :: frees L.start l₁ := by
    rw [frees_append, ← List.cons_append, List.mem_append] at hx
    rcases hx with hx | hx
    · exact hx
    · have := frees_ge hx
      omega
  have hpos : Positive l₁ := fun y hy => h.positive y (List.mem_append_left _ hy)
  have := (ends_append.mp h.ends).1.next L.base_lt hpos hx₁ hne
  omega

theorem size_pos_mem (h : Heap L s l) (hx : x ∈ L.base :: frees L.start l) (hsize : 0 < s.size x) :
    ∃ l₁ l₂, l = l₁ ++ .free (s.size x) :: l₂ ∧ x = L.start + total l₁ := by
  rcases List.mem_cons.mp hx with rfl | hx
  · rw [h.base] at hsize
    omega
  · obtain ⟨l₁, m, l₂, rfl, rfl⟩ := exists_of_mem_frees hx
    have hm := (ends_append.mp h.ends).2.2.1
    rw [hm]
    exact ⟨l₁, l₂, rfl, rfl⟩

end Heap

/-! ### The search of `free` -/

theorem freeSearch_succ (h : s.freeSearch bp fuel p = some q) : s.freeSearch bp (fuel + 1) p = some q := by
  induction fuel generalizing p with
  | zero => cases h
  | succ fuel ih =>
    unfold St.freeSearch at h ⊢
    split_ifs at h ⊢
    · exact h
    · exact h
    · exact ih h

theorem free_succ {ap : ℕ} (h : s.free fuel ap = some t) : s.free (fuel + 1) ap = some t := by
  rw [St.free, Option.bind_eq_bind, Option.bind_eq_some_iff] at h ⊢
  obtain ⟨p, hp, ht⟩ := h
  exact ⟨p, freeSearch_succ hp, ht⟩

def Stops (s : St) (bp p : ℕ) : Prop := bp > p ∧ bp < s.ptr p ∨ p ≥ s.ptr p ∧ (bp > p ∨ bp < s.ptr p)

theorem freeSearch_of_chain {r : List ℕ} (hchain : List.IsChain (fun x y => s.ptr x = y) (x :: r)) (hy : y ∈ x :: r)
    (hstop : Stops s bp y) : ∃ fuel p, s.freeSearch bp fuel x = some p := by
  induction r generalizing x with
  | nil =>
    obtain rfl := List.mem_singleton.mp hy
    refine ⟨1, y, ?_⟩
    unfold St.freeSearch
    rcases hstop with h | h
    · rw [if_pos h]
    · rw [if_pos h, ite_self]
  | cons z r ih =>
    rw [List.isChain_cons_cons] at hchain
    by_cases hx : Stops s bp x
    · refine ⟨1, x, ?_⟩
      unfold St.freeSearch
      rcases hx with h | h
      · rw [if_pos h]
      · rw [if_pos h, ite_self]
    · have hyr : y ∈ z :: r := by
        rcases List.mem_cons.mp hy with rfl | hy
        · exact absurd hstop hx
        · exact hy
      obtain ⟨fuel, p, hp⟩ := ih hchain.2 hyr
      refine ⟨fuel + 1, p, ?_⟩
      rw [Stops, not_or] at hx
      unfold St.freeSearch
      rw [if_neg hx.1, if_neg hx.2, hchain.1]
      exact hp

namespace Heap

theorem freeSearch_stops (h : Heap L s l) (hx : x ∈ L.base :: frees L.start l) (hs : s.freeSearch bp fuel x = some p) :
    p ∈ L.base :: frees L.start l ∧ Stops s bp p := by
  induction fuel generalizing x with
  | zero => cases hs
  | succ fuel ih =>
    unfold St.freeSearch at hs
    split_ifs at hs with h₁ h₂
    · cases hs
      exact ⟨hx, .inl h₁⟩
    · cases hs
      exact ⟨hx, .inr h₂⟩
    · exact ih (h.ptr_mem hx) hs

theorem freeSearch (h : Heap L s (l₁ ++ .live n b :: l₂)) :
    ∃ fuel, s.freeSearch (L.start + total l₁) fuel s.freep = some (lastFree L.base L.start l₁) := by
  have hbase := L.base_lt
  have hn : 0 < n := h.positive (.live n b) (by simp)
  have hpos : Positive l₁ := fun y hy => h.positive y (List.mem_append_left _ hy)
  obtain ⟨-, hsize, hends⟩ := ends_append.mp h.ends
  have hq : lastFree L.base L.start l₁ ∈ L.base :: frees L.start (l₁ ++ .live n b :: l₂) := by
    rw [frees_append, ← List.cons_append]
    exact List.mem_append_left _ lastFree_mem
  have hstop : Stops s (L.start + total l₁) (lastFree L.base L.start l₁) := by
    have hlt := lastFree_lt hbase hpos
    have hge := h.nodes_ge hq
    rcases ends_first hends with hfirst | hfirst
    · have := frees_ge hfirst
      exact .inl ⟨hlt, by omega⟩
    · exact .inr ⟨by omega, .inl hlt⟩
  obtain ⟨r, hchain, hmem, -⟩ := h.round h.freep
  rw [← List.cons_append] at hchain
  obtain ⟨fuel, p, hp⟩ := freeSearch_of_chain (List.IsChain.left_of_append hchain) ((hmem _).mpr hq) hstop
  refine ⟨fuel, ?_⟩
  obtain ⟨hmem, hstop⟩ := h.freeSearch_stops h.freep hp
  rw [hp, ← h.eq_lastFree hmem]
  · rcases hstop with hstop | hstop
    · exact hstop.1
    · rcases h.lt_ptr hmem with hlt | hlt <;> omega
  · rcases hstop with hstop | hstop
    · exact .inl (Nat.le_of_lt hstop.2)
    · exact .inr hstop.1

end Heap

end Xv6.Umalloc
