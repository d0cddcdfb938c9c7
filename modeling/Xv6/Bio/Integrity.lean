import Mathlib.Data.List.Induction
import Xv6.Bio.Machine

namespace Xv6.Bio

open Lib.Doubly Lib.Transition
open Function (update update_of_ne update_self)

variable {n : ℕ} {P : Type} {s t : St n P} {l l' : List (Fin n)} {i j : Fin n} {p : P}

/-! ### The loops over the list -/

theorem search_linked {L : Links (Option (Fin n))} {test : Fin n → Bool} {a : Option (Fin n)} {fuel : ℕ}
    (h : Linked L a (l.map some) none) (hfuel : l.length < fuel) : search L.next test fuel (L.next a) = l.find? test := by
  induction l generalizing a fuel with
  | nil =>
    obtain ⟨k, rfl⟩ := Nat.exists_eq_succ_of_ne_zero (Nat.ne_of_gt hfuel)
    rw [h.1]
    rfl
  | cons i l ih =>
    obtain ⟨k, rfl⟩ := Nat.exists_eq_succ_of_ne_zero (Nat.ne_of_gt (Nat.zero_lt_of_lt hfuel))
    rw [h.1, search, List.find?_cons]
    cases htest : test i with
    | true => rfl
    | false =>
      rw [if_neg Bool.false_ne_true]
      exact ih h.2.2 (Nat.lt_of_succ_lt_succ hfuel)

structure Listed (s : St n P) (l : List (Fin n)) : Prop where
  loop : Loop s.links none (l.map some)
  all : ∀ i, i ∈ l
  order : l.Pairwise (fun i j => s.stamp j < s.stamp i)
  past : ∀ i, s.stamp i < s.clock

namespace Listed

theorem nodup (h : Listed s l) : l.Nodup := (List.nodup_cons.mp h.loop.nodup).2.of_map some

theorem length (h : Listed s l) : l.length = n := by
  have hperm : l.Perm (List.finRange n) := by
    rw [List.perm_ext_iff_of_nodup h.nodup (List.nodup_finRange n)]
    exact fun i => iff_of_true (h.all i) (List.mem_finRange i)
  rw [hperm.length_eq, List.length_finRange]

theorem cached (h : Listed s l) (dev blockno : ℕ) :
    s.cached dev blockno = l.find? (fun i => s.dev i = dev ∧ s.blockno i = blockno) :=
  search_linked h.loop.linked (by rw [h.length]; exact Nat.lt_succ_self n)

theorem recycled (h : Listed s l) : s.recycled = l.reverse.find? (fun i => s.refcnt i = 0) := by
  have hback := h.loop.linked.reverse
  rw [← List.map_reverse] at hback
  exact search_linked hback (by rw [List.length_reverse, h.length]; exact Nat.lt_succ_self n)

theorem oldest (h : Listed s l) (hi : s.recycled = some i) :
    s.refcnt i = 0 ∧ ∀ j, s.refcnt j = 0 → s.stamp i ≤ s.stamp j := by
  rw [h.recycled, List.find?_eq_some_iff_append] at hi
  obtain ⟨hfree, as, bs, hsplit, hbusy⟩ := hi
  refine ⟨of_decide_eq_true hfree, ?_⟩
  intro j hj
  have horder := List.pairwise_reverse.mpr h.order
  rw [hsplit] at horder
  have hmem : j ∈ as ++ i :: bs := by
    rw [← hsplit, List.mem_reverse]
    exact h.all j
  rcases List.mem_append.mp hmem with hmem | hmem
  · exact absurd (decide_eq_true hj) (by have := hbusy j hmem; simpa using this)
  · rcases List.mem_cons.mp hmem with rfl | hmem
    · exact Nat.le_refl _
    · exact Nat.le_of_lt ((List.pairwise_cons.mp (List.pairwise_append.mp horder).2.1).1 j hmem)

theorem none_free (h : Listed s l) (hnone : s.recycled = none) (j : Fin n) : s.refcnt j ≠ 0 := by
  rw [h.recycled, List.find?_eq_none] at hnone
  intro hj
  exact hnone j (List.mem_reverse.mpr (h.all j)) (decide_eq_true hj)

theorem congr (h : Listed s l) (hlinks : t.links = s.links) (hstamp : t.stamp = s.stamp) (hclock : t.clock = s.clock) :
    Listed t l := by
  constructor
  · rw [hlinks]
    exact h.loop
  · exact h.all
  · rw [hstamp]
    exact h.order
  · rw [hstamp, hclock]
    exact h.past

theorem moveFront (h : Listed s l) (i : Fin n) : ∃ l', Listed (s.moveFront i) l' := by
  obtain ⟨l₁, l₂, rfl⟩ := List.append_of_mem (h.all i)
  have hnodup := List.nodup_middle.mp h.nodup
  obtain ⟨hi, -⟩ := List.nodup_cons.mp hnodup
  have hloop := h.loop
  rw [List.map_append, List.map_cons] at hloop
  have hunlinked := hloop.unlink
  rw [← List.map_append] at hunlinked
  have hne : ∀ j ∈ l₁ ++ l₂, j ≠ i := by
    rintro j hj rfl
    exact hi hj
  have hstamp : ∀ j, j ≠ i → (s.moveFront i).stamp j = s.stamp j := fun j hj => update_of_ne hj _ _
  have hself : (s.moveFront i).stamp i = s.clock := update_self _ _ _
  refine ⟨i :: (l₁ ++ l₂), ?_, ?_, ?_, ?_⟩
  · apply hunlinked.push
    rw [List.mem_cons, not_or]
    refine ⟨Option.some_ne_none i, ?_⟩
    rw [List.mem_map_of_injective (Option.some_injective _)]
    exact hi
  · intro j
    have := h.all j
    simp only [List.mem_append, List.mem_cons] at this ⊢
    tauto
  · refine List.Pairwise.cons ?_ ?_
    · intro j hj
      rw [hstamp j (hne j hj), hself]
      exact h.past j
    · have hrest := h.order.sublist ((List.sublist_cons_self i l₂).append_left l₁)
      apply hrest.imp_of_mem
      intro j k hj hk hjk
      rw [hstamp j (hne j hj), hstamp k (hne k hk)]
      exact hjk
  · intro j
    by_cases hj : j = i
    · rw [hj, hself]
      exact Nat.lt_succ_self _
    · rw [hstamp j hj]
      exact (h.past j).trans (Nat.lt_succ_self _)

end Listed

def uses (s : St n P) (i : Fin n) : ℕ :=
  (s.lock i).isSome.toNat + (s.waiters i).length + (s.leaving i).length + s.pins i

structure Inv (s : St n P) : Prop where
  listed : ∃ l, Listed s l
  count : ∀ i, s.refcnt i = uses s i

theorem binitLinks_loop (l : List (Fin n)) (hl : l.Nodup) : Loop (binitLinks l) none (l.reverse.map some) := by
  induction l using List.reverseRecOn with
  | nil => exact ⟨⟨rfl, rfl⟩, List.nodup_singleton _⟩
  | append_singleton l i ih =>
    rw [List.nodup_append] at hl
    rw [binitLinks, List.foldl_append, List.reverse_append]
    apply (ih hl.1).push
    rw [List.mem_cons, not_or]
    refine ⟨Option.some_ne_none i, ?_⟩
    rw [List.mem_map_of_injective (Option.some_injective _), List.mem_reverse]
    intro hi
    exact hl.2.2 i hi i List.mem_cons_self rfl

theorem inv_binit : Inv (binit n P) := by
  refine ⟨⟨(List.finRange n).reverse, binitLinks_loop _ (List.nodup_finRange n), ?_, ?_, ?_⟩, fun i => rfl⟩
  · intro i
    exact List.mem_reverse.mpr (List.mem_finRange i)
  · rw [List.pairwise_reverse]
    exact List.pairwise_lt_finRange n
  · exact fun i => i.isLt

namespace Inv

theorem touch (h : Inv s) (hlinks : t.links = s.links) (hstamp : t.stamp = s.stamp) (hclock : t.clock = s.clock)
    (hother : ∀ j, j ≠ i → t.refcnt j = s.refcnt j ∧ uses t j = uses s j) (hi : t.refcnt i = uses t i) : Inv t := by
  obtain ⟨l, hl⟩ := h.listed
  refine ⟨⟨l, hl.congr hlinks hstamp hclock⟩, ?_⟩
  intro j
  by_cases hj : j = i
  · rw [hj, hi]
  · obtain ⟨href, huses⟩ := hother j hj
    rw [href, huses]
    exact h.count j

theorem bget {dev blockno : ℕ} (h : Inv s) (ht : s.bget p dev blockno = some t) : Inv t := by
  obtain ⟨l, hl⟩ := h.listed
  unfold St.bget at ht
  cases hc : s.cached dev blockno with
  | some i =>
    rw [hc] at ht
    cases ht
    have hcount := h.count i
    refine h.touch (i := i) rfl rfl rfl ?_ ?_
    · intro j hj
      simp only [uses, update_of_ne hj, and_self]
    · simp only [uses, update_self, List.length_cons] at hcount ⊢
      omega
  | none =>
    rw [hc] at ht
    dsimp only at ht
    cases hr : s.recycled with
    | none =>
      rw [hr] at ht
      cases ht
    | some i =>
      rw [hr] at ht
      cases ht
      have hcount := h.count i
      have hfree := (hl.oldest hr).1
      refine h.touch (i := i) rfl rfl rfl ?_ ?_
      · intro j hj
        simp only [uses, update_of_ne hj, and_self]
      · simp only [uses, update_self, List.length_cons] at hcount ⊢
        omega

theorem bpin (h : Inv s) (i : Fin n) : Inv (s.bpin i) := by
  have hcount := h.count i
  refine h.touch (i := i) rfl rfl rfl ?_ ?_
  · intro j hj
    simp only [St.bpin, uses, update_of_ne hj, and_self]
  · simp only [St.bpin, uses, update_self] at hcount ⊢
    omega

variable [DecidableEq P]

theorem acquiresleep (h : Inv s) (ht : s.acquiresleep p i = some t) : Inv t := by
  unfold St.acquiresleep at ht
  split_ifs at ht with hp
  cases ht
  have hcount := h.count i
  refine h.touch (i := i) rfl rfl rfl ?_ ?_
  · intro j hj
    simp only [uses, update_of_ne hj, and_self]
  · have hlen := List.length_pos_of_mem hp.1
    simp only [uses, update_self, hp.2, List.length_erase_of_mem hp.1, Option.isSome_none, Option.isSome_some,
      Bool.toNat_false, Bool.toNat_true] at hcount ⊢
    omega

theorem releasesleep (h : Inv s) (ht : s.releasesleep p i = some t) : Inv t := by
  unfold St.releasesleep at ht
  split_ifs at ht with hp
  cases ht
  have hcount := h.count i
  refine h.touch (i := i) rfl rfl rfl ?_ ?_
  · intro j hj
    simp only [uses, update_of_ne hj, and_self]
  · simp only [uses, update_self, hp, List.length_cons, Option.isSome_none, Option.isSome_some,
      Bool.toNat_false, Bool.toNat_true] at hcount ⊢
    omega

theorem brelse (h : Inv s) (ht : s.brelse p i = some t) : Inv t := by
  unfold St.brelse at ht
  split_ifs at ht with hp
  have hdrop : Inv { s with
      refcnt := update s.refcnt i (s.refcnt i - 1)
      leaving := update s.leaving i ((s.leaving i).erase p) } := by
    have hcount := h.count i
    refine h.touch (i := i) rfl rfl rfl ?_ ?_
    · intro j hj
      simp only [uses, update_of_ne hj, and_self]
    · have hlen := List.length_pos_of_mem hp
      simp only [uses, update_self, List.length_erase_of_mem hp] at hcount ⊢
      omega
  cases ht
  split_ifs
  · obtain ⟨l, hl⟩ := hdrop.listed
    exact ⟨hl.moveFront i, hdrop.count⟩
  · exact hdrop

theorem bunpin (h : Inv s) (ht : s.bunpin p i = some t) : Inv t := by
  unfold St.bunpin at ht
  split_ifs at ht with hp
  cases ht
  have hcount := h.count i
  refine h.touch (i := i) rfl rfl rfl ?_ ?_
  · intro j hj
    simp only [uses, update_of_ne hj, and_self]
  · simp only [uses, update_self] at hcount ⊢
    omega

theorem of_step {a : Action n P} (h : Inv s) (ht : step s a = some t) : Inv t := by
  cases a with
  | bget p dev blockno => exact h.bget ht
  | acquiresleep p i => exact h.acquiresleep ht
  | releasesleep p i => exact h.releasesleep ht
  | brelse p i => exact h.brelse ht
  | bpin i =>
    cases ht
    exact h.bpin i
  | bunpin p i => exact h.bunpin ht

theorem of_run (h : Run step (fun _ _ => True) (binit n P) s) : Inv s :=
  h.invariant inv_binit (fun _ _ _ hs _ ht => hs.of_step ht)

end Inv

theorem prev_next (h : Listed s l) (x : Option (Fin n)) : s.links.prev (s.links.next x) = x ∧ s.links.next (s.links.prev x) = x := by
  have hmem : x ∈ none :: l.map some := by
    cases x with
    | none => exact List.mem_cons_self
    | some i => exact List.mem_cons_of_mem _ (List.mem_map_of_mem (h.all i))
  have hmem' : x ∈ none :: (l.map some).reverse := by
    rw [List.mem_cons, List.mem_reverse, ← List.mem_cons]
    exact hmem
  exact ⟨h.loop.linked.prev_next hmem, h.loop.linked.reverse.prev_next hmem'⟩

/-- After any calls `bcache.head` and the buffers form one loop, and `bget` recycles the free buffer released first. -/
theorem buffer_list_integrity [DecidableEq P] (h : Run step (fun _ _ => True) (binit n P) s) :
    (∃ l : List (Fin n), l.Nodup ∧ (∀ i, i ∈ l) ∧ Loop s.links none (l.map some)) ∧
    (∀ x, s.links.prev (s.links.next x) = x ∧ s.links.next (s.links.prev x) = x) ∧
    (∀ i, s.refcnt i = (s.lock i).isSome.toNat + (s.waiters i).length + (s.leaving i).length + s.pins i) ∧
    (∀ p i, p ∈ s.leaving i → 1 ≤ s.refcnt i) ∧
    (∀ p i, s.lock i = some p → 0 < s.pins i → 2 ≤ s.refcnt i) ∧
    (∀ i, s.recycled = some i → s.refcnt i = 0 ∧ ∀ j, s.refcnt j = 0 → s.stamp i ≤ s.stamp j) ∧
    (s.recycled = none → ∀ j, s.refcnt j ≠ 0) := by
  have hinv := Inv.of_run h
  obtain ⟨l, hl⟩ := hinv.listed
  refine ⟨⟨l, hl.nodup, hl.all, hl.loop⟩, prev_next hl, hinv.count, ?_, ?_, fun i hi => hl.oldest hi, hl.none_free⟩
  · intro p i hp
    have hcount := hinv.count i
    have hlen := List.length_pos_of_mem hp
    unfold uses at hcount
    omega
  · intro p i hp hpins
    have hcount := hinv.count i
    unfold uses at hcount
    rw [hp, Option.isSome_some, Bool.toNat_true] at hcount
    omega

theorem buffer_list_integrity_released : ∃ s : St 2 Unit, Run step (fun _ _ => True) (binit 2 Unit) s ∧
    s.recycled = some 1 ∧ s.stamp 1 ≤ s.stamp 0 ∧ ∀ x, s.links.prev (s.links.next x) = x := by
  obtain ⟨s, hs, hr, hfree⟩ : ∃ s, execute step (fun _ _ => True) (binit 2 Unit) [.bget () 1 5, .acquiresleep () 0,
      .bpin 0, .bunpin () 0, .releasesleep () 0, .brelse () 0] = some s ∧ s.recycled = some 1 ∧ s.refcnt 0 = 0 :=
    ⟨_, rfl, rfl, rfl⟩
  obtain ⟨-, hinverse, -, -, -, holdest, -⟩ := buffer_list_integrity (run_of_execute hs)
  exact ⟨s, run_of_execute hs, hr, (holdest 1 hr).2 0 hfree, fun x => (hinverse x).1⟩

end Xv6.Bio
