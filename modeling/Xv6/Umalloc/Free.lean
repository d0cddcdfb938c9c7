import Xv6.Umalloc.Heap

namespace Xv6.Umalloc

open Lib Extent
open Function (update update_of_ne update_self)

variable {L : Layout} {s t : St} {l l₁ l₂ : List Extent} {n m b e p q x y bp fuel : ℕ}

/-! ### Joining blocks -/

theorem uint_eq (h : n < 2 ^ 32) : uint n = n := Nat.mod_eq_of_lt h

theorem coalesced_resize (h : Coalesced (.free n :: l)) : Coalesced (.free m :: l) := by
  cases l with
  | nil => exact List.isChain_singleton _
  | cons x l =>
    rw [Coalesced, List.isChain_cons_cons] at h ⊢
    exact h

theorem coalesced_append {x : Extent} (h₁ : Coalesced l₁) (h₂ : Coalesced (x :: l₂))
    (hne : ∀ y ∈ l₁.getLast?, ¬(y.IsFree ∧ x.IsFree)) : Coalesced (l₁ ++ x :: l₂) := by
  rw [Coalesced, List.isChain_append]
  refine ⟨h₁, h₂, ?_⟩
  intro y hy z hz
  rw [List.head?_cons, Option.mem_some_iff] at hz
  rw [← hz]
  exact hne y hy

theorem coalesced_last {x : Extent} (h : Coalesced (l₁ ++ x :: l₂)) : ∀ y ∈ l₁.getLast?, ¬(y.IsFree ∧ x.IsFree) := by
  rw [Coalesced, List.isChain_append] at h
  intro y hy
  exact h.2.2 y hy x (by simp)

structure Joined (s t : St) (e bp n : ℕ) (l₂ : List Extent) (n' : ℕ) (l' : List Extent) : Prop where
  ends : Ends t.ptr t.size e bp (bp + n') l'
  size : t.size bp = n'
  le : n ≤ n'
  total : n' + total l' = n + total l₂
  ptr_other : ∀ x, x ≠ bp → t.ptr x = s.ptr x
  size_other : ∀ x, x ≠ bp → t.size x = s.size x
  sub : ∀ x ∈ l', x ∈ l₂
  coalesced : Coalesced (.free n' :: l')
  lives : lives (bp + n') l' = lives (bp + n) l₂
  rest : t.freep = s.freep ∧ t.brk = s.brk ∧ t.live = s.live

theorem joined_setPtr (h : Ends s.ptr s.size e q bp (.live n b :: l)) (hn : 0 < n) (hc : Coalesced (.free n :: l)) :
    Joined s (s.setPtr bp (s.ptr q)) e bp n l n l := by
  have hother : ∀ x, x ≠ bp → (s.setPtr bp (s.ptr q)).ptr x = s.ptr x := fun x hx => update_of_ne hx _ _
  refine ⟨?_, h.1, Nat.le_refl n, rfl, hother, fun _ _ => rfl, fun _ hx => hx, hc, rfl, rfl, rfl, rfl⟩
  exact h.2.congr (update_self _ _ _) (fun x hx => hother x (by omega)) (fun _ _ => rfl)

theorem joinNext_joined (h : Ends s.ptr s.size e q bp (.live n b :: l)) (he : e < bp)
    (hpos : Positive (.live n b :: l)) (hsmall : n + total l < 2 ^ 32) (hc : Coalesced l) :
    ∃ n' l', Joined s (s.joinNext q bp) e bp n l n' l' := by
  obtain ⟨hn, hpos'⟩ := hpos.tail
  rw [len_live] at hn
  obtain ⟨hsize, hends⟩ := h
  unfold St.joinNext
  rw [hsize]
  cases l with
  | nil =>
    have hq : s.ptr q = e := hends
    rw [if_neg (by omega)]
    exact ⟨n, [], joined_setPtr (b := b) ⟨hsize, hends⟩ hn (List.isChain_singleton _)⟩
  | cons x l =>
    cases x with
    | live m c =>
      have hm : 0 < m := hpos'.tail.1
      have hq : s.ptr q ≠ bp + n := by
        rcases ends_first hends with hf | hf
        · have := frees_ge (a := bp + n + m) (l := l) hf
          omega
        · omega
      rw [if_neg (fun heq => hq heq.symm)]
      refine ⟨n, _, joined_setPtr (b := b) ⟨hsize, hends⟩ hn ?_⟩
      rw [Coalesced, List.isChain_cons_cons]
      exact ⟨fun hf => hf.2, hc⟩
    | free m =>
      obtain ⟨hq, hm, hends⟩ := hends
      simp only [total_cons, len_free] at hsmall
      have hne : bp + n ≠ bp := by omega
      rw [if_pos hq.symm, hq, hm, uint_eq (by omega)]
      have hother : ∀ x, x ≠ bp → ((s.setSize bp (n + m)).setPtr bp (s.ptr (bp + n))).ptr x = s.ptr x :=
        fun x hx => update_of_ne hx _ _
      have hsizes : ∀ x, x ≠ bp → ((s.setSize bp (n + m)).setPtr bp (s.ptr (bp + n))).size x = s.size x :=
        fun x hx => update_of_ne hx _ _
      refine ⟨n + m, l, ?_, update_self _ _ _, by omega, ?_, hother, hsizes, ?_, coalesced_resize hc, ?_, rfl, rfl, rfl⟩
      · rw [← Nat.add_assoc]
        exact hends.congr (update_self _ _ _) (fun x hx => hother x (by omega)) (fun x hx => hsizes x (by omega))
      · rw [total_cons, len_free, Nat.add_assoc]
      · intro x hx
        exact List.mem_cons_of_mem _ hx
      · rw [← Nat.add_assoc]
        rfl

theorem lastFree_end (hbase : s.size p = 0) (hp : p < x) (h : Linked s.ptr s.size p x l) :
    lastFree p x l + s.size (lastFree p x l) ≤ x + total l := by
  rcases List.mem_cons.mp (lastFree_mem (p := p) (a := x) (l := l)) with hq | hq
  · rw [hq, hbase]
    omega
  · exact (inside h.map_size (perm_starts.subset (List.mem_append_left _ hq))).2

namespace Heap

theorem joinPrev_free {l₀ : List Extent} {n' : ℕ} {l' : List Extent} (h : Heap L s (l₀ ++ [.free m] ++ .live n b :: l₂))
    (hj : Joined s t L.base (L.start + total (l₀ ++ [.free m])) n l₂ n' l') :
    Heap L { t.joinPrev (L.start + total l₀) (L.start + total (l₀ ++ [.free m])) with freep := L.start + total l₀ }
      (l₀ ++ .free (m + n') :: l') := by
  have hbase := L.base_lt
  have hsmall := h.small
  have htotal := hj.total
  obtain ⟨hl, -, -⟩ := ends_append.mp h.ends
  obtain ⟨hl₀, hq, hm, -⟩ := linked_append.mp hl
  have hpos₀ : Positive l₀ := fun y hy => h.positive y (by simp [hy])
  have hmpos : 0 < m := h.positive (.free m) (by simp)
  have hlt := lastFree_lt hbase hpos₀
  simp only [total_append, total_cons, total_nil, len_free, len_live, Nat.add_zero] at hsmall hj ⊢
  unfold St.joinPrev
  rw [hj.size_other _ (by omega), hm, if_pos (by omega), hj.size, uint_eq (by omega)]
  have hptr : ∀ x, x < L.start + total l₀ → update t.ptr (L.start + total l₀) (t.ptr (L.start + (total l₀ + m))) x =
      s.ptr x := by
    intro x hx
    rw [update_of_ne (by omega), hj.ptr_other x (by omega)]
  have hsize : ∀ x, x < L.start + total l₀ → update t.size (L.start + total l₀) (m + n') x = s.size x := by
    intro x hx
    rw [update_of_ne (by omega), hj.size_other x (by omega)]
  constructor
  · rw [frees_append]
    exact List.mem_cons_of_mem _ (List.mem_append_right _ List.mem_cons_self)
  · exact (hsize _ (by omega)).trans h.base
  · apply ends_append.mpr
    refine ⟨hl₀.congr hbase hpos₀ (fun x hx _ => hptr x hx) (fun x hx _ => hsize x hx), ?_, update_self _ _ _, ?_⟩
    · exact (hptr _ hlt).trans hq
    · rw [show L.start + total l₀ + (m + n') = L.start + (total l₀ + m) + n' by omega]
      exact hj.ends.congr (update_self _ _ _) (fun x hx => update_of_ne (by omega) _ _)
        (fun x hx => update_of_ne (by omega) _ _)
  · change t.brk = _
    rw [hj.rest.2.1, h.brk]
    simp only [total_append, total_cons, total_nil, len_free, len_live]
    omega
  · intro x hx
    simp only [List.mem_append, List.mem_cons] at hx
    rcases hx with hx | rfl | hx
    · exact hpos₀ x hx
    · rw [len_free]
      omega
    · exact h.positive x (by simp [hj.sub x hx])
  · intro k c hk
    simp only [List.mem_append, List.mem_cons, reduceCtorEq, false_or] at hk
    rcases hk with hk | hk
    · exact h.room k c (by simp [hk])
    · exact h.room k c (by simp [hj.sub _ hk])
  · have hc := h.coalesced
    rw [List.append_assoc, List.singleton_append] at hc
    exact coalesced_append (List.isChain_append.mp hc).1 (coalesced_resize hj.coalesced)
      (fun y hy hf => coalesced_last hc y hy ⟨hf.1, trivial⟩)
  · simp only [total_append, total_cons, len_free]
    omega

theorem joinPrev_live {n' : ℕ} {l' : List Extent} (h : Heap L s (l₁ ++ .live n b :: l₂))
    (hj : Joined s t L.base (L.start + total l₁) n l₂ n' l') (hlast : ∀ x ∈ l₁.getLast?, ¬x.IsFree) :
    Heap L { t.joinPrev (lastFree L.base L.start l₁) (L.start + total l₁) with freep := lastFree L.base L.start l₁ }
      (l₁ ++ .free n' :: l') := by
  have hbase := L.base_lt
  have hsmall := h.small
  have htotal := hj.total
  obtain ⟨hl, -, -⟩ := ends_append.mp h.ends
  have hpos₁ : Positive l₁ := fun y hy => h.positive y (by simp [hy])
  have hn : 0 < n := h.positive (.live n b) (by simp)
  have hle := hj.le
  have hlt := lastFree_lt hbase hpos₁
  have hgap : lastFree L.base L.start l₁ + s.size (lastFree L.base L.start l₁) ≠ L.start + total l₁ := by
    rcases List.eq_nil_or_concat l₁ with rfl | ⟨l₀, x, rfl⟩
    · rw [lastFree, h.base, total_nil]
      omega
    · cases x with
      | free m => exact absurd trivial (hlast (.free m) (by simp))
      | live m c =>
        have hm : 0 < m := h.positive (.live m c) (by simp)
        rw [List.concat_eq_append] at hl ⊢
        have := lastFree_end h.base hbase (linked_append.mp hl).1
        rw [lastFree_append]
        simp only [lastFree, total_append, total_cons, total_nil, len_live]
        omega
  simp only [total_append, total_cons, len_live] at hsmall
  unfold St.joinPrev
  rw [hj.size_other _ (by omega), if_neg hgap]
  have hptr : ∀ x, x < L.start + total l₁ → x ≠ lastFree L.base L.start l₁ →
      update t.ptr (lastFree L.base L.start l₁) (L.start + total l₁) x = s.ptr x := by
    intro x hx hne
    rw [update_of_ne hne, hj.ptr_other x (by omega)]
  constructor
  · rw [frees_append, ← List.cons_append]
    exact List.mem_append_left _ lastFree_mem
  · exact (hj.size_other _ (by omega)).trans h.base
  · apply ends_append.mpr
    refine ⟨hl.congr hbase hpos₁ hptr (fun x hx _ => hj.size_other x (by omega)), update_self _ _ _, hj.size, ?_⟩
    exact hj.ends.congr (update_of_ne (by omega) _ _) (fun x hx => update_of_ne (by omega) _ _)
      (fun _ _ => rfl)
  · change t.brk = _
    rw [hj.rest.2.1, h.brk]
    simp only [total_append, total_cons, len_free, len_live]
    omega
  · intro x hx
    simp only [List.mem_append, List.mem_cons] at hx
    rcases hx with hx | rfl | hx
    · exact hpos₁ x hx
    · rw [len_free]
      omega
    · exact h.positive x (by simp [hj.sub x hx])
  · intro k c hk
    simp only [List.mem_append, List.mem_cons, reduceCtorEq, false_or] at hk
    rcases hk with hk | hk
    · exact h.room k c (by simp [hk])
    · exact h.room k c (by simp [hj.sub _ hk])
  · exact coalesced_append (List.isChain_append.mp h.coalesced).1 hj.coalesced (fun y hy hf => hlast y hy hf.1)
  · simp only [total_append, total_cons, len_free]
    omega

theorem free (h : Heap L s (l₁ ++ .live n b :: l₂)) : ∃ fuel t l', s.free fuel (L.start + total l₁ + 1) = some t ∧
    Heap L t l' ∧ lives L.start l' = lives L.start l₁ ++ lives (L.start + total l₁ + n) l₂ ∧ t.live = s.live ∧
    ∃ m, n ≤ m ∧ .free m ∈ l' := by
  have hbase := L.base_lt
  obtain ⟨fuel, hsearch⟩ := h.freeSearch
  obtain ⟨hl, hends⟩ := ends_append.mp h.ends
  have hpos : Positive (.live n b :: l₂) := fun x hx => h.positive x (List.mem_append_right _ hx)
  have hsmall := h.small
  simp only [total_append, total_cons, len_live] at hsmall
  have hc := (List.isChain_append.mp h.coalesced).2.1
  obtain ⟨n', l', hj⟩ := joinNext_joined hends (by omega) hpos (by omega) (List.IsChain.tail hc)
  have hlive : ∀ q bp : ℕ, ({ (s.joinNext q bp).joinPrev q bp with freep := q } : St).live = (s.joinNext q bp).live := by
    intro q bp
    unfold St.joinPrev
    split <;> rfl
  have hfree : s.free fuel (L.start + total l₁ + 1) = some { (s.joinNext (lastFree L.base L.start l₁) (L.start + total l₁)).joinPrev
      (lastFree L.base L.start l₁) (L.start + total l₁) with freep := lastFree L.base L.start l₁ } := by
    rw [St.free, Nat.add_sub_cancel, hsearch]
    rfl
  by_cases hlast : ∀ x ∈ l₁.getLast?, ¬x.IsFree
  · refine ⟨fuel, _, l₁ ++ .free n' :: l', hfree, h.joinPrev_live hj hlast, ?_, (hlive _ _).trans hj.rest.2.2, n', hj.le, by simp⟩
    rw [lives_append, ← hj.lives]
    rfl
  · rcases List.eq_nil_or_concat l₁ with rfl | ⟨l₀, x, rfl⟩
    · exact absurd (by simp) hlast
    · rw [List.concat_eq_append] at *
      cases x with
      | live m c => simp [IsFree] at hlast
      | free m =>
        have hq : lastFree L.base L.start (l₀ ++ [.free m]) = L.start + total l₀ := by
          rw [lastFree_append]
          rfl
        rw [hq] at hj hfree
        refine ⟨fuel, _, l₀ ++ .free (m + n') :: l', hfree, h.joinPrev_free hj, ?_, (hlive _ _).trans hj.rest.2.2, m + n', ?_, by simp⟩
        · rw [lives_append, lives_append, ← hj.lives]
          simp [lives, Nat.add_assoc]
        · have := hj.le
          omega

end Heap

end Xv6.Umalloc
