import Xv6.Umalloc.Free

namespace Xv6.Umalloc

open Lib Extent Transition
open Function (update update_of_ne update_self)

variable {L : Layout} {s t : St} {l l₁ l₂ : List Extent} {n m b e p q x y bp fuel nunits prevp : ℕ} {grant : ℕ → Bool}

/-! ### `morecore` -/

theorem int_eq (h : n < 2 ^ 31) : int n = n := by
  have hnat : (BitVec.ofNat 32 n).toNat = n := by
    rw [BitVec.toNat_ofNat, Nat.mod_eq_of_lt (by omega)]
  rw [int, BitVec.toInt_eq_toNat_of_lt (by omega), hnat]

theorem morecore_succ {r : ℕ × St} (h : s.morecore fuel n grant = some r) : s.morecore (fuel + 1) n grant = some r := by
  unfold St.morecore at h ⊢
  dsimp only at h ⊢
  split at h
  · exact h
  · rw [Option.bind_eq_bind, Option.bind_eq_some_iff] at h ⊢
    obtain ⟨t, ht, hr⟩ := h
    exact ⟨t, free_succ ht, hr⟩

namespace Heap

theorem grow (h : Heap L s l) (hn : 0 < n) (hsmall : total l + n < 2 ^ 32) :
    Heap L ({ s with brk := s.brk + n }.setSize s.brk n) (l ++ [.live n 0]) := by
  have hbase := L.base_lt
  have hbrk := h.brk
  have hsize : ∀ x, x < L.start + total l → update s.size s.brk n x = s.size x :=
    fun x hx => update_of_ne (by omega) _ _
  constructor
  · rw [frees_append, frees, frees, List.append_nil]
    exact h.freep
  · exact (hsize _ (by omega)).trans h.base
  · apply ends_append.mpr
    refine ⟨h.ends.linked.congr hbase h.positive (fun _ _ _ => rfl) (fun x hx _ => hsize x hx), ?_, ends_last (s := s) h.ends⟩
    rw [← hbrk]
    exact update_self _ _ _
  · simp only [St.setSize, total_append, total_cons, total_nil, len_live, hbrk]
    omega
  · intro x hx
    simp only [List.mem_append, List.mem_singleton] at hx
    rcases hx with hx | rfl
    · exact h.positive x hx
    · exact hn
  · intro k c hk
    simp only [List.mem_append, List.mem_singleton, Extent.live.injEq] at hk
    rcases hk with hk | ⟨rfl, rfl⟩
    · exact h.room k c hk
    · exact Nat.zero_le _
  · exact coalesced_append h.coalesced (List.isChain_singleton _) (fun _ _ hf => hf.2)
  · simp only [total_append, total_cons, total_nil, len_live]
    omega

theorem morecore (h : Heap L s l) (hn : nunits < 2 ^ 27)
    (hgrant : grant s.brk = true → s.brk + max 4096 nunits < L.start + 2 ^ 32) :
    ∃ fuel p t, s.morecore fuel nunits grant = some (p, t) ∧ t.live = s.live ∧ ((p = 0 ∧ t = s) ∨ (p ≠ 0 ∧ p = t.freep ∧
      ∃ l', Heap L t l' ∧ lives L.start l' = lives L.start l ∧ ∃ m, nunits ≤ m ∧ .free m ∈ l')) := by
  have hnu : (if nunits < 4096 then 4096 else nunits) = max 4096 nunits := by
    split_ifs <;> omega
  cases hg : grant s.brk with
  | false =>
    refine ⟨0, 0, s, ?_, rfl, .inl ⟨rfl, rfl⟩⟩
    unfold St.morecore St.sbrk
    simp only [hg, Bool.false_eq_true, if_false]
  | true =>
    have hlt := hgrant hg
    rw [h.brk] at hlt
    have hgrow := h.grow (n := max 4096 nunits) (by omega) (by omega)
    obtain ⟨fuel, t, l', hfree, hheap, hlives, hlive, m, hm, hmem⟩ := hgrow.free
    refine ⟨fuel, t.freep, t, ?_, hlive, .inr ⟨?_, rfl, l', hheap, ?_, m, by omega, hmem⟩⟩
    · have hbrk : ((s.brk : ℤ) + ((max 4096 nunits * headerSize : ℕ) : ℤ) / headerSize).toNat = s.brk + max 4096 nunits := by
        simp only [headerSize]
        omega
      unfold St.morecore St.sbrk
      simp only [hg, if_true, hnu]
      rw [int_eq (by simp only [headerSize]; omega), hbrk]
      rw [← h.brk] at hfree
      rw [hfree]
      rfl
    · have := hheap.nodes_ge hheap.freep
      have := L.base_pos
      omega
    · rw [hlives]
      simp [lives]

/-! ### Taking a block -/

theorem take (h : Heap L s (l₁ ++ .free m :: l₂)) (hn : 0 < nunits) (hle : nunits ≤ m) (hb : b ≤ headerSize * (nunits - 1)) :
    ∃ ap t l', s.take nunits (lastFree L.base L.start l₁) (L.start + total l₁) = (ap, t) ∧ ap ≠ 0 ∧ Heap L t l' ∧
      t.live = s.live ∧ (lives L.start l').Perm ((ap - 1, b) :: lives L.start (l₁ ++ .free m :: l₂)) := by
  have hbase := L.base_lt
  obtain ⟨hl, hq, hm, hends⟩ := ends_append.mp h.ends
  have hpos₁ : Positive l₁ := fun y hy => h.positive y (by simp [hy])
  have hlt := lastFree_lt hbase hpos₁
  have hsmall := h.small
  have hbrk := h.brk
  simp only [total_append, total_cons, len_free] at hsmall hbrk
  have hc₂ := (List.isChain_append.mp h.coalesced).2.1
  have hc₁ := (List.isChain_append.mp h.coalesced).1
  have hmem : lastFree L.base L.start l₁ ∈ L.base :: frees L.start l₁ := lastFree_mem
  unfold St.take
  rw [hm]
  by_cases heq : m = nunits
  · subst heq
    rw [if_pos rfl]
    refine ⟨_, _, l₁ ++ .live m b :: l₂, rfl, by omega, ?_, rfl, ?_⟩
    · constructor
      · rw [frees_append, ← List.cons_append]
        exact List.mem_append_left _ hmem
      · exact h.base
      · apply ends_append.mpr
        refine ⟨hl.congr hbase hpos₁ (fun x _ hne => update_of_ne hne _ _) (fun _ _ _ => rfl), hm, ?_⟩
        exact hends.congr (update_self _ _ _) (fun x hx => update_of_ne (by omega) _ _) (fun _ _ => rfl)
      · simp only [St.setPtr, total_append, total_cons, len_live]
        exact hbrk
      · intro x hx
        simp only [List.mem_append, List.mem_cons] at hx
        rcases hx with hx | rfl | hx
        · exact hpos₁ x hx
        · exact hn
        · exact h.positive x (by simp [hx])
      · intro k c hk
        simp only [List.mem_append, List.mem_cons, Extent.live.injEq] at hk
        rcases hk with hk | ⟨rfl, rfl⟩ | hk
        · exact h.room k c (by simp [hk])
        · exact hb
        · exact h.room k c (by simp [hk])
      · refine coalesced_append hc₁ ?_ (fun _ _ hf => hf.2)
        exact List.IsChain.cons (List.IsChain.tail hc₂) (fun _ _ hf => hf.1)
      · simp only [total_append, total_cons, len_live]
        exact hsmall
    · rw [lives_append, lives_append, Nat.add_sub_cancel]
      exact List.perm_middle
  · rw [if_neg heq, uint_eq (by omega)]
    refine ⟨_, _, l₁ ++ .free (m - nunits) :: .live nunits b :: l₂, rfl, by omega, ?_, rfl, ?_⟩
    · have hsize : ∀ x, x < L.start + total l₁ → update (update s.size (L.start + total l₁) (m - nunits))
          (L.start + total l₁ + (m - nunits)) nunits x = s.size x := by
        intro x hx
        rw [update_of_ne (by omega), update_of_ne (by omega)]
      constructor
      · rw [frees_append, ← List.cons_append]
        exact List.mem_append_left _ hmem
      · exact (hsize _ (by omega)).trans h.base
      · apply ends_append.mpr
        refine ⟨hl.congr hbase hpos₁ (fun _ _ _ => rfl) (fun x hx _ => hsize x hx), hq, ?_, update_self _ _ _, ?_⟩
        · simp only [St.setSize]
          rw [update_of_ne (by omega), update_self]
        · rw [show L.start + total l₁ + (m - nunits) + nunits = L.start + total l₁ + m by omega]
          refine hends.congr rfl (fun _ _ => rfl) (fun x hx => ?_)
          simp only [St.setSize]
          rw [update_of_ne (by omega), update_of_ne (by omega)]
      · simp only [St.setSize, total_append, total_cons, len_live, len_free]
        omega
      · intro x hx
        simp only [List.mem_append, List.mem_cons] at hx
        rcases hx with hx | rfl | rfl | hx
        · exact hpos₁ x hx
        · rw [len_free]
          omega
        · exact hn
        · exact h.positive x (by simp [hx])
      · intro k c hk
        simp only [List.mem_append, List.mem_cons, reduceCtorEq, false_or, Extent.live.injEq] at hk
        rcases hk with hk | ⟨rfl, rfl⟩ | hk
        · exact h.room k c (by simp [hk])
        · exact hb
        · exact h.room k c (by simp [hk])
      · refine coalesced_append hc₁ ?_ (fun y hy hf => coalesced_last h.coalesced y hy ⟨hf.1, trivial⟩)
        refine List.isChain_cons_cons.mpr ⟨fun hf => hf.2, ?_⟩
        exact List.IsChain.cons (List.IsChain.tail hc₂) (fun _ _ hf => hf.1)
      · simp only [total_append, total_cons, len_live, len_free]
        omega
    · rw [lives_append, lives_append, Nat.add_sub_cancel]
      simp only [lives]
      rw [show L.start + total l₁ + (m - nunits) + nunits = L.start + total l₁ + m by omega]
      exact List.perm_middle

end Heap

/-! ### The loop of `malloc` -/

theorem mallocLoop_succ {r : ℕ × St} (h : St.mallocLoop nunits grant fuel s prevp p = some r) :
    St.mallocLoop nunits grant (fuel + 1) s prevp p = some r := by
  induction fuel generalizing s prevp p with
  | zero => cases h
  | succ fuel ih =>
    unfold St.mallocLoop at h ⊢
    split_ifs at h ⊢
    · exact h
    · cases hm : s.morecore fuel nunits grant with
      | none =>
        rw [hm] at h
        cases h
      | some r =>
        rw [hm] at h
        rw [morecore_succ hm]
        dsimp only at h ⊢
        split_ifs at h ⊢
        · exact h
        · exact ih h
    · exact ih h

theorem eq_of_fuel {α : Type} {f : ℕ → Option α} (hf : ∀ n r, f n = some r → f (n + 1) = some r) {r r' : α}
    (hr : f n = some r) (hr' : f m = some r') : r = r' := by
  have hle : ∀ {n r} k, f n = some r → f (n + k) = some r := by
    intro n r k h
    induction k with
    | zero => exact h
    | succ k ih => exact hf _ _ ih
  have h₁ := hle m hr
  have h₂ := hle n hr'
  rw [Nat.add_comm, h₂] at h₁
  exact (Option.some.inj h₁).symm

theorem mallocLoop_walk {r : List ℕ} (hchain : List.IsChain (fun x y => s.ptr x = y) (x :: (r ++ [s.freep]))) (hr : s.freep ∉ r) :
    ∃ k, ∃ prevp ∈ x :: r, (∀ fuel, St.mallocLoop nunits grant (fuel + k) s x (s.ptr x) =
        St.mallocLoop nunits grant fuel s prevp (s.ptr prevp)) ∧
      (nunits ≤ s.size (s.ptr prevp) ∨ s.ptr prevp = s.freep ∧ ∀ y ∈ r ++ [s.freep], s.size y < nunits) := by
  induction r generalizing x with
  | nil =>
    rw [List.nil_append, List.isChain_pair] at hchain
    refine ⟨0, x, List.mem_cons_self, fun _ => rfl, ?_⟩
    by_cases hsize : nunits ≤ s.size (s.ptr x)
    · exact .inl hsize
    · refine .inr ⟨hchain, fun y hy => ?_⟩
      rw [List.nil_append, List.mem_singleton] at hy
      rw [hy, ← hchain]
      omega
  | cons y r ih =>
    rw [List.cons_append, List.isChain_cons_cons] at hchain
    rw [List.mem_cons, not_or] at hr
    by_cases hsize : nunits ≤ s.size y
    · refine ⟨0, x, List.mem_cons_self, fun _ => rfl, .inl ?_⟩
      rw [hchain.1]
      exact hsize
    · obtain ⟨k, prevp, hmem, hloop, hend⟩ := ih hchain.2 hr.2
      refine ⟨k + 1, prevp, List.mem_cons_of_mem _ hmem, fun fuel => ?_, ?_⟩
      · rw [hchain.1, ← Nat.add_assoc, St.mallocLoop, if_neg hsize, if_neg (fun heq => hr.1 heq.symm)]
        exact hloop fuel
      · rcases hend with hend | ⟨hlast, hall⟩
        · exact .inl hend
        · refine .inr ⟨hlast, fun z hz => ?_⟩
          rcases List.mem_cons.mp hz with rfl | hz
          · omega
          · exact hall z hz

def Returns (L : Layout) (s : St) (l : List Extent) (b : ℕ) (r : ℕ × St) : Prop :=
  r.2.live = s.live ∧ ∃ l', Heap L r.2 l' ∧ (r.1 = 0 ∧ lives L.start l' = lives L.start l ∨
    r.1 ≠ 0 ∧ (lives L.start l').Perm ((r.1 - 1, b) :: lives L.start l))

namespace Heap

theorem walk (h : Heap L s l) (nunits : ℕ) (grant : ℕ → Bool) : ∃ k, ∃ prevp ∈ L.base :: frees L.start l,
    (∀ fuel, St.mallocLoop nunits grant (fuel + k) s s.freep (s.ptr s.freep) =
      St.mallocLoop nunits grant fuel s prevp (s.ptr prevp)) ∧
    (nunits ≤ s.size (s.ptr prevp) ∨ s.ptr prevp = s.freep ∧ ∀ y ∈ L.base :: frees L.start l, s.size y < nunits) := by
  obtain ⟨r, hchain, hmem, hr⟩ := h.round h.freep
  obtain ⟨k, prevp, hprevp, hloop, hend⟩ := mallocLoop_walk hchain hr
  refine ⟨k, prevp, (hmem prevp).mp hprevp, hloop, ?_⟩
  rcases hend with hend | ⟨hlast, hall⟩
  · exact .inl hend
  · refine .inr ⟨hlast, fun y hy => hall y ?_⟩
    have := (hmem y).mpr hy
    simp only [List.mem_cons, List.mem_append, List.not_mem_nil, or_false] at this ⊢
    exact this.symm

theorem found (h : Heap L s l) (hn : 0 < nunits) (hb : b ≤ headerSize * (nunits - 1))
    (hprevp : prevp ∈ L.base :: frees L.start l) (hsize : nunits ≤ s.size (s.ptr prevp)) :
    Returns L s l b (s.take nunits prevp (s.ptr prevp)) := by
  obtain ⟨l₁, l₂, rfl, hp⟩ := h.size_pos_mem (h.ptr_mem hprevp) (by omega)
  have hbase := L.base_lt
  have hlast : prevp = lastFree L.base L.start l₁ := by
    apply h.eq_lastFree hprevp
    · rcases h.lt_ptr hprevp with hlt | hlt <;> omega
    · exact .inl (Nat.le_of_eq hp.symm)
  obtain ⟨ap, t, l', htake, hne, hheap, hlive, hperm⟩ := h.take hn hsize hb
  rw [← hlast, ← hp] at htake
  rw [htake]
  exact ⟨hlive, l', hheap, .inr ⟨hne, hperm⟩⟩

theorem mallocLoop (h : Heap L s l) (hn : 0 < nunits) (hlt : nunits < 2 ^ 27) (hb : b ≤ headerSize * (nunits - 1))
    (hgrant : grant s.brk = true → s.brk + max 4096 nunits < L.start + 2 ^ 32) :
    ∃ fuel r, St.mallocLoop nunits grant fuel s s.freep (s.ptr s.freep) = some r ∧ Returns L s l b r := by
  obtain ⟨k, prevp, hprevp, hloop, hend⟩ := h.walk nunits grant
  by_cases hsize : nunits ≤ s.size (s.ptr prevp)
  · refine ⟨1 + k, _, ?_, h.found hn hb hprevp hsize⟩
    rw [hloop, St.mallocLoop, if_pos hsize]
  · obtain ⟨hlast, -⟩ := hend.resolve_left hsize
    obtain ⟨fuel, p, t, hmore, hlive, ⟨rfl, rfl⟩ | ⟨hp, rfl, l', hheap, hlives, m, hm, hmem⟩⟩ := h.morecore hlt hgrant
    · refine ⟨fuel + 1 + k, (0, _), ?_, rfl, l, h, .inl ⟨rfl, rfl⟩⟩
      rw [hloop, St.mallocLoop, if_neg hsize, if_pos hlast, hmore]
      rfl
    · obtain ⟨k', prevp', hprevp', hloop', hend'⟩ := hheap.walk nunits grant
      -- the block that `morecore` has made is in the list
      have hsize' : nunits ≤ t.size (t.ptr prevp') := by
        rcases hend' with hend' | ⟨-, hall⟩
        · exact hend'
        · obtain ⟨l₁, l₂, rfl⟩ := List.append_of_mem hmem
          have hx : L.start + total l₁ ∈ L.base :: frees L.start (l₁ ++ .free m :: l₂) := by
            rw [frees_append]
            exact List.mem_cons_of_mem _ (List.mem_append_right _ List.mem_cons_self)
          have := hall _ hx
          rw [(ends_append.mp hheap.ends).2.2.1] at this
          omega
      obtain ⟨hlive', l'', hheap', hres⟩ := hheap.found hn hb hprevp' hsize'
      refine ⟨fuel + 1 + k' + 1 + k, _, ?_, hlive'.trans hlive, l'', hheap', hlives ▸ hres⟩
      have hmore' : s.morecore (fuel + 1 + k') nunits grant = some (t.freep, t) := by
        rw [Nat.add_assoc]
        generalize 1 + k' = j
        induction j with
        | zero => exact hmore
        | succ j ih => exact morecore_succ ih
      rw [hloop, St.mallocLoop, if_neg hsize, if_pos hlast, hmore']
      dsimp only
      rw [if_neg hp, hloop', St.mallocLoop, if_pos hsize']

end Heap

/-! ### Runs -/

def Fits (L : Layout) (s : St) : Act → Prop
  | .malloc _ nbytes grant => St.units nbytes < 2 ^ 27 ∧
      (grant s.brk = true → s.brk + max 4096 (St.units nbytes) < L.start + 2 ^ 32)
  | .free _ _ => True

instance (L : Layout) (s : St) (a : Act) : Decidable (Fits L s a) := by
  cases a <;> unfold Fits <;> infer_instance

def header (x : ℕ × ℕ) : ℕ × ℕ := (x.1 - 1, x.2)

def Inv (L : Layout) (s : St) : Prop :=
  s.freep = 0 ∧ s.live = [] ∧ s.brk = L.start ∨
  ∃ l, Heap L s l ∧ (s.live.map header).Perm (lives L.start l) ∧ ∀ x ∈ s.live, 0 < x.1

theorem inv_init : Inv L (St.init L) := .inl ⟨rfl, rfl, rfl⟩

namespace Inv

theorem setup (h : Inv L s) : (s.setup L).live = s.live ∧ (s.setup L).brk = s.brk ∧
    ∃ l, Heap L (s.setup L) l ∧ (s.live.map header).Perm (lives L.start l) ∧ ∀ x ∈ s.live, 0 < x.1 := by
  rcases h with ⟨hfreep, hlive, hbrk⟩ | ⟨l, h, hperm, hpos⟩
  · unfold St.setup
    rw [if_pos hfreep]
    refine ⟨rfl, rfl, [], ?_, ?_, ?_⟩
    · refine ⟨List.mem_cons_self, update_self _ _ _, update_self _ _ _, hbrk, nofun, nofun, .nil, ?_⟩
      exact Nat.two_pow_pos 32
    · rw [hlive]
      exact .nil
    · rw [hlive]
      exact nofun
  · have hne : s.freep ≠ 0 := by
      have := h.nodes_ge h.freep
      have := L.base_pos
      omega
    unfold St.setup
    rw [if_neg hne]
    exact ⟨rfl, rfl, l, h, hperm, hpos⟩

theorem units_spec (nbytes : UInt32) : 0 < St.units nbytes ∧ nbytes.toNat ≤ headerSize * (St.units nbytes - 1) := by
  have := nbytes.toNat_lt
  simp only [St.units, uint, headerSize]
  omega

theorem malloc {nbytes : UInt32} (h : Inv L s) (hfits : Fits L s (.malloc fuel nbytes grant)) :
    ∃ fuel r l, s.malloc L fuel nbytes grant = some r ∧ Returns L s l nbytes.toNat r ∧
      (s.live.map header).Perm (lives L.start l) ∧ ∀ x ∈ s.live, 0 < x.1 := by
  obtain ⟨hlive, hbrk, l, hheap, hperm, hpos⟩ := h.setup
  obtain ⟨hn, hb⟩ := units_spec nbytes
  have hgrant := hfits.2
  rw [← hbrk] at hgrant
  obtain ⟨fuel, r, hr, hret⟩ := hheap.mallocLoop hn hfits.1 hb hgrant
  rw [Returns, hlive] at hret
  exact ⟨fuel, r, l, hr, hret, hperm, hpos⟩

theorem free {x : ℕ × ℕ} (h : Inv L s) (hx : x ∈ s.live) : ∃ fuel t, s.free fuel x.1 = some t ∧ t.live = s.live ∧
    ∃ l', Heap L t l' ∧ ((s.live.filter (fun y => y.1 ≠ x.1)).map header).Perm (lives L.start l') := by
  rcases h with ⟨-, hlive, -⟩ | ⟨l, h, hperm, hpos⟩
  · rw [hlive] at hx
    cases hx
  · obtain ⟨l₁, n, l₂, rfl, haddr⟩ := exists_of_mem_lives (hperm.mem_iff.mp (List.mem_map_of_mem hx))
    have hxpos := hpos x hx
    have hap : x.1 = L.start + total l₁ + 1 := by
      simp only [header] at haddr
      omega
    obtain ⟨fuel, t, l', hfree, hheap, hlives, hlive, -⟩ := h.free
    rw [← hap] at hfree
    refine ⟨fuel, t, hfree, hlive, l', hheap, ?_⟩
    have hn : 0 < n := h.positive (.live n (header x).2) (by simp)
    have hpos₁ : Positive l₁ := fun y hy => h.positive y (by simp [hy])
    have hfilter : (lives L.start (l₁ ++ .live n (header x).2 :: l₂)).filter (fun y => y.1 ≠ L.start + total l₁) =
        lives L.start l' := by
      rw [lives_append, List.filter_append, lives, List.filter_cons_of_neg (by simp), hlives]
      congr 1
      · apply List.filter_eq_self.mpr
        intro y hy
        have := lives_lt hpos₁ hy
        simp only [ne_eq, decide_not, Bool.not_eq_eq_eq_not, Bool.not_true, decide_eq_false_iff_not]
        omega
      · apply List.filter_eq_self.mpr
        intro y hy
        have := lives_ge hy
        simp only [ne_eq, decide_not, Bool.not_eq_eq_eq_not, Bool.not_true, decide_eq_false_iff_not]
        omega
    rw [← hfilter]
    have hmap : (s.live.filter (fun y => y.1 ≠ x.1)).map header =
        (s.live.map header).filter (fun y => y.1 ≠ L.start + total l₁) := by
      rw [List.filter_map]
      congr 1
      apply List.filter_congr
      intro y hy
      have := hpos y hy
      change decide (y.1 ≠ x.1) = decide (y.1 - 1 ≠ L.start + total l₁)
      rw [decide_eq_decide]
      omega
    rw [hmap]
    exact hperm.filter _

theorem of_step {a : Act} (h : Inv L s) (hfits : Fits L s a) (ht : step L s a = some t) : Inv L t := by
  cases a with
  | malloc fuel nbytes grant =>
    obtain ⟨fuel', r, l, hr, ⟨hlive, l', hheap, hres⟩, hperm, hpos⟩ := h.malloc hfits
    rw [step, Option.bind_eq_bind, Option.bind_eq_some_iff] at ht
    obtain ⟨r', hr', ht⟩ := ht
    obtain rfl := eq_of_fuel (f := fun n => s.malloc L n nbytes grant) (fun _ _ => mallocLoop_succ) hr hr'
    cases ht
    rcases hres with ⟨hzero, hlives⟩ | ⟨hne, hlives⟩
    · rw [if_pos hzero]
      refine .inr ⟨l', hheap, ?_, ?_⟩
      · rw [hlive, hlives]
        exact hperm
      · rw [hlive]
        exact hpos
    · rw [if_neg hne]
      refine .inr ⟨l', ⟨hheap.freep, hheap.base, hheap.ends, hheap.brk, hheap.positive, hheap.room, hheap.coalesced,
        hheap.small⟩, ?_, ?_⟩
      · dsimp only
        rw [List.map_cons, hlive]
        exact (hperm.cons _).trans hlives.symm
      · intro x hx
        dsimp only at hx
        rw [hlive] at hx
        rcases List.mem_cons.mp hx with rfl | hx
        · exact Nat.pos_of_ne_zero hne
        · exact hpos x hx
  | free fuel ap =>
    rw [step] at ht
    split_ifs at ht with hap
    obtain ⟨x, hx, rfl⟩ := List.mem_map.mp hap
    obtain ⟨fuel', r, hr, hlive, l', hheap, hperm⟩ := h.free hx
    rw [Option.bind_eq_bind, Option.bind_eq_some_iff] at ht
    obtain ⟨r', hr', ht⟩ := ht
    obtain rfl := eq_of_fuel (f := fun n => s.free n x.1) (fun _ _ => free_succ) hr hr'
    cases ht
    refine .inr ⟨l', ⟨hheap.freep, hheap.base, hheap.ends, hheap.brk, hheap.positive, hheap.room, hheap.coalesced,
      hheap.small⟩, ?_, ?_⟩
    · dsimp only
      rw [hlive]
      exact hperm
    · intro y hy
      dsimp only at hy
      rw [hlive] at hy
      rcases h with ⟨-, hnil, -⟩ | ⟨l, -, -, hpos⟩
      · rw [hnil] at hy
        cases hy
      · exact hpos y (List.mem_filter.mp hy).1

theorem of_run (hrun : Run (step L) (Fits L) (St.init L) s) : Inv L s :=
  hrun.invariant inv_init (fun _ _ _ h hfits ht => h.of_step hfits ht)

end Inv

def headers (s : St) : List ℕ := s.live.map (fun x => x.1 - 1)

/-- As long as the requests and the heap fit, the blocks of the list and those in use tile the heap, and the calls return. -/
theorem malloc_free_partition (hrun : Run (step L) (Fits L) (St.init L) s) : ∃ frees : List ℕ,
    (s.freep = 0 ∧ frees = [] ∧ s.live = [] ∨
      s.freep ∈ L.base :: frees ∧ Cycle.Chain (fun x y => s.ptr x = y) ((L.base :: frees : List ℕ) : Cycle ℕ)) ∧
    (L.base :: frees).Pairwise (· < ·) ∧ frees.Pairwise (fun x y => x + s.size x < y) ∧
    (frees ++ headers s).Pairwise (fun x y => x + s.size x ≤ y ∨ y + s.size y ≤ x) ∧
    (∀ x ∈ frees ++ headers s, L.start ≤ x ∧ x + s.size x ≤ s.brk) ∧
    (∀ x ∈ s.live, x.2 ≤ headerSize * (s.size (x.1 - 1) - 1)) ∧
    L.start + ((frees ++ headers s).map s.size).sum = s.brk ∧
    (∀ nbytes grant, Fits L s (.malloc 0 nbytes grant) → ∃ fuel, (s.malloc L fuel nbytes grant).isSome = true) ∧
    ∀ x ∈ s.live, ∃ fuel, (s.free fuel x.1).isSome = true := by
  have hinv := Inv.of_run hrun
  have hmalloc : ∀ nbytes grant, Fits L s (.malloc 0 nbytes grant) → ∃ fuel, (s.malloc L fuel nbytes grant).isSome = true := by
    intro nbytes grant hfits
    obtain ⟨fuel, r, l, hr, -⟩ := hinv.malloc hfits
    exact ⟨fuel, by rw [hr]; rfl⟩
  have hfree : ∀ x ∈ s.live, ∃ fuel, (s.free fuel x.1).isSome = true := by
    intro x hx
    obtain ⟨fuel, t, ht, -⟩ := hinv.free hx
    exact ⟨fuel, by rw [ht]; rfl⟩
  have hbase := L.base_lt
  rcases hinv with ⟨hfreep, hlive, hbrk⟩ | ⟨l, h, hperm, hpos⟩
  · refine ⟨[], .inl ⟨hfreep, rfl, hlive⟩, List.pairwise_singleton _ _, .nil, ?_, ?_, ?_, ?_, hmalloc, hfree⟩
    · rw [headers, hlive]
      exact .nil
    · rw [headers, hlive]
      exact nofun
    · rw [hlive]
      exact nofun
    · rw [headers, hlive]
      exact hbrk.symm
  · have hsize := h.ends.linked.map_size
    have hgaps := pairwise_frees h.ends.linked h.positive h.coalesced
    have hall : (frees L.start l ++ headers s).Perm (starts L.start l) := by
      have hfst := (hperm.map Prod.fst).append_left (frees L.start l)
      rw [List.map_map] at hfst
      exact hfst.trans perm_starts
    refine ⟨frees L.start l, .inr ⟨h.freep, h.cycle⟩, ?_, hgaps, ?_, ?_, ?_, ?_, hmalloc, hfree⟩
    · refine List.Pairwise.cons (fun x hx => ?_) (hgaps.imp (fun hxy => by omega))
      have := frees_ge hx
      omega
    · apply (hall.pairwise_iff (fun hxy => hxy.symm)).mpr
      exact (pairwise_starts hsize).imp .inl
    · intro x hx
      rw [h.brk]
      exact inside hsize (hall.mem_iff.mp hx)
    · intro x hx
      obtain ⟨l₁, n, l₂, rfl, haddr⟩ := exists_of_mem_lives (hperm.mem_iff.mp (List.mem_map_of_mem hx))
      have hn : s.size (x.1 - 1) = n := by
        change x.1 - 1 = _ at haddr
        rw [haddr]
        exact (ends_append.mp h.ends).2.1
      rw [hn]
      exact h.room n x.2 (by simp [header])
    · rw [h.brk, (hall.map s.size).sum_eq, hsize]
      rfl

def layout : Layout := ⟨1, 2, by decide, by decide⟩

theorem malloc_free_partition_after_free : ∃ s, Run (step layout) (Fits layout) (St.init layout) s ∧ s.live = [(4088, 24)] ∧
    ∃ frees : List ℕ, frees.Pairwise (fun x y => x + s.size x < y) ∧
      layout.start + ((frees ++ headers s).map s.size).sum = s.brk := by
  have hex : ∃ s, execute (step layout) (Fits layout) (St.init layout)
      [.malloc 5 100 (fun _ => true), .malloc 5 24 (fun _ => true), .free 5 4091] = some s ∧ s.live = [(4088, 24)] :=
    ⟨_, rfl, rfl⟩
  obtain ⟨s, hs, hlive⟩ := hex
  obtain ⟨frees, -, -, hgaps, -, -, -, htotal, -⟩ := malloc_free_partition (run_of_execute hs)
  exact ⟨s, run_of_execute hs, hlive, frees, hgaps, htotal⟩

theorem malloc_outside_heap : ∃ s, Run (step layout) (fun _ _ => True) (St.init layout) s ∧
    ∃ x ∈ s.live, s.brk < x.1 - 1 + s.size (x.1 - 1) := by
  have hex : ∃ s, execute (step layout) (fun _ _ => True) (St.init layout) [.malloc 5 4294967295 (fun _ => true)] = some s ∧
      s.live = [(3, 4294967295)] ∧ s.brk = 3 ∧ s.size 2 = 268435457 := ⟨_, rfl, rfl, rfl, rfl⟩
  obtain ⟨s, hs, hlive, hbrk, hsize⟩ := hex
  refine ⟨s, run_of_execute hs, (3, 4294967295), ?_, ?_⟩
  · rw [hlive]
    exact List.mem_cons_self
  · change s.brk < 2 + s.size 2
    rw [hbrk, hsize]
    decide

end Xv6.Umalloc
