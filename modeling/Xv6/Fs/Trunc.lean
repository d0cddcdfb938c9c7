import Xv6.Fs.File

namespace Xv6.Fs

open Lib Hoare
open Function (update update_of_ne update_self update_apply update_eq_self update_idem)

variable (sb : Superblock)

structure Freed (s t : FsState) (X : Set ℕ) : Prop where
  itable : t.itable = s.itable
  used : ∀ c, Used sb t.cache c ↔ Used sb s.cache c ∧ c ∉ X
  frame : ∀ c, (∀ b < sb.size, c ≠ sb.bblock b) → t.cache c = s.cache c
  synced : ∀ c, s.saved c = s.cache c → t.saved c = t.cache c

structure Emptied (s t : FsState) (ip : Fin nInode) (K : Set Slot) : Prop where
  op : Op sb t ip ∅
  table : ∃ a, t.itable = update s.itable ip ((s.itable ip).withAddrs a)
  disk : disk sb t.cache = disk sb s.cache
  frame : ∀ c, sb.dataStart ≤ c → t.cache c = s.cache c
  gone : ∀ k ∈ K, memRefs sb t ip k = none
  kept : ∀ x, (x.1 = (s.itable ip).inum → x.2 ∉ K) →
    refs sb t.cache (view sb t ip) x = refs sb s.cache (view sb s ip) x

variable {sb} {s t u : FsState} {ip : Fin nInode} {b : ℕ}

namespace Freed

theorem rfl : Freed sb s s ∅ := ⟨Eq.refl _, by simp, fun _ _ => Eq.refl _, fun _ h => h⟩

theorem give (hb : b < sb.size) : Freed sb s (s.give sb b) {b} := by
  refine ⟨Eq.refl _, fun c => ?_, fun c hc => update_of_ne (hc b hb) _ _, fun c hc => ?_⟩
  · rw [Set.mem_singleton_iff, and_comm]
    exact used_markFree
  · simp only [FsState.give, markFree, update_apply]
    split_ifs
    · exact Eq.refl _
    · exact hc

theorem trans {X Y : Set ℕ} (h : Freed sb s t X) (h' : Freed sb t u Y) : Freed sb s u (X ∪ Y) := by
  refine ⟨h'.itable.trans h.itable, fun c => ?_, fun c hc => (h'.frame c hc).trans (h.frame c hc),
    fun c hc => h'.synced c (h.synced c hc)⟩
  rw [h'.used, h.used, Set.mem_union, not_or, and_assoc]

end Freed

theorem ne_bblock_of_dataStart_le {c : ℕ} (hc : sb.dataStart ≤ c) (b : ℕ) (hb : b < sb.size) :
    c ≠ sb.bblock b := by
  have := (Superblock.bblock_mem hb).2
  omega

theorem Op.release (h : Op sb s ip ∅) {X : Set ℕ} (hX : Freed sb s u X) {K : Set Slot}
    (hXK : ∀ b, b ∈ X ↔ ∃ k ∈ K, memRefs sb s ip k = some b) {a : Fin (nDirect + 1) → ℕ}
    (ha : ∀ k, a k = 0 ∨ a k = (s.itable ip).addrs k)
    (hgone : ∀ k ∈ K, slot s.cache ((s.itable ip).withAddrs a).toDinode k = 0)
    (hkept : ∀ k ∉ K, slot s.cache ((s.itable ip).withAddrs a).toDinode k =
      slot s.cache (s.itable ip).toDinode k)
    (hcache : t.cache = u.cache) (hsaved : t.saved = u.saved)
    (htab : t.itable = update s.itable ip ((s.itable ip).withAddrs a)) :
    Emptied sb s t ip K := by
  have hframe (c : ℕ) (hc : sb.dataStart ≤ c) : t.cache c = s.cache c := by
    rw [hcache]
    exact hX.frame c (ne_bblock_of_dataStart_le hc)
  have hdisk : disk sb t.cache = disk sb s.cache := by
    rw [hcache]
    exact disk_congr (fun i hi => hX.frame _ (fun b hb => Superblock.iblock_ne_bblock hi hb))
  have hother {jp : Fin nInode} (hj : jp ≠ ip) : t.itable jp = s.itable jp := by
    rw [htab, update_of_ne hj]
  have hself : t.itable ip = (s.itable ip).withAddrs a := by rw [htab, update_self]
  have hinum : (t.itable ip).inum = (s.itable ip).inum := by rw [hself]; rfl
  have hview : view sb t ip = update (view sb s ip) (s.itable ip).inum
      ((s.itable ip).withAddrs a).toDinode := by
    rw [Op.view_withAddrs hdisk htab, view_self]
    rfl
  have hslot (x : ℕ × Slot) (hx : x.1 = (s.itable ip).inum → x.2 ∉ K) :
      slot s.cache (view sb t ip x.1) x.2 = slot s.cache (view sb s ip x.1) x.2 := by
    rw [hview]
    by_cases hi : x.1 = (s.itable ip).inum
    · rw [hi, update_self, view_self]
      exact hkept x.2 (hx hi)
    · rw [update_of_ne hi]
  have htype (i : ℕ) : (view sb t ip i).type = (view sb s ip i).type := by
    rw [hview]
    by_cases hi : i = (s.itable ip).inum
    · rw [hi, update_self, view_self]
      rfl
    · rw [update_of_ne hi]
  have hind (i c : ℕ) (hi : refs sb s.cache (view sb t ip) (i, .indirect) = some c) :
      refs sb s.cache (view sb s ip) (i, .indirect) = some c := by
    obtain ⟨h₁, h₂, h₃, h₄⟩ := refs_eq_some.mp hi
    by_cases hK : i = (s.itable ip).inum ∧ Slot.indirect ∈ K
    · rw [hview, hK.1, update_self, hgone _ hK.2] at h₃
      exact absurd h₃.symm h₄
    · rw [hslot (i, .indirect) (fun he hk => hK ⟨he, hk⟩)] at h₃
      exact refs_eq_some.mpr ⟨h₁, by rw [← htype]; exact h₂, h₃, h₄⟩
  have hrefs : refs sb t.cache (view sb t ip) = refs sb s.cache (view sb t ip) :=
    funext (refs_congr (fun i c hi => hframe c (h.owns.inData (hind i c hi)).1))
  have hgone' (x : ℕ × Slot) (hx : x.1 = (s.itable ip).inum ∧ x.2 ∈ K) :
      refs sb t.cache (view sb t ip) x = none := by
    rw [hrefs, refs, if_neg]
    rintro ⟨-, -, hne⟩
    apply hne
    rw [hview, hx.1, update_self]
    exact hgone x.2 hx.2
  have hkept' (x : ℕ × Slot) (hx : x.1 = (s.itable ip).inum → x.2 ∉ K) :
      refs sb t.cache (view sb t ip) x = refs sb s.cache (view sb s ip) x := by
    rw [hrefs]
    simp only [refs, htype, hslot x hx]
  have hfield (jp : Fin nInode) : (t.itable jp).ref = (s.itable jp).ref ∧
      (t.itable jp).inum = (s.itable jp).inum := by
    by_cases hj : jp = ip
    · rw [hj, hself]
      exact ⟨rfl, rfl⟩
    · rw [hother hj]
      exact ⟨rfl, rfl⟩
  refine ⟨⟨⟨h.owns.owned.release (X := {x | x.1 = (s.itable ip).inum ∧ x.2 ∈ K}) ?_ hgone' ?_, ?_⟩,
    ?_, ?_, ?_, ?_, ?_, ?_, ?_⟩, ⟨a, htab⟩, hdisk, hframe, ?_, hkept'⟩
  · intro c _
    rw [hcache, hX.used, hXK]
    refine and_congr_right' ⟨?_, ?_⟩
    · rintro hn ⟨i, k⟩ ⟨rfl, hk⟩ hc
      exact hn ⟨k, hk, hc⟩
    · rintro hn ⟨k, hk, hc⟩
      exact hn ((s.itable ip).inum, k) ⟨rfl, hk⟩ hc
  · intro x hx
    exact hkept' x (fun hi hk => hx ⟨hi, hk⟩)
  · intro c hc
    rw [hcache, hX.used, hXK]
    refine ⟨h.owns.reserved c hc, ?_⟩
    rintro ⟨k, -, hk⟩
    have := (h.owns.inData hk).1
    omega
  · rw [hself]
    exact h.held
  · rw [hself]
    exact h.inum
  · rw [hself]
    exact h.type
  · rw [hself]
    refine ⟨h.fits.type, h.fits.major, h.fits.minor, h.fits.nlink, h.fits.size, fun l => ?_⟩
    change a l < 2 ^ 32
    rcases ha l with hl | hl <;> rw [hl]
    · exact Nat.two_pow_pos 32
    · exact h.fits.addrs l
  · intro jp hj hr
    rw [hother hj] at hr ⊢
    rw [hinum, hdisk]
    exact h.others jp hj hr
  · intro jp kp
    rw [(hfield jp).1, (hfield kp).1, (hfield jp).2, (hfield kp).2]
    exact h.uniq jp kp
  · intro c hc
    rw [hcache, hsaved]
    apply hX.synced c
    apply h.synced c
    refine hc.imp_right ?_
    rintro ⟨i, hi⟩
    rw [hrefs] at hi
    exact ⟨i, hind i c hi⟩
  · intro k hk
    unfold memRefs
    rw [hinum]
    exact hgone' _ ⟨rfl, hk⟩

namespace Emptied

theorem rfl (h : Op sb s ip ∅) : Emptied sb s s ip ∅ :=
  ⟨h, ⟨(s.itable ip).addrs, (update_eq_self _ _).symm⟩, Eq.refl _, fun _ _ => Eq.refl _,
    by simp, fun _ _ => Eq.refl _⟩

theorem inode {K : Set Slot} (h : Emptied sb s t ip K) : ∃ a, t.itable ip = (s.itable ip).withAddrs a := by
  obtain ⟨a, ha⟩ := h.table
  exact ⟨a, by rw [ha, update_self]⟩

theorem inum {K : Set Slot} (h : Emptied sb s t ip K) : (t.itable ip).inum = (s.itable ip).inum := by
  obtain ⟨a, ha⟩ := h.inode
  rw [ha]
  exact Eq.refl _

theorem trans {K L : Set Slot} (h : Emptied sb s t ip K) (h' : Emptied sb t u ip L) :
    Emptied sb s u ip (K ∪ L) := by
  refine ⟨h'.op, ?_, h'.disk.trans h.disk, fun c hc => (h'.frame c hc).trans (h.frame c hc), ?_, ?_⟩
  · obtain ⟨a, ha⟩ := h.table
    obtain ⟨a', ha'⟩ := h'.table
    refine ⟨a', ?_⟩
    rw [ha', ha, update_idem, update_self]
    exact Eq.refl _
  · intro k hk
    by_cases hL : k ∈ L
    · exact h'.gone k hL
    · have hK : k ∈ K := hk.resolve_right hL
      unfold memRefs
      rw [h'.kept _ (fun _ => hL), h'.inum]
      exact h.gone k hK
  · intro x hx
    rw [h'.kept x (fun hi hL => hx (hi.trans h.inum) (Or.inr hL)),
      h.kept x (fun hi hK => hx hi (Or.inl hK))]

end Emptied

theorem freeAddr_direct (h : Op sb s ip ∅) (k : Fin nDirect) {E : String → Prop} :
    wp (freeAddr sb ip k.castSucc) s (fun _ t => Emptied sb s t ip {.direct k}) E := by
  have hself := h.refs_self (.direct k)
  rw [slot] at hself
  have hne : k.castSucc ≠ Fin.last nDirect := Fin.castSucc_ne_last k
  simp only [freeAddr, inode, wp_bind, wp_get, wp_pure, wp_ite]
  by_cases hk : (s.itable ip).addrs k.castSucc = 0
  · rw [if_pos hk] at hself ⊢
    have he := Emptied.rfl h
    refine ⟨he.op, he.table, he.disk, he.frame, ?_, fun x _ => he.kept x (by simp)⟩
    rintro _ rfl
    exact hself
  · rw [if_neg hk] at hself ⊢
    have hdata := h.owns.inData hself
    refine bfree_spec (h.owns.owned.used_of_ref hself) ?_
    simp only [setAddr, inode, setInode, wp_bind, wp_get, wp_pure, wp_modify]
    refine h.release (Freed.give hdata.2) (a := update (s.itable ip).addrs k.castSucc 0)
      ?_ ?_ ?_ ?_ rfl rfl rfl
    · intro b
      simp only [Set.mem_singleton_iff, exists_eq_left]
      rw [show memRefs sb s ip (.direct k) = _ from hself, Option.some.injEq, eq_comm]
    · intro l
      by_cases hl : l = k.castSucc
      · exact Or.inl (by rw [hl, update_self])
      · exact Or.inr (update_of_ne hl _ _)
    · rintro _ rfl
      simp [slot, Inode.withAddrs]
    · intro l hl
      exact slot_update (fun hlast => absurd hlast hne) (by rw [slotOf_castSucc]; exact hl)
        (fun hlast => absurd hlast hne)

theorem freeDirect_spec (h : Op sb s ip ∅) {E : String → Prop} :
    wp ((List.finRange nDirect).forM (fun k => freeAddr sb ip k.castSucc)) s
      (fun _ t => Emptied sb s t ip {l | ∃ k ∈ List.finRange nDirect, l = .direct k}) E := by
  refine wp_forM (I := fun done t => Emptied sb s t ip {l | ∃ k ∈ done, l = .direct k}) ?_ ?_
  · simpa using Emptied.rfl h
  · intro done k rest _ t ht
    refine wp_mono (freeAddr_direct ht.op k) (fun _ u hu => ?_) (fun _ he => he)
    convert ht.trans hu using 1
    ext l
    simp [or_and_right, exists_or, or_comm]

def entryBlocks (a : Block) (js : List ℕ) : Set ℕ := {b | b ≠ 0 ∧ ∃ j ∈ js, a.le (4 * j) 4 = b}

theorem freeEntries_spec {a : Block} {E : String → Prop}
    (hused : ∀ j < nIndirect, a.le (4 * j) 4 ≠ 0 →
      Used sb s.cache (a.le (4 * j) 4) ∧ a.le (4 * j) 4 < sb.size)
    (hinj : ∀ i < nIndirect, ∀ j < nIndirect, a.le (4 * i) 4 ≠ 0 → a.le (4 * i) 4 = a.le (4 * j) 4 → i = j) :
    wp ((List.range nIndirect).forM (freeEntry sb a)) s
      (fun _ t => Freed sb s t (entryBlocks a (List.range nIndirect))) E := by
  refine wp_forM (I := fun done t => Freed sb s t (entryBlocks a done)) ?_ ?_
  · convert Freed.rfl using 1
    simp [entryBlocks]
  · intro done j rest hl t ht
    have hmem {i : ℕ} (hi : i ∈ done ++ j :: rest) : i < nIndirect := by
      rw [← hl] at hi
      exact List.mem_range.mp hi
    have hnot : j ∉ done := by
      have hnd := List.nodup_range (n := nIndirect)
      rw [hl, List.nodup_append] at hnd
      exact fun hj => hnd.2.2 j hj j (by simp) rfl
    rw [freeEntry, wp_ite]
    split_ifs with h0
    · rw [wp_pure]
      convert ht using 1
      ext b
      simp only [entryBlocks, Set.mem_ofPred_eq, List.mem_append, List.mem_singleton, or_and_right, exists_or,
        exists_eq_left, h0]
      exact and_congr_right (fun hb => or_iff_left (Ne.symm hb))
    · obtain ⟨hu, hlt⟩ := hused j (hmem (by simp)) h0
      refine bfree_spec ((ht.used _).mpr ⟨hu, ?_⟩) ?_
      · rintro ⟨-, i, hi, he⟩
        obtain rfl := hinj j (hmem (by simp)) i (hmem (by simp [hi])) h0 he.symm
        exact hnot hi
      · convert ht.trans (Freed.give hlt) using 1
        ext b
        simp only [entryBlocks, Set.mem_ofPred_eq, List.mem_append, List.mem_singleton, or_and_right, exists_or,
          exists_eq_left, Set.mem_union, Set.mem_singleton_iff]
        constructor
        · rintro ⟨hb, hd | he⟩
          · exact Or.inl ⟨hb, hd⟩
          · exact Or.inr he.symm
        · rintro (⟨hb, hd⟩ | rfl)
          · exact ⟨hb, Or.inl hd⟩
          · exact ⟨h0, Or.inr rfl⟩

theorem freeIndirect_spec (h : Op sb s ip ∅) {E : String → Prop} :
    wp (freeIndirect sb ip) s
      (fun _ t => Emptied sb s t ip (insert .indirect (Set.range .entry))) E := by
  have hself := h.refs_self .indirect
  rw [slot] at hself
  simp only [freeIndirect, inode, wp_bind, wp_get, wp_pure, wp_ite]
  by_cases h0 : (s.itable ip).addrs (Fin.last nDirect) = 0
  · rw [if_pos h0] at hself ⊢
    have he := Emptied.rfl h
    refine ⟨he.op, he.table, he.disk, he.frame, ?_, fun x _ => he.kept x (by simp)⟩
    rintro _ (rfl | ⟨j, rfl⟩)
    · exact hself
    · rw [memRefs, h.refs_self]
      simp [slot, h0]
  · rw [if_neg h0] at hself ⊢
    have hentry (j : Fin nIndirect) := h.refs_self (.entry j)
    simp only [slot, h0, ↓reduceIte] at hentry
    have hsome (j : ℕ) (hj : j < nIndirect)
        (hne : (s.cache ((s.itable ip).addrs (Fin.last nDirect))).le (4 * j) 4 ≠ 0) :
        memRefs sb s ip (.entry ⟨j, hj⟩) =
          some ((s.cache ((s.itable ip).addrs (Fin.last nDirect))).le (4 * j) 4) := by
      rw [memRefs, hentry ⟨j, hj⟩, if_neg hne]
    simp only [bread, wp_bind, wp_get, wp_pure]
    generalize ha : (s.itable ip).addrs (Fin.last nDirect) = ind at *
    refine wp_mono (freeEntries_spec ?_ ?_) ?_ (fun _ he => he)
    · intro j hj hne
      exact ⟨h.owns.owned.used_of_ref (hsome j hj hne), (h.owns.inData (hsome j hj hne)).2⟩
    · intro i hi j hj hne he
      have := h.owns.owned.inj _ _ _ (hsome i hi hne) (he ▸ hsome j hj (he ▸ hne))
      simpa using this
    · intro _ t ht
      have hind : memRefs sb s ip .indirect = some ind := hself
      have hti : (t.itable ip).addrs (Fin.last nDirect) = ind := by rw [ht.itable, ha]
      simp only [freeAddr, inode, wp_bind, wp_get, wp_pure, wp_ite, hti, h0, ↓reduceIte]
      have hnot : ind ∉ entryBlocks (s.cache ind) (List.range nIndirect) := by
        rintro ⟨-, j, hj, he⟩
        rw [List.mem_range] at hj
        have := h.owns.owned.inj _ _ _ (hsome j hj (by rw [he]; exact h0)) (he ▸ hind)
        simp at this
      refine bfree_spec ((ht.used _).mpr ⟨h.owns.owned.used_of_ref hself, hnot⟩) ?_
      simp only [setAddr, inode, setInode, wp_bind, wp_get, wp_pure, wp_modify]
      refine h.release (ht.trans (Freed.give (h.owns.inData hself).2))
        (a := update (s.itable ip).addrs (Fin.last nDirect) 0) ?_ ?_ ?_ ?_ rfl rfl ?_
      · intro b
        constructor
        · rintro (⟨hb, j, hj, rfl⟩ | rfl)
          · exact ⟨.entry ⟨j, List.mem_range.mp hj⟩, by simp, hsome j _ hb⟩
          · exact ⟨.indirect, by simp, hind⟩
        · rintro ⟨_, rfl | ⟨j, rfl⟩, hk⟩
          · rw [hind, Option.some.injEq] at hk
            exact Or.inr hk.symm
          · rw [memRefs, hentry] at hk
            split_ifs at hk with hz
            rw [Option.some.injEq] at hk
            exact Or.inl ⟨hk ▸ hz, j, List.mem_range.mpr j.isLt, hk⟩
      · intro l
        by_cases hl : l = Fin.last nDirect
        · exact Or.inl (by rw [hl, update_self])
        · exact Or.inr (update_of_ne hl _ _)
      · rintro _ (rfl | ⟨j, rfl⟩) <;> simp [slot, Inode.withAddrs]
      · intro l hl
        cases l with
        | direct l => simp [slot, Inode.withAddrs]
        | indirect => simp at hl
        | entry j => simp at hl
      · simp only [FsState.give, ht.itable]

variable (sb) in
structure Truncated (s t : FsState) (ip : Fin nInode) : Prop where
  inv : FsInv sb t
  table : t.itable = update s.itable ip (((s.itable ip).withAddrs (fun _ => 0)).withSize 0)
  disk : disk sb t.cache = update (disk sb s.cache) (s.itable ip).inum
    (((s.itable ip).withAddrs (fun _ => 0)).withSize 0).toDinode
  gone : ∀ k, refs sb t.cache (Fs.disk sb t.cache) ((s.itable ip).inum, k) = none
  kept : ∀ x, x.1 ≠ (s.itable ip).inum →
    refs sb t.cache (Fs.disk sb t.cache) x = refs sb s.cache (Fs.disk sb s.cache) x
  bytes : ∀ i ≠ (s.itable ip).inum, ∀ o,
    byteOf sb t.cache (Fs.disk sb t.cache) i o = byteOf sb s.cache (Fs.disk sb s.cache) i o

theorem mem_slots (l : Slot) :
    l ∈ {l | ∃ k ∈ List.finRange nDirect, l = Slot.direct k} ∪ insert .indirect (Set.range Slot.entry) := by
  cases l <;> simp

theorem Emptied.addrs {K : Set Slot} (h : Emptied sb s t ip K) (hK : ∀ l, l ∈ K) :
    t.itable = update s.itable ip ((s.itable ip).withAddrs (fun _ => 0)) := by
  obtain ⟨a, ha⟩ := h.table
  have hz : a = fun _ => 0 := by
    funext k
    have hn := h.gone (slotOf k) (hK _)
    rw [memRefs, h.op.refs_self, slot_slotOf, ha, update_self] at hn
    by_contra hne
    simp [Inode.withAddrs, hne] at hn
  rw [ha, hz]

theorem itrunc_spec (h : FsInv sb s) (hr : 0 < (s.itable ip).ref) (hv : (s.itable ip).valid = true)
    {E : String → Prop} : wp (itrunc sb ip) s (fun _ t => Truncated sb s t ip) E := by
  have hop := h.op hr hv
  have hview := h.view_eq hr hv
  simp only [itrunc, wp_bind]
  refine wp_mono (freeDirect_spec hop) (fun _ v hd => ?_) (fun _ he => he)
  refine wp_mono (freeIndirect_spec hd.op) (fun _ t hi => ?_) (fun _ he => he)
  have hem := hd.trans hi
  have htab := hem.addrs mem_slots
  have hself : t.itable ip = (s.itable ip).withAddrs (fun _ => 0) := by rw [htab, update_self]
  simp only [inode, setInode, wp_bind, wp_get, wp_pure, wp_modify]
  obtain ⟨hop', hview', hrefs'⟩ := hem.op.withSize (n := 0) (Nat.two_pow_pos 32)
    (t := ⟨t.cache, t.saved, update t.itable ip ((t.itable ip).withSize 0)⟩) rfl rfl rfl
  have hinum := hem.inum
  have hother {i : ℕ} (hi : i ≠ (s.itable ip).inum) :
      view sb ⟨t.cache, t.saved, update t.itable ip ((t.itable ip).withSize 0)⟩ ip i =
        Fs.disk sb s.cache i := by
    rw [hview', update_of_ne (by rw [hinum]; exact hi), view,
      update_of_ne (by rw [hinum]; exact hi), hem.disk]
  have hkept (x : ℕ × Slot) (hx : x.1 ≠ (s.itable ip).inum) :
      refs sb t.cache (view sb t ip) x = refs sb s.cache (Fs.disk sb s.cache) x := by
    rw [hem.kept x (fun he => absurd he hx), hview]
  refine iupdate_spec hop' ?_ ?_
  · intro i hlt ht
    by_cases hi : i = (s.itable ip).inum
    · rw [hview', hi, hinum, update_self]
      exact ⟨Nat.zero_le _, fun bn hbn => absurd hbn (Nat.not_lt_zero _)⟩
    · rw [hother hi] at ht ⊢
      obtain ⟨hsz, hb⟩ := h.full i hlt ht
      refine ⟨hsz, fun bn hbn => ?_⟩
      have := hb bn hbn
      unfold fileBlock at this ⊢
      simp only [hrefs', hkept (i, _) hi]
      exact this
  · intro w hw htw
    refine ⟨hw.inv, ?_, ?_, ?_, ?_, ?_⟩
    · rw [htw]
      change update t.itable ip ((t.itable ip).withSize 0) = _
      rw [hself, htab, update_idem]
    · rw [hw.disk, hview', hinum, view, hinum, update_idem, hem.disk, hself]
    · intro k
      rw [hw.disk, hw.refs, hrefs', ← hinum]
      exact hem.gone k (mem_slots k)
    · intro x hx
      rw [hw.disk, hw.refs, hrefs', hkept x hx]
    · intro i hi o
      rw [hw.disk, hw.bytes]
      refine byteOf_congr (fun k _ => ?_) (fun k c _ hk => ?_) o
      · rw [hrefs', hkept (i, k) hi]
      · exact hem.frame c (h.owns.inData hk).1

end Xv6.Fs
