import Xv6.Fs.Bmap

namespace Xv6.Fs

open Lib Hoare
open Function (update update_of_ne update_self update_apply update_eq_self update_idem)

variable (sb : Superblock)

def fileBlock (cache : ℕ → Block) (D : ℕ → Dinode) (i bn : ℕ) : Option ℕ :=
  (dataSlot bn).bind (fun k => refs sb cache D (i, k))

def Full (cache : ℕ → Block) (D : ℕ → Dinode) : Prop :=
  ∀ i < sb.ninodes, (D i).type ≠ 0 → (D i).size ≤ maxFile * bSize ∧
    ∀ bn, bn * bSize < (D i).size → fileBlock sb cache D i bn ≠ none

structure FsInv (s : FsState) : Prop where
  owns : Owns sb s.cache (disk sb s.cache) ∅
  full : Full sb s.cache (disk sb s.cache)
  table : ∀ ip, 0 < (s.itable ip).ref → (s.itable ip).inum < sb.ninodes ∧
    ((s.itable ip).valid = true →
      (s.itable ip).toDinode = disk sb s.cache (s.itable ip).inum ∧ (s.itable ip).type ≠ 0)
  uniq : ∀ ip jp, 0 < (s.itable ip).ref → 0 < (s.itable jp).ref →
    (s.itable ip).inum = (s.itable jp).inum → ip = jp
  synced : ∀ b, b < sb.dataStart ∨ Indirect sb s.cache (disk sb s.cache) b → s.saved b = s.cache b

variable {sb} {s t u : FsState} {ip : Fin nInode} {b i : ℕ}

theorem disk_fits (cache : ℕ → Block) (i : ℕ) : (disk sb cache i).Fits := by
  unfold disk
  split_ifs
  · exact readDinode_fits _ _
  · exact ⟨by decide, by decide, by decide, by decide, by decide, fun _ => Nat.two_pow_pos 32⟩

theorem FsInv.view_eq (h : FsInv sb s) (hr : 0 < (s.itable ip).ref) (hv : (s.itable ip).valid = true) :
    view sb s ip = disk sb s.cache := by
  unfold view
  rw [((h.table ip hr).2 hv).1, update_eq_self]

theorem FsInv.op (h : FsInv sb s) (hr : 0 < (s.itable ip).ref) (hv : (s.itable ip).valid = true) :
    Op sb s ip ∅ := by
  have hview := h.view_eq hr hv
  obtain ⟨hd, ht⟩ := (h.table ip hr).2 hv
  refine ⟨by rw [hview]; exact h.owns, ⟨hr, hv⟩, (h.table ip hr).1, ht, hd ▸ disk_fits _ _, ?_, h.uniq,
    by rw [hview]; exact h.synced⟩
  intro jp hj hrj
  refine ⟨(h.table jp hrj).1, fun he => hj (h.uniq jp ip hrj hr he), (h.table jp hrj).2⟩

theorem disk_iwrite {d : Dinode} (hi : i < sb.ninodes) (hd : d.Fits) (cache : ℕ → Block) :
    disk sb (update cache (sb.iblock i) (writeDinode (cache (sb.iblock i)) (i % ipb) d)) =
      update (disk sb cache) i d := by
  have hk : i % ipb < ipb := Nat.mod_lt _ (by decide)
  funext j
  unfold disk
  by_cases hj : j = i
  · subst hj
    rw [if_pos hi, update_self, update_self, readDinode_writeDinode hk hd]
  · rw [update_of_ne hj]
    split_ifs with hlt
    · by_cases hb : sb.iblock j = sb.iblock i
      · have hne : j % ipb ≠ i % ipb := by
          simp only [Superblock.iblock, ipb, bSize] at hb ⊢
          omega
        rw [hb, update_self, readDinode_writeDinode_of_ne hne]
      · rw [update_of_ne hb]
    · rfl

variable (sb) in
structure Rewritten (s t : FsState) (D : ℕ → Dinode) : Prop where
  inv : FsInv sb t
  disk : disk sb t.cache = D
  refs : refs sb t.cache D = refs sb s.cache D
  bytes : ∀ i o, byteOf sb t.cache D i o = byteOf sb s.cache D i o
  free : freeBlocks sb t.cache = freeBlocks sb s.cache

theorem FsInv.of_iwrite {d : Dinode} {D : ℕ → Dinode} (hi : i < sb.ninodes) (hd : d.Fits)
    (hD : D = update (disk sb s.cache) i d) (howns : Owns sb s.cache D ∅) (hfull : Full sb s.cache D)
    (hsync : ∀ b, b < sb.dataStart ∨ Indirect sb s.cache D b → s.saved b = s.cache b)
    (hcache : t.cache = update s.cache (sb.iblock i)
      (writeDinode (s.cache (sb.iblock i)) (i % ipb) d))
    (hsaved : t.saved = update s.saved (sb.iblock i)
      (writeDinode (s.cache (sb.iblock i)) (i % ipb) d))
    (htab : ∀ jp, 0 < (t.itable jp).ref → (t.itable jp).inum < sb.ninodes ∧ ((t.itable jp).valid = true →
      (t.itable jp).toDinode = D (t.itable jp).inum ∧ (t.itable jp).type ≠ 0))
    (huniq : ∀ jp kp, 0 < (t.itable jp).ref → 0 < (t.itable kp).ref →
      (t.itable jp).inum = (t.itable kp).inum → jp = kp) :
    Rewritten sb s t D := by
  have hdisk : disk sb t.cache = D := by rw [hcache, disk_iwrite hi hd, hD]
  have hlt := Superblock.iblock_lt_dataStart hi
  generalize writeDinode (s.cache (sb.iblock i)) (i % ipb) d = v at hcache hsaved
  have hframe (x : ℕ × Slot) (c : ℕ) (hx : refs sb s.cache D x = some c) : t.cache c = s.cache c := by
    have := (howns.inData hx).1
    rw [hcache, update_of_ne (by omega)]
  have hind (j : ℕ) : refs sb s.cache D (j, .indirect) ≠ some (sb.iblock i) := by
    intro hx
    have := (howns.inData hx).1
    omega
  have hbit (c : ℕ) (hc : c < sb.size) : sb.bblock c ≠ sb.iblock i :=
    (Superblock.iblock_ne_bblock hi hc).symm
  have hrefs : refs sb t.cache D = refs sb s.cache D := funext (refs_congr (fun i c hi => hframe _ c hi))
  refine ⟨⟨?_, ?_, ?_, huniq, ?_⟩, hdisk, hrefs, ?_, ?_⟩
  · rw [hdisk, hcache]
    exact howns.frame v hbit hind
  · rw [hdisk]
    intro j hj ht
    obtain ⟨hs, hb⟩ := hfull j hj ht
    refine ⟨hs, fun bn hbn => ?_⟩
    have := hb bn hbn
    unfold fileBlock at this ⊢
    rwa [hrefs]
  · rw [hdisk]
    exact htab
  · intro c hc
    rw [hdisk] at hc
    simp only [Indirect, hrefs] at hc
    rw [hcache, hsaved]
    simp only [update_apply]
    split_ifs
    · rfl
    · exact hsync c hc
  · exact fun i o => byteOf_congr (fun k _ => congrFun hrefs (i, k)) (fun k c _ hk => hframe _ c hk) o
  · refine freeBlocks_congr (fun c hc => used_congr ?_)
    rw [hcache, update_of_ne (hbit c hc)]

theorem iupdate_spec (h : Op sb s ip ∅) (hf : Full sb s.cache (view sb s ip)) {Q : Unit → FsState → Prop}
    {E : String → Prop}
    (hQ : ∀ t, Rewritten sb s t (view sb s ip) → t.itable = s.itable → Q () t) :
    wp (iupdate sb ip) s Q E := by
  simp only [iupdate, inode, bread, logWrite, wp_bind, wp_get, wp_pure,
    wp_modify]
  refine hQ _ (FsInv.of_iwrite h.inum h.fits rfl h.owns hf h.synced rfl rfl ?_ h.uniq) rfl
  intro jp hr
  by_cases hj : jp = ip
  · subst hj
    exact ⟨h.inum, fun _ => ⟨(view_self (s := s)).symm, h.type⟩⟩
  · obtain ⟨hi, hne, hval⟩ := h.others jp hj hr
    refine ⟨hi, fun hv => ?_⟩
    rw [view, update_of_ne hne]
    exact hval hv

theorem dataSlot_inj {bn bn' : ℕ} {k : Slot} (h : dataSlot bn = some k) (h' : dataSlot bn' = some k) :
    bn = bn' := by
  unfold dataSlot at h h'
  split_ifs at h h' <;> cases h <;> simp_all
  omega

theorem byteOf_eq (cache : ℕ → Block) (D : ℕ → Dinode) (i o : ℕ) :
    byteOf sb cache D i o =
      match fileBlock sb cache D i (o / bSize) with
      | some b => (cache b).get (o % bSize)
      | none => 0 := rfl

theorem Op.write_data (h : Op sb s ip ∅) {bn : ℕ} {v : Block}
    (hb : fileBlock sb s.cache (view sb s ip) (s.itable ip).inum bn = some b)
    (hcache : t.cache = update s.cache b v)
    (hsaved : t.saved = s.saved ∨ t.saved = update s.saved b v) (htab : t.itable = s.itable) :
    Op sb t ip ∅ ∧ Extends sb s t ip ∧ view sb t ip = view sb s ip ∧
      refs sb t.cache (view sb t ip) = refs sb s.cache (view sb s ip) ∧
      freeBlocks sb t.cache = freeBlocks sb s.cache ∧
      ∀ i o, byteOf sb t.cache (view sb t ip) i o =
        if i = (s.itable ip).inum ∧ o / bSize = bn then v.get (o % bSize)
        else byteOf sb s.cache (view sb s ip) i o := by
  obtain ⟨k, hk, href⟩ := Option.bind_eq_some_iff.mp hb
  have hki : k ≠ .indirect := by
    rintro rfl
    exact dataSlot_ne_indirect _ hk
  have hdata := h.owns.inData href
  have hind (i : ℕ) : refs sb s.cache (view sb s ip) (i, .indirect) ≠ some b := by
    intro hi
    have := h.owns.owned.inj _ _ b hi href
    exact hki (congrArg Prod.snd this).symm
  have hbit (c : ℕ) (hc : c < sb.size) : sb.bblock c ≠ b := (h.owns.ne_bblock href hc).symm
  have hdisk : disk sb t.cache = disk sb s.cache := by rw [hcache, disk_update_of_data hdata.1]
  have hview : view sb t ip = view sb s ip := by unfold view; rw [hdisk, htab]
  have hrefs : refs sb t.cache (view sb s ip) = refs sb s.cache (view sb s ip) := by
    rw [hcache]
    refine funext (refs_congr (fun i c hi => update_of_ne ?_ _ _))
    rintro rfl
    exact hind i hi
  rw [hview, hrefs]
  refine ⟨⟨?_, by rw [htab]; exact h.held, by rw [htab]; exact h.inum, by rw [htab]; exact h.type,
    by rw [htab]; exact h.fits, by rw [htab, hdisk]; exact h.others, by rw [htab]; exact h.uniq, ?_⟩,
    ⟨⟨(s.itable ip).addrs, ?_⟩, hdisk, fun x c hx => ?_⟩, rfl, rfl, ?_, ?_⟩
  · rw [hview, hcache]
    exact h.owns.frame v hbit hind
  · intro c hc
    simp only [Indirect, hview, hrefs] at hc
    have hcb : c ≠ b := by
      rintro rfl
      rcases hc with hc | ⟨i, hi⟩
      · have := hdata.1
        omega
      · exact hind i hi
    rw [hcache, update_of_ne hcb]
    rcases hsaved with hs | hs <;> rw [hs]
    · exact h.synced c hc
    · rw [update_of_ne hcb]
      exact h.synced c hc
  · rw [htab]
    exact (update_eq_self _ _).symm
  · rw [hview, hrefs, hx]
  · refine freeBlocks_congr (fun c hc => used_congr ?_)
    rw [hcache, update_of_ne (hbit c hc)]
  · intro i o
    have hfb : fileBlock sb t.cache (view sb s ip) i (o / bSize) =
        fileBlock sb s.cache (view sb s ip) i (o / bSize) := by
      unfold fileBlock
      rw [hrefs]
    rw [byteOf_eq, byteOf_eq, hfb]
    by_cases hio : i = (s.itable ip).inum ∧ o / bSize = bn
    · rw [if_pos hio, hio.1, hio.2, hb, hcache]
      simp only [update_self]
    · rw [if_neg hio]
      cases hf : fileBlock sb s.cache (view sb s ip) i (o / bSize) with
      | none => rfl
      | some c =>
        have hcb : c ≠ b := by
          rintro rfl
          obtain ⟨l, hl, hlr⟩ := Option.bind_eq_some_iff.mp hf
          have he := h.owns.owned.inj _ _ c hlr href
          rw [Prod.mk.injEq] at he
          exact hio ⟨he.1, dataSlot_inj (he.2 ▸ hl) hk⟩
        simp only [hcache, update_of_ne hcb]

def touched (off n : ℕ) : List ℕ :=
  if n = 0 then [] else List.range' (off / bSize) ((off + n - 1) / bSize - off / bSize + 1)

theorem touched_zero (off : ℕ) : touched off 0 = [] := rfl

theorem mem_touched {off n bn : ℕ} :
    bn ∈ touched off n ↔ bn * bSize < off + n ∧ off < (bn + 1) * bSize ∧ n ≠ 0 := by
  unfold touched
  split_ifs with h
  · simp [h]
  · rw [List.mem_range'_1]
    simp only [bSize]
    omega

theorem touched_step {off n : ℕ} (h : 0 < n) :
    touched off n = off / bSize :: touched (off + min n (bSize - off % bSize)) (n - min n (bSize - off % bSize)) := by
  unfold touched
  rw [if_neg (by omega)]
  by_cases hle : n ≤ bSize - off % bSize
  · rw [Nat.min_eq_left hle, Nat.sub_self, if_pos rfl]
    have : (off + n - 1) / bSize - off / bSize + 1 = 1 := by
      simp only [bSize] at *
      omega
    rw [this]
    rfl
  · rw [Nat.min_eq_right (by omega), if_neg (by omega), List.range'_succ]
    have h₁ : (off + (bSize - off % bSize)) / bSize = off / bSize + 1 := by
      simp only [bSize] at *
      omega
    have h₂ : (off + (bSize - off % bSize) + (n - (bSize - off % bSize)) - 1) / bSize -
        (off / bSize + 1) + 1 = (off + n - 1) / bSize - off / bSize := by
      simp only [bSize] at *
      omega
    rw [h₁, h₂]

variable (sb) in
def lacking (s : FsState) (ip : Fin nInode) (bns : List ℕ) : ℕ :=
  (bns.filter (fun bn => (dataSlot bn).bind (memRefs sb s ip) = none)).length +
    (if memRefs sb s ip .indirect = none ∧ ∃ bn ∈ bns, ¬ bn < nDirect then 1 else 0)

theorem lacking_congr (hi : (t.itable ip).inum = (s.itable ip).inum)
    (h : refs sb t.cache (view sb t ip) = refs sb s.cache (view sb s ip)) (bns : List ℕ) :
    lacking sb t ip bns = lacking sb s ip bns := by
  have hm (k : Slot) : memRefs sb t ip k = memRefs sb s ip k := by
    unfold memRefs
    rw [h, hi]
  simp only [lacking, hm]

theorem cost_le_lacking (bn : ℕ) (bns : List ℕ) : cost sb s ip bn ≤ lacking sb s ip (bn :: bns) := by
  unfold cost lacking
  rw [List.filter_cons]
  split_ifs <;> simp_all

theorem Mapped.lacking_cons {bn : ℕ} {bns : List ℕ} (h : Mapped sb s t ip bn b) (hn : bn ∉ bns) :
    lacking sb s ip (bn :: bns) = cost sb s ip bn + lacking sb t ip bns := by
  have hsame (bn' : ℕ) (hb : bn' ∈ bns) :
      (dataSlot bn').bind (memRefs sb t ip) = (dataSlot bn').bind (memRefs sb s ip) := by
    cases hk : dataSlot bn' with
    | none => rfl
    | some k =>
      refine h.other k (fun he => hn ?_) (fun he => dataSlot_ne_indirect _ (he ▸ hk))
      rw [dataSlot_inj he hk]
      exact hb
  have hfilter : bns.filter (fun bn => (dataSlot bn).bind (memRefs sb t ip) = none) =
      bns.filter (fun bn => (dataSlot bn).bind (memRefs sb s ip) = none) := by
    apply List.filter_congr
    intro bn' hb
    rw [hsame bn' hb]
  have hind := h.indirect
  unfold lacking cost
  rw [hfilter, List.filter_cons]
  by_cases hd : bn < nDirect
  · simp only [hd, and_true] at hind
    simp only [hind, List.exists_mem_cons_iff, hd, not_true_eq_false, false_or, false_and, ↓reduceIte]
    split_ifs <;> simp_all <;> omega
  · simp only [hd, and_false, iff_false] at hind
    simp only [hind, List.exists_mem_cons_iff, hd, not_false_eq_true, true_or, and_true, true_and,
      false_and, ↓reduceIte]
    split_ifs <;> simp_all <;> omega

variable (sb) in
structure Stored (s t : FsState) (ip : Fin nInode) (src : Src) (off n tot off' tot' : ℕ) : Prop where
  op : Op sb t ip ∅
  ext : Extends sb s t ip
  pos : tot ≤ tot' ∧ tot' ≤ n ∧ off' = off + (tot' - tot)
  blocks : ∀ bn ∈ touched off (tot' - tot),
    fileBlock sb t.cache (view sb t ip) (s.itable ip).inum bn ≠ none
  exact : (∀ k, src.fault k = none) → tot' = n ∧ ∀ i o, byteOf sb t.cache (view sb t ip) i o =
    if i = (s.itable ip).inum ∧ off ≤ o ∧ o < off' then src.byte (tot + (o - off))
    else byteOf sb s.cache (view sb s ip) i o

theorem Extends.fileBlock_ne_none (h : Extends sb s t ip) {bn : ℕ}
    (hb : fileBlock sb s.cache (view sb s ip) i bn ≠ none) :
    fileBlock sb t.cache (view sb t ip) i bn ≠ none := by
  obtain ⟨b, hb⟩ := Option.ne_none_iff_exists'.mp hb
  obtain ⟨k, hk, hr⟩ := Option.bind_eq_some_iff.mp hb
  unfold fileBlock
  rw [hk, Option.bind_some, h.refs _ b hr]
  simp

theorem Stored.stay {src : Src} {off n tot : ℕ} (h : Op sb t ip ∅) (he : Extends sb s t ip)
    (htot : tot ≤ n)
    (hx : (∀ k, src.fault k = none) → tot = n ∧
      ∀ i o, byteOf sb t.cache (view sb t ip) i o = byteOf sb s.cache (view sb s ip) i o) :
    Stored sb s t ip src off n tot off tot := by
  refine ⟨h, he, ⟨le_refl _, htot, by omega⟩, ?_, fun hf => ⟨(hx hf).1, fun i o => ?_⟩⟩
  · rw [Nat.sub_self, touched_zero]
    simp
  · rw [if_neg (by omega)]
    exact (hx hf).2 i o

theorem Stored.cons {src : Src} {off n tot off' tot' m : ℕ} {bp : Block}
    (hmap : Mapped sb s t ip (off / bSize) b) (hbp : bp = t.cache b) {u w : FsState}
    (hm : m = min (n - tot) (bSize - off % bSize)) (hlt : tot < n)
    (hext : Extends sb t u ip)
    (hbytes : ∀ i o, byteOf sb u.cache (view sb u ip) i o =
      if i = (t.itable ip).inum ∧ o / bSize = off / bSize then
        (bp.patch (off % bSize) m (fun i => src.byte (tot + i))).get (o % bSize)
      else byteOf sb t.cache (view sb t ip) i o)
    (h : Stored sb u w ip src (off + m) n (tot + m) off' tot') :
    Stored sb s w ip src off n tot off' tot' := by
  have hinum : (u.itable ip).inum = (s.itable ip).inum := hext.inum.trans hmap.grows.inum
  have hm0 : 0 < m := by
    simp only [bSize] at hm
    omega
  obtain ⟨hp₁, hp₂, hp₃⟩ := h.pos
  have hhead : fileBlock sb w.cache (view sb w ip) (s.itable ip).inum (off / bSize) ≠ none := by
    apply (hext.trans h.ext).fileBlock_ne_none
    rw [← hmap.grows.inum]
    have := hmap.block
    unfold fileBlock
    rw [show (dataSlot (off / bSize)).bind (fun k => refs sb t.cache (view sb t ip) ((t.itable ip).inum, k)) =
      some b from this]
    simp
  refine ⟨h.op, hmap.grows.toExtends.trans (hext.trans h.ext), ⟨by omega, hp₂, by omega⟩, ?_, ?_⟩
  · have hmin : min (tot' - tot) (bSize - off % bSize) = m := by omega
    rw [touched_step (by omega), hmin]
    intro bn hbn
    rcases List.mem_cons.mp hbn with rfl | hbn
    · exact hhead
    · rw [show tot' - tot - m = tot' - (tot + m) by omega] at hbn
      rw [← hinum]
      exact h.blocks bn hbn
  · intro hf
    obtain ⟨hn, hw⟩ := h.exact hf
    refine ⟨hn, fun i o => ?_⟩
    rw [hw, hinum, hbytes, hmap.grows.inum, hmap.grows.bytes]
    by_cases hi : i = (s.itable ip).inum
    · subst hi
      simp only [true_and]
      by_cases h₁ : off + m ≤ o ∧ o < off'
      · rw [if_pos h₁, if_pos (by omega)]
        congr 1
        omega
      · rw [if_neg h₁]
        by_cases h₂ : o / bSize = off / bSize
        · rw [if_pos h₂]
          by_cases h₃ : off ≤ o ∧ o < off + m
          · rw [if_pos (by omega), Bytes.get_patch_of_mem (by simp only [bSize]; omega)
              (by simp only [bSize] at *; omega)]
            congr 2
            simp only [bSize] at *
            omega
          · rw [if_neg (by omega), Bytes.get_patch_of_not_mem (by simp only [bSize] at *; omega), hbp,
              ← hmap.grows.bytes, byteOf_eq, h₂, ← hmap.grows.inum]
            have := hmap.block
            unfold fileBlock
            rw [show (dataSlot (off / bSize)).bind
              (fun k => refs sb t.cache (view sb t ip) ((t.itable ip).inum, k)) = some b from this]
        · rw [if_neg h₂, if_neg]
          simp only [bSize] at *
          omega
    · simp only [hi, false_and, ↓reduceIte]

theorem div_lt_maxFile {off n : ℕ} (h : off + n ≤ maxFile * bSize) (hn : 0 < n) : off / bSize < maxFile := by
  simp only [maxFile, nDirect, nIndirect, bSize] at *
  omega

theorem writeLoop_spec {src : Src} {fuel off n tot : ℕ} (h : Op sb s ip ∅) (hfuel : n - tot ≤ fuel)
    (htot : tot ≤ n) (hoff : off + (n - tot) ≤ maxFile * bSize) :
    wp (writeLoop sb ip src fuel off n tot) s
      (fun r t => Stored sb s t ip src off n tot r.1 r.2)
      (fun e => e = "balloc: out of blocks" ∧
        freeBlocks sb s.cache < lacking sb s ip (touched off (n - tot))) := by
  induction fuel generalizing s off tot with
  | zero => exact Stored.stay h Extends.rfl htot (fun _ => ⟨by omega, fun _ _ => rfl⟩)
  | succ fuel ih =>
    rw [writeLoop]
    by_cases hlt : tot < n
    · rw [if_pos hlt]
      simp only [wp_bind]
      have hnot : off / bSize ∉ touched (off + min (n - tot) (bSize - off % bSize))
          (n - tot - min (n - tot) (bSize - off % bSize)) := by
        rw [mem_touched]
        simp only [bSize]
        omega
      refine wp_mono (bmap_spec h (div_lt_maxFile hoff (by omega))) ?_ ?_
      · intro b t hmap
        simp only [bread, wp_bind, wp_get, wp_pure]
        have hb : fileBlock sb t.cache (view sb t ip) (t.itable ip).inum (off / bSize) = some b := hmap.block
        cases hf : src.fault tot with
        | some k =>
          simp only [scribble, wp_bind, wp_modify, wp_pure]
          obtain ⟨hop, hext, -, -, -, -⟩ := hmap.op.write_data hb rfl (Or.inl rfl) rfl
            (t := { t with cache := update t.cache b _ })
          refine Stored.stay hop (hmap.grows.toExtends.trans hext) htot (fun hno => ?_)
          rw [hno] at hf
          cases hf
        | none =>
          simp only [logWrite, wp_bind, wp_modify]
          generalize hm : min (n - tot) (bSize - off % bSize) = m at hnot ⊢
          generalize hv : (t.cache b).patch (off % bSize) m (fun i => src.byte (tot + i)) = v
          obtain ⟨hop, hext, -, hrefs, hfree, hbytes⟩ := hmap.op.write_data (v := v) hb rfl (Or.inr rfl) rfl
            (t := { t with cache := update t.cache b v, saved := update t.saved b v })
          have hm0 : 0 < m ∧ m ≤ n - tot := by
            simp only [bSize] at hm
            omega
          refine wp_mono (ih hop (by omega) (by omega) (by omega)) ?_ ?_
          · intro r w hw
            refine Stored.cons hmap rfl hm.symm hlt hext ?_ hw
            rw [hv]
            exact hbytes
          · rintro e ⟨he, hfew⟩
            refine ⟨he, ?_⟩
            rw [touched_step (by omega), hm, hmap.lacking_cons hnot, ← hmap.free, ← hfree]
            rw [lacking_congr hext.inum hrefs, show n - (tot + m) = n - tot - m by omega] at hfew
            omega
      · rintro e ⟨he, hfew⟩
        refine ⟨he, hfew.trans_le ?_⟩
        rw [touched_step (by omega)]
        exact cost_le_lacking _ _
    · rw [if_neg hlt]
      exact Stored.stay h Extends.rfl htot (fun _ => ⟨by omega, fun _ _ => rfl⟩)

theorem refs_congr_inodes {cache : ℕ → Block} {D D' : ℕ → Dinode}
    (h : ∀ i, (D' i).type = (D i).type ∧ (D' i).addrs = (D i).addrs) :
    refs sb cache D' = refs sb cache D := by
  have hs (i : ℕ) (k : Slot) : slot cache (D' i) k = slot cache (D i) k := by
    cases k <;> simp [slot, (h i).2]
  funext x
  simp only [refs, (h x.1).1, hs]

theorem Op.withSize (h : Op sb s ip ∅) {n : ℕ} (hn : n < 2 ^ 32) (hcache : t.cache = s.cache)
    (hsaved : t.saved = s.saved)
    (htab : t.itable = update s.itable ip ((s.itable ip).withSize n)) :
    Op sb t ip ∅ ∧ view sb t ip = update (view sb s ip) (s.itable ip).inum
        ((s.itable ip).withSize n).toDinode ∧
      refs sb t.cache (view sb t ip) = refs sb s.cache (view sb s ip) := by
  have hview : view sb t ip = update (view sb s ip) (s.itable ip).inum
      ((s.itable ip).withSize n).toDinode := by
    unfold view
    rw [hcache, htab, update_self, update_idem]
    rfl
  have hrefs : refs sb t.cache (view sb t ip) = refs sb s.cache (view sb s ip) := by
    rw [hview, hcache]
    apply refs_congr_inodes
    intro i
    by_cases hi : i = (s.itable ip).inum
    · subst hi
      rw [update_self, view_self]
      exact ⟨rfl, rfl⟩
    · rw [update_of_ne hi]
      exact ⟨rfl, rfl⟩
  have hother {jp : Fin nInode} (hj : jp ≠ ip) : t.itable jp = s.itable jp := by
    rw [htab, update_of_ne hj]
  have hself : t.itable ip = (s.itable ip).withSize n := by rw [htab, update_self]
  have hfield (jp : Fin nInode) : (t.itable jp).ref = (s.itable jp).ref ∧
      (t.itable jp).inum = (s.itable jp).inum := by
    by_cases hj : jp = ip
    · rw [hj, hself]
      exact ⟨rfl, rfl⟩
    · rw [hother hj]
      exact ⟨rfl, rfl⟩
  have howned := h.owns.owned
  rw [← hrefs] at howned
  refine ⟨⟨⟨?_, ?_⟩, ?_, ?_, ?_, ?_, ?_, ?_, ?_⟩, hview, hrefs⟩
  · simpa only [hcache] using howned
  · rw [hcache]
    exact h.owns.reserved
  · rw [hself]
    exact h.held
  · rw [hself]
    exact h.inum
  · rw [hself]
    exact h.type
  · rw [hself]
    exact ⟨h.fits.type, h.fits.major, h.fits.minor, h.fits.nlink, hn, h.fits.addrs⟩
  · intro jp hj hr
    rw [hother hj] at hr ⊢
    rw [(hfield ip).2, hcache]
    exact h.others jp hj hr
  · intro jp kp
    rw [(hfield jp).1, (hfield kp).1, (hfield jp).2, (hfield kp).2]
    exact h.uniq jp kp
  · intro c hc
    simp only [Indirect, hrefs] at hc
    rw [hcache, hsaved]
    exact h.synced c hc

theorem growTo_spec {off : ℕ} {Q : Unit → FsState → Prop} {E : String → Prop}
    (hQ : Q () ⟨s.cache, s.saved, update s.itable ip
      ((s.itable ip).withSize (max (s.itable ip).size off))⟩) : wp (growTo ip off) s Q E := by
  simp only [growTo, inode, setInode, wp_bind, wp_get, wp_pure, wp_ite,
    wp_modify]
  split_ifs with h
  · rwa [Nat.max_eq_right (by omega)] at hQ
  · rw [Nat.max_eq_left (by omega)] at hQ
    have : (s.itable ip).withSize (s.itable ip).size = s.itable ip := rfl
    rwa [this, update_eq_self] at hQ

variable (sb) in
structure Written (s t : FsState) (ip : Fin nInode) (src : Src) (off n tot : ℕ) : Prop where
  inv : FsInv sb t
  le : tot ≤ n
  table : ∃ a, t.itable = update s.itable ip
    (((s.itable ip).withAddrs a).withSize (max (s.itable ip).size (off + tot)))
  others : ∀ i ≠ (s.itable ip).inum, disk sb t.cache i = disk sb s.cache i
  refs : ∀ x b, refs sb s.cache (disk sb s.cache) x = some b →
    refs sb t.cache (disk sb t.cache) x = some b
  exact : (∀ k, src.fault k = none) → tot = n ∧ ∀ i o, byteOf sb t.cache (disk sb t.cache) i o =
    if i = (s.itable ip).inum ∧ off ≤ o ∧ o < off + n then src.byte (o - off)
    else byteOf sb s.cache (disk sb s.cache) i o

theorem Stored.full {src : Src} {off n off' tot' : ℕ} (h : Stored sb s t ip src off n 0 off' tot')
    (hs : FsInv sb s) (hview : view sb s ip = disk sb s.cache) (hoff : off ≤ (s.itable ip).size)
    (hmax : off + n ≤ maxFile * bSize) (hop : Op sb s ip ∅)
    {D : ℕ → Dinode} (hD : D = update (view sb t ip) (t.itable ip).inum
      ((t.itable ip).withSize (max (t.itable ip).size off')).toDinode) :
    Full sb t.cache D := by
  obtain ⟨-, hle, hpos⟩ := h.pos
  have hblock (i bn : ℕ) : fileBlock sb t.cache D i bn = fileBlock sb t.cache (view sb t ip) i bn := by
    unfold fileBlock
    rw [show refs sb t.cache D = refs sb t.cache (view sb t ip) from refs_congr_inodes ?_]
    intro i
    rw [hD]
    by_cases hi : i = (t.itable ip).inum
    · subst hi
      rw [update_self, view_self]
      exact ⟨rfl, rfl⟩
    · rw [update_of_ne hi]
      exact ⟨rfl, rfl⟩
  intro i hi ht
  by_cases hii : i = (s.itable ip).inum
  · have hold := hs.full i hi (by rw [← hview, hii]; exact hop.view_type)
    rw [← hview, hii, view_self] at hold
    have hsize : (D i).size = max (s.itable ip).size off' := by
      rw [hD, hii, ← h.ext.inum, update_self, ← h.ext.size]
      rfl
    rw [hsize]
    refine ⟨by omega, fun bn hbn => ?_⟩
    rw [hblock, hii]
    by_cases hlt : bn * bSize < (s.itable ip).size
    · exact h.ext.fileBlock_ne_none (hold.2 bn hlt)
    · refine h.blocks bn (mem_touched.mpr ⟨by omega, ?_, by omega⟩)
      simp only [bSize] at *
      omega
  · have hDi : D i = disk sb s.cache i := by
      rw [hD, update_of_ne (by rw [h.ext.inum]; exact hii), view,
        update_of_ne (by rw [h.ext.inum]; exact hii), h.ext.disk]
    rw [hDi] at ht ⊢
    obtain ⟨hsz, hb⟩ := hs.full i hi ht
    refine ⟨hsz, fun bn hbn => ?_⟩
    rw [hblock]
    apply h.ext.fileBlock_ne_none
    rw [hview]
    exact hb bn hbn

theorem Stored.finish {src : Src} {off n off' tot' : ℕ} (hst : Stored sb s t ip src off n 0 off' tot') (h : FsInv sb s)
    (hr : 0 < (s.itable ip).ref) (hv : (s.itable ip).valid = true)
    (hacc : off ≤ (s.itable ip).size ∧ off + n ≤ maxFile * bSize) {E : String → Prop} :
    wp (growTo ip off') t
      (fun _ u => wp (iupdate sb ip) u (fun _ w => Written sb s w ip src off n tot') E) E := by
  have hop := h.op hr hv
  have hview := h.view_eq hr hv
  have hmaxlt : maxFile * bSize < 2 ^ 32 := by decide
  obtain ⟨-, hle, hpos⟩ := hst.pos
  apply growTo_spec
  have hsize := (h.full _ hop.inum (by rw [← hview]; exact hop.view_type)).1
  rw [← hview, view_self, ← hst.ext.size] at hsize
  have hoff' : off' ≤ maxFile * bSize := by omega
  obtain ⟨hop', hview', hrefs'⟩ := hst.op.withSize (n := max (t.itable ip).size off') (by omega)
    (t := ⟨t.cache, t.saved, update t.itable ip
      ((t.itable ip).withSize (max (t.itable ip).size off'))⟩) rfl rfl rfl
  have hfull := hst.full h hview hacc.1 hacc.2 hop hview'
  refine iupdate_spec hop' hfull ?_
  intro u hw htab
  refine ⟨hw.inv, hle, ?_, ?_, ?_, ?_⟩
  · obtain ⟨a, ha⟩ := hst.ext.table
    refine ⟨a, ?_⟩
    rw [htab]
    change update t.itable ip ((t.itable ip).withSize (max (t.itable ip).size off')) = _
    rw [hst.ext.size, ha, update_idem, update_self, hpos, Nat.sub_zero]
  · intro i hi
    rw [hw.disk, hview', update_of_ne (by rw [hst.ext.inum]; exact hi), view,
      update_of_ne (by rw [hst.ext.inum]; exact hi), hst.ext.disk]
  · intro x b hx
    rw [hw.disk, hw.refs, hrefs']
    exact hst.ext.refs x b (by rw [hview]; exact hx)
  · intro hf
    obtain ⟨htot, hbytes⟩ := hst.exact hf
    refine ⟨htot, fun i o => ?_⟩
    rw [hw.disk, hw.bytes, byteOf_congr (fun k _ => congrFun hrefs' (i, k)) (fun _ _ _ _ => rfl), hbytes, hview,
      hpos, htot, Nat.sub_zero, Nat.zero_add]

theorem writei_spec {src : Src} {off n : ℕ} (h : FsInv sb s) (hr : 0 < (s.itable ip).ref)
    (hv : (s.itable ip).valid = true) (hoff : off < 2 ^ 32) (hn : n < 2 ^ 32) :
    wp (writei sb ip src off n) s
      (fun r t => if off ≤ (s.itable ip).size ∧ off + n ≤ maxFile * bSize then
          ∃ tot : ℕ, r = tot ∧ Written sb s t ip src off n tot
        else r = -1 ∧ t = s)
      (fun e => e = "balloc: out of blocks" ∧ (off ≤ (s.itable ip).size ∧ off + n ≤ maxFile * bSize) ∧
        freeBlocks sb s.cache < lacking sb s ip (touched off n)) := by
  have hop := h.op hr hv
  have hmaxlt : maxFile * bSize < 2 ^ 32 := by decide
  simp only [writei, inode, wp_bind, wp_get, wp_pure, wp_ite]
  by_cases hacc : off ≤ (s.itable ip).size ∧ off + n ≤ maxFile * bSize
  · rw [if_neg (by omega), if_neg (by omega)]
    refine wp_mono (writeLoop_spec hop (le_refl _) (Nat.zero_le _) (by omega)) ?_
      (fun e he => ⟨he.1, hacc, he.2⟩)
    rintro ⟨off', tot'⟩ t hst
    refine wp_mono (hst.finish h hr hv hacc) (fun _ u hu => ?_) (fun _ he => he)
    refine wp_mono hu (fun _ w hw => ?_) (fun _ he => he)
    rw [if_pos hacc]
    exact ⟨tot', rfl, hw⟩
  · rw [if_neg hacc]
    by_cases h₁ : off > (s.itable ip).size ∨ (off + n) % 2 ^ 32 < off
    · rw [if_pos h₁]
      exact ⟨trivial, trivial⟩
    · rw [if_neg h₁, if_pos (by omega)]
      exact ⟨trivial, trivial⟩

end Xv6.Fs
