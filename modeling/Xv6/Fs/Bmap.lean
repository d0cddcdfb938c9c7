import Mathlib.Data.Finset.Card
import Xv6.Fs.Ownership

namespace Xv6.Fs

open Lib Hoare
open Function (update update_of_ne update_self update_apply update_eq_self update_idem)

variable (sb : Superblock)

def byteOf (cache : ℕ → Block) (D : ℕ → Dinode) (i o : ℕ) : UInt8 :=
  match (dataSlot (o / bSize)).bind (fun k => refs sb cache D (i, k)) with
  | some b => (cache b).get (o % bSize)
  | none => 0

def freeBlocks (cache : ℕ → Block) : ℕ :=
  ((Finset.range sb.size).filter (fun b => ¬ Used sb cache b)).card

def view (s : FsState) (ip : Fin nInode) : ℕ → Dinode :=
  update (disk sb s.cache) (s.itable ip).inum (s.itable ip).toDinode

def Indirect (cache : ℕ → Block) (D : ℕ → Dinode) (b : ℕ) : Prop :=
  ∃ i, refs sb cache D (i, .indirect) = some b

structure Op (s : FsState) (ip : Fin nInode) (pend : Set ℕ) : Prop where
  owns : Owns sb s.cache (view sb s ip) pend
  held : 0 < (s.itable ip).ref ∧ (s.itable ip).valid = true
  inum : (s.itable ip).inum < sb.ninodes
  type : (s.itable ip).type ≠ 0
  fits : (s.itable ip).toDinode.Fits
  others : ∀ jp ≠ ip, 0 < (s.itable jp).ref → (s.itable jp).inum < sb.ninodes ∧
    (s.itable jp).inum ≠ (s.itable ip).inum ∧ ((s.itable jp).valid = true →
      (s.itable jp).toDinode = disk sb s.cache (s.itable jp).inum ∧ (s.itable jp).type ≠ 0)
  uniq : ∀ jp kp, 0 < (s.itable jp).ref → 0 < (s.itable kp).ref →
    (s.itable jp).inum = (s.itable kp).inum → jp = kp
  synced : ∀ b, b < sb.dataStart ∨ Indirect sb s.cache (view sb s ip) b → s.saved b = s.cache b

variable {sb} {cache cache' : ℕ → Block} {D D' : ℕ → Dinode} {pend : Set ℕ} {b i : ℕ}

theorem dataSlot_ne_indirect (bn : ℕ) : dataSlot bn ≠ some .indirect := by
  unfold dataSlot
  split_ifs <;> simp

theorem byteOf_congr (hr : ∀ k, k ≠ .indirect → refs sb cache' D' (i, k) = refs sb cache D (i, k))
    (hc : ∀ k b, k ≠ .indirect → refs sb cache D (i, k) = some b → cache' b = cache b) (o : ℕ) :
    byteOf sb cache' D' i o = byteOf sb cache D i o := by
  unfold byteOf
  cases hs : dataSlot (o / bSize) with
  | none => rfl
  | some k =>
    have hk : k ≠ .indirect := by
      rintro rfl
      exact dataSlot_ne_indirect _ hs
    simp only [Option.bind_some, hr k hk]
    cases hrk : refs sb cache D (i, k) with
    | none => rfl
    | some b => simp only [hc k b hk hrk]

theorem byteOf_install {x : ℕ × Slot} (hr : refs sb cache' D' = update (refs sb cache D) x (some b))
    (hx : refs sb cache D x = none) (hz : cache' b = fun _ => 0)
    (hc : ∀ y c, y.2 ≠ .indirect → refs sb cache D y = some c → cache' c = cache c) (i o : ℕ) :
    byteOf sb cache' D' i o = byteOf sb cache D i o := by
  unfold byteOf
  rw [hr]
  cases hs : dataSlot (o / bSize) with
  | none => rfl
  | some k =>
    have hk : k ≠ .indirect := by
      rintro rfl
      exact dataSlot_ne_indirect _ hs
    simp only [Option.bind_some]
    by_cases hik : (i, k) = x
    · rw [hik, update_self, hx]
      simp only [hz, Bytes.get_zero]
    · rw [update_of_ne hik]
      cases hrk : refs sb cache D (i, k) with
      | none => rfl
      | some c => simp only [hc (i, k) c hk hrk]

theorem freeBlocks_take (hb : b < sb.size) (hu : ¬ Used sb cache b)
    (h : ∀ c < sb.size, Used sb cache' c ↔ c = b ∨ Used sb cache c) :
    freeBlocks sb cache' + 1 = freeBlocks sb cache := by
  have he : (Finset.range sb.size).filter (fun c => ¬ Used sb cache' c) =
      ((Finset.range sb.size).filter (fun c => ¬ Used sb cache c)).erase b := by
    ext c
    simp only [Finset.mem_filter, Finset.mem_range, Finset.mem_erase]
    constructor
    · rintro ⟨hc, hn⟩
      rw [h c hc, not_or] at hn
      exact ⟨hn.1, hc, hn.2⟩
    · rintro ⟨hne, hc, hn⟩
      exact ⟨hc, by rw [h c hc, not_or]; exact ⟨hne, hn⟩⟩
  unfold freeBlocks
  rw [he]
  exact Finset.card_erase_add_one (by simp [hb, hu])

theorem freeBlocks_congr (h : ∀ c < sb.size, Used sb cache' c ↔ Used sb cache c) :
    freeBlocks sb cache' = freeBlocks sb cache := by
  unfold freeBlocks
  congr 1
  apply Finset.filter_congr
  intro c hc
  rw [h c (Finset.mem_range.mp hc)]

theorem disk_congr (h : ∀ i < sb.ninodes, cache' (sb.iblock i) = cache (sb.iblock i)) :
    disk sb cache' = disk sb cache := by
  funext i
  unfold disk
  split_ifs with hi
  · rw [h i hi]
  · rfl

theorem disk_update_of_data {v : Block} (hb : sb.dataStart ≤ b) :
    disk sb (update cache b v) = disk sb cache :=
  disk_congr (fun i hi => update_of_ne (by have := Superblock.iblock_lt_dataStart hi; omega) _ _)

theorem disk_update_bblock {v : Block} (hb : b < sb.size) :
    disk sb (update cache (sb.bblock b) v) = disk sb cache :=
  disk_congr (fun _ hi => update_of_ne (Superblock.iblock_ne_bblock hi hb) _ _)

variable (sb) in
structure Extends (s t : FsState) (ip : Fin nInode) : Prop where
  table : ∃ a, t.itable = update s.itable ip ((s.itable ip).withAddrs a)
  disk : disk sb t.cache = disk sb s.cache
  refs : ∀ x b, refs sb s.cache (view sb s ip) x = some b → refs sb t.cache (view sb t ip) x = some b

variable {s t u : FsState} {ip : Fin nInode}

namespace Extends

theorem rfl : Extends sb s s ip :=
  ⟨⟨(s.itable ip).addrs, (update_eq_self _ _).symm⟩, Eq.refl _, fun _ _ h => h⟩

theorem trans (h : Extends sb s t ip) (h' : Extends sb t u ip) : Extends sb s u ip := by
  refine ⟨?_, h'.disk.trans h.disk, fun x b hx => h'.refs x b (h.refs x b hx)⟩
  obtain ⟨a, ha⟩ := h.table
  obtain ⟨a', ha'⟩ := h'.table
  refine ⟨a', ?_⟩
  rw [ha', ha, update_idem, update_self]
  exact Eq.refl _

theorem inode (h : Extends sb s t ip) : ∃ a, t.itable ip = (s.itable ip).withAddrs a := by
  obtain ⟨a, ha⟩ := h.table
  exact ⟨a, by rw [ha, update_self]⟩

theorem inum (h : Extends sb s t ip) : (t.itable ip).inum = (s.itable ip).inum := by
  obtain ⟨a, ha⟩ := h.inode
  rw [ha]
  exact Eq.refl _

theorem size (h : Extends sb s t ip) : (t.itable ip).size = (s.itable ip).size := by
  obtain ⟨a, ha⟩ := h.inode
  rw [ha]
  exact Eq.refl _

end Extends

variable (sb) in
structure Grows (s t : FsState) (ip : Fin nInode) : Prop extends Extends sb s t ip where
  bytes : ∀ i o, byteOf sb t.cache (view sb t ip) i o = byteOf sb s.cache (view sb s ip) i o

theorem Grows.rfl : Grows sb s s ip := ⟨Extends.rfl, fun _ _ => Eq.refl _⟩

theorem Grows.trans (h : Grows sb s t ip) (h' : Grows sb t u ip) : Grows sb s u ip :=
  ⟨h.toExtends.trans h'.toExtends, fun i o => (h'.bytes i o).trans (h.bytes i o)⟩

theorem view_self : view sb s ip (s.itable ip).inum = (s.itable ip).toDinode := by
  simp [view]

namespace Op

theorem view_type (h : Op sb s ip pend) : (view sb s ip (s.itable ip).inum).type ≠ 0 := by
  rw [view_self]
  exact h.type

theorem refs_self (h : Op sb s ip pend) (k : Slot) :
    refs sb s.cache (view sb s ip) ((s.itable ip).inum, k) =
      if slot s.cache (s.itable ip).toDinode k = 0 then none
      else some (slot s.cache (s.itable ip).toDinode k) := by
  rw [refs_of_slot h.inum h.view_type, view_self]

theorem take (h : Op sb s ip pend) (hb : b < sb.size) (hu : ¬ Used sb s.cache b) (hp : b ∉ pend) :
    Op sb (s.take sb b) ip (insert b pend) ∧ disk sb (s.take sb b).cache = disk sb s.cache ∧
      view sb (s.take sb b) ip = view sb s ip ∧
      refs sb (s.take sb b).cache (view sb s ip) = refs sb s.cache (view sb s ip) ∧
      freeBlocks sb (s.take sb b).cache + 1 = freeBlocks sb s.cache ∧
      (∀ x c, refs sb s.cache (view sb s ip) x = some c → (s.take sb b).cache c = s.cache c) := by
  have hdata := h.owns.inData_of_free hb hu
  obtain ⟨hto, htr⟩ := h.owns.take hb hu
  have hdisk : disk sb (s.take sb b).cache = disk sb s.cache := by
    simp only [FsState.take, disk_update_of_data hdata.1, markUsed, disk_update_bblock hb]
  have hview : view sb (s.take sb b) ip = view sb s ip := by
    simp only [view, hdisk]
    rfl
  have hused (c : ℕ) (hc : c < sb.size) : Used sb (s.take sb b).cache c ↔ c = b ∨ Used sb s.cache c := by
    rw [← used_markUsed]
    refine used_congr (update_of_ne ?_ _ _)
    have := Superblock.bblock_mem hc
    have := hdata.1
    omega
  refine ⟨⟨?_, h.held, h.inum, h.type, h.fits, ?_, h.uniq, ?_⟩, hdisk, hview, htr,
    freeBlocks_take hb hu hused, ?_⟩
  · rw [hview]
    exact hto
  · rw [hdisk]
    exact h.others
  · rw [hview]
    intro c hc
    simp only [Indirect, FsState.take] at hc ⊢
    rw [htr] at hc
    by_cases hcb : c = b
    · rw [hcb, update_self, update_self]
    · rw [update_of_ne hcb, update_of_ne hcb, markUsed]
      by_cases hcc : c = sb.bblock b
      · rw [hcc, update_self, update_self]
      · rw [update_of_ne hcc, update_of_ne hcc]
        exact h.synced c hc
  · intro x c hx
    have hne := h.owns.ne_bblock hx hb
    have hcb : c ≠ b := by
      rintro rfl
      exact h.owns.owned.not_ref_of_not_used hu hx
    simp only [FsState.take, update_of_ne hcb, markUsed, update_of_ne hne]

theorem view_withAddrs {a : Fin (nDirect + 1) → ℕ} (hd : disk sb t.cache = disk sb s.cache)
    (htab : t.itable = update s.itable ip ((s.itable ip).withAddrs a)) :
    view sb t ip = update (view sb s ip) (s.itable ip).inum
      { view sb s ip (s.itable ip).inum with addrs := a } := by
  unfold view
  rw [hd, htab, update_self, update_self, update_idem]
  rfl

theorem install_addr (h : Op sb s ip (insert b pend)) (hp : b ∉ pend) {k : Fin (nDirect + 1)}
    (hk : (s.itable ip).addrs k = 0) (hz : s.cache b = fun _ => 0) (hs : s.saved b = fun _ => 0)
    (hcache : t.cache = s.cache) (hsaved : t.saved = s.saved)
    (htab : t.itable = update s.itable ip
      ((s.itable ip).withAddrs (update (s.itable ip).addrs k b))) :
    Op sb t ip pend ∧ refs sb t.cache (view sb t ip) =
      update (refs sb s.cache (view sb s ip)) ((s.itable ip).inum, slotOf k) (some b) := by
  have hview : view sb t ip = update (view sb s ip) (s.itable ip).inum
      { view sb s ip (s.itable ip).inum with
        addrs := update (view sb s ip (s.itable ip).inum).addrs k b } := by
    rw [view_withAddrs (by rw [hcache]) htab, view_self]
  have hk' : (view sb s ip (s.itable ip).inum).addrs k = 0 := by rw [view_self]; exact hk
  have hrefs : refs sb t.cache (view sb t ip) =
      update (refs sb s.cache (view sb s ip)) ((s.itable ip).inum, slotOf k) (some b) := by
    rw [hview, hcache]
    exact refs_install_addr h.inum h.view_type hk' (h.owns.pos_of_pend (Set.mem_insert _ _)) (fun _ => hz)
  have hb := (h.owns.owned.pending b (Set.mem_insert _ _)).1.2
  have howns : Owns sb t.cache (view sb t ip) pend := by
    rw [hview, hcache]
    exact h.owns.install_addr hp h.inum h.view_type hk' (fun _ => hz)
  have hother {jp : Fin nInode} (hj : jp ≠ ip) : t.itable jp = s.itable jp := by
    rw [htab, update_of_ne hj]
  have hself : t.itable ip = (s.itable ip).withAddrs (update (s.itable ip).addrs k b) := by
    rw [htab, update_self]
  have hfield (jp : Fin nInode) : (t.itable jp).ref = (s.itable jp).ref ∧
      (t.itable jp).inum = (s.itable jp).inum := by
    by_cases hj : jp = ip
    · rw [hj, hself]
      exact ⟨rfl, rfl⟩
    · rw [hother hj]
      exact ⟨rfl, rfl⟩
  refine ⟨⟨howns, ?_, ?_, ?_, ?_, ?_, ?_, ?_⟩, hrefs⟩
  · rw [hself]
    exact h.held
  · rw [hself]
    exact h.inum
  · rw [hself]
    exact h.type
  · rw [hself]
    refine ⟨h.fits.type, h.fits.major, h.fits.minor, h.fits.nlink, h.fits.size, fun l => ?_⟩
    have := sb.size_lt
    have hl := h.fits.addrs l
    simp only [Inode.withAddrs, update_apply]
    split_ifs <;> omega
  · intro jp hj hr
    rw [hother hj] at hr ⊢
    rw [(hfield ip).2, hcache]
    exact h.others jp hj hr
  · intro jp kp
    rw [(hfield jp).1, (hfield kp).1, (hfield jp).2, (hfield kp).2]
    exact h.uniq jp kp
  · intro c hc
    rw [hcache, hsaved]
    by_cases hcb : c = b
    · rw [hcb, hs, hz]
    · apply h.synced c
      rcases hc with hc | ⟨i, hi⟩
      · exact Or.inl hc
      · refine Or.inr ⟨i, ?_⟩
        rw [hrefs] at hi
        by_cases hx : (i, Slot.indirect) = ((s.itable ip).inum, slotOf k)
        · rw [hx, update_self, Option.some.injEq] at hi
          exact absurd hi.symm hcb
        · rwa [update_of_ne hx] at hi

theorem install_entry (h : Op sb s ip (insert b pend)) (hp : b ∉ pend) {j : Fin nIndirect} {a : ℕ}
    (ha : (s.itable ip).addrs (Fin.last nDirect) = a) (ha0 : a ≠ 0) (he : (s.cache a).le (4 * j) 4 = 0)
    (hcache : t.cache = update s.cache a ((s.cache a).setLe (4 * j) 4 b))
    (hsaved : t.saved = update s.saved a ((s.cache a).setLe (4 * j) 4 b))
    (htab : t.itable = s.itable) :
    Op sb t ip pend ∧ disk sb t.cache = disk sb s.cache ∧ view sb t ip = view sb s ip ∧
      refs sb t.cache (view sb s ip) =
        update (refs sb s.cache (view sb s ip)) ((s.itable ip).inum, .entry j) (some b) := by
  have ha' : (view sb s ip (s.itable ip).inum).addrs (Fin.last nDirect) = a := by rw [view_self]; exact ha
  have href : refs sb s.cache (view sb s ip) ((s.itable ip).inum, .indirect) = some a :=
    refs_eq_some.mpr ⟨h.inum, h.view_type, ha', ha0⟩
  have hdisk : disk sb t.cache = disk sb s.cache := by
    rw [hcache]
    exact disk_update_of_data (h.owns.inData href).1
  have hview : view sb t ip = view sb s ip := by
    unfold view
    rw [hdisk, htab]
  have hlt : b < 2 ^ 32 := by
    have := (h.owns.owned.pending b (Set.mem_insert _ _)).1.2
    have := sb.size_lt
    omega
  have hrefs : refs sb t.cache (view sb s ip) =
      update (refs sb s.cache (view sb s ip)) ((s.itable ip).inum, .entry j) (some b) := by
    rw [hcache]
    exact h.owns.refs_install_entry h.inum h.view_type ha' ha0 (h.owns.pos_of_pend (Set.mem_insert _ _)) hlt
  refine ⟨⟨?_, by rw [htab]; exact h.held, by rw [htab]; exact h.inum, by rw [htab]; exact h.type,
    by rw [htab]; exact h.fits, by rw [htab, hdisk]; exact h.others, by rw [htab]; exact h.uniq, ?_⟩,
    hdisk, hview, hrefs⟩
  · rw [hview, hcache]
    exact h.owns.install_entry hp h.inum h.view_type ha' ha0 he
  · intro c hc
    simp only [Indirect, hview, hrefs] at hc
    rw [hcache, hsaved]
    by_cases hca : c = a
    · rw [hca, update_self, update_self]
    · rw [update_of_ne hca, update_of_ne hca]
      apply h.synced c
      rcases hc with hc | ⟨i, hi⟩
      · exact Or.inl hc
      · rw [update_of_ne (by simp)] at hi
        exact Or.inr ⟨i, hi⟩

end Op

variable (sb) in
abbrev memRefs (s : FsState) (ip : Fin nInode) (k : Slot) : Option ℕ :=
  refs sb s.cache (view sb s ip) ((s.itable ip).inum, k)

theorem freeBlocks_eq_zero (h : ∀ b < sb.size, Used sb cache b) : freeBlocks sb cache = 0 := by
  unfold freeBlocks
  rw [Finset.card_eq_zero, Finset.filter_eq_empty_iff]
  intro b hb
  simpa using h b (Finset.mem_range.mp hb)

namespace Op

theorem grab_addr (h : Op sb s ip ∅) (hb : b < sb.size) (hu : ¬ Used sb s.cache b)
    {k : Fin (nDirect + 1)} (hk : (s.itable ip).addrs k = 0) (hcache : t.cache = (s.take sb b).cache)
    (hsaved : t.saved = (s.take sb b).saved)
    (htab : t.itable = update s.itable ip
      ((s.itable ip).withAddrs (update (s.itable ip).addrs k b))) :
    Op sb t ip ∅ ∧ Grows sb s t ip ∧ refs sb t.cache (view sb t ip) =
      update (refs sb s.cache (view sb s ip)) ((s.itable ip).inum, slotOf k) (some b) ∧
      freeBlocks sb t.cache + 1 = freeBlocks sb s.cache := by
  have hmem := h.refs_self (slotOf k)
  rw [slot_slotOf, if_pos hk] at hmem
  obtain ⟨hop, hdisk, hview, hrefs, hfree, hframe⟩ := h.take hb hu (by simp)
  have hzero : (s.take sb b).cache b = fun _ => 0 := update_self _ _ _
  obtain ⟨hop', hrefs'⟩ := hop.install_addr (by simp) hk hzero (update_self _ _ _)
    hcache hsaved htab
  rw [hview, hrefs] at hrefs'
  refine ⟨hop', ⟨⟨⟨_, htab⟩, by rw [hcache, hdisk], ?_⟩, ?_⟩, hrefs', by rw [hcache, hfree]⟩
  · intro x c hx
    rw [hrefs', update_of_ne, hx]
    rintro rfl
    exact absurd (hmem.symm.trans hx) (by simp)
  · refine byteOf_install hrefs' hmem (by rw [hcache, hzero]) (fun y c _ hy => ?_)
    rw [hcache, hframe y c hy]

theorem grab_entry (h : Op sb s ip ∅) (hb : b < sb.size) (hu : ¬ Used sb s.cache b) {j : Fin nIndirect}
    {a : ℕ} (ha : (s.itable ip).addrs (Fin.last nDirect) = a) (ha0 : a ≠ 0)
    (he : (s.cache a).le (4 * j) 4 = 0)
    (hcache : t.cache = update (s.take sb b).cache a ((s.cache a).setLe (4 * j) 4 b))
    (hsaved : t.saved = update (s.take sb b).saved a ((s.cache a).setLe (4 * j) 4 b))
    (htab : t.itable = s.itable) :
    Op sb t ip ∅ ∧ Grows sb s t ip ∧ refs sb t.cache (view sb t ip) =
      update (refs sb s.cache (view sb s ip)) ((s.itable ip).inum, .entry j) (some b) ∧
      freeBlocks sb t.cache + 1 = freeBlocks sb s.cache := by
  have hmem := h.refs_self (.entry j)
  simp only [slot, ha, ha0, ↓reduceIte, he] at hmem
  have href : refs sb s.cache (view sb s ip) ((s.itable ip).inum, .indirect) = some a := by
    rw [h.refs_self, slot, ha, if_neg ha0]
  obtain ⟨hop, hdisk, hview, hrefs, hfree, hframe⟩ := h.take hb hu (by simp)
  have hsame : (s.take sb b).cache a = s.cache a := hframe _ _ href
  have hba : b ≠ a := by
    rintro rfl
    exact h.owns.owned.not_ref_of_not_used hu href
  rw [← hsame] at he hcache hsaved
  obtain ⟨hop', hdisk', hview', hrefs'⟩ := hop.install_entry (by simp) ha ha0 he hcache hsaved htab
  rw [hview, hrefs] at hrefs'
  have hvt : view sb t ip = view sb s ip := hview'.trans hview
  refine ⟨hop', ⟨⟨⟨(s.itable ip).addrs, ?_⟩, hdisk'.trans hdisk, ?_⟩, ?_⟩, ?_, ?_⟩
  · rw [htab]
    exact (update_eq_self _ _).symm
  · intro x c hx
    rw [hvt, hrefs', update_of_ne, hx]
    rintro rfl
    exact absurd (hmem.symm.trans hx) (by simp)
  · rw [hvt]
    refine byteOf_install hrefs' hmem ?_ (fun y c hy hyc => ?_)
    · rw [hcache, update_of_ne hba]
      exact update_self _ _ _
    · rw [hcache, update_of_ne, hframe y c hyc]
      rintro rfl
      have := h.owns.owned.inj y _ c hyc href
      simp [this] at hy
  · rw [hvt, hrefs']
    rfl
  · rw [← hfree]
    congr 1
    refine freeBlocks_congr (fun c hc => used_congr ?_)
    rw [hcache, update_of_ne (h.owns.ne_bblock href hc).symm]

end Op

variable (sb) in
structure Loaded (s t : FsState) (ip : Fin nInode) (k : Fin (nDirect + 1)) (a : ℕ) : Prop where
  op : Op sb t ip ∅
  grows : Grows sb s t ip
  addr : (t.itable ip).addrs k = a
  refs : refs sb t.cache (view sb t ip) =
    update (refs sb s.cache (view sb s ip)) ((s.itable ip).inum, slotOf k) (some a)
  free : freeBlocks sb t.cache + (if memRefs sb s ip (slotOf k) = none then 1 else 0) =
    freeBlocks sb s.cache
  same : memRefs sb s ip (slotOf k) ≠ none → t = s

theorem loadAddr_spec (h : Op sb s ip ∅) (k : Fin (nDirect + 1)) :
    wp (loadAddr sb ip k) s (fun a t => Loaded sb s t ip k a)
      (fun e => e = "balloc: out of blocks" ∧ memRefs sb s ip (slotOf k) = none ∧
        freeBlocks sb s.cache = 0) := by
  have hmem := h.refs_self (slotOf k)
  rw [slot_slotOf] at hmem
  simp only [loadAddr, inode, wp_bind, wp_get, wp_pure, wp_ite]
  by_cases hk : (s.itable ip).addrs k = 0
  · rw [if_pos hk] at hmem ⊢
    refine wp_mono (balloc_spec s) ?_ (fun e he => ⟨he.1, hmem, freeBlocks_eq_zero he.2⟩)
    rintro b _ ⟨hb, hu, rfl⟩
    simp only [setAddr, inode, setInode, wp_bind, wp_get, wp_pure, wp_modify]
    obtain ⟨hop, hgrow, hrefs, hfree⟩ := h.grab_addr hb hu hk rfl rfl rfl
      (t := ⟨(s.take sb b).cache, (s.take sb b).saved, update s.itable ip
        ((s.itable ip).withAddrs (update (s.itable ip).addrs k b))⟩)
    refine ⟨hop, hgrow, ?_, hrefs, ?_, fun hne => absurd hmem hne⟩
    · simp [Inode.withAddrs]
    · rw [if_pos hmem]
      exact hfree
  · rw [if_neg hk] at hmem
    rw [if_neg hk]
    refine ⟨h, Grows.rfl, rfl, ?_, ?_, fun _ => rfl⟩
    · rw [← hmem, update_eq_self]
    · simp [hmem]

variable (sb) in
def cost (s : FsState) (ip : Fin nInode) (bn : ℕ) : ℕ :=
  (if (dataSlot bn).bind (memRefs sb s ip) = none then 1 else 0) +
    (if ¬ bn < nDirect ∧ memRefs sb s ip .indirect = none then 1 else 0)

variable (sb) in
structure Mapped (s t : FsState) (ip : Fin nInode) (bn b : ℕ) : Prop where
  op : Op sb t ip ∅
  grows : Grows sb s t ip
  block : (dataSlot bn).bind (memRefs sb t ip) = some b
  other : ∀ l, dataSlot bn ≠ some l → l ≠ .indirect → memRefs sb t ip l = memRefs sb s ip l
  indirect : memRefs sb t ip .indirect = none ↔ memRefs sb s ip .indirect = none ∧ bn < nDirect
  free : freeBlocks sb t.cache + cost sb s ip bn = freeBlocks sb s.cache
  same : cost sb s ip bn = 0 → t = s

theorem memRefs_of_extends {r : ℕ × Slot → Option ℕ} (hg : Extends sb s t ip)
    (hr : refs sb t.cache (view sb t ip) = r) (k : Slot) :
    memRefs sb t ip k = r ((s.itable ip).inum, k) := by
  unfold memRefs
  rw [hr, hg.inum]

theorem bmap_direct (h : Op sb s ip ∅) {bn : ℕ} (hbn : bn < nDirect) :
    wp (bmap sb ip bn) s (fun b t => Mapped sb s t ip bn b)
      (fun e => e = "balloc: out of blocks" ∧ freeBlocks sb s.cache < cost sb s ip bn) := by
  have hs : slotOf ⟨bn, Nat.lt_succ_of_lt hbn⟩ = .direct ⟨bn, hbn⟩ := by simp [slotOf, hbn]
  have hd : dataSlot bn = some (.direct ⟨bn, hbn⟩) := by simp [dataSlot, hbn]
  have hcost : cost sb s ip bn = if memRefs sb s ip (.direct ⟨bn, hbn⟩) = none then 1 else 0 := by
    simp [cost, hd, hbn]
  unfold bmap
  rw [dif_pos hbn]
  refine wp_mono (loadAddr_spec h _) ?_ ?_
  · intro a t hl
    have hg := hl.grows
    have hrefs := hl.refs
    have hfree := hl.free
    have hsame := hl.same
    rw [hs] at hrefs hfree hsame
    refine ⟨hl.op, hg, ?_, ?_, ?_, by rw [hcost]; exact hfree, ?_⟩
    · rw [hd, Option.bind_some, memRefs_of_extends hg.toExtends hrefs, update_self]
    · intro l hl _
      rw [memRefs_of_extends hg.toExtends hrefs, update_of_ne]
      rintro he
      rw [Prod.mk.injEq] at he
      exact hl (hd.trans (congrArg some he.2.symm))
    · rw [memRefs_of_extends hg.toExtends hrefs, update_of_ne (by simp)]
      simp [hbn]
    · intro h0
      refine hsame (fun hn => ?_)
      rw [hcost, if_pos hn] at h0
      cases h0
  · rintro e ⟨he, hn, hf⟩
    rw [hs] at hn
    exact ⟨he, by simp [hcost, hn, hf]⟩

theorem bmap_indirect (h : Op sb s ip ∅) {bn : ℕ} (hn : ¬ bn < nDirect) (hbn : bn - nDirect < nIndirect) :
    wp (bmap sb ip bn) s (fun b t => Mapped sb s t ip bn b)
      (fun e => e = "balloc: out of blocks" ∧ freeBlocks sb s.cache < cost sb s ip bn) := by
  have hd : dataSlot bn = some (.entry ⟨bn - nDirect, hbn⟩) := by simp [dataSlot, hn, hbn]
  have hempty (hi : memRefs sb s ip .indirect = none) : memRefs sb s ip (.entry ⟨bn - nDirect, hbn⟩) = none := by
    have h0 := h.refs_self .indirect
    rw [show refs sb s.cache (view sb s ip) ((s.itable ip).inum, .indirect) = none from hi] at h0
    have h1 : (s.itable ip).addrs (Fin.last nDirect) = 0 := by
      by_contra hne
      simp [slot, hne] at h0
    rw [memRefs, h.refs_self]
    simp [slot, h1]
  have hcost : cost sb s ip bn = (if memRefs sb s ip (.entry ⟨bn - nDirect, hbn⟩) = none then 1 else 0) +
      (if memRefs sb s ip .indirect = none then 1 else 0) := by
    simp [cost, hd, hn]
  unfold bmap
  rw [dif_neg hn, if_pos hbn]
  simp only [wp_bind]
  refine wp_mono (loadAddr_spec h _) ?_ ?_
  · intro a t hl
    have hop := hl.op
    have hg := hl.grows
    have ha := hl.addr.symm
    have hrefs := hl.refs
    have hfree := hl.free
    have hsame := hl.same
    rw [slotOf_last] at hrefs hfree hsame
    have hmem (k : Slot) := memRefs_of_extends hg.toExtends hrefs k
    have hind : memRefs sb t ip .indirect = some a := by rw [hmem, update_self]
    have hent (l : Fin nIndirect) : memRefs sb t ip (.entry l) = memRefs sb s ip (.entry l) := by
      rw [hmem, update_of_ne (by simp)]
    have ha0 : a ≠ 0 := (refs_eq_some.mp hind).2.2.2
    have hself := hop.refs_self (.entry ⟨bn - nDirect, hbn⟩)
    simp only [slot, ← ha, ha0, ↓reduceIte] at hself
    simp only [bread, wp_bind, wp_get, wp_pure, wp_ite]
    by_cases he : (t.cache a).le (4 * (bn - nDirect)) 4 = 0
    · rw [if_pos he]
      rw [if_pos he] at hself
      have hnone : memRefs sb s ip (.entry ⟨bn - nDirect, hbn⟩) = none := (hent _).symm.trans hself
      refine wp_mono (balloc_spec t) ?_ ?_
      · rintro b _ ⟨hb, hu, rfl⟩
        simp only [logWrite, wp_modify]
        suffices hmapped : ∀ u : FsState,
            u.cache = update (t.take sb b).cache a ((t.cache a).setLe (4 * (bn - nDirect)) 4 b) →
            u.saved = update (t.take sb b).saved a ((t.cache a).setLe (4 * (bn - nDirect)) 4 b) →
            u.itable = t.itable → Mapped sb s u ip bn b from hmapped _ rfl rfl rfl
        intro u hc hs hi
        obtain ⟨hop', hg', hrefs', hfree'⟩ :=
          hop.grab_entry (j := ⟨bn - nDirect, hbn⟩) hb hu ha.symm ha0 he hc hs hi
        have hmem' (k : Slot) := memRefs_of_extends hg'.toExtends hrefs' k
        refine ⟨hop', hg.trans hg', ?_, ?_, ?_, ?_, fun h0 => ?_⟩
        · rw [hd, Option.bind_some, hmem', update_self]
        · intro l hl hli
          have hne : l ≠ .entry ⟨bn - nDirect, hbn⟩ := fun he => hl (hd.trans (congrArg some he.symm))
          rw [hmem', update_of_ne (by simp [hne])]
          have := hmem l
          rw [update_of_ne (by simp [hli])] at this
          exact this
        · rw [hmem', update_of_ne (by simp)]
          have := hind
          unfold memRefs at this
          simp [this, hn]
        · rw [hcost, if_pos hnone]
          omega
        · rw [hcost, if_pos hnone] at h0
          omega
      · rintro e ⟨hemsg, hall⟩
        refine ⟨hemsg, ?_⟩
        rw [hcost, if_pos hnone]
        have := freeBlocks_eq_zero hall
        omega
    · rw [if_neg he]
      rw [if_neg he] at hself
      have hsome := (hent ⟨bn - nDirect, hbn⟩).symm.trans hself
      refine ⟨hop, hg, ?_, ?_, ?_, ?_, fun h0 => hsame (fun hi => ?_)⟩
      · rw [hd, Option.bind_some]
        exact hself
      · intro l _ hli
        rw [hmem, update_of_ne (by simp [hli])]
      · simp [hind, hn]
      · rw [hcost, hsome]
        simpa using hfree
      · rw [hcost, if_pos hi] at h0
        omega
  · rintro e ⟨he, hi, hf⟩
    rw [slotOf_last] at hi
    refine ⟨he, ?_⟩
    rw [hcost, if_pos hi, if_pos (hempty hi)]
    omega

theorem bmap_spec (h : Op sb s ip ∅) {bn : ℕ} (hbn : bn < maxFile) :
    wp (bmap sb ip bn) s (fun b t => Mapped sb s t ip bn b)
      (fun e => e = "balloc: out of blocks" ∧ freeBlocks sb s.cache < cost sb s ip bn) := by
  by_cases hd : bn < nDirect
  · exact bmap_direct h hd
  · refine bmap_indirect h hd ?_
    unfold maxFile at hbn
    omega

end Xv6.Fs
