import Xv6.Mkfs.Image

namespace Xv6.Mkfs

open Lib Fs Hoare
open Function (update update_of_ne update_self update_idem)

variable {s t : Mk} {D D' : ℕ → Dinode} {has : ℕ → ℕ → Prop} {i b x : ℕ} {v : Block} {din : Dinode}

/-! ### The bitmap to come -/

def marked (s : Mk) : ℕ → Block := update s.image sb.bmapstart (bits s.freeblock)

theorem bits_succ (n : ℕ) : bits (n + 1) = Bitmap.set (bits n) n := by
  simp [bits, List.range_succ]

theorem size_eq : sb.size = fsSize := rfl

theorem bblock_eq (hb : b < fsSize) : sb.bblock b = sb.bmapstart := by
  have hlt : b / bpb = 0 := Nat.div_eq_of_lt (hb.trans (by decide))
  rw [Superblock.bblock, hlt, Nat.zero_add]

theorem marked_succ (hb : s.freeblock < fsSize) :
    marked { s with freeblock := s.freeblock + 1 } = markUsed sb (marked s) s.freeblock := by
  unfold markUsed marked
  rw [bblock_eq hb, Nat.mod_eq_of_lt (hb.trans (by decide)), update_self, update_idem, bits_succ]

theorem used_bits {image : ℕ → Block} {n : ℕ} (hn : n ≤ fsSize) (hb : b < fsSize) :
    Used sb (update image sb.bmapstart (bits n)) b ↔ b < n := by
  induction n with
  | zero =>
    unfold Used
    rw [bblock_eq hb, update_self]
    simp [bits, Bitmap.isClear, Bytes.get_zero]
  | succ n ih =>
    have hsucc := @marked_succ ⟨image, 0, 0, n⟩ hn
    unfold marked at hsucc
    dsimp only at hsucc
    rw [hsucc, used_markUsed, ih (by omega)]
    omega

theorem used_marked (hs : s.freeblock ≤ fsSize) (hb : b < fsSize) : Used sb (marked s) b ↔ b < s.freeblock := used_bits hs hb

theorem marked_of_ne (hb : b ≠ sb.bmapstart) : marked s b = s.image b := update_of_ne hb _ _

theorem disk_marked : disk sb (marked s) = disk sb s.image :=
  disk_congr (fun _ hi => marked_of_ne (Superblock.iblock_lt hi).ne)

def Mk.put (s : Mk) (b : ℕ) (v : Block) : Mk := { s with image := update s.image b v }

theorem put_of_ne {x : ℕ} (hx : x ≠ b) : (s.put b v).image x = s.image x := update_of_ne hx _ _

theorem marked_put (hb : b ≠ sb.bmapstart) : marked (s.put b v) = update (marked s) b v := by
  unfold marked Mk.put
  rw [Function.update_comm hb]

theorem wp_rsect {Q : Block → Mk → Prop} {E : String → Prop} (hb : b < s.length) (hQ : Q (s.image b) s) :
    wp (rsect b) s Q E := by
  simp only [rsect, wp_bind, wp_get, wp_ite, if_pos hb, wp_pure]
  exact hQ

theorem wp_rsect_past {Q : Block → Mk → Prop} {E : String → Prop} (hb : s.length ≤ b) (hE : ∀ e, E e) :
    wp (rsect b) s Q E := by
  simp only [rsect, wp_bind, wp_get, wp_ite, if_neg (Nat.not_lt.mpr hb), wp_throw]
  exact hE _

theorem wp_wsect {Q : Unit → Mk → Prop} {E : String → Prop} (hb : b < s.length) (hQ : Q () (s.put b v)) :
    wp (wsect b v) s Q E := by
  simp only [wsect, wp_modify]
  rw [Nat.max_eq_left hb]
  exact hQ

theorem wp_bump {Q : ℕ → Mk → Prop} {E : String → Prop} (hQ : Q s.freeblock { s with freeblock := s.freeblock + 1 }) :
    wp bump s Q E := by
  simp only [bump, wp_bind, wp_get, wp_set, wp_pure]
  exact hQ

/-! ### The image so far -/

structure Made (s : Mk) (D : ℕ → Dinode) (has : ℕ → ℕ → Prop) : Prop where
  length : s.length = fsSize
  owns : Owns sb (marked s) D ∅
  low : nmeta ≤ s.freeblock
  high : s.freeblock ≤ fsSize
  zero : ∀ b, s.freeblock ≤ b → b < fsSize → s.image b = fun _ => 0
  used : ∀ i, 0 < i → i < s.freeinode → i < sb.ninodes → (D i).type ≠ 0
  unused : ∀ i, i = 0 ∨ s.freeinode ≤ i → (D i).type = 0
  blocks : ∀ i bn, 0 < i → i < s.freeinode → i < sb.ninodes → (fileBlock sb (marked s) D i bn ≠ none ↔ has i bn)

def sized (D : ℕ → Dinode) (i bn : ℕ) : Prop := bn * bSize < (D i).size

theorem fileBlock_update {c c' : ℕ → Block} {k : Slot} (h : refs sb c' D' = update (refs sb c D) (i, k) (some b))
    (j bn : ℕ) : fileBlock sb c' D' j bn ≠ none ↔ fileBlock sb c D j bn ≠ none ∨ j = i ∧ dataSlot bn = some k := by
  unfold fileBlock
  rw [h]
  cases hk : dataSlot bn with
  | none => simp
  | some l =>
    simp only [Option.bind_some, Option.some.injEq]
    by_cases hjl : j = i ∧ l = k
    · obtain ⟨rfl, rfl⟩ := hjl
      simp
    · have hne : (j, l) ≠ (i, k) := fun he => hjl (Prod.mk.inj he)
      rw [update_of_ne hne]
      simp [hjl]

namespace Made

theorem congr {has' : ℕ → ℕ → Prop} (h : Made s D has) (hh : ∀ j bn, has' j bn ↔ has j bn) : Made s D has' :=
  ⟨h.length, h.owns, h.low, h.high, h.zero, h.used, h.unused, fun j bn hj hj' hn => (h.blocks j bn hj hj' hn).trans (hh j bn).symm⟩

theorem ref_lt {y : ℕ × Slot} (h : Made s D has) (hx : refs sb (marked s) D y = some x) :
    nmeta ≤ x ∧ x < s.freeblock ∧ x < s.length ∧ x ≠ sb.bmapstart := by
  have hdata := h.owns.inData hx
  have hlow : nmeta ≤ x := hdata.1
  have hlt : x < fsSize := hdata.2
  have hused : x < s.freeblock := (used_marked h.high hlt).mp (h.owns.owned.used_of_ref hx)
  refine ⟨hlow, hused, by rw [h.length]; exact hlt, ?_⟩
  rintro rfl
  exact absurd hlow (by decide)

theorem put_block (h : Made s D has) (hne : x ≠ sb.bmapstart) (hlt : x < s.freeblock)
    (hnot : ∀ j, refs sb (marked s) D (j, .indirect) ≠ some x) : Made (s.put x v) D has := by
  have hrefs : refs sb (update (marked s) x v) D = refs sb (marked s) D := by
    funext z
    apply refs_congr
    intro j b hj
    exact update_of_ne (by rintro rfl; exact hnot j hj) _ _
  refine ⟨h.length, ?_, h.low, h.high, ?_, h.used, h.unused, ?_⟩
  · rw [marked_put hne]
    apply h.owns.frame v _ hnot
    intro b hb
    rw [bblock_eq hb]
    exact hne.symm
  · intro b hb hb'
    change s.freeblock ≤ b at hb
    rw [put_of_ne (by omega)]
    exact h.zero b hb hb'
  · intro j bn hj hj' hn
    rw [marked_put hne]
    unfold fileBlock
    rw [hrefs]
    exact h.blocks j bn hj hj' hn

theorem put_data {y : ℕ × Slot} (h : Made s D has) (hx : refs sb (marked s) D y = some x) (hk : y.2 ≠ .indirect) :
    Made (s.put x v) D has := by
  obtain ⟨-, hlt, -, hne⟩ := h.ref_lt hx
  apply h.put_block hne hlt
  intro j hj
  have heq := h.owns.owned.inj _ _ x hj hx
  rw [← heq] at hk
  exact hk rfl

theorem grow {k : Slot} (h : Made s D has) (howns : Owns sb (marked t) D' ∅)
    (hrefs : refs sb (marked t) D' = update (refs sb (marked s) D) (i, k) (some s.freeblock))
    (hb : s.freeblock < fsSize) (hfree : t.freeblock = s.freeblock + 1) (hlen : t.length = s.length)
    (hino : t.freeinode = s.freeinode) (himage : ∀ b, s.freeblock < b → t.image b = s.image b)
    (htype : ∀ j, (D' j).type = (D j).type) : Made t D' (fun j bn => has j bn ∨ j = i ∧ dataSlot bn = some k) := by
  refine ⟨hlen.trans h.length, howns, by rw [hfree]; exact h.low.trans (Nat.le_succ _), by rw [hfree]; exact hb, ?_, ?_, ?_, ?_⟩
  · intro b hb hb'
    rw [hfree] at hb
    rw [himage b hb]
    exact h.zero b (by omega) hb'
  · intro j hj hj' hn
    rw [htype]
    exact h.used j hj (by rw [← hino]; exact hj') hn
  · intro j hj
    rw [htype]
    exact h.unused j (by rw [← hino]; exact hj)
  · intro j bn hj hj' hn
    rw [fileBlock_update hrefs, h.blocks j bn hj (by rw [← hino]; exact hj') hn]

theorem not_used (h : Made s D has) (hb : s.freeblock < fsSize) : ¬ Used sb (marked s) s.freeblock := by
  rw [used_marked h.high hb]
  exact Nat.lt_irrefl _

theorem pos (h : Made s D has) : s.freeblock ≠ 0 := by
  have hpos : 0 < nmeta := by decide
  have := h.low
  omega

theorem free_ne (h : Made s D has) : s.freeblock ≠ sb.bmapstart := by
  have hlow := h.low
  have hlt : sb.bmapstart < nmeta := by decide
  omega

theorem addr {k : Fin (nDirect + 1)} (h : Made s D has) (hi : 0 < i) (hi' : i < s.freeinode) (hn : i < sb.ninodes)
    (hk : (D i).addrs k = 0) (hb : s.freeblock < fsSize) :
    Made { s with freeblock := s.freeblock + 1 }
      (update D i { D i with addrs := update (D i).addrs k s.freeblock })
      (fun j bn => has j bn ∨ j = i ∧ dataSlot bn = some (slotOf k)) := by
  have hm := h.owns.markUsed (b := s.freeblock) hb (h.not_used hb)
  have hty := h.used i hi hi' hn
  have hz : k = Fin.last nDirect → markUsed sb (marked s) s.freeblock s.freeblock = fun _ => 0 := by
    intro _
    rw [markUsed, bblock_eq hb, update_of_ne h.free_ne, marked_of_ne h.free_ne]
    exact h.zero _ le_rfl hb
  refine h.grow ?_ ?_ hb rfl rfl rfl (fun _ _ => rfl) ?_
  · rw [marked_succ hb]
    exact hm.install_addr (Set.notMem_empty _) hn hty hk hz
  · rw [marked_succ hb, refs_install_addr hn hty hk h.pos hz, h.owns.refs_markUsed hb]
  · intro j
    by_cases hj : j = i
    · rw [hj, update_self]
    · rw [update_of_ne hj]

theorem entry {j : Fin nIndirect} {a : ℕ} (h : Made s D has) (hi : 0 < i) (hi' : i < s.freeinode) (hn : i < sb.ninodes)
    (ha : refs sb (marked s) D (i, .indirect) = some a) (he : (s.image a).le (4 * j) 4 = 0) (hb : s.freeblock < fsSize) :
    Made ({ s with freeblock := s.freeblock + 1 }.put a ((s.image a).setLe (4 * j) 4 s.freeblock)) D
      (fun j' bn => has j' bn ∨ j' = i ∧ dataSlot bn = some (.entry j)) := by
  obtain ⟨-, hlt, -, hne⟩ := h.ref_lt ha
  have hm := h.owns.markUsed (b := s.freeblock) hb (h.not_used hb)
  have hty := h.used i hi hi' hn
  obtain ⟨-, -, haddr, ha0⟩ := refs_eq_some.mp ha
  have himage : markUsed sb (marked s) s.freeblock a = s.image a := by
    rw [markUsed, bblock_eq hb, update_of_ne hne, marked_of_ne hne]
  have hcache : marked ({ s with freeblock := s.freeblock + 1 }.put a ((s.image a).setLe (4 * j) 4 s.freeblock)) =
      update (markUsed sb (marked s) s.freeblock) a
        ((markUsed sb (marked s) s.freeblock a).setLe (4 * j) 4 s.freeblock) := by
    rw [marked_put hne, marked_succ hb, himage]
  refine h.grow ?_ ?_ hb rfl rfl rfl ?_ (fun _ => rfl)
  · rw [hcache]
    exact hm.install_entry (Set.notMem_empty _) hn hty haddr ha0 (by rw [himage]; exact he)
  · rw [hcache, hm.refs_install_entry hn hty haddr ha0 h.pos (hb.trans (by decide)), h.owns.refs_markUsed hb]
  · intro b hb'
    exact update_of_ne (by omega) _ _

theorem refit {has' : ℕ → ℕ → Prop} (h : Made s D has) (hrefs : refs sb (marked s) D' = refs sb (marked s) D)
    (htype : ∀ i, (D' i).type = (D i).type) (hhas : ∀ j bn, has' j bn ↔ has j bn) : Made s D' has' := by
  refine ⟨h.length, ⟨by rw [hrefs]; exact h.owns.owned, h.owns.reserved⟩, h.low, h.high, h.zero, ?_, ?_, ?_⟩
  · intro i hi hi' hn
    rw [htype]
    exact h.used i hi hi' hn
  · intro i hi
    rw [htype]
    exact h.unused i hi
  · intro i bn hi hi' hn
    unfold fileBlock
    rw [hrefs, hhas]
    exact h.blocks i bn hi hi' hn

theorem put_low (h : Made s D has) (hlt : x < sb.bmapstart) : Made (s.put x v) D has := by
  have hlow : x < nmeta := hlt.trans (by decide)
  have hfree := h.low
  apply h.put_block hlt.ne (by omega)
  intro j hj
  have := (h.ref_lt hj).1
  omega

theorem put_inode {d : Dinode} (h : Made s D has) (hn : i < sb.ninodes) (hd : d.Fits)
    (hD : D = update (disk sb s.image) i d) :
    Made (s.put (sb.iblock i) (writeDinode (s.image (sb.iblock i)) (i % ipb) d)) D has ∧
      disk sb (s.put (sb.iblock i) (writeDinode (s.image (sb.iblock i)) (i % ipb) d)).image = D := by
  refine ⟨h.put_low (Superblock.iblock_lt hn), ?_⟩
  rw [hD]
  exact disk_iwrite hn hd _

end Made

end Xv6.Mkfs
