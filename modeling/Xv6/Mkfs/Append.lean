import Xv6.Mkfs.Made

namespace Xv6.Mkfs

open Lib Fs Hoare
open Function (update update_of_ne update_self update_idem)

variable {s t : Mk} {D D' : ℕ → Dinode} {has : ℕ → ℕ → Prop} {i off fbn : ℕ} {din : Dinode}

def held (s : Mk) (i : ℕ) (din : Dinode) (off : ℕ) : ℕ → Dinode := update (disk sb s.image) i { din with size := off }

theorem held_self : held s i din off i = { din with size := off } := update_self _ _ _

theorem Fits.addr {k : Fin (nDirect + 1)} {b : ℕ} (h : din.Fits) (hb : b < 2 ^ 32) :
    ({ din with addrs := update din.addrs k b } : Dinode).Fits := by
  refine ⟨h.type, h.major, h.minor, h.nlink, h.size, fun j => ?_⟩
  dsimp only
  by_cases hj : j = k
  · rw [hj, update_self]
    exact hb
  · rw [update_of_ne hj]
    exact h.addrs j

structure Steady (s t : Mk) (m : ℕ) : Prop where
  inode : t.freeinode = s.freeinode
  disk : Fs.disk sb t.image = Fs.disk sb s.image
  block : t.freeblock ≤ s.freeblock + m

theorem Steady.refl : Steady s s 0 := ⟨rfl, rfl, Nat.le_refl _⟩

theorem Steady.trans {u : Mk} {m n : ℕ} (h : Steady s t m) (h' : Steady t u n) : Steady s u (m + n) := by
  have h1 := h.block
  have h2 := h'.block
  exact ⟨h'.inode.trans h.inode, h'.disk.trans h.disk, by omega⟩

theorem Steady.mono {m n : ℕ} (h : Steady s t m) (hmn : m ≤ n) : Steady s t n := ⟨h.inode, h.disk, h.block.trans (by omega)⟩

theorem Steady.put {x : ℕ} {v : Block} (hx : nmeta ≤ x) : Steady s (s.put x v) 0 := by
  refine ⟨rfl, ?_, Nat.le_refl _⟩
  exact disk_update_of_data hx

theorem addrFor_spec {k : Fin (nDirect + 1)} {E : String → Prop} (h : Made s (held s i din off) has) (hi : 0 < i)
    (hi' : i < s.freeinode) (hn : i < sb.ninodes) (hfits : din.Fits)
    (hhas : ∀ bn, dataSlot bn = some (slotOf k) → din.addrs k ≠ 0 → has i bn) :
    wp (addrFor din k) s (fun d t => Steady s t 1 ∧ t.length = fsSize ∧ d.type = din.type ∧ d.size = din.size ∧
      (fsSize ≤ s.freeblock ∧ d.addrs k = s.freeblock ∨
        Made t (held t i d off) (fun j bn => has j bn ∨ j = i ∧ dataSlot bn = some (slotOf k)) ∧ d.Fits ∧ d.addrs k ≠ 0 ∧
          ∀ l ≠ k, d.addrs l = din.addrs l)) E := by
  unfold addrFor
  by_cases hk : din.addrs k = 0
  · rw [if_pos hk, wp_bind]
    apply wp_bump
    rw [wp_pure]
    refine ⟨⟨rfl, rfl, Nat.le_refl _⟩, h.length, rfl, rfl, ?_⟩
    by_cases hb : s.freeblock < fsSize
    · right
      have hself : held s i din off i = { din with size := off } := held_self
      have hgrow := h.addr (k := k) hi hi' hn (by rw [hself]; exact hk) hb
      rw [hself, held, update_idem] at hgrow
      refine ⟨hgrow, Fits.addr hfits (hb.trans (by decide)), ?_, fun l hl => update_of_ne hl _ _⟩
      dsimp only
      rw [update_self]
      exact h.pos
    · left
      exact ⟨Nat.le_of_not_lt hb, update_self _ _ _⟩
  · rw [if_neg hk, wp_pure]
    refine ⟨Steady.refl.mono (by decide), h.length, rfl, rfl, Or.inr ⟨h.congr ?_, hfits, hk, fun _ _ => rfl⟩⟩
    intro j bn
    refine ⟨?_, Or.inl⟩
    rintro (hj | ⟨rfl, hbn⟩)
    · exact hj
    · exact hhas bn hbn hk

theorem Made.ref_of_slot {k : Slot} (h : Made s (held s i din off) has) (hi : 0 < i) (hi' : i < s.freeinode) (hn : i < sb.ninodes)
    (hk : Fs.slot (marked s) { din with size := off } k ≠ 0) :
    refs sb (marked s) (held s i din off) (i, k) = some (Fs.slot (marked s) { din with size := off } k) := by
  have hty := h.used i hi hi' hn
  rw [refs_of_slot hn hty, held_self, if_neg hk]

theorem dataSlot_lt (h : fbn < nDirect) : dataSlot fbn = some (slotOf ⟨fbn, Nat.lt_succ_of_lt h⟩) := by
  unfold dataSlot slotOf
  rw [dif_pos h, dif_pos h]

structure Found (din : Dinode) (s t : Mk) (i off fbn : ℕ) (has : ℕ → ℕ → Prop) (r : Dinode × ℕ) : Prop where
  steady : Steady s t 2
  length : t.length = fsSize
  type : r.1.type = din.type
  found : fsSize ≤ r.2 ∧ fsSize < s.freeblock + 2 ∨
    Made t (held t i r.1 off) (fun j bn => has j bn ∨ j = i ∧ bn = fbn) ∧ r.1.Fits ∧
      ∃ k, k ≠ .indirect ∧ refs sb (marked t) (held t i r.1 off) (i, k) = some r.2

theorem blockFor_spec (h : Made s (held s i din off) has) (hi : 0 < i) (hi' : i < s.freeinode) (hn : i < sb.ninodes)
    (hfits : din.Fits) (hfbn : fbn < maxFile) :
    wp (blockFor din fbn) s (fun r t => Found din s t i off fbn has r) (fun _ => fsSize < s.freeblock + 2) := by
  have hfile : ∀ k bn, dataSlot bn = some k → Fs.slot (marked s) { din with size := off } k ≠ 0 → has i bn := by
    intro k bn hbn hk
    rw [← h.blocks i bn hi hi' hn, fileBlock, hbn, Option.bind_some, h.ref_of_slot hi hi' hn hk]
    exact Option.some_ne_none _
  unfold blockFor
  by_cases hdir : fbn < nDirect
  · rw [dif_pos hdir, wp_bind]
    have hslot := dataSlot_lt hdir
    refine wp_mono (addrFor_spec (E := fun _ => False) h hi hi' hn hfits ?_) ?_ (fun _ he => he.elim)
    · intro bn hbn hk
      apply hfile _ bn hbn
      rw [slot_slotOf]
      exact hk
    · rintro d t ⟨hsteady, hlen, htype, -, hd⟩
      rw [wp_pure]
      refine ⟨hsteady.mono (by decide), hlen, htype, ?_⟩
      rcases hd with ⟨hfull, hnew⟩ | ⟨hmade, hdfits, hne, -⟩
      · left
        dsimp only
        rw [hnew]
        omega
      · right
        refine ⟨hmade.congr (fun j bn => ?_), hdfits, .direct ⟨fbn, hdir⟩, by simp, ?_⟩
        · rw [← hslot]
          have hiff : dataSlot bn = dataSlot fbn ↔ bn = fbn := by
            constructor
            · intro heq
              rw [hslot] at heq
              exact dataSlot_inj heq hslot
            · rintro rfl
              rfl
          rw [hiff]
        · have hk : Fs.slot (marked t) { d with size := off } (.direct ⟨fbn, hdir⟩) = d.addrs ⟨fbn, Nat.lt_succ_of_lt hdir⟩ := rfl
          have hi'' : i < t.freeinode := by rw [hsteady.inode]; exact hi'
          have href := hmade.ref_of_slot (k := .direct ⟨fbn, hdir⟩) hi hi'' hn (by rw [hk]; exact hne)
          rw [hk] at href
          exact href
  · have hj : fbn - nDirect < nIndirect := by
      unfold maxFile at hfbn
      omega
    have hslot : dataSlot fbn = some (.entry ⟨fbn - nDirect, hj⟩) := by
      unfold dataSlot
      rw [dif_neg hdir, dif_pos hj]
    have hiff : ∀ bn, dataSlot bn = some (.entry ⟨fbn - nDirect, hj⟩) ↔ bn = fbn := by
      intro bn
      constructor
      · intro hbn
        exact dataSlot_inj hbn hslot
      · rintro rfl
        exact hslot
    rw [dif_neg hdir, wp_bind]
    refine wp_mono (addrFor_spec (E := fun _ => False) h hi hi' hn hfits ?_) ?_ (fun _ he => he.elim)
    · intro bn hbn
      rw [slotOf_last] at hbn
      exact absurd hbn (dataSlot_ne_indirect bn)
    · rintro d t ⟨hsteady, hlen, htype, -, hd⟩
      rw [wp_bind]
      rcases hd with ⟨hfull, hnew⟩ | ⟨hmade', hdfits, hne, -⟩
      · rw [hnew]
        apply wp_rsect_past
        · rw [hlen]
          exact hfull
        · intro e
          omega
      -- the indirect block is no block of the file itself
      have hmade : Made t (held t i d off) has := by
        apply hmade'.congr
        intro j bn
        refine ⟨Or.inl, ?_⟩
        rintro (hb | ⟨-, hbn⟩)
        · exact hb
        · rw [slotOf_last] at hbn
          exact absurd hbn (dataSlot_ne_indirect bn)
      have hi'' : i < t.freeinode := by rw [hsteady.inode]; exact hi'
      have hind : refs sb (marked t) (held t i d off) (i, .indirect) = some (d.addrs (Fin.last nDirect)) :=
        hmade.ref_of_slot (k := .indirect) hi hi'' hn hne
      obtain ⟨hlow, hlt, hbelow, hmap⟩ := hmade.ref_lt hind
      apply wp_rsect hbelow
      by_cases he : (t.image (d.addrs (Fin.last nDirect))).le (4 * (fbn - nDirect)) 4 = 0
      · rw [if_pos he, wp_bind]
        apply wp_bump
        rw [wp_bind]
        apply wp_wsect (s := { t with freeblock := t.freeblock + 1 }) hbelow
        rw [wp_pure]
        have hput : Steady t ({ t with freeblock := t.freeblock + 1 }.put (d.addrs (Fin.last nDirect))
            ((t.image (d.addrs (Fin.last nDirect))).setLe (4 * (fbn - nDirect)) 4 t.freeblock)) 1 :=
          ⟨rfl, disk_update_of_data hlow, Nat.le_refl _⟩
        refine ⟨hsteady.trans hput, hlen, htype, ?_⟩
        have hblock := hsteady.block
        by_cases hb : t.freeblock < fsSize
        · right
          have hentry := hmade.entry (j := ⟨fbn - nDirect, hj⟩) hi hi'' hn hind he hb
          have hheld : held ({ t with freeblock := t.freeblock + 1 }.put (d.addrs (Fin.last nDirect))
              ((t.image (d.addrs (Fin.last nDirect))).setLe (4 * (fbn - nDirect)) 4 t.freeblock)) i d off = held t i d off := by
            unfold held
            rw [hput.disk]
          refine ⟨?_, hdfits, .entry ⟨fbn - nDirect, hj⟩, by simp, ?_⟩
          · dsimp only
            rw [hheld]
            apply hentry.congr
            intro j bn
            rw [hiff]
          · dsimp only
            rw [hheld]
            have hlt32 : t.freeblock < 256 ^ 4 := hb.trans (by decide)
            refine refs_eq_some.mpr ⟨hn, hmade.used i hi hi'' hn, ?_, hmade.pos⟩
            dsimp only
            rw [held_self]
            simp only [Fs.slot, hne, ↓reduceIte]
            rw [marked_of_ne hmap]
            change Bytes.le (update t.image _ _ _) _ _ = _
            rw [update_self, Bytes.le_setLe _ (by simp only [bSize, nIndirect] at hj ⊢; omega), Nat.mod_eq_of_lt hlt32]
        · left
          dsimp only
          omega
      · rw [if_neg he, wp_pure]
        have hentry : refs sb (marked t) (held t i d off) (i, .entry ⟨fbn - nDirect, hj⟩) =
            some ((t.image (d.addrs (Fin.last nDirect))).le (4 * (fbn - nDirect)) 4) := by
          refine refs_eq_some.mpr ⟨hn, hmade.used i hi hi'' hn, ?_, he⟩
          dsimp only
          rw [held_self]
          simp only [Fs.slot, hne, ↓reduceIte]
          rw [marked_of_ne hmap]
        refine ⟨hsteady.mono (by decide), hlen, htype, Or.inr ⟨?_, hdfits, .entry ⟨fbn - nDirect, hj⟩, by simp, ?_⟩⟩
        · apply hmade.congr
          intro j bn
          refine ⟨?_, Or.inl⟩
          rintro (hb | ⟨rfl, rfl⟩)
          · exact hb
          · rw [← hmade.blocks _ bn hi hi'' hn, fileBlock, hslot, Option.bind_some]
            rw [hentry]
            exact Option.some_ne_none _
        · exact hentry

theorem held_congr (h : disk sb t.image = disk sb s.image) : held t i din off = held s i din off := by
  unfold held
  rw [h]

theorem held_of_ne {j : ℕ} (hj : j ≠ i) : held s i din off j = disk sb s.image j := update_of_ne hj _ _

theorem Made.resize {off' : ℕ} {has' : ℕ → ℕ → Prop} (h : Made s (held s i din off) has) (hhas : ∀ j bn, has' j bn ↔ has j bn) :
    Made s (held s i din off') has' := by
  have hsame : ∀ j, (held s i din off' j).type = (held s i din off j).type ∧ (held s i din off' j).addrs = (held s i din off j).addrs := by
    intro j
    by_cases hj : j = i
    · rw [hj, held_self, held_self]
      exact ⟨rfl, rfl⟩
    · rw [held_of_ne hj, held_of_ne hj]
      exact ⟨rfl, rfl⟩
  exact h.refit (refs_congr_inodes hsame) (fun j => (hsame j).1) hhas

theorem sized_held {d : Dinode} (h : disk sb t.image = disk sb s.image) (j bn : ℕ) :
    sized (held t i d off) j bn ↔ sized (held s i din off) j bn := by
  unfold sized
  by_cases hj : j = i
  · rw [hj, held_self, held_self]
  · rw [held_of_ne hj, held_of_ne hj, h]

theorem sized_step {n1 : ℕ} (h0 : 0 < n1) (hn : off + n1 ≤ (off / bSize + 1) * bSize) (j bn : ℕ) :
    sized (held s i din (off + n1)) j bn ↔ sized (held s i din off) j bn ∨ j = i ∧ bn = off / bSize := by
  unfold sized
  by_cases hj : j = i
  · rw [hj, held_self, held_self]
    simp only [bSize, true_and] at hn ⊢
    omega
  · rw [held_of_ne hj, held_of_ne hj]
    exact ⟨Or.inl, fun h => h.resolve_right (fun h => hj h.1)⟩

def atMost (off n : ℕ) : ℕ := 2 * (touched off n).length

theorem atMost_step {n : ℕ} (h : 0 < n) :
    atMost off n = 2 + atMost (off + min n ((off / bSize + 1) * bSize - off)) (n - min n ((off / bSize + 1) * bSize - off)) := by
  have hrest : (off / bSize + 1) * bSize - off = bSize - off % bSize := by
    simp only [bSize]
    omega
  unfold atMost
  rw [touched_step h, hrest, List.length_cons]
  omega

structure Appended (din : Dinode) (s t : Mk) (i off n : ℕ) (r : Dinode × ℕ) : Prop where
  ends : r.2 = off + n
  max : r.2 ≤ maxFile * bSize
  type : r.1.type = din.type
  fits : r.1.Fits
  made : Made t (held t i r.1 r.2) (sized (held t i r.1 r.2))
  steady : Steady s t (atMost off n)

def Stopped (s : Mk) (off n : ℕ) : Prop := maxFile * bSize < off + n ∨ fsSize < s.freeblock + atMost off n

theorem appendLoop_spec {fuel : ℕ} {p : List UInt8} (h : Made s (held s i din off) (sized (held s i din off))) (hi : 0 < i)
    (hi' : i < s.freeinode) (hn : i < sb.ninodes) (hfits : din.Fits) (hmax : off ≤ maxFile * bSize) (hfuel : p.length ≤ fuel) :
    wp (appendLoop fuel din off p) s (fun r t => Appended din s t i off p.length r) (fun _ => Stopped s off p.length) := by
  induction fuel generalizing s din off p with
  | zero =>
    have hp : p = [] := List.length_eq_zero_iff.mp (by omega)
    subst hp
    exact ⟨rfl, hmax, rfl, hfits, h, Steady.refl⟩
  | succ fuel ih =>
    unfold appendLoop
    by_cases hp : p = []
    · rw [if_pos hp, wp_pure]
      subst hp
      exact ⟨rfl, hmax, rfl, hfits, h, Steady.refl⟩
    rw [if_neg hp]
    have hlen : 0 < p.length := List.length_pos_of_ne_nil hp
    by_cases hfbn : off / bSize < maxFile
    · rw [if_pos hfbn, wp_bind]
      have hstep := @atMost_step off p.length hlen
      refine wp_mono (blockFor_spec h hi hi' hn hfits hfbn) ?_ ?_
      · rintro ⟨d, x⟩ t ⟨hsteady, htlen, htype, hfound⟩
        dsimp only at htype hfound ⊢
        rw [wp_bind]
        rcases hfound with ⟨hpast, hend⟩ | ⟨hmade, hdfits, k, hk, href⟩
        · apply wp_rsect_past
          · rw [htlen]
            exact hpast
          · intro e
            right
            omega
        obtain ⟨hlow, -, hbelow, -⟩ := hmade.ref_lt href
        apply wp_rsect hbelow
        rw [wp_bind]
        apply wp_wsect hbelow
        generalize hn1 : min p.length ((off / bSize + 1) * bSize - off) = n1 at hstep ⊢
        have hroom : off + n1 ≤ (off / bSize + 1) * bSize := by
          simp only [bSize] at hn1 ⊢
          omega
        have hpos : 0 < n1 := by
          simp only [bSize] at hn1
          omega
        have hmax' : off + n1 ≤ maxFile * bSize := hroom.trans (Nat.mul_le_mul_right _ hfbn)
        have hput := Steady.put (s := t) (v := (t.image x).patch (off - off / bSize * bSize) n1 (fun i => p.getD i 0)) hlow
        have hmade' := hmade.put_data (v := (t.image x).patch (off - off / bSize * bSize) n1 (fun i => p.getD i 0)) href hk
        rw [← held_congr hput.disk] at hmade'
        have hsteady' := hsteady.trans hput
        have hmore := ih (p := p.drop n1) (hmade'.resize (fun j bn => (sized_step hpos hroom j bn).trans (or_congr_left (sized_held hsteady'.disk j bn))))
          (by rw [hsteady'.inode]; exact hi') hdfits hmax' (by rw [List.length_drop]; omega)
        rw [List.length_drop] at hmore
        have hblock := hsteady'.block
        refine wp_mono hmore ?_ ?_
        · intro r u hr
          refine ⟨?_, hr.max, hr.type.trans htype, hr.fits, hr.made, ?_⟩
          · rw [hr.ends]
            omega
          · rw [hstep]
            exact hsteady'.trans hr.steady
        · rintro e (he | he)
          · left
            omega
          · right
            omega
      · intro e he
        right
        omega
    · rw [if_neg hfbn, wp_throw]
      refine Or.inl ?_
      have := Nat.mul_le_mul_right bSize (Nat.le_of_not_lt hfbn)
      have := Nat.div_mul_le_self off bSize
      omega

end Xv6.Mkfs
