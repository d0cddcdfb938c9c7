import Xv6.Fs.Inode
import Xv6.Lib.Owned

namespace Xv6.Fs

open Lib Hoare
open Function (update update_of_ne update_self)

inductive Slot
  | direct (k : Fin nDirect)
  | indirect
  | entry (j : Fin nIndirect)
  deriving DecidableEq

def slot (cache : ℕ → Block) (d : Dinode) : Slot → ℕ
  | .direct k => d.addrs k.castSucc
  | .indirect => d.addrs (Fin.last nDirect)
  | .entry j =>
    if d.addrs (Fin.last nDirect) = 0 then 0 else (cache (d.addrs (Fin.last nDirect))).le (4 * j) 4

def dataSlot (bn : ℕ) : Option Slot :=
  if h : bn < nDirect then some (.direct ⟨bn, h⟩)
  else if h : bn - nDirect < nIndirect then some (.entry ⟨bn - nDirect, h⟩)
  else none

def blockOf (cache : ℕ → Block) (d : Dinode) (bn : ℕ) : ℕ := (dataSlot bn).elim 0 (slot cache d)

variable (sb : Superblock)

def Used (cache : ℕ → Block) (b : ℕ) : Prop := Bitmap.isClear (cache (sb.bblock b)) (b % bpb) = false

instance (cache : ℕ → Block) (b : ℕ) : Decidable (Used sb cache b) :=
  inferInstanceAs (Decidable (_ = _))

def refs (cache : ℕ → Block) (D : ℕ → Dinode) (x : ℕ × Slot) : Option ℕ :=
  if x.1 < sb.ninodes ∧ (D x.1).type ≠ 0 ∧ slot cache (D x.1) x.2 ≠ 0 then
    some (slot cache (D x.1) x.2)
  else none

structure Owns (cache : ℕ → Block) (D : ℕ → Dinode) (pend : Set ℕ) : Prop where
  owned : Owned sb.InData (Used sb cache) (refs sb cache D) pend
  reserved : ∀ b < sb.dataStart, Used sb cache b

def disk (cache : ℕ → Block) (i : ℕ) : Dinode :=
  if i < sb.ninodes then readDinode (cache (sb.iblock i)) (i % ipb) else .zero

variable {sb} {cache cache' : ℕ → Block} {D D' : ℕ → Dinode} {pend : Set ℕ} {b i : ℕ}

theorem refs_eq_some {x : ℕ × Slot} : refs sb cache D x = some b ↔
    x.1 < sb.ninodes ∧ (D x.1).type ≠ 0 ∧ slot cache (D x.1) x.2 = b ∧ b ≠ 0 := by
  unfold refs
  split_ifs with h
  · rw [Option.some.injEq]
    constructor
    · rintro rfl
      exact ⟨h.1, h.2.1, rfl, h.2.2⟩
    · exact fun hb => hb.2.2.1
  · simp only [false_iff]
    rintro ⟨h₁, h₂, rfl, h₃⟩
    exact h ⟨h₁, h₂, h₃⟩

theorem refs_of_slot {k : Slot} (hi : i < sb.ninodes) (ht : (D i).type ≠ 0) :
    refs sb cache D (i, k) = if slot cache (D i) k = 0 then none else some (slot cache (D i) k) := by
  unfold refs
  split_ifs <;> simp_all

theorem slot_congr {d : Dinode}
    (h : d.addrs (Fin.last nDirect) ≠ 0 →
      cache' (d.addrs (Fin.last nDirect)) = cache (d.addrs (Fin.last nDirect))) (k : Slot) :
    slot cache' d k = slot cache d k := by
  cases k with
  | direct k => rfl
  | indirect => rfl
  | entry j =>
    unfold slot
    split_ifs with h0
    · rfl
    · rw [h h0]

theorem refs_congr (h : ∀ i b, refs sb cache D (i, .indirect) = some b → cache' b = cache b)
    (x : ℕ × Slot) : refs sb cache' D x = refs sb cache D x := by
  by_cases ha : x.1 < sb.ninodes ∧ (D x.1).type ≠ 0
  · have hs : slot cache' (D x.1) x.2 = slot cache (D x.1) x.2 := slot_congr
      (fun h0 => h x.1 _ (refs_eq_some.mpr ⟨ha.1, ha.2, rfl, h0⟩)) x.2
    simp only [refs, hs]
  · have : ∀ c : ℕ → Block, refs sb c D x = none := fun c => if_neg (fun hx => ha ⟨hx.1, hx.2.1⟩)
    rw [this, this]

theorem lt_size_of_lt_dataStart {c : ℕ} (h : c < sb.dataStart) : c < sb.size := by
  have := sb.bitmap_before
  unfold Superblock.dataStart at h
  omega

theorem used_congr (h : cache' (sb.bblock b) = cache (sb.bblock b)) :
    Used sb cache' b ↔ Used sb cache b := by
  simp only [Used, h]

namespace Owns

theorem inData (h : Owns sb cache D pend) {x : ℕ × Slot} (hx : refs sb cache D x = some b) :
    sb.InData b := h.owned.inPool x b hx

theorem inData_of_free (h : Owns sb cache D pend) (hb : b < sb.size) (hu : ¬ Used sb cache b) :
    sb.InData b := by
  refine ⟨?_, hb⟩
  by_contra hlt
  exact hu (h.reserved b (by omega))

theorem frame (h : Owns sb cache D pend) {x : ℕ} (v : Block) (hb : ∀ b < sb.size, sb.bblock b ≠ x)
    (hx : ∀ i, refs sb cache D (i, .indirect) ≠ some x) :
    Owns sb (update cache x v) D pend := by
  have hu (b : ℕ) (hs : b < sb.size) : Used sb (update cache x v) b ↔ Used sb cache b :=
    used_congr (update_of_ne (hb b hs) _ _)
  refine ⟨h.owned.congr (fun b hd => hu b hd.2) (refs_congr ?_), fun b hlt => ?_⟩
  · intro i b hi
    exact update_of_ne (by rintro rfl; exact hx i hi) _ _
  · exact (hu b (lt_size_of_lt_dataStart hlt)).mpr (h.reserved b hlt)

end Owns

variable (sb) in
def markUsed (cache : ℕ → Block) (b : ℕ) : ℕ → Block :=
  update cache (sb.bblock b) (Bitmap.set (cache (sb.bblock b)) (b % bpb))

variable (sb) in
def markFree (cache : ℕ → Block) (b : ℕ) : ℕ → Block :=
  update cache (sb.bblock b) (Bitmap.reset (cache (sb.bblock b)) (b % bpb))

theorem mod_bpb_div (b : ℕ) : b % bpb / 8 < bSize := by
  simp only [bpb, bSize]
  omega

theorem eq_of_bblock {b c : ℕ} (h : sb.bblock c = sb.bblock b) : c % bpb = b % bpb ↔ c = b := by
  simp only [Superblock.bblock, bpb, bSize] at *
  omega

theorem used_markUsed {c : ℕ} : Used sb (markUsed sb cache b) c ↔ c = b ∨ Used sb cache c := by
  unfold Used markUsed
  by_cases h : sb.bblock c = sb.bblock b
  · rw [h, update_self, ← Bool.not_eq_true, ← Bool.not_eq_true,
      Bitmap.isClear_set (mod_bpb_div b), ← eq_of_bblock h]
    tauto
  · rw [update_of_ne h]
    exact (or_iff_right (by rintro rfl; exact h rfl)).symm

theorem used_markFree {c : ℕ} : Used sb (markFree sb cache b) c ↔ c ≠ b ∧ Used sb cache c := by
  unfold Used markFree
  by_cases h : sb.bblock c = sb.bblock b
  · rw [h, update_self, ← Bool.not_eq_true, ← Bool.not_eq_true,
      Bitmap.isClear_reset (mod_bpb_div b), not_or, ne_eq, ← eq_of_bblock h]
    tauto
  · rw [update_of_ne h]
    exact (and_iff_right (by rintro rfl; exact h rfl)).symm

variable (sb) in
def FsState.take (s : FsState) (b : ℕ) : FsState where
  cache := update (markUsed sb s.cache b) b (fun _ => 0)
  saved := update
    (update s.saved (sb.bblock b) (Bitmap.set (s.cache (sb.bblock b)) (b % bpb))) b (fun _ => 0)
  itable := s.itable

theorem ballocFrom_spec (s : FsState) (bs : List ℕ) (hbs : ∀ b ∈ bs, b % bpb = 0) :
    wp (ballocFrom sb bs) s
      (fun b t => b < sb.size ∧ ¬ Used sb s.cache b ∧ t = s.take sb b)
      (fun e => e = "balloc: out of blocks" ∧ ∀ b₀ ∈ bs, ∀ b, b₀ ≤ b → b < b₀ + bpb → b < sb.size →
        Used sb s.cache b) := by
  induction bs with
  | nil => exact ⟨rfl, by simp⟩
  | cons b₀ bs ih =>
    have h0 := hbs b₀ (by simp)
    have hsame {bi : ℕ} (hbi : bi < bpb) : sb.bblock (b₀ + bi) = sb.bblock b₀ ∧ (b₀ + bi) % bpb = bi := by
      simp only [Superblock.bblock, bpb, bSize] at *
      omega
    simp only [ballocFrom, bread, wp_bind, wp_get, wp_pure]
    split
    · rename_i bi hf
      have hlt : bi < bpb ∧ bi < sb.size - b₀ := by
        have := List.mem_of_find?_eq_some hf
        rw [List.mem_range] at this
        omega
      have hclear := List.find?_some hf
      obtain ⟨hb, hm⟩ := hsame hlt.1
      simp only [logWrite, bzero, wp_bind, wp_modify, wp_pure]
      refine ⟨by omega, ?_, ?_⟩
      · simp only [Used, hb, hm]
        simpa using hclear
      · simp only [FsState.take, markUsed, hb, hm]
    · rename_i hf
      refine wp_mono (ih (fun b hb => hbs b (by simp [hb]))) (fun _ _ h => h) ?_
      rintro e ⟨he, hall⟩
      refine ⟨he, fun b₁ hb₁ b hle hlt hs => ?_⟩
      rcases List.mem_cons.mp hb₁ with rfl | hb₁
      · obtain ⟨hb, hm⟩ := hsame (show b - b₁ < bpb by omega)
        rw [show b₁ + (b - b₁) = b by omega] at hb hm
        have hn := List.find?_eq_none.mp hf (b - b₁) (List.mem_range.mpr (by omega))
        simp only [Used, hb, hm]
        simpa using hn
      · exact hall b₁ hb₁ b hle hlt hs

theorem balloc_spec (s : FsState) :
    wp (balloc sb) s
      (fun b t => b < sb.size ∧ ¬ Used sb s.cache b ∧ t = s.take sb b)
      (fun e => e = "balloc: out of blocks" ∧ ∀ b < sb.size, Used sb s.cache b) := by
  refine wp_mono (ballocFrom_spec s _ ?_) (fun _ _ h => h) ?_
  · intro b hb
    obtain ⟨k, -, rfl⟩ := List.mem_map.mp hb
    exact Nat.mul_mod_left _ _
  · rintro e ⟨he, hall⟩
    refine ⟨he, fun b hb => hall (b / bpb * bpb) (List.mem_map.mpr ⟨b / bpb, ?_, rfl⟩) b ?_ ?_ hb⟩
    · rw [List.mem_range]
      simp only [bpb, bSize]
      omega
    · exact Nat.div_mul_le_self _ _
    · simp only [bpb, bSize]
      omega

variable (sb) in
def FsState.give (s : FsState) (b : ℕ) : FsState where
  cache := markFree sb s.cache b
  saved := update s.saved (sb.bblock b) (Bitmap.reset (s.cache (sb.bblock b)) (b % bpb))
  itable := s.itable

theorem bfree_spec {s : FsState} {Q : Unit → FsState → Prop} {E : String → Prop}
    (h : Used sb s.cache b) (hQ : Q () (s.give sb b)) : wp (bfree sb b) s Q E := by
  have hc : Bitmap.isClear (s.cache (sb.bblock b)) (b % bpb) = false := h
  simp only [bfree, bread, logWrite, wp_bind, wp_get, wp_pure, hc,
    Bool.false_eq_true, ↓reduceIte, wp_modify]
  exact hQ

def slotOf (k : Fin (nDirect + 1)) : Slot :=
  if h : k.val < nDirect then .direct ⟨k, h⟩ else .indirect

theorem slotOf_castSucc (k : Fin nDirect) : slotOf k.castSucc = .direct k := by
  simp [slotOf]

theorem slotOf_last : slotOf (Fin.last nDirect) = .indirect := by
  simp [slotOf]

theorem slot_slotOf (cache : ℕ → Block) (d : Dinode) (k : Fin (nDirect + 1)) :
    slot cache d (slotOf k) = d.addrs k := by
  cases k using Fin.lastCases with
  | last => rw [slotOf_last, slot]
  | cast k => rw [slotOf_castSucc, slot]

theorem slot_update {d : Dinode} {k : Fin (nDirect + 1)}
    (h : k = Fin.last nDirect → b ≠ 0 → d.addrs k = 0 ∧ cache b = fun _ => 0) {l : Slot}
    (hl : l ≠ slotOf k) (hz : k = Fin.last nDirect → b = 0 → d.addrs k = 0) :
    slot cache { d with addrs := update d.addrs k b } l = slot cache d l := by
  cases l with
  | direct l =>
    have : l.castSucc ≠ k := by
      rintro rfl
      exact hl (slotOf_castSucc l).symm
    simp [slot, update_of_ne this]
  | indirect =>
    have : Fin.last nDirect ≠ k := by
      rintro rfl
      exact hl slotOf_last.symm
    simp [slot, update_of_ne this]
  | entry j =>
    by_cases hk : Fin.last nDirect = k
    · subst hk
      by_cases hb : b = 0
      · simp [slot, hb, hz rfl hb]
      · obtain ⟨h0, hc⟩ := h rfl hb
        simp [slot, hb, h0, hc, Bytes.le_zero]
    · simp [slot, update_of_ne hk]

theorem refs_install_addr (hi : i < sb.ninodes) (ht : (D i).type ≠ 0) {k : Fin (nDirect + 1)}
    (hk : (D i).addrs k = 0) (hb : b ≠ 0) (hz : k = Fin.last nDirect → cache b = fun _ => 0) :
    refs sb cache (update D i { D i with addrs := update (D i).addrs k b }) =
      update (refs sb cache D) (i, slotOf k) (some b) := by
  funext ⟨j, l⟩
  by_cases hj : j = i
  · subst hj
    have ht' : (update D j { D j with addrs := update (D j).addrs k b } j).type ≠ 0 := by
      simpa using ht
    rw [refs_of_slot hi ht', update_self]
    by_cases hl : l = slotOf k
    · subst hl
      simp [slot_slotOf, hb]
    · rw [slot_update (fun hlast _ => ⟨hk, hz hlast⟩) hl (fun _ h0 => absurd h0 hb),
        update_of_ne (by simp [hl]), refs_of_slot hi ht]
  · rw [update_of_ne (by simp [hj])]
    simp only [refs, update_of_ne hj]

namespace Owns

theorem ne_bblock (h : Owns sb cache D pend) {x : ℕ × Slot} (hx : refs sb cache D x = some b) {c : ℕ}
    (hc : c < sb.size) : b ≠ sb.bblock c := by
  have := Superblock.bblock_mem hc
  have := (h.inData hx).1
  omega

theorem pos_of_pend (h : Owns sb cache D pend) (hb : b ∈ pend) : b ≠ 0 := by
  have := (h.owned.pending b hb).1.1
  have : sb.bmapstart < sb.dataStart := Superblock.bmapstart_lt
  omega

theorem refs_markUsed (h : Owns sb cache D pend) (hb : b < sb.size) :
    refs sb (markUsed sb cache b) D = refs sb cache D :=
  funext (refs_congr (fun _ _ hi => update_of_ne (h.ne_bblock hi hb) _ _))

theorem markUsed (h : Owns sb cache D pend) (hb : b < sb.size) (hu : ¬ Used sb cache b) :
    Owns sb (markUsed sb cache b) D (insert b pend) := by
  refine ⟨?_, fun c hc => used_markUsed.mpr (Or.inr (h.reserved c hc))⟩
  rw [h.refs_markUsed hb]
  exact h.owned.alloc (h.inData_of_free hb hu) hu (fun c _ => used_markUsed)

theorem take (h : Owns sb cache D pend) (hb : b < sb.size) (hu : ¬ Used sb cache b) :
    Owns sb (update (Fs.markUsed sb cache b) b (fun _ => 0)) D (insert b pend) ∧
      refs sb (update (Fs.markUsed sb cache b) b (fun _ => 0)) D = refs sb cache D := by
  have hdata := h.inData_of_free hb hu
  have hm := h.markUsed hb hu
  have hfresh (i : ℕ) := (hm.owned.pending b (Set.mem_insert _ _)).2 (i, .indirect)
  constructor
  · refine hm.frame _ (fun c hc => ?_) hfresh
    have := Superblock.bblock_mem hc
    have := hdata.1
    omega
  · rw [← h.refs_markUsed hb]
    exact funext (refs_congr (fun i c hi =>
      update_of_ne (by rintro rfl; exact hfresh i hi) _ _))

theorem install_addr (h : Owns sb cache D (insert b pend)) (hp : b ∉ pend) (hi : i < sb.ninodes)
    (ht : (D i).type ≠ 0) {k : Fin (nDirect + 1)} (hk : (D i).addrs k = 0)
    (hz : k = Fin.last nDirect → cache b = fun _ => 0) :
    Owns sb cache (update D i { D i with addrs := update (D i).addrs k b }) pend := by
  have hnone : refs sb cache D (i, slotOf k) = none := by
    rw [refs_of_slot hi ht, slot_slotOf, hk, if_pos rfl]
  refine ⟨h.owned.install hp hnone (fun y => ?_), h.reserved⟩
  rw [refs_install_addr hi ht hk (h.pos_of_pend (Set.mem_insert _ _)) hz]

theorem refs_install_entry (h : Owns sb cache D pend) (hi : i < sb.ninodes) (ht : (D i).type ≠ 0)
    {j : Fin nIndirect} {a : ℕ} (ha : (D i).addrs (Fin.last nDirect) = a) (ha0 : a ≠ 0) (hb : b ≠ 0)
    (hlt : b < 2 ^ 32) :
    refs sb (update cache a ((cache a).setLe (4 * j) 4 b)) D =
      update (refs sb cache D) (i, .entry j) (some b) := by
  have href : refs sb cache D (i, .indirect) = some a := refs_eq_some.mpr ⟨hi, ht, ha, ha0⟩
  have hj : j.val < 256 := j.isLt
  funext ⟨i', l⟩
  by_cases hi' : i' = i
  · subst hi'
    rw [refs_of_slot hi ht]
    cases l with
    | direct l =>
      rw [update_of_ne (by simp), refs_of_slot hi ht]
      rfl
    | indirect =>
      rw [update_of_ne (by simp), refs_of_slot hi ht]
      rfl
    | entry l =>
      by_cases hl : l = j
      · subst hl
        simp only [slot, ha, ha0, ↓reduceIte, update_self]
        rw [Bytes.le_setLe _ (by simp only [bSize]; omega), Nat.mod_eq_of_lt (show b < 256 ^ 4 by omega), if_neg hb]
      · have hne : l.val ≠ j.val := fun he => hl (Fin.ext he)
        rw [update_of_ne (by simp [hl]), refs_of_slot hi ht]
        simp only [slot, ha, ha0, ↓reduceIte, update_self]
        rw [Bytes.le_setLe_of_disjoint (by omega)]
  · rw [update_of_ne (by simp [hi'])]
    by_cases hc : i' < sb.ninodes ∧ (D i').type ≠ 0
    · have hs : slot (update cache a ((cache a).setLe (4 * j) 4 b)) (D i') l =
          slot cache (D i') l := by
        refine slot_congr (fun h0 => update_of_ne (fun hea => ?_) _ _) l
        have := h.owned.inj (i', .indirect) (i, .indirect) a
          (refs_eq_some.mpr ⟨hc.1, hc.2, hea, ha0⟩) href
        simp [hi'] at this
      simp only [refs, hs]
    · unfold refs
      rw [if_neg (fun hx => hc ⟨hx.1, hx.2.1⟩), if_neg (fun hx => hc ⟨hx.1, hx.2.1⟩)]

theorem install_entry (h : Owns sb cache D (insert b pend)) (hp : b ∉ pend) (hi : i < sb.ninodes)
    (ht : (D i).type ≠ 0) {j : Fin nIndirect} {a : ℕ} (ha : (D i).addrs (Fin.last nDirect) = a)
    (ha0 : a ≠ 0) (he : (cache a).le (4 * j) 4 = 0) :
    Owns sb (update cache a ((cache a).setLe (4 * j) 4 b)) D pend := by
  have hpend := (h.owned.pending b (Set.mem_insert _ _)).1
  have hlt : b < 2 ^ 32 := by
    have := hpend.2
    have := sb.size_lt
    omega
  have href : refs sb cache D (i, .indirect) = some a := refs_eq_some.mpr ⟨hi, ht, ha, ha0⟩
  have hnone : refs sb cache D (i, .entry j) = none := by
    rw [refs_of_slot hi ht]
    simp [slot, ha, he]
  have hused (c : ℕ) (hc : c < sb.size) :
      Used sb (update cache a ((cache a).setLe (4 * j) 4 b)) c ↔ Used sb cache c :=
    used_congr (update_of_ne (h.ne_bblock href hc).symm _ _)
  refine ⟨(h.owned.install hp hnone (fun y => ?_)).congr (fun c hc => hused c hc.2) (fun _ => rfl),
    fun c hc => (hused c (lt_size_of_lt_dataStart hc)).mpr (h.reserved c hc)⟩
  rw [h.refs_install_entry hi ht ha ha0 (h.pos_of_pend (Set.mem_insert _ _)) hlt]

end Owns

end Xv6.Fs
