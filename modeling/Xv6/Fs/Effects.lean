import Xv6.Fs.Refinement

namespace Xv6.Fs

open Lib Hoare
open Function (update update_of_ne update_self update_eq_self)

variable (sb : Superblock)

structure Attr where
  type : ℕ
  major : ℕ
  minor : ℕ
  nlink : ℕ
  deriving DecidableEq

def Dinode.attr (d : Dinode) : Attr := ⟨d.type, d.major, d.minor, d.nlink⟩

def attr (s : FsState) (i : ℕ) : Attr := (disk sb s.cache i).attr

variable {sb} {s t : FsState} {ip jp : Fin nInode}

theorem contents_of_cache (h : t.cache = s.cache) : contents sb t = contents sb s := by
  funext i
  exact contents_congr (by rw [h]) (fun o => by rw [h])

theorem attr_of_cache (h : t.cache = s.cache) : attr sb t = attr sb s := by
  funext i
  rw [attr, attr, h]

def FsState.load (sb : Superblock) (s : FsState) (ip : Fin nInode) : FsState :=
  ⟨s.cache, s.saved, update s.itable ip
    ⟨disk sb s.cache (s.itable ip).inum, (s.itable ip).inum, (s.itable ip).ref, true⟩⟩

theorem FsInv.load (h : FsInv sb s) (hr : 0 < (s.itable ip).ref)
    (ht : (disk sb s.cache (s.itable ip).inum).type ≠ 0) : FsInv sb (s.load sb ip) :=
  h.setInode rfl rfl rfl (fun _ => ⟨(h.table ip hr).1, fun _ => ⟨rfl, ht⟩, h.ne_inum hr⟩)

theorem FsInv.load_eq (h : FsInv sb s) (hr : 0 < (s.itable ip).ref) (hv : (s.itable ip).valid = true) :
    s.load sb ip = s := by
  obtain ⟨hd, -⟩ := (h.table ip hr).2 hv
  have hself : (⟨disk sb s.cache (s.itable ip).inum, (s.itable ip).inum, (s.itable ip).ref, true⟩ : Inode) =
      s.itable ip := by
    rw [← hd, ← hv]
  unfold FsState.load
  rw [hself, update_eq_self]

theorem ilock_effect (h : FsInv sb s) (hr : 0 < (s.itable ip).ref)
    (ht : (disk sb s.cache (s.itable ip).inum).type ≠ 0) {E : String → Prop} {Q : Unit → FsState → Prop}
    (hQ : Q () (s.load sb ip)) : wp (ilock sb ip) s Q E := by
  simp only [ilock, inode, wp_bind, wp_get, wp_pure, wp_ite]
  rw [if_neg (by omega)]
  split_ifs with hv
  · rw [h.load_eq hr hv] at hQ
    exact hQ
  · have hd : disk sb s.cache (s.itable ip).inum =
        readDinode (s.cache (sb.iblock (s.itable ip).inum)) ((s.itable ip).inum % ipb) :=
      if_pos (h.table ip hr).1
    simp only [bread, setInode, wp_bind, wp_get, wp_pure, wp_modify]
    rw [hd] at ht
    rw [if_neg ht]
    rw [FsState.load, hd] at hQ
    exact hQ

structure Dropped (sb : Superblock) (s t : FsState) (ip : Fin nInode) : Prop where
  inv : FsInv sb t
  other : ∀ jp ≠ ip, t.itable jp = s.itable jp
  inum : (t.itable ip).inum = (s.itable ip).inum
  ref : (t.itable ip).ref = (s.itable ip).ref - 1
  kept : ¬ ((s.itable ip).ref = 1 ∧ (s.itable ip).valid = true ∧ (s.itable ip).nlink = 0) →
    t.cache = s.cache ∧ t.itable ip = { s.itable ip with ref := (s.itable ip).ref - 1 }
  freed : (s.itable ip).ref = 1 ∧ (s.itable ip).valid = true ∧ (s.itable ip).nlink = 0 →
    contents sb t = update (contents sb s) (s.itable ip).inum [] ∧
      ∃ a : Attr, a.type = 0 ∧ attr sb t = update (attr sb s) (s.itable ip).inum a

theorem iput_effect (h : FsInv sb s) (hr : 0 < (s.itable ip).ref) {E : String → Prop} :
    wp (iput sb ip) s (fun _ t => Dropped sb s t ip) E := by
  have hdrop {u : FsState} (hu : FsInv sb u) (hru : 0 < (u.itable ip).ref) :
      FsInv sb ⟨u.cache, u.saved, update u.itable ip
        { u.itable ip with ref := (u.itable ip).ref - 1 }⟩ :=
    hu.setInode rfl rfl rfl (fun _ => ⟨(hu.table ip hru).1, (hu.table ip hru).2, hu.ne_inum hru⟩)
  simp only [iput, inode, wp_bind, wp_get, wp_pure, wp_ite]
  split_ifs with hlast
  · refine wp_mono (ifree_spec h hr hlast.2.1) ?_ (fun _ he => he)
    intro _ u hu
    obtain ⟨d, hd⟩ := hu.table
    obtain ⟨d', htype, hsize, hdisk⟩ := hu.disk
    simp only [setInode, wp_modify]
    refine ⟨hdrop hu.inv (by rw [hu.ref]; exact hr), fun jp hj => ?_, ?_, ?_, fun hn => absurd hlast hn,
      fun _ => ⟨?_, d'.attr, htype, ?_⟩⟩
    · rw [← update_of_ne hj _ s.itable, ← hd]
      exact update_of_ne hj _ _
    · dsimp only
      rw [update_self, hd, update_self]
    · dsimp only
      rw [update_self, hu.ref]
    · funext i
      by_cases hi : i = (s.itable ip).inum
      · rw [hi, update_self]
        apply List.eq_nil_of_length_eq_zero
        rw [length_contents, hdisk, update_self, hsize]
      · rw [update_of_ne hi]
        apply contents_congr
        · rw [hdisk, update_of_ne hi]
        · exact hu.bytes i hi
    · funext i
      rw [attr, hdisk]
      by_cases hi : i = (s.itable ip).inum
      · rw [hi, update_self, update_self]
      · rw [update_of_ne hi, update_of_ne hi, attr]
  · simp only [setInode, wp_modify]
    refine ⟨hdrop h hr, fun jp hj => update_of_ne hj _ _, ?_, ?_, fun _ => ⟨rfl, ?_⟩,
      fun hl => absurd hl hlast⟩
    all_goals
      dsimp only
      rw [update_self]

def writeAt (l : List UInt8) (off : ℕ) (data : List UInt8) : List UInt8 :=
  if off ≤ l.length ∧ off + data.length ≤ maxFile * bSize then overwrite l off data else l

structure WroteTo (sb : Superblock) (s t : FsState) (ip : Fin nInode) (off : ℕ) (data : List UInt8) : Prop where
  inv : FsInv sb t
  table : ∀ jp, (t.itable jp).ref = (s.itable jp).ref ∧ (t.itable jp).inum = (s.itable jp).inum ∧
    (t.itable jp).valid = (s.itable jp).valid
  contents : contents sb t = update (contents sb s) (s.itable ip).inum
    (writeAt (contents sb s (s.itable ip).inum) off data)
  attr : attr sb t = attr sb s

theorem writei_effect {byte : ℕ → UInt8} {off n : ℕ} (h : FsInv sb s) (hr : 0 < (s.itable ip).ref)
    (hv : (s.itable ip).valid = true) (hoff : off < 2 ^ 32) (hn : n < 2 ^ 32) :
    wp (writei sb ip (Src.kernel byte) off n) s
      (fun r t => WroteTo sb s t ip off ((List.range n).map byte) ∧
        r = if off ≤ (contents sb s (s.itable ip).inum).length ∧ off + n ≤ maxFile * bSize then (n : ℤ) else -1)
      (fun e => e = "balloc: out of blocks" ∧ off ≤ (contents sb s (s.itable ip).inum).length ∧
        off + n ≤ maxFile * bSize ∧ freeBlocks sb s.cache < lacking sb s ip (touched off n)) := by
  obtain ⟨hd, hty⟩ := (h.table ip hr).2 hv
  have hlen : (contents sb s (s.itable ip).inum).length = (s.itable ip).size := by
    rw [length_contents, ← hd]
  refine wp_mono (writei_spec h hr hv hoff hn) ?_ ?_
  · intro r t ht
    rw [hlen]
    split_ifs at ht ⊢ with hfit
    · obtain ⟨tot, rfl, hw⟩ := ht
      obtain ⟨a, ha⟩ := hw.table
      have hself : t.itable ip = ((s.itable ip).withAddrs a).withSize (max (s.itable ip).size (off + tot)) := by
        rw [ha, update_self]
      have hinum : (t.itable ip).inum = (s.itable ip).inum := by rw [hself]; rfl
      have hd' : (t.itable ip).toDinode = disk sb t.cache (s.itable ip).inum := by
        rw [← hinum]
        apply ((hw.inv.table ip _).2 _).1
        · rw [hself]
          exact hr
        · rw [hself]
          exact hv
      obtain ⟨rfl, hcon⟩ := hw.contents hd' hd hfit.1
      refine ⟨⟨hw.inv, fun jp => ?_, ?_, ?_⟩, rfl⟩
      · rw [ha]
        by_cases hj : jp = ip
        · rw [hj, update_self]
          exact ⟨rfl, rfl, rfl⟩
        · rw [update_of_ne hj]
          exact ⟨rfl, rfl, rfl⟩
      · rw [hcon, writeAt, if_pos]
        rw [hlen, List.length_map, List.length_range]
        exact hfit
      · funext i
        by_cases hi : i = (s.itable ip).inum
        · rw [attr, attr, hi, ← hd', ← hd, hself]
          rfl
        · rw [attr, attr, hw.others i hi]
    · obtain ⟨rfl, rfl⟩ := ht
      refine ⟨⟨h, fun _ => ⟨rfl, rfl, rfl⟩, ?_, rfl⟩, rfl⟩
      rw [writeAt, if_neg, update_eq_self]
      rw [hlen, List.length_map, List.length_range]
      exact hfit
  · rintro e ⟨he, hfit, hlack⟩
    rw [hlen]
    exact ⟨he, hfit.1, hfit.2, hlack⟩

theorem readi_effect {off n : ℕ} (h : FsInv sb s) (hr : 0 < (s.itable ip).ref) (hv : (s.itable ip).valid = true)
    (hoff : off < 2 ^ 32) (hn : n < 2 ^ 32 - maxFile * bSize) {E : String → Prop}
    {Q : ℤ × List UInt8 → FsState → Prop}
    (hQ : Q ((((contents sb s (s.itable ip).inum).drop off).take n).length,
      ((contents sb s (s.itable ip).inum).drop off).take n) s) :
    wp (readi sb ip (fun _ => false) off n) s Q E := by
  obtain ⟨hd, hty⟩ := (h.table ip hr).2 hv
  have hlen : (contents sb s (s.itable ip).inum).length = (s.itable ip).size := by
    rw [length_contents, ← hd]
  have hmax : (s.itable ip).size ≤ maxFile * bSize := by
    rw [hd]
    exact (h.full _ (h.table ip hr).1 (hd ▸ hty)).1
  refine wp_mono (readi_spec h hr hv hoff (by omega)) ?_ (fun _ he => he.elim)
  rintro ⟨r, data⟩ t ⟨rfl, hr'⟩
  split_ifs at hr' with hfit
  · obtain ⟨m, -, hdata, hex⟩ := hr'
    obtain ⟨hrm, hm⟩ := hex (fun _ => rfl)
    have hb : bytesFrom sb t (t.itable ip).inum off m = ((contents sb t (t.itable ip).inum).drop off).take n := by
      rw [hm, hd, bytesFrom_eq]
    dsimp only at hdata hrm
    rw [← hb, ← hdata] at hQ
    have hl : data.length = m := by
      rw [hdata]
      simp [bytesFrom]
    rw [hl, ← hrm] at hQ
    exact hQ
  · have hnil : (contents sb t (t.itable ip).inum).drop off = [] := by
      apply List.drop_eq_nil_of_le
      omega
    rw [hnil, List.take_nil] at hQ
    cases hr'
    exact hQ

end Xv6.Fs
