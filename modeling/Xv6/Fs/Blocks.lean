import Xv6.Fs.Read
import Xv6.Fs.Trunc
import Xv6.Lib.Transition

namespace Xv6.Fs

open Lib Transition Hoare
open Function (update update_of_ne update_self update_apply update_eq_self update_idem)

variable (sb : Superblock)

def Inode.withMeta (i : Inode) (major minor nlink : ℕ) : Inode :=
  { i with major := major, minor := minor, nlink := nlink }

def setMeta (ip : Fin nInode) (major minor nlink : ℕ) : FsM Unit := do
  let i ← inode ip
  setInode ip (i.withMeta major minor nlink)
  iupdate sb ip

def evict (b : ℕ) : FsM Unit :=
  modify fun s => { s with cache := update s.cache b (s.saved b) }

inductive Call
  | ialloc (type : UInt16)
  | iget (inum : ℕ)
  | idup (ip : Fin nInode)
  | ilock (ip : Fin nInode)
  | iput (ip : Fin nInode)
  | setMeta (ip : Fin nInode) (major minor nlink : UInt16)
  | writei (ip : Fin nInode) (src : Src) (off n : UInt32)
  | readi (ip : Fin nInode) (fails : ℕ → Bool) (off n : UInt32)
  | itrunc (ip : Fin nInode)
  | evict (b : ℕ)

def Call.exec : Call → FsM Unit
  | .ialloc type => do let _ ← Fs.ialloc sb type.toNat
  | .iget inum => do let _ ← Fs.iget inum
  | .idup ip => Fs.idup ip
  | .ilock ip => Fs.ilock sb ip
  | .iput ip => Fs.iput sb ip
  | .setMeta ip major minor nlink => Fs.setMeta sb ip major.toNat minor.toNat nlink.toNat
  | .writei ip src off n => do let _ ← Fs.writei sb ip src off.toNat n.toNat
  | .readi ip fails off n => do let _ ← Fs.readi sb ip fails off.toNat n.toNat
  | .itrunc ip => Fs.itrunc sb ip
  | .evict b => Fs.evict b

/-- What the callers see to: the numbers in directories are those of inodes, an inode is used with a
reference to it, and locked when its contents are. -/
def Call.Ready (s : FsState) : Call → Prop
  | .iget inum => inum < sb.ninodes
  | .idup ip | .iput ip => 0 < (s.itable ip).ref
  | .setMeta ip _ _ _ | .writei ip _ _ _ | .readi ip _ _ _ | .itrunc ip =>
    0 < (s.itable ip).ref ∧ (s.itable ip).valid = true
  | .ialloc _ | .ilock _ | .evict _ => True

instance (s : FsState) (c : Call) : Decidable (c.Ready sb s) := by
  cases c <;> unfold Call.Ready <;> infer_instance

def fsStep (s : FsState) (c : Call) : Option FsState :=
  match c.exec sb s with
  | .ok (_, t) => some t
  | .error _ => none

def mount (image : ℕ → Block) : FsState where
  cache := image
  saved := image
  itable := fun _ => ⟨.zero, 0, 0, false⟩

def blankImage : ℕ → Block := (List.range sb.dataStart).foldl (markUsed sb) (fun _ _ => 0)

variable {sb} {s t u : FsState} {ip : Fin nInode} {i : Inode}

theorem mount_inv {image : ℕ → Block} (ho : Owns sb image (disk sb image) ∅)
    (hf : Full sb image (disk sb image)) : FsInv sb (mount image) :=
  ⟨ho, hf, fun _ h => absurd h (Nat.lt_irrefl 0), fun _ _ h => absurd h (Nat.lt_irrefl 0), fun _ _ => rfl⟩

theorem FsInv.setInode (h : FsInv sb s) (hcache : t.cache = s.cache) (hsaved : t.saved = s.saved)
    (htab : t.itable = update s.itable ip i)
    (hi : 0 < i.ref → i.inum < sb.ninodes ∧
      (i.valid = true → i.toDinode = disk sb s.cache i.inum ∧ i.type ≠ 0) ∧
      ∀ jp ≠ ip, 0 < (s.itable jp).ref → (s.itable jp).inum ≠ i.inum) : FsInv sb t := by
  have hself : t.itable ip = i := by rw [htab, update_self]
  have hother {jp : Fin nInode} (hj : jp ≠ ip) : t.itable jp = s.itable jp := by
    rw [htab, update_of_ne hj]
  refine ⟨by rw [hcache]; exact h.owns, by rw [hcache]; exact h.full, ?_, ?_, ?_⟩
  · intro jp hr
    rw [hcache]
    by_cases hj : jp = ip
    · subst hj
      rw [hself] at hr ⊢
      exact ⟨(hi hr).1, (hi hr).2.1⟩
    · rw [hother hj] at hr ⊢
      exact h.table jp hr
  · intro jp kp hr hr' he
    by_cases hj : jp = ip <;> by_cases hk : kp = ip
    · rw [hj, hk]
    · rw [hj, hself] at hr he
      rw [hother hk] at hr' he
      exact absurd he.symm ((hi hr).2.2 kp hk hr')
    · rw [hk, hself] at hr' he
      rw [hother hj] at hr he
      exact absurd he ((hi hr').2.2 jp hj hr)
    · rw [hother hj] at hr he
      rw [hother hk] at hr' he
      exact h.uniq jp kp hr hr' he
  · rw [hcache, hsaved]
    exact h.synced

theorem FsInv.ne_inum (h : FsInv sb s) (hr : 0 < (s.itable ip).ref) (jp : Fin nInode) (hj : jp ≠ ip)
    (hrj : 0 < (s.itable jp).ref) : (s.itable jp).inum ≠ (s.itable ip).inum :=
  fun he => hj (h.uniq jp ip hrj hr he)

theorem iget_spec {inum : ℕ} (h : FsInv sb s) (hi : inum < sb.ninodes) :
    wp (iget inum) s (fun _ t => FsInv sb t ∧ t.cache = s.cache) (fun e => e = "iget: no inodes") := by
  simp only [iget, wp_bind, wp_get]
  split
  · rename_i ip hf
    have hip := List.find?_some hf
    simp only [decide_eq_true_eq] at hip
    simp only [setInode, wp_bind, wp_modify, wp_pure]
    exact ⟨h.setInode rfl rfl rfl (fun _ => ⟨(h.table ip hip.1).1, (h.table ip hip.1).2, h.ne_inum hip.1⟩),
      trivial⟩
  · rename_i hf
    have hnone (jp : Fin nInode) (hr : 0 < (s.itable jp).ref) : (s.itable jp).inum ≠ inum := by
      have := List.find?_eq_none.mp hf jp (List.mem_finRange jp)
      simp only [decide_eq_true_eq, not_and] at this
      exact this hr
    split
    · rename_i ip _
      simp only [setInode, wp_bind, wp_modify, wp_pure]
      exact ⟨h.setInode rfl rfl rfl (fun _ => ⟨hi, by simp, fun jp _ hr => hnone jp hr⟩), trivial⟩
    · rfl

theorem idup_spec (h : FsInv sb s) (hr : 0 < (s.itable ip).ref) {E : String → Prop} :
    wp (idup ip) s (fun _ t => FsInv sb t ∧ t.cache = s.cache) E := by
  simp only [idup, inode, setInode, wp_bind, wp_get, wp_pure, wp_modify]
  exact ⟨h.setInode rfl rfl rfl (fun _ => ⟨(h.table ip hr).1, (h.table ip hr).2, h.ne_inum hr⟩), trivial⟩

theorem ilock_spec (h : FsInv sb s) :
    wp (ilock sb ip) s (fun _ t => FsInv sb t ∧ t.cache = s.cache)
      (fun e => e = "ilock" ∨ e = "ilock: no type") := by
  simp only [ilock, inode, wp_bind, wp_get, wp_pure, wp_ite]
  split_ifs with hr hv
  · exact Or.inl rfl
  · exact ⟨h, trivial⟩
  · have hr' : 0 < (s.itable ip).ref := by omega
    have hin := (h.table ip hr').1
    simp only [bread, setInode, wp_bind, wp_get, wp_pure, wp_modify]
    split_ifs with ht
    · exact Or.inr rfl
    · refine ⟨h.setInode rfl rfl rfl (fun _ => ⟨hin, fun _ => ⟨?_, ht⟩, h.ne_inum hr'⟩), trivial⟩
      unfold disk
      rw [if_pos hin]

theorem refs_update_of_none {cache : ℕ → Block} {D : ℕ → Dinode} {d : Dinode} {n : ℕ}
    (hold : ∀ k, refs sb cache D (n, k) = none) (hnew : d.type ≠ 0 → ∀ k, slot cache d k = 0) :
    refs sb cache (update D n d) = refs sb cache D := by
  funext ⟨j, k⟩
  by_cases hj : j = n
  · subst hj
    rw [hold, refs, if_neg]
    rintro ⟨-, ht, hs⟩
    rw [update_self] at ht hs
    exact hs (hnew ht k)
  · simp only [refs, update_of_ne hj]

theorem FsInv.replace (h : FsInv sb s) {n : ℕ} {d : Dinode} (hn : n < sb.ninodes) (hd : d.Fits)
    (hrefs : refs sb s.cache (update (disk sb s.cache) n d) = refs sb s.cache (disk sb s.cache))
    (hfull : d.type ≠ 0 → d.size ≤ maxFile * bSize ∧
      ∀ bn, bn * bSize < d.size → fileBlock sb s.cache (disk sb s.cache) n bn ≠ none)
    (hcache : t.cache = update s.cache (sb.iblock n)
      (writeDinode (s.cache (sb.iblock n)) (n % ipb) d))
    (hsaved : t.saved = update s.saved (sb.iblock n)
      (writeDinode (s.cache (sb.iblock n)) (n % ipb) d))
    (href : ∀ jp, (t.itable jp).ref = (s.itable jp).ref ∧ (t.itable jp).inum = (s.itable jp).inum)
    (htab : ∀ jp, 0 < (s.itable jp).ref → (t.itable jp).valid = true →
      (t.itable jp).toDinode = update (disk sb s.cache) n d (s.itable jp).inum ∧
        (t.itable jp).type ≠ 0) :
    Rewritten sb s t (update (disk sb s.cache) n d) := by
  have hblock (j bn : ℕ) : fileBlock sb s.cache (update (disk sb s.cache) n d) j bn =
      fileBlock sb s.cache (disk sb s.cache) j bn := by
    unfold fileBlock
    rw [hrefs]
  refine FsInv.of_iwrite hn hd rfl ⟨by rw [hrefs]; exact h.owns.owned, h.owns.reserved⟩ ?_ ?_ hcache hsaved ?_ ?_
  · intro j hj ht
    simp only [hblock]
    by_cases hjn : j = n
    · subst hjn
      rw [update_self] at ht ⊢
      exact hfull ht
    · rw [update_of_ne hjn] at ht ⊢
      exact h.full j hj ht
  · intro b hb
    simp only [Indirect, hrefs] at hb
    exact h.synced b hb
  · intro jp hr
    rw [(href jp).1] at hr
    rw [(href jp).2]
    exact ⟨(h.table jp hr).1, htab jp hr⟩
  · intro jp kp
    rw [(href jp).1, (href kp).1, (href jp).2, (href kp).2]
    exact h.uniq jp kp

theorem iallocFrom_spec {type : ℕ} {inums : List ℕ} (h : FsInv sb s) (ht : type < 2 ^ 16)
    (hin : ∀ n ∈ inums, n < sb.ninodes) :
    wp (iallocFrom sb type inums) s
      (fun _ t => FsInv sb t ∧ refs sb t.cache (disk sb t.cache) = refs sb s.cache (disk sb s.cache))
      (fun e => e = "iget: no inodes" ∨ e = "ialloc: no inodes") := by
  induction inums with
  | nil => exact Or.inr rfl
  | cons n inums ih =>
    have hn := hin n (by simp)
    simp only [iallocFrom, bread, wp_bind, wp_get, wp_pure, wp_ite]
    split_ifs with h0
    · have hd0 : (disk sb s.cache n).type = 0 := by rw [disk, if_pos hn, h0]
      have hrefs : refs sb s.cache (update (disk sb s.cache) n { Dinode.zero with type := type }) =
          refs sb s.cache (disk sb s.cache) := by
        refine refs_update_of_none (fun k => ?_) (fun _ k => ?_)
        · rw [refs, if_neg (fun hx => hx.2.1 hd0)]
        · cases k <;> rfl
      have hfits : ({ Dinode.zero with type := type } : Dinode).Fits :=
        ⟨ht, Nat.two_pow_pos 16, Nat.two_pow_pos 16, Nat.two_pow_pos 16, Nat.two_pow_pos 32,
          fun _ => Nat.two_pow_pos 32⟩
      simp only [logWrite, wp_modify]
      suffices hgo : ∀ u : FsState, Rewritten sb s u
          (update (disk sb s.cache) n { Dinode.zero with type := type }) →
          wp (iget n) u (fun _ t => FsInv sb t ∧
            refs sb t.cache (disk sb t.cache) = refs sb s.cache (disk sb s.cache))
            (fun e => e = "iget: no inodes" ∨ e = "ialloc: no inodes") by
        refine hgo _ (h.replace hn hfits hrefs ?_ rfl rfl (fun _ => ⟨rfl, rfl⟩) ?_)
        · exact fun _ => ⟨Nat.zero_le _, fun bn hbn => absurd hbn (Nat.not_lt_zero _)⟩
        · intro jp hr hv
          obtain ⟨hd, hty⟩ := (h.table jp hr).2 hv
          refine ⟨?_, hty⟩
          rw [update_of_ne, hd]
          intro hjn
          rw [hd, hjn] at hty
          exact hty hd0
      intro u hu
      refine wp_mono (iget_spec hu.inv hn) ?_ (fun _ he => Or.inl he)
      rintro _ v ⟨hv, hc⟩
      refine ⟨hv, ?_⟩
      rw [hc, hu.disk, hu.refs, hrefs]
    · exact ih (fun m hm => hin m (by simp [hm]))

theorem ialloc_spec {type : ℕ} (h : FsInv sb s) (ht : type < 2 ^ 16) :
    wp (ialloc sb type) s
      (fun _ t => FsInv sb t ∧ refs sb t.cache (disk sb t.cache) = refs sb s.cache (disk sb s.cache))
      (fun e => e = "iget: no inodes" ∨ e = "ialloc: no inodes") := by
  refine iallocFrom_spec h ht (fun n hn => ?_)
  rw [List.mem_range'_1] at hn
  omega

theorem setMeta_spec {major minor nlink : ℕ} (h : FsInv sb s) (hr : 0 < (s.itable ip).ref)
    (hv : (s.itable ip).valid = true) (hma : major < 2 ^ 16) (hmi : minor < 2 ^ 16) (hnl : nlink < 2 ^ 16)
    {E : String → Prop} :
    wp (setMeta sb ip major minor nlink) s
      (fun _ t => FsInv sb t ∧ refs sb t.cache (disk sb t.cache) = refs sb s.cache (disk sb s.cache)) E := by
  obtain ⟨hin, hval⟩ := h.table ip hr
  obtain ⟨hd, hty⟩ := hval hv
  have hfits := (h.op hr hv).fits
  have hrefs {d : Dinode} (ht : d.type = (s.itable ip).type) (ha : d.addrs = (s.itable ip).addrs) :
      refs sb s.cache (update (disk sb s.cache) (s.itable ip).inum d) =
        refs sb s.cache (disk sb s.cache) := by
    apply refs_congr_inodes
    intro j
    by_cases hj : j = (s.itable ip).inum
    · rw [hj, update_self, ← hd]
      exact ⟨ht, ha⟩
    · rw [update_of_ne hj]
      exact ⟨rfl, rfl⟩
  have hfull := h.full _ hin (by rw [← hd]; exact hty)
  rw [← hd] at hfull
  simp only [setMeta, iupdate, inode, setInode, bread, logWrite, wp_bind, wp_get, wp_pure,
    wp_modify, update_self]
  suffices hgo : ∀ u : FsState,
      u.itable = update s.itable ip ((s.itable ip).withMeta major minor nlink) →
      u.cache = update s.cache (sb.iblock (s.itable ip).inum)
        (writeDinode (s.cache (sb.iblock (s.itable ip).inum)) ((s.itable ip).inum % ipb)
          ((s.itable ip).withMeta major minor nlink).toDinode) →
      u.saved = update s.saved (sb.iblock (s.itable ip).inum)
        (writeDinode (s.cache (sb.iblock (s.itable ip).inum)) ((s.itable ip).inum % ipb)
          ((s.itable ip).withMeta major minor nlink).toDinode) →
      FsInv sb u ∧ refs sb u.cache (disk sb u.cache) = refs sb s.cache (disk sb s.cache) from
    hgo _ rfl rfl rfl
  intro u htab hcache hsaved
  have hw := h.replace (d := ((s.itable ip).withMeta major minor nlink).toDinode) hin
    ⟨hfits.type, hma, hmi, hnl, hfits.size, hfits.addrs⟩ (hrefs rfl rfl) (fun _ => hfull) hcache hsaved ?_ ?_
  · exact ⟨hw.inv, by rw [hw.disk, hw.refs]; exact hrefs rfl rfl⟩
  · intro jp
    by_cases hj : jp = ip
    · rw [hj, htab, update_self]
      exact ⟨rfl, rfl⟩
    · rw [htab, update_of_ne hj]
      exact ⟨rfl, rfl⟩
  · intro jp hrj
    by_cases hj : jp = ip
    · rw [hj, htab, update_self, update_self]
      exact fun _ => ⟨rfl, hty⟩
    · rw [htab, update_of_ne hj, update_of_ne (h.ne_inum hr jp hj hrj)]
      exact (h.table jp hrj).2

variable (sb) in
structure Removed (s t : FsState) (ip : Fin nInode) : Prop where
  inv : FsInv sb t
  ref : (t.itable ip).ref = (s.itable ip).ref
  gone : ∀ k, refs sb t.cache (disk sb t.cache) ((s.itable ip).inum, k) = none
  kept : ∀ x, x.1 ≠ (s.itable ip).inum →
    refs sb t.cache (disk sb t.cache) x = refs sb s.cache (disk sb s.cache) x
  disk : ∃ d : Dinode, d.type = 0 ∧ d.size = 0 ∧
    disk sb t.cache = update (disk sb s.cache) (s.itable ip).inum d
  bytes : ∀ i ≠ (s.itable ip).inum, ∀ o,
    byteOf sb t.cache (Fs.disk sb t.cache) i o = byteOf sb s.cache (Fs.disk sb s.cache) i o
  table : ∃ d : Dinode,
    t.itable = update s.itable ip ⟨d, (s.itable ip).inum, (s.itable ip).ref, false⟩

theorem ifree_spec (h : FsInv sb s) (hr : 0 < (s.itable ip).ref) (hv : (s.itable ip).valid = true)
    {E : String → Prop} : wp (ifree sb ip) s (fun _ t => Removed sb s t ip) E := by
  simp only [ifree, wp_bind]
  refine wp_mono (itrunc_spec h hr hv) (fun _ t ht => ?_) (fun _ he => he)
  have hself : t.itable ip = ((s.itable ip).withAddrs (fun _ => 0)).withSize 0 := by
    rw [ht.table, update_self]
  have hr' : 0 < (t.itable ip).ref := by rw [hself]; exact hr
  have hv' : (t.itable ip).valid = true := by rw [hself]; exact hv
  have hinum : (t.itable ip).inum = (s.itable ip).inum := by rw [hself]; rfl
  have hfits := (ht.inv.op hr' hv').fits
  have hrefs {d : Dinode} (hd : d.type = 0) :
      refs sb t.cache (update (disk sb t.cache) (t.itable ip).inum d) =
        refs sb t.cache (disk sb t.cache) :=
    refs_update_of_none (fun k => by rw [hinum]; exact ht.gone k) (fun hne => absurd hd hne)
  simp only [iupdate, inode, setInode, bread, logWrite, wp_bind, wp_get, wp_pure,
    wp_modify, update_self, update_idem]
  suffices hgo : ∀ (d : Dinode) (u : FsState), d.type = 0 → d.size = 0 → d.Fits →
      u.itable = update t.itable ip ⟨d, (t.itable ip).inum, (t.itable ip).ref, false⟩ →
      u.cache = update t.cache (sb.iblock (t.itable ip).inum)
        (writeDinode (t.cache (sb.iblock (t.itable ip).inum)) ((t.itable ip).inum % ipb) d) →
      u.saved = update t.saved (sb.iblock (t.itable ip).inum)
        (writeDinode (t.cache (sb.iblock (t.itable ip).inum)) ((t.itable ip).inum % ipb) d) →
      Removed sb s u ip from
    hgo ⟨0, (t.itable ip).major, (t.itable ip).minor, (t.itable ip).nlink, (t.itable ip).size,
      (t.itable ip).addrs⟩ _ rfl (by rw [hself]; rfl) ⟨Nat.two_pow_pos 16, hfits.major, hfits.minor, hfits.nlink, hfits.size,
      hfits.addrs⟩ rfl rfl rfl
  intro d u hd0 hsize hd htab hcache hsaved
  have huself : u.itable ip = ⟨d, (t.itable ip).inum, (t.itable ip).ref, false⟩ := by
    rw [htab, update_self]
  have hw := ht.inv.replace (ht.inv.table ip hr').1 hd (hrefs hd0) (fun hne => absurd hd0 hne) hcache hsaved
    ?_ ?_
  · have hall : refs sb u.cache (disk sb u.cache) = refs sb t.cache (disk sb t.cache) := by
      rw [hw.disk, hw.refs, hrefs hd0]
    refine ⟨hw.inv, by rw [huself, hself]; rfl, by rw [hall]; exact ht.gone, by rw [hall]; exact ht.kept,
      ⟨d, hd0, hsize, ?_⟩, fun i hi o => ?_, ⟨d, ?_⟩⟩
    · rw [hw.disk, ht.disk, hinum, update_idem]
    · rw [hw.disk, hw.bytes, ← ht.bytes i hi]
      exact byteOf_congr (fun k _ => by rw [hrefs hd0]) (fun _ _ _ _ => rfl) o
    · rw [htab, ht.table, update_idem, update_self]
      rfl
  · intro jp
    by_cases hj : jp = ip
    · rw [hj, huself]
      exact ⟨rfl, rfl⟩
    · rw [htab, update_of_ne hj]
      exact ⟨rfl, rfl⟩
  · intro jp hrj
    by_cases hj : jp = ip
    · rw [hj, huself]
      simp
    · rw [htab, update_of_ne hj, update_of_ne (ht.inv.ne_inum hr' jp hj hrj)]
      exact (ht.inv.table jp hrj).2

theorem iput_spec (h : FsInv sb s) (hr : 0 < (s.itable ip).ref) {E : String → Prop} :
    wp (iput sb ip) s (fun _ t => FsInv sb t ∧
      (∀ x b, refs sb t.cache (disk sb t.cache) x = some b → refs sb s.cache (disk sb s.cache) x = some b) ∧
      ((s.itable ip).ref = 1 ∧ (s.itable ip).valid = true ∧ (s.itable ip).nlink = 0 →
        ∀ k b, refs sb s.cache (disk sb s.cache) ((s.itable ip).inum, k) = some b →
          ¬ Used sb t.cache b)) E := by
  have hdrop {u : FsState} (hu : FsInv sb u) (hru : 0 < (u.itable ip).ref) :
      FsInv sb ⟨u.cache, u.saved, update u.itable ip
        { u.itable ip with ref := (u.itable ip).ref - 1 }⟩ :=
    hu.setInode rfl rfl rfl (fun _ => ⟨(hu.table ip hru).1, (hu.table ip hru).2, hu.ne_inum hru⟩)
  simp only [iput, inode, wp_bind, wp_get, wp_pure, wp_ite]
  split_ifs with hlast
  · refine wp_mono (ifree_spec h hr hlast.2.1) ?_ (fun _ he => he)
    rintro _ u ⟨hu, href, hgone, hkept, -, -, -⟩
    simp only [setInode, wp_modify]
    have hsub (x : ℕ × Slot) (b : ℕ) (hx : refs sb u.cache (disk sb u.cache) x = some b) :
        x.1 ≠ (s.itable ip).inum ∧ refs sb s.cache (disk sb s.cache) x = some b := by
      have hne : x.1 ≠ (s.itable ip).inum := by
        intro he
        have := hgone x.2
        rw [← he, hx] at this
        cases this
      exact ⟨hne, (hkept x hne) ▸ hx⟩
    refine ⟨hdrop hu (by rw [href]; exact hr), fun x b hx => (hsub x b hx).2, fun _ k b hk hused => ?_⟩
    rcases (hu.owns.owned.used_iff b (h.owns.inData hk)).mp hused with hp | ⟨x, hx⟩
    · exact hp
    · obtain ⟨hne, hx⟩ := hsub x b hx
      exact hne (congrArg Prod.fst (h.owns.owned.inj _ _ b hx hk))
  · simp only [setInode, wp_modify]
    exact ⟨hdrop h hr, fun _ _ hx => hx, fun hl => absurd hl hlast⟩

theorem evict_spec (h : FsInv sb s) {b : ℕ} {E : String → Prop} :
    wp (evict b) s (fun _ t => FsInv sb t ∧
      refs sb t.cache (disk sb t.cache) = refs sb s.cache (disk sb s.cache)) E := by
  simp only [evict, wp_modify]
  by_cases hb : b < sb.dataStart ∨ Indirect sb s.cache (disk sb s.cache) b
  · rw [h.synced b hb, update_eq_self]
    exact ⟨h, rfl⟩
  · rw [not_or] at hb
    have hle : sb.dataStart ≤ b := by omega
    have hind (i : ℕ) : refs sb s.cache (disk sb s.cache) (i, .indirect) ≠ some b := fun hi => hb.2 ⟨i, hi⟩
    suffices hgo : ∀ t : FsState, t.cache = update s.cache b (s.saved b) → t.saved = s.saved →
        t.itable = s.itable → FsInv sb t ∧
          refs sb t.cache (disk sb t.cache) = refs sb s.cache (disk sb s.cache) from hgo _ rfl rfl rfl
    intro t hcache hsaved htab
    have hdisk : disk sb t.cache = disk sb s.cache := by rw [hcache, disk_update_of_data hle]
    have hrefs : refs sb t.cache (disk sb s.cache) = refs sb s.cache (disk sb s.cache) := by
      rw [hcache]
      exact funext (refs_congr (fun i c hi =>
        update_of_ne (by rintro rfl; exact hind i hi) _ _))
    refine ⟨⟨?_, ?_, by rw [htab, hdisk]; exact h.table, by rw [htab]; exact h.uniq, ?_⟩,
      by rw [hdisk, hrefs]⟩
    · rw [hdisk, hcache]
      exact h.owns.frame _ (fun c hc => (ne_bblock_of_dataStart_le hle c hc).symm) hind
    · rw [hdisk]
      intro i hi ht
      obtain ⟨hs, hf⟩ := h.full i hi ht
      refine ⟨hs, fun bn hbn => ?_⟩
      have := hf bn hbn
      unfold fileBlock at this ⊢
      rwa [hrefs]
    · intro c hc
      rw [hdisk] at hc
      simp only [Indirect, hrefs] at hc
      rw [hcache, hsaved, update_apply]
      split_ifs with hcb
      · rw [hcb]
      · exact h.synced c hc

variable (sb) in
structure Stepped (s t : FsState) : Prop where
  inv : FsInv sb t
  fresh : ∀ x b, refs sb t.cache (disk sb t.cache) x = some b →
    refs sb s.cache (disk sb s.cache) x = some b ∨ ¬ Used sb s.cache b

theorem Stepped.of_refs_eq (h : FsInv sb t)
    (hr : refs sb t.cache (disk sb t.cache) = refs sb s.cache (disk sb s.cache)) : Stepped sb s t :=
  ⟨h, fun x b hx => Or.inl (by rw [← hr]; exact hx)⟩

theorem Stepped.of_refs_le (h : FsInv sb s) (ht : FsInv sb t)
    (hr : ∀ x b, refs sb s.cache (disk sb s.cache) x = some b →
      refs sb t.cache (disk sb t.cache) x = some b) : Stepped sb s t := by
  refine ⟨ht, fun x b hx => ?_⟩
  rw [or_iff_not_imp_right, not_not]
  intro hu
  rcases (h.owns.owned.used_iff b (ht.owns.inData hx)).mp hu with hp | ⟨y, hy⟩
  · exact hp.elim
  · rwa [ht.owns.owned.inj x y b hx (hr y b hy)]

def benign (e : String) : Prop := e ≠ "freeing free block" ∧ e ≠ "bmap: out of range"

theorem Call.exec_spec (h : FsInv sb s) {c : Call} (hc : c.Ready sb s) :
    wp (c.exec sb) s (fun _ t => Stepped sb s t) benign := by
  cases c with
  | ialloc type =>
    simp only [Call.exec, wp_bind, wp_pure]
    refine wp_mono (ialloc_spec h type.toNat_lt) (fun _ t ht => .of_refs_eq ht.1 ht.2) ?_
    rintro e (rfl | rfl) <;> exact ⟨by decide, by decide⟩
  | iget inum =>
    simp only [Call.exec, wp_bind, wp_pure]
    refine wp_mono (iget_spec h hc) (fun _ t ht => .of_refs_eq ht.1 (by rw [ht.2])) ?_
    rintro e rfl
    exact ⟨by decide, by decide⟩
  | idup ip => exact wp_mono (idup_spec h hc) (fun _ t ht => .of_refs_eq ht.1 (by rw [ht.2])) (fun _ he => he)
  | ilock ip =>
    refine wp_mono (ilock_spec h) (fun _ t ht => .of_refs_eq ht.1 (by rw [ht.2])) ?_
    rintro e (rfl | rfl) <;> exact ⟨by decide, by decide⟩
  | iput ip =>
    exact wp_mono (iput_spec h hc) (fun _ t ht => ⟨ht.1, fun x b hx => Or.inl (ht.2.1 x b hx)⟩)
      (fun _ he => he)
  | setMeta ip major minor nlink =>
    exact wp_mono (setMeta_spec h hc.1 hc.2 major.toNat_lt minor.toNat_lt nlink.toNat_lt)
      (fun _ t ht => .of_refs_eq ht.1 ht.2) (fun _ he => he)
  | writei ip src off n =>
    simp only [Call.exec, wp_bind, wp_pure]
    refine wp_mono (writei_spec h hc.1 hc.2 off.toNat_lt n.toNat_lt) (fun r t ht => ?_) ?_
    · split_ifs at ht
      · obtain ⟨tot, -, hw⟩ := ht
        exact .of_refs_le h hw.inv hw.refs
      · rw [ht.2]
        exact .of_refs_eq h rfl
    · rintro e ⟨rfl, -⟩
      exact ⟨by decide, by decide⟩
  | readi ip fails off n =>
    simp only [Call.exec, wp_bind, wp_pure]
    refine wp_mono (readi_spec h hc.1 hc.2 off.toNat_lt n.toNat_lt) (fun r t ht => ?_) (fun _ he => he.elim)
    rw [ht.1]
    exact .of_refs_eq h rfl
  | itrunc ip =>
    refine wp_mono (itrunc_spec h hc.1 hc.2) (fun _ t ht => ⟨ht.inv, fun x b hx => Or.inl ?_⟩)
      (fun _ he => he)
    by_cases hi : x.1 = (s.itable ip).inum
    · have := ht.gone x.2
      rw [← hi, hx] at this
      cases this
    · rw [← ht.kept x hi, hx]
  | evict b => exact wp_mono (evict_spec h) (fun _ t ht => .of_refs_eq ht.1 ht.2) (fun _ he => he)

theorem FsInv.of_step {c : Call} (h : FsInv sb s) (hc : c.Ready sb s) (hs : fsStep sb s c = some t) :
    Stepped sb s t := by
  unfold fsStep at hs
  split at hs
  · rename_i u hu
    cases hs
    exact wp_ok (Q := fun _ t => Stepped sb s t) (Call.exec_spec h hc) hu
  · cases hs

theorem FsInv.of_run (h : FsInv sb s) (hrun : Run (fsStep sb) (fun s c => c.Ready sb s) s t) : FsInv sb t :=
  hrun.invariant h (fun _ _ _ hs hc he => (hs.of_step hc he).inv)

theorem Full.exists_block {cache : ℕ → Block} {D : ℕ → Dinode} (h : Full sb cache D) {i bn : ℕ}
    (hi : i < sb.ninodes) (ht : (D i).type ≠ 0) (hbn : bn < ((D i).size + bSize - 1) / bSize) :
    ∃ k b, dataSlot bn = some k ∧ refs sb cache D (i, k) = some b := by
  have hlt : bn * bSize < (D i).size := by
    simp only [bSize] at hbn ⊢
    omega
  obtain ⟨b, hb⟩ := Option.ne_none_iff_exists'.mp ((h i hi ht).2 bn hlt)
  obtain ⟨k, hk, hr⟩ := Option.bind_eq_some_iff.mp hb
  exact ⟨k, b, hk, hr⟩

/-- In every run from an image whose bitmap is right, the bitmap stays right, and dropping a file gives its blocks back. -/
theorem blocks_owned_along_runs {image : ℕ → Block} (ho : Owns sb image (disk sb image) ∅)
    (hf : Full sb image (disk sb image))
    (hrun : Run (fsStep sb) (fun s c => c.Ready sb s) (mount image) s) :
    (∀ b, sb.InData b →
      (Used sb s.cache b ↔ ∃! x, refs sb s.cache (disk sb s.cache) x = some b)) ∧
    (∀ x b, refs sb s.cache (disk sb s.cache) x = some b → sb.InData b) ∧
    (∀ i < sb.ninodes, (disk sb s.cache i).type ≠ 0 →
      ∀ bn < ((disk sb s.cache i).size + bSize - 1) / bSize,
        ∃ k b, dataSlot bn = some k ∧ refs sb s.cache (disk sb s.cache) (i, k) = some b) ∧
    (∀ ip, 0 < (s.itable ip).ref → (s.itable ip).valid = true →
      (s.itable ip).toDinode = disk sb s.cache (s.itable ip).inum) ∧
    ∀ c : Call, c.Ready sb s → (∀ e, c.exec sb s = .error e → e ≠ "freeing free block") ∧
      ∀ t, fsStep sb s c = some t →
        (∀ x b, refs sb t.cache (disk sb t.cache) x = some b →
          refs sb s.cache (disk sb s.cache) x = some b ∨ ¬ Used sb s.cache b) ∧
        ∀ ip, c = .iput ip → (s.itable ip).ref = 1 → (s.itable ip).valid = true → (s.itable ip).nlink = 0 →
          ∀ k b, refs sb s.cache (disk sb s.cache) ((s.itable ip).inum, k) = some b → ¬ Used sb t.cache b := by
  have h := (mount_inv ho hf).of_run hrun
  refine ⟨fun b hb => ?_, fun x b hx => h.owns.inData hx, fun i hi ht bn hbn => h.full.exists_block hi ht hbn,
    fun ip hr hv => ((h.table ip hr).2 hv).1, fun c hc => ⟨fun e he => ?_, fun t ht => ⟨?_, ?_⟩⟩⟩
  · rw [h.owns.owned.used_iff b hb]
    constructor
    · rintro (hp | ⟨x, hx⟩)
      · exact hp.elim
      · exact ⟨x, hx, fun y hy => h.owns.owned.inj y x b hy hx⟩
    · rintro ⟨x, hx, -⟩
      exact Or.inr ⟨x, hx⟩
  · exact (wp_error (Call.exec_spec h hc) he).1
  · exact (h.of_step hc ht).fresh
  · rintro ip rfl hr hv hn
    have hput := iput_spec (E := fun _ => True) h hc
    unfold fsStep at ht
    split at ht
    · rename_i _ u hu
      cases ht
      exact (wp_ok hput hu).2.2 ⟨hr, hv, hn⟩
    · cases ht

theorem used_foldl_markUsed (bs : List ℕ) (cache : ℕ → Block) (b : ℕ) :
    Used sb (bs.foldl (markUsed sb) cache) b ↔ b ∈ bs ∨ Used sb cache b := by
  induction bs generalizing cache with
  | nil => simp
  | cons c bs ih => rw [List.foldl_cons, ih, used_markUsed, List.mem_cons, or_left_comm, or_assoc]

theorem disk_foldl_markUsed {bs : List ℕ} (hbs : ∀ b ∈ bs, b < sb.size) (cache : ℕ → Block) :
    disk sb (bs.foldl (markUsed sb) cache) = disk sb cache := by
  induction bs generalizing cache with
  | nil => rfl
  | cons c bs ih =>
    rw [List.foldl_cons, ih (fun b hb => hbs b (by simp [hb])), markUsed,
      disk_update_bblock (hbs c (by simp))]

theorem blankImage_type (i : ℕ) : (disk sb (blankImage sb) i).type = 0 := by
  rw [blankImage, disk_foldl_markUsed (fun b hb => lt_size_of_lt_dataStart (List.mem_range.mp hb))]
  unfold disk
  split_ifs
  · exact Bytes.le_zero _ _
  · rfl

theorem blankImage_owns : Owns sb (blankImage sb) (disk sb (blankImage sb)) ∅ := by
  have hused (b : ℕ) : Used sb (blankImage sb) b ↔ b < sb.dataStart := by
    rw [blankImage, used_foldl_markUsed, List.mem_range, or_iff_left]
    simp [Used, Bitmap.isClear, Bytes.get_zero]
  have hnone (x : ℕ × Slot) : refs sb (blankImage sb) (disk sb (blankImage sb)) x = none :=
    if_neg (fun hx => hx.2.1 (blankImage_type x.1))
  refine ⟨⟨?_, ?_, ?_, ?_⟩, fun b hb => (hused b).mpr hb⟩
  · intro x b hx
    simp [hnone] at hx
  · intro x y b hx
    simp [hnone] at hx
  · intro b hb
    have := hb.1
    simp only [hused, hnone]
    simp
    omega
  · simp

theorem blankImage_full : Full sb (blankImage sb) (disk sb (blankImage sb)) :=
  fun i _ ht => absurd (blankImage_type i) ht

def createAndWrite : List Call :=
  [.ialloc 2, .ilock ⟨0, by decide⟩, .writei ⟨0, by decide⟩ (Src.kernel fun _ => 7) 0 3]

def created : FsState :=
  (execute (fsStep mkfsSuperblock) (fun s c => c.Ready mkfsSuperblock s)
    (mount (blankImage mkfsSuperblock)) createAndWrite).get (by decide +kernel)

theorem created_run : Run (fsStep mkfsSuperblock) (fun s c => c.Ready mkfsSuperblock s)
    (mount (blankImage mkfsSuperblock)) created :=
  run_of_execute (Option.some_get _).symm

theorem created_block_owned : Used mkfsSuperblock created.cache 46 ∧
    ∃! x, refs mkfsSuperblock created.cache (disk mkfsSuperblock created.cache) x = some 46 := by
  have hused : Used mkfsSuperblock created.cache 46 := by decide +kernel
  have h := blocks_owned_along_runs blankImage_owns blankImage_full created_run
  exact ⟨hused, (h.1 46 (by decide)).mp hused⟩

end Xv6.Fs
