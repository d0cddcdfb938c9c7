import Xv6.Fs.Effects

namespace Xv6.Fs

open Lib Hoare

variable {sb : Superblock} {s t : FsState} {ip : Fin nInode}

/-! ### A copy that fails -/

theorem patch_nothing (bp : Block) (off m : ℕ) (src : ℕ → UInt8) : bp.patch off (min 0 m) src = bp := by
  apply Bytes.ext_get
  intro i _
  exact Bytes.get_patch_of_not_mem (by omega)

theorem writeLoop_stops {src : Src} {fuel off n tot : ℕ} (h : Op sb s ip ∅) (hfuel : n - tot ≤ fuel)
    (htot : tot ≤ n) (hoff : off + (n - tot) ≤ maxFile * bSize) (hfault : ∀ k m, src.fault k = some m → m = 0) :
    wp (writeLoop sb ip src fuel off n tot) s
      (fun r t => r.2 ≤ n ∧ Stored sb s t ip (Src.kernel src.byte) off r.2 tot r.1 r.2)
      (fun e => e = "balloc: out of blocks") := by
  induction fuel generalizing s off tot with
  | zero => exact ⟨htot, Stored.stay h Extends.rfl (le_refl _) (fun _ => ⟨rfl, fun _ _ => rfl⟩)⟩
  | succ fuel ih =>
    rw [writeLoop]
    by_cases hlt : tot < n
    · rw [if_pos hlt]
      simp only [wp_bind]
      refine wp_mono (bmap_spec h (div_lt_maxFile hoff (by omega))) ?_ (fun e he => he.1)
      intro b t hmap
      simp only [bread, wp_bind, wp_get, wp_pure]
      have hb : fileBlock sb t.cache (view sb t ip) (t.itable ip).inum (off / bSize) = some b := hmap.block
      cases hf : src.fault tot with
      | some k =>
        obtain rfl := hfault tot k hf
        simp only [scribble, wp_bind, wp_modify, wp_pure, patch_nothing, Function.update_eq_self]
        exact ⟨htot, Stored.stay hmap.op hmap.grows.toExtends (le_refl _) (fun _ => ⟨rfl, hmap.grows.bytes⟩)⟩
      | none =>
        simp only [logWrite, wp_bind, wp_modify]
        generalize hm : min (n - tot) (bSize - off % bSize) = m
        generalize hv : (t.cache b).patch (off % bSize) m (fun i => src.byte (tot + i)) = v
        obtain ⟨hop, hext, -, hrefs, hfree, hbytes⟩ := hmap.op.write_data (v := v) hb rfl (Or.inr rfl) rfl
          (t := { t with cache := Function.update t.cache b v, saved := Function.update t.saved b v })
        have hm0 : 0 < m ∧ m ≤ n - tot := by
          simp only [bSize] at hm
          omega
        refine wp_mono (ih hop (by omega) (by omega) (by omega)) ?_ (fun _ he => he)
        rintro r w ⟨hle, hw⟩
        have hge := hw.pos.1
        refine ⟨hle, Stored.cons hmap rfl ?_ (by omega) hext ?_ hw⟩
        · omega
        · rw [show (fun i => (Src.kernel src.byte).byte (tot + i)) = fun i => src.byte (tot + i) from rfl, hv]
          exact hbytes
    · rw [if_neg hlt]
      exact ⟨htot, Stored.stay h Extends.rfl (le_refl _) (fun _ => ⟨rfl, fun _ _ => rfl⟩)⟩

/-! ### Buffers that have not been logged -/

def Clean (s : FsState) : Prop := s.cache = s.saved

def FsState.evict (s : FsState) (b : ℕ) : FsState := { s with cache := Function.update s.cache b (s.saved b) }

theorem Clean.evict (h : Clean s) (b : ℕ) : s.evict b = s := by
  have hb : s.saved b = s.cache b := (congrFun h b).symm
  unfold FsState.evict
  rw [hb, Function.update_eq_self]

theorem Clean.logWrite {E : String → Prop} {b : ℕ} {data : Block} (h : Clean s) :
    wp (logWrite b data) s (fun _ => Clean) E := by
  simp only [Fs.logWrite, wp_modify, Clean]
  rw [show s.cache = s.saved from h]

theorem Clean.balloc (h : Clean s) : wp (balloc sb) s (fun _ => Clean) (fun _ => True) := by
  unfold Fs.balloc
  generalize (List.range ((sb.size + bpb - 1) / bpb)).map (· * bpb) = bs
  induction bs with
  | nil => trivial
  | cons c bs ih =>
    rw [ballocFrom]
    simp only [bread, wp_bind, wp_get, wp_pure]
    split
    · simp only [wp_bind, wp_pure]
      refine wp_mono h.logWrite (fun _ t ht => ?_) (fun _ he => he)
      exact ht.logWrite
    · exact ih

theorem Clean.loadAddr {k : Fin (nDirect + 1)} (h : Clean s) :
    wp (loadAddr sb ip k) s (fun _ => Clean) (fun _ => True) := by
  simp only [Fs.loadAddr, inode, wp_bind, wp_get, wp_pure, wp_ite]
  split_ifs
  · refine wp_mono h.balloc (fun a t ht => ?_) (fun _ he => he)
    simp only [setAddr, inode, setInode, wp_bind, wp_get, wp_pure, wp_modify]
    exact ht
  · exact h

theorem Clean.bmap {bn : ℕ} (h : Clean s) : wp (bmap sb ip bn) s (fun _ => Clean) (fun _ => True) := by
  unfold Fs.bmap
  split_ifs
  · exact h.loadAddr
  · simp only [bread, wp_bind, wp_get, wp_pure, wp_ite]
    refine wp_mono h.loadAddr (fun ind t ht => ?_) (fun _ he => he)
    split_ifs
    · refine wp_mono ht.balloc (fun a u hu => ?_) (fun _ he => he)
      exact hu.logWrite
    · exact ht
  · trivial

theorem Clean.writeLoop {src : Src} {fuel off n tot : ℕ} (h : Clean s) (hfault : ∀ k m, src.fault k = some m → m = 0) :
    wp (writeLoop sb ip src fuel off n tot) s (fun _ => Clean) (fun _ => True) := by
  induction fuel generalizing s off tot with
  | zero => exact h
  | succ fuel ih =>
    rw [Fs.writeLoop]
    by_cases hlt : tot < n
    · rw [if_pos hlt]
      simp only [wp_bind]
      refine wp_mono h.bmap (fun b t ht => ?_) (fun _ he => he)
      simp only [bread, wp_bind, wp_get, wp_pure]
      cases hf : src.fault tot with
      | some k =>
        obtain rfl := hfault tot k hf
        simp only [scribble, wp_bind, wp_modify, wp_pure, patch_nothing, Function.update_eq_self]
        exact ht
      | none =>
        simp only [wp_bind]
        refine wp_mono ht.logWrite (fun _ u hu => ?_) (fun _ he => he)
        exact ih hu
    · rw [if_neg hlt]
      exact h

theorem Clean.writei {src : Src} {off n : ℕ} (h : Clean s) (hfault : ∀ k m, src.fault k = some m → m = 0) :
    wp (writei sb ip src off n) s (fun _ => Clean) (fun _ => True) := by
  simp only [Fs.writei, inode, wp_bind, wp_get, wp_pure, wp_ite]
  split_ifs
  · exact h
  · exact h
  · refine wp_mono (h.writeLoop hfault) (fun r t ht => ?_) (fun _ he => he)
    apply growTo_spec
    simp only [iupdate, inode, bread, wp_bind, wp_get, wp_pure]
    exact Clean.logWrite (s := ⟨t.cache, t.saved, _⟩) ht

theorem wp_both {α : Type} {m : FsM α} {Q Q' : α → FsState → Prop} {E E' : String → Prop} (h : wp m s Q E)
    (h' : wp m s Q' E') : wp m s (fun a t => Q a t ∧ Q' a t) E := by
  unfold wp at *
  cases hm : m s with
  | ok r =>
    rw [hm] at h h'
    exact ⟨h, h'⟩
  | error e =>
    rw [hm] at h
    exact h

structure Reported (sb : Superblock) (s t : FsState) (ip : Fin nInode) (src : Src) (off tot : ℕ) : Prop where
  inv : FsInv sb t
  contents : contents sb t = Function.update (contents sb s) (s.itable ip).inum
    (overwrite (contents sb s (s.itable ip).inum) off ((List.range tot).map src.byte))

theorem Written.reported {src : Src} {off tot : ℕ} (hw : Written sb s t ip (Src.kernel src.byte) off tot tot)
    (h : FsInv sb s) (hr : 0 < (s.itable ip).ref) (hv : (s.itable ip).valid = true) (hoff : off ≤ (s.itable ip).size) :
    Reported sb s t ip src off tot := by
  obtain ⟨hd, -⟩ := (h.table ip hr).2 hv
  obtain ⟨a, ha⟩ := hw.table
  have hself : t.itable ip = ((s.itable ip).withAddrs a).withSize (max (s.itable ip).size (off + tot)) := by
    rw [ha, Function.update_self]
  have hd' : (t.itable ip).toDinode = disk sb t.cache (s.itable ip).inum := by
    rw [← show (t.itable ip).inum = (s.itable ip).inum by rw [hself]; rfl]
    apply ((hw.inv.table ip _).2 _).1
    · rw [hself]
      exact hr
    · rw [hself]
      exact hv
  exact ⟨hw.inv, (hw.contents hd' hd hoff).2⟩

theorem FsInv.settle (h : FsInv sb s) : FsInv sb { s with saved := s.cache } :=
  ⟨h.owns, h.full, h.table, h.uniq, fun _ _ => rfl⟩

theorem firstInode_lt : 0 < nInode := by decide

def settled : FsState := { created with saved := created.cache }

theorem settled_inv : FsInv mkfsSuperblock settled :=
  ((mount_inv blankImage_owns blankImage_full).of_run created_run).settle

theorem settled_clean : Clean settled := rfl

-- The elaborator would run the model when it looks at the state.
attribute [irreducible] settled

def torn : FsState :=
  ((writei mkfsSuperblock ⟨0, firstInode_lt⟩ ⟨fun _ => 9, fun _ => some 2⟩ 0 3 settled).toOption.map Prod.snd).getD settled

end Xv6.Fs
