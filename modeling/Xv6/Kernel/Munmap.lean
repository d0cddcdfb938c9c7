import Xv6.Kernel.UnmapData

namespace Xv6.Kernel

open Lib Vm Prog
open Function (update update_of_ne update_self update_apply)

variable {sys : Sys} {x y z : KState} {v : Vma} {k : Fin nVma} {addr n : ℕ} {f : Fin nFile} {E : Panic → Prop}

structure MappedFile (sys : Sys) (x : KState) (f : Fin nFile) : Prop where
  backed : Backed sys x f
  type : (x.1.ftable f).type = .inode
  ref : 1 ≤ (x.1.ftable f).ref

structure Closes (sys : Sys) (z y : KState) (f : Fin nFile) (drop : Local → Local) : Prop where
  thread : y.2 = drop z.2
  freelist : y.1.freelist = z.1.freelist
  mem : y.1.mem = z.1.mem
  ftable : y.1.ftable = update z.1.ftable f
    (if (z.1.ftable f).ref = 1 then { z.1.ftable f with ref := 0, type := .none }
      else { z.1.ftable f with ref := (z.1.ftable f).ref - 1 })
  fs : if (z.1.ftable f).ref = 1 then Fs.Dropped sys.sb z.1.fs y.1.fs (z.1.ftable f).ip else y.1.fs = z.1.fs

section Closes

variable {drop : Local → Local}

theorem Closes.ip (h : Closes sys x y f drop) (g : Fin nFile) : (y.1.ftable g).ip = (x.1.ftable g).ip := by
  rw [h.ftable, update_apply]
  split_ifs with hg
  · rw [hg]
  · rw [hg]
  · rfl

theorem Closes.inum (h : Closes sys x y f drop) (jp : Fin nInode) :
    (y.1.fs.itable jp).inum = (x.1.fs.itable jp).inum := by
  have hfs := h.fs
  split_ifs at hfs with hone
  · by_cases hj : jp = (x.1.ftable f).ip
    · rw [hj, hfs.inum]
    · rw [hfs.other jp hj]
  · rw [hfs]

theorem Closes.fileInum (h : Closes sys x y f drop) (g : Fin nFile) : fileInum y g = fileInum x g := by
  rw [Kernel.fileInum, h.ip, h.inum, Kernel.fileInum]

end Closes

theorem post_fileclose {drop : Local → Local} (h : MappedFile sys x f) :
    (fileclose sys f drop).post x (fun _ y => Closes sys x y f drop) E := by
  have href := h.ref
  rw [fileclose, post_bind, releaseFile, post_step]
  dsimp only
  rw [if_neg (by omega)]
  by_cases hone : (x.1.ftable f).ref = 1
  · rw [if_neg (by omega)]
    dsimp only
    rw [h.type, if_neg (by decide)]
    apply post_fsCall
    apply Hoare.wp_mono (Fs.iput_effect h.backed.inv h.backed.ref) _ (fun _ he => he)
    intro _ fs hfs
    refine ⟨rfl, rfl, rfl, ?_, ?_⟩
    · rw [if_pos hone]
      rfl
    · rw [if_pos hone]
      exact hfs
  · rw [if_pos (by omega)]
    refine ⟨rfl, rfl, rfl, ?_, ?_⟩
    · rw [if_neg hone]
      rfl
    · rw [if_neg hone]
      rfl

structure Ready (sys : Sys) (x : KState) : Prop where
  sound : Sound sys x
  vmas : VmasOk x.2.proc.vmas
  inv : Fs.FsInv sys.sb x.1.fs
  type : ∀ k v, x.2.proc.vmas k = some v → (x.1.ftable v.file).type = .inode
  live : ∀ f, (x.1.ftable f).type = .inode → 0 < (x.1.ftable f).ref →
    (Fs.attr sys.sb x.1.fs (fileInum x f)).type ≠ 0
  refs : ∀ f, (Finset.univ.filter (fun k => (x.2.proc.vmas k).map Vma.file = some f)).card ≤ (x.1.ftable f).ref
  irefs : ∀ ip, (Finset.univ.filter (fun f =>
    (x.1.ftable f).type = .inode ∧ 0 < (x.1.ftable f).ref ∧ (x.1.ftable f).ip = ip)).card ≤ (x.1.fs.itable ip).ref

namespace Ready

theorem ref_pos (h : Ready sys x) (hk : x.2.proc.vmas k = some v) : 1 ≤ (x.1.ftable v.file).ref := by
  apply le_trans _ (h.refs v.file)
  rw [Nat.one_le_iff_ne_zero, Finset.card_ne_zero]
  exact ⟨k, by simp [hk]⟩

theorem iref_pos (h : Ready sys x) (ht : (x.1.ftable f).type = .inode) (hr : 0 < (x.1.ftable f).ref) :
    0 < (x.1.fs.itable (x.1.ftable f).ip).ref := by
  apply lt_of_lt_of_le _ (h.irefs _)
  rw [Finset.card_pos]
  exact ⟨f, by simp [ht, hr]⟩

theorem file (h : Ready sys x) (hk : x.2.proc.vmas k = some v) : MappedFile sys x v.file :=
  ⟨⟨h.inv, h.iref_pos (h.type k v hk) (h.ref_pos hk), h.live v.file (h.type k v hk) (h.ref_pos hk)⟩,
    h.type k v hk, h.ref_pos hk⟩

theorem two_refs {j : Fin nVma} {w : Vma} (h : Ready sys x) (hk : x.2.proc.vmas k = some v)
    (hj : x.2.proc.vmas j = some w) (hne : j ≠ k) (hf : w.file = v.file) : 2 ≤ (x.1.ftable v.file).ref := by
  apply le_trans _ (h.refs v.file)
  have hsub : {j, k} ⊆ Finset.univ.filter (fun i => (x.2.proc.vmas i).map Vma.file = some v.file) := by
    intro i hi
    rw [Finset.mem_insert, Finset.mem_singleton] at hi
    rcases hi with rfl | rfl
    · simp [hj, hf]
    · simp [hk]
  have hcard := Finset.card_le_card hsub
  rwa [Finset.card_pair hne] at hcard

theorem two_irefs {g : Fin nFile} (h : Ready sys x) (hf : (x.1.ftable f).type = .inode ∧ 0 < (x.1.ftable f).ref)
    (hg : (x.1.ftable g).type = .inode ∧ 0 < (x.1.ftable g).ref) (hne : g ≠ f)
    (heq : (x.1.ftable g).ip = (x.1.ftable f).ip) : 2 ≤ (x.1.fs.itable (x.1.ftable f).ip).ref := by
  apply le_trans _ (h.irefs _)
  have hsub : {g, f} ⊆ Finset.univ.filter (fun i => (x.1.ftable i).type = .inode ∧ 0 < (x.1.ftable i).ref ∧
      (x.1.ftable i).ip = (x.1.ftable f).ip) := by
    intro i hi
    rw [Finset.mem_insert, Finset.mem_singleton] at hi
    rcases hi with rfl | rfl
    · simp [hg, heq]
    · simp [hf]
  have hcard := Finset.card_le_card hsub
  rwa [Finset.card_pair hne] at hcard

theorem of_files (h : Ready sys x) (hs : Sound sys y) (hv : y.2.proc.vmas = x.2.proc.vmas)
    (hf : y.1.ftable = x.1.ftable) (hi : Fs.FsInv sys.sb y.1.fs) (ha : Fs.attr sys.sb y.1.fs = Fs.attr sys.sb x.1.fs)
    (ht : ∀ jp, (y.1.fs.itable jp).ref = (x.1.fs.itable jp).ref ∧ (y.1.fs.itable jp).inum = (x.1.fs.itable jp).inum) :
    Ready sys y where
  sound := hs
  vmas := by
    rw [hv]
    exact h.vmas
  inv := hi
  type k v hk := by
    rw [hv] at hk
    rw [hf]
    exact h.type k v hk
  live f := by
    rw [fileInum, hf, (ht _).2, ha]
    exact h.live f
  refs f := by
    rw [hv, hf]
    exact h.refs f
  irefs ip := by
    rw [hf, (ht ip).1]
    exact h.irefs ip

theorem shrink {u : Vma} (h : Ready sys x) (hk : x.2.proc.vmas k = some v) (hu : u.file = v.file)
    (hok : VmasOk (update x.2.proc.vmas k (some u))) :
    Ready sys (x.1, x.2.mapProc (·.setVma k (some u))) := by
  have hfile : ∀ j w, update x.2.proc.vmas k (some u) j = some w →
      ∃ j' w', x.2.proc.vmas j' = some w' ∧ w'.file = w.file := by
    intro j w hj
    by_cases hjk : j = k
    · rw [hjk, update_self] at hj
      cases hj
      exact ⟨k, v, hk, hu.symm⟩
    · rw [update_of_ne hjk] at hj
      exact ⟨j, w, hj, rfl⟩
  refine ⟨⟨h.sound.table, h.sound.nodup, h.sound.pool, h.sound.taken, h.sound.user, h.sound.apart⟩, hok, h.inv,
    fun j w hj => ?_, h.live, fun f => ?_, h.irefs⟩
  · obtain ⟨j', w', hj', hw⟩ := hfile j w hj
    exact hw ▸ h.type j' w' hj'
  · apply le_trans (Finset.card_le_card _) (h.refs f)
    intro j hj
    rw [Finset.mem_filter] at hj ⊢
    refine ⟨hj.1, ?_⟩
    have hjf : (update x.2.proc.vmas k (some u) j).map Vma.file = some f := hj.2
    by_cases hjk : j = k
    · rw [hjk, update_self, Option.map_some, hu] at hjf
      rw [hjk, hk, Option.map_some, hjf]
    · rwa [update_of_ne hjk] at hjf

theorem close (h : Ready sys x) (hk : x.2.proc.vmas k = some v)
    (hy : Closes sys x y v.file (·.mapProc (·.setVma k none))) : Ready sys y := by
  have hvmas : y.2.proc.vmas = update x.2.proc.vmas k none := by
    rw [hy.thread]
    rfl
  have hleaf : ∀ a, leafOf y a = leafOf x a := by
    intro a
    rw [leafOf, hy.thread]
    rfl
  have hother : ∀ j w, y.2.proc.vmas j = some w → j ≠ k ∧ x.2.proc.vmas j = some w := by
    intro j w hj
    rw [hvmas] at hj
    have hjk : j ≠ k := by
      rintro rfl
      rw [update_self] at hj
      cases hj
    rw [update_of_ne hjk] at hj
    exact ⟨hjk, hj⟩
  have hkfile := h.file hk
  have hfs := hy.fs
  have hftable := hy.ftable
  -- the entries that stay in use: unless the last reference goes, no more than the count changes
  have hlast : (x.1.ftable v.file).ref = 1 → ∀ j w, j ≠ k → x.2.proc.vmas j = some w → w.file ≠ v.file := by
    intro hone j w hjk hj heq
    have := h.two_refs hk hj hjk heq
    omega
  refine ⟨⟨?_, ?_, ?_, ?_, ?_, ?_⟩, ?_, ?_, ?_, ?_, ?_, ?_⟩
  · rw [hy.thread]
    exact h.sound.table
  · rw [hy.freelist]
    exact h.sound.nodup
  · rw [hy.freelist]
    exact h.sound.pool
  · simp only [hleaf, hy.freelist]
    exact h.sound.taken
  · simp only [hleaf]
    exact h.sound.user
  · simp only [hleaf]
    exact h.sound.apart
  · rw [hvmas]
    constructor
    · intro j w hj
      exact h.vmas.each j w (hother j w (by rw [hvmas]; exact hj)).2
    · intro j j' w w' hj hj'
      exact h.vmas.disjoint j j' w w' (hother j w (by rw [hvmas]; exact hj)).2
        (hother j' w' (by rw [hvmas]; exact hj')).2
  · split_ifs at hfs with hone
    · exact hfs.inv
    · rw [hfs]
      exact h.inv
  · intro j w hj
    obtain ⟨hjk, hj⟩ := hother j w hj
    rw [hftable, update_apply]
    split_ifs with hw hone
    · exact absurd hw (hlast hone j w hjk hj)
    · exact h.type k v hk
    · exact h.type j w hj
  · intro g hgt hgr
    have hg : (g = v.file → (x.1.ftable v.file).ref ≠ 1) ∧ (x.1.ftable g).type = .inode ∧ 0 < (x.1.ftable g).ref := by
      rw [hftable, update_apply] at hgt hgr
      split_ifs at hgt hgr with hgv hone
      · exact ⟨fun _ => hone, hgv ▸ hgt, hgv ▸ hkfile.ref⟩
      · exact ⟨fun he => absurd he hgv, hgt, hgr⟩
    rw [hy.fileInum]
    split_ifs at hfs with hone
    · by_cases hfree : (x.1.fs.itable (x.1.ftable v.file).ip).ref = 1 ∧
          (x.1.fs.itable (x.1.ftable v.file).ip).valid = true ∧ (x.1.fs.itable (x.1.ftable v.file).ip).nlink = 0
      · obtain ⟨-, a, -, ha⟩ := hfs.freed hfree
        rw [ha, update_of_ne]
        · exact h.live g hg.2.1 hg.2.2
        · intro heq
          have hsame := h.inv.uniq _ _ (h.iref_pos hg.2.1 hg.2.2) hkfile.backed.ref heq
          have := h.two_irefs ⟨hkfile.type, hkfile.ref⟩ hg.2 (fun he => hg.1 he hone) hsame
          omega
      · rw [Fs.attr_of_cache (hfs.kept hfree).1]
        exact h.live g hg.2.1 hg.2.2
    · rw [hfs]
      exact h.live g hg.2.1 hg.2.2
  · intro g
    have hsub : (Finset.univ.filter (fun j => (y.2.proc.vmas j).map Vma.file = some g)) ⊆
        (Finset.univ.filter (fun j => (x.2.proc.vmas j).map Vma.file = some g)).erase k := by
      intro j hj
      rw [Finset.mem_filter, Option.map_eq_some_iff] at hj
      obtain ⟨-, w, hj, hw⟩ := hj
      obtain ⟨hjk, hj⟩ := hother j w hj
      simp [hjk, hj, hw]
    apply le_trans (Finset.card_le_card hsub)
    rw [hftable, update_apply]
    have hg := h.refs g
    split_ifs with hgf hone
    · rw [Finset.card_erase_of_mem (by simp [hk, hgf])]
      rw [hgf, hone] at hg
      rw [hgf]
      dsimp only
      omega
    · rw [Finset.card_erase_of_mem (by simp [hk, hgf])]
      rw [hgf] at hg ⊢
      dsimp only
      omega
    · exact (Finset.card_le_card (Finset.erase_subset _ _)).trans hg
  · intro ip
    have hip' := h.irefs ip
    by_cases hone : (x.1.ftable v.file).ref = 1
    · rw [if_pos hone] at hfs
      have hsub : (Finset.univ.filter (fun g => (y.1.ftable g).type = .inode ∧ 0 < (y.1.ftable g).ref ∧
          (y.1.ftable g).ip = ip)) ⊆ (Finset.univ.filter (fun g => (x.1.ftable g).type = .inode ∧
            0 < (x.1.ftable g).ref ∧ (x.1.ftable g).ip = ip)).erase v.file := by
        intro g hg
        rw [Finset.mem_filter] at hg
        have hgv : g ≠ v.file := by
          rintro rfl
          rw [hftable, update_self, if_pos hone] at hg
          exact absurd hg.2.2.1 (by simp)
        rw [hftable, update_of_ne hgv] at hg
        rw [Finset.mem_erase, Finset.mem_filter]
        exact ⟨hgv, hg⟩
      apply le_trans (Finset.card_le_card hsub)
      by_cases heq : ip = (x.1.ftable v.file).ip
      · rw [Finset.card_erase_of_mem (by simp [heq, hkfile.type, hone]), heq, hfs.ref]
        rw [heq] at hip'
        omega
      · rw [hfs.other ip heq]
        exact (Finset.card_le_card (Finset.erase_subset _ _)).trans hip'
    · rw [if_neg hone] at hfs
      rw [hfs]
      apply le_trans (Finset.card_le_card _) hip'
      intro g hg
      rw [Finset.mem_filter, hy.ip] at hg
      rw [Finset.mem_filter]
      rw [hftable, update_apply] at hg
      have href := hkfile.ref
      split_ifs at hg with hgv
      · rw [hgv]
        rw [hgv] at hg
        exact ⟨hg.1, hg.2.1, by omega, hg.2.2.2⟩
      · exact hg

theorem unmaps (h : Ready sys x) (hz : Unmaps sys x y v addr n) : Ready sys y :=
  h.of_files hz.sound hz.vmas hz.ftable hz.fs.inv hz.fs.attr hz.fs.table

end Ready

inductive Removes (sys : Sys) (x y : KState) (k : Fin nVma) (v : Vma) (addr n : ℕ) : Prop
  | whole (z : KState) (hz : Unmaps sys x z v addr n) (hlo : addr = v.addr) (hhi : addr + n * pgSize = v.addr + v.length)
    (hy : Closes sys z y v.file (·.mapProc (·.setVma k none)))
  | first (z : KState) (hz : Unmaps sys x z v addr n) (hlo : addr = v.addr) (hhi : addr + n * pgSize < v.addr + v.length)
    (hy : y = (z.1, z.2.mapProc (·.setVma k (some (v.dropFirst (n * pgSize))))))
  | last (z : KState) (hz : Unmaps sys x z v addr n) (hlo : v.addr < addr) (hhi : addr + n * pgSize = v.addr + v.length)
    (hy : y = (z.1, z.2.mapProc (·.setVma k (some (v.dropLast (n * pgSize))))))

theorem Unmaps.mappedFile {va : ℕ} (h : Unmaps sys x y v va n) (hf : MappedFile sys x v.file) :
    MappedFile sys y v.file := by
  obtain ⟨hb, -, -⟩ := h.fs.backed h.ftable hf.backed
  exact ⟨hb, by rw [h.ftable]; exact hf.type, by rw [h.ftable]; exact hf.ref⟩

structure Admits (v : Vma) (addr length n : ℕ) : Prop where
  aligned : addr % pgSize = 0
  small : length ≤ maxVa
  pos : 0 < n
  round : pgRoundUp length = n * pgSize
  lo : v.addr ≤ addr
  hi : addr + n * pgSize ≤ v.addr + v.length
  edge : addr = v.addr ∨ addr + n * pgSize = v.addr + v.length

def Fits (sys : Sys) (x : KState) (v : Vma) (addr n : ℕ) : Prop :=
  ∀ i < n, pageAt x (addr + i * pgSize) ≠ none → v.writesBack →
    v.fileOff (addr + i * pgSize) + pgSize ≤ (fileBytes sys x v.file).length

theorem exists_pages {length : ℕ} (h0 : length ≠ 0) (hle : length ≤ maxVa) :
    ∃ n, 0 < n ∧ pgRoundUp length = n * pgSize ∧ n * pgSize ≤ maxVa := by
  rw [pgRoundUp_eq hle]
  refine ⟨(length + 4095) / 4096, by omega, rfl, ?_⟩
  simp only [maxVa, pgSize] at *
  omega

theorem Admits.no_wrap {length : ℕ} (h : Admits v addr length n) (hv : v.Ok) :
    (addr + n * pgSize) % 2 ^ 64 = addr + n * pgSize := by
  have := h.hi
  have := hv.le
  simp only [Vm.trapframe, trampoline, maxVa, pgSize] at *
  omega

theorem Admits.pages_eq {length m : ℕ} (h : Admits v addr length n) (hm : pgRoundUp length = m * pgSize) : n = m := by
  apply Nat.eq_of_mul_eq_mul_right (show 0 < pgSize by decide)
  rw [← hm, h.round]

theorem post_vmaUnmap {length : ℕ} (h : Ready sys x)
    (hE : ∀ k v n, x.2.proc.vmas k = some v → Admits v addr length n → ¬ Fits sys x v addr n →
      E (.fs "balloc: out of blocks")) :
    (vmaUnmap sys addr length).post x (fun r y =>
      (r = -1 ∧ y = x ∧ ∀ k v n, x.2.proc.vmas k = some v → ¬ Admits v addr length n) ∨
      ∃ k v n, x.2.proc.vmas k = some v ∧ Admits v addr length n ∧ Removes sys x y k v addr n ∧
        (Fits sys x v addr n → r = 0)) E := by
  rw [vmaUnmap, post_ite]
  split_ifs with hargs
  · refine Or.inl ⟨rfl, rfl, fun k v n _ hadm => ?_⟩
    rcases hargs with ha | rfl | hlen
    · exact ha hadm.aligned
    · have := hadm.round
      have := hadm.pos
      simp only [pgRoundUp, pgSize] at *
      omega
    · exact absurd hadm.small (by omega)
  rw [not_or, not_or, not_not] at hargs
  obtain ⟨ha, h0, hmaxlen⟩ := hargs
  obtain ⟨n, hn, hround, hnmax⟩ := exists_pages h0 (by omega)
  dsimp only
  rw [hround, post_ite]
  split_ifs with hwrap
  · refine Or.inl ⟨rfl, rfl, fun k v m hk hadm => ?_⟩
    obtain rfl := hadm.pages_eq hround
    rw [hadm.no_wrap (h.vmas.each k v hk)] at hwrap
    omega
  rw [post_bind, myproc, post_read]
  cases hfind : findVma x.2.proc.vmas (fun v => v.addr ≤ addr && (addr + n * pgSize) % 2 ^ 64 ≤ (v.addr + v.length) % 2 ^ 64) with
  | none =>
    refine Or.inl ⟨rfl, rfl, fun k v m hk hadm => findVma_none hfind hk ?_⟩
    obtain rfl := hadm.pages_eq hround
    have hok := h.vmas.each k v hk
    rw [hadm.no_wrap hok, hok.end_eq]
    simpa using ⟨hadm.lo, hadm.hi⟩
  | some r =>
    obtain ⟨k, v⟩ := r
    obtain ⟨hk, htest⟩ := findVma_eq hfind
    have hok := h.vmas.each k v hk
    simp only [hok.end_eq, Bool.and_eq_true, decide_eq_true_eq] at htest
    have hle := hok.le
    have hlast : (addr + n * pgSize) % 2 ^ 64 = addr + n * pgSize := by
      simp only [Vm.trapframe, trampoline, maxVa, pgSize] at *
      omega
    rw [hlast] at htest
    dsimp only
    rw [hok.end_eq, hlast]
    by_cases hedge : addr ≠ v.addr ∧ addr + n * pgSize ≠ v.addr + v.length
    · rw [if_pos hedge]
      refine Or.inl ⟨rfl, rfl, fun j w m hj hadm => ?_⟩
      obtain rfl := hadm.pages_eq hround
      have hjk : j = k := by
        by_contra hne
        have := h.vmas.disjoint j k w v hj hk hne
        have := hadm.lo
        have := hadm.hi
        have : 0 < m * pgSize := Nat.mul_pos hn (by decide)
        omega
      subst hjk
      rw [hk] at hj
      cases hj
      exact hadm.edge.elim hedge.1 hedge.2
    rw [if_neg hedge]
    have hadm : Admits v addr length n := by
      refine ⟨ha, by omega, hn, hround, htest.1, htest.2, ?_⟩
      by_contra hne
      rw [not_or] at hne
      exact hedge hne
    have hcount : (addr + n * pgSize - addr) / pgSize = n := by
      rw [Nat.add_sub_cancel_left, Nat.mul_div_cancel _ (by decide)]
    rw [hcount, post_bind]
    have hloop := post_vmaUnmapLoop (E := E) 0 h.sound (h.file hk).backed ha (htest.2.trans hle)
      (fun i hi hres hw hgt => hE k v n hk hadm (fun hfits => hgt (hfits i hi hres hw)))
    apply post_mono hloop _ (fun _ he => he)
    rintro r z ⟨hz, hr⟩
    have hzf : MappedFile sys z v.file := hz.mappedFile (h.file hk)
    rw [post_bind]
    by_cases hwhole : addr = v.addr ∧ addr + n * pgSize = v.addr + v.length
    · rw [if_pos hwhole]
      apply post_mono (post_fileclose hzf) _ (fun _ he => he)
      intro _ y hy
      exact Or.inr ⟨k, v, n, hk, hadm, .whole z hz hwhole.1 hwhole.2 hy, hr⟩
    · rw [if_neg hwhole]
      by_cases hfirst : addr = v.addr
      · rw [if_pos hfirst]
        refine Or.inr ⟨k, v, n, hk, hadm, .first z hz hfirst ?_ rfl, hr⟩
        rw [not_and] at hwhole
        have := hwhole hfirst
        have := hadm.hi
        omega
      · rw [if_neg hfirst]
        refine Or.inr ⟨k, v, n, hk, hadm, .last z hz ?_ (hadm.edge.resolve_left hfirst) rfl, hr⟩
        have := hadm.lo
        omega

theorem Admits.trims {length : ℕ} (h : Admits v addr length n) : Trims v addr (n * pgSize) :=
  ⟨h.aligned, Nat.mul_mod_left _ _, Nat.mul_pos h.pos (by decide), h.lo, h.hi, h.edge⟩

theorem Removes.vmas (h : Removes sys x y k v addr n) :
    y.2.proc.vmas = update x.2.proc.vmas k (v.trim addr (n * pgSize)) := by
  cases h with
  | whole z hz hlo hhi hy =>
    rw [Vma.trim, if_pos ⟨hlo, hhi⟩, ← hz.vmas, hy.thread]
    rfl
  | first z hz hlo hhi hy =>
    rw [Vma.trim, if_neg (by omega), if_pos hlo, ← hz.vmas, hy]
    rfl
  | last z hz hlo hhi hy =>
    rw [Vma.trim, if_neg (by omega), if_neg (by omega), ← hz.vmas, hy]
    rfl

theorem Unmaps.fileInum (h : Unmaps sys x y v addr n) (g : Fin nFile) : fileInum y g = fileInum x g := by
  rw [Kernel.fileInum, h.ftable, (h.fs.table _).2, Kernel.fileInum]

theorem Removes.fileInum (h : Removes sys x y k v addr n) (g : Fin nFile) : fileInum y g = fileInum x g := by
  cases h with
  | whole z hz hlo hhi hy => rw [hy.fileInum, hz.fileInum]
  | first z hz hlo hhi hy =>
    subst hy
    exact hz.fileInum g
  | last z hz hlo hhi hy =>
    subst hy
    exact hz.fileInum g

theorem Removes.ready {length : ℕ} (h : Removes sys x y k v addr n) (hx : Ready sys x)
    (hk : x.2.proc.vmas k = some v) (hadm : Admits v addr length n) : Ready sys y := by
  have hok := hx.vmas.trim hk hadm.trims
  rw [← h.vmas] at hok
  cases h with
  | whole z hz hlo hhi hy => exact (hx.unmaps hz).close (by rw [hz.vmas, hk]) hy
  | first z hz hlo hhi hy =>
    subst hy
    have hkz : z.2.proc.vmas k = some v := by rw [hz.vmas, hk]
    exact (hx.unmaps hz).shrink hkz rfl hok
  | last z hz hlo hhi hy =>
    subst hy
    have hkz : z.2.proc.vmas k = some v := by rw [hz.vmas, hk]
    exact (hx.unmaps hz).shrink hkz rfl hok

end Xv6.Kernel
