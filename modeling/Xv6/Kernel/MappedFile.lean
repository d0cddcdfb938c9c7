import Xv6.Kernel.Boot
import Xv6.Kernel.Munmap

namespace Xv6.Kernel

open Lib Vm Prog

variable {sys : Sys} {x y z : KState} {v w : Vma} {k : Fin nVma} {va a n : ℕ} {E : Panic → Prop}

def Vma.place (v : Vma) (a : ℕ) : ℕ := v.offset + (a - v.addr)

theorem Vma.fileOff_eq_iff (h : v.addr ≤ a) : v.fileOff a = v.place a ↔ v.place a < 2 ^ 32 := by
  unfold Vma.fileOff Vma.place
  omega

theorem findVma_eq_of_covers (h : VmasOk x.2.proc.vmas) (hk : x.2.proc.vmas k = some v) (hc : v.Covers a) :
    findVma x.2.proc.vmas (fun v => v.addr ≤ a && a < (v.addr + v.length) % 2 ^ 64) = some (k, v) := by
  have htest : ∀ {j w}, x.2.proc.vmas j = some w →
      ((decide (w.addr ≤ a) && decide (a < (w.addr + w.length) % 2 ^ 64)) = true ↔ w.Covers a) := by
    intro j w hj
    rw [(h.each j w hj).end_eq]
    simp [Vma.Covers]
  cases hf : findVma x.2.proc.vmas (fun v => v.addr ≤ a && a < (v.addr + v.length) % 2 ^ 64) with
  | none => exact absurd ((htest hk).mpr hc) (findVma_none hf hk)
  | some r =>
    obtain ⟨j, w⟩ := r
    obtain ⟨hj, hw⟩ := findVma_eq hf
    have hwc := (htest hj).mp hw
    by_cases hjk : j = k
    · subst hjk
      rw [hk] at hj
      cases hj
      rfl
    · have := h.disjoint j k w v hj hk hjk
      unfold Vma.Covers at hc hwc
      omega

theorem covers_round (h : v.Ok) (hc : v.Covers a) : v.addr ≤ pgRoundDown a := by
  have := h.addr
  unfold Vma.Covers at hc
  simp only [pgRoundDown, pgSize] at *
  omega

theorem getElem_writeAt {l data : List UInt8} {off o : ℕ} (ho : o < off ∨ off + data.length ≤ o) :
    (Fs.writeAt l off data)[o]? = l[o]? := by
  unfold Fs.writeAt
  split_ifs with h
  · rw [Fs.getElem_overwrite h.1, if_neg (by omega)]
  · rfl

structure Mmaps (x y : KState) (fd : UInt64) (length : ℕ) (k : Fin nVma) (u : Vma) : Prop where
  open_ : ∃ n, x.2.proc.argfd fd = some (n, u.file)
  free : x.2.proc.vmas k = none
  fit : u.addr + u.length = x.2.proc.lowest
  length : u.length = pgRoundUp length
  pos : 0 < u.length
  offset : u.offset = 0
  type : (x.1.ftable u.file).type = .inode
  ref : 1 ≤ (x.1.ftable u.file).ref
  result : y = (x.1.setFile u.file { x.1.ftable u.file with ref := (x.1.ftable u.file).ref + 1 },
    x.2.mapProc (·.setVma k (some u)))

theorem mmaps_of_returns {requested length prot flags fd offset : UInt64} {base : ℤ}
    (h : (sysMmap requested length prot flags fd offset).returns x base y) (hne : base ≠ -1) :
    ∃ k u, base = (u.addr : ℤ) ∧ Mmaps x y fd length.toNat k u := by
  have hpost : (sysMmap requested length prot flags fd offset).post x
      (fun r y => r = -1 ∨ ∃ k u, r = (u.addr : ℤ) ∧ Mmaps x y fd length.toNat k u) (fun _ => True) := by
    rw [sysMmap, post_step]
    dsimp only
    cases harg : x.2.proc.argfd fd with
    | none => exact Or.inl rfl
    | some r =>
      obtain ⟨n, f⟩ := r
      cases hfree : x.2.proc.freeVma with
      | none =>
        dsimp only
        split_ifs <;> exact Or.inl rfl
      | some k =>
        dsimp only
        split_ifs with hargs hroom href
        · exact Or.inl rfl
        · trivial
        · refine Or.inr ⟨k, ⟨x.2.proc.lowest - pgRoundUp length.toNat, pgRoundUp length.toNat, _, _, f, 0,
            hargs.2.2.2.2.2.1⟩, rfl, ⟨n, harg⟩, freeVma_eq hfree, ?_, rfl, ?_, rfl,
            hargs.2.2.2.2.2.2.1, Nat.le_of_not_lt href, rfl⟩
          · dsimp only
            omega
          · exact pgRoundUp_pos hargs.2.2.1 hargs.2.2.2.1
        · exact Or.inl rfl
  exact (post_returns hpost h).resolve_left hne

theorem Mmaps.ready {fd : UInt64} {length : ℕ} {u : Vma} (h : Mmaps x y fd length k u) (hx : Ready sys x) :
    Ready sys y := by
  have hlow := (Proc.lowest_spec hx.vmas).2.1
  have hlen : u.length % pgSize = 0 := by
    rw [h.length]
    exact pgRoundUp_mod length
  have hok : VmasOk (Function.update x.2.proc.vmas k (some u)) := by
    apply hx.vmas.insert _ _ hlen h.pos h.fit
    · have := h.fit
      simp only [pgSize] at *
      omega
    · rw [h.offset]
      rfl
  have hfile : ∀ g, (y.1.ftable g).type = (x.1.ftable g).type ∧ (y.1.ftable g).ip = (x.1.ftable g).ip ∧
      (y.1.ftable g).ref = (x.1.ftable g).ref + if g = u.file then 1 else 0 := by
    intro g
    rw [h.result]
    simp only [Shared.setFile, Function.update_apply]
    split_ifs with hg
    · rw [hg]
      exact ⟨rfl, rfl, rfl⟩
    · exact ⟨rfl, rfl, rfl⟩
  have hfs : y.1.fs = x.1.fs := by rw [h.result]; rfl
  have hvmas : y.2.proc.vmas = Function.update x.2.proc.vmas k (some u) := by rw [h.result]; rfl
  have hinum : ∀ g, fileInum y g = fileInum x g := by
    intro g
    rw [fileInum, hfs, (hfile g).2.1, fileInum]
  refine ⟨?_, by rw [hvmas]; exact hok, by rw [hfs]; exact hx.inv, ?_, ?_, ?_, ?_⟩
  · rw [h.result]
    exact ⟨hx.sound.table, hx.sound.nodup, hx.sound.pool, hx.sound.taken, hx.sound.user, hx.sound.apart⟩
  · intro j w hj
    rw [hvmas, Function.update_apply] at hj
    rw [(hfile _).1]
    split_ifs at hj with hjk
    · cases hj
      exact h.type
    · exact hx.type j w hj
  · intro g hgt hgr
    rw [hinum, hfs]
    rw [(hfile g).1] at hgt
    apply hx.live g hgt
    rw [(hfile g).2.2] at hgr
    have := h.ref
    split_ifs at hgr with hg
    · rw [hg]
      omega
    · exact hgr
  · intro g
    have hsub : (Finset.univ.filter (fun j => (y.2.proc.vmas j).map Vma.file = some g)) ⊆
        if g = u.file then insert k (Finset.univ.filter (fun j => (x.2.proc.vmas j).map Vma.file = some g))
        else Finset.univ.filter (fun j => (x.2.proc.vmas j).map Vma.file = some g) := by
      intro j hj
      rw [Finset.mem_filter, hvmas, Function.update_apply] at hj
      split_ifs at hj ⊢ with hg hjk hjk
      · rw [hjk]
        exact Finset.mem_insert_self _ _
      · exact Finset.mem_insert_of_mem (by simpa using hj.2)
      · exact absurd (Option.some_inj.mp hj.2).symm hg
      · simpa using hj.2
    apply le_trans (Finset.card_le_card hsub)
    rw [(hfile g).2.2]
    have := hx.refs g
    split_ifs with hg
    · exact (Finset.card_insert_le _ _).trans (by omega)
    · exact this
  · intro ip
    rw [hfs]
    apply le_trans (Finset.card_le_card _) (hx.irefs ip)
    intro g hg
    rw [Finset.mem_filter, (hfile g).1, (hfile g).2.1, (hfile g).2.2] at hg
    rw [Finset.mem_filter]
    refine ⟨hg.1, hg.2.1, ?_, hg.2.2.2⟩
    have hr := hg.2.2.1
    have := h.ref
    split_ifs at hr with hgu
    · rw [hgu]
      omega
    · exact hr

inductive Later (sys : Sys) (k : Fin nVma) (f : Fin nFile) (x : KState) : KState → Prop
  | refl : Later sys k f x x
  | munmap {y z : KState} {addr length : UInt64} {r : ℤ} (h : Later sys k f x y)
    (hr : (sysMunmap sys addr length).returns y r z) : Later sys k f x z
  | other {y z : KState} (h : Later sys k f x y) (hz : Ready sys z) (hk : z.2.proc.vmas k = y.2.proc.vmas k)
    (hf : fileInum z f = fileInum y f) : Later sys k f x z

structure Vma.Within (v u : Vma) : Prop where
  file : v.file = u.file
  offset : v.offset + u.addr = u.offset + v.addr
  lo : u.addr ≤ v.addr
  hi : v.addr + v.length ≤ u.addr + u.length

theorem Vma.Within.trim {u t : Vma} {addr len : ℕ} (h : v.Within u) (ht : Trims v addr len)
    (hu : v.trim addr len = some t) : t.Within u := by
  obtain ⟨hfile, hhi, hlo, -⟩ := Vma.trim_eq ht hu
  obtain ⟨hoff, -⟩ := Vma.trim_offset hu
  have := h.offset
  have := h.lo
  have := h.hi
  exact ⟨hfile.trans h.file, by omega, by omega, by omega⟩

theorem sysMunmap_cases {addr length : UInt64} {r : ℤ} (hx : Ready sys x)
    (hr : (sysMunmap sys addr length).returns x r y) : y = x ∨
      ∃ k v n, x.2.proc.vmas k = some v ∧ Admits v addr.toNat length.toNat n ∧ Removes sys x y k v addr.toNat n := by
  unfold sysMunmap at hr
  split_ifs at hr
  · exact Or.inl hr.2
  · rcases post_returns (post_vmaUnmap (E := fun _ => True) hx (fun _ _ _ _ _ _ => trivial)) hr with
      ⟨-, hy, -⟩ | ⟨k, v, n, hk, hadm, hrem, -⟩
    · exact Or.inl hy
    · exact Or.inr ⟨k, v, n, hk, hadm, hrem⟩

theorem Later.within {u : Vma} (h : Later sys k u.file x y) (hx : Ready sys x)
    (hk : x.2.proc.vmas k = some u) :
    Ready sys y ∧ fileInum y u.file = fileInum x u.file ∧ ∀ v, y.2.proc.vmas k = some v → v.Within u := by
  induction h with
  | refl =>
    refine ⟨hx, rfl, fun v hv => ?_⟩
    rw [hk] at hv
    cases hv
    exact ⟨rfl, rfl, le_rfl, le_rfl⟩
  | munmap h hr ih =>
    obtain ⟨hy, hinum, hin⟩ := ih
    rcases sysMunmap_cases hy hr with rfl | ⟨j, w, n, hj, hadm, hrem⟩
    · exact ⟨hy, hinum, hin⟩
    · refine ⟨hrem.ready hy hj hadm, (hrem.fileInum _).trans hinum, fun v hv => ?_⟩
      rw [hrem.vmas] at hv
      by_cases hjk : k = j
      · subst hjk
        rw [Function.update_self] at hv
        exact (hin w hj).trim hadm.trims hv
      · rw [Function.update_of_ne hjk] at hv
        exact hin v hv
  | other h hz hslot hf ih =>
    obtain ⟨-, hinum, hin⟩ := ih
    exact ⟨hz, hf.trans hinum, fun v hv => hin v (hslot ▸ hv)⟩

section Example

def oneOpen (fs : Fs.FsState) : KState :=
  ({ bootShared fs with
      freelist := List.range' 524462 8
      ftable := fun f => if f.val = 0 then ⟨.inode, 1, true, true, 0, ⟨0, nInode_pos⟩⟩
        else ⟨.none, 0, false, false, 0, ⟨0, nInode_pos⟩⟩ },
    { Local.idle with
      slot := some bootSys.initproc
      proc := { Proc.empty with
        pagetable := some (.empty 524455)
        ofile := fun fd => if fd.val = 0 then some ⟨0, nFile_pos⟩ else none } })

theorem fs_oneOpen (fs : Fs.FsState) : (oneOpen fs).1.fs = fs := rfl

theorem oneOpen_ready {fs : Fs.FsState} (hinv : Fs.FsInv Fs.mkfsSuperblock fs) (href : 1 ≤ (fs.itable ⟨0, by decide⟩).ref)
    (htype : (Fs.attr Fs.mkfsSuperblock fs (fs.itable ⟨0, by decide⟩).inum).type ≠ 0) : Ready bootSys (oneOpen fs) := by
  have hleaf : ∀ va, leafOf (oneOpen fs) va = none := by
    intro va
    rw [leafOf_eq (show (oneOpen fs).2.proc.pagetable = some (.empty 524455) from rfl)]
    exact leaf_empty 524455
  have hfile : ∀ f, ((oneOpen fs).1.ftable f).type = .inode → f = ⟨0, by decide⟩ := by
    intro f hf
    by_contra hne
    have hval : f.val ≠ 0 := fun h => hne (Fin.ext h)
    rw [show (oneOpen fs).1.ftable f = _ from if_neg hval] at hf
    cases hf
  have hlist : (oneOpen fs).1.freelist = List.range' 524462 8 := rfl
  refine ⟨⟨⟨_, rfl⟩, by rw [hlist]; decide, by rw [hlist]; decide, ?_, ?_, ?_⟩, ⟨?_, ?_⟩, ?_, ?_, ?_, ?_, ?_⟩
  · intro va _ pte h
    rw [hleaf] at h
    cases h
  · intro va _ pte h
    rw [hleaf] at h
    cases h
  · intro va _ va' _ pte pte' h
    rw [hleaf] at h
    cases h
  · intro k v h
    cases h
  · intro k k' v v' h
    cases h
  · rw [fs_oneOpen]
    exact hinv
  · intro k v h
    cases h
  · intro f hf _
    rw [hfile f hf]
    exact htype
  · intro f
    rw [Finset.card_eq_zero.mpr]
    · exact Nat.zero_le _
    · exact Finset.filter_eq_empty_iff.mpr (fun k _ h => nomatch h)
  · intro ip
    by_cases hip : ip = ((oneOpen fs).1.ftable ⟨0, by decide⟩).ip
    · have hsub : (Finset.univ.filter (fun f => ((oneOpen fs).1.ftable f).type = .inode ∧
          0 < ((oneOpen fs).1.ftable f).ref ∧ ((oneOpen fs).1.ftable f).ip = ip)) ⊆ {⟨0, by decide⟩} := by
        intro f hf
        rw [Finset.mem_filter] at hf
        rw [hfile f hf.2.1]
        exact Finset.mem_singleton_self _
      apply (Finset.card_le_card hsub).trans
      rw [hip, Finset.card_singleton]
      exact href
    · rw [Finset.card_eq_zero.mpr]
      · exact Nat.zero_le _
      · apply Finset.filter_eq_empty_iff.mpr
        rintro f - ⟨ht, -, hf⟩
        rw [hfile f ht] at hf
        exact hip hf.symm

def oneFile : KState := oneOpen Fs.created

theorem oneFile_ready : Ready bootSys oneFile :=
  oneOpen_ready ((Fs.mount_inv Fs.blankImage_owns Fs.blankImage_full).of_run Fs.created_run) (by decide +kernel)
    (by decide +kernel)

def after (p : KM ℤ) (x : KState) : KState := ((p.eval x).toOption.map Prod.snd).getD x

theorem returns_after {p : KM ℤ} {x : KState} {r : ℤ} (h : (p.eval x).toOption.map Prod.fst = some r) :
    p.returns x r (after p x) := by
  unfold after
  cases he : p.eval x with
  | error e =>
    rw [he] at h
    cases h
  | ok a =>
    rw [he] at h
    cases h
    exact returns_of_eval he

def base : ℕ := 274877890560

def twoPages : KState := after (sysMmap 0 8192 3 1 0 0) oneFile

def firstPage : KState := after (sysMunmap bootSys (274877890560 + 4096) 4096) twoPages

theorem twoPages_returns : (sysMmap 0 8192 3 1 0 0).returns oneFile base twoPages :=
  returns_after (by decide +kernel)

theorem twoPages_ready : Ready bootSys twoPages := by
  obtain ⟨k, u, -, hm⟩ := mmaps_of_returns twoPages_returns (by decide)
  exact hm.ready oneFile_ready

theorem twoPages_slot : ∀ k, (twoPages.2.proc.vmas k).isSome = true → k = ⟨0, by decide⟩ := by decide +kernel

end Example

/-- The offset in the file is right exactly below 4 GiB; there a page past the end is zero and is not
written back over other bytes. -/
theorem offset_right_below_4GiB (hx : Ready sys x) (hk : x.2.proc.vmas k = some v) (hc : v.Covers va) :
    (v.fileOff va = v.place va ↔ v.place va < 2 ^ 32) ∧
    (v.place va < 2 ^ 32 →
      (∀ a cause y, pgRoundDown a = va → v.Covers a → (vmaFault sys a cause).returns x 0 y →
        Shows y va (fileBytes sys x v.file) (v.place va)) ∧
      ∀ pa r y, (writeBack sys v va pa).returns x r y →
        ∀ i o, (i = fileInum x v.file → o < v.place va ∨ v.place va + pgSize ≤ o) →
          (Fs.contents sys.sb y.1.fs i)[o]? = (Fs.contents sys.sb x.1.fs i)[o]?) := by
  have hiff := Vma.fileOff_eq_iff hc.1
  refine ⟨hiff, fun hlt => ⟨?_, ?_⟩⟩
  · intro a cause y hround hca hret
    have hpost := post_vmaFault (E := fun _ => True) cause hx.sound (hx.vmas.each k v hk)
      (findVma_eq_of_covers hx.vmas hk hca) (hx.file hk).backed
    obtain ⟨-, hif⟩ := post_returns hpost hret
    rw [if_pos rfl, hround, hiff.mpr hlt] at hif
    exact hif.2.2
  · intro pa r y hret i o hio
    have hpost := post_writeBack (E := fun _ => True) va pa (hx.file hk).backed (fun _ => trivial)
    obtain ⟨fs, rfl, hedit, -, -⟩ := post_returns hpost hret
    rw [hedit.contents]
    by_cases hi : i = fileInum x v.file
    · subst hi
      rw [Function.update_self, hiff.mpr hlt, getElem_writeAt]
      · rfl
      · rw [length_pageBytes]
        exact hio rfl
    · rw [Function.update_of_ne hi]

theorem offset_of_second_page : ∃ k v, twoPages.2.proc.vmas k = some v ∧ v.fileOff (base + 4096) = v.place (base + 4096) := by
  have hsome : (twoPages.2.proc.vmas ⟨0, by decide⟩).isSome = true := by decide +kernel
  obtain ⟨v, hv⟩ := Option.isSome_iff_exists.mp hsome
  have hc : (twoPages.2.proc.vmas ⟨0, by decide⟩).all (fun v => v.addr ≤ base + 4096 ∧ base + 4096 < v.addr + v.length ∧
      v.offset + (base + 4096 - v.addr) < 2 ^ 32) = true := by decide +kernel
  rw [hv, Option.all_some, decide_eq_true_eq] at hc
  exact ⟨_, v, hv, (offset_right_below_4GiB twoPages_ready hv ⟨hc.1, hc.2.1⟩).1.mpr hc.2.2⟩

theorem far_page_shows_first_bytes : ∃ x y pte,
    (sysMmap 0 (2 ^ 32 + 4096) 3 1 0 0).returns oneFile (274877898752 - (2 ^ 32 + 4096)) x ∧
    (vmaFault bootSys (274877898752 - 4096) 13).returns x 0 y ∧ leafOf y (274877898752 - 4096) = some pte ∧
    (y.1.mem pte.pa).get 0 = 7 ∧ (fileBytes bootSys x ⟨0, by decide⟩).length = 3 := by
  have hmap : (sysMmap 0 (2 ^ 32 + 4096) 3 1 0 0).returns oneFile (274877898752 - (2 ^ 32 + 4096))
      (after (sysMmap 0 (2 ^ 32 + 4096) 3 1 0 0) oneFile) := returns_after (by decide +kernel)
  have hfault : (vmaFault bootSys (274877898752 - 4096) 13).returns
      (after (sysMmap 0 (2 ^ 32 + 4096) 3 1 0 0) oneFile) 0 _ := returns_after (by decide +kernel)
  have hpage : (leafOf (after (vmaFault bootSys (274877898752 - 4096) 13)
      (after (sysMmap 0 (2 ^ 32 + 4096) 3 1 0 0) oneFile)) (274877898752 - 4096)).any (fun pte =>
        ((after (vmaFault bootSys (274877898752 - 4096) 13)
          (after (sysMmap 0 (2 ^ 32 + 4096) 3 1 0 0) oneFile)).1.mem pte.pa).get 0 = 7) = true := by decide +kernel
  obtain ⟨pte, hpte, hget⟩ := (Option.any_eq_true _ _).mp hpage
  exact ⟨_, _, pte, hmap, hfault, hpte, of_decide_eq_true hget, by decide +kernel⟩

/-- After parts of a mapping have been removed, a page that is faulted in shows the file from its distance to `base` on. -/
theorem fault_shows_mapped_file {requested length prot flags fd offset : UInt64} {base : ℤ} (hx : Ready sys x)
    (hmap : (sysMmap requested length prot flags fd offset).returns x base y) (hne : base ≠ -1)
    (hlen : length.toNat ≤ 2 ^ 32) :
    ∃ k u, y.2.proc.vmas k = some u ∧ (u.addr : ℤ) = base ∧ (∃ n, x.2.proc.argfd fd = some (n, u.file)) ∧
      ∀ z v a cause y', Later sys k u.file y z → z.2.proc.vmas k = some v → v.Covers a → leafOf z a = none →
        (vmaFault sys a cause).returns z 0 y' →
        Shows y' (pgRoundDown a) (Fs.contents sys.sb z.1.fs (fileInum x u.file)) (pgRoundDown a - u.addr) ∧
        (∀ b < Vm.trapframe, b / pgSize ≠ a / pgSize → leafOf y' b = leafOf z b ∧ pageAt y' b = pageAt z b) ∧
        Fs.contents sys.sb y'.1.fs = Fs.contents sys.sb z.1.fs := by
  obtain ⟨k, u, rfl, hm⟩ := mmaps_of_returns hmap hne
  have hku : y.2.proc.vmas k = some u := by
    rw [hm.result]
    exact Function.update_self _ _ _
  have hfile : fileInum y u.file = fileInum x u.file := by
    rw [hm.result]
    simp [fileInum, Shared.setFile]
  refine ⟨k, u, hku, rfl, hm.open_, ?_⟩
  intro z v a cause y' hlater hkv hc hnone hret
  obtain ⟨hz, hinum, hin⟩ := hlater.within (hm.ready hx) hku
  have hwithin := hin v hkv
  have hround := covers_round (hz.vmas.each k v hkv) hc
  have hplace : v.place (pgRoundDown a) = pgRoundDown a - u.addr := by
    have := hwithin.offset
    have := hwithin.lo
    have := hm.offset
    unfold Vma.place
    omega
  have hlt : v.place (pgRoundDown a) < 2 ^ 32 := by
    have hle : pgRoundUp length.toNat ≤ 2 ^ 32 := by
      simp only [pgRoundUp, pgSize]
      omega
    have := hwithin.hi
    have := hm.length
    have : pgRoundDown a ≤ a := Nat.div_mul_le_self _ _
    unfold Vma.Covers at hc
    omega
  have hpost := post_vmaFault (E := fun _ => True) cause hz.sound (hz.vmas.each k v hkv)
    (findVma_eq_of_covers hz.vmas hkv hc) (hz.file hkv).backed
  obtain ⟨hsame, hif⟩ := post_returns hpost hret
  rw [if_pos rfl] at hif
  obtain ⟨hcalm, -, hshows⟩ := hif
  refine ⟨?_, ?_, hsame.contents⟩
  · rw [(Vma.fileOff_eq_iff hround).mpr hlt, hplace, fileBytes, hwithin.file, hinum, hfile] at hshows
    exact hshows
  · intro b hb hpage
    have hleaf := hcalm.leaf b (hb.trans (by decide)) hpage
    refine ⟨hleaf, ?_⟩
    unfold pageAt
    rw [hleaf]
    cases hl : leafOf z b with
    | none => rfl
    | some pte => rw [Option.map_some, Option.map_some, hcalm.mem b hb hpage pte hl]

theorem first_page_shows_file : ∃ y, (vmaFault bootSys base 13).returns firstPage 0 y ∧
    Shows y base [7, 7, 7] 0 := by
  have hfault : (vmaFault bootSys base 13).returns firstPage 0 (after (vmaFault bootSys base 13) firstPage) :=
    returns_after (by decide +kernel)
  have htrim : (sysMunmap bootSys (274877890560 + 4096) 4096).returns twoPages 0 firstPage :=
    returns_after (by decide +kernel)
  obtain ⟨k, u, hk, hbase, ⟨n, hfd⟩, hshow⟩ := fault_shows_mapped_file oneFile_ready twoPages_returns (by decide) (by decide)
  have hslot := twoPages_slot k (by rw [hk]; rfl)
  have hsome : (firstPage.2.proc.vmas ⟨0, by decide⟩).isSome = true := by decide +kernel
  obtain ⟨v, hv⟩ := Option.isSome_iff_exists.mp hsome
  have hc : (firstPage.2.proc.vmas ⟨0, by decide⟩).all (fun v => v.addr ≤ base ∧ base < v.addr + v.length) = true := by
    decide +kernel
  rw [hv, Option.all_some, decide_eq_true_eq] at hc
  have hnone : leafOf firstPage base = none := by
    have : (leafOf firstPage base).isNone = true := by decide +kernel
    exact Option.isNone_iff_eq_none.mp this
  obtain ⟨hs, -, -⟩ := hshow firstPage v base 13 _ (.munmap .refl htrim) (by rw [hslot]; exact hv) hc hnone hfault
  have haddr : u.addr = base := by exact_mod_cast hbase
  have harg : oneFile.2.proc.argfd 0 = some (⟨0, by decide⟩, ⟨0, by decide⟩) := by decide +kernel
  have hbytes : Fs.contents bootSys.sb firstPage.1.fs (fileInum oneFile ⟨0, by decide⟩) = [7, 7, 7] := by decide +kernel
  rw [harg] at hfd
  obtain ⟨-, hfile⟩ := Prod.mk.inj (Option.some_inj.mp hfd)
  rw [haddr, ← hfile, hbytes] at hs
  exact ⟨_, hfault, hs⟩

end Xv6.Kernel
