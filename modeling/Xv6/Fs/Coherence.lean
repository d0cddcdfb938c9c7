import Xv6.Fs.DirectoryMap

namespace Xv6.Fs

open Lib Hoare Transition
open Function (update update_of_ne update_self update_eq_self)

variable {sb : Superblock} {s : FsState} {ip : Fin nInode}

/-- An inode is put and, when its table entry may have been used for another one, looked up and locked again. -/
def putAndGet (sb : Superblock) (ip : Fin nInode) (inum : ℕ) : FsM (Fin nInode) := do
  iput sb ip
  let jp ← iget inum
  ilock sb jp
  return jp

theorem FsInv.put_and_get (h : FsInv sb s) (hr : (s.itable ip).ref = 1) (hv : (s.itable ip).valid = true)
    (hn : (s.itable ip).nlink ≠ 0) : ∃ jp t, putAndGet sb ip (s.itable ip).inum s = .ok (jp, t) ∧
      t.itable jp = s.itable ip ∧ t.cache = s.cache ∧ ∀ kp ≠ ip, kp ≠ jp → t.itable kp = s.itable kp := by
  have hpos : 0 < (s.itable ip).ref := by omega
  obtain ⟨hd, htype⟩ := (h.table ip hpos).2 hv
  apply exists_ok
  simp only [putAndGet, wp_bind]
  refine wp_mono (iput_effect h hpos) ?_ (fun _ he => he)
  intro _ t ht
  obtain ⟨hcache, hip⟩ := ht.kept (fun hx => hn hx.2.2)
  have hzero : (t.itable ip).ref = 0 := by
    rw [ht.ref, hr]
  refine wp_mono (iget_effect ht.inv (h.table ip hpos).1) ?_ ?_
  · intro jp u hu
    -- the entry is a free one: no other entry is for this inode
    have hfree : (t.itable jp).ref = 0 := by
      by_contra hne
      have hjp : jp ≠ ip := by
        rintro rfl
        exact hne hzero
      have hkept := (hu.kept (by omega)).1
      rw [ht.other jp hjp] at hkept hne
      exact hjp (h.uniq jp ip (by omega) hpos hkept)
    have hdisk : disk sb u.cache (u.itable jp).inum = (s.itable ip).toDinode := by
      rw [hu.inum, hu.cache, hcache, hd]
    apply ilock_effect hu.inv (by rw [hu.ref]; omega) (by rw [hdisk]; exact htype)
    refine ⟨?_, hu.cache.trans hcache, ?_⟩
    · rw [FsState.load, hdisk, hu.inum, hu.ref, hfree]
      dsimp only
      rw [update_self, ← hv, Nat.zero_add, ← hr]
    · intro kp hkp hkj
      rw [FsState.load]
      dsimp only
      rw [update_of_ne hkj, hu.other kp hkj, ht.other kp hkp]
  · rintro e ⟨-, hall⟩
    have := hall ip
    omega

/-- Over every run an inode has one table entry, one whose last reference is put comes back as it was when it is looked up again,
and dropping a block of metadata from the cache changes nothing. -/
theorem inode_cache_coherent {image : ℕ → Block} (ho : Owns sb image (disk sb image) ∅) (hf : Full sb image (disk sb image))
    (hrun : Run (fsStep sb) (fun s c => c.Ready sb s) (mount image) s) :
    (∀ ip jp, 0 < (s.itable ip).ref → 0 < (s.itable jp).ref → (s.itable ip).inum = (s.itable jp).inum → ip = jp) ∧
    (∀ ip, (s.itable ip).ref = 1 → (s.itable ip).valid = true → (s.itable ip).nlink ≠ 0 →
      ∃ jp t, putAndGet sb ip (s.itable ip).inum s = .ok (jp, t) ∧ t.itable jp = s.itable ip ∧ t.cache = s.cache ∧
        ∀ kp ≠ ip, kp ≠ jp → t.itable kp = s.itable kp) ∧
    ∀ b, b < sb.dataStart ∨ Indirect sb s.cache (disk sb s.cache) b → fsStep sb s (.evict b) = some s := by
  have h := (mount_inv ho hf).of_run hrun
  refine ⟨h.uniq, fun ip hr hv hn => h.put_and_get hr hv hn, ?_⟩
  intro b hb
  change some ({ s with cache := update s.cache b (s.saved b) } : FsState) = some s
  rw [h.synced b hb, update_eq_self]

def linked : FsState :=
  (execute (fsStep mkfsSuperblock) (fun s c => c.Ready mkfsSuperblock s) (mount (blankImage mkfsSuperblock))
    [.ialloc 2, .ilock firstSlot, .setMeta firstSlot 0 0 1]).get (by decide +kernel)

theorem linked_cache_coherent : ∃ jp t, putAndGet mkfsSuperblock firstSlot (linked.itable firstSlot).inum linked =
    .ok (jp, t) ∧ t.itable jp = linked.itable firstSlot := by
  have h := inode_cache_coherent blankImage_owns blankImage_full (run_of_execute (t := linked) (Option.some_get _).symm)
  obtain ⟨jp, t, hrun, hjp, -⟩ := h.2.1 firstSlot (by decide +kernel) (by decide +kernel) (by decide +kernel)
  exact ⟨jp, t, hrun, hjp⟩

end Xv6.Fs
