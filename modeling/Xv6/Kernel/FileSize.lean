import Xv6.Kernel.MappedFile

namespace Xv6.Kernel

open Lib Vm Prog

variable {sys : Sys} {x y z : KState} {v w : Vma} {k : Fin nVma} {va addr a n i lo hi : ℕ}

def Vma.Grows (v : Vma) (a : ℕ) (page : Option Page) (size : ℕ) : Prop :=
  page ≠ none ∧ v.writesBack ∧ v.fileOff a ≤ size ∧ size < v.fileOff a + pgSize ∧
    v.fileOff a + pgSize ≤ Fs.maxFile * bSize

theorem length_writeAt_eq_iff (l data : List UInt8) (off : ℕ) :
    (Fs.writeAt l off data).length = l.length ↔
      ¬ (off ≤ l.length ∧ l.length < off + data.length ∧ off + data.length ≤ Fs.maxFile * bSize) := by
  unfold Fs.writeAt
  split_ifs with h
  · simp only [Fs.overwrite, List.length_append, List.length_take, List.length_drop]
    omega
  · omega

theorem Vma.length_back_eq_iff (v : Vma) (a : ℕ) (page : Option Page) (l : List UInt8) :
    (v.back a page l).length = l.length ↔ ¬ v.Grows a page l.length := by
  cases page with
  | none => simp [Vma.back, Vma.Grows]
  | some p =>
    rw [Vma.back]
    split_ifs with hw
    · rw [length_writeAt_eq_iff, length_pageBytes]
      simp [Vma.Grows, hw]
    · simp [Vma.Grows, hw]

theorem Vma.length_backAll {pages : ℕ → Option Page} {l : List UInt8}
    (h : ∀ j < n, ¬ v.Grows (va + j * pgSize) (pages (va + j * pgSize)) l.length) :
    (v.backAll pages n va l).length = l.length := by
  induction n generalizing va l with
  | zero => rfl
  | succ n ih =>
    have h0 := h 0 (Nat.succ_pos n)
    rw [Nat.zero_mul, Nat.add_zero] at h0
    have hlen := (v.length_back_eq_iff va (pages va) l).mpr h0
    rw [Vma.backAll, ih, hlen]
    intro j hj
    have haddr : va + pgSize + j * pgSize = va + (j + 1) * pgSize := by
      simp only [pgSize]
      omega
    rw [haddr, hlen]
    exact h (j + 1) (by omega)

def Keeps (sys : Sys) (x : KState) (i lo hi : ℕ) : Prop :=
  ∀ k v, x.2.proc.vmas k = some v → fileInum x v.file = i → ∀ a, a % pgSize = 0 → lo ≤ a → a < hi → v.Covers a →
    ¬ v.Grows a (pageAt x a) (Fs.contents sys.sb x.1.fs i).length

theorem dropped_linked {sb : Fs.Superblock} {s t : Fs.FsState} {ip : Fin nInode} (h : Fs.Dropped sb s t ip)
    (hs : Fs.FsInv sb s) (hr : 0 < (s.itable ip).ref) (hi : (Fs.attr sb s i).nlink ≠ 0) :
    Fs.contents sb t i = Fs.contents sb s i ∧ Fs.attr sb t i = Fs.attr sb s i := by
  by_cases hlast : (s.itable ip).ref = 1 ∧ (s.itable ip).valid = true ∧ (s.itable ip).nlink = 0
  · obtain ⟨hc, a, -, ha⟩ := h.freed hlast
    have hne : i ≠ (s.itable ip).inum := by
      rintro rfl
      apply hi
      rw [← hlast.2.2, ((hs.table ip hr).2 hlast.2.1).1]
      rfl
    rw [hc, ha, Function.update_of_ne hne, Function.update_of_ne hne]
    exact ⟨rfl, rfl⟩
  · obtain ⟨hc, -⟩ := h.kept hlast
    rw [Fs.contents_of_cache hc, Fs.attr_of_cache hc]
    exact ⟨rfl, rfl⟩

namespace Removes

theorem linked (h : Removes sys x y k v addr n) (hx : Ready sys x) (hk : x.2.proc.vmas k = some v)
    (hi : (Fs.attr sys.sb x.1.fs i).nlink ≠ 0) :
    Fs.contents sys.sb y.1.fs i = Function.update (Fs.contents sys.sb x.1.fs) (Kernel.fileInum x v.file)
        (v.backAll (pageAt x) n addr (fileBytes sys x v.file)) i ∧
      Fs.attr sys.sb y.1.fs i = Fs.attr sys.sb x.1.fs i := by
  cases h with
  | whole z hz hlo hhi hy =>
    rw [← hz.fs.contents, ← hz.fs.attr]
    rw [← hz.fs.attr] at hi
    have hb := ((hx.unmaps hz).file (by rw [hz.vmas]; exact hk)).backed
    have hfs := hy.fs
    split_ifs at hfs with hone
    · exact dropped_linked hfs hb.inv hb.ref hi
    · rw [hfs]
      exact ⟨rfl, rfl⟩
  | first z hz hlo hhi hy =>
    subst hy
    rw [← hz.fs.contents, ← hz.fs.attr]
    exact ⟨rfl, rfl⟩
  | last z hz hlo hhi hy =>
    subst hy
    rw [← hz.fs.contents, ← hz.fs.attr]
    exact ⟨rfl, rfl⟩

theorem leaf (h : Removes sys x y k v addr n) (hva : addr % pgSize = 0) (ha : a < 2 ^ 39) :
    leafOf y a = if inRange addr (addr + n * pgSize) a then none else leafOf x a := by
  cases h with
  | whole z hz hlo hhi hy =>
    rw [← hz.leaf hva ha, leafOf, hy.thread]
    rfl
  | first z hz hlo hhi hy =>
    subst hy
    rw [← hz.leaf hva ha]
    rfl
  | last z hz hlo hhi hy =>
    subst hy
    rw [← hz.leaf hva ha]
    rfl

theorem length_eq (h : Removes sys x y k v addr n) {length : ℕ} (hx : Ready sys x) (hk : x.2.proc.vmas k = some v)
    (hadm : Admits v addr length n) (hi : (Fs.attr sys.sb x.1.fs i).nlink ≠ 0)
    (hkeeps : Keeps sys x i addr (addr + n * pgSize)) :
    (Fs.contents sys.sb y.1.fs i).length = (Fs.contents sys.sb x.1.fs i).length := by
  rw [(h.linked hx hk hi).1]
  by_cases hf : i = Kernel.fileInum x v.file
  · subst hf
    rw [Function.update_self, Vma.length_backAll]
    · rfl
    · intro j hj
      have hmul : j * pgSize + pgSize ≤ n * pgSize := by
        rw [← Nat.succ_mul]
        exact Nat.mul_le_mul_right _ hj
      have hpos : 0 < pgSize := by decide
      have := hadm.lo
      have := hadm.hi
      exact hkeeps k v hk rfl _ (range_end hadm.aligned) (by omega) (by omega) ⟨by omega, by omega⟩
  · rw [Function.update_of_ne hf]

theorem keeps (h : Removes sys x y k v addr n) {length : ℕ} (hx : Ready sys x) (hk : x.2.proc.vmas k = some v)
    (hadm : Admits v addr length n)
    (hlen : (Fs.contents sys.sb y.1.fs i).length = (Fs.contents sys.sb x.1.fs i).length)
    (hkeeps : Keeps sys x i lo hi) : Keeps sys y i lo hi := by
  intro j w hj hf a hal hlo hhi hc hgrows
  rw [hlen] at hgrows
  have hy := (h.ready hx hk hadm).vmas.each j w hj
  have ha : a < 2 ^ 39 := by
    have := hy.le
    have := hc.2
    simp only [Vm.trapframe, trampoline, maxVa, pgSize] at *
    omega
  have hpage : pageAt x a ≠ none := by
    intro hnone
    apply hgrows.1
    rw [pageAt, Option.map_eq_none_iff] at hnone ⊢
    rw [h.leaf hadm.aligned ha, hnone, ite_self]
  rw [h.fileInum] at hf
  rw [h.vmas] at hj
  by_cases hjk : j = k
  · subst hjk
    rw [Function.update_self] at hj
    obtain ⟨hfile, hend, hstart, -⟩ := Vma.trim_eq hadm.trims hj
    obtain ⟨hoff, hflags, hprot⟩ := Vma.trim_offset hj
    have hsame : w.fileOff a = v.fileOff a := by
      have := hc.1
      unfold Vma.fileOff
      omega
    have hback : w.writesBack = v.writesBack := by rw [Vma.writesBack, hflags, hprot, Vma.writesBack]
    rw [hfile] at hf
    refine hkeeps j v hk hf a hal hlo hhi ⟨by have := hc.1; omega, by have := hc.2; omega⟩ ⟨hpage, ?_⟩
    rw [← hback, ← hsame]
    exact hgrows.2
  · rw [Function.update_of_ne hjk] at hj
    exact hkeeps j w hj hf a hal hlo hhi hc ⟨hpage, hgrows.2⟩

end Removes

theorem post_unmapEach {l : List (Fin nVma)} (hx : Ready sys x) (hi : (Fs.attr sys.sb x.1.fs i).nlink ≠ 0)
    (hkeeps : Keeps sys x i 0 Vm.trapframe) :
    (l.forM (fun k => do
      let p ← myproc
      match p.vmas k with
      | some v =>
        let _ ← vmaUnmap sys v.addr v.length
        return
      | none => return)).post x
      (fun _ y => (Fs.contents sys.sb y.1.fs i).length = (Fs.contents sys.sb x.1.fs i).length) (fun _ => True) := by
  induction l generalizing x with
  | nil => rfl
  | cons k l ih =>
    simp only [List.forM, post_bind, myproc, post_read]
    cases hk : x.2.proc.vmas k with
    | none => exact ih hx hi hkeeps
    | some v =>
      dsimp only
      rw [post_bind]
      refine post_mono (post_vmaUnmap (E := fun _ => True) hx (fun _ _ _ _ _ _ => trivial)) ?_ (fun _ he => he)
      rintro r y (⟨-, rfl, -⟩ | ⟨j, w, n, hj, hadm, hrem, -⟩)
      · exact ih hx hi hkeeps
      · have hend := (hx.vmas.each j w hj).le
        have hhi := hadm.hi
        have hlen := hrem.length_eq hx hj hadm hi
          (fun j' w' hj' hf a hal _ hb hc => hkeeps j' w' hj' hf a hal (Nat.zero_le a) (by omega) hc)
        have hi' : (Fs.attr sys.sb y.1.fs i).nlink ≠ 0 := by
          rw [(hrem.linked hx hj hi).2]
          exact hi
        rw [post_pure]
        refine post_mono (ih (hrem.ready hx hj hadm) hi' (hrem.keeps hx hj hadm hlen hkeeps)) ?_ (fun _ he => he)
        exact fun _ z hz => hz.trans hlen

/-- Removing mappings leaves the size of a linked file as it is, if no resident page that is written back crosses its end. -/
theorem unmapping_keeps_size (hx : Ready sys x) (hi : (Fs.attr sys.sb x.1.fs i).nlink ≠ 0) :
    (∀ (addr length : UInt64) (r : ℤ) (y : KState), (sysMunmap sys addr length).returns x r y →
        Keeps sys x i addr.toNat (addr.toNat + pgRoundUp length.toNat) →
        (Fs.contents sys.sb y.1.fs i).length = (Fs.contents sys.sb x.1.fs i).length) ∧
      ∀ y, (vmaUnmapAll sys).returns x () y → Keeps sys x i 0 Vm.trapframe →
        (Fs.contents sys.sb y.1.fs i).length = (Fs.contents sys.sb x.1.fs i).length := by
  constructor
  · intro addr length r y hr hkeeps
    rcases sysMunmap_cases hx hr with rfl | ⟨k, v, n, hk, hadm, hrem⟩
    · rfl
    · rw [hadm.round] at hkeeps
      exact hrem.length_eq hx hk hadm hi hkeeps
  · intro y hr hkeeps
    have hpost := post_returns (post_unmapEach (l := List.finRange nVma) hx hi hkeeps) hr
    exact hpost

theorem Ready.fault {cause : ℕ} {r : ℤ} (hx : Ready sys x) (hk : x.2.proc.vmas k = some v) (hc : v.Covers a)
    (hr : (vmaFault sys a cause).returns x r y) : Ready sys y := by
  have hpost := post_vmaFault (E := fun _ => True) cause hx.sound (hx.vmas.each k v hk)
    (findVma_eq_of_covers hx.vmas hk hc) (hx.file hk).backed
  obtain ⟨hsame, hif⟩ := post_returns hpost hr
  split_ifs at hif with h0
  · exact hx.of_files hif.1.sound hif.1.vmas hif.1.ftable hsame.inv hsame.attr hsame.table
  · exact hx.of_files hif.sound hif.vmas hif.ftable hsame.inv hsame.attr hsame.table

section Example

def linkAndWrite : List Fs.Call :=
  [.ialloc 2, .ilock ⟨0, nInode_pos⟩, .setMeta ⟨0, nInode_pos⟩ 0 0 1,
    .writei ⟨0, nInode_pos⟩ (Fs.Src.kernel fun _ => 7) 0 3]

def linkedFs : Fs.FsState :=
  (Transition.execute (Fs.fsStep Fs.mkfsSuperblock) (fun s c => c.Ready Fs.mkfsSuperblock s)
    (Fs.mount (Fs.blankImage Fs.mkfsSuperblock)) linkAndWrite).get (by decide +kernel)

def linkedFile : KState := oneOpen linkedFs

theorem linkedFile_ready : Ready bootSys linkedFile :=
  oneOpen_ready ((Fs.mount_inv Fs.blankImage_owns Fs.blankImage_full).of_run
    (Transition.run_of_execute (Option.some_get _).symm)) (by decide +kernel) (by decide +kernel)

def linkedPages : KState := after (sysMmap 0 8192 3 1 0 0) linkedFile

def secondPage : KState := after (vmaFault bootSys (base + 4096) 13) linkedPages

theorem linkedPages_returns : (sysMmap 0 8192 3 1 0 0).returns linkedFile base linkedPages :=
  returns_after (by decide +kernel)

theorem secondPage_returns : (vmaFault bootSys (base + 4096) 13).returns linkedPages 0 secondPage :=
  returns_after (by decide +kernel)

theorem secondPage_vma {j : Fin nVma} (hj : secondPage.2.proc.vmas j = some w) : w.addr = base ∧ w.length = 8192 ∧ w.offset = 0 := by
  have hall : ∀ j, (secondPage.2.proc.vmas j).all (fun v => v.addr = base ∧ v.length = 8192 ∧ v.offset = 0) = true := by
    decide +kernel
  have := hall j
  rw [hj, Option.all_some, decide_eq_true_eq] at this
  exact this

theorem secondPage_ready : Ready bootSys secondPage := by
  obtain ⟨k, u, hbase, hm⟩ := mmaps_of_returns linkedPages_returns (by decide)
  have haddr : u.addr = base := by exact_mod_cast hbase.symm
  have hlen : u.length = 8192 := hm.length
  have hk : linkedPages.2.proc.vmas k = some u := by
    rw [hm.result]
    exact Function.update_self _ _ _
  exact (hm.ready linkedFile_ready).fault hk ⟨by omega, by omega⟩ secondPage_returns

def onePage : KState := after (sysMmap 0 4096 3 1 0 0) linkedFile

def firstLoaded : KState := after (vmaFault bootSys 274877894656 13) onePage

theorem firstLoaded_returns : (vmaFault bootSys 274877894656 13).returns onePage 0 firstLoaded :=
  returns_after (by decide +kernel)

-- The elaborator would run the model when it looks at what a call returns.
attribute [irreducible] secondPage firstLoaded

def noPages : KState := after (sysMunmap bootSys 274877890560 8192) secondPage

def grownFile : KState := after (sysMunmap bootSys 274877894656 4096) firstLoaded

end Example

theorem page_past_end_keeps_size : ∃ y, (sysMunmap bootSys 274877890560 8192).returns secondPage (-1) y ∧
    (Fs.contents bootSys.sb y.1.fs 1).length = 3 := by
  have hr : (sysMunmap bootSys 274877890560 8192).returns secondPage (-1) noPages := returns_after (by decide +kernel)
  have hlen : (Fs.contents bootSys.sb secondPage.1.fs 1).length = 3 := by decide +kernel
  have hfirst : (pageAt secondPage base).isNone = true := by decide +kernel
  refine ⟨_, hr, (((unmapping_keeps_size secondPage_ready (by decide +kernel)).1 _ _ _ _ hr ?_)).trans hlen⟩
  intro j w hj _ a hal _ _ hc hgrows
  obtain ⟨haddr, hlength, hoffset⟩ := secondPage_vma hj
  have hcases : a = base ∨ a = base + 4096 := by
    unfold Vma.Covers at hc
    simp only [base, pgSize] at *
    omega
  rcases hcases with rfl | rfl
  · exact hgrows.1 (Option.isNone_iff_eq_none.mp hfirst)
  · have hoff : w.fileOff (base + 4096) = 4096 := by
      unfold Vma.fileOff
      rw [haddr, hoffset]
      decide
    have := hgrows.2.2.1
    rw [hlen, hoff] at this
    omega

theorem munmap_extends_file : ∃ x y z, (sysMmap 0 4096 3 1 0 0).returns linkedFile 274877894656 x ∧
    (vmaFault bootSys 274877894656 13).returns x 0 y ∧ (sysMunmap bootSys 274877894656 4096).returns y 0 z ∧
    (Fs.attr bootSys.sb z.1.fs 1).nlink = 1 ∧ (Fs.contents bootSys.sb y.1.fs 1).length = 3 ∧
    (Fs.contents bootSys.sb z.1.fs 1).length = 4096 := by
  have hmap : (sysMmap 0 4096 3 1 0 0).returns linkedFile 274877894656 onePage := returns_after (by decide +kernel)
  have hunmap : (sysMunmap bootSys 274877894656 4096).returns firstLoaded 0 grownFile := returns_after (by decide +kernel)
  exact ⟨_, _, _, hmap, firstLoaded_returns, hunmap, by decide +kernel, by decide +kernel, by decide +kernel⟩

end Xv6.Kernel
