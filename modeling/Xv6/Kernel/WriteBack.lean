import Xv6.Kernel.Piecewise

namespace Xv6.Kernel

open Lib Vm Prog

variable {sys : Sys} {x y z : KState} {v : Vma} {k : Fin nVma} {addr length n a : ℕ}

/-! ### What is written back -/

theorem Vma.overlay_private {pages : ℕ → Option Page} {S : ℕ → Bool} {l : List UInt8} (h : ¬ v.writesBack = true) :
    v.overlay pages S l = l := by
  apply List.ext_getElem?
  intro o
  simp only [Vma.overlay, List.getElem?_mapIdx, h]
  cases l[o]? <;> simp

def Inside (sys : Sys) (x : KState) (v : Vma) (addr n : ℕ) : Prop :=
  ∀ i < n, pageAt x (addr + i * pgSize) ≠ none → v.place (addr + i * pgSize) + pgSize ≤ (fileBytes sys x v.file).length

theorem Inside.fits (h : Inside sys x v addr n) (hb : Backed sys x v.file) (hlo : v.addr ≤ addr) : Fits sys x v addr n := by
  intro i hi hp _
  have hlen := h i hi hp
  have hmax := length_fileBytes_le hb
  have hbig : Fs.maxFile * bSize < 2 ^ 32 := by decide
  rw [(Vma.fileOff_eq_iff (by omega)).mpr (by omega)]
  exact hlen

def FreesFile (sys : Sys) (x : KState) (v : Vma) (n : ℕ) : Prop := n * pgSize = v.length ∧ LastUse sys x v

structure WrittenBack (sys : Sys) (x y : KState) (v : Vma) (addr n : ℕ) : Prop where
  file : ¬ FreesFile sys x v n → Fs.contents sys.sb y.1.fs = Function.update (Fs.contents sys.sb x.1.fs)
    (fileInum x v.file) (v.overlay (pageAt x) (inRange addr (addr + n * pgSize)) (fileBytes sys x v.file))
  unshared : v.writesBack = false → ¬ FreesFile sys x v n → Fs.contents sys.sb y.1.fs = Fs.contents sys.sb x.1.fs
  freed : ∃ freed, y.1.freelist = freed ++ x.1.freelist ∧ y.1.freelist.Nodup ∧
    ∀ p, p ∈ freed ↔ ∃ a pte, inRange addr (addr + n * pgSize) a ∧ leafOf x a = some pte ∧ pte.pa = p
  unmapped : ∀ a < 2 ^ 39, inRange addr (addr + n * pgSize) a → leafOf y a = none
  outside : ∀ a < 2 ^ 39, inRange addr (addr + n * pgSize) a = false → leafOf y a = leafOf x a
  contents : ∀ a < Vm.trapframe, inRange addr (addr + n * pgSize) a = false → pageAt y a = pageAt x a

theorem Closes.contents {drop : Local → Local} (hz : Unmaps sys x z v addr n) (hx : Ready sys x)
    (hk : x.2.proc.vmas k = some v) (hlo : addr = v.addr) (hhi : addr + n * pgSize = v.addr + v.length)
    (hy : Closes sys z y v.file drop) (hlast : ¬ LastUse sys x v) : Fs.contents sys.sb y.1.fs = Fs.contents sys.sb z.1.fs := by
  have hb := (hx.file hk).backed
  have hfs := hy.fs
  rw [hz.ftable] at hfs
  split_ifs at hfs with hone
  · refine Fs.contents_of_cache (hfs.kept (fun hfree => hlast ?_)).1
    obtain ⟨href, hvalid, hnlink⟩ := hfree
    have hzref : 0 < (z.1.fs.itable (x.1.ftable v.file).ip).ref := by omega
    refine ⟨hone, ?_, ?_, ?_⟩
    · rw [← (hz.fs.table _).1]
      exact href
    · have hload := hz.loaded.mp hvalid
      rw [hhi, hlo] at hload
      exact hload
    · rw [← hz.fs.attr, ← hnlink, ((hz.fs.inv.table _ hzref).2 hvalid).1, (hz.fs.table _).2]
      rfl
  · rw [hfs]

theorem Removes.writtenBack (h : Removes sys x y k v addr n) (hx : Ready sys x) (hk : x.2.proc.vmas k = some v)
    (hadm : Admits v addr length n) (hin : Inside sys x v addr n) : WrittenBack sys x y v addr n := by
  have hok := hx.vmas.each k v hk
  have hend : addr + n * pgSize ≤ Vm.trapframe := hadm.hi.trans hok.le
  have hready := h.ready hx hk hadm
  have hleaf {a : ℕ} (ha : a < 2 ^ 39) := h.leaf hadm.aligned ha
  have hbytes : v.backAll (pageAt x) n addr (fileBytes sys x v.file) =
      v.overlay (pageAt x) (inRange addr (addr + n * pgSize)) (fileBytes sys x v.file) :=
    Vma.backAll_eq hok.addr hadm.aligned hadm.lo hin (length_fileBytes_le (hx.file hk).backed)
  -- what the loop leaves, before the slot is set and the file closed
  obtain ⟨z, hz, hmem, hfree, hfs⟩ : ∃ z, Unmaps sys x z v addr n ∧ (∀ a, pageAt y a = pageAt z a) ∧
      y.1.freelist = z.1.freelist ∧ (¬ FreesFile sys x v n → Fs.contents sys.sb y.1.fs = Fs.contents sys.sb z.1.fs) := by
    cases h with
    | whole z hz hlo hhi hy =>
      refine ⟨z, hz, fun a => ?_, hy.freelist, fun hlast => ?_⟩
      · simp only [pageAt, leafOf, hy.thread, hy.mem]
        rfl
      · exact hy.contents hz hx hk hlo hhi (fun huse => hlast ⟨by omega, huse⟩)
    | first z hz hlo hhi hy =>
      subst hy
      exact ⟨z, hz, fun _ => rfl, rfl, fun _ => rfl⟩
    | last z hz hlo hhi hy =>
      subst hy
      exact ⟨z, hz, fun _ => rfl, rfl, fun _ => rfl⟩
  have hfile : ¬ FreesFile sys x v n → Fs.contents sys.sb y.1.fs = Function.update (Fs.contents sys.sb x.1.fs)
      (Kernel.fileInum x v.file) (v.overlay (pageAt x) (inRange addr (addr + n * pgSize)) (fileBytes sys x v.file)) := by
    intro hlast
    rw [hfs hlast, hz.fs.contents, hbytes]
  obtain ⟨freed, hlist, -, hiff, -⟩ := hz.list
  refine ⟨hfile, fun hpriv hlast => ?_, ⟨freed, ?_, hready.sound.nodup, hiff⟩, fun a ha hr => ?_, fun a ha hr => ?_, fun a ha hr => ?_⟩
  · rw [hfile hlast, Vma.overlay_private (by simp [hpriv])]
    exact Function.update_eq_self _ _
  · rw [hfree, hlist]
  · rw [hleaf ha, if_pos hr]
  · rw [hleaf ha, if_neg (by simp [hr])]
  · rw [hmem, hz.pageAt hx.sound hadm.aligned hend ha, if_neg (by simp [hr])]

section Example

def longLoaded : KState := after (vmaFault bootSys base 15) longMapped

theorem longLoaded_returns : (vmaFault bootSys base 15).returns longMapped 0 longLoaded := returns_after (by decide +kernel)

-- The elaborator would run the model when it looks at what a call returns.
attribute [irreducible] longLoaded

theorem longLoaded_ready : Ready bootSys longLoaded := by
  obtain ⟨k, u, hbase, hm⟩ := mmaps_of_returns longMapped_returns (by decide)
  have haddr : u.addr = base := by exact_mod_cast hbase.symm
  have hlen : u.length = 8192 := hm.length
  have hk : longMapped.2.proc.vmas k = some u := by
    rw [hm.result]
    exact Function.update_self _ _ _
  exact (hm.ready longFile_ready).fault hk ⟨by omega, by omega⟩ longLoaded_returns

theorem longLoaded_vma {j : Fin nVma} (hj : longLoaded.2.proc.vmas j = some v) :
    v.addr = base ∧ v.length = 8192 ∧ v.offset = 0 ∧ (fileBytes bootSys longLoaded v.file).length = 8192 := by
  have hall : ∀ j, (longLoaded.2.proc.vmas j).all (fun v => v.addr = base ∧ v.length = 8192 ∧ v.offset = 0 ∧
      (fileBytes bootSys longLoaded v.file).length = 8192) = true := by
    decide +kernel
  have := hall j
  rw [hj, Option.all_some, decide_eq_true_eq] at this
  exact this

theorem longLoaded_inside {j : Fin nVma} (hj : longLoaded.2.proc.vmas j = some v) (hadm : Admits v addr length n) :
    Inside bootSys longLoaded v addr n := by
  obtain ⟨haddr, hlen, hoff, hfile⟩ := longLoaded_vma hj
  intro i hi _
  have hmul : i * pgSize + pgSize ≤ n * pgSize := by
    rw [← Nat.succ_mul]
    exact Nat.mul_le_mul_right _ hi
  have := hadm.lo
  have := hadm.hi
  rw [hfile, Vma.place, hoff, haddr]
  omega

end Example

end Xv6.Kernel
