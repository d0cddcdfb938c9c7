import Xv6.Kernel.MmapSpec
import Xv6.Kernel.PageData

namespace Xv6.Kernel

open Lib Vm Prog
open Function (update update_of_ne update_self)

variable {sys : Sys} {x y z : KState} {v : Vma} {k : Fin nVma} {va : ℕ} {f : Fin nFile} {α : Type}
  {E : Panic → Prop} {S : ℕ → Prop}

theorem post_fsStep {m : KState → Fs.FsM α} {Q : α → KState → Prop}
    (h : Hoare.wp (m x) x.1.fs (fun a fs => Q a ({ x.1 with fs := fs }, x.2)) (fun e => E (.fs e))) :
    (fsStep m).post x Q E := by
  rw [fsStep, post_step]
  unfold Hoare.wp at h
  cases hm : m x x.1.fs with
  | ok r =>
    rw [hm] at h
    exact h
  | error e =>
    rw [hm] at h
    exact h

theorem post_fsCall {m : Fs.FsM α} {Q : α → KState → Prop}
    (h : Hoare.wp m x.1.fs (fun a fs => Q a ({ x.1 with fs := fs }, x.2)) (fun e => E (.fs e))) :
    (fsCall m).post x Q E := post_fsStep h

def fileInum (x : KState) (f : Fin nFile) : ℕ := (x.1.fs.itable (x.1.ftable f).ip).inum

def fileBytes (sys : Sys) (x : KState) (f : Fin nFile) : List UInt8 :=
  Fs.contents sys.sb x.1.fs (fileInum x f)

structure Backed (sys : Sys) (x : KState) (f : Fin nFile) : Prop where
  inv : Fs.FsInv sys.sb x.1.fs
  ref : 0 < (x.1.fs.itable (x.1.ftable f).ip).ref
  type : (Fs.attr sys.sb x.1.fs (fileInum x f)).type ≠ 0

structure SameFiles (sb : Fs.Superblock) (s t : Fs.FsState) : Prop where
  inv : Fs.FsInv sb t
  contents : Fs.contents sb t = Fs.contents sb s
  attr : Fs.attr sb t = Fs.attr sb s
  table : ∀ jp, (t.itable jp).ref = (s.itable jp).ref ∧ (t.itable jp).inum = (s.itable jp).inum

theorem Backed.load (h : Backed sys x f) :
    SameFiles sys.sb x.1.fs (x.1.fs.load sys.sb (x.1.ftable f).ip) where
  inv := h.inv.load h.ref h.type
  contents := Fs.contents_of_cache rfl
  attr := Fs.attr_of_cache rfl
  table jp := by
    by_cases hj : jp = (x.1.ftable f).ip
    · subst hj
      simp only [Fs.FsState.load, update_self, and_self]
    · simp only [Fs.FsState.load, update_of_ne hj, and_self]

theorem SameFiles.backed (h : SameFiles sys.sb x.1.fs y.1.fs) (hf : y.1.ftable = x.1.ftable)
    (hb : Backed sys x f) : Backed sys y f ∧ fileBytes sys y f = fileBytes sys x f := by
  have hinum : fileInum y f = fileInum x f := by
    rw [fileInum, fileInum, hf, (h.table _).2]
  refine ⟨⟨h.inv, ?_, ?_⟩, ?_⟩
  · rw [hf, (h.table _).1]
    exact hb.ref
  · rw [hinum, h.attr]
    exact hb.type
  · rw [fileBytes, fileBytes, hinum, h.contents]

structure Calm (sys : Sys) (x y : KState) (S : ℕ → Prop) : Prop where
  leaf : ∀ a < 2 ^ 39, ¬ S a → leafOf y a = leafOf x a
  mem : ∀ a < Vm.trapframe, ¬ S a → ∀ pte, leafOf x a = some pte → y.1.mem pte.pa = x.1.mem pte.pa
  sound : Sound sys y
  ftable : y.1.ftable = x.1.ftable
  vmas : y.2.proc.vmas = x.2.proc.vmas

theorem Calm.refl (h : Sound sys x) : Calm sys x x S :=
  ⟨fun _ _ _ => rfl, fun _ _ _ _ _ => rfl, h, rfl, rfl⟩

structure Fills (x y : KState) (mem : ℕ) : Prop where
  list : x.1.freelist = mem :: y.1.freelist
  mem : ∀ p ≠ mem, y.1.mem p = x.1.mem p
  table : y.2.proc.pagetable = x.2.proc.pagetable
  ftable : y.1.ftable = x.1.ftable
  vmas : y.2.proc.vmas = x.2.proc.vmas

theorem Fills.leaf {mem : ℕ} (h : Fills x y mem) (a : ℕ) : leafOf y a = leafOf x a := by
  rw [leafOf, leafOf, h.table]

theorem Fills.not_mem {mem : ℕ} (h : Fills x y mem) (hx : Sound sys x) : mem ∉ y.1.freelist := by
  have hn := hx.nodup
  rw [h.list] at hn
  exact (List.nodup_cons.mp hn).1

theorem Fills.ne {mem : ℕ} (h : Fills x y mem) (hx : Sound sys x) {a : ℕ} (ha : a < Vm.trapframe) {pte : Pte}
    (hl : leafOf x a = some pte) : pte.pa ≠ mem := by
  rintro rfl
  apply hx.taken a ha pte hl
  rw [h.list]
  exact List.mem_cons_self

theorem Fills.maps {mem : ℕ} {used : List ℕ} {pte : Pte} (h : Fills x y mem) (hx : Sound sys x)
    (hm : Maps y z va pte used) (hpa : pte.pa = mem) :
    Calm sys x z (fun a => a / pgSize = va / pgSize) ∧ z.1.mem mem = y.1.mem mem := by
  have hlist : x.1.freelist = mem :: (used ++ z.1.freelist) := by rw [h.list, hm.list]
  have hnot : mem ∉ used ∧ mem ∉ z.1.freelist := by
    have := h.not_mem hx
    rw [hm.list, List.mem_append, not_or] at this
    exact this
  have hsub : ∀ p ∈ z.1.freelist, p ∈ x.1.freelist := by
    intro p hp
    rw [hlist]
    exact List.mem_cons_of_mem _ (List.mem_append_right _ hp)
  have hmemPool : sys.InPool mem := by
    apply hx.pool
    rw [hlist]
    exact List.mem_cons_self
  have hlt : Vm.trapframe < 2 ^ 39 := by decide
  have hleaf : ∀ a < 2 ^ 39, leafOf z a = if a / pgSize = va / pgSize then some pte else leafOf x a := by
    intro a ha
    rw [hm.leaf a ha, h.leaf]
  refine ⟨⟨fun a ha hne => ?_, fun a ha _ q hq => ?_, ?_, ?_, ?_⟩, hm.mem mem hnot.1⟩
  · rw [hleaf a ha, if_neg hne]
  · rw [hm.mem, h.mem _ (h.ne hx ha hq)]
    intro hin
    apply hx.taken a ha q hq
    rw [hlist]
    exact List.mem_cons_of_mem _ (List.mem_append_left _ hin)
  · refine ⟨hm.table, ?_, fun p hp => hx.pool p (hsub p hp), ?_, ?_, ?_⟩
    · have hn := hx.nodup
      rw [hlist, List.nodup_cons, List.nodup_append] at hn
      exact hn.2.2.1
    · intro a ha q hq hin
      rw [hleaf a (by omega)] at hq
      split_ifs at hq with hpage
      · cases hq
        rw [hpa] at hin
        exact hnot.2 hin
      · exact hx.taken a ha q hq (hsub _ hin)
    · intro a ha q hq
      rw [hleaf a (by omega)] at hq
      split_ifs at hq with hpage
      · cases hq
        rw [hpa]
        exact hmemPool
      · exact hx.user a ha q hq
    · intro a ha b hb q r hq hr heq
      rw [hleaf a (by omega)] at hq
      rw [hleaf b (by omega)] at hr
      split_ifs at hq hr with hpa' hpb hpb
      · rw [hpa', hpb]
      · cases hq
        exact absurd (heq.symm.trans hpa) (h.ne hx hb hr)
      · cases hr
        exact absurd (heq.trans hpa) (h.ne hx ha hq)
      · exact hx.apart a ha b hb q r hq hr heq
  · rw [hm.ftable, h.ftable]
  · rw [hm.vmas, h.vmas]

theorem Fills.undo {mem : ℕ} {used : List ℕ} {l : Local} (h : Fills x y mem) (hx : Sound sys x)
    (ht : Takes y z used) (hl : l.proc = z.2.proc) : Calm sys x (z.1.free mem, l) S := by
  have hlist : x.1.freelist = mem :: (used ++ z.1.freelist) := by rw [h.list, ht.list]
  have hnot : mem ∉ z.1.freelist := by
    have := h.not_mem hx
    rw [ht.list, List.mem_append, not_or] at this
    exact this.2
  have hleaf : ∀ a, leafOf (z.1.free mem, l) a = leafOf x a := by
    intro a
    rw [← h.leaf, ← ht.leaf, leafOf, leafOf, hl]
  have hsub : ∀ p ∈ (z.1.free mem).freelist, p ∈ x.1.freelist := by
    intro p hp
    rw [hlist]
    cases List.mem_cons.mp hp with
    | inl he =>
      rw [he]
      exact List.mem_cons_self
    | inr hp => exact List.mem_cons_of_mem _ (List.mem_append_right _ hp)
  refine ⟨fun a _ _ => hleaf a, fun a ha _ q hq => ?_, ?_, ht.ftable.trans h.ftable, ?_⟩
  · show update z.1.mem mem (fun _ => 1) q.pa = _
    rw [update_of_ne (h.ne hx ha hq), ht.mem, h.mem _ (h.ne hx ha hq)]
    intro hin
    apply hx.taken a ha q hq
    rw [hlist]
    exact List.mem_cons_of_mem _ (List.mem_append_left _ hin)
  · refine ⟨?_, ?_, fun p hp => hx.pool p (hsub p hp), ?_, ?_, ?_⟩
    · show ∃ pt, l.proc.pagetable = some pt
      rw [hl]
      rw [← Option.isSome_iff_exists, ht.table, h.table, Option.isSome_iff_exists]
      exact hx.table
    · apply List.nodup_cons.mpr ⟨hnot, _⟩
      have hn := hx.nodup
      rw [hlist, List.nodup_cons, List.nodup_append] at hn
      exact hn.2.2.1
    · intro a ha q hq hin
      rw [hleaf] at hq
      exact hx.taken a ha q hq (hsub _ hin)
    · intro a ha q hq
      rw [hleaf] at hq
      exact hx.user a ha q hq
    · intro a ha b hb q r hq hr
      rw [hleaf] at hq hr
      exact hx.apart a ha b hb q r hq hr
  · show l.proc.vmas = _
    rw [hl, ht.vmas, h.vmas]

def Shows (y : KState) (va : ℕ) (bytes : List UInt8) (off : ℕ) : Prop :=
  ∃ pte, leafOf y va = some pte ∧ ∀ j < pgSize, (y.1.mem pte.pa).get j = bytes.getD (off + j) 0

theorem get_filled {bytes : List UInt8} {off j : ℕ} (hj : j < pgSize) :
    (Bytes.patch (fun _ => 0 : Page) 0 ((bytes.drop off).take pgSize).length
      (fun i => ((bytes.drop off).take pgSize).getD i 0)).get j = bytes.getD (off + j) 0 := by
  have hget : ((bytes.drop off).take pgSize).getD j 0 = bytes.getD (off + j) 0 := by
    rw [List.getD_eq_getElem?_getD, List.getD_eq_getElem?_getD, List.getElem?_take, if_pos hj, List.getElem?_drop]
  by_cases hin : j < ((bytes.drop off).take pgSize).length
  · rw [Bytes.get_patch_of_mem hj ⟨Nat.zero_le _, by omega⟩, Nat.sub_zero, hget]
  · rw [Bytes.get_patch_of_not_mem (by omega), Bytes.get_zero, ← hget, List.getD_eq_getElem?_getD,
      List.getElem?_eq_none (by omega)]
    rfl

theorem pgRoundDown_div (a : ℕ) : pgRoundDown a / pgSize = a / pgSize := Nat.mul_div_cancel _ (by decide)

theorem fileOff_lt (v : Vma) (a : ℕ) : v.fileOff a < 2 ^ 32 := Nat.mod_lt _ (by decide)

theorem post_ilock {ip : Fin nInode} {Q : Unit → KState → Prop} (h : Backed sys x f) (hip : ip = (x.1.ftable f).ip)
    (hQ : ∀ fs, SameFiles sys.sb x.1.fs fs → (fs.itable ip).valid = true → Q () ({ x.1 with fs := fs }, x.2)) :
    (fsCall (Fs.ilock sys.sb ip)).post x Q E := by
  subst hip
  apply post_fsCall
  apply Fs.ilock_effect h.inv h.ref h.type
  apply hQ _ h.load
  simp only [Fs.FsState.load, update_self]

def faultPage (sys : Sys) (v : Vma) (va mem : ℕ) : KM ℤ := do
  let ip ← .read (fun x => (x.1.ftable v.file).ip)
  fsCall (Fs.ilock sys.sb ip)
  let (n, data) ← fsCall (Fs.readi sys.sb ip (fun _ => false) (v.fileOff va) pgSize)
  storeBytes mem 0 data.length (fun i => data.getD i 0)
  if n < 0 then
    kfree sys mem (·.dropPage mem)
    return -1
  else
    let mapped ← mappages .own va pgSize mem v.pte
    if mapped then return 0
    else
      kfree sys mem (·.dropPage mem)
      return -1

theorem post_faultPage {mem : ℕ} {pt : PageTable} (h : Sound sys x) (hz : Fills x z mem) (hfs : z.1.fs = x.1.fs)
    (hzero : z.1.mem mem = fun _ => 0) (hpt : x.2.proc.pagetable = some pt) (ha : va % pgSize = 0)
    (hva : va < maxVa) (hnone : pt.leaf va = none) (hb : Backed sys x v.file) :
    (faultPage sys v va mem).post z (fun r y => SameFiles sys.sb x.1.fs y.1.fs ∧
      if r = 0 then Calm sys x y (fun b => b / pgSize = va / pgSize) ∧
        Shows y va (fileBytes sys x v.file) (v.fileOff va)
      else Calm sys x y (fun _ => False)) E := by
  have hbz : Backed sys z v.file := by
    have hsame : SameFiles sys.sb x.1.fs z.1.fs := ⟨hfs ▸ hb.inv, by rw [hfs], by rw [hfs], fun _ => by rw [hfs]; exact ⟨rfl, rfl⟩⟩
    exact (hsame.backed hz.ftable hb).1
  have hip : (z.1.ftable v.file).ip = (x.1.ftable v.file).ip := by rw [hz.ftable]
  have hpool : sys.InPool mem := by
    apply h.pool
    rw [hz.list]
    exact List.mem_cons_self
  rw [faultPage, post_bind, post_read, post_bind]
  apply post_ilock hbz rfl
  intro fs hsame hvalid
  rw [hfs] at hsame
  have href : 0 < (fs.itable (z.1.ftable v.file).ip).ref := by
    rw [hip, (hsame.table _).1]
    exact hb.ref
  have hbytes : Fs.contents sys.sb fs (fs.itable (z.1.ftable v.file).ip).inum = fileBytes sys x v.file := by
    rw [hip, (hsame.table _).2, hsame.contents]
    rfl
  rw [post_bind]
  apply post_fsCall
  apply Fs.readi_effect hsame.inv href hvalid (fileOff_lt v _) (by decide)
  dsimp only
  rw [hbytes, post_bind, storeBytes, post_modify, post_ite, if_neg (by omega)]
  generalize hw : ((Shared.fill _ mem _, z.2) : KState) = w
  have hwf : w.1.fs = fs := by rw [← hw]; rfl
  have hfills : Fills x w mem := by
    rw [← hw]
    exact ⟨hz.list, fun p hp => (update_of_ne hp _ _).trans (hz.mem p hp), hz.table, hz.ftable, hz.vmas⟩
  have hdata : ∀ j < pgSize, (w.1.mem mem).get j = (fileBytes sys x v.file).getD (v.fileOff va + j) 0 := by
    intro j hj
    rw [← hw]
    simp only [Shared.fill, update_self]
    rw [hzero]
    exact get_filled hj
  rw [post_bind]
  apply post_mono (post_mappages (hfills.table.trans hpt) ha hva hnone) _ (fun _ he => he)
  rintro mapped y ⟨used, hy⟩
  cases mapped with
  | true =>
    rw [if_pos rfl] at hy
    obtain ⟨hcalm, hmem⟩ := hfills.maps h hy rfl
    rw [if_pos rfl, post_pure]
    refine ⟨by rw [hy.fs, hwf]; exact hsame, ?_⟩
    rw [if_pos rfl]
    refine ⟨hcalm, v.pte mem, ?_, fun j hj => ?_⟩
    · rw [hy.leaf va (hva.trans (by decide)), if_pos rfl]
    · rw [show (v.pte mem).pa = mem from rfl, hmem]
      exact hdata j hj
  | false =>
    rw [if_neg Bool.false_ne_true] at hy
    rw [if_neg Bool.false_ne_true, post_bind, kfree, if_pos hpool, post_modify, post_pure]
    refine ⟨by rw [show (y.1.free mem).fs = y.1.fs from rfl, hy.fs, hwf]; exact hsame, ?_⟩
    rw [if_neg (by decide)]
    exact hfills.undo h hy rfl

theorem post_vmaFault {a : ℕ} (cause : ℕ) (h : Sound sys x) (hv : v.Ok)
    (hfind : findVma x.2.proc.vmas (fun v => v.addr ≤ a && a < (v.addr + v.length) % 2 ^ 64) = some (k, v))
    (hb : Backed sys x v.file) :
    (vmaFault sys a cause).post x (fun r y => SameFiles sys.sb x.1.fs y.1.fs ∧
      if r = 0 then Calm sys x y (fun b => b / pgSize = a / pgSize) ∧ leafOf x a = none ∧
        Shows y (pgRoundDown a) (fileBytes sys x v.file) (v.fileOff (pgRoundDown a))
      else Calm sys x y (fun _ => False)) E := by
  have hsame : SameFiles sys.sb x.1.fs x.1.fs := ⟨hb.inv, rfl, rfl, fun _ => ⟨rfl, rfl⟩⟩
  obtain ⟨pt, hpt⟩ := h.table
  have ha : a < Vm.trapframe := by
    obtain ⟨-, htest⟩ := findVma_eq hfind
    simp only [Bool.and_eq_true, decide_eq_true_eq] at htest
    have hle := hv.le
    simp only [Vm.trapframe, trampoline, maxVa, pgSize] at *
    omega
  have hround : pgRoundDown a < maxVa ∧ pgRoundDown a ≤ a := by
    have hle : pgRoundDown a ≤ a := Nat.div_mul_le_self _ _
    simp only [Vm.trapframe, trampoline, maxVa, pgSize] at *
    omega
  rw [vmaFault, post_bind, myproc, post_read, hfind]
  dsimp only
  rw [post_ite]
  split_ifs with hden
  · exact ⟨hsame, Calm.refl h⟩
  rw [post_bind]
  apply post_walk hpt hround.1
  rw [post_bind]
  apply post_pteAt hpt
  rw [post_ite]
  split_ifs with hres
  · exact ⟨hsame, Calm.refl h⟩
  have hnone : pt.leaf (pgRoundDown a) = none := by
    cases hl : pt.leaf (pgRoundDown a) with
    | none => rfl
    | some pte =>
      obtain ⟨n, hn⟩ := PageTable.node0_of_leaf hl
      rw [hn, hl] at hres
      exact absurd rfl hres
  have hleafA : leafOf x a = none := by
    have htf : Vm.trapframe < 2 ^ 39 := by decide
    rw [leafOf_of_div (pgRoundDown a) (by omega) (by omega) (pgRoundDown_div a).symm, leafOf_eq hpt, hnone]
  rw [post_bind]
  apply post_kalloc
  · exact ⟨hsame, Calm.refl h⟩
  intro mem rest hlist
  rw [post_bind, fillPage, post_modify]
  have hround' : pgRoundDown a % pgSize = 0 := Nat.mul_mod_left _ _
  apply post_mono (post_faultPage h _ _ _ hpt hround' hround.1 hnone hb) _ (fun _ he => he)
  · refine ⟨hlist, fun p hp => ?_, rfl, rfl, rfl⟩
    exact (update_of_ne hp _ _).trans (update_of_ne hp _ _)
  · rfl
  · exact update_self _ _ _
  · rintro r y ⟨hfs, hr⟩
    refine ⟨hfs, ?_⟩
    rw [pgRoundDown_div] at hr
    split_ifs at hr ⊢ with hr0
    · exact ⟨hr.1, hleafA, hr.2⟩
    · exact hr

end Xv6.Kernel
