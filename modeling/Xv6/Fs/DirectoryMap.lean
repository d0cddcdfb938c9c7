import Mathlib
import Xv6.Fs.Directory

namespace Xv6.Fs

open Lib Hoare
open Function (update update_of_ne update_self)

inductive DirOp
  | dirlink (name : ℕ → UInt8) (inum : ℕ)
  | clear (name : ℕ → UInt8)
  | dirlookup (name : ℕ → UInt8)

namespace DirOp

def exec (sb : Superblock) (dp : Fin nInode) : DirOp → FsM ℤ
  | dirlink name inum => Fs.dirlink sb dp name inum
  | clear name => clearEntry sb dp name
  | dirlookup name => lookupInum sb dp name

def execAll (sb : Superblock) (dp : Fin nInode) : List DirOp → FsM (List ℤ)
  | [] => return []
  | op :: ops => do
    let r ← op.exec sb dp
    let rs ← execAll sb dp ops
    return r :: rs

def spec (m : List UInt8 → Option ℕ) : DirOp → ℤ × (List UInt8 → Option ℕ)
  | dirlink name inum =>
    match m (cstr dirSiz name) with
    | some _ => (-1, m)
    | none => (0, update m (cstr dirSiz name) (some inum))
  | clear name =>
    match m (cstr dirSiz name) with
    | some _ => (0, update m (cstr dirSiz name) none)
    | none => (-1, m)
  | dirlookup name =>
    match m (cstr dirSiz name) with
    | some i => (i, m)
    | none => (-1, m)

def specAll : (List UInt8 → Option ℕ) → List DirOp → List ℤ × (List UInt8 → Option ℕ)
  | m, [] => ([], m)
  | m, op :: ops =>
    let (r, m') := op.spec m
    let (rs, m'') := specAll m' ops
    (r :: rs, m'')

def Valid (sb : Superblock) : DirOp → Prop
  | dirlink _ inum => 0 < inum ∧ inum < 65536 ∧ inum < sb.ninodes
  | _ => True

def Panics (sb : Superblock) (s : FsState) (dp : Fin nInode) (e : String) : Prop :=
  (e = "iget: no inodes" ∧ ∀ ip, 0 < (s.itable ip).ref) ∨
    (e = "balloc: out of blocks" ∧ ∃ j, freeBlocks sb s.cache < lacking sb s dp (touched (direntSize * j) direntSize)) ∨
    (e = "dirlink" ∧ maxFile * bSize < (contents sb s (s.itable dp).inum).length + direntSize)

end DirOp

structure DirStep (sb : Superblock) (s t : FsState) (dp : Fin nInode) (op : DirOp) (r : ℤ) : Prop where
  held : HeldDir sb t dp
  table : SameTable s t
  spec : (r, lookup (contents sb t (s.itable dp).inum)) = op.spec (lookup (contents sb s (s.itable dp).inum))
  others : ∀ i ≠ (s.itable dp).inum, contents sb t i = contents sb s i
  kept : (∀ name inum, op = .dirlink name inum → r = -1) → (∀ name, op = .clear name → r = -1) → contents sb t = contents sb s
  linked : ∀ name inum, op = .dirlink name inum → r = 0 →
    ∃ j ≤ entryCount (contents sb s (s.itable dp).inum),
      (∀ i < j, direntInum (entry (contents sb s (s.itable dp).inum) i) ≠ 0) ∧
      (j < entryCount (contents sb s (s.itable dp).inum) → direntInum (entry (contents sb s (s.itable dp).inum) j) = 0) ∧
      contents sb t (s.itable dp).inum =
        overwrite (contents sb s (s.itable dp).inum) (direntSize * j) (dirent inum name)

variable {sb : Superblock} {s t : FsState} {dp : Fin nInode}

theorem Held.type_eq (h : Held sb s dp) : (s.itable dp).type = (attr sb s (s.itable dp).inum).type := by
  rw [attr, ← ((h.inv.table dp h.ref).2 h.valid).1]
  rfl

theorem HeldDir.of_same (h : HeldDir sb s dp) (ht : FsInv sb t) (htab : SameTable s t) (hattr : attr sb t = attr sb s)
    (hdir : DirOk (contents sb t (s.itable dp).inum))
    (hin : ∀ n i, lookup (contents sb t (s.itable dp).inum) n = some i → i < sb.ninodes) : HeldDir sb t dp := by
  have hinum := (htab.kept dp h.ref).1
  have hheld := htab.held h.toHeld ht
  refine ⟨hheld, ?_, by rw [hinum]; exact hdir, by rw [hinum]; exact hin⟩
  rw [hheld.type_eq, hinum, hattr, ← h.type_eq]
  exact h.isDir

theorem HeldDir.of_cache (h : HeldDir sb s dp) (ht : FsInv sb t) (htab : SameTable s t) (hc : t.cache = s.cache) :
    HeldDir sb t dp := by
  apply h.of_same ht htab (attr_of_cache hc)
  · rw [contents_of_cache hc]
    exact h.dir
  · rw [contents_of_cache hc]
    exact h.inums

theorem DirStep.unchanged {op : DirOp} {r : ℤ} (h : HeldDir sb s dp) (ht : FsInv sb t) (htab : SameTable s t)
    (hc : t.cache = s.cache)
    (hspec : op.spec (lookup (contents sb s (s.itable dp).inum)) = (r, lookup (contents sb s (s.itable dp).inum)))
    (hr : ∀ name inum, op = .dirlink name inum → r = -1) : DirStep sb s t dp op r := by
  have hcon : contents sb t = contents sb s := contents_of_cache hc
  refine ⟨h.of_cache ht htab hc, htab, ?_, ?_, fun _ _ => hcon, ?_⟩
  · rw [hcon, hspec]
  · exact fun i _ => by rw [hcon]
  · intro name inum he h0
    rw [hr name inum he] at h0
    cases h0

theorem lookupInum_spec {name : ℕ → UInt8} (h : HeldDir sb s dp) :
    wp (lookupInum sb dp name) s (fun r t => DirStep sb s t dp (.dirlookup name) r) (DirOp.Panics sb s dp) := by
  simp only [lookupInum, wp_bind]
  apply dirlookup_spec h
  · intro hnone
    apply DirStep.unchanged h h.inv (SameTable.refl s) rfl
    · simp only [DirOp.spec, hnone]
    · intros
      contradiction
  · intro j ip t hj hn hgot
    simp only [inode, wp_bind, wp_get, wp_pure]
    refine wp_mono (iput_got hgot hgot.inv (SameTable.refl t)) ?_ (fun _ he => he)
    rintro _ u ⟨hinv, hc, htab⟩
    apply DirStep.unchanged h hinv htab (hc.trans hgot.cache)
    · simp only [DirOp.spec, h.dir.lookup_of_names hj hn, hgot.inum]
    · intros
      contradiction
  · exact fun hfull _ => Or.inl ⟨rfl, hfull⟩

theorem dirlink_spec {name : ℕ → UInt8} {inum : ℕ} (h : HeldDir sb s dp) (hi : (DirOp.dirlink name inum).Valid sb) :
    wp (dirlink sb dp name inum) s (fun r t => DirStep sb s t dp (.dirlink name inum) r) (DirOp.Panics sb s dp) := by
  simp only [dirlink, wp_bind]
  apply dirlookup_spec h
  · intro hnone
    simp only [inode, wp_bind, wp_get, wp_pure]
    apply freeFrom_spec (k := 0) h.toHeld h.dir.whole
    · rw [h.size]
      simp only [entryCount, direntSize]
      omega
    · exact Nat.zero_le _
    · exact fun j hj => absurd hj (Nat.not_lt_zero j)
    · intro j hj hused hfree
      have hle : direntSize * j ≤ (contents sb s (s.itable dp).inum).length := by
        simp only [entryCount, direntSize] at *
        omega
      refine wp_mono (writei_entry h.toHeld (length_dirent inum name) hle) ?_ ?_
      · rintro r t ⟨hinv, htab, hattr, ⟨rfl, -, hcon⟩ | ⟨rfl, hbig⟩⟩
        · simp only [ne_eq, not_true_eq_false, ↓reduceIte, wp_pure]
          obtain ⟨hok, hmap⟩ := h.dir.link hj hfree ⟨hi.1, hi.2.1⟩ hnone
          have hself : contents sb t (s.itable dp).inum =
              overwrite (contents sb s (s.itable dp).inum) (direntSize * j) (dirent inum name) := by
            rw [hcon, update_self]
          refine ⟨h.of_same hinv htab hattr (by rw [hself]; exact hok) ?_, htab, ?_, ?_, ?_, ?_⟩
          · intro n i hn
            rw [hself, hmap] at hn
            by_cases hnn : n = cstr dirSiz name
            · rw [hnn, update_self] at hn
              cases hn
              exact hi.2.2
            · rw [update_of_ne hnn] at hn
              exact h.inums n i hn
          · rw [hself, hmap]
            simp only [DirOp.spec, hnone]
          · intro i hne
            rw [hcon, update_of_ne hne]
          · intro hr
            cases hr name inum rfl
          · rintro name' inum' ⟨⟩ -
            exact ⟨j, hj, hused, hfree, hself⟩
        · rw [if_pos (by decide)]
          refine Or.inr (Or.inr ⟨rfl, ?_⟩)
          omega
      · rintro e ⟨rfl, hfew⟩
        exact Or.inr (Or.inl ⟨rfl, j, hfew⟩)
  · intro j ip t hj hn hgot
    simp only [wp_bind, wp_pure]
    refine wp_mono (iput_got hgot hgot.inv (SameTable.refl t)) ?_ (fun _ he => he)
    rintro _ u ⟨hinv, hc, htab⟩
    apply DirStep.unchanged h hinv htab (hc.trans hgot.cache)
    · simp only [DirOp.spec, h.dir.lookup_of_names hj hn]
    · exact fun _ _ _ => rfl
  · exact fun hfull _ => Or.inl ⟨rfl, hfull⟩

theorem clearEntry_spec {name : ℕ → UInt8} (h : HeldDir sb s dp) :
    wp (clearEntry sb dp name) s (fun r t => DirStep sb s t dp (.clear name) r) (DirOp.Panics sb s dp) := by
  simp only [clearEntry, wp_bind]
  apply dirlookup_spec h
  · intro hnone
    apply DirStep.unchanged h h.inv (SameTable.refl s) rfl
    · simp only [DirOp.spec, hnone]
    · intros
      contradiction
  · intro j ip t hj hn hgot
    obtain ⟨hheld, hinum⟩ := hgot.held h.toHeld
    have hcon : contents sb t = contents sb s := contents_of_cache hgot.cache
    have hle : direntSize * j + direntSize ≤ (contents sb t (t.itable dp).inum).length := by
      rw [hinum, hcon]
      simp only [entryCount, direntSize] at *
      omega
    have hmax := hheld.size_le
    have hzero : (fun k => (List.replicate direntSize (0 : UInt8)).getD k 0) = fun _ => 0 := by
      funext k
      rw [List.getD_eq_getElem?_getD, List.getElem?_replicate]
      split_ifs <;> rfl
    have hwrite := writei_entry (j := j) hheld (e := List.replicate direntSize 0) List.length_replicate (by omega)
    rw [hzero] at hwrite
    simp only [wp_bind]
    refine wp_mono hwrite ?_ ?_
    · rintro r u ⟨hinv, htab, hattr, ⟨rfl, -, hu⟩ | ⟨-, hbig⟩⟩
      · simp only [ne_eq, not_true_eq_false, ↓reduceIte, wp_bind, wp_pure]
        refine wp_mono (iput_got hgot hinv htab) ?_ (fun _ he => he)
        rintro _ v ⟨hv, hvc, hvtab⟩
        obtain ⟨hok, hmap⟩ := h.dir.clear hj hn
        rw [hinum, hcon] at hu
        have hv' : contents sb v = contents sb u := contents_of_cache hvc
        have hself : contents sb v (s.itable dp).inum =
            overwrite (contents sb s (s.itable dp).inum) (direntSize * j) (List.replicate direntSize 0) := by
          rw [hv', hu, update_self]
        refine ⟨h.of_same hv hvtab ?_ (by rw [hself]; exact hok) ?_, hvtab, ?_, ?_, ?_, ?_⟩
        · rw [attr_of_cache hvc, hattr, attr_of_cache hgot.cache]
        · intro n i hni
          rw [hself, hmap] at hni
          by_cases hnn : n = cstr dirSiz name
          · rw [hnn, update_self] at hni
            cases hni
          · rw [update_of_ne hnn] at hni
            exact h.inums n i hni
        · rw [hself, hmap]
          simp only [DirOp.spec, h.dir.lookup_of_names hj hn]
        · intro i hne
          rw [hv', hu, update_of_ne hne]
        · intro _ hr
          cases hr name rfl
        · intros
          contradiction
      · omega
    · rintro e ⟨rfl, hfew⟩
      refine Or.inr (Or.inl ⟨rfl, j, ?_⟩)
      rw [hgot.cache, lacking_congr hinum] at hfew
      · exact hfew
      · rw [hheld.inv.view_eq hheld.ref hheld.valid, h.inv.view_eq h.ref h.valid, hgot.cache]
  · exact fun hfull _ => Or.inl ⟨rfl, hfull⟩

theorem DirOp.exec_spec {op : DirOp} (h : HeldDir sb s dp) (hv : op.Valid sb) :
    wp (op.exec sb dp) s (fun r t => DirStep sb s t dp op r) (DirOp.Panics sb s dp) := by
  cases op with
  | dirlink name inum => exact dirlink_spec h hv
  | clear name => exact clearEntry_spec h
  | dirlookup name => exact lookupInum_spec h

theorem DirOp.execAll_ok {ops : List DirOp} {rs : List ℤ} (h : HeldDir sb s dp) (hv : ∀ op ∈ ops, op.Valid sb)
    (hrun : DirOp.execAll sb dp ops s = .ok (rs, t)) :
    HeldDir sb t dp ∧ SameTable s t ∧ (∀ i ≠ (s.itable dp).inum, contents sb t i = contents sb s i) ∧
      (rs, lookup (contents sb t (s.itable dp).inum)) =
        DirOp.specAll (lookup (contents sb s (s.itable dp).inum)) ops := by
  have hwp : wp (DirOp.execAll sb dp ops) s (fun rs t => HeldDir sb t dp ∧ SameTable s t ∧
      (∀ i ≠ (s.itable dp).inum, contents sb t i = contents sb s i) ∧
      (rs, lookup (contents sb t (s.itable dp).inum)) =
        DirOp.specAll (lookup (contents sb s (s.itable dp).inum)) ops) (fun _ => True) := by
    clear hrun
    induction ops generalizing s with
    | nil => exact ⟨h, SameTable.refl s, fun _ _ => rfl, rfl⟩
    | cons op ops ih =>
      simp only [DirOp.execAll, wp_bind, wp_pure]
      refine wp_mono (DirOp.exec_spec h (hv op List.mem_cons_self)) ?_ (fun _ _ => trivial)
      intro r u hstep
      have hinum := (hstep.table.kept dp h.ref).1
      refine wp_mono (ih hstep.held (fun op' hm => hv op' (List.mem_cons_of_mem _ hm))) ?_ (fun _ he => he)
      rintro rs v ⟨hheld, htab, hoth, hspec⟩
      rw [hinum] at hoth hspec
      refine ⟨hheld, ⟨fun jp => (htab.ref jp).trans (hstep.table.ref jp), fun jp hj => ?_⟩, ?_, ?_⟩
      · have hu := hstep.table.kept jp hj
        have hv' := htab.kept jp (by rw [hstep.table.ref]; exact hj)
        exact ⟨hv'.1.trans hu.1, hv'.2.trans hu.2⟩
      · exact fun i hi => (hoth i hi).trans (hstep.others i hi)
      · simp only [DirOp.specAll, ← hstep.spec, ← hspec]
  have hok := wp_ok hwp hrun
  exact hok

/-- A directory refines a map from names to inode numbers, through every sequence of calls of `dirlink` and `dirlookup` and of
clearings of entries. -/
theorem directory_refines_map {ops : List DirOp} {rs : List ℤ} (h : HeldDir sb s dp) (hv : ∀ op ∈ ops, op.Valid sb)
    (hrun : DirOp.execAll sb dp ops s = .ok (rs, t)) :
    (∀ n i j, i < entryCount (contents sb t (s.itable dp).inum) → j < entryCount (contents sb t (s.itable dp).inum) →
        Names (contents sb t (s.itable dp).inum) n i → Names (contents sb t (s.itable dp).inum) n j → i = j) ∧
      (rs, lookup (contents sb t (s.itable dp).inum)) =
        DirOp.specAll (lookup (contents sb s (s.itable dp).inum)) ops ∧
      (∀ i ≠ (s.itable dp).inum, contents sb t i = contents sb s i) ∧
      ∀ op : DirOp, op.Valid sb →
        wp (op.exec sb dp) t (fun r u => DirStep sb t u dp op r) (DirOp.Panics sb t dp) := by
  obtain ⟨hheld, htab, hoth, hspec⟩ := DirOp.execAll_ok h hv hrun
  refine ⟨?_, hspec, hoth, fun op hop => DirOp.exec_spec hheld hop⟩
  have hdir := hheld.dir
  rw [(htab.kept dp h.ref).1] at hdir
  exact hdir.distinct

theorem firstSlot_lt : 0 < nInode := by decide

def firstSlot : Fin nInode := ⟨0, firstSlot_lt⟩

def emptyDir : FsState :=
  (Transition.execute (fsStep mkfsSuperblock) (fun s c => c.Ready mkfsSuperblock s)
    (mount (blankImage mkfsSuperblock)) [.ialloc 1, .ilock firstSlot]).get (by decide +kernel)

theorem emptyDir_nil : contents mkfsSuperblock emptyDir (emptyDir.itable firstSlot).inum = [] := by decide +kernel

theorem emptyDir_held : HeldDir mkfsSuperblock emptyDir firstSlot := by
  have hinv : FsInv mkfsSuperblock emptyDir :=
    (mount_inv blankImage_owns blankImage_full).of_run (Transition.run_of_execute (Option.some_get _).symm)
  refine ⟨⟨hinv, by decide +kernel, by decide +kernel⟩, by decide +kernel, ?_, ?_⟩
  · rw [emptyDir_nil]
    exact ⟨rfl, fun n i j hi => absurd hi (Nat.not_lt_zero i)⟩
  · rw [emptyDir_nil]
    exact nofun

def nameA : ℕ → UInt8 := fun k => if k = 0 then 97 else 0

theorem ok_of_toOption {ε α : Type} {x : Except ε α} {a : α} (h : x.toOption = some a) : x = .ok a := by
  cases x with
  | ok b =>
    cases h
    rfl
  | error e => cases h

theorem linked_name_found :
    ∃ rs t, DirOp.execAll mkfsSuperblock firstSlot [.dirlink nameA 5, .dirlookup nameA, .clear nameA, .dirlookup nameA]
        emptyDir = .ok (rs, t) ∧ rs = [0, 5, 0, -1] ∧
      ∀ i ≠ (emptyDir.itable firstSlot).inum, contents mkfsSuperblock t i = contents mkfsSuperblock emptyDir i := by
  have hok : (DirOp.execAll mkfsSuperblock firstSlot
      [.dirlink nameA 5, .dirlookup nameA, .clear nameA, .dirlookup nameA] emptyDir).toOption.isSome = true := by
    decide +kernel
  obtain ⟨⟨rs, t⟩, hsome⟩ := Option.isSome_iff_exists.mp hok
  have hrun := ok_of_toOption hsome
  have hvalid : ∀ op ∈ [DirOp.dirlink nameA 5, .dirlookup nameA, .clear nameA, .dirlookup nameA],
      op.Valid mkfsSuperblock := by
    intro op hop
    simp only [List.mem_cons, List.not_mem_nil, or_false] at hop
    rcases hop with rfl | rfl | rfl | rfl
    · exact ⟨by decide, by decide, by decide⟩
    · trivial
    · trivial
    · trivial
  obtain ⟨-, hspec, hoth, -⟩ := directory_refines_map emptyDir_held hvalid hrun
  refine ⟨rs, t, hrun, ?_, hoth⟩
  rw [emptyDir_nil] at hspec
  have hrs := congrArg Prod.fst hspec
  exact hrs.trans (by decide +kernel)

end Xv6.Fs
