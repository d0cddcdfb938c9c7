import Xv6.Fs.Dirent
import Xv6.Fs.Effects

namespace Xv6.Fs

open Lib Hoare
open Function (update update_of_ne update_self)

def dirType : ℕ := 1

section Functions

variable (sb : Superblock)

def dirlookupFrom (dp : Fin nInode) (name : ℕ → UInt8) : ℕ → ℕ → FsM (Option (Fin nInode × ℕ))
  | 0, _ => return none
  | fuel + 1, off => do
    if off < (← inode dp).size then
      let (r, de) ← readi sb dp (fun _ => false) off direntSize
      if r ≠ direntSize then throw "dirlookup read"
      else if direntInum de = 0 then dirlookupFrom dp name fuel (off + direntSize)
      else if namecmp name (direntName de) = 0 then
        let ip ← iget (direntInum de)
        return some (ip, off)
      else dirlookupFrom dp name fuel (off + direntSize)
    else return none

def dirlookup (dp : Fin nInode) (name : ℕ → UInt8) : FsM (Option (Fin nInode × ℕ)) := do
  let d ← inode dp
  if d.type ≠ dirType then throw "dirlookup not DIR"
  else dirlookupFrom sb dp name (d.size + 1) 0

def freeFrom (dp : Fin nInode) : ℕ → ℕ → FsM ℕ
  | 0, off => return off
  | fuel + 1, off => do
    if off < (← inode dp).size then
      let (r, de) ← readi sb dp (fun _ => false) off direntSize
      if r ≠ direntSize then throw "dirlink read"
      else if direntInum de = 0 then return off
      else freeFrom dp fuel (off + direntSize)
    else return off

def dirlink (dp : Fin nInode) (name : ℕ → UInt8) (inum : ℕ) : FsM ℤ := do
  match ← dirlookup sb dp name with
  | some (ip, _) =>
    iput sb ip
    return -1
  | none =>
    let off ← freeFrom sb dp ((← inode dp).size + 1) 0
    let r ← writei sb dp (Src.kernel (fun k => (dirent inum name).getD k 0)) off direntSize
    if r ≠ direntSize then throw "dirlink" else return 0

def clearEntry (dp : Fin nInode) (name : ℕ → UInt8) : FsM ℤ := do
  match ← dirlookup sb dp name with
  | none => return -1
  | some (ip, off) =>
    let r ← writei sb dp (Src.kernel (fun _ => 0)) off direntSize
    if r ≠ direntSize then throw "unlink: writei"
    else
      iput sb ip
      return 0

def lookupInum (dp : Fin nInode) (name : ℕ → UInt8) : FsM ℤ := do
  match ← dirlookup sb dp name with
  | none => return -1
  | some (ip, _) =>
    let i ← inode ip
    iput sb ip
    return i.inum

end Functions

variable {sb : Superblock} {s t u : FsState} {dp ip : Fin nInode} {name : ℕ → UInt8} {k fuel : ℕ}

structure Held (sb : Superblock) (s : FsState) (ip : Fin nInode) : Prop where
  inv : FsInv sb s
  ref : 0 < (s.itable ip).ref
  valid : (s.itable ip).valid = true

namespace Held

theorem size (h : Held sb s dp) : (s.itable dp).size = (contents sb s (s.itable dp).inum).length := by
  rw [length_contents, ← ((h.inv.table dp h.ref).2 h.valid).1]

theorem size_le (h : Held sb s dp) : (contents sb s (s.itable dp).inum).length ≤ maxFile * bSize := by
  obtain ⟨hd, hty⟩ := (h.inv.table dp h.ref).2 h.valid
  rw [length_contents]
  exact (h.inv.full _ (h.inv.table dp h.ref).1 (by rw [← hd]; exact hty)).1

theorem readi_entry (h : Held sb s dp) (hw : (contents sb s (s.itable dp).inum).length % direntSize = 0)
    (hk : k < entryCount (contents sb s (s.itable dp).inum)) {E : String → Prop} {Q : ℤ × List UInt8 → FsState → Prop}
    (hQ : Q (direntSize, entry (contents sb s (s.itable dp).inum) k) s) :
    wp (readi sb dp (fun _ => false) (direntSize * k) direntSize) s Q E := by
  have hle := h.size_le
  have hmax : maxFile * bSize = 274432 := by decide
  apply readi_effect h.inv h.ref h.valid
  · simp only [entryCount, direntSize] at *
    omega
  · rw [hmax]
    decide
  · have hlen : (entry (contents sb s (s.itable dp).inum) k).length = direntSize := by
      rw [entry, List.length_take, List.length_drop]
      simp only [entryCount, direntSize] at *
      omega
    rw [entry] at hlen hQ
    rw [hlen]
    exact hQ

end Held

theorem dirlookupFrom_spec (h : Held sb s dp) (hw : (contents sb s (s.itable dp).inum).length % direntSize = 0)
    {E : String → Prop} {Q : Option (Fin nInode × ℕ) → FsState → Prop}
    (hfuel : entryCount (contents sb s (s.itable dp).inum) < fuel + k)
    (hnone : (∀ j, k ≤ j → j < entryCount (contents sb s (s.itable dp).inum) →
      ¬ Names (contents sb s (s.itable dp).inum) (cstr dirSiz name) j) → Q none s)
    (hsome : ∀ j, j < entryCount (contents sb s (s.itable dp).inum) →
      Names (contents sb s (s.itable dp).inum) (cstr dirSiz name) j →
      wp (iget (direntInum (entry (contents sb s (s.itable dp).inum) j))) s
        (fun ip t => Q (some (ip, direntSize * j)) t) E) :
    wp (dirlookupFrom sb dp name fuel (direntSize * k)) s Q E := by
  induction fuel generalizing k with
  | zero =>
    apply hnone
    intro j hj hjl
    omega
  | succ fuel ih =>
    have hnext : ¬ Names (contents sb s (s.itable dp).inum) (cstr dirSiz name) k →
        wp (dirlookupFrom sb dp name fuel (direntSize * k + direntSize)) s Q E := by
      intro hk
      apply ih (k := k + 1) (by omega)
      intro hrest
      apply hnone
      intro j hj hjl
      rcases Nat.eq_or_lt_of_le hj with rfl | hlt
      · exact hk
      · exact hrest j hlt hjl
    simp only [dirlookupFrom, inode, wp_bind, wp_get, wp_pure, wp_ite, wp_throw, h.size]
    split_ifs with hlt
    · have hk : k < entryCount (contents sb s (s.itable dp).inum) := by
        simp only [entryCount, direntSize] at *
        omega
      apply h.readi_entry hw hk
      simp only [ne_eq, not_true_eq_false, ↓reduceIte, namecmp, strncmp_eq_zero_iff]
      split_ifs with hzero hname
      · exact hnext (fun hn => hn.1 hzero)
      · exact hsome k hk ⟨hzero, hname.symm⟩
      · exact hnext (fun hn => hname hn.2.symm)
    · apply hnone
      intro j hj hjl
      exfalso
      simp only [entryCount, direntSize] at *
      omega

theorem freeFrom_spec (h : Held sb s dp) (hw : (contents sb s (s.itable dp).inum).length % direntSize = 0)
    {E : String → Prop} {Q : ℕ → FsState → Prop}
    (hfuel : entryCount (contents sb s (s.itable dp).inum) < fuel + k)
    (hk : k ≤ entryCount (contents sb s (s.itable dp).inum))
    (hused : ∀ j < k, direntInum (entry (contents sb s (s.itable dp).inum) j) ≠ 0)
    (hQ : ∀ j ≤ entryCount (contents sb s (s.itable dp).inum),
      (∀ i < j, direntInum (entry (contents sb s (s.itable dp).inum) i) ≠ 0) →
      (j < entryCount (contents sb s (s.itable dp).inum) → direntInum (entry (contents sb s (s.itable dp).inum) j) = 0) →
      Q (direntSize * j) s) :
    wp (freeFrom sb dp fuel (direntSize * k)) s Q E := by
  induction fuel generalizing k with
  | zero => omega
  | succ fuel ih =>
    simp only [freeFrom, inode, wp_bind, wp_get, wp_pure, wp_ite, h.size]
    split_ifs with hlt
    · have hk' : k < entryCount (contents sb s (s.itable dp).inum) := by
        simp only [entryCount, direntSize] at *
        omega
      apply h.readi_entry hw hk'
      simp only [ne_eq, not_true_eq_false, ↓reduceIte]
      split_ifs with hzero
      · exact hQ k hk hused (fun _ => hzero)
      · apply ih (k := k + 1) (by omega) hk'
        intro j hj
        rcases Nat.eq_or_lt_of_le (Nat.le_of_lt_succ hj) with rfl | hj
        · exact hzero
        · exact hused j hj
    · apply hQ k hk hused
      intro hk'
      exfalso
      simp only [entryCount, direntSize] at *
      omega

structure Got (sb : Superblock) (s t : FsState) (ip : Fin nInode) (i : ℕ) : Prop where
  inv : FsInv sb t
  cache : t.cache = s.cache
  other : ∀ jp ≠ ip, t.itable jp = s.itable jp
  inum : (t.itable ip).inum = i
  ref : (t.itable ip).ref = (s.itable ip).ref + 1
  kept : 0 < (s.itable ip).ref → (s.itable ip).inum = i ∧ (t.itable ip).valid = (s.itable ip).valid
  fresh : (s.itable ip).ref = 0 → (t.itable ip).valid = false

theorem iget_effect {inum : ℕ} (h : FsInv sb s) (hi : inum < sb.ninodes) :
    wp (iget inum) s (fun ip t => Got sb s t ip inum)
      (fun e => e = "iget: no inodes" ∧ ∀ ip, 0 < (s.itable ip).ref) := by
  simp only [iget, wp_bind, wp_get]
  split
  · rename_i ip hf
    have hip := List.find?_some hf
    simp only [decide_eq_true_eq] at hip
    simp only [setInode, wp_bind, wp_modify, wp_pure]
    refine ⟨h.setInode rfl rfl rfl (fun _ => ⟨(h.table ip hip.1).1, (h.table ip hip.1).2, h.ne_inum hip.1⟩), rfl,
      fun jp hj => update_of_ne hj _ _, ?_, ?_, fun _ => ⟨hip.2, ?_⟩, fun h0 => by omega⟩
    · simp only [update_self, hip.2]
    · simp only [update_self]
    · simp only [update_self]
  · rename_i hf
    have hnone (jp : Fin nInode) (hr : 0 < (s.itable jp).ref) : (s.itable jp).inum ≠ inum := by
      have := List.find?_eq_none.mp hf jp (List.mem_finRange jp)
      simp only [decide_eq_true_eq, not_and] at this
      exact this hr
    split
    · rename_i ip hf'
      have hip : (s.itable ip).ref = 0 := by simpa using List.find?_some hf'
      simp only [setInode, wp_bind, wp_modify, wp_pure]
      refine ⟨h.setInode rfl rfl rfl (fun _ => ⟨hi, (fun hv => by cases hv), fun jp _ hr => ?_⟩), rfl,
        fun jp hj => update_of_ne hj _ _, ?_, ?_, fun h0 => by omega, fun _ => ?_⟩
      · exact (hnone jp hr)
      · simp only [update_self]
      · simp only [update_self, hip]
      · simp only [update_self]
    · rename_i hf'
      refine ⟨rfl, fun ip => ?_⟩
      have := List.find?_eq_none.mp hf' ip (List.mem_finRange ip)
      simp only [decide_eq_true_eq] at this
      omega

structure SameTable (s t : FsState) : Prop where
  ref : ∀ jp, (t.itable jp).ref = (s.itable jp).ref
  kept : ∀ jp, 0 < (s.itable jp).ref → (t.itable jp).inum = (s.itable jp).inum ∧ (t.itable jp).valid = (s.itable jp).valid

theorem SameTable.refl (s : FsState) : SameTable s s := ⟨fun _ => rfl, fun _ _ => ⟨rfl, rfl⟩⟩

theorem SameTable.held (h : SameTable s t) (hs : Held sb s dp) (ht : FsInv sb t) : Held sb t dp :=
  ⟨ht, by rw [h.ref]; exact hs.ref, by rw [(h.kept dp hs.ref).2]; exact hs.valid⟩

theorem Got.held {i : ℕ} (h : Got sb s t ip i) (hs : Held sb s dp) :
    Held sb t dp ∧ (t.itable dp).inum = (s.itable dp).inum := by
  by_cases hd : dp = ip
  · subst hd
    refine ⟨⟨h.inv, ?_, ?_⟩, ?_⟩
    · rw [h.ref]
      omega
    · rw [(h.kept hs.ref).2]
      exact hs.valid
    · rw [h.inum, (h.kept hs.ref).1]
  · rw [h.other dp hd]
    refine ⟨⟨h.inv, ?_, ?_⟩, rfl⟩
    · rw [h.other dp hd]
      exact hs.ref
    · rw [h.other dp hd]
      exact hs.valid

theorem iput_got {i : ℕ} (h : Got sb s t ip i) (hu : FsInv sb u) (htab : SameTable t u) {E : String → Prop} :
    wp (iput sb ip) u (fun _ v => FsInv sb v ∧ v.cache = u.cache ∧ SameTable s v) E := by
  have hpos : 0 < (t.itable ip).ref := by
    rw [h.ref]
    omega
  have hkeep : ¬ ((u.itable ip).ref = 1 ∧ (u.itable ip).valid = true ∧ (u.itable ip).nlink = 0) := by
    rintro ⟨hr, hv, -⟩
    rw [htab.ref, h.ref] at hr
    rw [(htab.kept ip hpos).2, h.fresh (by omega)] at hv
    cases hv
  refine wp_mono (iput_effect hu (by rw [htab.ref]; exact hpos)) ?_ (fun _ he => he)
  intro _ v hv
  obtain ⟨hcache, hself⟩ := hv.kept hkeep
  refine ⟨hv.inv, hcache, fun jp => ?_, fun jp hj => ?_⟩
  · by_cases hji : jp = ip
    · rw [hji, hv.ref, htab.ref, h.ref, Nat.add_sub_cancel]
    · rw [hv.other jp hji, htab.ref, h.other jp hji]
  · by_cases hji : jp = ip
    · subst hji
      rw [hself]
      dsimp only
      rw [(htab.kept jp hpos).1, (htab.kept jp hpos).2, h.inum, (h.kept hj).1, (h.kept hj).2]
      exact ⟨rfl, rfl⟩
    · rw [hv.other jp hji, (htab.kept jp (by rw [h.other jp hji]; exact hj)).1,
        (htab.kept jp (by rw [h.other jp hji]; exact hj)).2, h.other jp hji]
      exact ⟨rfl, rfl⟩

structure HeldDir (sb : Superblock) (s : FsState) (dp : Fin nInode) : Prop extends Held sb s dp where
  isDir : (s.itable dp).type = dirType
  dir : DirOk (contents sb s (s.itable dp).inum)
  inums : ∀ n i, lookup (contents sb s (s.itable dp).inum) n = some i → i < sb.ninodes

theorem HeldDir.inum_lt (h : HeldDir sb s dp) {j : ℕ} {n : List UInt8} (hj : j < entryCount (contents sb s (s.itable dp).inum))
    (hn : Names (contents sb s (s.itable dp).inum) n j) :
    direntInum (entry (contents sb s (s.itable dp).inum) j) < sb.ninodes :=
  h.inums n _ (h.dir.lookup_of_names hj hn)

theorem dirlookup_spec (h : HeldDir sb s dp) {E : String → Prop} {Q : Option (Fin nInode × ℕ) → FsState → Prop}
    (hnone : lookup (contents sb s (s.itable dp).inum) (cstr dirSiz name) = none → Q none s)
    (hsome : ∀ j ip t, j < entryCount (contents sb s (s.itable dp).inum) →
      Names (contents sb s (s.itable dp).inum) (cstr dirSiz name) j →
      Got sb s t ip (direntInum (entry (contents sb s (s.itable dp).inum) j)) → Q (some (ip, direntSize * j)) t)
    (hE : (∀ ip, 0 < (s.itable ip).ref) → lookup (contents sb s (s.itable dp).inum) (cstr dirSiz name) ≠ none →
      E "iget: no inodes") :
    wp (dirlookup sb dp name) s Q E := by
  simp only [dirlookup, inode, wp_bind, wp_get, wp_pure, wp_ite, h.isDir, ne_eq,
    not_true_eq_false, ↓reduceIte]
  apply dirlookupFrom_spec (k := 0) h.toHeld h.dir.whole
  · rw [h.size]
    simp only [entryCount, direntSize]
    omega
  · intro hall
    exact hnone (lookup_eq_none_iff.mpr (fun j hj => hall j (Nat.zero_le j) hj))
  · intro j hj hn
    refine wp_mono (iget_effect h.inv (h.inum_lt hj hn)) (fun ip t ht => hsome j ip t hj hn ht) ?_
    rintro e ⟨rfl, hfull⟩
    apply hE hfull
    rw [h.dir.lookup_of_names hj hn]
    simp

theorem writei_entry (h : Held sb s dp) {j : ℕ} {e : List UInt8} (he : e.length = direntSize)
    (hj : direntSize * j ≤ (contents sb s (s.itable dp).inum).length) :
    wp (writei sb dp (Src.kernel (fun k => e.getD k 0)) (direntSize * j) direntSize) s
      (fun r t => FsInv sb t ∧ SameTable s t ∧ attr sb t = attr sb s ∧
        ((r = direntSize ∧ direntSize * j + direntSize ≤ maxFile * bSize ∧
          contents sb t = update (contents sb s) (s.itable dp).inum
            (overwrite (contents sb s (s.itable dp).inum) (direntSize * j) e)) ∨
          (r = -1 ∧ maxFile * bSize < direntSize * j + direntSize)))
      (fun e => e = "balloc: out of blocks" ∧
        freeBlocks sb s.cache < lacking sb s dp (touched (direntSize * j) direntSize)) := by
  have hle := h.size_le
  have hmax : maxFile * bSize = 274432 := by decide
  have hbytes : (List.range direntSize).map (fun k => e.getD k 0) = e := by
    apply List.ext_getElem
    · rw [List.length_map, List.length_range, he]
    · intro k h₁ h₂
      simp [List.getD_eq_getElem?_getD, List.getElem?_eq_getElem h₂]
  refine wp_mono (writei_effect h.inv h.ref h.valid (by omega) (by decide)) ?_ ?_
  · rintro r t ⟨hw, hr⟩
    rw [hbytes] at hw
    refine ⟨hw.inv, ⟨fun jp => (hw.table jp).1, fun jp _ => ⟨(hw.table jp).2.1, (hw.table jp).2.2⟩⟩, hw.attr, ?_⟩
    split_ifs at hr with hfit
    · left
      refine ⟨hr, hfit.2, ?_⟩
      rw [hw.contents, writeAt, if_pos ⟨hj, by rw [he]; exact hfit.2⟩]
    · right
      refine ⟨hr, ?_⟩
      by_contra hn
      exact hfit ⟨hj, by omega⟩
  · rintro e ⟨rfl, -, -, hfew⟩
    exact ⟨rfl, hfew⟩

end Xv6.Fs
