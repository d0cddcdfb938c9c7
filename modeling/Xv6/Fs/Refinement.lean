import Xv6.Fs.Blocks

namespace Xv6.Fs

open Lib Hoare
open Function (update update_of_ne update_self)

inductive FileOp
  | writei (ip : Fin nInode) (byte : ℕ → UInt8) (off n : UInt32)
  | readi (ip : Fin nInode) (off n : UInt32)
  | itrunc (ip : Fin nInode)

namespace FileOp

def ip : FileOp → Fin nInode
  | writei ip _ _ _ | readi ip _ _ | itrunc ip => ip

def exec (sb : Superblock) : FileOp → FsM (ℤ × List UInt8)
  | writei ip byte off n => do return (← Fs.writei sb ip (Src.kernel byte) off.toNat n.toNat, [])
  | readi ip off n => Fs.readi sb ip (fun _ => false) off.toNat n.toNat
  | itrunc ip => do
    Fs.itrunc sb ip
    return (0, [])

def execAll (sb : Superblock) : List FileOp → FsM (List (ℤ × List UInt8))
  | [] => return []
  | op :: ops => do
    let r ← op.exec sb
    let rs ← execAll sb ops
    return r :: rs

end FileOp

def overwrite (l : List UInt8) (off : ℕ) (data : List UInt8) : List UInt8 :=
  l.take off ++ data ++ l.drop (off + data.length)

def FileOp.spec (inum : Fin nInode → ℕ) (files : ℕ → List UInt8) :
    FileOp → (ℤ × List UInt8) × (ℕ → List UInt8)
  | .writei ip byte off n =>
    if off.toNat ≤ (files (inum ip)).length ∧ off.toNat + n.toNat ≤ maxFile * bSize then
      ((n.toNat, []), update files (inum ip)
        (overwrite (files (inum ip)) off.toNat ((List.range n.toNat).map byte)))
    else ((-1, []), files)
  | .readi ip off n =>
    if off.toNat + n.toNat < 2 ^ 32 then
      let data := ((files (inum ip)).drop off.toNat).take n.toNat
      ((data.length, data), files)
    else ((0, []), files)
  | .itrunc ip => ((0, []), update files (inum ip) [])

def FileOp.specAll (inum : Fin nInode → ℕ) :
    (ℕ → List UInt8) → List FileOp → List (ℤ × List UInt8) × (ℕ → List UInt8)
  | files, [] => ([], files)
  | files, op :: ops =>
    let (r, files') := op.spec inum files
    let (rs, files'') := specAll inum files' ops
    (r :: rs, files'')

variable (sb : Superblock)

def contents (s : FsState) (i : ℕ) : List UInt8 := bytesFrom sb s i 0 (disk sb s.cache i).size

def FileOp.Affordable (s : FsState) : FileOp → Prop
  | .writei ip _ off n => off.toNat ≤ (s.itable ip).size → off.toNat + n.toNat ≤ maxFile * bSize →
    lacking sb s ip (touched off.toNat n.toNat) ≤ freeBlocks sb s.cache
  | .readi _ _ _ | .itrunc _ => True

def AllAffordable : FsState → List FileOp → Prop
  | _, [] => True
  | s, op :: ops => op.Affordable sb s ∧ ∀ r t, op.exec sb s = .ok (r, t) → AllAffordable t ops

variable {sb} {s t : FsState} {ip : Fin nInode}

theorem length_contents (i : ℕ) : (contents sb s i).length = (disk sb s.cache i).size := by
  simp [contents, bytesFrom]

theorem getElem_contents {i o : ℕ} (h : o < (contents sb s i).length) :
    (contents sb s i)[o] = byteOf sb s.cache (disk sb s.cache) i o := by
  simp [contents, bytesFrom]

theorem getElem_overwrite {l data : List UInt8} {off : ℕ} (hoff : off ≤ l.length) (o : ℕ) :
    (overwrite l off data)[o]? = if off ≤ o ∧ o < off + data.length then data[o - off]? else l[o]? := by
  unfold overwrite
  rw [List.append_assoc, List.getElem?_append, List.length_take, Nat.min_eq_left hoff,
    List.getElem?_append]
  split_ifs with h₁ h₂ h₃ h₃ h₃ <;> first | omega | rfl | skip
  · rw [List.getElem?_take, if_pos h₁]
  · rw [List.getElem?_drop]
    congr 1
    omega

theorem contents_ext {i : ℕ} {l : List UInt8} (hlen : l.length = (disk sb s.cache i).size)
    (hget : ∀ o < l.length, l[o]? = some (byteOf sb s.cache (disk sb s.cache) i o)) :
    contents sb s i = l := by
  apply List.ext_getElem (by rw [length_contents, hlen])
  intro o h₁ h₂
  have := hget o h₂
  rw [List.getElem?_eq_getElem h₂, Option.some.injEq] at this
  rw [getElem_contents h₁, this]

theorem contents_congr {i : ℕ} (hs : (disk sb t.cache i).size = (disk sb s.cache i).size)
    (hb : ∀ o, byteOf sb t.cache (disk sb t.cache) i o = byteOf sb s.cache (disk sb s.cache) i o) :
    contents sb t i = contents sb s i := by
  refine contents_ext (by rw [length_contents, hs]) (fun o ho => ?_)
  rw [List.getElem?_eq_getElem ho, getElem_contents ho, hb]

theorem bytesFrom_eq (i off n : ℕ) :
    bytesFrom sb s i off (min n ((disk sb s.cache i).size - off)) = ((contents sb s i).drop off).take n := by
  apply List.ext_getElem
  · simp [bytesFrom, length_contents]
  · intro o h₁ h₂
    rw [List.getElem_take, List.getElem_drop, getElem_contents]
    simp [bytesFrom]

theorem Written.contents {byte : ℕ → UInt8} {off n tot : ℕ}
    (h : Written sb s t ip (Src.kernel byte) off n tot)
    (hd : (t.itable ip).toDinode = disk sb t.cache (s.itable ip).inum)
    (hd₀ : (s.itable ip).toDinode = disk sb s.cache (s.itable ip).inum)
    (hoff : off ≤ (s.itable ip).size) :
    tot = n ∧ Fs.contents sb t = update (Fs.contents sb s) (s.itable ip).inum
      (overwrite (Fs.contents sb s (s.itable ip).inum) off ((List.range n).map byte)) := by
  obtain ⟨rfl, hbytes⟩ := h.exact (fun _ => rfl)
  refine ⟨rfl, ?_⟩
  obtain ⟨a, ha⟩ := h.table
  have hsize : (disk sb t.cache (s.itable ip).inum).size = max (s.itable ip).size (off + tot) := by
    rw [← hd, ha, update_self]
    rfl
  have hlen : (Fs.contents sb s (s.itable ip).inum).length = (s.itable ip).size := by
    rw [length_contents, ← hd₀]
  funext i
  by_cases hi : i = (s.itable ip).inum
  · subst hi
    rw [update_self]
    have hov : (overwrite (Fs.contents sb s (s.itable ip).inum) off ((List.range tot).map byte)).length =
        max (s.itable ip).size (off + tot) := by
      simp only [overwrite, List.length_append, List.length_take, List.length_drop, List.length_map,
        List.length_range, hlen]
      omega
    refine contents_ext (by rw [hov, hsize]) (fun o ho => ?_)
    rw [getElem_overwrite (by omega), hbytes, List.length_map, List.length_range]
    simp only [true_and]
    by_cases hin : off ≤ o ∧ o < off + tot
    · rw [if_pos hin, if_pos hin, List.getElem?_map, List.getElem?_range (by omega)]
      rfl
    · rw [if_neg hin, if_neg hin, List.getElem?_eq_getElem (by omega), getElem_contents]
  · rw [update_of_ne hi]
    refine contents_congr (by rw [h.others i hi]) (fun o => ?_)
    rw [hbytes, if_neg (fun hx => hi hx.1)]

variable (sb) in
structure Meets (s t : FsState) (op : FileOp) (r : ℤ × List UInt8) : Prop where
  inv : FsInv sb t
  table : ∀ jp, (t.itable jp).ref = (s.itable jp).ref ∧ (t.itable jp).inum = (s.itable jp).inum ∧
    (t.itable jp).valid = (s.itable jp).valid
  spec : (r, contents sb t) = op.spec (fun jp => (s.itable jp).inum) (contents sb s)

theorem FileOp.exec_spec {op : FileOp} (h : FsInv sb s) (hr : 0 < (s.itable op.ip).ref)
    (hv : (s.itable op.ip).valid = true) (ha : op.Affordable sb s) :
    wp (op.exec sb) s (fun r t => Meets sb s t op r) (fun _ => False) := by
  obtain ⟨hin, hval⟩ := h.table _ hr
  have hd := (hval hv).1
  have hlen : (contents sb s (s.itable op.ip).inum).length = (s.itable op.ip).size := by
    rw [length_contents, ← hd]
  cases op with
  | writei ip byte off n =>
    simp only [FileOp.ip] at *
    simp only [FileOp.exec, wp_bind, wp_pure]
    refine wp_mono (writei_spec h hr hv off.toNat_lt n.toNat_lt) (fun r t ht => ?_) ?_
    · split_ifs at ht with hacc
      · obtain ⟨tot, rfl, hw⟩ := ht
        obtain ⟨a, htab⟩ := hw.table
        have hself := congrFun htab ip
        rw [update_self] at hself
        have htd := ((hw.inv.table ip (by rw [hself]; exact hr)).2 (by rw [hself]; exact hv)).1
        rw [show (t.itable ip).inum = (s.itable ip).inum by rw [hself]; rfl] at htd
        obtain ⟨rfl, hc⟩ := hw.contents htd hd hacc.1
        refine ⟨hw.inv, fun jp => ?_, ?_⟩
        · by_cases hj : jp = ip
          · rw [hj, hself]
            exact ⟨rfl, rfl, rfl⟩
          · rw [htab, update_of_ne hj]
            exact ⟨rfl, rfl, rfl⟩
        · simp only [FileOp.spec, hlen, hacc, and_self, ↓reduceIte, hc]
      · obtain ⟨rfl, rfl⟩ := ht
        exact ⟨h, fun _ => ⟨rfl, rfl, rfl⟩, by simp only [FileOp.spec, hlen, hacc, ↓reduceIte]⟩
    · rintro e ⟨-, hacc, hfew⟩
      exact absurd (ha hacc.1 hacc.2) (Nat.not_le_of_lt hfew)
  | readi ip off n =>
    simp only [FileOp.ip] at *
    refine wp_mono (readi_spec h hr hv off.toNat_lt n.toNat_lt) ?_ (fun _ he => he)
    rintro r t ⟨rfl, ht⟩
    refine ⟨h, fun _ => ⟨rfl, rfl, rfl⟩, ?_⟩
    simp only [FileOp.spec]
    split_ifs at ht ⊢ with hlt
    · obtain ⟨m, -, hr₂, hex⟩ := ht
      obtain ⟨hr₁, rfl⟩ := hex (fun _ => rfl)
      have hsize : (t.itable ip).size = (disk sb t.cache (t.itable ip).inum).size := by rw [← hd]
      rw [hsize, bytesFrom_eq] at hr₂
      rw [Prod.mk.injEq]
      refine ⟨Prod.ext ?_ hr₂, rfl⟩
      rw [hr₁, List.length_take, List.length_drop, hlen]
    · rw [ht]
  | itrunc ip =>
    simp only [FileOp.ip] at *
    simp only [FileOp.exec, wp_bind, wp_pure]
    refine wp_mono (itrunc_spec h hr hv) (fun _ t ht => ⟨ht.inv, fun jp => ?_, ?_⟩) (fun _ he => he)
    · by_cases hj : jp = ip
      · rw [hj, ht.table, update_self]
        exact ⟨rfl, rfl, rfl⟩
      · rw [ht.table, update_of_ne hj]
        exact ⟨rfl, rfl, rfl⟩
    · simp only [FileOp.spec, Prod.mk.injEq, true_and]
      funext i
      by_cases hi : i = (s.itable ip).inum
      · rw [hi, update_self]
        apply List.eq_nil_of_length_eq_zero
        rw [length_contents, ht.disk, update_self]
        rfl
      · rw [update_of_ne hi]
        exact contents_congr (by rw [ht.disk, update_of_ne hi]) (ht.bytes i hi)

theorem FileOp.execAll_spec {ops : List FileOp} (h : FsInv sb s)
    (hheld : ∀ op ∈ ops, 0 < (s.itable op.ip).ref ∧ (s.itable op.ip).valid = true)
    (ha : AllAffordable sb s ops) :
    wp (FileOp.execAll sb ops) s (fun rs t => FsInv sb t ∧
      (rs, contents sb t) = FileOp.specAll (fun jp => (s.itable jp).inum) (contents sb s) ops)
      (fun _ => False) := by
  induction ops generalizing s with
  | nil => exact ⟨h, rfl⟩
  | cons op ops ih =>
    obtain ⟨hr, hv⟩ := hheld op (by simp)
    obtain ⟨r, t, hexec, ht⟩ := exists_ok (FileOp.exec_spec h hr hv ha.1)
    simp only [FileOp.execAll, wp_bind, wp_pure]
    refine wp_of_ok hexec (wp_mono (ih ht.inv (fun op' hm => ?_) (ha.2 r t hexec)) ?_
      (fun _ he => he))
    · rw [(ht.table op'.ip).1, (ht.table op'.ip).2.2]
      exact hheld op' (by simp [hm])
    · rintro rs u ⟨hu, hspec⟩
      refine ⟨hu, ?_⟩
      simp only [(ht.table _).2.1] at hspec
      simp only [FileOp.specAll, ← ht.spec, ← hspec]

/-- Calls of the inode layer do to the contents of files what their specification does to lists of
bytes. -/
theorem inode_layer_refines_lists {ops : List FileOp} (h : FsInv sb s)
    (hheld : ∀ op ∈ ops, 0 < (s.itable op.ip).ref ∧ (s.itable op.ip).valid = true)
    (ha : AllAffordable sb s ops) :
    ∃ rs t, FileOp.execAll sb ops s = .ok (rs, t) ∧ FsInv sb t ∧
      (rs, contents sb t) = FileOp.specAll (fun jp => (s.itable jp).inum) (contents sb s) ops ∧
      ∀ ip, 0 < (t.itable ip).ref → (t.itable ip).valid = true →
        (contents sb t (t.itable ip).inum).length = (t.itable ip).size ∧
        (∀ off n : UInt32, ∃ r, (FileOp.readi ip off n).exec sb t = .ok (r, t)) ∧
        ∀ (byte : ℕ → UInt8) (off n : UInt32),
          ¬ (off.toNat ≤ (t.itable ip).size ∧ off.toNat + n.toNat ≤ maxFile * bSize) →
          (FileOp.writei ip byte off n).exec sb t = .ok ((-1, []), t) := by
  obtain ⟨rs, t, hexec, hinv, hspec⟩ := exists_ok (FileOp.execAll_spec h hheld ha)
  refine ⟨rs, t, hexec, hinv, hspec, fun ip hr hv => ⟨?_, fun off n => ?_, fun byte off n hbad => ?_⟩⟩
  · rw [length_contents, ← ((hinv.table ip hr).2 hv).1]
  · obtain ⟨r, u, hu, rfl, -⟩ := exists_ok (readi_spec hinv hr hv off.toNat_lt n.toNat_lt)
    exact ⟨r, hu⟩
  · have hw : wp ((FileOp.writei ip byte off n).exec sb) t (fun r u => r = (-1, []) ∧ u = t)
        (fun _ => False) := by
      simp only [FileOp.exec, wp_bind, wp_pure]
      refine wp_mono (writei_spec hinv hr hv off.toNat_lt n.toNat_lt) (fun r u hu => ?_)
        (fun e he => hbad he.2.1)
      rw [if_neg hbad] at hu
      exact ⟨by rw [hu.1], hu.2⟩
    obtain ⟨r, u, hu, rfl, rfl⟩ := exists_ok hw
    exact hu

theorem overwrite_created :
    ∃ t, FileOp.execAll mkfsSuperblock [.writei ⟨0, by decide⟩ (fun _ => 9) 2 3] created = .ok ([(3, [])], t) ∧
      contents mkfsSuperblock t 1 = [7, 7, 9, 9, 9] := by
  have hzero : lacking mkfsSuperblock created ⟨0, by decide⟩ (touched 2 3) = 0 := by decide +kernel
  have hafford : AllAffordable mkfsSuperblock created [.writei ⟨0, by decide⟩ (fun _ => 9) 2 3] :=
    ⟨fun _ _ => hzero.symm ▸ Nat.zero_le _, fun _ _ _ => trivial⟩
  obtain ⟨rs, t, hexec, -, hspec, -⟩ := inode_layer_refines_lists
    ((mount_inv blankImage_owns blankImage_full).of_run created_run) (by decide +kernel) hafford
  have hrs : rs = [(3, [])] := (congrArg Prod.fst hspec).trans (by decide +kernel)
  have hfile : contents mkfsSuperblock t 1 = [7, 7, 9, 9, 9] :=
    (congrFun (congrArg Prod.snd hspec) 1).trans (by decide +kernel)
  exact ⟨t, hrs ▸ hexec, hfile⟩

end Xv6.Fs
