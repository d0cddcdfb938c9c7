import Xv6.Kernel.FileSize

namespace Xv6.Kernel

open Lib Vm Prog
open Function (update update_self update_eq_self update_idem)

variable {sys : Sys} {x y z : KState} {v w : Vma} {k : Fin nVma} {va addr a n : ℕ} {S T : ℕ → Bool} {l : List UInt8}
  {pages : ℕ → Option Page}

def byteAt (pages : ℕ → Option Page) (a : ℕ) (b : UInt8) : UInt8 :=
  match pages (pgRoundDown a) with
  | some p => p.get (a % pgSize)
  | none => b

def Vma.overlay (v : Vma) (pages : ℕ → Option Page) (S : ℕ → Bool) (l : List UInt8) : List UInt8 :=
  l.mapIdx (fun o b => if v.writesBack ∧ v.offset ≤ o ∧ S (v.addr + (o - v.offset)) then
    byteAt pages (v.addr + (o - v.offset)) b else b)

theorem Vma.length_overlay : (v.overlay pages S l).length = l.length := List.length_mapIdx

theorem Vma.overlay_overlay :
    v.overlay pages T (v.overlay pages S l) = v.overlay pages (fun a => S a || T a) l := by
  apply List.ext_getElem?
  intro o
  simp only [Vma.overlay, List.getElem?_mapIdx, Option.map_map]
  cases l[o]? with
  | none => rfl
  | some b =>
    simp only [Option.map_some, Function.comp_apply, Option.some.injEq, Bool.or_eq_true, byteAt]
    cases hp : pages (pgRoundDown (v.addr + (o - v.offset))) with
    | none => split_ifs <;> rfl
    | some p =>
      dsimp only
      split_ifs <;> first | rfl | tauto

theorem Vma.overlay_none : v.overlay pages (fun _ => false) l = l := by
  apply List.ext_getElem?
  intro o
  simp only [Vma.overlay, List.getElem?_mapIdx]
  cases l[o]? <;> simp

theorem Vma.back_eq (hv : v.addr % pgSize = 0) (ha : a % pgSize = 0) (hlo : v.addr ≤ a)
    (hlen : pages a ≠ none → v.place a + pgSize ≤ l.length) (hmax : l.length ≤ Fs.maxFile * bSize) :
    v.back a (pages a) l = v.overlay pages (inRange a (a + pgSize)) l := by
  have hbig : Fs.maxFile * bSize < 2 ^ 32 := by decide
  apply List.ext_getElem?
  intro o
  simp only [Vma.overlay, List.getElem?_mapIdx]
  have hin : v.offset ≤ o ∧ inRange a (a + pgSize) (v.addr + (o - v.offset)) = true ↔
      v.place a ≤ o ∧ o < v.place a + pgSize := by
    rw [inRange_iff]
    unfold Vma.place
    simp only [pgSize] at *
    omega
  cases hp : pages a with
  | none =>
    rw [Vma.back]
    cases hb : l[o]? with
    | none => rfl
    | some b =>
      simp only [Option.map_some, Option.some.injEq]
      split_ifs with hc
      · have hr := hin.mp hc.2
        have hround : pgRoundDown (v.addr + (o - v.offset)) = a := by
          unfold Vma.place at hr
          simp only [pgRoundDown, pgSize] at *
          omega
        rw [byteAt, hround, hp]
      · rfl
  | some p =>
    have hlen := hlen (by rw [hp]; exact Option.some_ne_none p)
    have hoff : v.fileOff a = v.place a := (Vma.fileOff_eq_iff hlo).mpr (by omega)
    rw [Vma.back]
    by_cases hw : v.writesBack = true
    · rw [if_pos hw, hoff, Fs.writeAt, if_pos (by rw [length_pageBytes]; exact ⟨by omega, by omega⟩),
        Fs.getElem_overwrite (by omega), length_pageBytes]
      by_cases hr : v.place a ≤ o ∧ o < v.place a + pgSize
      · have hround : pgRoundDown (v.addr + (o - v.offset)) = a ∧ (v.addr + (o - v.offset)) % pgSize = o - v.place a := by
          unfold Vma.place at hr ⊢
          simp only [pgRoundDown, pgSize] at *
          omega
        have hlt : o < l.length := by omega
        rw [if_pos hr, List.getElem?_eq_getElem hlt, Option.map_some, if_pos ⟨hw, hin.mpr hr⟩, byteAt, hround.1, hp,
          hround.2]
        simp [pageBytes, show o - v.place a < pgSize by omega]
      · rw [if_neg hr]
        cases hb : l[o]? with
        | none => rfl
        | some b =>
          rw [Option.map_some, if_neg (fun hc => hr (hin.mp hc.2))]
    · rw [if_neg hw]
      cases hb : l[o]? with
      | none => rfl
      | some b => rw [Option.map_some, if_neg (fun hc => hw hc.1)]

theorem Vma.backAll_eq (hv : v.addr % pgSize = 0) (ha : va % pgSize = 0) (hlo : v.addr ≤ va)
    (hlen : ∀ i < n, pages (va + i * pgSize) ≠ none → v.place (va + i * pgSize) + pgSize ≤ l.length)
    (hmax : l.length ≤ Fs.maxFile * bSize) :
    v.backAll pages n va l = v.overlay pages (inRange va (va + n * pgSize)) l := by
  induction n generalizing va l with
  | zero =>
    have hnone : inRange va (va + 0 * pgSize) = fun _ => false := by
      funext a
      rw [Bool.eq_false_iff, ne_eq, inRange_iff]
      omega
    rw [Vma.backAll, hnone, Vma.overlay_none]
  | succ n ih =>
    have hmul : (n + 1) * pgSize = n * pgSize + pgSize := Nat.succ_mul n pgSize
    have hfirst := hlen 0 (Nat.succ_pos n)
    rw [Nat.zero_mul, Nat.add_zero] at hfirst
    rw [Vma.backAll, Vma.back_eq hv ha hlo hfirst hmax, ih, Vma.overlay_overlay]
    · congr 1
      funext a
      rw [Bool.eq_iff_iff, Bool.or_eq_true, inRange_iff, inRange_iff, inRange_iff]
      simp only [pgSize] at *
      omega
    · rw [Nat.add_mod_right, ha]
    · omega
    · intro i hi
      have haddr : va + pgSize + i * pgSize = va + (i + 1) * pgSize := by
        rw [Nat.succ_mul]
        omega
      rw [Vma.length_overlay, haddr]
      exact hlen (i + 1) (by omega)
    · rw [Vma.length_overlay]
      exact hmax

structure Vma.Part (w v : Vma) : Prop extends Vma.Within w v where
  flags : w.flags = v.flags
  prot : w.prot = v.prot

theorem Vma.Part.fileOff (h : w.Part v) (ha : w.addr ≤ a) : w.fileOff a = v.fileOff a := by
  have := h.offset
  have := h.lo
  unfold Vma.fileOff
  omega

theorem Vma.Part.writesBack (h : w.Part v) : w.writesBack = v.writesBack := by
  rw [Vma.writesBack, h.flags, h.prot, Vma.writesBack]

theorem Vma.Part.backAll (h : w.Part v) (ha : w.addr ≤ va) : w.backAll pages n va l = v.backAll pages n va l := by
  induction n generalizing va l with
  | zero => rfl
  | succ n ih =>
    have hback : w.back va (pages va) l = v.back va (pages va) l := by
      simp only [Vma.back, h.writesBack, h.fileOff ha]
    rw [Vma.backAll, Vma.backAll, hback]
    exact ih (by omega)

structure Stripped (sys : Sys) (x y : KState) (k : Fin nVma) (v : Vma) (S : ℕ → Bool) (o : Option Vma) : Prop where
  thread : y.2 = (x.2.mapTable .own (·.clear S)).mapProc (·.setVma k o)
  list : ∃ freed, y.1.freelist = freed ++ x.1.freelist ∧
    ∀ p, p ∈ freed ↔ ∃ a pte, S a ∧ leafOf x a = some pte ∧ pte.pa = p
  leaf : ∀ a < 2 ^ 39, leafOf y a = if S a then none else leafOf x a
  pages : ∀ a < Vm.trapframe, S a = false → pageAt y a = pageAt x a
  ftable : y.1.ftable = x.1.ftable
  fs : Edits sys.sb x.1.fs y.1.fs (fileInum x v.file) (v.overlay (pageAt x) S (fileBytes sys x v.file))
  loaded : (y.1.fs.itable (x.1.ftable v.file).ip).valid = true ↔ (x.1.fs.itable (x.1.ftable v.file).ip).valid = true ∨
    (v.writesBack ∧ ∃ a, S a ∧ leafOf x a ≠ none)

theorem Stripped.refl (hx : Ready sys x) (hk : x.2.proc.vmas k = some v) :
    Stripped sys x x k v (fun _ => false) (some v) := by
  obtain ⟨pt, hpt⟩ := hx.sound.table
  have hclear : pt.clear (fun _ => false) = pt := PageTable.clear_of_none (fun _ _ _ h => nomatch h)
  refine ⟨?_, ⟨[], rfl, fun p => ⟨nofun, fun ⟨_, _, h, _⟩ => (nomatch h)⟩⟩, fun a _ => rfl, fun _ _ _ => rfl,
    rfl, ?_, Or.inl, fun h => h.resolve_right (fun ⟨_, _, h, _⟩ => nomatch h)⟩
  · have hslot : update x.2.proc.vmas k (some v) = x.2.proc.vmas := by
      rw [← hk, update_eq_self]
    have hmap : x.2.mapTable .own (·.clear (fun _ => false)) = x.2.setTable .own (some pt) := by
      simp only [Local.mapTable, Local.table, hpt, Option.map_some, hclear]
    rw [hmap]
    simp only [Local.setTable, Local.mapProc, Proc.setVma, hslot, ← hpt]
  · rw [Vma.overlay_none]
    exact Edits.refl hx.inv _

theorem length_fileBytes_le {f : Fin nFile} (h : Backed sys x f) : (fileBytes sys x f).length ≤ Fs.maxFile * bSize := by
  rw [fileBytes, Fs.length_contents]
  exact (h.inv.full _ (h.inv.table _ h.ref).1 h.type).1

theorem Stripped.fileInum {o : Option Vma} (h : Stripped sys x y k v S o) (g : Fin nFile) : fileInum y g = fileInum x g := by
  rw [Kernel.fileInum, h.ftable, (h.fs.table _).2, Kernel.fileInum]

theorem Stripped.fileBytes {o : Option Vma} (h : Stripped sys x y k v S o) :
    fileBytes sys y v.file = v.overlay (pageAt x) S (fileBytes sys x v.file) := by
  rw [Kernel.fileBytes, h.fileInum, h.fs.contents, update_self]

theorem Stripped.unmaps (h : Stripped sys x y k v S (some w)) (hz : Unmaps sys y z w addr n) (hx : Ready sys x)
    (hy : Ready sys y) (hk : x.2.proc.vmas k = some v) (hw : w.Part v) (ha : addr % pgSize = 0) (hlo : w.addr ≤ addr)
    (hhi : addr + n * pgSize ≤ w.addr + w.length) (hS : ∀ a, w.Covers a → S a = false)
    (hlen : v.offset + v.length ≤ (Kernel.fileBytes sys x v.file).length) :
    Stripped sys x z k v (fun a => S a || inRange addr (addr + n * pgSize) a) (some w) := by
  have hv := hx.vmas.each k v hk
  have htf : Vm.trapframe < 2 ^ 39 := by decide
  have hin {a : ℕ} (hr : inRange addr (addr + n * pgSize) a = true) : w.Covers a ∧ a < Vm.trapframe := by
    rw [inRange_iff] at hr
    have := hw.hi
    have := hv.le
    exact ⟨⟨by omega, by omega⟩, by omega⟩
  have hleaf {a : ℕ} (hr : inRange addr (addr + n * pgSize) a = true) : leafOf y a = leafOf x a := by
    rw [h.leaf a (by have := (hin hr).2; omega), hS a (hin hr).1]
    rfl
  obtain ⟨freed, hlist, hmem⟩ := h.list
  obtain ⟨freed', hlist', -, hmem', -⟩ := hz.list
  refine ⟨?_, ⟨freed' ++ freed, ?_, fun p => ?_⟩, fun a hlt => ?_, fun a hlt hSa => ?_, hz.ftable.trans h.ftable, ?_, ?_⟩
  · rw [hz.thread, h.thread]
    simp only [Local.mapTable, Local.setTable, Local.table, Local.mapProc, Proc.setVma, Option.map_map, Function.comp_def,
      PageTable.clear_clear]
  · rw [hlist', hlist, List.append_assoc]
  · rw [List.mem_append, hmem', hmem]
    constructor
    · rintro (⟨a, pte, hr, hl, hpa⟩ | ⟨a, pte, hr, hl, hpa⟩)
      · exact ⟨a, pte, by rw [hr, Bool.or_true], by rw [← hleaf hr]; exact hl, hpa⟩
      · exact ⟨a, pte, by rw [hr, Bool.true_or], hl, hpa⟩
    · rintro ⟨a, pte, hr, hl, hpa⟩
      rw [Bool.or_eq_true] at hr
      cases hr with
      | inl hr => exact Or.inr ⟨a, pte, hr, hl, hpa⟩
      | inr hr => exact Or.inl ⟨a, pte, hr, by rw [hleaf hr]; exact hl, hpa⟩
  · rw [hz.leaf ha hlt, h.leaf a hlt]
    cases S a <;> cases inRange addr (addr + n * pgSize) a <;> rfl
  · rw [Bool.or_eq_false_iff] at hSa
    rw [hz.pageAt hy.sound ha (by have := hw.hi; have := hv.le; omega) hlt, hSa.2, h.pages a hlt hSa.1]
    rfl
  · have hbytes : w.backAll (pageAt y) n addr (Kernel.fileBytes sys y v.file) =
        v.overlay (pageAt x) (fun a => S a || inRange addr (addr + n * pgSize) a) (Kernel.fileBytes sys x v.file) := by
      rw [h.fileBytes, hw.backAll hlo, ← Vma.overlay_overlay]
      have hpages : ∀ i < n, pageAt y (addr + i * pgSize) = pageAt x (addr + i * pgSize) := by
        intro i hi
        have hmul : i * pgSize + pgSize ≤ n * pgSize := by
          rw [← Nat.succ_mul]
          exact Nat.mul_le_mul_right _ hi
        have hr : inRange addr (addr + n * pgSize) (addr + i * pgSize) = true := by
          have : 0 < pgSize := by decide
          rw [inRange_iff]
          omega
        exact h.pages _ (hin hr).2 (hS _ (hin hr).1)
      rw [Vma.backAll_congr hpages]
      apply Vma.backAll_eq hv.addr ha (by have := hw.lo; omega)
      · intro i hi _
        have hmul : i * pgSize + pgSize ≤ n * pgSize := by
          rw [← Nat.succ_mul]
          exact Nat.mul_le_mul_right _ hi
        rw [Vma.length_overlay]
        have := hw.hi
        have := hw.lo
        unfold Vma.place
        omega
      · rw [Vma.length_overlay]
        exact length_fileBytes_le (hx.file hk).backed
    have hfs := hz.fs
    rw [hw.file, h.fileInum, hbytes] at hfs
    exact h.fs.trans hfs
  · have hload := hz.loaded
    rw [hw.file, h.ftable, h.loaded, hw.writesBack] at hload
    rw [hload]
    constructor
    · rintro ((hv | ⟨hb, a, hr, hl⟩) | ⟨hb, a, hr, hl⟩)
      · exact Or.inl hv
      · exact Or.inr ⟨hb, a, by rw [hr, Bool.true_or], hl⟩
      · exact Or.inr ⟨hb, a, by rw [hr, Bool.or_true], by rw [← hleaf hr]; exact hl⟩
    · rintro (hv | ⟨hb, a, hr, hl⟩)
      · exact Or.inl (Or.inl hv)
      · rw [Bool.or_eq_true] at hr
        cases hr with
        | inl hr => exact Or.inl (Or.inr ⟨hb, a, hr, hl⟩)
        | inr hr => exact Or.inr ⟨hb, a, hr, by rw [hleaf hr]; exact hl⟩

theorem Stripped.setVma {o : Option Vma} (h : Stripped sys x y k v S o) (o' : Option Vma) :
    Stripped sys x (y.1, y.2.mapProc (·.setVma k o')) k v S o' := by
  refine ⟨?_, h.list, h.leaf, h.pages, h.ftable, h.fs, h.loaded⟩
  rw [h.thread]
  simp only [Local.mapProc, Proc.setVma, update_idem]

def Vma.gone (v w : Vma) : ℕ → Bool :=
  fun a => inRange v.addr w.addr a || inRange (w.addr + w.length) (v.addr + v.length) a

theorem Vma.gone_iff : v.gone w a = true ↔
    v.addr ≤ a ∧ a < w.addr ∨ w.addr + w.length ≤ a ∧ a < v.addr + v.length := by
  rw [Vma.gone, Bool.or_eq_true, inRange_iff, inRange_iff]

structure Left (sys : Sys) (x y : KState) (k : Fin nVma) (v w : Vma) : Prop where
  ready : Ready sys y
  slot : y.2.proc.vmas k = some w
  part : w.Part v
  stripped : Stripped sys x y k v (v.gone w) (some w)

def Gone (sys : Sys) (x y : KState) (k : Fin nVma) (v : Vma) : Prop :=
  ∃ z w, Ready sys z ∧ z.2.proc.vmas k = some w ∧ w.file = v.file ∧
    Stripped sys x z k v (inRange v.addr (v.addr + v.length)) (some w) ∧ Closes sys z y v.file (·.mapProc (·.setVma k none))

theorem Gone.slot (h : Gone sys x y k v) : y.2.proc.vmas k = none := by
  obtain ⟨z, w, -, -, -, -, hclose⟩ := h
  rw [hclose.thread]
  exact update_self _ _ _

theorem Left.refl (hx : Ready sys x) (hk : x.2.proc.vmas k = some v) : Left sys x x k v v := by
  have hgone : v.gone v = fun _ => false := by
    funext a
    rw [Bool.eq_false_iff, ne_eq, Vma.gone_iff]
    omega
  refine ⟨hx, hk, ⟨⟨rfl, rfl, le_refl _, le_refl _⟩, rfl, rfl⟩, ?_⟩
  rw [hgone]
  exact Stripped.refl hx hk

theorem Left.removes {length : ℕ} (h : Left sys x y k v w) (hx : Ready sys x) (hk : x.2.proc.vmas k = some v)
    (hlen : v.offset + v.length ≤ (fileBytes sys x v.file).length) (hadm : Admits w addr length n)
    (hr : Removes sys y z k w addr n) : (∃ u, Left sys x z k v u) ∨ Gone sys x z k v := by
  have hS : ∀ a, w.Covers a → v.gone w a = false := by
    intro a hc
    unfold Vma.Covers at hc
    rw [Bool.eq_false_iff, ne_eq, Vma.gone_iff]
    omega
  have hready := hr.ready h.ready h.slot hadm
  have hpart := h.part
  have hwlo := hpart.lo
  have hwhi := hpart.hi
  have hmulpos : 0 < n * pgSize := Nat.mul_pos hadm.pos (by decide)
  cases hr with
  | whole u hu hlo hhi hy =>
    right
    have hstrip := h.stripped.unmaps hu hx h.ready hk h.part hadm.aligned hadm.lo hadm.hi hS hlen
    have hall : (fun a => v.gone w a || inRange addr (addr + n * pgSize) a) = inRange v.addr (v.addr + v.length) := by
      funext a
      rw [Bool.eq_iff_iff, Bool.or_eq_true, Vma.gone_iff, inRange_iff, inRange_iff]
      omega
    rw [hall] at hstrip
    refine ⟨u, w, h.ready.unmaps hu, by rw [hu.vmas]; exact h.slot, h.part.file, hstrip, ?_⟩
    rw [← h.part.file]
    exact hy
  | first u hu hlo hhi hy =>
    left
    have hstrip := (h.stripped.unmaps hu hx h.ready hk h.part hadm.aligned hadm.lo hadm.hi hS hlen).setVma
      (some (w.dropFirst (n * pgSize)))
    have hall : (fun a => v.gone w a || inRange addr (addr + n * pgSize) a) = v.gone (w.dropFirst (n * pgSize)) := by
      funext a
      rw [Bool.eq_iff_iff, Bool.or_eq_true, Vma.gone_iff, Vma.gone_iff, inRange_iff]
      simp only [Vma.dropFirst]
      omega
    rw [hall] at hstrip
    subst hy
    refine ⟨w.dropFirst (n * pgSize), hready, update_self _ _ _,
      ⟨⟨hpart.file, ?_, ?_, ?_⟩, hpart.flags, hpart.prot⟩, hstrip⟩
    · have := hpart.offset
      change w.offset + n * pgSize + v.addr = v.offset + (w.addr + n * pgSize)
      omega
    · change v.addr ≤ w.addr + n * pgSize
      omega
    · change w.addr + n * pgSize + (w.length - n * pgSize) ≤ v.addr + v.length
      omega
  | last u hu hlo hhi hy =>
    left
    have hstrip := (h.stripped.unmaps hu hx h.ready hk h.part hadm.aligned hadm.lo hadm.hi hS hlen).setVma
      (some (w.dropLast (n * pgSize)))
    have hall : (fun a => v.gone w a || inRange addr (addr + n * pgSize) a) = v.gone (w.dropLast (n * pgSize)) := by
      funext a
      rw [Bool.eq_iff_iff, Bool.or_eq_true, Vma.gone_iff, Vma.gone_iff, inRange_iff]
      simp only [Vma.dropLast]
      omega
    rw [hall] at hstrip
    subst hy
    refine ⟨w.dropLast (n * pgSize), hready, update_self _ _ _,
      ⟨⟨hpart.file, hpart.offset, hpart.lo, ?_⟩, hpart.flags, hpart.prot⟩, hstrip⟩
    change w.addr + (w.length - n * pgSize) ≤ v.addr + v.length
    omega

theorem Admits.unique {length m : ℕ} {j : Fin nVma} (h : VmasOk x.2.proc.vmas) (hk : x.2.proc.vmas k = some v)
    (hj : x.2.proc.vmas j = some w) (hadm : Admits v addr length n) (hadm' : Admits w addr length m) :
    j = k ∧ w = v ∧ m = n := by
  obtain rfl := hadm'.pages_eq hadm.round
  have hpos : 0 < m * pgSize := Nat.mul_pos hadm.pos (by decide)
  have hjk : j = k := by
    by_contra hne
    have := h.disjoint j k w v hj hk hne
    have := hadm.lo
    have := hadm.hi
    have := hadm'.lo
    have := hadm'.hi
    omega
  subst hjk
  rw [hk] at hj
  cases hj
  exact ⟨rfl, rfl, rfl⟩

theorem Left.fits {length : ℕ} (h : Left sys x y k v w) (hx : Ready sys x) (hk : x.2.proc.vmas k = some v)
    (hlen : v.offset + v.length ≤ (fileBytes sys x v.file).length) (hadm : Admits w addr length n) :
    Fits sys y w addr n := by
  intro i hi _ _
  have hmax := length_fileBytes_le (hx.file hk).backed
  have hbig : Fs.maxFile * bSize < 2 ^ 32 := by decide
  have hmul : i * pgSize + pgSize ≤ n * pgSize := by
    rw [← Nat.succ_mul]
    exact Nat.mul_le_mul_right _ hi
  have hpos : 0 < pgSize := by decide
  have := hadm.lo
  have := hadm.hi
  have := h.part.lo
  have := h.part.hi
  have hplace : v.place (addr + i * pgSize) + pgSize ≤ v.offset + v.length := by
    unfold Vma.place
    omega
  rw [h.part.file, h.stripped.fileBytes, Vma.length_overlay, h.part.fileOff (by omega),
    (Vma.fileOff_eq_iff (by omega)).mpr (by omega)]
  omega

inductive Pieces (sys : Sys) (k : Fin nVma) (x : KState) : List ℤ → KState → Prop
  | nil : Pieces sys k x [] x
  | snoc {y z : KState} {rs : List ℤ} {w : Vma} {addr length : UInt64} {n : ℕ} {r : ℤ} (h : Pieces sys k x rs y)
    (hk : y.2.proc.vmas k = some w) (hadm : Admits w addr.toNat length.toNat n)
    (hr : (sysMunmap sys addr length).returns y r z) : Pieces sys k x (r :: rs) z

theorem sysMunmap_post {length : UInt64} {addr : UInt64} (hy : Ready sys y) (hk : y.2.proc.vmas k = some w)
    (hadm : Admits w addr.toNat length.toNat n) (hfits : Fits sys y w addr.toNat n) :
    (sysMunmap sys addr length).post y (fun r z => r = 0 ∧ Removes sys y z k w addr.toNat n) (fun _ => False) := by
  have hne : length ≠ 0 := by
    rintro rfl
    have h0 : pgRoundUp (UInt64.toNat 0) = 0 := by decide
    have hround := hadm.round
    have hpos : 0 < n * pgSize := Nat.mul_pos hadm.pos (by decide)
    omega
  rw [sysMunmap, if_neg hne]
  refine post_mono (post_vmaUnmap hy ?_) ?_ (fun _ he => he)
  · intro j u m hj hadm' hnot
    obtain ⟨rfl, rfl, rfl⟩ := Admits.unique hy.vmas hk hj hadm hadm'
    exact hnot hfits
  · rintro r z (⟨-, -, hno⟩ | ⟨j, u, m, hj, hadm', hrem, hr⟩)
    · exact absurd hadm (hno k w n hk)
    · obtain ⟨rfl, rfl, rfl⟩ := Admits.unique hy.vmas hk hj hadm hadm'
      exact ⟨hr hfits, hrem⟩

theorem Pieces.left_or_gone {rs : List ℤ} (h : Pieces sys k x rs y) (hx : Ready sys x) (hk : x.2.proc.vmas k = some v)
    (hlen : v.offset + v.length ≤ (fileBytes sys x v.file).length) :
    (∀ r ∈ rs, r = 0) ∧ ((∃ w, Left sys x y k v w) ∨ Gone sys x y k v) := by
  induction h with
  | nil => exact ⟨fun _ hr => (nomatch hr), Or.inl ⟨v, Left.refl hx hk⟩⟩
  | snoc h hslot hadm hr ih =>
    obtain ⟨hrs, ⟨w, hleft⟩ | hgone⟩ := ih
    · rw [hleft.slot] at hslot
      cases hslot
      obtain ⟨rfl, hrem⟩ := post_returns (sysMunmap_post hleft.ready hleft.slot hadm (hleft.fits hx hk hlen hadm)) hr
      refine ⟨?_, hleft.removes hx hk hlen hadm hrem⟩
      intro r hr'
      rcases List.mem_cons.mp hr' with rfl | hr'
      · rfl
      · exact hrs r hr'
    · rw [hgone.slot] at hslot
      cases hslot

def LastUse (sys : Sys) (x : KState) (v : Vma) : Prop :=
  (x.1.ftable v.file).ref = 1 ∧ (x.1.fs.itable (x.1.ftable v.file).ip).ref = 1 ∧
    ((x.1.fs.itable (x.1.ftable v.file).ip).valid = true ∨
      (v.writesBack ∧ ∃ a, inRange v.addr (v.addr + v.length) a ∧ leafOf x a ≠ none)) ∧
    (Fs.attr sys.sb x.1.fs (fileInum x v.file)).nlink = 0

namespace Gone

theorem contents (h : Gone sys x y k v) :
    (LastUse sys x v → Fs.contents sys.sb y.1.fs = update (Fs.contents sys.sb x.1.fs) (fileInum x v.file) []) ∧
      (¬ LastUse sys x v → Fs.contents sys.sb y.1.fs = update (Fs.contents sys.sb x.1.fs) (fileInum x v.file)
        (v.overlay (pageAt x) (inRange v.addr (v.addr + v.length)) (fileBytes sys x v.file))) := by
  obtain ⟨z, w, hz, hslot, hfile, hstrip, hclose⟩ := h
  have hinum : (z.1.fs.itable (x.1.ftable v.file).ip).inum = fileInum x v.file := (hstrip.fs.table _).2
  have hb := (hz.file hslot).backed
  rw [hfile] at hb
  have hr := hb.ref
  rw [hstrip.ftable] at hr
  have hfs := hclose.fs
  rw [hstrip.ftable] at hfs
  have hlast : (x.1.ftable v.file).ref = 1 → (LastUse sys x v ↔ (z.1.fs.itable (x.1.ftable v.file).ip).ref = 1 ∧
      (z.1.fs.itable (x.1.ftable v.file).ip).valid = true ∧ (z.1.fs.itable (x.1.ftable v.file).ip).nlink = 0) := by
    intro hone
    have hnlink : (z.1.fs.itable (x.1.ftable v.file).ip).valid = true →
        (z.1.fs.itable (x.1.ftable v.file).ip).nlink = (Fs.attr sys.sb x.1.fs (fileInum x v.file)).nlink := by
      intro hvalid
      rw [((hz.inv.table _ hr).2 hvalid).1, hinum, ← hstrip.fs.attr]
      rfl
    rw [LastUse, ← hstrip.loaded, (hstrip.fs.table _).1]
    constructor
    · rintro ⟨-, href, hvalid, hn⟩
      exact ⟨href, hvalid, (hnlink hvalid).trans hn⟩
    · rintro ⟨href, hvalid, hn⟩
      exact ⟨hone, href, hvalid, (hnlink hvalid).symm.trans hn⟩
  split_ifs at hfs with hone
  · constructor
    · intro huse
      rw [(hfs.freed ((hlast hone).mp huse)).1, hinum, hstrip.fs.contents, update_idem]
    · intro huse
      rw [Fs.contents_of_cache (hfs.kept (fun hc => huse ((hlast hone).mpr hc))).1, hstrip.fs.contents]
  · refine ⟨fun huse => absurd huse.1 hone, fun _ => ?_⟩
    rw [hfs, hstrip.fs.contents]

theorem same (h : Gone sys x y k v) (h' : Gone sys x z k v) : y.2 = z.2 ∧ y.1.ftable = z.1.ftable ∧
    (∃ freed freed', y.1.freelist = freed ++ x.1.freelist ∧ z.1.freelist = freed' ++ x.1.freelist ∧
      ∀ p, p ∈ freed ↔ p ∈ freed') ∧
    Fs.contents sys.sb y.1.fs = Fs.contents sys.sb z.1.fs := by
  have hcontents : Fs.contents sys.sb y.1.fs = Fs.contents sys.sb z.1.fs := by
    by_cases huse : LastUse sys x v
    · rw [h.contents.1 huse, h'.contents.1 huse]
    · rw [h.contents.2 huse, h'.contents.2 huse]
  obtain ⟨u, w, -, -, -, hstrip, hclose⟩ := h
  obtain ⟨u', w', -, -, -, hstrip', hclose'⟩ := h'
  obtain ⟨freed, hlist, hmem⟩ := hstrip.list
  obtain ⟨freed', hlist', hmem'⟩ := hstrip'.list
  refine ⟨?_, ?_, ⟨freed, freed', ?_, ?_, fun p => (hmem p).trans (hmem' p).symm⟩, hcontents⟩
  · rw [hclose.thread, hclose'.thread, hstrip.thread, hstrip'.thread]
    simp only [Local.mapProc, Proc.setVma, update_idem]
  · rw [hclose.ftable, hclose'.ftable, hstrip.ftable, hstrip'.ftable]
  · rw [hclose.freelist, hlist]
  · rw [hclose'.freelist, hlist']

end Gone

theorem Vma.Ok.admits (h : v.Ok) : ∃ n, Admits v v.addr v.length n ∧ n * pgSize = v.length := by
  have hpos := h.pos
  have hle := h.le
  have hmax : v.length ≤ maxVa := by
    simp only [Vm.trapframe, trampoline, maxVa, pgSize] at *
    omega
  obtain ⟨n, hn, hround, -⟩ := exists_pages (by omega) hmax
  have hsame : n * pgSize = v.length := by
    have := h.length
    rw [← hround, pgRoundUp_eq hmax]
    simp only [pgSize] at *
    omega
  exact ⟨n, ⟨h.addr, hmax, hn, hround, le_refl _, by omega, Or.inl rfl⟩, hsame⟩

section Example

def longFs : Fs.FsState :=
  (Transition.execute (Fs.fsStep Fs.mkfsSuperblock) (fun s c => c.Ready Fs.mkfsSuperblock s)
    (Fs.mount (Fs.blankImage Fs.mkfsSuperblock))
    [.ialloc 2, .ilock ⟨0, nInode_pos⟩, .writei ⟨0, nInode_pos⟩ (Fs.Src.kernel fun _ => 7) 0 8192]).get (by decide +kernel)

def longFile : KState := oneOpen longFs

theorem longFile_ready : Ready bootSys longFile :=
  oneOpen_ready ((Fs.mount_inv Fs.blankImage_owns Fs.blankImage_full).of_run
    (Transition.run_of_execute (Option.some_get _).symm)) (by decide +kernel) (by decide +kernel)

def longMapped : KState := after (sysMmap 0 8192 3 1 0 0) longFile

theorem longMapped_returns : (sysMmap 0 8192 3 1 0 0).returns longFile base longMapped := returns_after (by decide +kernel)

-- The elaborator would run the model when it looks at what a call returns.
attribute [irreducible] longMapped

def halfMapped : KState := after (sysMunmap bootSys 274877890560 4096) longMapped

theorem halfMapped_returns : (sysMunmap bootSys 274877890560 4096).returns longMapped 0 halfMapped :=
  returns_after (by decide +kernel)

attribute [irreducible] halfMapped

def unmappedInTwo : KState := after (sysMunmap bootSys 274877894656 4096) halfMapped

def unmappedAtOnce : KState := after (sysMunmap bootSys 274877890560 8192) longMapped

end Example

end Xv6.Kernel
