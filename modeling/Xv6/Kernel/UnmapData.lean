import Xv6.Kernel.FaultData

namespace Xv6.Kernel

open Lib Vm Prog

variable {sys : Sys} {x y z : KState} {v : Vma} {va a n : ℕ} {f : Fin nFile} {E : Panic → Prop}

def pageBytes (p : Page) : List UInt8 := (List.range pgSize).map p.get

def pageAt (x : KState) (a : ℕ) : Option Page := (leafOf x a).map (fun pte => x.1.mem pte.pa)

def inRange (lo hi a : ℕ) : Bool := decide (lo ≤ a) && decide (a < hi)

theorem inRange_iff {lo hi : ℕ} : inRange lo hi a ↔ lo ≤ a ∧ a < hi := by
  simp [inRange]

def Vma.back (v : Vma) (a : ℕ) (page : Option Page) (l : List UInt8) : List UInt8 :=
  match page with
  | some p => if v.writesBack then Fs.writeAt l (v.fileOff a) (pageBytes p) else l
  | none => l

def Vma.backAll (v : Vma) (pages : ℕ → Option Page) : ℕ → ℕ → List UInt8 → List UInt8
  | 0, _, l => l
  | n + 1, va, l => backAll v pages n (va + pgSize) (v.back va (pages va) l)

theorem Vma.backAll_congr {pages pages' : ℕ → Option Page} {l : List UInt8}
    (h : ∀ i < n, pages (va + i * pgSize) = pages' (va + i * pgSize)) :
    v.backAll pages n va l = v.backAll pages' n va l := by
  induction n generalizing va l with
  | zero => rfl
  | succ n ih =>
    have h0 := h 0 (Nat.succ_pos n)
    rw [Nat.zero_mul, Nat.add_zero] at h0
    rw [backAll, backAll, h0]
    apply ih
    intro i hi
    have haddr : va + pgSize + i * pgSize = va + (i + 1) * pgSize := by
      simp only [pgSize]
      omega
    rw [haddr]
    exact h (i + 1) (by omega)

structure Edits (sb : Fs.Superblock) (s t : Fs.FsState) (i : ℕ) (l : List UInt8) : Prop where
  inv : Fs.FsInv sb t
  contents : Fs.contents sb t = Function.update (Fs.contents sb s) i l
  attr : Fs.attr sb t = Fs.attr sb s
  table : ∀ jp, (t.itable jp).ref = (s.itable jp).ref ∧ (t.itable jp).inum = (s.itable jp).inum

theorem Edits.refl {sb : Fs.Superblock} {s : Fs.FsState} (h : Fs.FsInv sb s) (i : ℕ) :
    Edits sb s s i (Fs.contents sb s i) :=
  ⟨h, (Function.update_eq_self _ _).symm, rfl, fun _ => ⟨rfl, rfl⟩⟩

theorem Edits.trans {sb : Fs.Superblock} {s t u : Fs.FsState} {i : ℕ} {l l' : List UInt8}
    (h : Edits sb s t i l) (h' : Edits sb t u i l') : Edits sb s u i l' where
  inv := h'.inv
  contents := by rw [h'.contents, h.contents, Function.update_idem]
  attr := h'.attr.trans h.attr
  table jp := ⟨(h'.table jp).1.trans (h.table jp).1, (h'.table jp).2.trans (h.table jp).2⟩

theorem Edits.backed {l : List UInt8} (h : Edits sys.sb x.1.fs y.1.fs (fileInum x f) l)
    (hf : y.1.ftable = x.1.ftable) (hb : Backed sys x f) :
    Backed sys y f ∧ fileInum y f = fileInum x f ∧ fileBytes sys y f = l := by
  have hinum : fileInum y f = fileInum x f := by
    rw [fileInum, fileInum, hf, (h.table _).2]
  refine ⟨⟨h.inv, ?_, ?_⟩, hinum, ?_⟩
  · rw [hf, (h.table _).1]
    exact hb.ref
  · rw [hinum, h.attr]
    exact hb.type
  · rw [fileBytes, hinum, h.contents, Function.update_self]

theorem length_pageBytes (p : Page) : (pageBytes p).length = pgSize := by
  rw [pageBytes, List.length_map, List.length_range]

theorem lacking_eq_zero {sb : Fs.Superblock} {s : Fs.FsState} {ip : Fin nInode} {off m : ℕ} (h : Fs.FsInv sb s)
    (hr : 0 < (s.itable ip).ref) (hv : (s.itable ip).valid = true)
    (hle : off + m ≤ (Fs.contents sb s (s.itable ip).inum).length) :
    Fs.lacking sb s ip (Fs.touched off m) = 0 := by
  have hop := h.op hr hv
  have hview := h.view_eq hr hv
  obtain ⟨-, hfull⟩ := h.full _ hop.inum (by rw [← hview]; exact hop.view_type)
  rw [Fs.length_contents] at hle
  have hblock : ∀ bn ∈ Fs.touched off m, (Fs.dataSlot bn).bind (Fs.memRefs sb s ip) ≠ none := by
    intro bn hbn
    have := hfull bn (by have := Fs.mem_touched.mp hbn; omega)
    rw [← hview] at this
    exact this
  unfold Fs.lacking
  rw [List.filter_eq_nil_iff.mpr (fun bn hbn => by simpa using hblock bn hbn), if_neg]
  · rfl
  · rintro ⟨hnone, bn, hbn, hdir⟩
    have hb := hblock bn hbn
    unfold Fs.dataSlot at hb
    rw [dif_neg hdir] at hb
    split_ifs at hb with hlt
    · exact hop.memRefs_indirect_of_entry hb hnone
    · exact hb rfl

theorem post_writeBack (va pa : ℕ) (hb : Backed sys x v.file)
    (hE : ¬ v.fileOff va + pgSize ≤ (fileBytes sys x v.file).length → E (.fs "balloc: out of blocks")) :
    (writeBack sys v va pa).post x (fun ok y => ∃ fs, y = ({ x.1 with fs := fs }, x.2) ∧
      Edits sys.sb x.1.fs fs (fileInum x v.file)
        (Fs.writeAt (fileBytes sys x v.file) (v.fileOff va) (pageBytes (x.1.mem pa))) ∧
      (fs.itable (x.1.ftable v.file).ip).valid = true ∧
      (v.fileOff va + pgSize ≤ (fileBytes sys x v.file).length → ok = true)) E := by
  rw [writeBack, post_bind, post_read, post_bind]
  apply post_ilock hb rfl
  intro fs hsame hvalid
  have href : 0 < (fs.itable (x.1.ftable v.file).ip).ref := by
    rw [(hsame.table _).1]
    exact hb.ref
  have hinum : (fs.itable (x.1.ftable v.file).ip).inum = fileInum x v.file := (hsame.table _).2
  have hbytes : Fs.contents sys.sb fs (fs.itable (x.1.ftable v.file).ip).inum = fileBytes sys x v.file := by
    rw [hinum, hsame.contents]
    rfl
  have hmax : (fileBytes sys x v.file).length ≤ Fs.maxFile * bSize := by
    rw [fileBytes, Fs.length_contents]
    exact (hb.inv.full _ (hb.inv.table _ hb.ref).1 hb.type).1
  rw [post_bind]
  apply post_fsStep
  apply Hoare.wp_mono (Fs.writei_effect hsame.inv href hvalid (fileOff_lt v va) (by decide))
  · rintro r t ⟨hw, hr⟩
    rw [post_pure]
    refine ⟨t, rfl, ⟨hw.inv, ?_, ?_, fun jp => ?_⟩, (hw.table _).2.2.trans hvalid, fun hfit => ?_⟩
    · rw [hw.contents, hbytes, hinum, hsame.contents]
      rfl
    · rw [hw.attr, hsame.attr]
    · obtain ⟨h1, h2, -⟩ := hw.table jp
      exact ⟨h1.trans (hsame.table jp).1, h2.trans (hsame.table jp).2⟩
    · rw [hr, hbytes, if_pos ⟨by omega, by omega⟩, decide_eq_true_eq]
  · rintro e ⟨rfl, -, -, hlack⟩
    apply hE
    intro hfit
    rw [lacking_eq_zero hsame.inv href hvalid (by rw [hbytes]; exact hfit)] at hlack
    omega

theorem post_uvmunmap {pt : PageTable} {pte : Pte} {Q : Unit → KState → Prop} (h : x.2.proc.pagetable = some pt)
    (hl : pt.leaf va = some pte) (ha : va % pgSize = 0) (hva : va < maxVa) (hpool : sys.InPool pte.pa)
    (hQ : Q () (x.1.free pte.pa, x.2.mapTable .own (·.setLeaf va none))) :
    (uvmunmap sys .own va 1 true).post x Q E := by
  obtain ⟨m, hm⟩ := PageTable.node0_of_leaf hl
  rw [uvmunmap, if_neg (not_not.mpr ha), unmapLoop, post_bind]
  apply post_walk h hva
  rw [hm]
  dsimp only [Option.isSome_some]
  rw [if_pos rfl, post_bind]
  apply post_pteAt h
  rw [hl]
  dsimp only
  rw [if_pos rfl, post_bind, kfree, if_pos hpool, post_modify, unmapLoop, post_pure]
  exact hQ

structure Unmaps (sys : Sys) (x y : KState) (v : Vma) (va n : ℕ) : Prop where
  thread : y.2 = x.2.mapTable .own (·.clear (inRange va (va + n * pgSize)))
  list : ∃ freed, y.1.freelist = freed ++ x.1.freelist ∧ freed.Nodup ∧
    (∀ p, p ∈ freed ↔ ∃ a pte, inRange va (va + n * pgSize) a ∧ leafOf x a = some pte ∧ pte.pa = p) ∧
    ∀ p ∉ freed, y.1.mem p = x.1.mem p
  sound : Sound sys y
  ftable : y.1.ftable = x.1.ftable
  fs : Edits sys.sb x.1.fs y.1.fs (fileInum x v.file)
    (v.backAll (pageAt x) n va (fileBytes sys x v.file))
  loaded : (y.1.fs.itable (x.1.ftable v.file).ip).valid = true ↔ (x.1.fs.itable (x.1.ftable v.file).ip).valid = true ∨
    (v.writesBack ∧ ∃ a, inRange va (va + n * pgSize) a ∧ leafOf x a ≠ none)

theorem leafOf_clear {S : ℕ → Bool} (hy : y.2 = x.2.mapTable .own (·.clear S)) (ha : a < 2 ^ 39) :
    leafOf y a = if S (pgRoundDown a) then none else leafOf x a := by
  have hp : y.2.proc.pagetable = x.2.proc.pagetable.map (·.clear S) := by
    rw [hy]
    rfl
  unfold leafOf
  rw [hp]
  cases x.2.proc.pagetable with
  | none => simp
  | some pt => exact PageTable.leaf_clear ha

theorem inRange_round {lo hi : ℕ} (hlo : lo % pgSize = 0) (hhi : hi % pgSize = 0) :
    inRange lo hi (pgRoundDown a) = inRange lo hi a := by
  rw [Bool.eq_iff_iff, inRange_iff, inRange_iff]
  simp only [pgRoundDown, pgSize] at *
  omega

theorem range_end (ha : va % pgSize = 0) : (va + n * pgSize) % pgSize = 0 := by
  rw [Nat.add_mul_mod_self_right, ha]

namespace Unmaps

theorem leaf (h : Unmaps sys x y v va n) (hva : va % pgSize = 0) (ha : a < 2 ^ 39) :
    leafOf y a = if inRange va (va + n * pgSize) a then none else leafOf x a := by
  rw [leafOf_clear h.thread ha, inRange_round hva (range_end hva)]

theorem vmas (h : Unmaps sys x y v va n) : y.2.proc.vmas = x.2.proc.vmas := by
  rw [h.thread]
  rfl

theorem pageAt (h : Unmaps sys x y v va n) (hx : Sound sys x) (hva : va % pgSize = 0)
    (hle : va + n * pgSize ≤ Vm.trapframe) (ha : a < Vm.trapframe) :
    pageAt y a = if inRange va (va + n * pgSize) a then none else Kernel.pageAt x a := by
  have htf : Vm.trapframe < 2 ^ 39 := by decide
  unfold Kernel.pageAt
  rw [h.leaf hva (by omega)]
  split_ifs with hin
  · rfl
  · cases hl : leafOf x a with
    | none => rfl
    | some pte =>
      obtain ⟨freed, -, -, hmem, hsame⟩ := h.list
      simp only [Option.map_some, Option.some.injEq]
      apply hsame
      rw [hmem]
      rintro ⟨b, pte', hb, hlb, heq⟩
      rw [inRange_iff] at hin hb
      have hpage := hx.apart a ha b (by omega) pte pte' hl hlb heq.symm
      simp only [pgSize] at *
      omega

theorem refl (h : Sound sys x) (hb : Backed sys x v.file) : Unmaps sys x x v va 0 := by
  obtain ⟨pt, hpt⟩ := h.table
  have hempty : ∀ a, ¬ inRange va (va + 0 * pgSize) a = true := by
    intro a
    rw [inRange_iff]
    omega
  have hclear : pt.clear (inRange va (va + 0 * pgSize)) = pt :=
    PageTable.clear_of_none (fun a _ _ hin => absurd hin (hempty a))
  refine ⟨?_, ⟨[], rfl, List.nodup_nil, fun p => ?_, fun _ _ => rfl⟩, h, rfl, Edits.refl hb.inv _,
    Or.inl, fun hl => hl.resolve_right (fun hx => by obtain ⟨_, a, hin, _⟩ := hx; exact hempty a hin)⟩
  · have hmap : x.2.mapTable .own (·.clear (inRange va (va + 0 * pgSize))) = x.2.setTable .own (some pt) := by
      simp only [Local.mapTable, Local.table, hpt, Option.map_some, hclear]
    rw [hmap]
    simp only [Local.setTable, ← hpt]
  · constructor
    · intro hp
      cases hp
    · rintro ⟨a, pte, hin, -⟩
      exact absurd hin (hempty a)

theorem skip (h : Sound sys x) (hb : Backed sys x v.file) (ha : va % pgSize = 0) (hlt : va < Vm.trapframe)
    (hnone : leafOf x va = none) : Unmaps sys x x v va 1 := by
  have htf : Vm.trapframe < 2 ^ 39 := by decide
  obtain ⟨pt, hpt⟩ := h.table
  have hclear : pt.clear (inRange va (va + 1 * pgSize)) = pt := by
    apply PageTable.clear_of_none
    intro a ha' hal hin
    rw [inRange_iff] at hin
    rw [← leafOf_eq hpt, leafOf_of_div va (by omega) ha', hnone]
    simp only [pgSize] at *
    omega
  have hinr : ∀ a pte, ¬ (inRange va (va + 1 * pgSize) a = true ∧ leafOf x a = some pte) := by
    rintro a pte ⟨hin, hl⟩
    rw [inRange_iff] at hin
    have hlt' : a < 2 ^ 39 := by
      simp only [Vm.trapframe, trampoline, maxVa, pgSize] at *
      omega
    rw [leafOf_of_div va (by omega) hlt', hnone] at hl
    · cases hl
    · simp only [pgSize] at *
      omega
  refine ⟨?_, ⟨[], rfl, List.nodup_nil, fun p => ?_, fun _ _ => rfl⟩, h, rfl, ?_, Or.inl, fun hl => hl.resolve_right ?_⟩
  · have hmap : x.2.mapTable .own (·.clear (inRange va (va + 1 * pgSize))) = x.2.setTable .own (some pt) := by
      simp only [Local.mapTable, Local.table, hpt, Option.map_some, hclear]
    rw [hmap]
    simp only [Local.setTable, ← hpt]
  · constructor
    · intro hp
      cases hp
    · rintro ⟨a, pte, hin, hl, -⟩
      exact absurd ⟨hin, hl⟩ (hinr a pte)
  · have hpage : Kernel.pageAt x va = none := by rw [Kernel.pageAt, hnone, Option.map_none]
    rw [Vma.backAll, Vma.backAll, hpage]
    exact Edits.refl hb.inv _
  · rintro ⟨-, a, hin, hl⟩
    obtain ⟨pte, hpte⟩ := Option.ne_none_iff_exists'.mp hl
    exact hinr a pte ⟨hin, hpte⟩

theorem one {fs : Fs.FsState} {pte : Pte} (h : Sound sys x) (ha : va % pgSize = 0) (hlt : va < Vm.trapframe)
    (hl : leafOf x va = some pte)
    (hfs : Edits sys.sb x.1.fs fs (fileInum x v.file)
      (v.back va (some (x.1.mem pte.pa)) (fileBytes sys x v.file)))
    (hload : (fs.itable (x.1.ftable v.file).ip).valid = true ↔
      (x.1.fs.itable (x.1.ftable v.file).ip).valid = true ∨ v.writesBack) :
    Unmaps sys x (Shared.free { x.1 with fs := fs } pte.pa, x.2.mapTable .own (·.setLeaf va none)) v va 1 := by
  have htf : Vm.trapframe < 2 ^ 39 := by decide
  obtain ⟨pt, hpt⟩ := h.table
  have hleaf : pt.leaf va = some pte := by rw [← leafOf_eq hpt, hl]
  have hrange : ∀ a, inRange va (va + 1 * pgSize) a = true ↔ a / pgSize = va / pgSize := by
    intro a
    rw [inRange_iff]
    simp only [pgSize] at *
    omega
  have hthread : x.2.mapTable .own (·.setLeaf va none) =
      x.2.mapTable .own (·.clear (inRange va (va + 1 * pgSize))) := by
    have hclear : pt.setLeaf va none = pt.clear (inRange va (va + 1 * pgSize)) := by
      rw [PageTable.setLeaf_none (by omega) ha hleaf]
      apply PageTable.clear_eq_clear
      intro a ha'
      rw [Bool.eq_iff_iff, beq_iff_eq, hrange]
      simp only [pgSize] at *
      omega
    simp only [Local.mapTable, Local.table, hpt, Option.map_some, hclear]
  have hle : ∀ a < 2 ^ 39, leafOf
      (Shared.free { x.1 with fs := fs } pte.pa, x.2.mapTable .own (·.setLeaf va none)) a =
        if a / pgSize = va / pgSize then none else leafOf x a := by
    intro a ha'
    rw [leafOf_clear hthread ha', inRange_round ha (range_end ha)]
    simp only [hrange]
  have hne : ∀ a < Vm.trapframe, a / pgSize ≠ va / pgSize → ∀ q, leafOf x a = some q → q.pa ≠ pte.pa :=
    fun a hat hpage q hq heq => hpage (h.apart a hat va hlt q pte hq hl heq)
  refine ⟨hthread, ⟨[pte.pa], rfl, List.nodup_singleton _, fun p => ?_, fun p hp => ?_⟩, ?_, rfl, ?_, ?_⟩
  · rw [List.mem_singleton]
    constructor
    · rintro rfl
      exact ⟨va, pte, (hrange va).mpr rfl, hl, rfl⟩
    · rintro ⟨a, q, hin, hq, rfl⟩
      rw [hrange] at hin
      have hlt' : a < 2 ^ 39 := by
        simp only [Vm.trapframe, trampoline, maxVa, pgSize] at *
        omega
      rw [leafOf_of_div va (by omega) hlt' hin, hl] at hq
      cases hq
      rfl
  · exact Function.update_of_ne (by simpa using hp) _ _
  · refine ⟨⟨pt.setLeaf va none, ?_⟩, ?_, ?_, ?_, ?_, ?_⟩
    · simp only [Local.mapTable, Local.table, Local.setTable, hpt, Option.map_some]
    · exact List.nodup_cons.mpr ⟨h.taken va hlt pte hl, h.nodup⟩
    · intro p hp
      cases List.mem_cons.mp hp with
      | inl he =>
        rw [he]
        exact h.user va hlt pte hl
      | inr hp => exact h.pool p hp
    · intro a hat q hq hin
      rw [hle a (by omega)] at hq
      split_ifs at hq with hpage
      cases List.mem_cons.mp hin with
      | inl he => exact hne a hat hpage q hq he
      | inr hin => exact h.taken a hat q hq hin
    · intro a hat q hq
      rw [hle a (by omega)] at hq
      split_ifs at hq
      exact h.user a hat q hq
    · intro a hat b hbt q r hq hr
      rw [hle a (by omega)] at hq
      rw [hle b (by omega)] at hr
      split_ifs at hq hr
      exact h.apart a hat b hbt q r hq hr
  · have hpage : Kernel.pageAt x va = some (x.1.mem pte.pa) := by rw [Kernel.pageAt, hl, Option.map_some]
    rw [Vma.backAll, Vma.backAll, hpage]
    exact hfs
  · apply hload.trans
    apply or_congr Iff.rfl
    refine ⟨fun hw => ⟨hw, va, ?_, by rw [hl]; exact Option.some_ne_none _⟩, And.left⟩
    rw [hrange]

theorem cons (h : Unmaps sys x y v va 1) (h' : Unmaps sys y z v (va + pgSize) n) (hx : Sound sys x)
    (ha : va % pgSize = 0) (hle : va + (n + 1) * pgSize ≤ Vm.trapframe) (hb : Backed sys x v.file) :
    Unmaps sys x z v va (n + 1) := by
  have htf : Vm.trapframe < 2 ^ 39 := by decide
  have hsplit : ∀ a, inRange va (va + (n + 1) * pgSize) a =
      (inRange va (va + 1 * pgSize) a || inRange (va + pgSize) (va + pgSize + n * pgSize) a) := by
    intro a
    rw [Bool.eq_iff_iff, Bool.or_eq_true, inRange_iff, inRange_iff, inRange_iff]
    simp only [pgSize]
    omega
  have hlt : ∀ a, inRange (va + pgSize) (va + pgSize + n * pgSize) a = true → a < Vm.trapframe ∧
      ¬ inRange va (va + 1 * pgSize) a = true := by
    intro a hin
    rw [inRange_iff] at hin ⊢
    simp only [pgSize] at *
    omega
  have hfirst : va + 1 * pgSize ≤ Vm.trapframe :=
    le_trans (Nat.add_le_add_left (Nat.mul_le_mul_right _ (by omega)) _) hle
  obtain ⟨hby, hinum, hbytes⟩ := h.fs.backed h.ftable hb
  obtain ⟨freed, hlist, hnodup, hmem, hsame⟩ := h.list
  obtain ⟨freed', hlist', hnodup', hmem', hsame'⟩ := h'.list
  have hleaf : ∀ a, inRange (va + pgSize) (va + pgSize + n * pgSize) a = true → leafOf y a = leafOf x a := by
    intro a hin
    rw [h.leaf ha (by have := (hlt a hin).1; omega), if_neg (hlt a hin).2]
  refine ⟨?_, ⟨freed' ++ freed, ?_, ?_, fun p => ?_, fun p hp => ?_⟩, h'.sound, h'.ftable.trans h.ftable, ?_, ?_⟩
  · have hall : inRange va (va + (n + 1) * pgSize) = fun a =>
        (inRange va (va + 1 * pgSize) a || inRange (va + pgSize) (va + pgSize + n * pgSize) a) := funext hsplit
    rw [h'.thread, h.thread, hall]
    simp only [Local.mapTable, Local.setTable, Local.table, Option.map_map, Function.comp_def,
      PageTable.clear_clear]
  · rw [hlist', hlist, List.append_assoc]
  · apply List.Nodup.append hnodup' hnodup
    intro p hp hp'
    -- a page that is still mapped is not free
    obtain ⟨a, pte, hin, hl, rfl⟩ := (hmem' p).mp hp
    apply h.sound.taken a (hlt a hin).1 pte hl
    rw [hlist]
    exact List.mem_append_left _ hp'
  · rw [List.mem_append, hmem', hmem]
    constructor
    · rintro (⟨a, pte, hin, hl, hpa⟩ | ⟨a, pte, hin, hl, hpa⟩)
      · exact ⟨a, pte, by rw [hsplit, hin, Bool.or_true], by rw [← hleaf a hin]; exact hl, hpa⟩
      · exact ⟨a, pte, by rw [hsplit, hin, Bool.true_or], hl, hpa⟩
    · rintro ⟨a, pte, hin, hl, hpa⟩
      rw [hsplit, Bool.or_eq_true] at hin
      cases hin with
      | inl hin => exact Or.inr ⟨a, pte, hin, hl, hpa⟩
      | inr hin => exact Or.inl ⟨a, pte, hin, by rw [hleaf a hin]; exact hl, hpa⟩
  · rw [List.mem_append, not_or] at hp
    rw [hsame' p hp.1, hsame p hp.2]
  · have hrest : v.backAll (Kernel.pageAt y) n (va + pgSize) (fileBytes sys y v.file) =
        v.backAll (Kernel.pageAt x) (n + 1) va (fileBytes sys x v.file) := by
      rw [hbytes]
      apply Vma.backAll_congr
      intro i hi
      have hin : inRange (va + pgSize) (va + pgSize + n * pgSize) (va + pgSize + i * pgSize) = true := by
        rw [inRange_iff]
        simp only [pgSize]
        omega
      rw [h.pageAt hx ha hfirst (hlt _ hin).1, if_neg (hlt _ hin).2]
    rw [← hrest]
    have h2 := h'.fs
    rw [hinum] at h2
    exact h.fs.trans h2
  · have hload := h'.loaded
    rw [h.ftable, h.loaded] at hload
    rw [hload]
    constructor
    · rintro ((hv | ⟨hw, a, hin, hl⟩) | ⟨hw, a, hin, hl⟩)
      · exact Or.inl hv
      · exact Or.inr ⟨hw, a, by rw [hsplit, hin, Bool.true_or], hl⟩
      · exact Or.inr ⟨hw, a, by rw [hsplit, hin, Bool.or_true], by rw [← hleaf a hin]; exact hl⟩
    · rintro (hv | ⟨hw, a, hin, hl⟩)
      · exact Or.inl (Or.inl hv)
      · rw [hsplit, Bool.or_eq_true] at hin
        cases hin with
        | inl hin => exact Or.inl (Or.inr ⟨hw, a, hin, hl⟩)
        | inr hin => exact Or.inr ⟨hw, a, hin, by rw [hleaf a hin]; exact hl⟩

end Unmaps

theorem length_writeAt_le (l : List UInt8) (off : ℕ) (data : List UInt8) :
    l.length ≤ (Fs.writeAt l off data).length := by
  unfold Fs.writeAt
  split_ifs with h
  · simp only [Fs.overwrite, List.length_append, List.length_take, List.length_drop]
    omega
  · exact le_refl _

theorem Vma.length_back_le (v : Vma) (a : ℕ) (page : Option Page) (l : List UInt8) :
    l.length ≤ (v.back a page l).length := by
  cases page with
  | none => exact le_refl _
  | some p =>
    rw [Vma.back]
    split_ifs
    · exact length_writeAt_le _ _ _
    · exact le_refl _

theorem post_unmapPage {pt : PageTable} {pte : Pte} {g : Bool → KM ℤ} {Q : ℤ → KState → Prop} (h : Sound sys x)
    (hb : Backed sys x v.file) (hpt : x.2.proc.pagetable = some pt) (hl : pt.leaf va = some pte)
    (ha : va % pgSize = 0) (hlt : va < Vm.trapframe)
    (hE : v.writesBack → ¬ v.fileOff va + pgSize ≤ (fileBytes sys x v.file).length →
      E (.fs "balloc: out of blocks"))
    (hQ : ∀ written y, Unmaps sys x y v va 1 →
      ((v.writesBack → v.fileOff va + pgSize ≤ (fileBytes sys x v.file).length) → written = true) →
      (g written).post y Q E) :
    (if v.writesBack then writeBack sys v va pte.pa >>= fun w => uvmunmap sys .own va 1 true >>= fun _ => g w
      else pure true >>= fun w => uvmunmap sys .own va 1 true >>= fun _ => g w).post x Q E := by
  have hmax : va < maxVa := hlt.trans (by decide)
  have hleaf : leafOf x va = some pte := by rw [leafOf_eq hpt, hl]
  have hpool := h.user va hlt pte hleaf
  by_cases hw : v.writesBack = true
  · rw [if_pos hw, post_bind]
    apply post_mono (post_writeBack _ _ hb (hE hw)) _ (fun _ he => he)
    rintro ok y ⟨fs, rfl, hedit, hvalid, hok⟩
    rw [post_bind]
    apply post_uvmunmap (x := ({ x.1 with fs := fs }, x.2)) hpt hl ha hmax hpool
    apply hQ _ _ (Unmaps.one h ha hlt hleaf _ ⟨fun _ => Or.inr hw, fun _ => hvalid⟩) (fun hfit => hok (hfit hw))
    rw [Vma.back, if_pos hw]
    exact hedit
  · rw [if_neg hw, post_bind, post_pure, post_bind]
    apply post_uvmunmap hpt hl ha hmax hpool
    apply hQ _ _ (Unmaps.one h ha hlt hleaf _ ⟨Or.inl, fun hv => hv.resolve_right hw⟩) (fun _ => rfl)
    rw [Vma.back, if_neg hw]
    exact Edits.refl hb.inv _

theorem post_vmaUnmapLoop (error : ℤ) (h : Sound sys x) (hb : Backed sys x v.file) (ha : va % pgSize = 0)
    (hle : va + n * pgSize ≤ Vm.trapframe)
    (hE : ∀ i < n, pageAt x (va + i * pgSize) ≠ none → v.writesBack →
      ¬ v.fileOff (va + i * pgSize) + pgSize ≤ (fileBytes sys x v.file).length →
      E (.fs "balloc: out of blocks")) :
    (vmaUnmapLoop sys v n va error).post x (fun r y => Unmaps sys x y v va n ∧
      ((∀ i < n, pageAt x (va + i * pgSize) ≠ none → v.writesBack →
        v.fileOff (va + i * pgSize) + pgSize ≤ (fileBytes sys x v.file).length) → r = error)) E := by
  induction n generalizing x va error with
  | zero =>
    rw [vmaUnmapLoop, post_pure]
    exact ⟨Unmaps.refl h hb, fun _ => rfl⟩
  | succ n ih =>
    obtain ⟨pt, hpt⟩ := h.table
    have hlt : va < Vm.trapframe := by
      have : pgSize ≤ (n + 1) * pgSize := Nat.le_mul_of_pos_left _ (Nat.succ_pos n)
      have : 0 < pgSize := by decide
      omega
    have hmax : va < maxVa := hlt.trans (by decide)
    have hnext : (va + pgSize) % pgSize = 0 := by rw [Nat.add_mod_right, ha]
    have haddr : ∀ i, va + pgSize + i * pgSize = va + (i + 1) * pgSize := by
      intro i
      simp only [pgSize]
      omega
    -- what the rest of the loop does after the first page
    have hrest : ∀ {y : KState} (error' : ℤ), Unmaps sys x y v va 1 →
        (vmaUnmapLoop sys v n (va + pgSize) error').post y (fun r z => Unmaps sys x z v va (n + 1) ∧
          ((∀ i < n, pageAt x (va + (i + 1) * pgSize) ≠ none → v.writesBack →
            v.fileOff (va + (i + 1) * pgSize) + pgSize ≤ (fileBytes sys x v.file).length) → r = error')) E := by
      intro y error' hy
      obtain ⟨hby, -, hbytes⟩ := hy.fs.backed hy.ftable hb
      have hgrow : (fileBytes sys x v.file).length ≤ (fileBytes sys y v.file).length := by
        rw [hbytes, Vma.backAll, Vma.backAll]
        exact Vma.length_back_le _ _ _ _
      have hle' : va + pgSize + n * pgSize ≤ Vm.trapframe := by
        rw [haddr]
        exact hle
      have hpage : ∀ i < n, pageAt y (va + pgSize + i * pgSize) = pageAt x (va + (i + 1) * pgSize) := by
        intro i hi
        have hmul : (i + 1) * pgSize < (n + 1) * pgSize := Nat.mul_lt_mul_of_pos_right (by omega) (by decide)
        rw [haddr, hy.pageAt h ha _ (by omega), if_neg]
        · rw [inRange_iff]
          simp only [pgSize]
          omega
        · have : 1 * pgSize ≤ (n + 1) * pgSize := Nat.mul_le_mul_right _ (by omega)
          omega
      apply post_mono (ih error' hy.sound hby hnext hle' _) _ (fun _ he => he)
      · intro i hi hres hw hgt
        rw [hpage i hi] at hres
        rw [haddr] at hgt
        exact hE (i + 1) (by omega) hres hw (by omega)
      · rintro r z ⟨hz, hr⟩
        refine ⟨hy.cons hz h ha hle hb, fun hfit => hr (fun i hi hres hw => ?_)⟩
        rw [hpage i hi] at hres
        rw [haddr]
        have := hfit i hi hres hw
        omega
    have hfirst : ∀ P : ℕ → Prop, (∀ i < n + 1, P (va + i * pgSize)) → P va := by
      intro P hP
      have := hP 0 (Nat.succ_pos n)
      rwa [Nat.zero_mul, Nat.add_zero] at this
    rw [vmaUnmapLoop, post_bind]
    apply post_walk hpt hmax
    rw [post_bind]
    apply post_pteAt hpt
    cases hl : pt.leaf va with
    | none =>
      have hnone : leafOf x va = none := by rw [leafOf_eq hpt, hl]
      have hskip := hrest error (Unmaps.skip h hb ha hlt hnone)
      cases (pt.node0 va).isSome
      · apply post_mono hskip _ (fun _ he => he)
        exact fun r z hz => ⟨hz.1, fun hfit => hz.2 (fun i hi => hfit (i + 1) (by omega))⟩
      · apply post_mono hskip _ (fun _ he => he)
        exact fun r z hz => ⟨hz.1, fun hfit => hz.2 (fun i hi => hfit (i + 1) (by omega))⟩
    | some pte =>
      obtain ⟨m, hm⟩ := PageTable.node0_of_leaf hl
      have hres : pageAt x va ≠ none := by
        rw [pageAt, leafOf_eq hpt, hl]
        exact Option.some_ne_none _
      rw [hm]
      apply post_unmapPage h hb hpt hl ha hlt
      · exact hfirst (fun a => pageAt x a ≠ none → v.writesBack →
          ¬ v.fileOff a + pgSize ≤ (fileBytes sys x v.file).length → E (.fs "balloc: out of blocks")) hE hres
      · intro written y hy hwritten
        apply post_mono (hrest _ hy) _ (fun _ he => he)
        rintro r w ⟨hw, hr⟩
        refine ⟨hw, fun hfit => ?_⟩
        rw [hr (fun i hi => hfit (i + 1) (by omega)), hwritten, if_pos rfl]
        exact hfirst (fun a => pageAt x a ≠ none → v.writesBack →
          v.fileOff a + pgSize ≤ (fileBytes sys x v.file).length) hfit hres

end Xv6.Kernel
