import Xv6.Kernel.FileSize
import Xv6.Kernel.UserCalls
import Xv6.Lib.Preserves

namespace Xv6.Kernel

open Lib Vm Prog
open Function (update update_of_ne update_self)

def Avoids (S : Set ℕ) (pt : PageTable) : Prop :=
  pt.tag ∉ S ∧ ∀ i n, pt.entry i = some n → n.tag ∉ S ∧
    ∀ j m, n.entry j = some m → m.tag ∉ S ∧ ∀ k pte, m.entry k = some pte → pte.pa ∉ S

namespace Avoids

variable {S : Set ℕ} {pt : PageTable} {va : ℕ}

theorem node0 {n : Node Pte} (h : Avoids S pt) (hn : pt.node0 va = some n) :
    n.tag ∉ S ∧ ∀ k pte, n.entry k = some pte → pte.pa ∉ S := by
  obtain ⟨m, hm, hmn⟩ := PageTable.node1_of_node0 hn
  exact (h.2 _ _ hm).2 _ _ hmn

theorem leaf {pte : Pte} (h : Avoids S pt) (hl : pt.leaf va = some pte) : pte.pa ∉ S := by
  obtain ⟨n, hn, hpte⟩ := Option.bind_eq_some_iff.mp hl
  exact (h.node0 hn).2 _ _ hpte

theorem set_none (h : Avoids S pt) (i : Fin 512) : Avoids S (pt.set i none) := by
  refine ⟨h.1, fun j n hn => ?_⟩
  rw [Table.entry_set] at hn
  split_ifs at hn
  exact h.2 j n hn

theorem setNode0 {o : Option (Node Pte)} (h : Avoids S pt)
    (ho : ∀ n, o = some n → n.tag ∉ S ∧ ∀ k pte, n.entry k = some pte → pte.pa ∉ S) : Avoids S (pt.setNode0 va o) := by
  unfold PageTable.setNode0
  cases hm : pt.node1 va with
  | none => exact h
  | some m =>
    refine ⟨h.1, fun i n hn => ?_⟩
    rw [Table.entry_set] at hn
    split_ifs at hn with hi
    · cases hn
      refine ⟨(h.2 _ _ hm).1, fun j n hn => ?_⟩
      rw [Table.entry_set] at hn
      split_ifs at hn
      · exact ho n hn
      · exact (h.2 _ _ hm).2 j n hn
    · exact h.2 i n hn

theorem setLeaf_none (h : Avoids S pt) : Avoids S (pt.setLeaf va none) := by
  unfold PageTable.setLeaf
  cases hn : pt.node0 va with
  | none => exact h
  | some n =>
    apply h.setNode0
    rintro m ⟨⟩
    refine ⟨(h.node0 hn).1, fun k pte hk => ?_⟩
    rw [Table.entry_set] at hk
    split_ifs at hk
    exact (h.node0 hn).2 k pte hk

end Avoids

def Proc.Avoids (S : Set ℕ) (p : Proc) : Prop :=
  (∀ pt, p.pagetable = some pt → Kernel.Avoids S pt) ∧ ∀ tf, p.trapframe = some tf → tf ∉ S

structure Guards (S : Set ℕ) (x₀ x : KState) : Prop where
  mem : ∀ p ∈ S, x.1.mem p = x₀.1.mem p
  free : ∀ p ∈ S, p ∉ x.1.freelist
  table : x.2.proc.pagetable = x₀.2.proc.pagetable
  files : ∀ f, (x.1.ftable f).type = .pipe → (x.1.ftable f).pipe ∉ S
  records : ∀ i p, (x.1.procs i).record = some p → p.Avoids S
  child : ∀ q, x.2.child = some q → q.2.Avoids S

section Calls

variable {sys : Sys} {S : Set ℕ} {x₀ : KState} {I : KState → Prop} {va page : ℕ} {t : TableRef}

theorem keeps_descend (level : ℕ) : Preserves I (descend t level va false) (fun _ => True) := by
  apply Preserves.bind (R := fun _ => True) (Preserves.read (fun _ _ => trivial))
  intro pt _
  apply Preserves.ite
  · exact fun _ => .pure trivial
  · exact fun _ => .ite nofun (fun _ => .pure trivial)

theorem keeps_walk : Preserves I (walk t va false) (fun _ => True) := by
  apply Preserves.ite
  · exact fun _ => .fail
  · intro _
    apply (keeps_descend 2).bind
    intro found _
    exact .ite (fun _ => keeps_descend 1) (fun _ => .pure trivial)

theorem keeps_pteAt {R : Option Pte → Prop} (h : ∀ x, I x → R (((x.2.table t).getD (.empty 0)).leaf va)) :
    Preserves I (pteAt t va) R := by
  apply Preserves.bind (R := fun pt => R (pt.leaf va)) (Preserves.read h)
  exact fun pt hpt => .pure hpt

theorem keeps_kalloc : Preserves (Guards S x₀) kalloc (fun o => ∀ p, o = some p → p ∉ S) := by
  intro x hx
  apply post_kalloc
  · exact ⟨hx, nofun⟩
  · intro page rest hl
    have hpage : page ∉ S := fun hp => hx.free page hp (hl ▸ List.mem_cons_self)
    refine ⟨⟨fun p hp => ?_, fun p hp => ?_, hx.table, hx.files, hx.records, hx.child⟩, ?_⟩
    · have hne : p ≠ page := fun he => hpage (he ▸ hp)
      exact (update_of_ne hne _ _).trans (hx.mem p hp)
    · exact fun hr => hx.free p hp (hl ▸ List.mem_cons_of_mem _ hr)
    · rintro p ⟨⟩
      exact hpage

theorem keeps_kfree {drop : Local → Local} (hp : page ∉ S)
    (hdrop : ∀ x : KState, Guards S x₀ x → (drop x.2).proc.pagetable = x.2.proc.pagetable ∧
      ∀ q, (drop x.2).child = some q → q.2.Avoids S) :
    Preserves (Guards S x₀) (kfree sys page drop) (fun _ => True) := by
  apply Preserves.ite
  · intro _
    apply Preserves.modify
    intro x hx
    obtain ⟨htable, hchild⟩ := hdrop x hx
    refine ⟨fun p hps => ?_, fun p hps hfree => ?_, htable.trans hx.table, hx.files, hx.records, hchild⟩
    · have hne : p ≠ page := fun he => hp (he ▸ hps)
      exact (update_of_ne hne _ _).trans (hx.mem p hps)
    · rcases List.mem_cons.mp hfree with rfl | hfree
      · exact hp hps
      · exact hx.free p hps hfree
  · exact fun _ => .fail

theorem keeps_fsCall {α : Type} {m : Fs.FsM α} : Preserves (Guards S x₀) (fsCall m) (fun _ => True) := by
  apply Preserves.step
  intro x a y hx hy
  dsimp only at hy
  cases hm : m x.1.fs with
  | error e =>
    rw [hm] at hy
    cases hy
  | ok r =>
    rw [hm] at hy
    cases hy
    exact ⟨⟨hx.mem, hx.free, hx.table, hx.files, hx.records, hx.child⟩, trivial⟩

/-! ### Storing through the page table of the process -/

def Writable (x : KState) (addr n : ℕ) : Prop :=
  ∀ va, addr ≤ va → va < addr + n → va < maxVa → ∀ pte, leafOf x va = some pte → pte.u = true → pte.w = true

def Clear (S : Set ℕ) (x : KState) (addr n : ℕ) : Prop :=
  ∀ va, addr ≤ va → va < addr + n → va < maxVa → ∀ pte, leafOf x va = some pte → pte.u = true → pte.pa ∉ S

theorem Clear.sub {addr n addr' n' : ℕ} (h : Clear S x₀ addr n) (hlo : addr ≤ addr') (hhi : addr' + n' ≤ addr + n) :
    Clear S x₀ addr' n' := fun va hva hlt => h va (hlo.trans hva) (hlt.trans_le hhi)

theorem keeps_walkaddr : Preserves (Guards S x₀) (walkaddr .own va) (fun o => ∀ pa, o = some pa → va < maxVa ∧
    ∃ pte, leafOf x₀ va = some pte ∧ pte.u = true ∧ pte.pa = pa) := by
  apply Preserves.ite
  · exact fun _ => .pure nofun
  · intro hva
    apply keeps_walk.bind
    intro found _
    apply Preserves.ite
    · intro _
      apply Preserves.bind (R := fun o => ∀ pte, o = some pte → leafOf x₀ va = some pte)
      · apply keeps_pteAt
        intro x hx pte hpte
        rw [leafOf, ← hx.table]
        change (x.2.proc.pagetable.getD (.empty 0)).leaf va = some pte at hpte
        cases hpt : x.2.proc.pagetable with
        | none =>
          rw [hpt, Option.getD_none] at hpte
          cases hpte
        | some pt =>
          rw [hpt, Option.getD_some] at hpte
          exact hpte
      · intro o ho
        cases o with
        | none => exact .pure nofun
        | some pte =>
          apply Preserves.pure
          intro pa hpa
          split_ifs at hpa with hu
          cases hpa
          exact ⟨Nat.lt_of_not_le hva, pte, ho pte rfl, hu, rfl⟩
    · exact fun _ => .pure nofun

theorem keeps_storeBytes {off n : ℕ} {src : ℕ → UInt8} (hp : page ∉ S) :
    Preserves (Guards S x₀) (storeBytes page off n src) (fun _ => True) := by
  apply Preserves.modify
  intro x hx
  refine ⟨fun p hps => ?_, hx.free, hx.table, hx.files, hx.records, hx.child⟩
  have hne : p ≠ page := fun he => hp (he ▸ hps)
  exact (update_of_ne hne _ _).trans (hx.mem p hps)

theorem keeps_copyoutLoop {src : ℕ → UInt8} {fuel dstva len tot : ℕ} (h : Clear S x₀ dstva len) :
    Preserves (Guards S x₀) (copyoutLoop .own src fuel dstva len tot) (fun _ => True) := by
  induction fuel generalizing dstva len tot with
  | zero => exact .pure trivial
  | succ fuel ih =>
    unfold copyoutLoop
    apply Preserves.ite
    · exact fun _ => .pure trivial
    · intro hlen
      apply keeps_walkaddr.bind
      intro o ho
      cases o with
      | none => exact .pure trivial
      | some pa =>
        obtain ⟨hva, pte, hpte, hu, rfl⟩ := ho pa rfl
        have hround : pgRoundDown dstva ≤ dstva ∧ dstva < maxVa ∧ pgRoundDown dstva / pgSize = dstva / pgSize := by
          simp only [pgRoundDown, pgSize, maxVa] at hva ⊢
          omega
        have hleaf : leafOf x₀ dstva = some pte := by
          rw [← hpte]
          exact leafOf_of_div _ (hva.trans (by decide)) (hround.2.1.trans (by decide)) hround.2.2.symm
        have hpa := h dstva (Nat.le_refl _) (by omega) hround.2.1 pte hleaf hu
        apply (keeps_storeBytes hpa).bind
        intro _ _
        apply ih
        have hmod : dstva = pgRoundDown dstva + dstva % pgSize := by
          rw [pgRoundDown, Nat.mul_comm]
          exact (Nat.div_add_mod dstva pgSize).symm
        have hlt : dstva % pgSize < pgSize := Nat.mod_lt _ (by decide)
        intro va hlo hhi
        exact h va (by omega) (by omega)

theorem keeps_copyout {src : ℕ → UInt8} {dstva len : ℕ} (h : Clear S x₀ dstva len) :
    Preserves (Guards S x₀) (copyout .own dstva src len) (fun _ => True) := keeps_copyoutLoop h

/-! ### Files and pipes -/

theorem Guards.setFile {x : KState} (hx : Guards S x₀ x) (f : Fin nFile) (file : File)
    (hfile : file.type = .pipe → file.pipe ∉ S) {l : Local}
    (hl : l.proc.pagetable = x.2.proc.pagetable ∧ l.child = x.2.child) : Guards S x₀ (x.1.setFile f file, l) := by
  refine ⟨hx.mem, hx.free, hl.1.trans hx.table, fun g hg => ?_, hx.records, fun q hq => hx.child q (hl.2.symm.trans hq)⟩
  by_cases hgf : g = f
  · subst hgf
    simp only [Shared.setFile, update_self] at hg ⊢
    exact hfile hg
  · simp only [Shared.setFile, update_of_ne hgf] at hg ⊢
    exact hx.files g hg

theorem keeps_filealloc : Preserves (Guards S x₀) filealloc (fun _ => True) := by
  intro x hx
  refine ⟨?_, trivial⟩
  dsimp only
  cases allocFile x with
  | none => exact hx
  | some f => exact hx.setFile f { x.1.ftable f with ref := 1 } (hx.files f) ⟨rfl, rfl⟩

section Close

variable {drop drop' : Local → Local} (hdrop : ∀ l, (drop l).proc.pagetable = l.proc.pagetable ∧ (drop l).child = l.child)
  (hdrop' : ∀ l, (drop' l).proc.pagetable = l.proc.pagetable ∧ (drop' l).child = l.child)

include hdrop

theorem keeps_releaseFile {f : Fin nFile} :
    Preserves (Guards S x₀) (releaseFile f drop) (fun o => ∀ ff, o = some ff → ff.type = .pipe → ff.pipe ∉ S) := by
  apply Preserves.step
  intro x o y hx hy
  dsimp only at hy
  split_ifs at hy with _ _ htype
  · cases hy
    exact ⟨hx.setFile f { x.1.ftable f with ref := (x.1.ftable f).ref - 1 } (hx.files f) (hdrop x.2), fun _ hff => nomatch hff⟩
  · cases hy
    refine ⟨hx.setFile f { x.1.ftable f with ref := 0, type := .none } (fun h => nomatch h) (hdrop x.2), ?_⟩
    rintro ff ⟨⟩
    exact hx.files f
  · cases hy
    refine ⟨hx.setFile f { x.1.ftable f with ref := 0, type := .none } (fun h => nomatch h) (hdrop x.2), ?_⟩
    rintro ff ⟨⟩
    exact hx.files f

theorem keeps_fileclose {f : Fin nFile} : Preserves (Guards S x₀) (fileclose sys f drop) (fun _ => True) := by
  apply (keeps_releaseFile hdrop).bind
  intro o ho
  cases o with
  | none => exact .pure trivial
  | some ff =>
    have hpipe := ho ff rfl
    dsimp only
    cases htype : ff.type with
    | pipe =>
      apply Preserves.bind (R := fun _ => True)
      · intro x hx
        refine ⟨?_, trivial⟩
        dsimp only
        split_ifs <;> exact ⟨hx.mem, hx.free, hx.table, hx.files, hx.records, hx.child⟩
      · intro last _
        apply Preserves.ite
        · intro _
          exact keeps_kfree (hpipe htype) (fun x hx => ⟨rfl, hx.child⟩)
        · exact fun _ => .pure trivial
    | inode => exact keeps_fsCall
    | device => exact keeps_fsCall
    | none => exact .pure trivial

include hdrop' in
theorem keeps_closeBoth {α : Type} {f g : Fin nFile} {a : α} :
    Preserves (Guards S x₀) (do fileclose sys f drop; fileclose sys g drop'; return a) (fun _ => True) := by
  apply (keeps_fileclose hdrop).bind
  intro _ _
  exact (keeps_fileclose hdrop').bind (fun _ _ => .pure trivial)

end Close

theorem keeps_fdalloc {f : Fin nFile} : Preserves (Guards S x₀) (fdalloc f) (fun _ => True) := by
  intro x hx
  refine ⟨?_, trivial⟩
  dsimp only
  cases x.2.proc.freeFd with
  | none => exact hx
  | some fd => exact ⟨hx.mem, hx.free, hx.table, hx.files, hx.records, hx.child⟩

theorem keeps_pipealloc : Preserves (Guards S x₀) (pipealloc sys) (fun _ => True) := by
  apply keeps_filealloc.bind
  intro o _
  cases o with
  | none => exact .pure trivial
  | some f0 =>
    apply keeps_filealloc.bind
    intro o _
    cases o with
    | none =>
      refine Preserves.bind (keeps_fileclose ?_) (fun _ _ => .pure trivial)
      exact fun _ => ⟨rfl, rfl⟩
    | some f1 =>
      apply keeps_kalloc.bind
      intro o ho
      cases o with
      | none => refine keeps_closeBoth ?_ ?_ <;> exact fun _ => ⟨rfl, rfl⟩
      | some page =>
        apply Preserves.bind (R := fun _ => True)
        · apply Preserves.modify
          intro x hx
          have hset : Guards S x₀ ({ x.1 with pipes := update x.1.pipes page (some ⟨true, true⟩) }, x.2) :=
            ⟨hx.mem, hx.free, hx.table, hx.files, hx.records, hx.child⟩
          have hread := hset.setFile f0 { x.1.ftable f0 with type := .pipe, readable := true, writable := false, pipe := page }
            (fun _ => ho page rfl) (l := x.2) ⟨rfl, rfl⟩
          exact hread.setFile f1 _ (fun _ => ho page rfl) ⟨rfl, rfl⟩
        · exact fun _ _ => .pure trivial

theorem keeps_copyout_out {src : ℕ → UInt8} {dstva len : ℕ} (hva : maxVa ≤ dstva) (hlen : 0 < len) :
    Preserves (Guards S x₀) (copyout .own dstva src len) (fun copied => copied = false) := by
  obtain ⟨n, rfl⟩ := Nat.exists_eq_add_one_of_ne_zero (Nat.ne_of_gt hlen)
  have hround : maxVa ≤ pgRoundDown dstva := by
    simp only [pgRoundDown, pgSize, maxVa] at hva ⊢
    omega
  unfold copyout copyoutLoop
  rw [if_neg (Nat.succ_ne_zero n), walkaddr, if_pos hround]
  exact .pure rfl

theorem keeps_sysPipe {fdarray : ℕ} (hlt : fdarray < 2 ^ 64) (h : Clear S x₀ fdarray 8) :
    Preserves (Guards S x₀) (sysPipe sys fdarray) (fun _ => True) := by
  apply keeps_pipealloc.bind
  intro o _
  cases o with
  | none => exact .pure trivial
  | some r =>
    obtain ⟨rf, wf⟩ := r
    apply keeps_fdalloc.bind
    intro o _
    cases o with
    | none => refine keeps_closeBoth ?_ ?_ <;> exact fun _ => ⟨rfl, rfl⟩
    | some fd0 =>
      apply keeps_fdalloc.bind
      intro o _
      cases o with
      | none => refine keeps_closeBoth ?_ ?_ <;> exact fun _ => ⟨rfl, rfl⟩
      | some fd1 =>
        have hfirst : Preserves (Guards S x₀) (copyout .own fdarray (le32 fd0) 4)
            (fun copied => copied = true → (fdarray + 4) % 2 ^ 64 = fdarray + 4) := by
          by_cases hva : fdarray < maxVa
          · apply (keeps_copyout (h.sub (Nat.le_refl _) (by omega))).mono
            intro _ _ _
            apply Nat.mod_eq_of_lt
            simp only [maxVa] at hva
            omega
          · apply (keeps_copyout_out (Nat.le_of_not_lt hva) (by omega)).mono
            intro _ hfalse htrue
            rw [hfalse] at htrue
            cases htrue
        apply hfirst.bind
        intro first hwrap
        have hend (both : Bool) : Preserves (Guards S x₀) (if both then (return 0 : KM ℤ) else do
            fileclose sys rf (·.clearFd fd0)
            fileclose sys wf (·.clearFd fd1)
            return -1) (fun _ => True) := by
          refine .ite (fun _ => .pure trivial) (fun _ => keeps_closeBoth ?_ ?_) <;> exact fun _ => ⟨rfl, rfl⟩
        apply Preserves.ite
        · intro hf
          rw [hwrap hf]
          exact (keeps_copyout (h.sub (by omega) (by omega))).bind (fun both _ => hend both)
        · exact fun _ => hend false

/-! ### Freeing a child -/

theorem Guards.mapTable {x : KState} (hx : Guards S x₀ x) {f : PageTable → PageTable}
    (hf : ∀ pt, Avoids S pt → Avoids S (f pt)) : ((x.2.mapTable .child f).proc.pagetable = x.2.proc.pagetable) ∧
      ∀ q, (x.2.mapTable .child f).child = some q → q.2.Avoids S := by
  refine ⟨rfl, fun q hq => ?_⟩
  obtain ⟨c, hc, rfl⟩ := Option.map_eq_some_iff.mp hq
  refine ⟨fun pt hpt => ?_, (hx.child c hc).2⟩
  dsimp only at hpt
  rw [Local.table, hc, Option.bind_some] at hpt
  obtain ⟨pt', hpt', rfl⟩ := Option.map_eq_some_iff.mp hpt
  exact hf pt' ((hx.child c hc).1 pt' hpt')

theorem Guards.childTable {x : KState} (hx : Guards S x₀ x) :
    ∀ pt, x.2.table .child = some pt → Avoids S pt := by
  intro pt hpt
  obtain ⟨c, hc, hpt⟩ := Option.bind_eq_some_iff.mp hpt
  exact (hx.child c hc).1 pt hpt

theorem keeps_unmapLoop {doFree : Bool} {n a : ℕ} : Preserves (Guards S x₀) (unmapLoop sys .child doFree n a) (fun _ => True) := by
  induction n generalizing a with
  | zero => exact .pure trivial
  | succ n ih =>
    unfold unmapLoop
    apply keeps_walk.bind
    intro found _
    apply Preserves.ite
    · intro _
      apply Preserves.bind (R := fun o => ∀ pte, o = some pte → pte.pa ∉ S)
      · apply keeps_pteAt
        intro x hx pte hpte
        cases hpt : x.2.table .child with
        | none =>
          rw [hpt, Option.getD_none] at hpte
          cases hpte
        | some pt =>
          rw [hpt, Option.getD_some] at hpte
          exact (hx.childTable pt hpt).leaf hpte
      · intro o ho
        cases o with
        | none => exact .fail
        | some pte =>
          apply Preserves.bind (R := fun _ => True)
          · apply Preserves.ite
            · intro _
              exact keeps_kfree (ho pte rfl) (fun x hx => hx.mapTable (fun _ h => h.setLeaf_none))
            · intro _
              apply Preserves.modify
              intro x hx
              obtain ⟨htable, hchild⟩ := hx.mapTable (f := (·.setLeaf a none)) (fun _ h => h.setLeaf_none)
              exact ⟨hx.mem, hx.free, htable.trans hx.table, hx.files, hx.records, hchild⟩
          · exact fun _ _ => ih
    · exact fun _ => .fail

theorem keeps_uvmunmap {doFree : Bool} {npages : ℕ} :
    Preserves (Guards S x₀) (uvmunmap sys .child va npages doFree) (fun _ => True) :=
  .ite (fun _ => .fail) (fun _ => keeps_unmapLoop)

theorem Guards.reap {x : KState} (hx : Guards S x₀ x) (me np : Fin nProc) : Guards S x₀ (reap me np x) := by
  unfold Kernel.reap
  split_ifs
  · refine ⟨hx.mem, hx.free, hx.table, hx.files, fun i r hr => ?_, fun q hq => ?_⟩
    · by_cases hi : i = np
      · subst hi
        simp only [Shared.setSlot, update_self] at hr
        cases hr
      · simp only [Shared.setSlot, update_of_ne hi] at hr
        exact hx.records i r hr
    · obtain ⟨p, hp, rfl⟩ := Option.map_eq_some_iff.mp hq
      exact hx.records np p hp
  · exact hx

section Freewalk

variable (h0 : 0 ∉ S)

include h0

theorem keeps_table : Preserves (Guards S x₀) (table .child) (Avoids S) := by
  apply Preserves.read
  intro x hx
  cases hpt : x.2.table .child with
  | none => exact ⟨h0, nofun⟩
  | some pt => exact hx.childTable pt hpt

theorem keeps_freewalk0 : Preserves (Guards S x₀) (freewalk0 sys .child va) (fun _ => True) := by
  apply (keeps_table h0).bind
  intro pt hpt
  split
  · exact .pure trivial
  · next n hn =>
    apply Preserves.ite
    · exact fun _ => .fail
    · exact fun _ => keeps_kfree (hpt.node0 hn).1 (fun x hx => hx.mapTable (fun _ h => h.setNode0 nofun))

theorem keeps_freewalk1 {i : Fin 512} : Preserves (Guards S x₀) (freewalk1 sys .child i) (fun _ => True) := by
  apply (keeps_table h0).bind
  intro pt hpt
  split
  · exact .pure trivial
  · next n hn =>
    apply (Preserves.forM (fun j _ => keeps_freewalk0 h0)).bind
    exact fun _ _ => keeps_kfree (hpt.2 i n hn).1 (fun x hx => hx.mapTable (fun _ h => h.set_none i))

theorem keeps_freewalk : Preserves (Guards S x₀) (freewalk sys .child) (fun _ => True) := by
  apply (Preserves.forM (fun i _ => keeps_freewalk1 h0)).bind
  intro _ _
  apply (keeps_table h0).bind
  intro pt hpt
  apply keeps_kfree hpt.1
  intro x hx
  refine ⟨rfl, fun q hq => ?_⟩
  obtain ⟨c, hc, rfl⟩ := Option.map_eq_some_iff.mp hq
  exact ⟨nofun, (hx.child c hc).2⟩

theorem keeps_procFreepagetable {sz : ℕ} : Preserves (Guards S x₀) (procFreepagetable sys .child sz) (fun _ => True) := by
  apply keeps_uvmunmap.bind
  intro _ _
  apply keeps_uvmunmap.bind
  intro _ _
  apply Preserves.bind (R := fun _ => True)
  · exact .ite (fun _ => keeps_uvmunmap) (fun _ => .pure trivial)
  · exact fun _ _ => keeps_freewalk h0

theorem keeps_freeproc : Preserves (Guards S x₀) (freeproc sys) (fun _ => True) := by
  apply Preserves.bind (R := fun o => ∀ q, o = some q → q.2.Avoids S) (Preserves.read (fun x hx => hx.child))
  intro o ho
  cases o with
  | none => exact .pure trivial
  | some q =>
    obtain ⟨np, p⟩ := q
    have hp := ho _ rfl
    apply Preserves.bind (R := fun _ => True)
    · split
      · next tf htf =>
        apply keeps_kfree (hp.2 tf htf)
        intro x hx
        refine ⟨rfl, fun q hq => ?_⟩
        obtain ⟨c, hc, rfl⟩ := Option.map_eq_some_iff.mp hq
        exact ⟨(hx.child c hc).1, nofun⟩
      · exact .pure trivial
    · intro _ _
      apply Preserves.bind (R := fun _ => True)
      · exact .ite (fun _ => keeps_procFreepagetable h0) (fun _ => .pure trivial)
      · intro _ _
        apply Preserves.modify
        intro x hx
        unfold resetSlot
        split
        · next np p hc =>
          refine ⟨hx.mem, hx.free, hx.table, hx.files, fun i r hr => ?_, nofun⟩
          by_cases hi : i = np
          · subst hi
            simp only [Shared.setSlot, update_self, Option.some.injEq] at hr
            subst hr
            exact hx.child _ hc
          · simp only [Shared.setSlot, update_of_ne hi] at hr
            exact hx.records i r hr
        · exact hx

theorem keeps_waitScan {me : Fin nProc} {addr : ℕ} {havekids : Bool} {nps : List (Fin nProc)} (h : Clear S x₀ addr 4) :
    Preserves (Guards S x₀) (waitScan sys me addr havekids nps) (fun _ => True) := by
  induction nps generalizing havekids with
  | nil => exact Preserves.bind (R := fun _ => True) (Preserves.read (fun _ _ => trivial)) (fun _ _ => .pure trivial)
  | cons np nps ih =>
    apply Preserves.bind (R := fun _ => True) (Preserves.read (fun _ _ => trivial))
    intro slot _
    have hend (copied : Bool) : Preserves (Guards S x₀) (if copied then do
        .modify (Kernel.reap me np)
        freeproc sys
        return some (slot.pid : ℤ)
      else return some (-1)) (fun _ => True) := by
      apply Preserves.ite
      · intro _
        apply (Preserves.modify (fun x hx => hx.reap me np)).bind
        intro _ _
        exact (keeps_freeproc h0).bind (fun _ _ => .pure trivial)
      · exact fun _ => .pure trivial
    apply Preserves.ite
    · intro _
      apply Preserves.ite
      · intro _
        apply Preserves.ite
        · exact fun _ => (keeps_copyout h).bind (fun copied _ => hend copied)
        · exact fun _ => hend true
      · exact fun _ => ih
    · exact fun _ => ih

end Freewalk

/-! ### Reading files -/

theorem Clear.add {addr n m : ℕ} (h : Clear S x₀ addr n) (hm : m ≤ n) : Clear S x₀ (addr + m) (n - m) :=
  h.sub (Nat.le_add_right _ _) (by omega)

theorem keeps_readiLoop {ip : Fin nInode} {fuel dst off n tot : ℕ} (h : Clear S x₀ dst (n - tot)) :
    Preserves (Guards S x₀) (readiLoop sys ip fuel dst off n tot) (fun _ => True) := by
  induction fuel generalizing dst off tot with
  | zero => exact .pure trivial
  | succ fuel ih =>
    unfold readiLoop
    apply Preserves.ite
    · intro _
      apply keeps_fsCall.bind
      intro bp _
      apply (keeps_copyout (h.sub (Nat.le_refl _) (Nat.add_le_add_left (Nat.min_le_left _ _) _))).bind
      intro copied _
      apply Preserves.ite
      · intro _
        apply ih
        rw [Nat.sub_add_eq]
        exact h.add (Nat.min_le_left _ _)
      · exact fun _ => .pure trivial
    · exact fun _ => .pure trivial

theorem keeps_deliver {input : List UInt8} {addr : ℕ} (h : Clear S x₀ addr input.length) :
    Preserves (Guards S x₀) (deliver input addr) (fun _ => True) := by
  induction input generalizing addr with
  | nil => exact .pure trivial
  | cons b bs ih =>
    rw [List.length_cons] at h
    apply (keeps_copyout (h.sub (Nat.le_refl _) (by omega))).bind
    intro copied _
    apply Preserves.ite
    · intro _
      exact (ih (h.add (Nat.le_add_left 1 _))).bind (fun _ _ => .pure trivial)
    · exact fun _ => .pure trivial

theorem keeps_fileread {f : Fin nFile} {off addr n : ℕ} {input : List UInt8} (h : Clear S x₀ addr n) :
    Preserves (Guards S x₀) (fileread sys f off input addr n) (fun _ => True) := by
  have hlimit : Clear S x₀ addr (input.take (if n < 2 ^ 31 then n else 0)).length := by
    apply h.sub (Nat.le_refl _)
    rw [List.length_take]
    split_ifs <;> omega
  have hdeliver : Preserves (Guards S x₀) (do
      let m ← deliver (input.take (if n < 2 ^ 31 then n else 0)) addr
      return (m : ℤ)) (fun _ => True) := (keeps_deliver hlimit).bind (fun _ _ => .pure trivial)
  apply Preserves.bind (R := fun _ => True) (Preserves.read (fun _ _ => trivial))
  intro file _
  apply Preserves.ite
  · exact fun _ => .pure trivial
  · intro _
    dsimp only
    cases file.type with
    | pipe => exact hdeliver
    | device =>
      apply Preserves.bind (R := fun _ => True) (Preserves.read (fun _ _ => trivial))
      intro ip _
      exact .ite (fun _ => hdeliver) (fun _ => .pure trivial)
    | inode =>
      apply keeps_fsCall.bind
      intro _ _
      apply Preserves.bind (R := fun _ => True) (Preserves.read (fun _ _ => trivial))
      intro size _
      apply Preserves.ite
      · exact fun _ => .pure trivial
      · intro hoff
        apply keeps_readiLoop
        apply h.sub (Nat.le_refl _)
        split_ifs with hsize
        · omega
        · omega
    | none => exact .fail

theorem keeps_filestat {f : Fin nFile} {stack : ℕ → UInt8} {addr : ℕ} (h : Clear S x₀ addr statSize) :
    Preserves (Guards S x₀) (filestat sys f stack addr) (fun _ => True) := by
  apply Preserves.bind (R := fun _ => True) (Preserves.read (fun _ _ => trivial))
  intro file _
  apply Preserves.ite
  · intro _
    apply keeps_fsCall.bind
    intro _ _
    apply Preserves.bind (R := fun _ => True) (Preserves.read (fun _ _ => trivial))
    intro ip _
    exact (keeps_copyout h).bind (fun _ _ => .pure trivial)
  · exact fun _ => .pure trivial

end Calls

/-! ### The calls that store to user memory -/

variable {sys : Sys} {x y : KState}

structure Alone (sys : Sys) (x : KState) : Prop extends Sound sys x where
  high : ∀ va, Vm.trapframe ≤ va → va < maxVa → ∀ pte, leafOf x va = some pte → pte.u = false
  files : ∀ va < Vm.trapframe, ∀ pte, leafOf x va = some pte → ∀ f, (x.1.ftable f).type = .pipe → (x.1.ftable f).pipe ≠ pte.pa
  records : ∀ va < Vm.trapframe, ∀ pte, leafOf x va = some pte → ∀ i p, (x.1.procs i).record = some p → p.Avoids {pte.pa}
  child : x.2.child = none
  kernel : 0 < sys.endPage

def readOnly (x : KState) : Set ℕ :=
  { pa | ∃ va < Vm.trapframe, ∃ pte, leafOf x va = some pte ∧ pte.w = false ∧ pte.pa = pa }

def Unwritten (x y : KState) : Prop :=
  ∀ va < Vm.trapframe, ∀ pte, leafOf x va = some pte → pte.w = false →
    leafOf y va = some pte ∧ y.1.mem pte.pa = x.1.mem pte.pa

theorem Avoids.of_singletons {S : Set ℕ} {pt : PageTable} (hS : ∀ p ∈ S, Avoids {p} pt) : Avoids S pt := by
  refine ⟨fun h => (hS _ h).1 rfl, fun i n hn => ⟨fun h => ((hS _ h).2 i n hn).1 rfl, fun j m hm => ?_⟩⟩
  refine ⟨fun h => (((hS _ h).2 i n hn).2 j m hm).1 rfl, fun k pte hk h => ?_⟩
  exact (((hS _ h).2 i n hn).2 j m hm).2 k pte hk rfl

namespace Alone

theorem guards (hx : Alone sys x) : Guards (readOnly x) x x := by
  refine ⟨fun _ _ => rfl, ?_, rfl, ?_, ?_, ?_⟩
  · rintro p ⟨va, hva, pte, hl, -, rfl⟩
    exact hx.taken va hva pte hl
  · rintro f hf ⟨va, hva, pte, hl, -, heq⟩
    exact hx.files va hva pte hl f hf heq.symm
  · intro i p hp
    constructor
    · intro pt hpt
      apply Avoids.of_singletons
      rintro q ⟨va, hva, pte, hl, -, rfl⟩
      exact (hx.records va hva pte hl i p hp).1 pt hpt
    · rintro tf htf ⟨va, hva, pte, hl, -, heq⟩
      exact (hx.records va hva pte hl i p hp).2 tf htf heq.symm
  · intro q hq
    rw [hx.child] at hq
    cases hq

theorem clear {addr n : ℕ} (hx : Alone sys x) (h : Writable x addr n) : Clear (readOnly x) x addr n := by
  rintro va hlo hhi hva pte hl hu ⟨va', hva', pte', hl', hw', heq⟩
  have hw := h va hlo hhi hva pte hl hu
  by_cases hlow : va < Vm.trapframe
  · have hdiv := hx.apart va hlow va' hva' pte pte' hl hl' heq.symm
    have hmax : Vm.trapframe < 2 ^ 39 := by decide
    have hsame := leafOf_of_div (x := x) va (hlow.trans hmax) (hva'.trans hmax) hdiv.symm
    rw [hl, hl', Option.some.injEq] at hsame
    rw [hsame, hw] at hw'
    cases hw'
  · rw [hx.high va (Nat.le_of_not_lt hlow) hva pte hl] at hu
    cases hu

theorem zero_notMem (hx : Alone sys x) : 0 ∉ readOnly x := by
  rintro ⟨va, hva, pte, hl, -, heq⟩
  have := (hx.user va hva pte hl).1
  rw [heq] at this
  exact absurd hx.kernel (Nat.not_lt.mpr this)

theorem unwritten {α : Type} {m : KM α} {r : α} (hx : Alone sys x) (hm : Preserves (Guards (readOnly x) x) m (fun _ => True))
    (hr : m.returns x r y) : Unwritten x y := by
  have hy := (post_returns (hm x hx.guards) hr).1
  intro va hva pte hl hw
  refine ⟨?_, hy.mem _ ⟨va, hva, pte, hl, hw, rfl⟩⟩
  rw [leafOf, hy.table]
  exact hl

end Alone

section Example

def mixedTable : PageTable :=
  ((withPath (.empty 524455) 0 524456 524457).setLeaf 0 (some (userPte 524458))).setLeaf pgSize
    (some ⟨524459, true, false, false, true, rfl⟩)

theorem leaf_mixedTable {va : ℕ} (h : va < 2 ^ 39) : mixedTable.leaf va =
    if va / pgSize = 1 then some ⟨524459, true, false, false, true, rfl⟩
    else if va / pgSize = 0 then some (userPte 524458) else none := by
  have hn : ∃ n, ((withPath (.empty 524455) 0 524456 524457).setLeaf 0 (some (userPte 524458))).node0 pgSize = some n := by
    apply Option.isSome_iff_exists.mp
    rw [PageTable.node0_setLeaf_isSome]
    exact Option.isSome_of_eq_some node0_withPath
  obtain ⟨n, hn⟩ := hn
  rw [mixedTable, PageTable.leaf_setLeaf hn (by decide) h, PageTable.leaf_setLeaf node0_withPath (by decide) h,
    leaf_withPath rfl, leaf_empty]
  rfl

def halfWritable : KState :=
  ({ linkedFile.1 with freelist := [], procs := fun _ => ⟨.unused, 0, none, 0, false, none⟩ },
    { linkedFile.2 with proc := { linkedFile.2.proc with pagetable := some mixedTable } })

theorem leaf_halfWritable {va : ℕ} {pte : Pte} (h : va < 2 ^ 39) (hl : leafOf halfWritable va = some pte) :
    va / pgSize = 1 ∧ pte.pa = 524459 ∨ va / pgSize = 0 ∧ pte.pa = 524458 ∧ pte.w = true := by
  rw [leafOf_eq (show halfWritable.2.proc.pagetable = some mixedTable from rfl), leaf_mixedTable h] at hl
  split_ifs at hl with h1 h0
  · cases hl
    exact .inl ⟨h1, rfl⟩
  · cases hl
    exact .inr ⟨h0, rfl, rfl⟩

theorem halfWritable_alone : Alone bootSys halfWritable := by
  have hlow : Vm.trapframe < 2 ^ 39 := by decide
  refine ⟨⟨⟨_, rfl⟩, List.nodup_nil, nofun, nofun, ?_, ?_⟩, ?_, ?_, nofun, rfl, by decide⟩
  · intro va hva pte hl
    rcases leaf_halfWritable (hva.trans hlow) hl with ⟨-, hpa⟩ | ⟨-, hpa, -⟩ <;> rw [hpa] <;> decide
  · intro va hva va' hva' pte pte' hl hl' heq
    rcases leaf_halfWritable (hva.trans hlow) hl with ⟨hd, hpa⟩ | ⟨hd, hpa, -⟩ <;>
      rcases leaf_halfWritable (hva'.trans hlow) hl' with ⟨hd', hpa'⟩ | ⟨hd', hpa', -⟩ <;> omega
  · intro va hlo hva pte hl
    have hdiv := leaf_halfWritable (hva.trans (by decide)) hl
    simp only [Vm.trapframe, trampoline, maxVa, pgSize] at hlo hdiv
    omega
  · intro va hva pte hl f hf
    have hnone : ∀ f, (halfWritable.1.ftable f).type ≠ .pipe := by decide +kernel
    exact absurd hf (hnone f)

attribute [irreducible] halfWritable

def copiedLow : KState := after (sysRead bootSys 0 0 [] 10 3) halfWritable

def mappedRead : KState := after (sysMmap 0 4096 1 2 0 0) linkedFile

def loadedRead : KState := after (vmaFault bootSys 274877894656 13) mappedRead

theorem copiedLow_returns : (sysRead bootSys 0 0 [] 10 3).returns halfWritable 3 copiedLow := by
  have hfst : ((sysRead bootSys 0 0 [] 10 3).eval halfWritable).toOption.map Prod.fst = some 3 := by decide +kernel
  unfold copiedLow
  exact returns_after hfst

theorem mappedRead_returns : (sysMmap 0 4096 1 2 0 0).returns linkedFile 274877894656 mappedRead :=
  returns_after (by decide +kernel)

theorem loadedRead_returns : (vmaFault bootSys 274877894656 13).returns mappedRead 0 loadedRead :=
  returns_after (by decide +kernel)

attribute [irreducible] copiedLow mappedRead loadedRead

def overwritten : KState := after (sysRead bootSys 0 0 [] 274877894666 3) loadedRead

theorem overwritten_returns : (sysRead bootSys 0 0 [] 274877894666 3).returns loadedRead 3 overwritten :=
  returns_after (by decide +kernel)

attribute [irreducible] overwritten

end Example

end Xv6.Kernel
